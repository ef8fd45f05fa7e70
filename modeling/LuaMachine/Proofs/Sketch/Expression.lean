/-
  EXPRESSIONS ARE READ BY STEPS of the sketch. A function nested in an expression has a sketch of its own,
  and when it is finished the function around it goes on where it was.
-/
import LuaMachine.Proofs.Sketch.Scope

namespace LuaMachine

open Compile Compile.Goes

theorem Sketch.Similar.rests {u u' : Sketch} (h : u.Similar u') : u.Rests u' :=
  ⟨h.draft.locals, h.draft.declared, h.draft.active, h.draft.blocks, h.heads⟩

structure Grammar.Terms (g : Grammar) : Prop where
  subexpr : ∀ scope limit u, Goes scope (g.subexpr limit) u fun r u' => r.1.Fit u'
  name : ∀ scope n u, Goes scope (g.name n) u fun e u' => e.Fit u'

def Grammar.Orders (g : Grammar) (hs : List Nat) : Prop :=
  ∀ u bs, u.Ready bs hs → Goes true g.statement u fun _ u' => u'.Ready bs hs

/-! ## 1. The end of a function -/

/-- From a sketch of an inner function a computation ends it, and goes on by steps from the sketch `w` of the function
    around it, of which only captured variables may have changed. -/
def Compile.Ends {α : Type} (scope : Bool) (x : Compile α) (u w : Sketch) (Q : α → Sketch → Prop) : Prop :=
  u.Reachable → (∀ p ∈ u.draft.protos, p.All Proto.Wrought) → w.Sound →
    ∀ s a s' parent outer, s.fn = u.draft → s.outer = parent :: outer → w.draft.Aside parent → x s = .ok (a, s') →
      ∃ w', s'.fn = w'.draft ∧ w.Passes scope outer s'.outer w' ∧ Q a w'

namespace Compile

variable {α β : Type} {scope : Bool} {u w : Sketch}

theorem Ends.bind {x : Compile α} {f : α → Compile β} {P : α → Sketch → Prop} {Q : β → Sketch → Prop}
    (h : Goes true x u P) (hf : ∀ a u', P a u' → Ends scope (f a) u' w Q) : Ends scope (x >>= f) u w Q := by
  intro hu hprotos hw s b s' parent outer hs houter hparent hrun
  obtain ⟨a, t, hx, hrest⟩ := bind_ok hrun
  obtain ⟨u1, ht, hpasses, hp⟩ := h hu.sound s a t hs hx
  have haside := hpasses.outer
  rw [houter] at haside
  obtain ⟨parent', outer', hparent', houter', ht'⟩ := List.forall₂_cons_left_iff.mp haside
  have hprotos1 : ∀ p ∈ u1.draft.protos, p.All Proto.Wrought := fun p hp => (hpasses.protos p hp).elim (hprotos p) id
  obtain ⟨w', hs', hpasses', hq⟩ := hf a u1 hp (hu.steps hpasses.steps) hprotos1 hw t b s' parent' outer' ht ht'
    (hparent.trans hparent') hrest
  exact ⟨w', hs', ⟨hpasses'.steps, Aside.trans houter' hpasses'.outer, hpasses'.protos⟩, hq⟩

theorem Ends.read {x : Compile α} {f : α → Compile β} {Q : β → Sketch → Prop} (hx : Reads x)
    (hf : ∀ a, Ends scope (f a) u w Q) : Ends scope (x >>= f) u w Q :=
  Ends.bind (ofReads (P := fun _ u' => u' = u) hx fun _ => rfl) fun a u' hu' => by
    rw [hu']
    exact hf a

theorem Goes.keepProto {p : Proto} (hp : p.All Proto.Wrought) :
    Goes scope (Compile.modifyFn fun d => { d with protos := d.protos.push p }) u fun _ _ => True := by
  intro _ s a s' hs hrun
  cases hrun
  refine ⟨{ u with draft := { u.draft with protos := u.draft.protos.push p } }, by rw [← hs], ⟨.single (.keep ?_), .refl _,
    fun q hq => ?_⟩, trivial⟩
  · exact ⟨rfl, rfl, rfl, rfl, rfl, rfl, rfl, Nat.le_max_left _ _, fun _ => .inl, fun _ => .inl⟩
  · rcases Array.mem_push.mp hq with hq | rfl
    · exact .inl hq
    · exact .inr hp

/-- **A function is finished**, and its closure goes to a register of the one around it. -/
theorem closeFunction_ends (hu : u.At 0 [0] []) : Ends scope Grammar.closeFunction u w fun _ _ => True := by
  have hbody : Goes true Grammar.closeBody u fun _ u' => u'.Ready [] [] ∧ u'.draft.active = 0 :=
    (Goes.emitReturn 0 (some 0)).resting.bind fun _ u1 _ h1 => Goes.leaveBlock (hu.rests h1.2)
  refine Ends.bind hbody fun _ u1 h1 => ?_
  intro hu1 hprotos hw s a s' parent outer hs houter hparent hrun
  have hdeclared : u1.draft.declared = #[] := by
    refine Array.eq_empty_of_size_eq_zero ?_
    rw [h1.1.level.waits, h1.2]
  have hwrought : Proto.All Proto.Wrought (s.fn.finish s.source) := by
    rw [hs]
    exact .mk ⟨u1, s.source, hu1, hdeclared, rfl⟩ fun q hq => hprotos q (Array.mem_toList_iff.mp hq)
  obtain ⟨_, _, hget, hrun⟩ := bind_ok hrun
  cases hget
  rw [houter] at hrun
  obtain ⟨_, _, hset, hrun⟩ := bind_ok hrun
  cases hset
  have hsame := Draft.Resembles.ofAside hparent
  have hkeep : w.Step scope { w with draft := parent } := .keep hsame.keeps
  have hgoes : Goes scope (if Instr.maxBx ≤ parent.protos.size then failLimit .functions Instr.maxBx else do
      Compile.modifyFn fun d => { d with protos := d.protos.push (s.fn.finish s.source) }
      let pc ← Compile.emitABx .closure 0 parent.protos.size
      Compile.toNextRegister (.plain (.pending pc))) { w with draft := parent } fun _ _ => True := by
    split
    · exact Goes.failLimit
    · refine (Goes.keepProto hwrought).bind fun _ w1 _ _ => Goes.sound fun hw1 => (Goes.emitABx rfl).bind
        fun pc w2 _ h2 => ?_
      refine Goes.toNextRegister (Expr.fit_plain (Place.fit_pending (.ofWritten hw1 h2 ?_)))
      rw [Instr.opcode_ofABx]
      rfl
  obtain ⟨w', hs', hpasses, -⟩ := hgoes (hkeep.sound hw) _ a s' rfl hrun
  refine ⟨w', hs', ⟨.head hkeep hpasses.steps, hpasses.outer, fun p hp => ?_⟩, trivial⟩
  rw [← hsame.protos]
  exact hpasses.protos p hp

end Compile

namespace Grammar

variable {g : Grammar} {scope : Bool} {u : Sketch} {e : Expr} {bs hs : List Nat}

/-! ## 2. Functions -/

/-- **Statements are read** up to the end of a block. -/
theorem Orders.statements (hg : g.Orders hs) (hu : u.Ready bs hs) :
    Goes true g.statements u fun _ u' => u'.Ready bs hs := by
  unfold Grammar.statements
  generalize g.bound = n
  induction n generalizing u with
  | zero => exact failNear
  | succ n ih =>
    refine read Reads.atBlockEnd fun atEnd => ?_
    split
    · exact pure hu
    · refine read Reads.token fun t => (hg u bs hu).bind fun _ u1 _ h1 => ?_
      split
      · exact pure h1
      · exact ih h1

theorem parametersFrom_goes (n count : Nat) (hu : u.At count bs hs) :
    Goes true (parametersFrom n count) u fun c u' => u'.At c bs hs ∧ u'.draft.free = u.draft.free := by
  induction n generalizing u count with
  | zero => exact failNear
  | succ n ih =>
    refine read Reads.token fun t => ?_
    split
    · refine read Reads.checkName fun name => (Goes.declare name hu).bind fun _ u1 _ h1 => ?_
      refine read Reads.testNext fun more => ?_
      split
      · exact (ih (count + 1) h1.1).imp fun _ _ h => ⟨h.1, h.2.trans h1.2.1⟩
      · exact pure ⟨h1.1, h1.2.1⟩
    · refine read Reads.next fun _ => ?_
      refine (note (P := fun _ u' => u'.At count bs hs ∧ u'.draft.free = u.draft.free) (Draft.Resembles.rest rfl).keeps
        rfl ⟨⟨hu.waits, hu.blocks, hu.heads⟩, rfl⟩).bind fun _ u1 _ h1 => pure h1
    · exact failNear

/-- **Parameters begin**, and hold the first registers. -/
theorem parameters_goes (g : Grammar) (hu : u.At 0 bs hs) (hfree : u.draft.free = 0) :
    Goes true g.parameters u fun _ u' => u'.Ready bs hs := by
  have hrest : ∀ count (u1 : Sketch), u1.At count bs hs → u1.draft.free = 0 → Goes true (do
      Compile.activate count
      Compile.modifyFn fun d => { d with params := d.active }
      Compile.reserve (← MonadState.get).fn.active) u1 fun _ u' => u'.Ready bs hs := by
    intro count u1 hu1 hfree1
    refine (Goes.activate (Nat.le_of_eq hu1.waits.symm)).bind fun _ u2 _ h2 => ?_
    have hu2 : u2.At 0 bs hs := h2.at (by rwa [Nat.zero_add])
    refine (note (P := fun _ u' => u'.At 0 bs hs ∧ u'.draft.free = 0) (Draft.Resembles.rest rfl).keeps rfl
      ⟨⟨hu2.waits, hu2.blocks, hu2.heads⟩, h2.free.trans hfree1⟩).bind fun _ u3 _ h3 => get fun s hs' => ?_
    rw [hs']
    refine (Goes.reserve _).imp fun _ u4 h4 => ⟨h3.1.rests h4.1.rests, ?_⟩
    rw [h4.2.1, h3.2, h4.1.rests.active, Nat.zero_add]
  refine read Reads.token fun t => ?_
  extract_lets rest
  split
  · exact hrest 0 u hu hfree
  · exact (parametersFrom_goes _ 0 hu).bind fun count u1 _ h1 => hrest count u1 h1.1 (h1.2.trans hfree)

/-- **A function is read**: it has a sketch of its own, and the function around goes on by steps. -/
theorem Orders.functionBody (ho : g.Orders []) (isMethod : Bool) (line : Nat) :
    Goes scope (g.functionBody isMethod line) u fun _ _ => True := by
  have hends : ∀ w, Ends scope (do
      Compile.enterBlock false
      checkNext (.symbol .lparen)
      if isMethod then
        Compile.declare (Bytes.ofString "self")
        Compile.activate 1
      g.parameters
      checkNext (.symbol .rparen)
      g.statements
      let last ← Compile.line
      Compile.modifyFn fun d => { d with lastLine := last }
      checkMatch (.keyword .end) (.keyword .function) line
      closeFunction) (Sketch.new line) w fun _ _ => True := by
    intro w
    have hnew : (Sketch.new line).At 0 [] [] := ⟨rfl, rfl, rfl⟩
    refine Ends.bind (Goes.enterBlock false hnew) fun _ u1 h1 => Ends.read Reads.checkNext fun _ => ?_
    have hfree1 : u1.draft.free = 0 := h1.2.1.trans h1.2.2
    extract_lets rest
    have hrest : ∀ u2 : Sketch, u2.At 0 [0] [] → u2.draft.free = 0 → Ends scope (rest ()) u2 w fun _ _ => True := by
      intro u2 hu2 hfree2
      refine Ends.bind (parameters_goes g hu2 hfree2) fun _ u3 h3 => Ends.read Reads.checkNext fun _ => ?_
      refine Ends.bind (ho.statements h3) fun _ u4 h4 => Ends.read Reads.line fun last => ?_
      refine Ends.bind (note (P := fun _ u' => u'.At 0 [0] []) (Draft.Resembles.rest rfl).keeps rfl
        ⟨h4.level.waits, h4.level.blocks, h4.level.heads⟩) fun _ u5 h5 => ?_
      exact Ends.read Reads.checkMatch fun _ => closeFunction_ends h5
    split
    · refine Ends.bind (Goes.declare _ h1.1) fun _ u2 h2 => ?_
      refine Ends.bind (Goes.activate (Nat.le_of_eq h2.1.waits.symm)) fun _ u3 h3 => hrest u3 (h3.at h2.1) ?_
      rw [h3.free, h2.2.1, hfree1]
    · exact hrest u1 h1.1 hfree1
  intro hu s a s' hs hrun
  unfold Grammar.functionBody openFunction at hrun
  rw [bind_assoc] at hrun
  obtain ⟨_, _, hopen, hrun⟩ := bind_ok hrun
  cases hopen
  refine hends u ⟨line, .refl⟩ ?_ hu _ a s' s.fn s.outer rfl rfl (hs ▸ .refl _) hrun
  simp [Sketch.new, Draft.new]

/-! ## 3. Lists, fields and constructors -/

theorem Terms.expr (hg : g.Terms) : Goes scope g.expr u fun e u' => e.Fit u' :=
  (hg.subexpr scope 0 u).bind fun _ _ _ hr => pure hr

theorem Terms.exprsFrom (hg : g.Terms) (n count : Nat) (he : e.Fit u) :
    Goes scope (g.exprsFrom n count e) u fun r u' => r.2.Fit u' := by
  induction n generalizing u count e with
  | zero => exact failNear
  | succ n ih =>
    refine read Reads.testNext fun more => ?_
    split
    · refine (discard (P := fun _ _ => True) (Goes.toNextRegister he)).bind fun _ u1 _ _ => ?_
      exact hg.expr.bind fun e2 u2 _ he2 => ih (count + 1) he2
    · exact pure he

theorem Terms.exprs (hg : g.Terms) : Goes scope g.exprs u fun r u' => r.2.Fit u' :=
  hg.expr.bind fun _ _ _ he => hg.exprsFrom _ _ he

theorem nameConstant_goes : Goes scope nameConstant u fun e u' => u.Similar u' ∧ ∀ w, e.Fit w :=
  read Reads.checkName fun _ => idle Idle.addConstant fun _ _ h => pure ⟨h, Expr.fit_inert rfl⟩

theorem field_goes (he : e.Fit u) : Goes scope (field e) u fun e' u' => e'.Fit u' := by
  refine (Goes.toRegisterOrUpvalue he).bind fun table u1 _ htable => read Reads.next fun _ => ?_
  refine nameConstant_goes.bind fun key u2 _ hkey => Goes.indexed (hkey.2 u2) (htable.1.similar hkey.1)

theorem Terms.bracketKey (hg : g.Terms) : Goes scope g.bracketKey u fun e u' => e.Fit u' := by
  refine read Reads.next fun _ => hg.expr.bind fun e u1 _ he => ?_
  exact (Goes.toValue he).bind fun e' u2 _ he' => read Reads.checkNext fun _ => pure he'

theorem Terms.keyedItem (hg : g.Terms) (x : Items) : Goes scope (g.keyedItem x) u fun y _ => y.last = x.last := by
  refine get fun s hs => ?_
  extract_lets free store
  have hstore : ∀ key (u1 : Sketch), key.Fit u1 → Goes scope (store key) u1 fun y _ => y.last = x.last := by
    intro key u1 hkey
    refine read Reads.checkNext fun _ => (Goes.toOperand hkey).bind fun k u2 _ _ => ?_
    refine hg.expr.bind fun e u3 _ he => (Goes.toOperand he).bind fun v u4 _ _ => ?_
    refine (Goes.writeABC rfl).bind fun _ u5 _ _ => ?_
    exact idle (Idle.modifyFn fun _ => .rest rfl) fun _ u6 _ => pure rfl
  refine read Reads.token fun t => ?_
  split
  · exact nameConstant_goes.bind fun key u1 _ hkey => hstore key u1 (hkey.2 u1)
  · exact hg.bracketKey.bind fun key u1 _ hkey => hstore key u1 hkey

theorem Terms.listItem (hg : g.Terms) (x : Items) : Goes scope (g.listItem x) u fun y u' => y.last.Fit u' :=
  hg.expr.bind fun _ _ _ he => pure he

/-- **An item is read** when nothing waits for the one before it. -/
theorem Terms.item {x : Items} (hg : g.Terms) (hx : x.last.Fit u) (hinert : x.last.place.isInert = true) :
    Goes scope (g.item x) u fun y u' => y.last.Fit u' := by
  have hkeyed : Goes scope (g.keyedItem x) u fun y u' => y.last.Fit u' :=
    (hg.keyedItem x).stepped.imp fun y u' h => by
      rw [h.1]
      exact hx.steps h.2.1 (Place.ne_pending_of_inert hinert)
  refine read Reads.token fun t => ?_
  split
  · refine read Reads.peek fun t' => ?_
    split
    · exact hkeyed
    · exact hg.listItem x
  · exact hkeyed
  · exact hg.listItem x

theorem flushItem_goes {x : Items} (hx : x.last.Fit u) :
    Goes scope (flushItem x) u fun y u' => y.last.Fit u' ∧ y.last.place.isInert = true := by
  unfold Grammar.flushItem
  split
  · next hp =>
    refine pure ⟨hx, ?_⟩
    rw [hp]
    rfl
  · refine (discard (P := fun _ _ => True) (Goes.toNextRegister hx)).bind fun _ u1 _ _ => ?_
    extract_lets y
    split
    · exact (Goes.setList _ _ _).bind fun _ u2 _ _ => pure ⟨Expr.fit_inert rfl u2, rfl⟩
    · exact pure ⟨Expr.fit_inert rfl u1, rfl⟩

theorem flushLast_goes {x : Items} (hx : x.last.Fit u) : Goes scope (flushLast x) u fun _ _ => True := by
  unfold Grammar.flushLast
  split
  · exact pure trivial
  · split
    · exact (Goes.setReturns none hx).bind fun _ _ _ _ => (Goes.setList _ _ _).bind fun _ _ _ _ => pure trivial
    · extract_lets rest
      have hrest : ∀ u1, Goes scope (rest ()) u1 fun _ _ => True := fun u1 =>
        (Goes.setList _ _ _).bind fun _ _ _ _ => pure trivial
      split
      · exact (discard (P := fun _ _ => True) (Goes.toNextRegister hx)).bind fun _ u1 _ _ => hrest u1
      · exact hrest u

/-- **Items are read**; the last one may wait for its register. -/
theorem Terms.itemsFrom {x : Items} (hg : g.Terms) (n : Nat) (hx : x.last.Fit u) :
    Goes scope (g.itemsFrom n x) u fun y u' => y.last.Fit u' := by
  induction n generalizing u x with
  | zero => exact failNear
  | succ n ih =>
    refine read Reads.token fun t => ?_
    split
    · exact pure hx
    · refine (flushItem_goes hx).bind fun y u1 _ hy => (hg.item hy.1 hy.2).bind fun z u2 _ hz => ?_
      refine read Reads.testNext fun comma => ?_
      split
      · exact ih hz
      · refine read Reads.testNext fun semi => ?_
        split
        · exact ih hz
        · exact pure hz

/-- **A table**: the sizes are noted at last in the instruction that makes it. -/
theorem Terms.constructor' (hg : g.Terms) : Goes scope g.constructor' u fun e u' => e.Fit u' := by
  have hmild : ∀ a b c, (Instr.ofABC .newTable a b c).opcode.isMild = true := fun a b c => by
    rw [Instr.opcode_ofABC]
    rfl
  refine read Reads.line fun line => sound fun hu => (Goes.emitABC rfl).bind fun pc u1 _ h1 => ?_
  have hfirm : u1.draft.HoldsAt pc Instr.Firm :=
    ⟨_, h1.instr, hmild 0 0 0, by rw [Instr.opcode_ofABC]; decide⟩
  have hfit := Expr.fit_plain (Place.fit_pending (.ofWritten hu h1 (hmild 0 0 0)))
  refine (Goes.toNextRegister hfit).bind fun table u2 hsteps2 _ => ?_
  refine read Reads.checkNext fun _ => ?_
  refine (hg.itemsFrom (x := ⟨.plain .void, table, 0, 0, 0⟩) g.bound (Expr.fit_inert rfl u2)).bind fun x u3 hsteps3 hx => ?_
  refine read Reads.checkMatch fun _ => (flushLast_goes hx).bind fun y u4 hsteps4 _ => ?_
  have hfirm4 := Sketch.Steps.holdsAt ((hsteps2.trans hsteps3).trans hsteps4) Sketch.lasting_firm hfirm
  refine (Goes.setOperands (g := fun _ i => (i.setB (SizeByte.ofNat y.listed)).setC (SizeByte.ofNat y.keyed)) hfirm4
    fun _ _ => rfl).bind fun _ u5 _ _ => ?_
  exact pure (Expr.fit_inert rfl u5)

/-! ## 4. Calls -/

theorem Terms.arguments (hg : g.Terms) (line : Nat) : Goes scope (g.arguments line) u fun e u' => e.Fit u' := by
  refine read Reads.token fun t => ?_
  split
  · refine read Reads.next fun _ => read Reads.token fun t' => ?_
    extract_lets rest
    have hrest : ∀ e (u1 : Sketch), e.Fit u1 → Goes scope (rest e) u1 fun e u' => e.Fit u' := fun e u1 he =>
      read Reads.checkMatch fun _ => pure he
    split
    · exact hrest _ u (Expr.fit_inert rfl u)
    · exact hg.exprs.bind fun r u1 _ hr => (Goes.setReturns none hr).bind fun _ u2 _ h2 => hrest r.2 u2 h2
  · exact hg.constructor'
  · exact idle Idle.addConstant fun k u1 _ => read Reads.next fun _ => pure (Expr.fit_inert rfl u1)
  · exact failNear

/-- **A call** may be asked for values. -/
theorem Terms.call (hg : g.Terms) (base line : Nat) : Goes scope (g.call base line) u fun e u' => e.Fit u' := by
  refine (hg.arguments line).bind fun args u1 _ hargs => ?_
  extract_lets write count
  have hwrite : ∀ n u2, Goes scope (write n) u2 fun e u' => e.Fit u' := by
    intro n u2
    refine (Goes.emitABC rfl).bind fun pc u3 _ h3 => ?_
    have hcall : (Expr.plain (.call pc)).Fit u3 :=
      Expr.fit_plain (Place.fit_call ⟨_, h3.instr, .inl (Instr.opcode_ofABC ..)⟩)
    refine idle Idle.fixLine fun _ u4 h4 => idle (Idle.modifyFn fun _ => .rest rfl) fun _ u5 h5 => ?_
    exact pure ((hcall.similar h4).similar h5)
  have hcount : ∀ u2, Goes scope (count ()) u2 fun e u' => e.Fit u' := fun u2 =>
    demanding fun _ => get fun _ _ => hwrite _ u2
  split
  · exact hwrite none u1
  · split
    · exact (discard (P := fun _ _ => True) (Goes.toNextRegister hargs)).bind fun _ u2 _ _ => hcount u2
    · exact hcount u1

/-! ## 5. Expressions -/

theorem Terms.primary (hg : g.Terms) : Goes scope g.primary u fun e u' => e.Fit u' := by
  refine read Reads.token fun t => ?_
  split
  · exact read Reads.checkName fun name => hg.name scope name u
  · refine read Reads.line fun line => read Reads.next fun _ => hg.expr.bind fun e u1 _ he => ?_
    exact read Reads.checkMatch fun _ => (Goes.readVariable he).imp fun _ _ h => h.1
  · exact failNear

theorem Terms.suffixesFrom (hg : g.Terms) (line n : Nat) (he : e.Fit u) :
    Goes scope (g.suffixesFrom line n e) u fun e' u' => e'.Fit u' := by
  induction n generalizing u e with
  | zero => exact failNear
  | succ n ih =>
    have hcall : ∀ base u1, Goes scope (do suffixesFrom g line n (← g.call base line)) u1 fun e' u' => e'.Fit u' :=
      fun base u1 => (hg.call base line).bind fun e' u2 _ he' => ih he'
    have harguments : Goes scope (do
        let base ← Compile.toNextRegister e
        suffixesFrom g line n (← g.call base line)) u fun e' u' => e'.Fit u' :=
      (Goes.toNextRegister he).bind fun base u1 _ _ => hcall base u1
    refine read Reads.token fun t => ?_
    split
    · exact (field_goes he).bind fun e' u1 _ he' => ih he'
    · refine (Goes.toRegisterOrUpvalue he).bind fun table u1 _ htable => ?_
      refine hg.bracketKey.bind fun key u2 hsteps hkey => ?_
      have htable' := htable.1.steps hsteps (Place.ne_pending_of_inert htable.2)
      exact (Goes.indexed hkey htable').bind fun e' u3 _ he' => ih he'
    · refine read Reads.next fun _ => nameConstant_goes.bind fun key u1 _ hkey => ?_
      exact (Goes.method (he.similar hkey.1) hkey.2).bind fun f u2 _ _ => hcall _ u2
    · exact harguments
    · exact harguments
    · exact harguments
    · exact pure he

theorem Terms.suffixed (hg : g.Terms) : Goes scope g.suffixed u fun e u' => e.Fit u' :=
  read Reads.line fun line => hg.primary.bind fun _ _ _ he => hg.suffixesFrom line _ he

theorem Terms.simple (hg : g.Terms) (ho : g.Orders []) : Goes scope g.simple u fun e u' => e.Fit u' := by
  have hliteral : ∀ (p : Place) u1, p.isInert = true → Goes scope (simple.literal p) u1 fun e u' => e.Fit u' :=
    fun p u1 hp => read Reads.next fun _ => pure (Expr.fit_inert hp u1)
  refine read Reads.token fun t => ?_
  cases t with
  | float x => exact hliteral (.float x) u rfl
  | int i => exact hliteral (.int i) u rfl
  | str text => exact (ofIdle Idle.addConstant).bind fun k u1 _ _ => hliteral (.constant k) u1 rfl
  | keyword word =>
    cases word with
    | nil => exact hliteral .nil u rfl
    | true => exact hliteral (.bool true) u rfl
    | false => exact hliteral (.bool false) u rfl
    | function =>
      refine read Reads.next fun _ => read Reads.line fun line => (ho.functionBody false line).bind fun reg u1 _ _ => ?_
      exact pure (Expr.fit_inert rfl u1)
    | _ => exact hg.suffixed
  | symbol mark =>
    cases mark with
    | dots =>
      refine get fun s _ => ?_
      split
      · refine (Goes.emitABC rfl).bind fun pc u1 _ h1 => read Reads.next fun _ => pure ?_
        refine Expr.fit_plain (Place.fit_varargs ⟨_, h1.instr, ?_⟩)
        unfold Instr.Firm
        rw [Instr.opcode_ofABC]
        decide
      · exact failNear
    | lbrace => exact hg.constructor'
    | _ => exact hg.suffixed
  | _ => exact hg.suffixed

theorem Terms.operatorsFrom (hg : g.Terms) (limit n : Nat) (op : Option BinOp) (he : e.Fit u) :
    Goes scope (g.operatorsFrom limit n e op) u fun r u' => r.1.Fit u' := by
  induction n generalizing u e op with
  | zero => exact failNear
  | succ n ih =>
    cases op with
    | none => exact pure he
    | some op =>
      unfold Grammar.operatorsFrom
      split
      · exact pure he
      · refine read Reads.line fun line => read Reads.next fun _ => ?_
        refine (Goes.beforeRight op he).bind fun e1 u1 _ h1 => ?_
        refine (hg.subexpr scope op.priority.2 u1).bind fun r u2 hsteps h2 => ?_
        have hleft := h1.1.steps hsteps (Place.ne_pending_of_inert h1.2)
        exact (Goes.afterRight hleft h1.2 h2).bind fun e3 u3 _ h3 => ih _ h3

/-- **An expression is read by steps.** -/
theorem Terms.expressionBody (hg : g.Terms) (ho : g.Orders []) (limit : Nat) :
    Goes scope (g.expressionBody limit) u fun r u' => r.1.Fit u' := by
  refine read Reads.token fun t => ?_
  extract_lets rest
  have hrest : ∀ e (u1 : Sketch), e.Fit u1 → Goes scope (rest e) u1 fun r u' => r.1.Fit u' := fun e u1 he =>
    read Reads.token fun _ => hg.operatorsFrom limit _ _ he
  split
  · next op _ =>
    refine read Reads.line fun line => read Reads.next fun _ => (hg.subexpr scope UnOp.priority u).bind fun r u1 _ hr => ?_
    exact (Goes.unary op hr line).bind fun e u2 _ he => hrest e u2 he
  · exact (hg.simple ho).bind fun e u1 _ he => hrest e u1 he

end Grammar

end LuaMachine
