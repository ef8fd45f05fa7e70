/-
  NAMES, BLOCKS AND GOTOS GO BY STEPS of the sketch. Locals are declared one by one, begin in that order,
  and end with their block; a label stands where jumps may go, and a goto that waits for one is a jump.
-/
import LuaMachine.Proofs.Sketch.Operator

namespace LuaMachine

/-! ## 1. Scopes that are open -/

namespace Sketch

structure Rests (u u' : Sketch) : Prop where
  locals : u'.draft.locals = u.draft.locals
  declared : u'.draft.declared = u.draft.declared
  active : u'.draft.active = u.draft.active
  blocks : u'.draft.blocks.map (·.active) = u.draft.blocks.map (·.active)
  heads : u'.heads = u.heads

variable {u u' u'' : Sketch} {n : Nat} {bs hs : List Nat}

theorem Rests.refl (u : Sketch) : u.Rests u := ⟨rfl, rfl, rfl, rfl, rfl⟩

theorem Rests.trans (h : u.Rests u') (h' : u'.Rests u'') : u.Rests u'' :=
  ⟨h'.locals.trans h.locals, h'.declared.trans h.declared, h'.active.trans h.active, h'.blocks.trans h.blocks,
    h'.heads.trans h.heads⟩

/-- **Steps that concern no scope leave scopes.** -/
theorem Step.rests (h : Step false u u') : u.Rests u' := by
  cases h with
  | keep h => exact ⟨h.locals, h.declared, h.active, h.blocks, rfl⟩
  | declare _ h => cases h
  | openLoop h | closeLoop h | begin h | restart h | enterBlock h | leaveBlock h => cases h
  | _ => exact ⟨rfl, rfl, rfl, rfl, rfl⟩

theorem Steps.rests (h : Steps false u u') : u.Rests u' := by
  induction h with
  | refl => exact .refl _
  | tail _ hstep ih => exact ih.trans hstep.rests

structure At (u : Sketch) (n : Nat) (bs hs : List Nat) : Prop where
  waits : u.draft.declared.size = u.draft.active + n
  blocks : u.draft.blocks.map (·.active) = bs
  heads : u.heads = hs

structure Ready (u : Sketch) (bs hs : List Nat) : Prop where
  level : u.At 0 bs hs
  free : u.draft.free = u.draft.active

theorem At.rests (h : u.At n bs hs) (hr : u.Rests u') : u'.At n bs hs where
  waits := by rw [hr.declared, hr.active, h.waits]
  blocks := hr.blocks.trans h.blocks
  heads := hr.heads.trans h.heads

theorem Ready.rests (h : u.Ready bs hs) (hr : u.Rests u') (hfree : u'.draft.free = u.draft.free) : u'.Ready bs hs :=
  ⟨h.level.rests hr, by rw [hfree, hr.active, h.free]⟩

end Sketch

namespace Compile.Goes

variable {α β : Type} {scope : Bool} {x : Compile α} {f : α → Compile β} {u : Sketch} {P : α → Sketch → Prop}
  {Q : β → Sketch → Prop}

theorem resting (h : Goes false x u P) : Goes true x u fun a u' => P a u' ∧ u.Rests u' :=
  (h.stepped.imp fun _ _ hp => ⟨hp.1, hp.2.1.rests⟩).within

theorem note {g : Draft → Draft} {P : Unit → Sketch → Prop} (hkeep : u.Keeps (g u.draft))
    (hprotos : (g u.draft).protos = u.draft.protos) (hp : P () { u with draft := g u.draft }) :
    Goes scope (Compile.modifyFn g) u P := modifyFn (.keep hkeep) rfl hprotos hp

theorem before {u1 : Sketch} (hstep : u.Step scope u1) (hd : u1.draft = u.draft) (h : Goes scope x u1 P) :
    Goes scope x u P := by
  intro hu s a s' hs hrun
  obtain ⟨u', hs', hpasses, hp⟩ := h (hstep.sound hu) s a s' (hs.trans hd.symm) hrun
  refine ⟨u', hs', ⟨.head hstep hpasses.steps, hpasses.outer, fun p hp => ?_⟩, hp⟩
  rw [← hd]
  exact hpasses.protos p hp

theorem modifyBoth {g1 g2 : Draft → Draft} {u1 : Sketch} {y : Compile β} (hstep : u.Step scope u1)
    (hd : g2 (g1 u.draft) = u1.draft) (hprotos : u1.draft.protos = u.draft.protos) (h : Goes scope y u1 Q) :
    Goes scope (do
      Compile.modifyFn g1
      Compile.modifyFn g2
      y) u Q := by
  intro hu s b s' hs hrun
  obtain ⟨u', hs', hpasses, hq⟩ :=
    h (hstep.sound hu) { s with fn := g2 (g1 s.fn) } b s' (by rw [hs]; exact hd) hrun
  refine ⟨u', hs', ⟨.head hstep hpasses.steps, hpasses.outer, fun p hp => ?_⟩, hq⟩
  rw [← hprotos]
  exact hpasses.protos p hp

theorem closeLoop {n : Nat} {bs hs : List Nat} (head : Nat) (h : Goes true x u fun _ u' => u'.At n bs (head :: hs)) :
    Goes true x u fun _ u' => u'.At n bs hs := by
  intro hu s a s' hs' hrun
  obtain ⟨u', hfn, hpasses, hp⟩ := h hu s a s' hs' hrun
  refine ⟨{ u' with heads := u'.heads.tail }, hfn, ⟨hpasses.steps.tail (.closeLoop rfl), hpasses.outer,
    hpasses.protos⟩, hp.waits, hp.blocks, ?_⟩
  rw [hp.heads]
  rfl

end Compile.Goes

/-! ## 2. Names -/

theorem Draft.map_markBlock (reg : Nat) (bs : List Block) : (markBlock reg bs).map (·.active) = bs.map (·.active) := by
  induction bs with
  | nil => rfl
  | cons b rest ih =>
    unfold markBlock
    split
    · rfl
    · rw [List.map_cons, List.map_cons, ih]

/-- **Resolving a name** changes no function but in what it captures, and a local that is found is active. -/
theorem resolve_aside {name : Bytes} {innermost : Bool} {ds ds' : List Draft} {v : Variable}
    (h : resolve name innermost ds = .ok (some (v, ds'))) :
    Aside ds ds' ∧ ∀ r, v = .register r → ∃ d ∈ ds.head?, r < d.active := by
  induction ds generalizing innermost v ds' with
  | nil => cases h
  | cons d outer ih =>
    unfold resolve at h
    split at h
    · next r hfound =>
      cases h
      refine ⟨.cons ?_ (Aside.refl outer), fun r' hr => ?_⟩
      · cases innermost with
        | true => exact .refl d
        | false => exact ⟨rfl, Draft.map_markBlock r d.blocks⟩
      · cases hr
        exact ⟨d, rfl, Draft.findLocal_lt hfound⟩
    · split at h
      · cases h
        exact ⟨Aside.refl _, fun r hr => by cases hr⟩
      · split at h
        · cases h
        · cases h
        · next v' outer' hrec =>
          dsimp only at h
          split at h
          · cases h
          · cases h
            exact ⟨.cons ⟨rfl, rfl⟩ (ih hrec).1, fun r hr => by cases hr⟩

namespace Compile.Goes

variable {scope : Bool} {u : Sketch}

theorem lookup (name : Bytes) :
    Goes scope (Compile.lookup name) u fun o _ => ∀ p, o = some p → ∀ u', p.Fit u' := by
  intro hu s o s' hs hrun
  obtain ⟨_, _, hget, hrun⟩ := bind_ok hrun
  cases hget
  have hnone : ∀ p, (none : Option Place) = some p → ∀ u', p.Fit u' := fun p hp => by cases hp
  cases hres : resolve name true (s.fn :: s.outer) with
  | error line =>
    rw [hres] at hrun
    cases hrun
  | ok found =>
    rw [hres] at hrun
    cases found with
    | none =>
      cases hrun
      exact ⟨u, hs, .refl _ u, hnone⟩
    | some found =>
      obtain ⟨v, ds⟩ := found
      obtain ⟨haside, hlocal⟩ := resolve_aside hres
      cases haside with
      | cons hfn houter =>
        cases hrun
        rw [hs] at hfn hlocal
        have hsame := Draft.Resembles.ofAside hfn
        refine ⟨{ u with draft := _ }, rfl, ⟨.single (.keep hsame.keeps), houter, fun p hp => ?_⟩, fun p hp u' => ?_⟩
        · rw [hsame.protos] at hp
          exact .inl hp
        · cases hp
          cases v with
          | upvalue i => exact Place.fit_of_inert rfl u'
          | register r =>
            obtain ⟨d, hd, hlt⟩ := hlocal r rfl
            cases hd
            have hactive := hu.housed.active
            have hroom := hu.housed.room
            simp only [maxLocals] at hroom
            exact Place.fit_localVar (by omega) u'

/-- **A name is a variable or a field.** -/
theorem named (name : Bytes) : Goes scope (Compile.named name) u fun e u' => e.Fit u' := by
  refine (lookup name).bind fun o u1 _ ho => ?_
  split
  · next p => exact pure (Expr.fit_plain (ho p rfl u1))
  · refine (lookup environmentName).bind fun env u2 _ henv => (ofIdle Idle.addConstant).bind fun k u3 _ _ => ?_
    refine indexed (Expr.fit_inert rfl u3) (Expr.fit_plain ?_)
    cases env with
    | none => exact Place.fit_of_inert rfl u3
    | some p => exact henv p rfl u3

/-! ## 3. Locals -/

/-- **A local is declared.** -/
theorem declare {n : Nat} {bs hs : List Nat} (name : Bytes) (hu : u.At n bs hs) :
    Goes true (Compile.declare name) u fun _ u' => u'.At (n + 1) bs hs ∧ u'.draft.free = u.draft.free ∧
      u'.draft.active = u.draft.active ∧ u'.draft.declared = u.draft.declared.push u.draft.locals.size ∧
      u'.draft.locals.size = u.draft.locals.size + 1 := by
  refine get fun s hs' => ?_
  rw [hs']
  split
  · exact failLimit
  · next hroom =>
    refine modifyFn (.declare name rfl (Nat.le_of_not_lt hroom)) rfl rfl ⟨⟨?_, hu.blocks, hu.heads⟩, rfl, rfl, rfl, ?_⟩
    · rw [Array.size_push, hu.waits]
      rfl
    · exact Array.size_push ..

theorem mapLocal_size (d : Draft) (reg : Nat) (f : DraftLocal → DraftLocal) :
    ∃ ls, mapLocal d reg f = { d with locals := ls } ∧ ls.size = d.locals.size := by
  unfold mapLocal
  split
  · exact ⟨_, rfl, Array.size_modify ..⟩
  · exact ⟨_, rfl, rfl⟩

/-- So many locals have begun. -/
structure Begun (u : Sketch) (k : Nat) (u' : Sketch) : Prop where
  active : u'.draft.active = u.draft.active + k
  declared : u'.draft.declared = u.draft.declared
  size : u'.draft.locals.size = u.draft.locals.size
  code : u'.draft.code = u.draft.code
  targets : u'.targets = u.targets
  blocks : u'.draft.blocks = u.draft.blocks
  heads : u'.heads = u.heads
  free : u'.draft.free = u.draft.free

theorem Begun.at {k n : Nat} {bs hs : List Nat} {u' : Sketch} (h : Begun u k u') (hu : u.At (n + k) bs hs) :
    u'.At n bs hs where
  waits := by rw [h.declared, h.active, hu.waits]; omega
  blocks := by rw [h.blocks, hu.blocks]
  heads := h.heads.trans hu.heads

/-- **Declared locals begin**, one after the other. -/
theorem activate {k : Nat} (hk : u.draft.active + k ≤ u.draft.declared.size) :
    Goes true (Compile.activate k) u fun _ u' => Begun u k u' := by
  induction k generalizing u with
  | zero => exact pure ⟨rfl, rfl, rfl, rfl, rfl, rfl, rfl, rfl⟩
  | succ k ih =>
    have hlt : u.draft.active < u.draft.declared.size := by omega
    refine get fun s hs => ?_
    rw [hs]
    obtain ⟨ls, hls, hsize⟩ := mapLocal_size u.draft u.draft.active fun v => { v with start := u.draft.pc }
    have hstep : u.Step true _ := .begin rfl hlt
    rw [hls] at hstep
    refine modifyBoth hstep ?_ rfl ((ih ?_).imp fun _ u' h => ?_)
    · dsimp only
      rw [hls]
    · show u.draft.active + 1 + k ≤ u.draft.declared.size
      omega
    · refine ⟨h.active.trans ?_, h.declared, h.size.trans hsize, h.code, h.targets, h.blocks, h.heads, h.free⟩
      show u.draft.active + 1 + k = _
      omega

/-- **The life of a local function begins anew** when it is there. -/
theorem beginAgain {n reg : Nat} {bs hs : List Nat} (hu : u.At n bs hs) (hreg : reg + 1 = u.draft.declared.size)
    (hactive : u.draft.active = u.draft.declared.size)
    (hlast : u.draft.declared[reg]? = some (u.draft.locals.size - 1)) :
    Goes true (Compile.beginLocal reg) u fun _ u' => u'.At n bs hs := by
  obtain ⟨ls, hls, -⟩ := mapLocal_size u.draft reg fun v => { v with start := u.draft.pc }
  have hstep : u.Step true _ := .restart rfl hreg hactive hlast
  rw [hls] at hstep
  exact modifyFn hstep hls rfl ⟨hu.waits, hu.blocks, hu.heads⟩

/-! ## 4. Gotos -/

theorem closeGoto {g : PendingGoto} {label : Label} (hg : ∀ n ∈ g.jumps, u.draft.JumpAt n)
    (hlabel : label.pc ∈ u.targets) :
    Goes scope (Compile.closeGoto g label) u fun _ u' => u'.draft.free = u.draft.free := by
  unfold Compile.closeGoto
  split
  · exact get fun _ _ => failPlain
  · exact patchTo hg hlabel

/-- **The gotos of a label are aimed**, the others go on waiting. -/
theorem closeMatching {label : Label} {gs : List PendingGoto} (hgs : ∀ g ∈ gs, ∀ n ∈ g.jumps, u.draft.JumpAt n)
    (hlabel : label.pc ∈ u.targets) :
    Goes scope (Compile.closeMatching label gs) u fun rest u' => rest ⊆ gs ∧ u'.draft.free = u.draft.free := by
  induction gs generalizing u with
  | nil => exact pure ⟨List.Subset.refl _, rfl⟩
  | cons g rest ih =>
    have hrest : ∀ g ∈ rest, ∀ n ∈ g.jumps, u.draft.JumpAt n := fun g hg => hgs g (List.mem_cons_of_mem _ hg)
    unfold Compile.closeMatching
    split
    · refine (closeGoto (hgs g List.mem_cons_self) hlabel).bind fun _ u1 hsteps h1 => ?_
      refine (ih (fun g hg n hn => hsteps.jumpAt (hrest g hg n hn)) (hsteps.targets_subset hlabel)).imp ?_
      exact fun _ _ h => ⟨List.subset_cons_of_subset g h.1, h.2.trans h1⟩
    · exact (ih hrest hlabel).bind fun _ u1 _ h => pure ⟨List.cons_subset_cons g h.1, h.2⟩

theorem noteGotos {gs : List PendingGoto} (hgs : ∀ g ∈ gs, g ∈ u.draft.gotos ∨ ∀ n ∈ g.jumps, u.draft.JumpAt n) :
    Goes scope (Compile.modifyFn fun d => { d with gotos := gs }) u fun _ u' => u'.draft.free = u.draft.free :=
  note ⟨rfl, rfl, rfl, rfl, rfl, rfl, rfl, Nat.le_max_left _ _, fun _ => .inl, hgs⟩ rfl rfl

theorem noteLabels {f : List Label → List Label}
    (hls : ∀ l ∈ f u.draft.labels, l ∈ u.draft.labels ∨ l.pc ∈ u.targets) :
    Goes scope (Compile.modifyFn fun d => { d with labels := f d.labels }) u fun _ u' =>
      u'.draft.free = u.draft.free ∧ u'.targets = u.targets :=
  note ⟨rfl, rfl, rfl, rfl, rfl, rfl, rfl, Nat.le_max_left _ _, hls, fun _ => .inl⟩ rfl ⟨rfl, rfl⟩

theorem closeGotos {label : Label} (hlabel : label.pc ∈ u.targets) :
    Goes scope (Compile.closeGotos label) u fun _ u' => u'.draft.free = u.draft.free := by
  refine sound fun hu => get fun s hs => ?_
  rw [hs]
  have hall : ∀ g ∈ u.draft.gotos, ∀ n ∈ g.jumps, u.draft.JumpAt n := hu.aimed.gotos
  extract_lets first gotos
  refine (closeMatching (fun g hg => hall g (List.mem_of_mem_drop hg)) hlabel).bind fun rest u1 hsteps h1 => ?_
  refine (noteGotos fun g hg => .inr fun n hn => hsteps.jumpAt (hall g ?_ n hn)).imp fun _ _ h => h.trans h1.2
  rcases List.mem_append.mp hg with hg | hg
  · exact List.mem_of_mem_take hg
  · exact List.mem_of_mem_drop (h1.1 hg)

theorem mem_of_findLabel {d : Draft} {name : Bytes} {label : Label} (h : findLabel? d name = some label) :
    label ∈ d.labels := by
  unfold findLabel? at h
  split at h
  · cases h
  · exact List.mem_of_mem_drop (List.mem_of_find?_eq_some h)

/-- **A goto is aimed at a label of its block** or goes on waiting. -/
theorem gotoLabel {g : PendingGoto} (hg : ∀ n ∈ g.jumps, u.draft.JumpAt n) :
    Goes scope (Compile.gotoLabel g) u fun _ u' => u'.draft.free = u.draft.free := by
  refine sound fun hu => get fun s hs => ?_
  rw [hs]
  split
  · exact pure rfl
  · next label hlabel =>
    have htarget := hu.aimed.labels label (mem_of_findLabel hlabel)
    have hclose : ∀ u1, Sketch.Steps scope u u1 → u1.draft.free = u.draft.free → Goes scope (do
        Compile.closeGoto g label
        return true) u1 fun _ u' => u'.draft.free = u.draft.free := fun u1 hsteps h1 =>
      (closeGoto (fun n hn => hsteps.jumpAt (hg n hn)) (hsteps.targets_subset htarget)).bind
        fun _ _ _ h => pure (h.trans h1)
    extract_lets rest
    split
    · exact (closeOnJump _ hg).bind fun _ u1 hsteps h1 => hclose u1 hsteps h1.free
    · exact hclose u .refl rfl

theorem moveOut (b : Block) {gs : List PendingGoto} (hgs : ∀ g ∈ gs, ∀ n ∈ g.jumps, u.draft.JumpAt n) :
    Goes scope (Compile.moveOut b gs) u fun rest u' =>
      (∀ g ∈ rest, ∃ g' ∈ gs, g.jumps = g'.jumps) ∧ u'.draft.free = u.draft.free := by
  induction gs generalizing u with
  | nil => exact pure ⟨fun g hg => ⟨g, hg, rfl⟩, rfl⟩
  | cons g rest ih =>
    unfold Compile.moveOut
    extract_lets moved next
    have hnext : ∀ u1, Sketch.Steps scope u u1 → u1.draft.free = u.draft.free → Goes scope (next ()) u1 fun rest' u' =>
        (∀ g1 ∈ rest', ∃ g' ∈ g :: rest, g1.jumps = g'.jumps) ∧ u'.draft.free = u.draft.free := by
      intro u1 hsteps h1
      refine (gotoLabel (g := moved) fun n hn => hsteps.jumpAt (hgs g List.mem_cons_self n hn)).bind
        fun found u2 hsteps2 h2 => ?_
      have hrest := ih (u := u2) fun g' hg' n hn =>
        Sketch.Steps.jumpAt (hsteps.trans hsteps2) (hgs g' (List.mem_cons_of_mem _ hg') n hn)
      cases found with
      | true =>
        refine hrest.imp fun rest' u3 h3 => ⟨fun g1 hg1 => ?_, h3.2.trans (h2.trans h1)⟩
        obtain ⟨g', hg', he⟩ := h3.1 g1 hg1
        exact ⟨g', List.mem_cons_of_mem _ hg', he⟩
      | false =>
        refine hrest.bind fun rest' u3 _ h3 => pure ⟨fun g1 hg1 => ?_, h3.2.trans (h2.trans h1)⟩
        rcases List.mem_cons.mp hg1 with rfl | hg1
        · exact ⟨g, List.mem_cons_self, rfl⟩
        · obtain ⟨g', hg', he⟩ := h3.1 g1 hg1
          exact ⟨g', List.mem_cons_of_mem _ hg', he⟩
    split
    · exact (closeOnJump _ (hgs g List.mem_cons_self)).bind fun _ u1 hsteps h1 => hnext u1 hsteps h1.free
    · exact hnext u .refl rfl

theorem failGoto {α : Type} {P : α → Sketch → Prop} {g : PendingGoto} : Goes scope (Compile.failGoto g) u P := by
  unfold Compile.failGoto
  split
  · exact failPlain
  · exact failPlain

/-- **A goto without a label waits in its function.** -/
theorem gotoStatement {jumps : JumpList} (hl : ∀ n ∈ jumps, u.draft.JumpAt n) :
    Goes scope (Compile.gotoStatement jumps) u fun _ u' => u'.draft.free = u.draft.free := by
  refine read Reads.line fun line => read Reads.testNext fun isGoto => ?_
  extract_lets rest
  have hrest : ∀ name, Goes scope (rest name) u fun _ u' => u'.draft.free = u.draft.free := by
    refine fun name => get fun s hs => ?_
    extract_lets g
    refine (gotoLabel (g := g) hl).bind fun found u1 hsteps h1 => ?_
    cases found with
    | true => exact pure h1
    | false =>
      rw [if_pos (show (!false) = true from rfl)]
      refine note ⟨rfl, rfl, rfl, rfl, rfl, rfl, rfl, Nat.le_max_left _ _, fun _ => .inl, fun g' hg' => ?_⟩ rfl h1
      rcases List.mem_append.mp hg' with hg' | hg'
      · exact .inl hg'
      · rw [List.mem_singleton.mp hg']
        exact .inr fun n hn => hsteps.jumpAt (hl n hn)
  split
  · exact read Reads.checkName fun name => hrest name
  · exact read Reads.next fun _ => hrest breakName

/-! ## 5. Blocks -/

theorem breakLabel : Goes scope Compile.breakLabel u fun _ _ => True := by
  refine markTarget.bind ?_
  rintro _ _ - ⟨rfl, rfl⟩
  refine get fun s _ => (noteLabels (f := fun ls => ls ++ _) fun l hl => ?_).bind fun _ u1 _ h1 => ?_
  · rcases List.mem_append.mp hl with hl | hl
    · exact .inl hl
    · rw [List.mem_singleton.mp hl]
      exact .inr List.mem_cons_self
  · refine (closeGotos ?_).imp fun _ _ _ => trivial
    rw [h1.2]
    exact List.mem_cons_self

/-- **A block begins.** Only locals hold registers. -/
theorem enterBlock {n : Nat} {bs hs : List Nat} (isLoop : Bool) (hu : u.At n bs hs) :
    Goes true (Compile.enterBlock isLoop) u fun _ u' => u'.At n (u.draft.active :: bs) hs ∧
      u'.draft.free = u'.draft.active ∧ u'.draft.active = u.draft.active := by
  refine (modifyFn (P := fun _ u' => u'.At n (u.draft.active :: bs) hs ∧ u'.draft.active = u.draft.active)
    (.enterBlock rfl rfl) rfl rfl ⟨⟨hu.waits, congrArg _ hu.blocks, hu.heads⟩, rfl⟩).bind fun _ u1 _ h1 => ?_
  refine demand.imp ?_
  rintro _ _ ⟨hfree, rfl⟩
  exact ⟨h1.1, of_decide_eq_true hfree, h1.2⟩

theorem forgetLocals {bs hs : List Nat} (b : Block) (around : List Block)
    (hbs : bs = b.active :: around.map (·.active)) (hu : u.At 0 bs hs) :
    Goes true (Compile.modifyFn fun d =>
      let d := endLocals b.active { d with blocks := around }
      { d with free := d.active, labels := d.labels.take b.firstLabel }) u fun _ u' =>
        u'.Ready (around.map (·.active)) hs ∧ u'.draft.active = b.active := by
  refine sound fun hsound => ?_
  have hblocks : u.draft.blocks.map (·.active) = b.active :: around.map (·.active) := hu.blocks.trans hbs
  have hle : b.active ≤ u.draft.active := by
    have hpairs := hsound.housed.blocks
    rw [hblocks] at hpairs
    exact (List.pairwise_cons.mp hpairs).1 _ List.mem_cons_self
  have hstep : u.Step true _ := .leaveBlock rfl hblocks hu.waits.symm
  obtain ⟨ls, ds, hend, hds, -⟩ := Sketch.endLocals_gone (d := { u.draft with blocks := around }) hle
  rw [hend] at hstep
  have hsize : ds.size = b.active := by
    rw [← Array.length_toList, hds, List.length_take, Array.length_toList, hu.waits]
    exact Nat.min_eq_left hle
  have hkeep : Sketch.Step true { u with draft := { u.draft with
      blocks := around, locals := ls, declared := ds, active := b.active } } { u with draft := { u.draft with
      blocks := around, locals := ls, declared := ds, active := b.active, free := b.active
      labels := u.draft.labels.take b.firstLabel } } :=
    .keep ⟨rfl, rfl, rfl, rfl, rfl, rfl, rfl, Nat.le_max_left _ _, fun l hl => .inl (List.mem_of_mem_take hl),
      fun _ => .inl⟩
  refine modifySteps (.tail (.single hstep) hkeep) ?_ rfl ⟨⟨⟨hsize, rfl, hu.heads⟩, rfl⟩, rfl⟩
  dsimp only
  rw [hend]

/-- **A block ends**, and with it its locals; its breaks arrive, its other gotos go on waiting. -/
theorem leaveBlock {a : Nat} {bs hs : List Nat} (hu : u.At 0 (a :: bs) hs) :
    Goes true Compile.leaveBlock u fun _ u' => u'.Ready bs hs ∧ u'.draft.active = a := by
  refine get fun s hs' => ?_
  rw [hs']
  split
  · next hnone =>
    have hblocks := hu.blocks
    rw [hnone] at hblocks
    cases hblocks
  · next b around hblocks =>
    have hactive : b.active = a ∧ around.map (·.active) = bs := by
      have hall := hu.blocks
      rw [hblocks] at hall
      exact ⟨(List.cons.inj hall).1, (List.cons.inj hall).2⟩
    extract_lets finish rest
    have hfinish : ∀ u1 : Sketch, u1.At 0 (a :: bs) hs → Goes true (finish ()) u1 fun _ u' =>
        u'.Ready bs hs ∧ u'.draft.active = a := by
      intro u1 hu1
      refine (forgetLocals b around ?_ hu1).bind fun _ u2 _ h2 => ?_
      · rw [hactive.1, hactive.2]
      rw [hactive.1, hactive.2] at h2
      refine demanding fun _ => sound fun hu2 => get fun s2 hs2 => ?_
      rw [hs2]
      have hall : ∀ g ∈ u2.draft.gotos, ∀ n ∈ g.jumps, u2.draft.JumpAt n := hu2.aimed.gotos
      extract_lets gotos
      split
      · exact pure h2
      · next g gs hleft =>
        split
        · exact failGoto
        · have hmove : Goes false (do
              let rest ← Compile.moveOut b (g :: gs)
              Compile.modifyFn fun d => { d with gotos := gotos.take b.firstGoto ++ rest }) u2
                fun _ u' => u'.draft.free = u2.draft.free := by
            rw [← hleft]
            refine (moveOut b fun g' hg' => hall g' (List.mem_of_mem_drop hg')).bind fun left u3 hsteps h3 => ?_
            refine (noteGotos fun g' hg' => .inr fun n hn => hsteps.jumpAt ?_).imp fun _ _ h => h.trans h3.2
            rcases List.mem_append.mp hg' with hg' | hg'
            · exact hall g' (List.mem_of_mem_take hg') n hn
            · obtain ⟨g1, hg1, he⟩ := h3.1 g' hg'
              exact hall g1 (List.mem_of_mem_drop hg1) n (he ▸ hn)
          exact hmove.resting.imp fun _ u' h => ⟨h2.1.rests h.2 h.1, h.2.active.trans h2.2⟩
    have hrest : ∀ u1 : Sketch, u1.At 0 (a :: bs) hs → Goes true (rest ()) u1 fun _ u' =>
        u'.Ready bs hs ∧ u'.draft.active = a := by
      intro u1 hu1
      show Goes true (if b.isLoop then _ else _) _ _
      split
      · exact breakLabel.resting.bind fun _ u2 _ h2 => hfinish u2 (hu1.rests h2.2)
      · exact hfinish u1 hu1
    split
    · have hclose : Goes false (do
          let j ← Compile.jump
          Compile.closeOnJump j b.active
          Compile.patchHere j) u fun _ _ => True := by
        refine jump.bind fun j u1 _ h1 => (closeOnJump b.active h1.1).bind fun _ u2 hsteps _ => ?_
        exact (patchHere fun n hn => hsteps.jumpAt (h1.1 n hn)).imp fun _ _ _ => trivial
      have hall : Goes true _ u fun _ u' => u'.Ready bs hs ∧ u'.draft.active = a :=
        hclose.resting.bind fun _ u1 _ h1 => hrest u1 (hu.rests h1.2)
      simp only [bind_assoc] at hall
      exact hall
    · exact hrest u hu

end Compile.Goes

end LuaMachine
