/-
  EXPRESSIONS ARE READ WITH THEIR LISTS OF JUMPS. What is nested in an expression is read beside the lists
  that it holds so far, and leaves them. A nested function has a draft of its own, where no jump waits when
  it begins.
-/
import LuaMachine.Proofs.Jumps.Scope

namespace LuaMachine

open Compile Compile.Courses

structure Grammar.Faithful (g : Grammar) : Prop where
  statement : Consumes g.statement []
  subexpr : ∀ limit w, Courses (g.subexpr limit) w [] (fun r => r.1.lists) fun r d' => r.1.Apt d'
  name : ∀ n w, Courses (g.name n) w [] (fun _ => []) fun e _ => e.Bare ∧ e.place.isVariable

namespace Expr

variable {d d' : Draft} {e : Expr}

theorem Bare.apt (h : e.Bare) (hv : e.place.isVariable) (d : Draft) : e.Apt d where
  some := fun hp => by
    rw [hp] at hv
    cases hv
  bare := fun _ => h
  calm := by
    rintro pc (hp | hp) <;>
    · rw [hp] at hv
      cases hv

theorem Apt.after (h : e.Apt d) (hcalm : ∀ pc, Calm d.code pc → Calm d'.code pc) : e.Apt d' :=
  ⟨h.some, h.bare, fun pc hp => hcalm pc (h.calm pc hp)⟩

theorem Apt.bare_of_multi (h : e.Apt d) (hm : e.place.isMulti) : e.Bare := by
  refine h.bare ?_
  cases hp : e.place with
  | call | varargs => rfl
  | _ =>
    rw [hp] at hm
    cases hm

structure Optional (d : Draft) (e : Expr) : Prop where
  bare : e.place = .void → e.Bare
  apt : e.place ≠ .void → e.Apt d

theorem Apt.optional (h : e.Apt d) : e.Optional d := ⟨fun hp => absurd hp h.some, fun _ => h⟩

theorem Bare.optional (h : e.Bare) (hp : e.place = .void) (d : Draft) : e.Optional d :=
  ⟨fun _ => h, fun hn => absurd hp hn⟩

theorem Optional.apt_of_multi (h : e.Optional d) (hm : e.place.isMulti) : e.Apt d :=
  h.apt fun hp => by
    rw [hp] at hm
    cases hm

theorem bare_void : (Expr.plain .void).Bare := bare_plain rfl

theorem optional_void (d : Draft) : (Expr.plain .void).Optional d := bare_void.optional rfl d

end Expr

theorem calm_written {code : Array Instr} {pc a b c : Nat} {op : Op} (h : code[pc]? = some (.ofABC op a b c))
    (hlayout : op.layout ≠ .asbx) (hnot : op ≠ .not) : Calm code pc :=
  ⟨_, h, by rwa [Instr.opcode_ofABC], by rwa [Instr.opcode_ofABC]⟩

theorem Expr.Apt.stored {w : Drafts} {e : Expr} (he : e.Apt w.fn) :
    Courses (discard (toNextRegister e)) w e.lists (fun _ => []) fun _ _ => True :=
  discard (ofMoves (Moves.toNextRegister he))

theorem Expr.Optional.stored {w : Drafts} {e : Expr} {β : Type} {f : Unit → Compile β} {give : β → List JumpList}
    {post : β → Draft → Prop} (he : e.Optional w.fn) (hf : ∀ w1, Courses (f ()) w1 [] give post) :
    Courses (if e.place ≠ .void then do discard (toNextRegister e); f () else f ()) w e.lists give post := by
  split
  · next hp => exact (he.apt hp).stored.next fun _ w1 _ => hf w1
  · next hp => exact (hf w).taking (he.bare (by simpa using hp))

namespace Grammar

variable {g : Grammar} {w : Drafts} {e : Expr}

/-! ## 1. Lists -/

theorem Faithful.expr (hg : g.Faithful) : Courses g.expr w [] Expr.lists fun e d' => e.Apt d' :=
  (hg.subexpr 0 w).next fun _ _ hr => pure (.refl _) hr

theorem Faithful.statements (hg : g.Faithful) : Consumes g.statements [] := by
  unfold Grammar.statements
  generalize g.bound = n
  intro w
  induction n generalizing w with
  | zero => exact failNear
  | succ n ih =>
    refine read Reads.atBlockEnd fun atEnd => ?_
    split
    · exact pure (.refl _) trivial
    · refine read Reads.token fun t => (hg.statement w).along fun _ w1 _ => ?_
      split
      · exact pure (.refl _) trivial
      · exact ih w1

theorem Faithful.exprsFrom (hg : g.Faithful) (n count : Nat) (he : e.Apt w.fn) :
    Courses (g.exprsFrom n count e) w e.lists (fun r => r.2.lists) fun r d' => r.2.Apt d' := by
  induction n generalizing w count e with
  | zero => exact failNear
  | succ n ih =>
    refine read Reads.testNext fun more => ?_
    split
    · refine he.stored.next fun _ w1 _ => ?_
      exact hg.expr.next fun e2 w2 he2 => ih (count + 1) he2
    · exact pure (.refl _) he

theorem Faithful.exprs (hg : g.Faithful) : Courses g.exprs w [] (fun r => r.2.lists) fun r d' => r.2.Apt d' :=
  hg.expr.next fun _ _ he => hg.exprsFrom _ _ he

/-! ## 2. Fields and constructors -/

theorem nameConstant_courses : Courses nameConstant w [] (fun _ => []) fun e _ => e.Bare ∧ e.place.isValue :=
  read Reads.checkName fun _ => still Still.addConstant fun _ _ _ => pure (.refl _) ⟨Expr.bare_plain rfl, rfl⟩

theorem field_courses (he : e.Apt w.fn) :
    Courses (field e) w e.lists (fun _ => []) fun e' _ => e'.Bare ∧ e'.place.isVariable := by
  refine (ofMoves (Moves.toRegisterOrUpvalue he)).next fun table w1 htable => read Reads.next fun _ => ?_
  refine nameConstant_courses.next fun key w2 hkey => ?_
  have hindexed := Moves.indexed (Expr.apt_of_value hkey.2 w2.fn) htable
  exact ofMoves (hindexed.taking hkey.1.symm)

theorem Faithful.bracketKey (hg : g.Faithful) :
    Courses g.bracketKey w [] Expr.lists fun e _ => e.place.isValue := by
  refine read Reads.next fun _ => hg.expr.next fun e w1 he => ?_
  refine (ofMoves (Moves.toValue he)).next fun e' w2 he' => read Reads.checkNext fun _ => ?_
  exact pure (.refl _) he'.1

structure Items.Apt (x : Items) (d : Draft) : Prop where
  last : x.last.Optional d
  none : x.gathered = 0 → x.last.Bare

theorem Faithful.keyedItem {x : Items} (hg : g.Faithful) (hx : x.last.Bare) (hp : x.last.place = .void) :
    Courses (g.keyedItem x) w [] (fun y => y.last.lists) fun y d' => Items.Apt y d' := by
  refine get fun s hs => ?_
  extract_lets free store
  have hstore : ∀ key w1, key.place.isValue → Courses (store key) w1 key.lists (fun y => y.last.lists)
      fun y d' => Items.Apt y d' := by
    intro key w1 hkey
    have hoperand := Moves.toOperand (Expr.apt_of_value hkey w1.fn)
    refine read Reads.checkNext fun _ => (ofMoves hoperand).next fun k w2 _ => ?_
    refine hg.expr.next fun e w3 he => (ofMoves (Moves.toOperand he)).next fun v w4 _ => ?_
    refine (ofMoves (Moves.writeABC (by decide))).next fun _ w5 _ => ?_
    refine still (Still.modifyFn fun _ => ⟨rfl, rfl, rfl⟩) fun _ w6 _ => ?_
    exact pure hx.symm ⟨hx.optional hp w6.fn, fun _ => hx⟩
  refine read Reads.token fun t => ?_
  split
  · refine nameConstant_courses.next fun key w1 hkey => ?_
    exact (hstore key w1 hkey.2).taking hkey.1.symm
  · exact hg.bracketKey.next fun key w1 hkey => hstore key w1 hkey

theorem Faithful.listItem {x : Items} (hg : g.Faithful) :
    Courses (g.listItem x) w [] (fun y => y.last.lists) fun y d' => Items.Apt y d' :=
  hg.expr.next fun _ _ he => pure (.refl _) ⟨he.optional, fun hn => absurd hn (Nat.succ_ne_zero _)⟩

theorem Faithful.item {x : Items} (hg : g.Faithful) (hx : x.last.Bare) (hp : x.last.place = .void) :
    Courses (g.item x) w [] (fun y => y.last.lists) fun y d' => Items.Apt y d' := by
  refine read Reads.token fun t => ?_
  split
  · refine read Reads.peek fun t' => ?_
    split
    · exact hg.keyedItem hx hp
    · exact hg.listItem
  · exact hg.keyedItem hx hp
  · exact hg.listItem

theorem flushItem_courses {x : Items} (hx : x.Apt w.fn) :
    Courses (flushItem x) w x.last.lists (fun _ => []) fun y _ => y.last.Bare ∧ y.last.place = .void := by
  unfold Grammar.flushItem
  split
  · next hp => exact pure (hx.last.bare hp) ⟨hx.last.bare hp, hp⟩
  · next hp =>
    refine (hx.last.apt hp).stored.next fun _ w1 _ => ?_
    extract_lets y
    split
    · exact (ofMoves (Moves.setList _ _ _)).next fun _ _ _ => pure (.refl _) ⟨Expr.bare_plain rfl, rfl⟩
    · exact pure (.refl _) ⟨Expr.bare_plain rfl, rfl⟩

theorem flushLast_courses {x : Items} (hx : x.Apt w.fn) :
    Courses (flushLast x) w x.last.lists (fun _ => []) fun _ _ => True := by
  unfold Grammar.flushLast
  split
  · next hnone => exact pure (hx.none hnone) trivial
  · split
    · next hm =>
      have hapt := hx.last.apt_of_multi hm
      refine (ofMoves (Moves.setReturns none hapt)).beside fun _ w1 _ => ?_
      refine (ofMoves (Moves.setList _ _ _)).beside fun _ w2 _ => ?_
      exact pure (hapt.bare_of_multi hm) trivial
    · extract_lets rest
      have hrest : ∀ w1, Courses (rest ()) w1 [] (fun _ => []) fun _ _ => True := fun w1 =>
        (ofMoves (Moves.setList _ _ _)).next fun _ _ _ => pure (.refl _) trivial
      exact hx.last.stored hrest

theorem Faithful.itemsFrom {x : Items} (hg : g.Faithful) (n : Nat) (hx : x.Apt w.fn) :
    Courses (g.itemsFrom n x) w x.last.lists (fun y => y.last.lists) fun y d' => Items.Apt y d' := by
  induction n generalizing w x with
  | zero => exact failNear
  | succ n ih =>
    refine read Reads.token fun t => ?_
    split
    · exact pure (.refl _) hx
    · refine (flushItem_courses hx).next fun y w1 hy => (hg.item hy.1 hy.2).next fun z w2 hz => ?_
      refine read Reads.testNext fun comma => ?_
      split
      · exact ih hz
      · refine read Reads.testNext fun semi => ?_
        split
        · exact ih hz
        · exact pure (.refl _) hz

theorem pending_stored (pc : Nat) :
    Courses (toNextRegister (.plain (.pending pc))) w [] (fun _ => []) fun _ _ => True := by
  have hstored := Moves.toNextRegister (Expr.apt_of_value (e := .plain (.pending pc)) rfl w.fn)
  have hbare : (Expr.plain (.pending pc)).Bare := Expr.bare_plain rfl
  exact (ofMoves hstored).taking hbare.symm

/-- **A table**: no jump waits for it. -/
theorem Faithful.constructor' (hg : g.Faithful) :
    Courses g.constructor' w [] Expr.lists fun e _ => e.place.isValue := by
  refine read Reads.line fun line => (ofMoves (Moves.emitABC (by decide))).next fun pc w1 hpc => ?_
  have hcalm := calm_written hpc (by decide) (by decide)
  refine (pending_stored pc).calm.next fun table w2 h2 => ?_
  refine read Reads.checkNext fun _ => ?_
  have hitems : Items.Apt ⟨.plain .void, table, 0, 0, 0⟩ w2.fn := ⟨Expr.optional_void w2.fn, fun _ => Expr.bare_void⟩
  refine ((hg.itemsFrom g.bound hitems).taking Expr.bare_void.symm).calm.next fun x w3 h3 => ?_
  refine read Reads.checkMatch fun _ => (flushLast_courses h3.1).calm.next fun y w4 h4 => ?_
  refine (ofMoves (Moves.recodeCalm (h4.2 pc (h3.2 pc (h2.2 pc hcalm))) fun _ => rfl)).next fun _ w5 _ => ?_
  exact pure (Expr.bare_plain rfl).symm rfl

/-! ## 3. Functions -/

theorem parametersFrom_still (n count : Nat) : Courses (parametersFrom n count) w [] (fun _ => []) fun _ _ => True := by
  induction n generalizing w count with
  | zero => exact failNear
  | succ n ih =>
    refine read Reads.token fun t => ?_
    split
    · refine read Reads.checkName fun name => still Still.declare fun _ w1 _ => read Reads.testNext fun more => ?_
      split
      · exact ih _
      · exact pure (.refl _) trivial
    · refine read Reads.next fun _ => still (Still.modifyFn fun _ => ⟨rfl, rfl, rfl⟩) fun _ w1 _ => ?_
      exact pure (.refl _) trivial
    · exact failNear

theorem parameters_still (g : Grammar) : Consumes g.parameters [] := by
  intro w
  have hrest : ∀ count w1, Courses (do
      activate count
      Compile.modifyFn fun d => { d with params := d.active }
      reserve (← MonadState.get).fn.active) w1 [] (fun _ => []) fun _ _ => True := by
    refine fun count w1 => still (Still.activate count) fun _ w2 _ => ?_
    refine still (Still.modifyFn fun _ => ⟨rfl, rfl, rfl⟩) fun _ w3 _ => get fun s _ => ofStill Still.reserve
  refine read Reads.token fun t => ?_
  extract_lets rest
  split
  · exact hrest 0 w
  · exact (parametersFrom_still _ _).along fun count w1 _ => hrest count w1

def Within (w w' : Drafts) : Prop := w'.outer.map Draft.unaimed = w.fn.unaimed :: w.outer.map Draft.unaimed

theorem openFunction_within (line : Nat) : Leads (openFunction line) w fun _ w' => Within w w' := by
  refine Leads.bind (Leads.modify fun s hs => ?_)
  subst hs
  refine Leads.imp (ofStill Still.enterBlock) fun _ w' h => ?_
  exact h.1

theorem closeBody_courses : Consumes closeBody [] := fun _ =>
  (ofMoves (Moves.emitReturn 0 (some 0))).next fun _ w1 _ => leaveBlock w1

theorem closeFunction_resumes {w0 : Drafts} (hw : Within w0 w) : Leads closeFunction w fun _ w' =>
    w'.outer.map Draft.unaimed = w0.outer.map Draft.unaimed ∧
      (∀ more, (w0.fn.unaimed.beside ([] ++ more)).Steps (w'.fn.unaimed.beside ([] ++ more))) ∧ True := by
  refine Leads.andThen (closeBody_courses w) fun _ w1 h1 => Leads.get fun s hs => ?_
  have hwithin : s.outer.map Draft.unaimed = w0.fn.unaimed :: w0.outer.map Draft.unaimed := by
    rw [← hw, ← h1.1, ← hs]
    rfl
  split
  · exact Leads.failNear
  · next parent outer houter =>
    rw [houter, List.map_cons, List.cons.injEq] at hwithin
    refine Leads.bind (Leads.set ?_)
    rw [← hwithin.1, ← hwithin.2]
    show Courses _ ⟨parent, outer, s.source⟩ [] (fun _ => []) fun _ _ => True
    extract_lets i
    split
    · exact failLimit
    · exact still (Still.modifyFn fun _ => ⟨rfl, rfl, rfl⟩) fun _ w2 _ =>
        (ofMoves (Moves.emitABx (by decide))).next fun pc w3 _ => pending_stored pc

/-- **A function** is read beside what waits in the functions around it. -/
theorem Faithful.functionBody (hg : g.Faithful) (isMethod : Bool) (line : Nat) :
    Courses (g.functionBody isMethod line) w [] (fun _ => []) fun _ _ => True := by
  refine Leads.andThen (openFunction_within line) fun _ w1 h1 => Leads.read Reads.checkNext fun _ => ?_
  extract_lets rest
  have hrest : ∀ w2, Within w w2 → Leads (rest ()) w2 fun _ w' =>
      w'.outer.map Draft.unaimed = w.outer.map Draft.unaimed ∧
        (∀ more, (w.fn.unaimed.beside ([] ++ more)).Steps (w'.fn.unaimed.beside ([] ++ more))) ∧ True := by
    intro w2 h2
    refine Leads.andThen (parameters_still g w2) fun _ w3 h3 => Leads.read Reads.checkNext fun _ => ?_
    refine Leads.andThen (hg.statements w3) fun _ w4 h4 => Leads.read Reads.line fun last => ?_
    refine Leads.bind (Leads.modifyFn (Leads.read Reads.checkMatch fun _ => closeFunction_resumes ?_))
    exact h4.1.trans (h3.1.trans h2)
  split
  · refine Leads.andThen (ofStill Still.declare) fun _ w2 h2 => ?_
    exact Leads.andThen (ofStill (Still.activate 1)) fun _ w3 h3 => hrest w3 (h3.1.trans (h2.1.trans h1))
  · exact hrest w1 h1

/-! ## 4. Calls -/

theorem Faithful.arguments (hg : g.Faithful) (line : Nat) :
    Courses (g.arguments line) w [] Expr.lists fun e d' => e.Optional d' := by
  refine read Reads.token fun t => ?_
  split
  · refine read Reads.next fun _ => read Reads.token fun t' => ?_
    extract_lets rest
    have hrest : ∀ e w1, e.Optional w1.fn → Courses (rest e) w1 e.lists Expr.lists fun e d' => e.Optional d' :=
      fun e w1 he => read Reads.checkMatch fun _ => pure (.refl _) he
    split
    · exact (hrest _ w (Expr.optional_void w.fn)).taking Expr.bare_void.symm
    · refine hg.exprs.next fun r w1 hr => ?_
      refine (ofMoves (Moves.setReturns none hr)).calm.beside fun _ w2 h2 => hrest r.2 w2 ?_
      exact (hr.after h2.2).optional
  · exact hg.constructor'.imp fun e d' he => (Expr.apt_of_value he d').optional
  · refine still Still.addConstant fun k w1 _ => read Reads.next fun _ => ?_
    exact pure (Expr.bare_plain rfl).symm (Expr.apt_of_value rfl w1.fn).optional
  · exact failNear

/-- **A call**: no jump waits for its values. -/
theorem Faithful.call (hg : g.Faithful) (base line : Nat) :
    Courses (g.call base line) w [] Expr.lists fun e d' => e.Apt d' := by
  refine (hg.arguments line).next fun args w1 hargs => ?_
  extract_lets write count
  have hwrite : ∀ n w2, Courses (write n) w2 [] Expr.lists fun e d' => e.Apt d' := by
    refine fun n w2 => (ofMoves (Moves.emitABC (by decide))).next fun pc w3 hpc => ?_
    refine still Still.fixLine fun _ w4 h4 => still (Still.modifyFn fun _ => ⟨rfl, rfl, rfl⟩) fun _ w5 h5 => ?_
    refine pure (Expr.bare_plain rfl).symm ⟨?_, fun _ => Expr.bare_plain rfl, ?_⟩
    · exact Place.noConfusion
    · rintro n (hn | hn)
      · cases hn
        rw [h5, h4]
        exact calm_written hpc (by decide) (by decide)
      · cases hn
  have hcount : ∀ w2, Courses (count ()) w2 [] Expr.lists fun e d' => e.Apt d' := fun w2 =>
    demanding (get fun _ _ => hwrite _ w2)
  split
  · next hm => exact (hwrite none w1).taking ((hargs.apt_of_multi hm).bare_of_multi hm)
  · exact hargs.stored hcount

/-! ## 5. Expressions -/

theorem Faithful.primary (hg : g.Faithful) : Courses g.primary w [] Expr.lists fun e d' => e.Apt d' := by
  refine read Reads.token fun t => ?_
  split
  · refine read Reads.checkName fun name => ?_
    exact ((hg.name name w).regroup (.refl _) fun _ _ he => he.1.symm).imp fun _ d' he => he.1.apt he.2 d'
  · refine read Reads.line fun line => read Reads.next fun _ => hg.expr.next fun e w1 he => ?_
    refine read Reads.checkMatch fun _ => (ofMoves (Moves.readVariable_keeps he)).imp fun e' d' he' => ?_
    exact Expr.apt_of_value he'.2 d'
  · exact failNear

theorem Faithful.suffixesFrom (hg : g.Faithful) (line n : Nat) (he : e.Apt w.fn) :
    Courses (g.suffixesFrom line n e) w e.lists Expr.lists fun e' d' => e'.Apt d' := by
  induction n generalizing w e with
  | zero => exact failNear
  | succ n ih =>
    have hfield : ∀ e w1, e.Bare → e.place.isVariable →
        Courses (g.suffixesFrom line n e) w1 [] Expr.lists fun e' d' => e'.Apt d' := fun e w1 hb hv =>
      (ih (hb.apt hv w1.fn)).taking hb.symm
    have hcall : ∀ base w1, Courses (do suffixesFrom g line n (← g.call base line)) w1 [] Expr.lists
        fun e' d' => e'.Apt d' := fun base w1 => (hg.call base line).next fun e' w2 he' => ih he'
    have harguments := (ofMoves (Moves.toNextRegister he)).next fun base w1 _ => hcall base w1
    refine read Reads.token fun t => ?_
    split
    · exact (field_courses he).next fun e' w1 he' => hfield e' w1 he'.1 he'.2
    · refine (ofMoves (Moves.toRegisterOrUpvalue he)).next fun table w1 htable => ?_
      refine hg.bracketKey.next fun key w2 hkey => ?_
      refine (ofMoves (Moves.indexed (Expr.apt_of_value hkey w2.fn) htable)).next fun e' w3 he' => ?_
      exact hfield e' w3 he'.1 he'.2
    · refine read Reads.next fun _ => nameConstant_courses.calm.along fun key w1 hkey => ?_
      have hmethod := Moves.method (he.after hkey.2) hkey.1.1 hkey.1.2
      exact (ofMoves hmethod).next fun f w2 _ => hcall _ w2
    · exact harguments
    · exact harguments
    · exact harguments
    · exact pure (.refl _) he

theorem Faithful.suffixed (hg : g.Faithful) : Courses g.suffixed w [] Expr.lists fun e d' => e.Apt d' :=
  read Reads.line fun line => hg.primary.next fun _ _ he => hg.suffixesFrom line _ he

theorem Faithful.simple (hg : g.Faithful) : Courses g.simple w [] Expr.lists fun e d' => e.Apt d' := by
  have hliteral : ∀ (p : Place) w1, p.isValue → p.jumps = [] →
      Courses (simple.literal p) w1 [] Expr.lists fun e d' => e.Apt d' := fun p w1 hv hp =>
    read Reads.next fun _ => pure (Expr.bare_plain hp).symm (Expr.apt_of_value hv w1.fn)
  refine read Reads.token fun t => ?_
  cases t with
  | float x => exact hliteral (.float x) w rfl rfl
  | int i => exact hliteral (.int i) w rfl rfl
  | str text => exact still Still.addConstant fun k w1 _ => hliteral (.constant k) w1 rfl rfl
  | keyword word =>
    cases word with
    | nil => exact hliteral .nil w rfl rfl
    | true => exact hliteral (.bool true) w rfl rfl
    | false => exact hliteral (.bool false) w rfl rfl
    | function =>
      refine read Reads.next fun _ => read Reads.line fun line => (hg.functionBody false line).next fun reg w1 _ => ?_
      exact pure (Expr.bare_plain rfl).symm (Expr.apt_of_value rfl w1.fn)
    | _ => exact hg.suffixed
  | symbol mark =>
    cases mark with
    | dots =>
      refine get fun s _ => ?_
      split
      · refine (ofMoves (Moves.emitABC (by decide))).next fun pc w1 hpc => read Reads.next fun _ => ?_
        refine pure (Expr.bare_plain rfl).symm ⟨Place.noConfusion, fun _ => Expr.bare_plain rfl, ?_⟩
        rintro n (hn | hn)
        · cases hn
        · cases hn
          exact calm_written hpc (by decide) (by decide)
      · exact failNear
    | lbrace => exact hg.constructor'.imp fun e d' he => Expr.apt_of_value he d'
    | _ => exact hg.suffixed
  | _ => exact hg.suffixed

theorem Faithful.operatorsFrom (hg : g.Faithful) (limit n : Nat) (op : Option BinOp) (he : e.Apt w.fn) :
    Courses (g.operatorsFrom limit n e op) w e.lists (fun r => r.1.lists) fun r d' => r.1.Apt d' := by
  induction n generalizing w e op with
  | zero => exact failNear
  | succ n ih =>
    cases op with
    | none => exact pure (.refl _) he
    | some op =>
      unfold Grammar.operatorsFrom
      split
      · exact pure (.refl _) he
      · refine read Reads.line fun line => read Reads.next fun _ => ?_
        refine (ofMoves (Moves.beforeRight op he)).next fun e1 w1 h1 => ?_
        refine (hg.subexpr op.priority.2 w1).beside fun r w2 h2 => ?_
        refine (ofMoves (Moves.afterRight h1 h2)).andThen (K := []) (by grind) fun e3 w3 h3 => ?_
        rw [List.append_nil]
        exact ih _ (Expr.apt_of_value h3 w3.fn)

/-- **An expression**: its lists are given back. -/
theorem Faithful.expressionBody (hg : g.Faithful) (limit : Nat) (w : Drafts) :
    Courses (g.expressionBody limit) w [] (fun r => r.1.lists) fun r d' => r.1.Apt d' := by
  refine read Reads.token fun t => ?_
  extract_lets rest
  have hrest : ∀ e w1, e.Apt w1.fn → Courses (rest e) w1 e.lists (fun r => r.1.lists) fun r d' => r.1.Apt d' :=
    fun e w1 he => read Reads.token fun _ => hg.operatorsFrom limit _ _ he
  split
  · next op _ =>
    refine read Reads.line fun line => read Reads.next fun _ => (hg.subexpr UnOp.priority w).next fun r w1 hr => ?_
    exact (ofMoves (Moves.unary op hr line)).next fun e w2 he => hrest e w2 (Expr.apt_of_value he w2.fn)
  · exact hg.simple.next fun e w1 he => hrest e w1 he

end Grammar

end LuaMachine
