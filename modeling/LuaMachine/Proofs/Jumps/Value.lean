/-
  AN EXPRESSION HOLDS ITS LISTS OF JUMPS UNTIL ITS VALUE IS SOMEWHERE. Then they have been aimed: those that
  bring the value with them behind it, the others to where it is made.
-/
import LuaMachine.Proofs.Compiler.Value
import LuaMachine.Proofs.Jumps.Judgement

namespace LuaMachine

/-! ## 1. The lists of an expression -/

theorem Place.jumps_of_ne {p : Place} (h : ∀ js, p ≠ .compare js) : p.jumps = [] := by
  cases p with
  | compare js => exact absurd rfl (h js)
  | _ => rfl

theorem Place.isValue_of_isVariable {p : Place} (h : p.isVariable) : p.isValue = false := by
  cases p with
  | localVar | upvalue | indexed => rfl
  | _ => cases h

namespace Expr

def lists (e : Expr) : List JumpList := [e.place.jumps, e.onTrue, e.onFalse]

def Bare (e : Expr) : Prop := SameLists e.lists []

structure Apt (d : Draft) (e : Expr) : Prop where
  some : e.place ≠ .void
  bare : e.place.isValue = false → e.Bare
  calm : ∀ pc, e.place = .call pc ∨ e.place = .varargs pc → Calm d.code pc

theorem apt_of_value {e : Expr} (h : e.place.isValue) (d : Draft) : e.Apt d where
  some := fun hp => by
    rw [hp] at h
    cases h
  bare := fun hn => absurd (h.symm.trans hn) (by decide)
  calm := by
    rintro pc (hp | hp) <;>
    · rw [hp] at h
      cases h

theorem Apt.code {d d' : Draft} {e : Expr} (h : e.Apt d) (hc : d'.code = d.code) : e.Apt d' :=
  ⟨h.some, h.bare, hc ▸ h.calm⟩

theorem bare_plain {p : Place} (h : p.jumps = []) : (plain p).Bare := by
  unfold Bare lists plain
  rw [h]
  grind

theorem Bare.withPlace {e : Expr} {p : Place} (h : e.Bare) (hp : p.jumps = []) :
    ({ e with place := p } : Expr).Bare := by
  unfold Bare lists at *
  rw [hp]
  grind

theorem hasJumps_congr {e e' : Expr} (h : e'.lists = e.lists) : e'.hasJumps = e.hasJumps := by
  simp only [lists, List.cons.injEq] at h
  rw [hasJumps, hasJumps, h.2.1, h.2.2.1]

theorem bare_of_not_hasJumps {e : Expr} (h : e.hasJumps = false) (hp : e.place.jumps = []) : e.Bare := by
  simp only [hasJumps, Bool.not_eq_false', Bool.and_eq_true, List.isEmpty_iff] at h
  unfold Bare lists
  rw [hp, h.1, h.2]
  grind

end Expr

namespace Compile

namespace Still

theorem checkStack {n : Nat} : Still (checkStack n) := by
  refine get fun s => ?_
  dsimp only
  split
  · split
    · exact failNear
    · exact modifyFn fun _ => ⟨rfl, rfl, rfl⟩
  · exact pure

theorem reserve {n : Nat} : Still (reserve n) := checkStack.bind fun _ => modifyFn fun _ => ⟨rfl, rfl, rfl⟩

theorem freeRegister {reg : Nat} : Still (freeRegister reg) := by
  unfold Compile.freeRegister
  refine get fun s => ?_
  split
  · exact demand.bind fun _ => modifyFn fun _ => ⟨rfl, rfl, rfl⟩
  · exact pure

theorem topRegister : Still topRegister := demand.bind fun _ => get fun _ => pure

theorem freeRegisters {r1 r2 : Nat} : Still (freeRegisters r1 r2) := by
  unfold Compile.freeRegisters
  split
  · exact freeRegister.bind fun _ => freeRegister
  · exact freeRegister.bind fun _ => freeRegister

theorem freeExpr {e : Expr} : Still (freeExpr e) := by
  unfold Compile.freeExpr
  split
  · exact freeRegister
  · exact pure

theorem addConstant {c : Constant} : Still (addConstant c) := by
  refine get fun s => ?_
  split
  · exact pure
  · dsimp only
    split
    · exact failLimit
    · exact bind (modifyFn fun _ => ⟨rfl, rfl, rfl⟩) fun _ => pure

end Still

namespace Moves

variable {d : Draft} {e : Expr}

/-! ## 2. Reading -/

theorem recodeCalm {n : Nat} {g : Draft → Instr → Instr} (hn : Calm d.code n)
    (hg : ∀ i, (g d i).opcode = i.opcode) :
    Moves (modifyFn fun d => d.mapInstr n (g d)) d [] (fun _ => []) fun _ _ => True := by
  refine recode (n := fun _ => n) fun i hi => .inr ?_
  obtain ⟨j, hj, hlayout, -⟩ := hn
  rw [hi] at hj
  cases hj
  exact ⟨hlayout, .inl (hg i)⟩

theorem setReturns (n : Option Nat) (he : e.Apt d) :
    Moves (Compile.setReturns e n) d [] (fun _ => []) fun _ _ => True := by
  unfold Compile.setReturns
  split
  · next pc hp => exact recodeCalm (he.calm pc (.inl hp)) fun _ => rfl
  · next pc hp =>
    refine (recodeCalm (he.calm pc (.inr hp)) fun _ => rfl).along fun _ d1 _ => ?_
    exact ofStill Still.reserve
  · exact pure (.refl _) trivial

theorem setOneReturn (he : e.Apt d) :
    Moves (Compile.setOneReturn e) d [] (fun _ => []) fun e' d' => e'.lists = e.lists ∧ e'.Apt d' ∧
      (e.place.isMulti → e'.place.isValue) := by
  unfold Compile.setOneReturn
  split
  · next pc hp =>
    refine get fun s _ => pure (.refl _) ⟨?_, Expr.apt_of_value rfl d, fun _ => rfl⟩
    rw [Expr.lists, Expr.lists, hp]
    rfl
  · next pc hp =>
    refine (recodeCalm (he.calm pc (.inr hp)) fun _ => rfl).along fun _ d1 _ => ?_
    refine pure (.refl _) ⟨?_, Expr.apt_of_value rfl d1, fun _ => rfl⟩
    rw [Expr.lists, Expr.lists, hp]
    rfl
  · next hcall hvarargs =>
    refine pure (.refl _) ⟨rfl, he, fun hm => ?_⟩
    cases hp : e.place with
    | call pc => exact absurd hp (hcall pc)
    | varargs pc => exact absurd hp (hvarargs pc)
    | _ => rw [hp] at hm; cases hm

/-- **A value is made of a variable**; its jumps stay. -/
theorem readVariable (he : e.Apt d) :
    Moves (Compile.readVariable e) d [] (fun _ => []) fun e' _ => e'.lists = e.lists ∧ e'.place.isValue := by
  have hmade : ∀ p : Place, e.place.jumps = [] → p.jumps = [] → p.isValue →
      ({ e with place := p } : Expr).lists = e.lists ∧ ({ e with place := p } : Expr).place.isValue :=
    fun p he hp hv => ⟨by rw [Expr.lists, Expr.lists, he, hp], hv⟩
  have hone : e.place.isMulti → Moves (Compile.setOneReturn e) d [] (fun _ => []) fun e' _ =>
      e'.lists = e.lists ∧ e'.place.isValue := fun hm =>
    (setOneReturn he).imp fun _ _ h => ⟨h.1, h.2.2 hm⟩
  unfold Compile.readVariable
  split
  · next r hp => exact pure (.refl _) (hmade _ (by rw [hp]; rfl) rfl rfl)
  · next i hp => exact (emitABC (by decide)).along fun pc d1 _ => pure (.refl _) (hmade _ (by rw [hp]; rfl) rfl rfl)
  · next table key base hp =>
    have hnone : e.place.jumps = [] := by rw [hp]; rfl
    refine still Still.freeRegister fun _ d1 _ => ?_
    split
    · refine still Still.freeRegister fun _ d2 _ => ?_
      exact (emitABC (by decide)).along fun pc d3 _ => pure (.refl _) (hmade _ hnone rfl rfl)
    · exact (emitABC (by decide)).along fun pc d2 _ => pure (.refl _) (hmade _ hnone rfl rfl)
  · next pc hp => exact hone (by rw [hp]; rfl)
  · next pc hp => exact hone (by rw [hp]; rfl)
  · next hlocal hupvalue hindexed hcall hvarargs =>
    refine pure (.refl _) ⟨rfl, ?_⟩
    cases hp : e.place with
    | void => exact absurd hp he.some
    | localVar r => exact absurd hp (hlocal r)
    | upvalue i => exact absurd hp (hupvalue i)
    | indexed t k b => exact absurd hp (hindexed t k b)
    | call pc => exact absurd hp (hcall pc)
    | varargs pc => exact absurd hp (hvarargs pc)
    | _ => rfl

theorem readVariable_keeps (he : e.Apt d) :
    Moves (Compile.readVariable e) d e.lists Expr.lists fun e' _ => e'.lists = e.lists ∧ e'.place.isValue := by
  refine ((readVariable he).frame e.lists).regroup (.refl _) fun e1 _ he1 => ?_
  rw [he1.1]
  exact .refl _

theorem settle (he : e.Apt d) (reg : Nat) :
    Moves (Compile.settle e reg) d [] (fun _ => []) fun e' _ => e'.lists = e.lists := by
  refine (readVariable he).along fun e1 d1 he1 => ?_
  obtain ⟨hlists, -⟩ := he1
  have hfixed : e1.place.jumps = [] → ({ e1 with place := .fixed reg } : Expr).lists = e.lists := by
    intro hp
    rw [← hlists, Expr.lists, Expr.lists, hp]
    rfl
  split
  · next hp => exact (loadNil _ _).along fun _ _ _ => pure (.refl _) (hfixed (by rw [hp]; rfl))
  · next b hp =>
    exact along (writeABC (by decide)) fun _ _ _ => pure (.refl _) (hfixed (by rw [hp]; rfl))
  · next k hp => exact (loadConstant _ _).along fun _ _ _ => pure (.refl _) (hfixed (by rw [hp]; rfl))
  · next c hp =>
    refine still Still.addConstant fun k _ _ => ?_
    exact (loadConstant _ _).along fun _ _ _ => pure (.refl _) (hfixed (by rw [hp]; rfl))
  · next i hp =>
    refine still Still.addConstant fun k _ _ => ?_
    exact (loadConstant _ _).along fun _ _ _ => pure (.refl _) (hfixed (by rw [hp]; rfl))
  · next pc hp =>
    exact (recode fun i _ => .inl ⟨_, rfl⟩).along fun _ _ _ => pure (.refl _) (hfixed (by rw [hp]; rfl))
  · next r hp =>
    split
    · exact along (writeABC (by decide)) fun _ _ _ => pure (.refl _) (hfixed (by rw [hp]; rfl))
    · exact pure (.refl _) (hfixed (by rw [hp]; rfl))
  · exact pure (.refl _) hlists

theorem settleAnywhere (he : e.Apt d) :
    Moves (Compile.settleAnywhere e) d [] (fun _ => []) fun e' _ => e'.lists = e.lists := by
  unfold Compile.settleAnywhere
  split
  · exact pure (.refl _) rfl
  · exact still Still.reserve fun _ _ h1 => still Still.topRegister fun _ _ h2 =>
      settle ((he.code h1).code h2) _

/-! ## 3. Values in registers -/

theorem loadBooleans (fallsThrough : Bool) (reg : Nat) :
    Moves (Compile.loadBooleans fallsThrough reg) d [] (fun _ => []) fun _ _ => True := by
  unfold Compile.loadBooleans
  extract_lets rest
  have hrest : ∀ passing d1, Moves (rest passing) d1 [passing] (fun _ => []) fun _ _ => True := fun passing d1 => by
    refine still Still.markTarget.discard fun _ _ _ => (emitABC (by decide)).along fun _ _ _ => ?_
    refine still Still.markTarget.discard fun _ _ _ => (emitABC (by decide)).along fun _ _ _ => ?_
    exact (patchHere passing).next fun _ _ _ => pure (.refl _) trivial
  split
  · exact jump.next fun passing d1 _ => hrest passing d1
  · exact (hrest [] d).taking (by grind)

/-- **A value is in a register, whichever way it is decided**: all jumps have been aimed. -/
theorem toRegister (he : e.Apt d) (reg : Nat) :
    Moves (Compile.toRegister e reg) d e.lists (fun _ => []) fun _ _ => True := by
  refine (settle he reg).along fun e1 d1 hlists => ?_
  rw [← hlists]
  extract_lets rest
  -- what is left once it is known which jumps go where the value is true
  have hrest : ∀ r d2, Moves (rest r) d2 [r.1, e1.onFalse] (fun _ => []) fun _ _ => True := by
    rintro ⟨onTrue, decided⟩ d2
    show Moves (if (!(onTrue.isEmpty && e1.onFalse.isEmpty)) = true then _ else _) d2 _ _ _
    split
    · refine get fun s _ => ?_
      have haim : ∀ f t d3, Moves (do
          let stop ← markTarget
          Compile.aimJumps stop reg f e1.onFalse
          Compile.aimJumps stop reg t onTrue) d3 [onTrue, e1.onFalse] (fun _ => []) fun _ _ => True := by
        refine fun f t d3 => still Still.markTarget fun stop _ _ => ?_
        exact (aimJumps _ _ _ e1.onFalse).andThen (K := [onTrue]) (by grind) fun _ _ _ => aimJumps _ _ _ onTrue
      extract_lets aim
      split
      · exact (loadBooleans decided reg).along fun places d3 _ => haim places.1 places.2 d3
      · exact haim 0 0 d2
    · next hnone =>
      have hempty : onTrue = [] ∧ e1.onFalse = [] := by simpa using hnone
      refine pure ?_ trivial
      rw [hempty.1, hempty.2]
      grind
  split
  · next jumps hp =>
    refine (joinJumps e1.onTrue jumps).andThen (K := [e1.onFalse]) ?_ fun l d2 _ => hrest (l, false) d2
    rw [Expr.lists, hp, Place.jumps]
    grind
  · next hp =>
    refine (hrest (e1.onTrue, true) d1).taking ?_
    rw [Expr.lists, Place.jumps_of_ne hp]
    grind

theorem toNextRegister (he : e.Apt d) :
    Moves (Compile.toNextRegister e) d e.lists (fun _ => []) fun _ _ => True := by
  refine (readVariable he).along fun e1 d1 he1 => ?_
  refine still Still.freeExpr fun _ _ _ => still Still.reserve fun _ _ _ => still Still.topRegister fun reg d2 _ => ?_
  rw [← he1.1]
  exact (toRegister (Expr.apt_of_value he1.2 d2) reg).next fun _ _ _ => pure (.refl _) trivial

theorem toAnyRegister (he : e.Apt d) :
    Moves (Compile.toAnyRegister e) d e.lists (fun _ => []) fun _ _ => True := by
  refine (readVariable he).along fun e1 d1 he1 => ?_
  rw [← he1.1]
  split
  · next r hp =>
    split
    · next hnone => exact pure (Expr.bare_of_not_hasJumps (by simpa using hnone) (by rw [hp]; rfl)) trivial
    · refine get fun s _ => ?_
      split
      · exact (toRegister (Expr.apt_of_value he1.2 d1) r).next fun _ _ _ => pure (.refl _) trivial
      · exact toNextRegister (Expr.apt_of_value he1.2 d1)
  · exact toNextRegister (Expr.apt_of_value he1.2 d1)

theorem toRegisterOrUpvalue (he : e.Apt d) :
    Moves (Compile.toRegisterOrUpvalue e) d e.lists (fun _ => []) fun e' _ => e'.Bare := by
  unfold Compile.toRegisterOrUpvalue
  split
  · next hp hnone =>
    have hbare := Expr.bare_of_not_hasJumps hnone (by rw [hp]; rfl)
    exact pure hbare hbare
  · exact (toAnyRegister he).next fun r _ _ => pure (.refl _) (Expr.bare_plain rfl)

theorem toValue (he : e.Apt d) :
    Moves (Compile.toValue e) d e.lists Expr.lists fun e' _ => e'.place.isValue ∧ e'.hasJumps = false := by
  unfold Compile.toValue
  split
  · exact (toAnyRegister he).next fun r _ _ =>
      pure (Expr.bare_plain rfl).symm ⟨rfl, rfl⟩
  · next hnone =>
    refine (readVariable_keeps he).imp fun e1 _ he1 => ⟨he1.2, ?_⟩
    rw [Expr.hasJumps_congr he1.1]
    simpa using hnone

/-- **A value is an operand**: all jumps have been aimed. -/
theorem toOperand (he : e.Apt d) : Moves (Compile.toOperand e) d e.lists (fun _ => []) fun _ _ => True := by
  refine (toValue he).next fun e1 d1 he1 => ?_
  obtain ⟨hvalue, hjumps⟩ := he1
  extract_lets rest
  have hrest : ∀ e2 : Expr, e2.place.isValue → e2.hasJumps = false → ∀ d2, Moves (rest e2) d2 e2.lists (fun _ => [])
      fun _ _ => True := by
    intro e2 hvalue hjumps d2
    dsimp only [rest]
    split
    · next k hp =>
      split
      · exact pure (Expr.bare_of_not_hasJumps hjumps (by rw [hp]; rfl)) trivial
      · exact toAnyRegister (Expr.apt_of_value hvalue d2)
    · exact toAnyRegister (Expr.apt_of_value hvalue d2)
  split
  · next c hc =>
    have hnone : e1.place.jumps = [] := by
      cases hp : e1.place with
      | compare jumps => rw [hp] at hc; cases hc
      | _ => rfl
    refine still Still.addConstant fun k d2 _ => ?_
    refine (hrest { e1 with place := .constant k } rfl hjumps d2).taking ?_
    rw [Expr.lists, hnone]
    exact .refl _
  · exact hrest e1 hvalue hjumps d1

/-! ## 4. Variables and fields -/

theorem storeVariable {target : Place} (he : e.Apt d) (ht : target.isVariable) :
    Moves (Compile.storeVariable target e) d e.lists (fun _ => []) fun _ _ => True := by
  unfold Compile.storeVariable
  split
  · exact still Still.freeExpr fun _ _ h1 => toRegister (he.code h1) _
  · refine (toAnyRegister he).next fun r _ _ => along (writeABC (by decide)) fun _ _ _ => ?_
    exact ofStill Still.freeRegister
  · next base =>
    refine (toOperand he).next fun x _ _ => along (writeABC (by cases base <;> decide)) fun _ _ _ => ?_
    exact ofStill Still.freeRegister
  · next hlocal hupvalue hindexed =>
    cases target with
    | localVar r => exact absurd rfl (hlocal r)
    | upvalue i => exact absurd rfl (hupvalue i)
    | indexed t k b => exact absurd rfl (hindexed t k b)
    | _ => cases ht

theorem indexed {table key : Expr} (hk : key.Apt d) (ht : table.Bare) :
    Moves (Compile.indexed table key) d key.lists (fun _ => []) fun e' _ => e'.Bare ∧ e'.place.isVariable := by
  have hfield : ∀ (t : Nat) (base : TableBase), Moves (do
      Pure.pure { table with place := .indexed t (← Compile.toOperand key) base }) d key.lists (fun _ => [])
        fun e' _ => e'.Bare ∧ e'.place.isVariable := fun t base =>
    (toOperand hk).next fun k _ _ => pure (.refl _) ⟨ht.withPlace rfl, rfl⟩
  unfold Compile.indexed
  split
  exact hfield _ _

theorem method {object key : Expr} (ho : object.Apt d) (hk : key.Bare) (hv : key.place.isValue) :
    Moves (Compile.method object key) d object.lists (fun _ => []) fun e' _ => e'.Bare ∧ e'.place.isValue := by
  refine (toAnyRegister ho).next fun r _ _ => still Still.freeRegister fun _ _ _ => get fun s _ => ?_
  refine still Still.reserve fun _ d2 _ => ?_
  have hkey := toOperand (Expr.apt_of_value hv d2)
  refine (hkey.taking hk.symm).next fun k _ _ => along (writeABC (by decide)) fun _ _ _ => ?_
  refine still Still.freeRegister fun _ _ _ => ?_
  exact pure (.refl _) ⟨Expr.bare_plain rfl, rfl⟩

end Moves

end Compile

end LuaMachine
