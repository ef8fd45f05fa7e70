/-
  CONDITIONS TURN VALUES INTO LISTS OF JUMPS, operators turn such lists into others. A condition joins the
  jumps of its test to those taken with the same outcome and lets the others arrive; `not` exchanges the two
  lists, `and` and `or` join one of them to that of the left operand.
-/
import LuaMachine.Proofs.Jumps.Value

namespace LuaMachine

namespace Compile.Moves

variable {d : Draft} {e : Expr}

/-! ## 1. Conditions -/

theorem negate (jumps : JumpList) : Moves (Compile.negate jumps) d [] (fun _ => []) fun _ _ => True := by
  unfold Compile.negate
  split
  · exact pure (.refl _) trivial
  · next node _ => exact recode (n := fun d => controlOf d node) fun i _ => .inl ⟨_, rfl⟩

theorem last_of_lastNot? {p : Place} {r : Nat} (h : lastNot? d p = some r) :
    p.isValue = true ∧ p.jumps = [] ∧ ∃ i, d.code[d.code.size - 1]? = some i ∧ i.opcode = .not := by
  cases p with
  | pending pc =>
    refine ⟨rfl, rfl, ?_⟩
    simp only [lastNot?] at h
    split at h
    · next hlast =>
      obtain ⟨hop, hpc⟩ := hlast
      have hlt : pc < d.code.size := Draft.instr_lt (by rw [hop]; decide)
      have hpc' : d.code.size - 1 = pc := by
        have hsize : pc + 1 = d.code.size := hpc
        omega
      refine ⟨d.instr pc, ?_, hop⟩
      rw [hpc', Draft.instr, Array.getElem?_eq_getElem hlt]
      rfl
    · cases h
  | _ => cases h

/-- **A value is tested**: a list of one jump is written. -/
theorem jumpOn (he : e.place.isValue) (cond : Bool) :
    Moves (Compile.jumpOn e cond) d [] (fun l => [l]) fun _ _ => True := by
  refine get fun s hs => ?_
  subst hs
  split
  · next r hnot =>
    obtain ⟨-, -, i, hi, hop⟩ := last_of_lastNot? hnot
    exact (dropLast hi hop).along fun _ _ _ => condJump (by decide)
  · refine (settleAnywhere (Expr.apt_of_value he s.fn)).along fun e1 _ _ => still Still.freeExpr fun _ _ _ => ?_
    exact condJump (by decide)

theorem leave (out jumps arrive : JumpList) :
    Moves (do
      let all ← Compile.joinJumps out jumps
      Compile.patchHere arrive
      return all) d [jumps, arrive, out] (fun l => [l]) fun _ _ => True := by
  refine (joinJumps out jumps).andThen (K := [arrive]) (by grind) fun all _ _ => ?_
  exact (patchHere arrive).andThen (K := [all]) (by grind) fun _ _ _ => pure (.refl _) trivial

theorem test {e1 : Expr} {cond : Bool} {next : JumpList → Compile JumpList} (he : e1.place.isValue)
    (hnext : ∀ js d2, Moves (next js) d2 [js, e1.onTrue, e1.onFalse] (fun l => [l]) fun _ _ => True)
    (hp : ∀ js, e1.place ≠ .compare js) :
    Moves (Compile.jumpOn e1 cond >>= next) d e1.lists (fun l => [l]) fun _ _ => True := by
  refine (jumpOn he cond).beside fun js d2 _ => (hnext js d2).taking ?_
  rw [Expr.lists, Place.jumps_of_ne hp]
  grind

/-- **Control goes on when the value is true**: the jumps taken when it is false are given back. -/
theorem goIfTrue (he : e.Apt d) : Moves (Compile.goIfTrue e) d e.lists (fun l => [l]) fun _ _ => True := by
  refine (readVariable he).along fun e1 d1 he1 => ?_
  obtain ⟨hlists, hvalue⟩ := he1
  rw [← hlists]
  extract_lets next
  have hnext : ∀ js d2, Moves (next js) d2 [js, e1.onTrue, e1.onFalse] (fun l => [l]) fun _ _ => True := fun js d2 =>
    leave e1.onFalse js e1.onTrue
  have hknown : (∀ js, e1.place ≠ .compare js) → Moves (next []) d1 e1.lists (fun l => [l]) fun _ _ => True := by
    intro hp
    rw [Expr.lists, Place.jumps_of_ne hp]
    exact hnext [] d1
  cases hp : e1.place with
  | compare js =>
    rw [Expr.lists, hp]
    exact (negate js).along fun _ d2 _ => hnext js d2
  | constant | float | int => exact hknown (by rw [hp]; exact fun js h => by cases h)
  | bool b =>
    cases b with
    | true => exact hknown (by rw [hp]; exact fun js h => by cases h)
    | false => exact test hvalue hnext (by rw [hp]; exact fun js h => by cases h)
  | _ => exact test hvalue hnext (by rw [hp]; exact fun js h => by cases h)

/-- **Control goes on when the value is false**: the jumps taken when it is true are given back. -/
theorem goIfFalse (he : e.Apt d) : Moves (Compile.goIfFalse e) d e.lists (fun l => [l]) fun _ _ => True := by
  refine (readVariable he).along fun e1 d1 he1 => ?_
  obtain ⟨hlists, hvalue⟩ := he1
  rw [← hlists]
  extract_lets next
  have hnext : ∀ js d2, Moves (next js) d2 [js, e1.onTrue, e1.onFalse] (fun l => [l]) fun _ _ => True := fun js d2 =>
    (leave e1.onTrue js e1.onFalse).taking (by grind)
  have hknown : (∀ js, e1.place ≠ .compare js) → Moves (next []) d1 e1.lists (fun l => [l]) fun _ _ => True := by
    intro hp
    rw [Expr.lists, Place.jumps_of_ne hp]
    exact hnext [] d1
  cases hp : e1.place with
  | compare js =>
    rw [Expr.lists, hp]
    exact hnext js d1
  | nil => exact hknown (by rw [hp]; exact fun js h => by cases h)
  | bool b =>
    cases b with
    | true => exact test hvalue hnext (by rw [hp]; exact fun js h => by cases h)
    | false => exact hknown (by rw [hp]; exact fun js h => by cases h)
  | _ => exact test hvalue hnext (by rw [hp]; exact fun js h => by cases h)

/-- **The lists of a negated value change sides.** -/
theorem logicalNot (he : e.Apt d) :
    Moves (Compile.logicalNot e) d e.lists Expr.lists fun e' _ => e'.place.isValue := by
  refine (readVariable he).along fun e1 d1 he1 => ?_
  obtain ⟨hlists, hvalue⟩ := he1
  rw [← hlists]
  extract_lets next
  have hnext : ∀ place d2, place.isValue → Moves (next place) d2 [place.jumps, e1.onTrue, e1.onFalse] Expr.lists
      fun e' _ => e'.place.isValue := by
    intro place d2 hv
    refine (dropValues e1.onTrue).andThen (K := [place.jumps, e1.onFalse]) (by grind) fun _ d3 _ => ?_
    refine (dropValues e1.onFalse).andThen (K := [place.jumps, e1.onTrue]) (by grind) fun _ d4 _ => ?_
    exact pure (by rw [Expr.lists]; grind) hv
  have hknown : ∀ b, (∀ js, e1.place ≠ .compare js) →
      Moves (next (.bool b)) d1 e1.lists Expr.lists fun e' _ => e'.place.isValue := by
    intro b hp
    rw [Expr.lists, Place.jumps_of_ne hp]
    exact hnext (.bool b) d1 rfl
  have hwritten : (∀ js, e1.place ≠ .compare js) → Moves (do
      let e ← Compile.settleAnywhere e1
      freeExpr e
      let pc ← Compile.emitABC .not 0 e.place.register 0
      next (.pending pc)) d1 e1.lists Expr.lists fun e' _ => e'.place.isValue := by
    intro hp
    rw [Expr.lists, Place.jumps_of_ne hp]
    refine (settleAnywhere (Expr.apt_of_value hvalue d1)).along fun e2 _ _ => still Still.freeExpr fun _ _ _ => ?_
    exact (emitABC (by decide)).along fun pc d2 _ => hnext (.pending pc) d2 rfl
  have hother : ∀ d2, Moves (next e1.place) d2 e1.lists Expr.lists fun e' _ => e'.place.isValue := fun d2 =>
    hnext e1.place d2 hvalue
  cases hp : e1.place with
  | nil => exact hknown true (by rw [hp]; exact fun js h => by cases h)
  | constant | float | int => exact hknown false (by rw [hp]; exact fun js h => by cases h)
  | bool b => cases b <;> exact hknown _ (by rw [hp]; exact fun js h => by cases h)
  | compare js =>
    rw [hp] at hother
    exact (negate js).along fun _ d2 _ => hother d2
  | pending | fixed => exact hwritten (by rw [hp]; exact fun js h => by cases h)
  | _ =>
    rw [hp] at hvalue
    cases hvalue

/-! ## 2. Unary operators -/

theorem emitResult {op : Op} {a b c line : Nat} (hop : op.layout ≠ .asbx) :
    Moves (do
      let pc ← Compile.emitABC op a b c
      Compile.fixLine line
      return Expr.plain (.pending pc)) d [] Expr.lists fun e' _ => e'.place.isValue := by
  refine (emitABC hop).along fun pc _ _ => still Still.fixLine fun _ _ _ => ?_
  exact pure (Expr.bare_plain rfl).symm rfl

theorem emitUnary {op : Op} {line : Nat} (he : e.Apt d) (hop : op.layout ≠ .asbx) :
    Moves (Compile.emitUnary op e line) d e.lists Expr.lists fun e' _ => e'.place.isValue :=
  (toAnyRegister he).next fun _ _ _ => still Still.freeRegister fun _ _ _ => emitResult hop

theorem numeral_of_fold {op : ArithOp} {e1 e2 r : Expr} (h : fold? op e1 e2 = some r) :
    e1.numeral?.isSome ∧ e2.numeral?.isSome ∧ r.place.isValue ∧ r.Bare := by
  unfold fold? at h
  split at h
  · next a b ha hb =>
    refine ⟨by rw [ha]; rfl, by rw [hb]; rfl, ?_⟩
    split at h
    · split at h
      · cases h
        exact ⟨rfl, Expr.bare_plain rfl⟩
      · split at h
        · cases h
        · cases h
          exact ⟨rfl, Expr.bare_plain rfl⟩
      · cases h
    · cases h
  · cases h

theorem bare_of_numeral {e : Expr} (h : e.numeral?.isSome) : e.Bare ∧ e.place.isValue := by
  unfold Expr.numeral? at h
  split at h
  · cases h
  · next hnone =>
    split at h
    · next hp => exact ⟨Expr.bare_of_not_hasJumps (by simpa using hnone) (by rw [hp]; rfl), by rw [hp]; rfl⟩
    · next hp => exact ⟨Expr.bare_of_not_hasJumps (by simpa using hnone) (by rw [hp]; rfl), by rw [hp]; rfl⟩
    · cases h

theorem foldOrEmit (aop : ArithOp) {op : Op} (zero : Expr) (he : e.Apt d) (line : Nat) (hop : op.layout ≠ .asbx) :
    Moves (match fold? aop e zero with
      | some r => Pure.pure r
      | none => Compile.emitUnary op e line) d e.lists Expr.lists fun e' _ => e'.place.isValue := by
  split
  · next r hr =>
    obtain ⟨hnumeral, -, hvalue, hbare⟩ := numeral_of_fold hr
    exact pure ((bare_of_numeral hnumeral).1.trans hbare.symm) hvalue
  · exact emitUnary he hop

theorem unary (op : UnOp) (he : e.Apt d) (line : Nat) :
    Moves (Compile.unary op e line) d e.lists Expr.lists fun e' _ => e'.place.isValue := by
  cases op with
  | minus => exact foldOrEmit .unm _ he line (by decide)
  | bnot => exact foldOrEmit .bnot _ he line (by decide)
  | len => exact emitUnary he (by decide)
  | not => exact logicalNot he

/-! ## 3. Binary operators -/

theorem emitBinary {op : Op} {e1 e2 : Expr} {line : Nat} (h1 : e1.place.isValue) (h2 : e2.Apt d)
    (hop : op.layout ≠ .asbx) :
    Moves (Compile.emitBinary op e1 e2 line) d (e1.lists ++ e2.lists) Expr.lists fun e' _ => e'.place.isValue := by
  refine (toOperand h2).andThen (K := e1.lists) (by grind) fun y d1 _ => ?_
  refine (toOperand (Expr.apt_of_value h1 d1)).next fun x d2 _ => ?_
  exact still Still.freeRegisters fun _ _ _ => emitResult hop

/-- **A comparison is written**: its jump is a list of its own. -/
theorem emitCompare (op : BinOp) {e1 e2 : Expr} (h1 : e1.Bare) (h2 : e2.Apt d) :
    Moves (Compile.emitCompare op e1 e2) d (e1.lists ++ e2.lists) Expr.lists fun e' _ => e'.place.isValue := by
  unfold Compile.emitCompare
  extract_lets x
  refine (toOperand h2).andThen (K := []) (by unfold Expr.Bare at h1; grind) fun y d1 _ => ?_
  refine still Still.freeRegisters fun _ d2 _ => ?_
  have hjump : ∀ cop a b c, Op.layout cop ≠ .asbx → Moves (do
      let jumps ← Compile.condJump cop a b c
      return Expr.plain (.compare jumps)) d2 [] Expr.lists fun e' _ => e'.place.isValue := fun cop a b c hop =>
    (condJump hop).next fun jumps _ _ => pure (by simp only [Expr.lists, Expr.plain, Place.jumps]; grind) rfl
  cases op <;> exact hjump _ _ _ _ (by decide)

end Compile.Moves

/-- What a left operand may hold while the right one is read: after `and` one list, after `or` the other, else
    none. -/
def Expr.Left (op : BinOp) (e : Expr) : Prop :=
  match op with
  | .and => ∃ jumps, e = ⟨.void, [], jumps⟩
  | .or => ∃ jumps, e = ⟨.void, jumps, []⟩
  | _ => e.Bare ∧ e.place.isValue

theorem Expr.lists_void (onTrue onFalse : JumpList) : (⟨.void, onTrue, onFalse⟩ : Expr).lists = [[], onTrue, onFalse] :=
  rfl

theorem Expr.bare_ofOperand (x : Nat) : (Expr.ofOperand x).Bare ∧ (Expr.ofOperand x).place.isValue := by
  unfold Expr.ofOperand
  split
  · exact ⟨Expr.bare_plain rfl, rfl⟩
  · exact ⟨Expr.bare_plain rfl, rfl⟩

namespace Compile.Moves

variable {d : Draft} {e : Expr}

theorem pending_of_concat {p : Place} {pc : Nat} (h : pendingConcat? d p = some pc) :
    p = .pending pc ∧ (d.instr pc).opcode = .concat := by
  cases p with
  | pending n =>
    simp only [pendingConcat?] at h
    split at h
    · next hop =>
      cases h
      exact ⟨rfl, hop⟩
    · cases h
  | _ => cases h

/-- **The left operand is prepared.** -/
theorem beforeRight (op : BinOp) (he : e.Apt d) :
    Moves (Compile.beforeRight op e) d e.lists Expr.lists fun e' _ => e'.Left op := by
  have hoperand : Moves (do return Expr.ofOperand (← Compile.toOperand e)) d e.lists Expr.lists
      fun e' _ => e'.Bare ∧ e'.place.isValue :=
    (toOperand he).next fun x _ _ => pure (Expr.bare_ofOperand x).1.symm (Expr.bare_ofOperand x)
  cases op with
  | and =>
    exact (goIfTrue he).next fun l _ _ => pure (by rw [Expr.lists_void]; grind) ⟨l, rfl⟩
  | or =>
    exact (goIfFalse he).next fun l _ _ => pure (by rw [Expr.lists_void]; grind) ⟨l, rfl⟩
  | concat =>
    exact (toNextRegister he).next fun r _ _ => pure (Expr.bare_plain rfl).symm ⟨Expr.bare_plain rfl, rfl⟩
  | arith aop =>
    unfold Compile.beforeRight
    dsimp only
    split
    · next hnumeral => exact pure (.refl _) (bare_of_numeral hnumeral)
    · exact hoperand
  | _ => exact hoperand

/-- **The operator is applied.** -/
theorem afterRight {op : BinOp} {e1 e2 : Expr} {line : Nat} (h1 : e1.Left op) (h2 : e2.Apt d) :
    Moves (Compile.afterRight op e1 e2 line) d (e1.lists ++ e2.lists) Expr.lists fun e' _ => e'.place.isValue := by
  cases op with
  | and =>
    obtain ⟨jumps, rfl⟩ := h1
    refine (readVariable_keeps h2).andThen (K := [jumps]) (by rw [Expr.lists_void]; grind) fun e d1 he => ?_
    refine (joinJumps e.onFalse jumps).andThen (K := [e.place.jumps, e.onTrue]) (by rw [Expr.lists]; grind)
      fun l d2 _ => pure (by rw [Expr.lists]; grind) he.2
  | or =>
    obtain ⟨jumps, rfl⟩ := h1
    refine (readVariable_keeps h2).andThen (K := [jumps]) (by rw [Expr.lists_void]; grind) fun e d1 he => ?_
    refine (joinJumps e.onTrue jumps).andThen (K := [e.place.jumps, e.onFalse]) (by rw [Expr.lists]; grind)
      fun l d2 _ => pure (by rw [Expr.lists]; grind) he.2
  | concat =>
    obtain ⟨hbare, hvalue⟩ := h1
    refine (toValue h2).andThen (K := e1.lists) (by grind) fun e d1 he => get fun s hs => ?_
    subst hs
    split
    · next pc hconcat =>
      obtain ⟨hp, hop⟩ := pending_of_concat hconcat
      have he' : e.Bare := Expr.bare_of_not_hasJumps he.2 (by rw [hp]; rfl)
      refine demanding (still Still.freeExpr fun _ d2 h2 => ?_)
      refine (recode (n := fun _ => pc) fun i hi => .inr ?_).along fun _ _ _ => pure ?_ rfl
      · have hi' : s.fn.code[pc]? = some i := by rw [← h2]; exact hi
        rw [Draft.instr_eq hi'] at hop
        rw [Instr.opcode_setB, hop]
        exact ⟨by decide, .inl rfl⟩
      · have hplain : (Expr.plain (.pending pc)).Bare := Expr.bare_plain rfl
        unfold Expr.Bare at *
        grind
    · refine (toNextRegister (Expr.apt_of_value he.1 s.fn)).andThen (K := e1.lists) (.refl _) fun r d2 _ => ?_
      refine (emitBinary hvalue (Expr.apt_of_value rfl d2) (by decide)).taking ?_
      have hplain : (Expr.plain (.fixed r)).Bare := Expr.bare_plain rfl
      unfold Expr.Bare at hplain
      grind
  | arith aop =>
    obtain ⟨hbare, hvalue⟩ := h1
    have hop : aop.opcode.layout ≠ .asbx := by cases aop <;> decide
    unfold Compile.afterRight
    dsimp only
    split
    · next r hr =>
      obtain ⟨-, hnumeral, hr', hbare'⟩ := numeral_of_fold hr
      have h2' := (bare_of_numeral hnumeral).1
      unfold Expr.Bare at *
      exact pure (by grind) hr'
    · exact emitBinary hvalue h2 hop
  | eq | lt | le | ne | gt | ge =>
    unfold Compile.afterRight
    exact emitCompare _ h1.1 h2

theorem setList (table items : Nat) (gathered : Option Nat) :
    Moves (Compile.setList table items gathered) d [] (fun _ => []) fun _ _ => True := by
  unfold Compile.setList
  extract_lets block n rest
  have hrest : ∀ d1, Moves (rest ()) d1 [] (fun _ => []) fun _ _ => True := fun d1 =>
    ofStill (Still.modifyFn (g := fun d => { d with free := table + 1 }) fun _ => ⟨rfl, rfl, rfl⟩)
  split
  · exact along (writeABC (by decide)) fun _ _ _ => hrest _
  · split
    · exact along (writeABC (by decide)) fun _ _ _ => writeExtra.along fun _ _ _ => hrest _
    · exact failNear

end Compile.Moves

end LuaMachine
