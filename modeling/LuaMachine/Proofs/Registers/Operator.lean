/-
  CONDITIONS AND OPERATORS give their operands back. A condition leaves no register taken; an operator
  leaves none of those that its operands held.
-/
import LuaMachine.Proofs.Registers.Value

namespace LuaMachine

namespace Compile.Orderly

open Registers

variable {d : Draft} {base : Nat} {e : Expr}

/-! ## 1. Conditions -/

theorem negate (jumps : JumpList) : Orderly (Compile.negate jumps) d fun _ d' => d'.registers = d.registers := by
  unfold Compile.negate
  split
  · exact pure rfl
  · exact modifyFn rfl rfl

theorem settleThenFree {β : Type} {f : Expr → Compile β} {Q : β → Draft → Prop} (hs : d.registers.Sound)
    (hb : d.active ≤ base) (he : e.place.Rests d base) (hv : e.place.isValue) (hc : ∀ js, e.place ≠ .compare js)
    (hf : ∀ e' d', d.registers.Stays d'.registers → d'.free = base → Orderly (f e') d' Q) :
    Orderly (do let e' ← Compile.settleAnywhere e; Compile.freeExpr e'; f e') d Q := by
  have hsettled : Orderly (Compile.settleAnywhere e) d fun e' d' =>
      d.registers.Stays d'.registers ∧ e'.place.Rests d' base ∧ e'.place.isValue := by
    by_cases hr : ∃ r, e.place = .fixed r
    · obtain ⟨r, hp⟩ := hr
      unfold Compile.settleAnywhere
      rw [hp]
      exact pure ⟨hs.stays, he, hv⟩
    · have hfree : d.free = base := he.free hv fun r hp => hr ⟨r, hp⟩
      have hreserve : Compile.settleAnywhere e = (do
          Compile.reserve 1
          Compile.settle e (← Compile.topRegister)) := by
        unfold Compile.settleAnywhere
        cases hp : e.place with
        | fixed r => exact absurd ⟨r, hp⟩ hr
        | _ => rfl
      rw [hreserve]
      refine (reserve hs 1).andThen fun _ d1 h1 => topRegister (by omega) ((settle _ hv).imp fun e' d2 h2 => ?_)
      refine ⟨h2.1 ▸ h1.1, ?_⟩
      rcases h2.2 with rfl | ⟨js, hp⟩
      · have hactive : d2.active = d.active := (congrArg Registers.active h2.1).trans h1.1.active
        have hfree2 : d2.free = d1.free := congrArg Registers.free h2.1
        exact ⟨.inr ⟨by omega, by omega, by omega⟩, rfl⟩
      · exact absurd hp (hc js)
  refine hsettled.andThen fun e' d1 h1 => (freeExpr h1.1.sound h1.2.1 h1.2.2).andThen fun _ d2 h2 => ?_
  exact hf e' d2 (h1.1.lower h2.1 h1.2.1.le) (congrArg Registers.free h2.1)

/-- **A value is tested.** -/
theorem jumpOn {cond : Bool} (hs : d.registers.Sound) (hb : d.active ≤ base) (he : e.place.Rests d base)
    (hv : e.place.isValue) (hc : ∀ js, e.place ≠ .compare js) :
    Orderly (Compile.jumpOn e cond) d fun _ d' => d.registers.Stays d'.registers ∧ d'.free = base := by
  refine get fun s hfn => ?_
  subst hfn
  split
  · next r hnot =>
    have hfree : s.fn.free = base := he.free hv fun r hp => by rw [hp] at hnot; exact nomatch hnot
    refine bind (modifyFn rfl ((condJump _ _ _ _).imp fun _ d' h => ?_))
    have h' : d'.registers = s.fn.registers := h
    exact ⟨h' ▸ hs.stays, (congrArg Registers.free h').trans hfree⟩
  · refine settleThenFree hs hb he hv hc fun e' d1 hstays hfree => (condJump _ _ _ _).imp fun _ d2 h => ?_
    exact ⟨h ▸ hstays, (congrArg Registers.free h).trans hfree⟩

theorem leave {out jumps arrive : JumpList} {R : Registers → Prop} (hR : R d.registers) :
    Orderly (do
      let all ← Compile.joinJumps out jumps
      Compile.patchHere arrive
      return all) d fun _ d' => R d'.registers := by
  refine (joinJumps _ _).andThen ?_
  rintro all _ rfl
  refine (patchHere _).andThen fun _ d1 h1 => pure ?_
  rw [h1]
  exact hR

theorem Fetches.jumpOn {cond : Bool} {e1 : Expr} {d1 : Draft} (h : Fetches d base e e1 d1) (hb : d.active ≤ base)
    (hc : ∀ js, e1.place ≠ .compare js) :
    Orderly (Compile.jumpOn e1 cond) d1 fun _ d' => d.registers.Stays d'.registers ∧ d'.free = base := by
  have hb1 : d1.active ≤ base := Nat.le_trans (Nat.le_of_eq h.stays.active) hb
  exact (Orderly.jumpOn h.stays.sound hb1 h.rests h.value hc).imp fun _ d2 h2 => ⟨h.stays.trans h2.1, h2.2⟩

theorem Fetches.low {e1 : Expr} {d1 : Draft} (h : Fetches d base e e1 d1) (hr : ∀ r, e1.place ≠ .fixed r) :
    d.registers.Stays d1.registers ∧ d1.free = base := ⟨h.stays, h.rests.free h.value hr⟩

/-- **A condition leaves no register taken.** -/
theorem goIfTrue (hs : d.registers.Sound) (hb : d.active ≤ base) (he : e.place.Rests d base) :
    Orderly (Compile.goIfTrue e) d fun _ d' => d.registers.Stays d'.registers ∧ d'.free = base := by
  refine (readVariable hs he).andThen fun e1 d1 h1 => ?_
  extract_lets next
  have hnext : ∀ js d2, d.registers.Stays d2.registers ∧ d2.free = base → Orderly (next js) d2 fun _ d' =>
      d.registers.Stays d'.registers ∧ d'.free = base := fun js d2 h2 =>
    leave (R := fun r => d.registers.Stays r ∧ r.free = base) h2
  have hnone : ∀ js, (∀ r, e1.place ≠ .fixed r) → Orderly (Pure.pure js >>= next) d1 fun _ d' =>
      d.registers.Stays d'.registers ∧ d'.free = base := fun js hr => bind (pure (hnext js d1 (h1.low hr)))
  have htest : (∀ js, e1.place ≠ .compare js) → Orderly (Compile.jumpOn e1 false >>= next) d1 fun _ d' =>
      d.registers.Stays d'.registers ∧ d'.free = base := fun hc => (h1.jumpOn hb hc).andThen hnext
  cases hp : e1.place with
  | compare js =>
    refine (negate js).andThen fun _ d2 h2 => bind (pure (hnext js d2 ?_))
    obtain ⟨hstays, hfree⟩ := h1.low (by rw [hp]; exact nofun)
    exact ⟨h2 ▸ hstays, (congrArg Registers.free h2).trans hfree⟩
  | constant | float | int => exact hnone [] (by rw [hp]; exact nofun)
  | bool b =>
    cases b with
    | true => exact hnone [] (by rw [hp]; exact nofun)
    | false => exact htest (by rw [hp]; exact nofun)
  | _ => exact htest (by rw [hp]; exact nofun)

theorem goIfFalse (hs : d.registers.Sound) (hb : d.active ≤ base) (he : e.place.Rests d base) :
    Orderly (Compile.goIfFalse e) d fun _ d' => d.registers.Stays d'.registers ∧ d'.free = base := by
  refine (readVariable hs he).andThen fun e1 d1 h1 => ?_
  extract_lets next
  have hnext : ∀ js d2, d.registers.Stays d2.registers ∧ d2.free = base → Orderly (next js) d2 fun _ d' =>
      d.registers.Stays d'.registers ∧ d'.free = base := fun js d2 h2 =>
    leave (R := fun r => d.registers.Stays r ∧ r.free = base) h2
  split
  · next hp => exact bind (pure (hnext _ d1 (h1.low fun r hr => by rw [hp] at hr; cases hr)))
  · next hp => exact bind (pure (hnext [] d1 (h1.low fun r hr => by rw [hp] at hr; cases hr)))
  · next hp => exact bind (pure (hnext [] d1 (h1.low fun r hr => by rw [hp] at hr; cases hr)))
  · next hc _ _ => exact (h1.jumpOn hb hc).andThen hnext

/-! ## 2. Unary operators -/

theorem emitResult {r : Registers} {op : Op} {a b c line : Nat} (hs : r.Stays d.registers) (hfree : d.free = base)
    (hop : op = .concat → b = base) :
    Orderly (do
      let pc ← Compile.emitABC op a b c
      Compile.fixLine line
      return Expr.plain (.pending pc)) d fun e' d' => r.Stays d'.registers ∧ e'.place.Rests d' base := by
  have hle : d.free ≤ 254 := Nat.le_trans hs.sound.free hs.sound.high
  refine (emitABC op a b c).andThen fun pc d1 h1 => (fixLine line).andThen fun _ d2 h2 => ?_
  have hregisters : d2.registers = d.registers := h2.1.trans h1.1
  refine pure ⟨hregisters ▸ hs, (congrArg Registers.free hregisters).trans hfree, ?_⟩
  rw [Draft.instr_of_code h2.2, h1.2, Instr.opcode_ofABC, Instr.b_ofABC]
  intro hconcat
  rw [hop hconcat]
  omega

/-- **A negation** gives back the register of its operand. -/
theorem logicalNot (hs : d.registers.Sound) (hb : d.active ≤ base) (he : e.place.Rests d base) :
    Orderly (Compile.logicalNot e) d fun e' d' => d.registers.Stays d'.registers ∧ e'.place.Rests d' base := by
  refine (readVariable hs he).andThen fun e1 d1 h1 => ?_
  extract_lets next
  have hnext : ∀ p d2, d.registers.Stays d2.registers →
      (∀ d' : Draft, d'.registers = d2.registers → d2.NoConcat d' → p.Rests d' base) →
      Orderly (next p) d2 fun e' d' => d.registers.Stays d'.registers ∧ e'.place.Rests d' base := by
    intro p d2 hstays hp
    refine (dropValues _).andThen fun _ d3 h3 => (dropValues _).andThen fun _ d4 h4 => pure ?_
    have hregisters : d4.registers = d2.registers := h4.1.trans h3.1
    exact ⟨hregisters ▸ hstays, hp d4 hregisters fun pc hpc => h4.2 pc (h3.2 pc hpc)⟩
  have hvalue : ∀ p d2, d2.registers = d1.registers → (∀ r, e1.place ≠ .fixed r) →
      (∀ d' : Draft, d'.free = base → p.Rests d' base) →
      Orderly (next p) d2 fun e' d' => d.registers.Stays d'.registers ∧ e'.place.Rests d' base := by
    intro p d2 h2 hr hp
    obtain ⟨hstays, hfree⟩ := h1.low hr
    exact hnext p d2 (h2 ▸ hstays) fun d' h' _ => hp d' ((congrArg Registers.free (h'.trans h2)).trans hfree)
  have hb1 : d1.active ≤ base := Nat.le_trans (Nat.le_of_eq h1.stays.active) hb
  have hnot : (∀ js, e1.place ≠ .compare js) → Orderly (do
      let e' ← Compile.settleAnywhere e1
      Compile.freeExpr e'
      let pc ← Compile.emitABC .not 0 e'.place.register 0
      let p ← Pure.pure (.pending pc)
      next p) d1 fun e' d' => d.registers.Stays d'.registers ∧ e'.place.Rests d' base := by
    intro hc
    refine settleThenFree h1.stays.sound hb1 h1.rests h1.value hc fun e' d2 hstays2 hfree2 => ?_
    refine (emitABC _ _ _ _).andThen fun pc d3 h3 => bind (pure (hnext _ d3 ?_ ?_))
    · exact h3.1 ▸ h1.stays.trans hstays2
    · intro d' h' hkept
      refine ⟨(congrArg Registers.free (h'.trans h3.1)).trans hfree2, fun hconcat => absurd hconcat (hkept pc ?_)⟩
      rw [h3.2, Instr.opcode_ofABC]
      exact nofun
  have hdecided : ∀ b, (∀ r, e1.place ≠ .fixed r) → Orderly (Pure.pure (.bool b) >>= next) d1 fun e' d' =>
      d.registers.Stays d'.registers ∧ e'.place.Rests d' base := fun b hr =>
    bind (pure (hvalue (.bool b) d1 rfl hr fun _ => id))
  have hv := h1.value
  cases hp : e1.place with
  | nil => exact hdecided true (by rw [hp]; exact nofun)
  | bool b => cases b <;> exact hdecided _ (by rw [hp]; exact nofun)
  | constant | float | int => exact hdecided false (by rw [hp]; exact nofun)
  | compare js =>
    refine (negate js).andThen fun _ d2 h2 => bind (pure (hvalue _ d2 h2 (by rw [hp]; exact nofun) ?_))
    exact fun _ => id
  | pending pc => exact hnot (by rw [hp]; exact nofun)
  | fixed r => exact hnot (by rw [hp]; exact nofun)
  | _ =>
    rw [hp] at hv
    exact nomatch hv

theorem emitUnary {op : Op} {line : Nat} (hs : d.registers.Sound) (hb : d.active ≤ base) (he : e.place.Rests d base)
    (hop : op ≠ .concat) :
    Orderly (Compile.emitUnary op e line) d fun e' d' => d.registers.Stays d'.registers ∧ e'.place.Rests d' base := by
  refine (toAnyRegister hs hb he).andThen fun r d1 h1 => (freeRegister h1.1.sound h1.2).andThen fun _ d2 h2 => ?_
  exact emitResult (h1.1.lower h2.1 h1.2.le) (congrArg Registers.free h2.1) fun hconcat => absurd hconcat hop

theorem numeral_free (he : e.place.Rests d base) (hn : e.numeral?.isSome) : d.free = base := by
  unfold Expr.numeral? at hn
  split at hn
  · exact nomatch hn
  · split at hn
    · next hp => rw [hp] at he; exact he
    · next hp => rw [hp] at he; exact he
    · exact nomatch hn

theorem fold_numerals {op : ArithOp} {e1 e2 r : Expr} (h : fold? op e1 e2 = some r) :
    e2.numeral?.isSome ∧ e1.numeral?.isSome ∧ ∀ (d : Draft) (base : Nat), d.free = base → r.place.Rests d base := by
  have hr := (Draft.fold_eq h).1
  unfold fold? at h
  split at h
  · next a b h1 h2 =>
    refine ⟨by rw [h2]; rfl, by rw [h1]; rfl, fun d base hfree => ?_⟩
    rcases hr with ⟨i, rfl⟩ | ⟨x, rfl⟩
    · exact hfree
    · exact hfree
  · exact nomatch h

/-- **A unary operator** leaves none of the registers of its operand taken. -/
theorem unary {op : UnOp} {line : Nat} (hs : d.registers.Sound) (hb : d.active ≤ base) (he : e.place.Rests d base) :
    Orderly (Compile.unary op e line) d fun e' d' => d.registers.Stays d'.registers ∧ e'.place.Rests d' base := by
  have hfolded : ∀ {a : ArithOp} {r : Expr}, fold? a e (.plain (.int 0)) = some r →
      Orderly (Pure.pure r) d fun e' d' => d.registers.Stays d'.registers ∧ e'.place.Rests d' base := by
    intro a r hr
    obtain ⟨-, hn, hrests⟩ := fold_numerals hr
    exact pure ⟨hs.stays, hrests d base (numeral_free he hn)⟩
  unfold Compile.unary
  extract_lets zero
  split
  · split
    · next hr => exact hfolded hr
    · exact emitUnary hs hb he nofun
  · split
    · next hr => exact hfolded hr
    · exact emitUnary hs hb he nofun
  · exact emitUnary hs hb he nofun
  · exact logicalNot hs hb he

end Compile.Orderly

/-! ## 3. Binary operators -/

def Expr.IsOperand (active base free : Nat) (e : Expr) : Prop :=
  (∃ r, e = .plain (.fixed r) ∧ Operand.Holds active base free r) ∨
    ∃ k ≤ Operand.maxConstant, e = .plain (.constant k) ∧ free = base

/-- The left operand of an operator holds the registers from `base` up to `free` while the right one is
    read. -/
def Expr.Waits (active base free : Nat) (e : Expr) : BinOp → Prop
  | .and | .or => free = base
  | .concat => e = .plain (.fixed base) ∧ free = base + 1
  | .arith _ => e.IsOperand active base free ∨ (e.numeral?.isSome ∧ free = base)
  | _ => e.IsOperand active base free

theorem Expr.Waits.le {active base free : Nat} {e : Expr} {op : BinOp} (h : e.Waits active base free op) : base ≤ free := by
  have hoperand : e.IsOperand active base free → base ≤ free := by
    rintro (⟨r, -, hr⟩ | ⟨k, -, -, hfree⟩)
    · exact hr.le
    · exact Nat.le_of_eq hfree.symm
  unfold Expr.Waits at h
  split at h
  · exact Nat.le_of_eq h.symm
  · exact Nat.le_of_eq h.symm
  · exact Nat.le_trans (Nat.le_succ _) (Nat.le_of_eq h.2.symm)
  · exact h.elim hoperand fun h => Nat.le_of_eq h.2.symm
  · exact hoperand h

namespace Compile.Orderly

open Registers

variable {d : Draft} {base : Nat} {e : Expr}

theorem isOperand_ofOperand {active free x : Nat} (h : Operand.Holds active base free x) (ha : active ≤ 254)
    (hfree : free ≤ 254) : (Expr.ofOperand x).IsOperand active base free := by
  unfold Expr.ofOperand
  rcases h with ⟨⟨k, hk, rfl⟩ | hx, hbase⟩ | ⟨rfl, hbase, hactive⟩
  · obtain ⟨hconst, hindex, -⟩ := Operand.isConstant_ofConstant hk
    rw [if_pos hconst, hindex]
    exact .inr ⟨k, hk, rfl, hbase⟩
  · rw [Operand.isConstant_of_lt (by omega)]
    exact .inl ⟨x, rfl, .inl ⟨.inr hx, hbase⟩⟩
  · rw [Operand.isConstant_of_lt (by omega)]
    exact .inl ⟨_, rfl, .inr ⟨rfl, hbase, hactive⟩⟩

/-- **The left operand is prepared.** -/
theorem beforeRight {op : BinOp} (hs : d.registers.Sound) (hb : d.active ≤ base) (he : e.place.Rests d base) :
    Orderly (Compile.beforeRight op e) d fun e' d' =>
      d.registers.Stays d'.registers ∧ e'.Waits d'.active base d'.free op := by
  have hoperand : Orderly (do return Expr.ofOperand (← Compile.toOperand e)) d fun e' d' =>
      d.registers.Stays d'.registers ∧ e'.IsOperand d'.active base d'.free := by
    refine (toOperand hs hb he).andThen fun x d1 h1 => pure ⟨h1.1, isOperand_ofOperand h1.2 ?_ ?_⟩
    · have hhigh : d.free ≤ 254 := Nat.le_trans hs.free hs.high
      have hactive : d1.active = d.active := h1.1.active
      have hle := he.le
      omega
    · exact Nat.le_trans h1.1.sound.free h1.1.sound.high
  unfold Compile.beforeRight
  split
  · exact (goIfTrue hs hb he).andThen fun js d1 h1 => pure h1
  · exact (goIfFalse hs hb he).andThen fun js d1 h1 => pure h1
  · refine (toNextRegister hs he).andThen ?_
    rintro r d1 ⟨rfl, hstays, hfree⟩
    exact pure ⟨hstays, rfl, hfree⟩
  · split
    · next hn => exact pure ⟨hs.stays, .inr ⟨hn, numeral_free he hn⟩⟩
    · exact hoperand.imp fun e' d' h => ⟨h.1, .inl h.2⟩
  · next h1 h2 h3 h4 =>
    refine hoperand.imp fun e' d' h => ⟨h.1, ?_⟩
    unfold Expr.Waits
    split
    · exact absurd rfl h1
    · exact absurd rfl h2
    · exact absurd rfl h3
    · exact absurd rfl (h4 _)
    · exact h.2

theorem isOperand_cases {active free : Nat} {e1 : Expr}
    (h : e1.IsOperand active base free ∨ (e1.numeral?.isSome ∧ free = base)) :
    (∃ r, e1 = .plain (.fixed r) ∧ Operand.Holds active base free r) ∨
      ((∀ r, e1 ≠ .plain (.fixed r)) ∧ (∀ d' : Draft, e1.place.Rests d' d'.free) ∧ free = base) := by
  rcases h with (hfixed | ⟨k, -, rfl, hfree⟩) | ⟨hn, hfree⟩
  · exact .inl hfixed
  · exact .inr ⟨fun _ => nofun, fun _ => rfl, hfree⟩
  · refine .inr ⟨fun r hr => ?_, fun d' => ?_, hfree⟩
    · rw [hr] at hn
      exact nomatch hn
    unfold Expr.numeral? at hn
    split at hn
    · exact nomatch hn
    · split at hn
      · next hp => rw [hp]; rfl
      · next hp => rw [hp]; rfl
      · exact nomatch hn

/-- **A binary operation** gives both operands back. The right one lies above the left one, unless the
    left one is a constant that has to be loaded. -/
theorem emitBinary {op : Op} {e1 e2 : Expr} {mid line : Nat} (hs : d.registers.Sound) (hb : d.active ≤ base)
    (h1 : e1.IsOperand d.active base mid ∨ (e1.numeral?.isSome ∧ mid = base)) (h2 : e2.place.Rests d mid)
    (hop : op = .concat → e1 = .plain (.fixed base)) :
    Orderly (Compile.emitBinary op e1 e2 line) d fun e' d' =>
      d.registers.Stays d'.registers ∧ e'.place.Rests d' base := by
  have hfinish : ∀ {x y d1}, d.registers.Stays d1.registers → base ≤ d1.free → (op = .concat → x = base) →
      Orderly (Compile.freeRegisters x y) d1 (fun _ d' => d'.registers = { d1.registers with free := base } ∧ d'.code = d1.code) →
      Orderly (do
        Compile.freeRegisters x y
        let pc ← Compile.emitABC op 0 x y
        Compile.fixLine line
        return Expr.plain (.pending pc)) d1 fun e' d' => d.registers.Stays d'.registers ∧ e'.place.Rests d' base := by
    intro x y d1 hstays hle hx hfree
    refine hfree.andThen fun _ d2 hd2 => ?_
    exact emitResult (hstays.lower hd2.1 hle) (congrArg Registers.free hd2.1) hx
  unfold Compile.emitBinary
  rcases isOperand_cases h1 with ⟨r, rfl, hr⟩ | ⟨hno, hrests, rfl⟩
  · refine (toOperand hs (Nat.le_trans hb hr.le) h2).andThen fun y d1 hy => ?_
    rw [Draft.toOperand_fixed, pure_bind]
    have hr1 : Operand.Holds d1.active base mid r := by
      rw [show d1.active = d.active from hy.1.active]
      exact hr
    refine hfinish hy.1 (Nat.le_trans hr.le hy.2.le) (fun hconcat => ?_) (freeRegisters hy.1.sound hr1 hy.2).1
    cases hop hconcat
    rfl
  · refine (toOperand hs hb h2).andThen fun y d1 hy => ?_
    have hb1 : d1.active ≤ d1.free := Nat.le_trans (Nat.le_trans (Nat.le_of_eq hy.1.active) hb) hy.2.le
    refine (toOperand hy.1.sound hb1 (hrests d1)).andThen fun x d2 hx => ?_
    have hy2 : Operand.Holds d2.active mid d1.free y := by
      rw [show d2.active = d1.active from hx.1.active]
      exact hy.2
    refine hfinish (hy.1.trans hx.1) (Nat.le_trans hy.2.le hx.2.le) (fun hconcat => ?_) (freeRegisters hx.1.sound hy2 hx.2).2
    exact absurd (hop hconcat) (hno _)

/-- **A comparison** gives both operands back. -/
theorem emitCompare {op : BinOp} {e1 e2 : Expr} {mid : Nat} (hs : d.registers.Sound) (hb : d.active ≤ base)
    (h1 : e1.IsOperand d.active base mid) (h2 : e2.place.Rests d mid) :
    Orderly (Compile.emitCompare op e1 e2) d fun e' d' =>
      d.registers.Stays d'.registers ∧ e'.place.Rests d' base := by
  unfold Compile.emitCompare
  extract_lets x next
  have hx : Operand.Holds d.active base mid x := by
    rcases h1 with ⟨r, rfl, hr⟩ | ⟨k, hk, rfl, hmid⟩
    · exact hr
    · exact .inl ⟨.inl ⟨k, hk, rfl⟩, hmid⟩
  refine (toOperand hs (Nat.le_trans hb hx.le) h2).andThen fun y d1 hy => ?_
  have hx1 : Operand.Holds d1.active base mid x := by
    rw [show d1.active = d.active from hy.1.active]
    exact hx
  refine (freeRegisters hy.1.sound hx1 hy.2).1.andThen fun _ d2 hd2 => ?_
  have hstays2 := hy.1.lower hd2.1 (Nat.le_trans hx.le hy.2.le)
  have hnext : ∀ {o a b c}, Orderly (Compile.condJump o a b c >>= next) d2 fun e' d' =>
      d.registers.Stays d'.registers ∧ e'.place.Rests d' base := by
    intro o a b c
    refine (condJump o a b c).andThen fun js d3 h3 => pure ⟨h3 ▸ hstays2, ?_⟩
    exact (congrArg Registers.free h3).trans (congrArg Registers.free hd2.1)
  split <;> exact hnext

/-- **A concatenation** takes in the one to its right, whose first operand lies right above. -/
theorem concat {e2 : Expr} {line : Nat} (hs : d.registers.Sound) (hb : d.active ≤ base)
    (h2 : e2.place.Rests d (base + 1)) :
    Orderly (Compile.afterRight .concat (.plain (.fixed base)) e2 line) d fun e' d' =>
      d.registers.Stays d'.registers ∧ e'.place.Rests d' base := by
  refine (toValue hs (Nat.le_succ_of_le hb) h2).andThen fun e3 d1 h3 => get fun s hfn => ?_
  subst hfn
  have hb1 : s.fn.active ≤ base := Nat.le_trans (Nat.le_of_eq h3.1.active) hb
  split
  · next pc hpc =>
    obtain ⟨hp, hop⟩ : e3.place = .pending pc ∧ (s.fn.instr pc).opcode = .concat := by
      unfold pendingConcat? at hpc
      split at hpc
      · next hp =>
        split at hpc
        · next hop =>
          cases hpc
          exact ⟨hp, hop⟩
        · exact nomatch hpc
      · exact nomatch hpc
    have hrests := h3.2.1
    rw [hp] at hrests
    obtain ⟨hfree, hfirst⟩ := hrests
    refine demanding (decide_eq_true (hfirst hop).symm) ?_
    refine (freeRegister h3.1.sound (.inr ⟨rfl, hfree, hb1⟩)).andThen fun _ d2 h2 => ?_
    refine bind (modifyFn rfl (pure ⟨?_, congrArg Registers.free h2.1, fun _ => ?_⟩))
    · exact h3.1.lower h2.1 (Nat.le_trans (Nat.le_succ _) (Nat.le_of_eq hfree.symm))
    · have hlt : pc < d2.code.size := by
        rw [h2.2]
        exact Draft.instr_lt (by rw [hop]; exact nofun)
      have hhigh : s.fn.free ≤ 254 := Nat.le_trans h3.1.sound.free h3.1.sound.high
      rw [Draft.instr_mapInstr, if_pos ⟨rfl, hlt⟩, Instr.b_setB]
      show base % 512 = base
      omega
  · refine (toNextRegister h3.1.sound h3.2.1).andThen ?_
    rintro r d2 ⟨rfl, hstays2, hfree2⟩
    have hb2 : d2.active ≤ base := Nat.le_trans (Nat.le_of_eq hstays2.active) hb1
    have hright : (Expr.plain (.fixed (base + 1))).place.Rests d2 (base + 1) := .inr ⟨rfl, hfree2, by omega⟩
    have hleft : Operand.Holds d2.active base (base + 1) base := .inr ⟨rfl, rfl, hb2⟩
    refine (emitBinary hstays2.sound hb2 (.inl (.inl ⟨base, rfl, hleft⟩)) hright fun _ => rfl).imp ?_
    rintro e' d' ⟨hstays, hrests⟩
    exact ⟨(h3.1.trans hstays2).trans hstays, hrests⟩

/-- **A binary operator** leaves none of the registers of its operands taken. -/
theorem afterRight {op : BinOp} {e1 e2 : Expr} {mid line : Nat} (hs : d.registers.Sound) (hb : d.active ≤ base)
    (h1 : e1.Waits d.active base mid op) (h2 : e2.place.Rests d mid) :
    Orderly (Compile.afterRight op e1 e2 line) d fun e' d' =>
      d.registers.Stays d'.registers ∧ e'.place.Rests d' base := by
  have hjoin : mid = base → ∀ (f : Expr → JumpList → Expr) (l : Expr → JumpList), (∀ e l, (f e l).place = e.place) →
      Orderly (do
        let e2 ← Compile.readVariable e2
        return f e2 (← Compile.joinJumps (l e2) (l e1))) d fun e' d' =>
          d.registers.Stays d'.registers ∧ e'.place.Rests d' base := by
    rintro rfl f l hf
    refine (readVariable hs h2).andThen fun e3 d1 h3 => (joinJumps _ _).andThen ?_
    rintro joined _ rfl
    exact pure ⟨h3.stays, by rw [hf]; exact h3.rests⟩
  unfold Compile.afterRight
  split
  · exact hjoin h1 (fun e l => { e with onFalse := l }) (·.onFalse) fun _ _ => rfl
  · exact hjoin h1 (fun e l => { e with onTrue := l }) (·.onTrue) fun _ _ => rfl
  · obtain ⟨rfl, rfl⟩ := h1
    exact concat hs hb h2
  · next a =>
    split
    · next r hr =>
      obtain ⟨hn2, hn1, hrests⟩ := fold_numerals hr
      have hfree : d.free = base := by
        rcases isOperand_cases h1 with ⟨r', rfl, -⟩ | ⟨-, -, rfl⟩
        · exact nomatch hn1
        · exact numeral_free h2 hn2
      exact pure ⟨hs.stays, hrests d base hfree⟩
    · exact emitBinary hs hb h1 h2 (by cases a <;> exact nofun)
  · next hand hor hconcat harith =>
    refine emitCompare hs hb ?_ h2
    unfold Expr.Waits at h1
    split at h1
    · exact absurd rfl hand
    · exact absurd rfl hor
    · exact absurd rfl hconcat
    · exact absurd rfl (harith _)
    · exact h1

/-- **Items gathered in registers are stored**, and only the table is left. -/
theorem setList {table items : Nat} {gathered : Option Nat} (hs : d.registers.Sound) (ht : table + 1 ≤ d.free) :
    Orderly (Compile.setList table items gathered) d fun _ d' => d.registers.Stays d'.registers ∧ d'.free = table + 1 := by
  have hlast : ∀ d1 : Draft, d1.registers = d.registers → Orderly (Compile.modifyFn fun d => { d with free := table + 1 }) d1
      fun _ d' => d.registers.Stays d'.registers ∧ d'.free = table + 1 := by
    intro d1 h1
    refine modifyFn rfl ⟨hs.stays.lower ?_ ht, rfl⟩
    rw [← h1]
    rfl
  unfold Compile.setList
  extract_lets block n next
  split
  · exact (emitABC _ _ _ _).dropThen fun _ d1 h1 => hlast d1 h1.1
  · split
    · refine (emitABC _ _ _ _).dropThen fun _ d1 h1 => (emit _).dropThen fun _ d2 h2 => ?_
      exact hlast d2 (h2.1.trans h1.1)
    · exact bind (failNear rfl)

end Compile.Orderly

end LuaMachine
