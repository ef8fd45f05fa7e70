/-
  THE WAY OF CODE THAT ONLY COMPUTES: instructions that move values between registers, test them, compare
  them and jump, seen as steps from place to place in one function.
-/
import LuaMachine.Proofs.Code.Fits
import LuaMachine.Proofs.Meaning.Formula

namespace LuaMachine

structure Spot where
  pc : Nat
  regs : Nat → Value

namespace Spot

def past (s : Spot) (n : Nat) : Spot := { s with pc := s.pc + n }

def put (s : Spot) (r : Nat) (v : Value) : Spot :=
  ⟨s.pc + 1, fun i => if i = r then v else s.regs i⟩

def clear (s : Spot) (r n : Nat) : Spot :=
  ⟨s.pc + 1, fun i => if r ≤ i ∧ i < r + n then .nil else s.regs i⟩

end Spot

def Op.order? : Op → Option (Value → Value → Option Bool)
  | .eq => some fun x y => some (x.rawEqual y)
  | .lt => some Value.less?
  | .le => some Value.lessEq?
  | _ => none

namespace Proto

def value? (p : Proto) (regs : Nat → Value) (x : Nat) : Option Value :=
  if Operand.isConstant x then p.constants[Operand.constantIndex x]?.map .ofConstant else some (regs x)

/-- A comparison of operands: go on, pass the next instruction, or fail. -/
def compare? (p : Proto) (s : Spot) (i : Instr) (order : Value → Value → Option Bool) :
    Option (Except Clash Spot) :=
  match p.value? s.regs i.b.val, p.value? s.regs i.c.val with
  | some x, some y =>
    match order x y with
    | some outcome => some (.ok (s.past (if outcome = (i.a.val ≠ 0 : Bool) then 1 else 2)))
    | none => some (.error (x.type, y.type))
  | _, _ => none

/-- What the instruction at a place makes of registers and place; nothing is said of instructions that
    do more. -/
def effect? (p : Proto) (s : Spot) : Option (Except Clash Spot) :=
  match p.code[s.pc]? with
  | none => none
  | some i =>
    let a := i.a.val
    let b := i.b.val
    let c := i.c.val
    match i.opcode with
    | .move => some (.ok (s.put a (s.regs b)))
    | .loadK => p.constants[i.bx]?.map fun k => .ok (s.put a (.ofConstant k))
    | .loadKx =>
      match p.code[s.pc + 1]? with
      | some x => p.constants[x.ax]?.map fun k => .ok ((s.put a (.ofConstant k)).past 1)
      | none => none
    | .loadBool => some (.ok ((s.put a (.bool (b ≠ 0))).past (if c = 0 then 0 else 1)))
    | .loadNil => some (.ok (s.clear a (b + 1)))
    | .not => some (.ok (s.put a (.bool (s.regs b).isFalsy)))
    | .jmp =>
      let dest : Int := s.pc + 1 + i.sbx
      if a = 0 ∧ 0 ≤ dest then some (.ok { s with pc := dest.toNat }) else none
    | .test => some (.ok (s.past (if (s.regs a).isFalsy = (c ≠ 0 : Bool) then 2 else 1)))
    | .testSet =>
      some (.ok (if (s.regs b).isFalsy = (c ≠ 0 : Bool) then s.past 2 else s.put a (s.regs b)))
    | op =>
      match op.order? with
      | some order => p.compare? s i order
      | none => none

inductive Path (p : Proto) (low : Nat) : Spot → Spot → Prop where
  | refl (s : Spot) : Path p low s s
  | step {s s₁ s₂ : Spot} (he : p.effect? s = some (.ok s₁)) (hk : ∀ r < low, s₁.regs r = s.regs r)
      (h : Path p low s₁ s₂) : Path p low s s₂

def Fails (p : Proto) (low : Nat) (s : Spot) (c : Clash) : Prop :=
  ∃ s', p.Path low s s' ∧ p.effect? s' = some (.error c)

variable {p : Proto} {low low' : Nat} {s s' s'' : Spot}

namespace Path

theorem trans (h : p.Path low s s') (h' : p.Path low s' s'') : p.Path low s s'' := by
  induction h with
  | refl => exact h'
  | step he hk _ ih => exact .step he hk (ih h')

theorem mono (h : p.Path low s s') (hl : low' ≤ low) : p.Path low' s s' := by
  induction h with
  | refl => exact .refl _
  | step he hk _ ih => exact .step he (fun r hr => hk r (Nat.lt_of_lt_of_le hr hl)) ih

theorem keeps (h : p.Path low s s') : ∀ r < low, s'.regs r = s.regs r := by
  induction h with
  | refl => exact fun _ _ => rfl
  | step _ hk _ ih => exact fun r hr => (ih r hr).trans (hk r hr)

theorem jump (he : p.effect? s = some (.ok s')) (hr : s'.regs = s.regs) : p.Path low s s' :=
  .step he (fun r _ => by rw [hr]) (.refl _)

theorem write {r n : Nat} {v : Value} (he : p.effect? s = some (.ok ((s.put r v).past n)))
    (hr : low ≤ r) : p.Path low s ((s.put r v).past n) :=
  .step he (fun i hi => if_neg (by omega)) (.refl _)

theorem clear {r n : Nat} (he : p.effect? s = some (.ok (s.clear r n))) (hr : ∀ i < low, ¬ (r ≤ i ∧ i < r + n)) :
    p.Path low s (s.clear r n) :=
  .step he (fun i hi => if_neg (hr i hi)) (.refl _)

end Path

theorem Fails.mono {c : Clash} (h : p.Fails low s c) (hl : low' ≤ low) : p.Fails low' s c := by
  obtain ⟨s', hp, he⟩ := h
  exact ⟨s', hp.mono hl, he⟩

theorem Fails.after {c : Clash} (h : p.Path low s s') (h' : p.Fails low s' c) : p.Fails low s c := by
  obtain ⟨s'', hp, he⟩ := h'
  exact ⟨s'', h.trans hp, he⟩

/-! ## Single instructions -/

section

variable {i : Instr} (hi : p.code[s.pc]? = some i)

include hi

theorem effect_move (ho : i.opcode = .move) :
    p.effect? s = some (.ok (s.put i.a.val (s.regs i.b.val))) := by
  simp [effect?, hi, ho]

theorem effect_loadK {k : Constant} (ho : i.opcode = .loadK) (hk : p.constants[i.bx]? = some k) :
    p.effect? s = some (.ok (s.put i.a.val (.ofConstant k))) := by
  simp [effect?, hi, ho, hk]

theorem effect_loadKx {x : Instr} {k : Constant} (ho : i.opcode = .loadKx)
    (hx : p.code[s.pc + 1]? = some x) (hk : p.constants[x.ax]? = some k) :
    p.effect? s = some (.ok ((s.put i.a.val (.ofConstant k)).past 1)) := by
  simp [effect?, hi, ho, hx, hk]

theorem effect_loadBool (ho : i.opcode = .loadBool) :
    p.effect? s =
      some (.ok ((s.put i.a.val (.bool (i.b.val ≠ 0))).past (if i.c.val = 0 then 0 else 1))) := by
  simp [effect?, hi, ho]

theorem effect_loadNil (ho : i.opcode = .loadNil) :
    p.effect? s = some (.ok (s.clear i.a.val (i.b.val + 1))) := by
  simp [effect?, hi, ho]

theorem effect_not (ho : i.opcode = .not) :
    p.effect? s = some (.ok (s.put i.a.val (.bool (s.regs i.b.val).isFalsy))) := by
  simp [effect?, hi, ho]

theorem effect_jmp {dest : Nat} (ho : i.opcode = .jmp) (ha : i.a.val = 0)
    (hd : (s.pc : Int) + 1 + i.sbx = dest) : p.effect? s = some (.ok { s with pc := dest }) := by
  simp [effect?, hi, ho, ha, hd]

theorem effect_test {t : Bool} (ho : i.opcode = .test) (hc : i.c.val = t.toNat) :
    p.effect? s = some (.ok (s.past (if (s.regs i.a.val).isFalsy = t then 2 else 1))) := by
  have ht : (i.c.val ≠ 0 : Bool) = t := by
    rw [hc]
    cases t <;> rfl
  simp only [effect?, hi, ho, ht]

theorem effect_testSet {t : Bool} (ho : i.opcode = .testSet) (hc : i.c.val = t.toNat) :
    p.effect? s = some (.ok (if (s.regs i.b.val).isFalsy = t then s.past 2
      else s.put i.a.val (s.regs i.b.val))) := by
  have ht : (i.c.val ≠ 0 : Bool) = t := by
    rw [hc]
    cases t <;> rfl
  simp only [effect?, hi, ho, ht]

theorem effect_compare {order : Value → Value → Option Bool} (ho : i.opcode.order? = some order) :
    p.effect? s = p.compare? s i order := by
  have hop : i.opcode = .eq ∨ i.opcode = .lt ∨ i.opcode = .le := by
    revert ho
    cases i.opcode <;> simp [Op.order?]
  rcases hop with hop | hop | hop <;>
    · rw [hop] at ho
      cases ho
      simp [effect?, hi, hop, Op.order?]

end

end Proto

end LuaMachine
