/-
  CODE THAT FITS ITS FUNCTION. What an instruction touches when it runs, said apart from the check of
  precompiled chunks and apart from the machine, so that both can be held against it.
-/
import LuaMachine.Code.Proto

namespace LuaMachine

/-! ## 1. Instructions by their fields -/

namespace Instr

variable (i : Instr) (op : Op) (a b c n : Nat) (k : Int)

@[simp] theorem opcode_ofABC : (ofABC op a b c).opcode = op := by
  cases op <;> rfl

@[simp] theorem opcode_ofABx : (ofABx op a n).opcode = op := opcode_ofABC ..

@[simp] theorem opcode_ofAsBx : (ofAsBx op a k).opcode = op := opcode_ofABC ..

@[simp] theorem opcode_ofAx : (ofAx op n).opcode = op := opcode_ofABC ..

@[simp] theorem opcode_setA : (i.setA n).opcode = i.opcode := rfl

@[simp] theorem opcode_setB : (i.setB n).opcode = i.opcode := rfl

@[simp] theorem opcode_setC : (i.setC n).opcode = i.opcode := rfl

@[simp] theorem opcode_setSbx : (i.setSbx k).opcode = i.opcode := rfl

@[simp] theorem opcode_setOp : (i.setOp op).opcode = op := by
  cases op <;> rfl

@[simp] theorem a_ofABC : (ofABC op a b c).a.val = a % 256 := rfl

@[simp] theorem b_ofABC : (ofABC op a b c).b.val = b % 512 := rfl

@[simp] theorem c_ofABC : (ofABC op a b c).c.val = c % 512 := rfl

@[simp] theorem a_ofABx : (ofABx op a n).a.val = a % 256 := rfl

@[simp] theorem a_ofAsBx : (ofAsBx op a k).a.val = a % 256 := rfl

@[simp] theorem a_setA : (i.setA n).a.val = n % 256 := rfl

@[simp] theorem b_setA : (i.setA n).b = i.b := rfl

@[simp] theorem c_setA : (i.setA n).c = i.c := rfl

@[simp] theorem a_setB : (i.setB n).a = i.a := rfl

@[simp] theorem b_setB : (i.setB n).b.val = n % 512 := rfl

@[simp] theorem c_setB : (i.setB n).c = i.c := rfl

@[simp] theorem a_setC : (i.setC n).a = i.a := rfl

@[simp] theorem b_setC : (i.setC n).b = i.b := rfl

@[simp] theorem c_setC : (i.setC n).c.val = n % 512 := rfl

@[simp] theorem a_setOp : (i.setOp op).a = i.a := rfl

@[simp] theorem b_setOp : (i.setOp op).b = i.b := rfl

@[simp] theorem a_setSbx : (i.setSbx k).a = i.a := rfl

@[simp] theorem bx_setA : (i.setA n).bx = i.bx := rfl

@[simp] theorem sbx_setA : (i.setA n).sbx = i.sbx := rfl

theorem bx_ofABx_le : (ofABx op a n).bx ≤ n := by
  simp only [ofABx, bx, b_ofABC, c_ofABC]
  omega

theorem ax_ofAx_le : (ofAx op n).ax ≤ n := by
  simp only [ofAx, ax, ofABx, bx, a_ofABC, b_ofABC, c_ofABC]
  omega

theorem sbx_setSbx (h : k.natAbs ≤ maxJump) : (i.setSbx k).sbx = k := by
  simp only [sbx, bx, setSbx, maxJump] at *
  show ((((k + 131071).toNat / 512 % 512 * 512 + (k + 131071).toNat % 512 : Nat) : Int)) - _ = k
  omega

theorem sbx_ofAsBx (h : k.natAbs ≤ maxJump) : (ofAsBx op a k).sbx = k := by
  simp only [sbx, bx, ofAsBx, ofABx, b_ofABC, c_ofABC, maxJump] at *
  omega

end Instr

/-! ## 2. What an instruction touches -/

structure Room where
  registers : Nat
  constants : Nat
  upvalues : Nat
  protos : List Proto

structure Room.Le (r r' : Room) : Prop where
  registers : r.registers ≤ r'.registers
  constants : r.constants ≤ r'.constants
  upvalues : r.upvalues ≤ r'.upvalues
  protos : r.protos <+: r'.protos

def Room.Has (r : Room) (x : Nat) : Prop :=
  if Operand.isConstant x then Operand.constantIndex x < r.constants else x < r.registers

def Room.Gives (r : Room) (u : UpvalueDesc) : Prop :=
  if u.inStack then u.index.toNat < r.registers else u.index.toNat < r.upvalues

def Room.Closes (r : Room) (k : Nat) : Prop :=
  ∃ p, r.protos[k]? = some p ∧ ∀ u ∈ p.upvalues, r.Gives u

namespace Instr

/-- All that an instruction touches is there, implied registers included. What stands between a
    register and the top of open values is not counted. -/
def Fits (r : Room) (i : Instr) : Prop :=
  let a := i.a.val
  let b := i.b.val
  let c := i.c.val
  match i.opcode with
  | .move | .unm | .bnot | .not | .len => a < r.registers ∧ b < r.registers
  | .loadK => a < r.registers ∧ i.bx < r.constants
  | .loadKx | .loadBool | .newTable | .test => a < r.registers
  | .loadNil | .setList => a + b < r.registers
  | .getUpval | .setUpval => a < r.registers ∧ b < r.upvalues
  | .getTabUp => a < r.registers ∧ b < r.upvalues ∧ r.Has c
  | .getTable => a < r.registers ∧ b < r.registers ∧ r.Has c
  | .setTabUp => a < r.upvalues ∧ r.Has b ∧ r.Has c
  | .setTable | .add | .sub | .mul | .mod | .pow | .div | .idiv | .band | .bor | .bxor | .shl
  | .shr => a < r.registers ∧ r.Has b ∧ r.Has c
  | .self => a + 1 < r.registers ∧ b < r.registers ∧ r.Has c
  | .concat => a < r.registers ∧ b ≤ c ∧ c < r.registers
  | .jmp => a ≤ r.registers
  | .eq | .lt | .le => r.Has b ∧ r.Has c
  | .testSet => a < r.registers ∧ b < r.registers
  | .call => a < r.registers ∧ a + b ≤ r.registers ∧ a + (c - 1) ≤ r.registers
  | .tailCall => a < r.registers ∧ a + b ≤ r.registers
  | .ret => (b = 1 ∨ a < r.registers) ∧ a + (b - 1) ≤ r.registers
  | .forLoop | .forPrep => a + 3 < r.registers
  | .tforCall => a + 5 < r.registers ∧ a + 2 + c < r.registers
  | .tforLoop => a + 1 < r.registers
  | .closure => a < r.registers ∧ r.Closes i.bx
  | .vararg => a < r.registers ∧ a + (b - 1) ≤ r.registers
  | .extraArg => True

/-- The word after an instruction is the one it wants. -/
def Followed (constants : Nat) (next : Option Instr) (i : Instr) : Prop :=
  match i.opcode with
  | .eq | .lt | .le | .test | .testSet => ∃ j, next = some j ∧ j.opcode = .jmp
  | .loadKx => ∃ j, next = some j ∧ j.opcode = .extraArg ∧ j.ax < constants
  | .setList => i.c.val = 0 → ∃ j, next = some j ∧ j.opcode = .extraArg
  | .tforCall => ∃ j, next = some j ∧ j.opcode = .tforLoop
  | _ => True

def Jumps (limit pc : Nat) (i : Instr) : Prop :=
  i.opcode.layout = .asbx → 0 ≤ (pc : Int) + 1 + i.sbx ∧ (pc : Int) + 1 + i.sbx ≤ limit

def Skips (limit pc : Nat) (i : Instr) : Prop :=
  i.opcode = .loadBool → i.c.val ≠ 0 → pc + 2 ≤ limit

end Instr

namespace Room

variable {r r' : Room}

theorem Le.refl (r : Room) : r.Le r :=
  ⟨Nat.le_refl _, Nat.le_refl _, Nat.le_refl _, List.prefix_refl _⟩

theorem Has.mono {x : Nat} (h : r.Has x) (hr : r.Le r') : r'.Has x := by
  have := hr.registers
  have := hr.constants
  unfold Has at *
  split <;> simp_all <;> omega

theorem Gives.mono {u : UpvalueDesc} (h : r.Gives u) (hr : r.Le r') : r'.Gives u := by
  have := hr.registers
  have := hr.upvalues
  unfold Gives at *
  split <;> simp_all <;> omega

theorem Closes.mono {k : Nat} (h : r.Closes k) (hr : r.Le r') : r'.Closes k := by
  obtain ⟨p, hp, hu⟩ := h
  obtain ⟨t, ht⟩ := hr.protos
  refine ⟨p, ?_, fun u m => (hu u m).mono hr⟩
  rw [← ht, List.getElem?_append_left (List.getElem?_eq_some_iff.mp hp).1]
  exact hp

theorem has_of_lt {x : Nat} (h : x < r.registers) (hx : x < 256) : r.Has x := by
  have : Operand.isConstant x = false := by
    simp only [Operand.isConstant, Operand.constantBit]
    have : x / 256 = 0 := by omega
    simp [this]
  simp [Has, this, h]

theorem has_ofConstant {k : Nat} (h : k < r.constants) (hk : k ≤ Operand.maxConstant) :
    r.Has (Operand.ofConstant k) := by
  simp only [Operand.maxConstant] at hk
  have h0 : Operand.isConstant k = false := by
    simp only [Operand.isConstant, Operand.constantBit]
    have : k / 256 = 0 := by omega
    simp [this]
  have h1 : Operand.isConstant (k + 256) = true := by
    simp only [Operand.isConstant, Operand.constantBit]
    have : (k + 256) / 256 = 1 := by omega
    simp [this]
  simp [Has, Operand.ofConstant, Operand.constantIndex, Operand.constantBit, h0, h1, h]

end Room

theorem Instr.Fits.mono {r r' : Room} {i : Instr} (h : i.Fits r) (hr : r.Le r') : i.Fits r' := by
  have h1 := hr.registers
  have h2 := hr.constants
  have h3 := hr.upvalues
  unfold Instr.Fits at *
  split <;> simp_all only
  all_goals first
    | omega
    | exact ⟨by omega, h.2.mono hr⟩
    | exact ⟨by omega, by omega, h.2.2.mono hr⟩
    | exact ⟨by omega, h.2.1.mono hr, h.2.2.mono hr⟩
    | exact ⟨h.1.mono hr, h.2.mono hr⟩
    | exact ⟨by omega, trivial, by omega⟩

/-! ## 3. Functions -/

namespace Proto

def room (p : Proto) : Room := ⟨p.maxStack.toNat, p.constants.size, p.upvalues.length, p.protos⟩

inductive All (P : Proto → Prop) : Proto → Prop where
  | mk {p : Proto} (here : P p) (nested : ∀ q ∈ p.protos, All P q) : All P p

inductive Sub : Proto → Proto → Prop where
  | self (p : Proto) : Sub p p
  | child {q r p : Proto} (h : q ∈ r.protos) (hr : Sub r p) : Sub q p

theorem All.here {P : Proto → Prop} {p : Proto} : All P p → P p
  | .mk h _ => h

theorem All.nested {P : Proto → Prop} {p : Proto} : All P p → ∀ q ∈ p.protos, All P q
  | .mk _ h => h

theorem All.sub {P : Proto → Prop} {p q : Proto} (h : All P p) (hs : Sub q p) : All P q := by
  induction hs with
  | self => exact h
  | child hq _ ih => exact (ih h).nested _ hq

theorem All.imp {P Q : Proto → Prop} (hPQ : ∀ p, P p → Q p) {p : Proto} (h : All P p) : All Q p := by
  induction h with
  | mk hp _ ih => exact .mk (hPQ _ hp) ih

theorem All.and {P Q : Proto → Prop} {p : Proto} (hP : p.All P) (hQ : p.All Q) :
    p.All fun q => P q ∧ Q q := by
  induction hP with
  | mk hp _ ih => exact .mk ⟨hp, hQ.here⟩ fun q hq => ih q hq (hQ.nested q hq)

def Within : Nat → Proto → Prop
  | 0, _ => False
  | n + 1, p => ∀ q ∈ p.protos, q.Within n

theorem Within.mono {n m : Nat} {p : Proto} (h : p.Within n) (hm : n ≤ m) : p.Within m := by
  induction n generalizing m p with
  | zero => exact h.elim
  | succ n ih =>
    obtain ⟨m, rfl⟩ : ∃ k, m = k + 1 := ⟨m - 1, by omega⟩
    exact fun q hq => ih (h q hq) (by omega)

/-- All that the code of a function touches is there, and control stays in the code. -/
structure Sound (p : Proto) : Prop where
  params : p.params.toNat ≤ p.maxStack.toNat
  known : ∀ (pc : Nat) (i : Instr), p.code[pc]? = some i → Op.ofNat? i.op.val = some i.opcode
  fits : ∀ (pc : Nat) (i : Instr), p.code[pc]? = some i → i.Fits p.room
  followed : ∀ (pc : Nat) (i : Instr), p.code[pc]? = some i → i.Followed p.constants.size p.code[pc + 1]?
  jumps : ∀ (pc : Nat) (i : Instr), p.code[pc]? = some i → i.Jumps (p.code.size - 1) pc
  skips : ∀ (pc : Nat) (i : Instr), p.code[pc]? = some i → i.Skips (p.code.size - 1) pc
  ends : ∃ i, p.code.back? = some i ∧ i.opcode = .ret

end Proto

end LuaMachine
