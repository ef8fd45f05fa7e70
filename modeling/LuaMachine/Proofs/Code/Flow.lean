/-
  WHERE A FUNCTION GOES ON after each instruction, said apart from the machine, and which registers an
  instruction captures.
-/
import LuaMachine.Proofs.Code.Fits

namespace LuaMachine

def Op.skips : Op → Bool
  | .loadKx | .loadBool | .eq | .lt | .le | .test | .testSet | .setList => true
  | _ => false

def Op.loops : Op → Bool
  | .forPrep | .forLoop | .tforLoop => true
  | _ => false

theorem Op.layout_asbx {op : Op} : op.layout = .asbx ↔ op = .jmp ∨ op.loops = true := by
  cases op <;> simp [Op.layout, Op.loops]

theorem Op.skips_of_isTest {op : Op} (h : op.isTest = true) : op.skips = true := by
  cases op <;> first | rfl | cases h

theorem Op.layout_of_isTest {op : Op} (h : op.isTest = true) : op.layout ≠ .asbx := by
  cases op <;> first | decide | cases h

namespace Instr

def Goes (i : Instr) (pc dest : Nat) : Prop :=
  i.opcode ≠ .jmp ∧ dest = pc + 1 ∨ i.opcode.skips = true ∧ dest = pc + 2 ∨
    i.opcode.layout = .asbx ∧ (dest : Int) = pc + 1 + i.sbx

def Captures (ps : List Proto) (i : Instr) (r : Nat) : Prop :=
  i.opcode = .closure ∧ ∃ q, ps[i.bx]? = some q ∧ ∃ u ∈ q.upvalues, u.inStack = true ∧ r = u.index.toNat

def Closes (i : Instr) (r : Nat) : Prop := i.opcode = .jmp ∧ i.a.val ≠ 0 ∧ i.a.val ≤ r + 1

variable {i : Instr} {pc dest r : Nat}

theorem Goes.le (h : i.Goes pc dest) (hl : i.opcode.layout ≠ .asbx) : pc + 1 ≤ dest ∧ dest ≤ pc + 2 := by
  rcases h with ⟨_, rfl⟩ | ⟨_, rfl⟩ | ⟨h, _⟩
  · omega
  · omega
  · exact absurd h hl

theorem goes_test {j : Instr} (hi : i.opcode.isTest = true) (hj : j.opcode.isTest = true)
    (h : j.Goes pc dest) : i.Goes pc dest := by
  rcases h with ⟨_, h⟩ | ⟨_, h⟩ | ⟨h, _⟩
  · refine .inl ⟨fun hjmp => ?_, h⟩
    rw [hjmp] at hi
    cases hi
  · exact .inr (.inl ⟨Op.skips_of_isTest hi, h⟩)
  · exact absurd h (Op.layout_of_isTest hj)

end Instr

namespace Proto

def target (p : Proto) (pc : Nat) (distance : Int) : Nat :=
  if 0 ≤ (pc : Int) + distance then ((pc : Int) + distance).toNat else p.code.size

def Captures (p : Proto) (i : Instr) (r : Nat) : Prop := i.Captures p.protos r

def Next (p : Proto) (pc : Nat) (i : Instr) (pc' : Nat) : Prop :=
  i.opcode ≠ .jmp ∧ pc' = pc ∨ i.opcode.skips = true ∧ pc' = pc + 1 ∨
    (i.opcode = .jmp ∨ i.opcode.loops = true) ∧ pc' = p.target pc i.sbx

theorem Sound.goes_of_next {p : Proto} {pc pc' : Nat} {i : Instr} (h : p.Sound) (hi : p.code[pc]? = some i)
    (hnext : p.Next (pc + 1) i pc') : i.Goes pc pc' := by
  rcases hnext with h' | ⟨hs, rfl⟩ | ⟨hl, rfl⟩
  · exact .inl h'
  · exact .inr (.inl ⟨hs, rfl⟩)
  · have hasbx := Op.layout_asbx.mpr hl
    have hjump := (h.jumps pc i hi) hasbx
    refine .inr (.inr ⟨hasbx, ?_⟩)
    unfold target
    split <;> omega

end Proto

end LuaMachine
