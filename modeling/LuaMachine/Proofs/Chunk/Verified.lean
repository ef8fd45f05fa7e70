/-
  WHAT THE CHECK OF A PRECOMPILED CHUNK PROMISES, held against what instructions touch.

  * `verify_ok` -- **the check of a tree of functions is the check of each**;
  * `Sound.admitted_iff` -- **code that fits passes, but for such LOADKs**.
-/
import LuaMachine.Chunk.Verify
import LuaMachine.Proofs.Code.Fits

namespace LuaMachine

/-! ## 1. Instructions at the check -/

namespace Instr

def Lax (r : Room) (i : Instr) : Prop :=
  match i.opcode with
  | .forLoop => i.a.val < r.registers ∧ r.registers ≤ i.a.val + 3
  | .tforLoop => i.a.val < r.registers ∧ r.registers ≤ i.a.val + 1
  | .ret => i.b.val = 0 ∧ r.registers ≤ i.a.val
  | _ => False

instance (r : Room) (i : Instr) : Decidable (i.Lax r) := by
  unfold Lax
  split <;> infer_instance

def Loadable (r : Room) (i : Instr) : Prop :=
  i.opcode = .loadK → i.bx < 512 * r.registers ∨ 131072 ≤ i.bx

theorem loadable_iff {r : Room} {i : Instr} (h : i.Fits r) :
    i.Loadable r ↔ (i.opcode = .loadK → r.Has i.b.val) := by
  unfold Loadable
  refine forall_congr' fun ho => ?_
  have hc : i.bx < r.constants := by
    simp only [Fits, ho] at h
    exact h.2
  have hb := i.b.isLt
  have hc' := i.c.isLt
  have hbit : Operand.isConstant i.b.val = true ↔ 256 ≤ i.b.val := by
    unfold Operand.isConstant Operand.constantBit
    rw [decide_eq_true_iff]
    omega
  simp only [bx] at *
  unfold Room.Has
  split
  · next hk =>
    have := hbit.mp hk
    rw [Operand.constantIndex, if_pos hk, Operand.constantBit]
    omega
  · next hk =>
    have : ¬ 256 ≤ i.b.val := fun hle => hk (hbit.mpr hle)
    omega

end Instr

namespace Demand

section

variable {p : Proto} {pc n k : Nat} {distance : Int}

@[simp] theorem met_register : (register k).met p pc = true ↔ k < p.room.registers := by
  simp [met, Proto.room]

@[simp] theorem met_registers : (registers k n).met p pc = true ↔ k + n ≤ p.room.registers := by
  simp [met, Proto.room]

@[simp] theorem met_constant : (constant k).met p pc = true ↔ k < p.room.constants := by
  simp [met, Proto.room]

@[simp] theorem met_upvalue : (upvalue k).met p pc = true ↔ k < p.room.upvalues := by
  simp [met, Proto.room]

@[simp] theorem met_jump :
    (jump distance).met p pc = true ↔
      0 ≤ (pc : Int) + 1 + distance ∧ (pc : Int) + 1 + distance < p.code.size := by
  simp [met]

@[simp] theorem met_follower : follower.met p pc = true ↔ pc + 1 < p.code.size := by
  simp [met]

@[simp] theorem met_followedBy {op : Op} :
    (followedBy op).met p pc = true ↔ ∃ j, p.code[pc + 1]? = some j ∧ j.opcode = op := by
  simp only [met]
  split
  · next j hj => simp [hj]
  · next hj => simp [hj]

@[simp] theorem met_ordered : (ordered k n).met p pc = true ↔ k ≤ n := by
  simp [met]

@[simp] theorem met_function : (function k).met p pc = true ↔ k < p.room.protos.length := by
  simp [met, Proto.room]

@[simp] theorem met_operand : (operand k).met p pc = true ↔ p.room.Has k := by
  unfold operand Room.Has
  split <;> simp

@[simp] theorem met_ofUpvalue {u : UpvalueDesc} :
    (ofUpvalue u).met p pc = true ↔ p.room.Gives u := by
  unfold ofUpvalue Room.Gives
  split <;> simp

end

def Met (p : Proto) (pc : Nat) (i : Instr) : Prop :=
  ∀ d ∈ ofInstr p pc i i.opcode, d.met p pc = true

end Demand

theorem Proto.verifyInstr_ok {p : Proto} {pc : Nat} {i : Instr} :
    p.verifyInstr pc i = .ok () ↔ Op.ofNat? i.op.val = some i.opcode ∧ Demand.Met p pc i := by
  unfold verifyInstr
  cases ho : Op.ofNat? i.op.val with
  | none => simp
  | some op =>
    have hop : i.opcode = op := by simp [Instr.opcode, ho]
    unfold Demand.Met
    rw [hop]
    have hfind : ((Demand.ofInstr p pc i op).find? fun d => !d.met p pc) = none ↔
        ∀ d ∈ Demand.ofInstr p pc i op, d.met p pc = true := by
      simp [List.find?_eq_none]
    simp only [true_and, ← hfind]
    split
    · next hf => simp [hf]
    · next hf => simp [hf]

/-! ## 2. Code that passes -/

namespace Demand

theorem met_iff {p : Proto} {pc : Nat} {i : Instr} (hpc : pc < p.code.size) :
    Met p pc i ↔ (i.Fits p.room ∨ i.Lax p.room) ∧ i.Followed p.constants.size p.code[pc + 1]? ∧
      i.Jumps (p.code.size - 1) pc ∧ i.Skips p.code.size pc ∧
      (i.opcode = .loadK → p.room.Has i.b.val) := by
  unfold Met ofInstr Instr.Fits Instr.Lax Instr.Followed Instr.Jumps Instr.Skips
  cases ho : i.opcode <;>
    simp only [ofA, ofUse, ofOp, Op.useB, Op.useC, Op.layout, List.nil_append, List.append_nil,
      List.cons_append, List.forall_mem_cons, List.forall_mem_append, met_operand]
  case jmp => by_cases ha : i.a.val = 0 <;> simp [ha] <;> omega
  case loadKx => cases hn : p.code[pc + 1]? <;> simp [hn, Proto.room, and_comm]
  case call => by_cases hb : i.b.val = 0 <;> by_cases hc : i.c.val ≤ 1 <;> simp [hb, hc] <;> omega
  case closure =>
    cases hp : p.protos[i.bx]? with
    | none => simp [Room.Closes, Proto.room, List.getElem?_eq_none_iff.mp hp]
    | some q =>
      obtain ⟨hlt, rfl⟩ := List.getElem?_eq_some_iff.mp hp
      have hr : p.room.protos = p.protos := rfl
      simp [Room.Closes, hr, hlt]
  all_goals simp
  all_goals grind

end Demand

namespace Proto

/-- What the check finds of the code of a function, as far as it matters when the code runs: some
    instructions may be lax, and a skip may end behind the last instruction. -/
structure Viable (p : Proto) : Prop where
  params : p.params.toNat ≤ p.maxStack.toNat
  ends : ∃ i, p.code.back? = some i ∧ i.opcode = .ret
  known : ∀ (pc : Nat) (i : Instr), p.code[pc]? = some i → Op.ofNat? i.op.val = some i.opcode
  fits : ∀ (pc : Nat) (i : Instr), p.code[pc]? = some i → i.Fits p.room ∨ i.Lax p.room
  followed : ∀ (pc : Nat) (i : Instr), p.code[pc]? = some i → i.Followed p.constants.size p.code[pc + 1]?
  jumps : ∀ (pc : Nat) (i : Instr), p.code[pc]? = some i → i.Jumps (p.code.size - 1) pc
  skips : ∀ (pc : Nat) (i : Instr), p.code[pc]? = some i → i.Skips p.code.size pc

structure Admitted (p : Proto) : Prop extends p.Viable where
  lines : p.lines.size = 0 ∨ p.lines.size = p.code.size
  loads : ∀ (pc : Nat) (i : Instr), p.code[pc]? = some i → i.opcode = .loadK → p.room.Has i.b.val

theorem Sound.viable {p : Proto} (h : p.Sound) : p.Viable where
  params := h.params
  ends := h.ends
  known := h.known
  fits := fun pc i hi => .inl (h.fits pc i hi)
  followed := h.followed
  jumps := h.jumps
  skips := fun pc i hi ho hc => by
    have := h.skips pc i hi ho hc
    omega

theorem endsWithReturn_iff {p : Proto} :
    p.endsWithReturn = true ↔ ∃ i, p.code.back? = some i ∧ i.opcode = .ret := by
  have hop : ∀ n : Fin 64, n.val = Op.ret.toNat ↔ (Op.ofNat? n.val).getD .extraArg = .ret := by decide
  unfold endsWithReturn
  cases hb : p.code.back? with
  | none => simp
  | some i => simpa [Instr.opcode] using hop i.op

theorem verifyCode_ok {p : Proto} {is : List Instr} {pc : Nat} :
    p.verifyCode pc is = .ok () ↔ ∀ (k : Nat) (i : Instr), is[k]? = some i → p.verifyInstr (pc + k) i = .ok () := by
  induction is generalizing pc with
  | nil => simp [verifyCode]
  | cons i rest ih =>
    unfold verifyCode
    constructor
    · intro h
      split at h
      · cases h
      · next _ hi =>
        intro k j hk
        cases k with
        | zero =>
          cases hk
          exact hi
        | succ k =>
          have := ih.mp h k j hk
          rwa [show pc + 1 + k = pc + (k + 1) by omega] at this
    · intro h
      have hi := h 0 i rfl
      rw [Nat.add_zero] at hi
      rw [hi]
      refine ih.mpr fun k j hk => ?_
      rw [show pc + 1 + k = pc + (k + 1) by omega]
      exact h (k + 1) j hk

theorem verifyOne_ok {p : Proto} : p.verifyOne = .ok () ↔ p.Admitted := by
  have hcode : p.verifyCode 0 p.code.toList = .ok () ↔
      ∀ (pc : Nat) (i : Instr), p.code[pc]? = some i →
        Op.ofNat? i.op.val = some i.opcode ∧ Demand.Met p pc i := by
    simp only [verifyCode_ok, verifyInstr_ok, Nat.zero_add, Array.getElem?_toList]
  have hlt : ∀ {pc : Nat} {i : Instr}, p.code[pc]? = some i → pc < p.code.size := fun h =>
    (Array.getElem?_eq_some_iff.mp h).1
  unfold verifyOne
  constructor
  · intro h
    split at h
    · cases h
    · next hparams =>
      split at h
      · cases h
      · next hlines =>
        split at h
        · cases h
        · next hends =>
          have hc := hcode.mp h
          have hm := fun pc i hi => (Demand.met_iff (hlt hi)).mp (hc pc i hi).2
          exact {
            params := UInt8.le_iff_toNat_le.mp (UInt8.not_lt.mp hparams)
            lines := by omega
            ends := endsWithReturn_iff.mp (by simpa using hends)
            known := fun pc i hi => (hc pc i hi).1
            fits := fun pc i hi => (hm pc i hi).1
            followed := fun pc i hi => (hm pc i hi).2.1
            jumps := fun pc i hi => (hm pc i hi).2.2.1
            skips := fun pc i hi => (hm pc i hi).2.2.2.1
            loads := fun pc i hi => (hm pc i hi).2.2.2.2 }
  · intro h
    have hparams : ¬ p.maxStack < p.params := UInt8.not_lt.mpr (UInt8.le_iff_toNat_le.mpr h.params)
    have hlines : ¬ (p.lines.size ≠ 0 ∧ p.lines.size ≠ p.code.size) := by
      have := h.lines
      omega
    rw [if_neg hparams, if_neg hlines, endsWithReturn_iff.mpr h.ends]
    exact hcode.mpr fun pc i hi => ⟨h.known pc i hi, (Demand.met_iff (hlt hi)).mpr
      ⟨h.fits pc i hi, h.followed pc i hi, h.jumps pc i hi, h.skips pc i hi, h.loads pc i hi⟩⟩

mutual

/-- **The check of a tree of functions is the check of each of them.** -/
theorem verify_ok (p : Proto) : p.verify = .ok () ↔ p.All Admitted := by
  match p with
  | ⟨code, constants, protos, upvalues, params, isVararg, maxStack, source, lineDefined, lastLine,
      lines, locals⟩ =>
    unfold verify
    split
    · next f hf =>
      constructor
      · intro h
        cases h
      · intro h
        rw [verifyOne_ok.mpr h.here] at hf
        cases hf
    · next hf =>
      rw [verifyAll_ok protos]
      exact ⟨fun h => .mk (verifyOne_ok.mp hf) h, All.nested⟩

theorem verifyAll_ok (ps : List Proto) : verifyAll ps = .ok () ↔ ∀ p ∈ ps, p.All Admitted := by
  match ps with
  | [] => simp [verifyAll]
  | p :: rest =>
    rw [List.forall_mem_cons, ← verify_ok p]
    unfold verifyAll
    split
    · next f hf => simp [hf]
    · next hf => simp [hf, verifyAll_ok rest]

end

/-- **Code that fits passes the check** but for a LOADK whose index the check takes for an operand
    out of range. -/
theorem Sound.admitted_iff {p : Proto} (h : p.Sound) (hl : p.lines.size = 0 ∨ p.lines.size = p.code.size) :
    p.Admitted ↔ ∀ (pc : Nat) (i : Instr), p.code[pc]? = some i → i.Loadable p.room := by
  constructor
  · exact fun ha pc i hi => (Instr.loadable_iff (h.fits pc i hi)).mpr (ha.loads pc i hi)
  · exact fun hload => {
      toViable := h.viable
      lines := hl
      loads := fun pc i hi => (Instr.loadable_iff (h.fits pc i hi)).mp (hload pc i hi) }

end Proto

end LuaMachine
