/-
  THE WAY OF CODE THAT CALCULATES: instructions that load literals and apply operators, as steps from place
  to place in one function, and as steps of the machine.

  * **`Proto.Course.goes`**, **`Proto.Stops.goes`** -- the machine takes that way.
-/
import LuaMachine.Proofs.Meaning.Register
import LuaMachine.Proofs.Meaning.Step

namespace LuaMachine

def OperandFault.Reported (r : RuntimeFault) : OperandFault → Prop
  | .numeric e => r = .numeric e
  | .noInteger _ => ∃ name, r = .noInteger name
  | .notNumber _ true => ∃ type name, r = .bitwise type name
  | .notNumber _ false => ∃ type name, r = .arithmetic type name

/-! ## 1. Steps -/

namespace Proto

/-- What the operator at a place makes of place and registers. One with a single operand takes it
    for both. -/
def operate? (p : Proto) (s : Spot) : Option (Except OperandFault Spot) :=
  match p.code[s.pc]? with
  | none => none
  | some i =>
    match Exec.operator? i.opcode with
    | none => none
    | some op =>
      match p.value? s.regs i.b.val, p.value? s.regs (if op.isUnary then i.b.val else i.c.val) with
      | some x, some y => some ((Value.arith op x y).map (s.put i.a.val))
      | _, _ => none

def Leads (p : Proto) (s s' : Spot) : Prop := p.effect? s = some (.ok s') ∨ p.operate? s = some (.ok s')

inductive Course (p : Proto) (low : Nat) : Spot → Spot → Prop where
  | refl (s : Spot) : Course p low s s
  | step {s s₁ s₂ : Spot} (he : p.Leads s s₁) (hk : ∀ r < low, s₁.regs r = s.regs r) (h : Course p low s₁ s₂) :
      Course p low s s₂

def Stops (p : Proto) (low : Nat) (s : Spot) (e : OperandFault) : Prop :=
  ∃ s', p.Course low s s' ∧ p.operate? s' = some (.error e)

variable {p : Proto} {low low' : Nat} {s s' s'' : Spot}

namespace Course

theorem trans (h : p.Course low s s') (h' : p.Course low s' s'') : p.Course low s s'' := by
  induction h with
  | refl => exact h'
  | step he hk _ ih => exact .step he hk (ih h')

theorem mono (h : p.Course low s s') (hl : low' ≤ low) : p.Course low' s s' := by
  induction h with
  | refl => exact .refl _
  | step he hk _ ih => exact .step he (fun r hr => hk r (Nat.lt_of_lt_of_le hr hl)) ih

theorem keeps (h : p.Course low s s') : ∀ r < low, s'.regs r = s.regs r := by
  induction h with
  | refl => exact fun _ _ => rfl
  | step _ hk _ ih => exact fun r hr => (ih r hr).trans (hk r hr)

theorem write {r n : Nat} {v : Value} (he : p.Leads s ((s.put r v).past n)) (hr : low ≤ r) :
    p.Course low s ((s.put r v).past n) :=
  .step he (fun i hi => if_neg (by omega)) (.refl _)

end Course

/-! ## 2. Ways to a result -/

def Comes {α : Type} (p : Proto) (low : Nat) (s : Spot) (pc : Nat) (Q : (Nat → Value) → α → Prop) :
    Except OperandFault α → Prop
  | .ok a => ∃ regs, p.Course low s ⟨pc, regs⟩ ∧ Q regs a
  | .error e => p.Stops low s e

namespace Comes

variable {α β : Type} {Q : (Nat → Value) → α → Prop} {Q' : (Nat → Value) → β → Prop} {pc pc' : Nat}
  {r : Except OperandFault α} {g : α → Except OperandFault β}

theorem mono (h : p.Comes low s pc Q r) (hl : low' ≤ low) : p.Comes low' s pc Q r := by
  cases r with
  | ok a =>
    obtain ⟨regs, hc, hq⟩ := h
    exact ⟨regs, hc.mono hl, hq⟩
  | error e =>
    obtain ⟨s', hc, he⟩ := h
    exact ⟨s', hc.mono hl, he⟩

theorem imp {Q' : (Nat → Value) → α → Prop} (h : p.Comes low s pc Q r) (hq : ∀ regs a, Q regs a → Q' regs a) :
    p.Comes low s pc Q' r := by
  cases r with
  | ok a =>
    obtain ⟨regs, hc, h⟩ := h
    exact ⟨regs, hc, hq regs a h⟩
  | error e => exact h

theorem after (h : p.Course low s s') (h' : p.Comes low s' pc Q r) : p.Comes low s pc Q r := by
  cases r with
  | ok a =>
    obtain ⟨regs, hc, hq⟩ := h'
    exact ⟨regs, h.trans hc, hq⟩
  | error e =>
    obtain ⟨s'', hc, he⟩ := h'
    exact ⟨s'', h.trans hc, he⟩

theorem bind (h : p.Comes low s pc Q r) (hg : ∀ regs a, p.Course low s ⟨pc, regs⟩ → Q regs a →
    p.Comes low ⟨pc, regs⟩ pc' Q' (g a)) : p.Comes low s pc' Q' (r >>= g) := by
  cases r with
  | ok a =>
    obtain ⟨regs, hc, hq⟩ := h
    exact after hc (hg regs a hc hq)
  | error e => exact h

end Comes

theorem value?_register {regs : Nat → Value} {x : Nat} (hx : x < 256) : p.value? regs x = some (regs x) := by
  unfold value?
  rw [Operand.isConstant_of_lt hx]
  rfl

theorem value?_constant {regs : Nat → Value} {k : Nat} {c : Constant} (hk : k ≤ Operand.maxConstant)
    (hc : p.constants[k]? = some c) : p.value? regs (Operand.ofConstant k) = some (.ofConstant c) := by
  obtain ⟨hconst, hindex, -⟩ := Operand.isConstant_ofConstant hk
  unfold value?
  rw [if_pos hconst, hindex, hc]
  rfl

theorem Course.value? (h : p.Course low s s') {x : Nat} (hx : Operand.isConstant x = true ∨ x < low) :
    p.value? s'.regs x = p.value? s.regs x := by
  unfold Proto.value?
  by_cases hc : Operand.isConstant x = true
  · rw [if_pos hc, if_pos hc]
  · rw [if_neg hc, if_neg hc, h.keeps x (hx.resolve_left hc)]

theorem operate_binary {i : Instr} {op : ArithOp} {x y : Value} (hi : p.code[s.pc]? = some i)
    (ho : Exec.operator? i.opcode = some op) (hu : op.isUnary = false) (hx : p.value? s.regs i.b.val = some x)
    (hy : p.value? s.regs i.c.val = some y) :
    p.operate? s = some ((Value.arith op x y).map (s.put i.a.val)) := by
  simp only [operate?, hi, ho, hu, Bool.false_eq_true, if_false, hx, hy]

theorem operate_unary {i : Instr} {op : ArithOp} {x : Value} (hi : p.code[s.pc]? = some i)
    (ho : Exec.operator? i.opcode = some op) (hu : op.isUnary = true) (hx : p.value? s.regs i.b.val = some x) :
    p.operate? s = some ((Value.arith op x x).map (s.put i.a.val)) := by
  simp only [operate?, hi, ho, hu, if_true, hx]

theorem comes_of_operate {reg : Nat} {r : Except OperandFault Value} (ho : p.operate? s = some (r.map (s.put reg)))
    (hl : low ≤ reg) (hr : reg < 256) :
    p.Comes low s (s.pc + 1) (fun regs v => p.value? regs reg = some v) r := by
  cases r with
  | ok v =>
    refine ⟨(s.put reg v).regs, .write (n := 0) (.inr ho) hl, ?_⟩
    refine (value?_register hr).trans (congrArg some ?_)
    exact if_pos rfl
  | error e => exact ⟨s, .refl s, ho⟩

end Proto

/-! ## 3. The machine takes the way -/

namespace Machine

open Exec

variable {m0 m : Machine} {f : Frame} {rest : List Frame} {s s' : Spot}

theorem code_of_operate {p : Proto} {r : Except OperandFault Spot} (he : p.operate? s = some r) :
    ∃ i op x y, p.code[s.pc]? = some i ∧ Exec.operator? i.opcode = some op ∧ p.value? s.regs i.b.val = some x ∧
      p.value? s.regs (if op.isUnary then i.b.val else i.c.val) = some y ∧
      r = (Value.arith op x y).map (s.put i.a.val) := by
  unfold Proto.operate? at he
  split at he
  · cases he
  · next i hi =>
    split at he
    · cases he
    · next op ho =>
      split at he
      · next x y hx hy => exact ⟨i, op, x, y, hi, ho, hx, hy, (Option.some.inj he).symm⟩
      · cases he

end Machine

namespace Exec

variable {m : Machine} {f : Frame} {rest : List Frame} {s : Spot}

theorem execute_operator {i : Instr} {op : ArithOp} (ho : operator? i.opcode = some op) (g : Frame) :
    execute g i = (do operate g op i.a.val i.b.val (if op.isUnary then i.b.val else i.c.val); return .run) := by
  unfold execute plain
  cases hop : i.opcode <;> rw [hop] at ho <;> cases ho <;> rfl

theorem operands_fit {i : Instr} {op : ArithOp} {r : Room} (ho : operator? i.opcode = some op) (hf : i.Fits r)
    (hr : r.registers ≤ 256) :
    i.a.val < r.registers ∧ r.Has i.b.val ∧ r.Has (if op.isUnary then i.b.val else i.c.val) := by
  have hunary (h : i.a.val < r.registers ∧ i.b.val < r.registers) :
      i.a.val < r.registers ∧ r.Has i.b.val ∧ r.Has i.b.val :=
    ⟨h.1, Room.has_of_lt h.2 (by omega), Room.has_of_lt h.2 (by omega)⟩
  unfold Instr.Fits at hf
  cases hop : i.opcode <;> rw [hop] at ho hf <;> cases ho <;> first | exact hf | exact hunary hf

theorem operand_at {x : Nat} {v : Value} (h : m.At f rest s) (hx : f.proto.room.Has x)
    (hv : f.proto.value? s.regs x = some v) (pc : Nat) : operand { f with pc := pc } x m = .ok v m := by
  unfold Room.Has at hx
  unfold Proto.value? at hv
  unfold operand
  split
  · next hconst =>
    rw [if_pos hconst] at hv
    obtain ⟨c, hc, rfl⟩ := Option.map_eq_some_iff.mp hv
    exact constant_of hc
  · next hconst =>
    rw [if_neg hconst] at hx hv
    cases hv
    exact read_at h hx

theorem operate_at (op : ArithOp) {a b c : Nat} {x y : Value} (h : m.At f rest (s.past 1))
    (ha : a < f.proto.room.registers) (hb : f.proto.room.Has b) (hc : f.proto.room.Has c)
    (hx : f.proto.value? s.regs b = some x) (hy : f.proto.value? s.regs c = some y) :
    match Value.arith op x y with
    | .ok v => ∃ m', operate { f with pc := s.pc + 1 } op a b c m = .ok () m' ∧ m'.At f rest (s.put a v) ∧ m.Same m'
    | .error e => ∃ place fault, e.Reported fault ∧
        operate { f with pc := s.pc + 1 } op a b c m = .error (.fault (.runtime place fault)) m := by
  have hall : operate { f with pc := s.pc + 1 } op a b c m =
      (match Value.arith op x y with
        | .ok v => write (f.base + a) v
        | .error e => failOperator { f with pc := s.pc + 1 } e x y b c : Exec Unit) m := by
    unfold operate
    rw [bind_of_ok (operand_at h hb hx _), bind_of_ok (operand_at h hc hy _)]
    rfl
  rw [hall]
  cases Value.arith op x y with
  | ok v => exact write_at h ha v
  | error e =>
    rcases e with ⟨n, _ | _⟩ | n | e
    · exact ⟨_, _, ⟨_, _, rfl⟩, rfl⟩
    · exact ⟨_, _, ⟨_, _, rfl⟩, rfl⟩
    · exact ⟨_, _, ⟨_, rfl⟩, rfl⟩
    · exact ⟨_, _, rfl, rfl⟩

end Exec

namespace Machine

open Exec

variable {m0 m : Machine} {f : Frame} {rest : List Frame} {s s' : Spot}

/-- **An operator with a result**: the machine is ready to go on behind it. -/
theorem On.operated (h : On m0 f rest s m) (hl : m0.limits.Endless) (hp : f.proto.Sound)
    (he : f.proto.operate? s = some (.ok s')) : ∃ m', m.step .run = .more m' .run ∧ On m0 f rest s' m' := by
  obtain ⟨i, op, x, y, hi, ho, hx, hy, hr⟩ := code_of_operate he
  obtain ⟨m1, hfetch, hat1, hsame1, _⟩ := h.fetched hl hi
  obtain ⟨ha, hb, hc⟩ := operands_fit ho (hp.fits _ i hi) (Nat.le_of_lt f.proto.maxStack.toNat_lt)
  have hop := operate_at op hat1 ha hb hc hx hy
  cases hv : Value.arith op x y with
  | error e =>
    rw [hv] at hr
    cases hr
  | ok v =>
    rw [hv] at hr hop
    cases hr
    obtain ⟨m', hplain, hat', hsame'⟩ := hop
    have hstep : m.step .run = .more m' .run := by
      refine step_of_ok hfetch ?_
      rw [execute_operator ho, bind_of_ok hplain]
      rfl
    have hkeeps := step_keeps h.ready
    rw [hstep] at hkeeps
    exact ⟨m', hstep, hat', hkeeps.1, (h.same.trans hsame1).trans hsame'⟩

theorem On.refused {e : OperandFault} (h : On m0 f rest s m) (hl : m0.limits.Endless) (hp : f.proto.Sound)
    (he : f.proto.operate? s = some (.error e)) :
    ∃ m' place fault, e.Reported fault ∧ m.step .run = .more m' (.raise (.runtime place fault)) ∧
      m'.Ready (.raise (.runtime place fault)) ∧ m0.Same m' := by
  obtain ⟨i, op, x, y, hi, ho, hx, hy, hr⟩ := code_of_operate he
  obtain ⟨m1, hfetch, hat1, hsame1, _⟩ := h.fetched hl hi
  obtain ⟨ha, hb, hc⟩ := operands_fit ho (hp.fits _ i hi) (Nat.le_of_lt f.proto.maxStack.toNat_lt)
  have hop := operate_at op hat1 ha hb hc hx hy
  cases hv : Value.arith op x y with
  | ok v =>
    rw [hv] at hr
    cases hr
  | error e' =>
    rw [hv] at hr hop
    cases hr
    obtain ⟨place, fault, hreported, hplain⟩ := hop
    have hstep : m.step .run = .more m1 (.raise (.runtime place fault)) := by
      have hexec : execute { f with pc := s.pc + 1 } i m1 = .error (.fault (.runtime place fault)) m1 := by
        rw [execute_operator ho]
        show EStateM.bind (operate _ _ _ _ _) _ m1 = _
        rw [EStateM.bind, hplain]
      rw [step_of_fetch hfetch]
      unfold ofExec
      rw [hexec]
    have hkeeps := step_keeps h.ready
    rw [hstep] at hkeeps
    exact ⟨m1, place, fault, hreported, hstep, hkeeps.1, h.same.trans hsame1⟩

end Machine

section

open Machine

variable {m0 m : Machine} {f : Frame} {rest : List Frame} {s s' : Spot} {low : Nat}
  (hl : m0.limits.Endless) (hp : f.proto.Sound)

include hl hp

/-- **A way through the code is a run of the machine.** -/
theorem Proto.Course.goes (hc : f.proto.Course low s s') (h : On m0 f rest s m) :
    ∃ m', On m0 f rest s' m' ∧ Goes (fun _ _ => True) m .run m' .run := by
  induction hc generalizing m with
  | refl s => exact ⟨m, h, .refl trivial⟩
  | step he _ _ ih =>
    obtain ⟨m1, hstep, h1⟩ := he.elim (h.step hl hp) (h.operated hl hp)
    obtain ⟨m', h', hgoes⟩ := ih h1
    exact ⟨m', h', .step trivial hstep hgoes⟩

/-- **A way to an operator without a result is a run to its fault.** -/
theorem Proto.Stops.goes {e : OperandFault} (hs : f.proto.Stops low s e) (h : On m0 f rest s m) :
    ∃ m' place fault, e.Reported fault ∧ m'.Ready (.raise (.runtime place fault)) ∧ m0.Same m' ∧
      Goes (fun _ _ => True) m .run m' (.raise (.runtime place fault)) := by
  obtain ⟨s1, hc, he⟩ := hs
  obtain ⟨m1, h1, hgoes⟩ := hc.goes hl hp h
  obtain ⟨m', place, fault, hreported, hstep, hready, hsame⟩ := h1.refused hl hp he
  exact ⟨m', place, fault, hreported, hready, hsame, hgoes.snoc hstep trivial⟩

end

end LuaMachine
