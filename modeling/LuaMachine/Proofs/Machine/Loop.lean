/-
  NUMERIC LOOPS OVER INTEGERS, from their first instruction to their end. The loop is begun one step before
  its first value, and every round adds the step and looks at the limit. The first addition must undo the
  subtraction: it does unless the place before the first value is no integer of 64 bits, and then there is
  no round at all.

  * **`Machine.rounds_values`** -- the values handed to the body, and when the loop is left.
-/
import LuaMachine.Proofs.Meaning.Step

namespace LuaMachine

/-! ## 1. Rounds -/

namespace LoopRound

def value (init step : Int64) (k : Nat) : Int := init.toInt + k * step.toInt

def Admitted (limit step : Int64) (n : Int) : Prop :=
  Double.inRange n = true ∧ if 0 < step then n ≤ limit.toInt else limit.toInt ≤ n

def Exists (init limit step : Int64) (k : Nat) : Prop := ∀ j ≤ k, Admitted limit step (value init step j)

variable {init limit step : Int64} {k : Nat}

theorem exists_zero : Exists init limit step 0 ↔ if 0 < step then init ≤ limit else limit ≤ init := by
  have hin : Double.inRange init.toInt = true := by
    have hlo := init.le_toInt
    have hhi := init.toInt_lt
    simp only [Double.inRange, decide_eq_true_eq]
    omega
  simp [Exists, Admitted, value, hin, Int64.le_iff_toInt_le]

theorem exists_succ : Exists init limit step (k + 1) ↔
    Exists init limit step k ∧ Admitted limit step (value init step (k + 1)) := by
  constructor
  · intro h
    exact ⟨fun j hj => h j (Nat.le_succ_of_le hj), h (k + 1) (Nat.le_refl _)⟩
  · intro h j hj
    rcases Nat.eq_or_lt_of_le hj with rfl | hlt
    · exact h.2
    · exact h.1 j (Nat.le_of_lt_succ hlt)

end LoopRound

namespace Exec

variable {index limit step : Int64}

theorem nextIndex?_int (h : LoopRound.Admitted limit step (index.toInt + step.toInt)) :
    nextIndex? (.int index) (.int limit) (.int step) = some (.int (Int64.ofInt (index.toInt + step.toInt))) := by
  obtain ⟨hin, hadm⟩ := h
  have hval : (Int64.ofInt (index.toInt + step.toInt)).toInt = index.toInt + step.toInt := by
    simp only [Double.inRange, decide_eq_true_eq] at hin
    exact Int64.toInt_ofInt_of_le (by omega) (by omega)
  have hcheck : (if 0 < step then Int64.ofInt (index.toInt + step.toInt) ≤ limit
      else limit ≤ Int64.ofInt (index.toInt + step.toInt)) := by
    rw [Int64.le_iff_toInt_le, Int64.le_iff_toInt_le, hval]
    exact hadm
  simp only [nextIndex?, checkedAdd, hin, if_true]
  exact if_pos hcheck

theorem nextIndex?_int_none (h : ¬ LoopRound.Admitted limit step (index.toInt + step.toInt)) :
    nextIndex? (.int index) (.int limit) (.int step) = none := by
  cases hin : Double.inRange (index.toInt + step.toInt) with
  | false => simp [nextIndex?, checkedAdd, hin]
  | true =>
    have hval : (Int64.ofInt (index.toInt + step.toInt)).toInt = index.toInt + step.toInt := by
      simp only [Double.inRange, decide_eq_true_eq] at hin
      exact Int64.toInt_ofInt_of_le (by omega) (by omega)
    have hcheck : ¬ (if 0 < step then Int64.ofInt (index.toInt + step.toInt) ≤ limit
        else limit ≤ Int64.ofInt (index.toInt + step.toInt)) := by
      rw [Int64.le_iff_toInt_le, Int64.le_iff_toInt_le, hval]
      exact fun hadm => h ⟨hin, hadm⟩
    simp only [nextIndex?, checkedAdd, hin, if_true]
    exact if_neg hcheck

end Exec

/-! ## 2. The first addition -/

namespace LoopRound

variable {init limit step : Int64}

theorem value_zero : value init step 0 = init.toInt := by simp [value]

theorem value_succ (k : Nat) : value init step (k + 1) = value init step k + step.toInt := by
  simp only [value, Int.natCast_succ, Int.add_mul, Int.one_mul, Int.add_assoc]

/-- Adding the step to the place before the first value gives the first value, if that place is an integer
    of 64 bits; otherwise the sum is none. -/
theorem admitted_first :
    Admitted limit step ((init - step).toInt + step.toInt) ↔
      Exists init limit step 0 ∧ Double.inRange (init.toInt - step.toInt) = true := by
  have hlo := init.le_toInt
  have hhi := init.toInt_lt
  have hslo := step.le_toInt
  have hshi := step.toInt_lt
  have hexists : Exists init limit step 0 ↔ Admitted limit step init.toInt := by
    simp [Exists, value]
  rw [hexists, Int64.toInt_sub]
  by_cases hin : Double.inRange (init.toInt - step.toInt) = true
  · have hsub : (init.toInt - step.toInt).bmod (2 ^ 64) = init.toInt - step.toInt := by
      simp only [Double.inRange, decide_eq_true_eq] at hin
      rw [Int.bmod_eq_of_le] <;> omega
    rw [hsub, Int.sub_add_cancel]
    simp [hin]
  · have hout : Double.inRange ((init.toInt - step.toInt).bmod (2 ^ 64) + step.toInt) = false := by
      simp only [Double.inRange, decide_eq_true_eq] at hin
      simp only [Double.inRange, decide_eq_false_iff_not]
      rw [Int.bmod_def]
      omega
    exact iff_of_false (fun h => Bool.false_ne_true (hout.symm.trans h.1)) fun h => hin h.2

end LoopRound

/-! ## 3. The two instructions -/

/-- A loop in the code of a function: it is begun at `first`, which goes to `last`, where every round ends;
    from there the body begins at `body`. -/
structure Proto.LoopAt (p : Proto) (a first last body : Nat) : Prop where
  begins : ∃ i, p.code[first]? = some i ∧ i.opcode = .forPrep ∧ i.a.val = a ∧ (first : Int) + 1 + i.sbx = last
  repeats : ∃ i, p.code[last]? = some i ∧ i.opcode = .forLoop ∧ i.a.val = a ∧ (last : Int) + 1 + i.sbx = body
  before : body ≤ last
  room : a + 3 < p.room.registers

structure Spot.Hidden (s : Spot) (a : Nat) (index limit step : Int64) : Prop where
  index : s.regs a = .int index
  limit : s.regs (a + 1) = .int limit
  step : s.regs (a + 2) = .int step

namespace Machine

open Exec

variable {m : Machine} {f : Frame} {rest : List Frame} {s : Spot} {a first last body : Nat}
  {init index limit stride : Int64}

theorem At.fetched {i : Instr} (h : m.At f rest s) (hl : m.limits.Endless) (hi : f.proto.code[s.pc]? = some i) :
    ∃ m1, Exec.fetch m = .ok ({ f with pc := s.pc + 1 }, i) m1 ∧ m1.At f rest (s.past 1) ∧ m1.limits = m.limits :=
  ⟨_, fetch_ok hl.budget hl.expired h.frames hi, ⟨rfl, h.top, h.regs⟩, rfl⟩

theorem At.performs {i : Instr} {s' : Spot} (h : m.At f rest s) (hl : m.limits.Endless) (hi : f.proto.code[s.pc]? = some i)
    (hplain : ∀ g, Exec.execute g i = (do Exec.plain g i i.opcode; return .run))
    (hp : ∀ m1 : Machine, m1.At f rest (s.past 1) →
      Performs f rest (Exec.plain { f with pc := s.pc + 1 } i i.opcode) m1 (.ok s')) :
    ∃ m', m.step .run = .more m' .run ∧ m'.At f rest s' ∧ m'.limits = m.limits := by
  obtain ⟨m1, hfetch, hat1, hlim1⟩ := h.fetched hl hi
  obtain ⟨m', hok, hat', hsame⟩ := hp m1 hat1
  refine ⟨m', step_of_ok hfetch ?_, hat', hsame.limits.trans hlim1⟩
  rw [hplain, bind_of_ok hok]
  rfl

theorem At.prepares (h : m.At f rest s) (hl : m.limits.Endless) (hloop : f.proto.LoopAt a first last body)
    (hpc : s.pc = first) (hs : s.Hidden a init limit stride) :
    ∃ m' s', m.step .run = .more m' .run ∧ m'.At f rest s' ∧ m'.limits = m.limits ∧ s'.pc = last ∧
      s'.Hidden a (init - stride) limit stride := by
  obtain ⟨i, hi, ho, rfl, hdest⟩ := hloop.begins
  have hroom := hloop.room
  let regs1 : Nat → Value := fun r => if r = i.a.val + 1 then .int limit else s.regs r
  let s' : Spot := ⟨last, fun r => if r = i.a.val then .int (init - stride) else regs1 r⟩
  have hplain : ∀ g, Exec.execute g i = (do Exec.plain g i i.opcode; return .run) := by
    intro g
    unfold Exec.execute
    rw [ho]
  have hperforms : ∀ m1 : Machine, m1.At f rest (s.past 1) →
      Performs f rest (Exec.plain { f with pc := s.pc + 1 } i i.opcode) m1 (.ok s') := by
    intro m1 hat
    rw [ho]
    have hprep : Performs f rest (Exec.prepareLoop (f.base + i.a.val)) m1 (.ok { s'.past 0 with pc := s.pc + 1 }) := by
      refine .read hat (by omega) (.read (b := i.a.val + 1) hat (by omega) (.read (b := i.a.val + 2) hat (by omega) ?_))
      simp only [Spot.past, hs.index, hs.limit, hs.step]
      have hlimit : (Value.int limit).loopLimit? stride = some (limit, false) := rfl
      rw [hlimit]
      have hwrite : Performs f rest (Exec.write (f.base + (i.a.val + 1)) (.int limit)) m1 (.ok ⟨s.pc + 1, regs1⟩) :=
        write_at hat (by omega) (.int limit)
      exact hwrite.andThen fun m2 hat2 => write_at hat2 (a := i.a.val) (by omega) (.int (init - stride))
    refine hprep.andThen fun m2 hat2 => ?_
    exact .jump (s := { s' with pc := s.pc }) hat2 (by rw [hpc]; exact hdest)
  obtain ⟨m', hstep, hat, hlim⟩ := h.performs hl (hpc ▸ hi) hplain hperforms
  refine ⟨m', s', hstep, hat, hlim, rfl, ?_, ?_, ?_⟩
  · exact if_pos rfl
  · show (if _ then _ else if _ then _ else _) = _
    rw [if_neg (by omega), if_pos rfl]
  · show (if _ then _ else if _ then _ else _) = _
    rw [if_neg (by omega), if_neg (by omega)]
    exact hs.step

theorem At.iterates (h : m.At f rest s) (hl : m.limits.Endless) (hloop : f.proto.LoopAt a first last body)
    (hpc : s.pc = last) (hs : s.Hidden a index limit stride) :
    ∃ m' s', m.step .run = .more m' .run ∧ m'.At f rest s' ∧ m'.limits = m.limits ∧
      (LoopRound.Admitted limit stride (index.toInt + stride.toInt) →
        s'.pc = body ∧ s'.regs (a + 3) = .int (Int64.ofInt (index.toInt + stride.toInt)) ∧
          s'.Hidden a (Int64.ofInt (index.toInt + stride.toInt)) limit stride) ∧
      (¬ LoopRound.Admitted limit stride (index.toInt + stride.toInt) → s'.pc = last + 1) := by
  obtain ⟨i, hi, ho, rfl, hdest⟩ := hloop.repeats
  have hroom := hloop.room
  have hplain : ∀ g, Exec.execute g i = (do Exec.plain g i i.opcode; return .run) := by
    intro g
    unfold Exec.execute
    rw [ho]
  by_cases hadm : LoopRound.Admitted limit stride (index.toInt + stride.toInt)
  · let v : Value := .int (Int64.ofInt (index.toInt + stride.toInt))
    let regs1 : Nat → Value := fun r => if r = i.a.val then v else s.regs r
    let s' : Spot := ⟨body, fun r => if r = i.a.val + 3 then v else regs1 r⟩
    have hperforms : ∀ m1 : Machine, m1.At f rest (s.past 1) →
        Performs f rest (Exec.plain { f with pc := s.pc + 1 } i i.opcode) m1 (.ok s') := by
      intro m1 hat
      rw [ho]
      refine .read hat (by omega) (.read (b := i.a.val + 1) hat (by omega) (.read (b := i.a.val + 2) hat (by omega) ?_))
      simp only [Spot.past, hs.index, hs.limit, hs.step, nextIndex?_int hadm]
      have hwrite : Performs f rest (Exec.write (f.base + i.a.val) v) m1 (.ok ⟨s.pc + 1, regs1⟩) :=
        write_at hat (by omega) v
      refine hwrite.andThen fun m2 hat2 => ?_
      have hwrite' : Performs f rest (Exec.write (f.base + (i.a.val + 3)) v) m2 (.ok ⟨s.pc + 1, s'.regs⟩) :=
        write_at hat2 (by omega) v
      refine hwrite'.andThen fun m3 hat3 => ?_
      exact .jump (s := { s' with pc := s.pc }) hat3 (by rw [hpc]; exact hdest)
    obtain ⟨m', hstep, hat, hlim⟩ := h.performs hl (hpc ▸ hi) hplain hperforms
    refine ⟨m', s', hstep, hat, hlim, fun _ => ⟨rfl, if_pos rfl, ?_, ?_, ?_⟩, fun hn => absurd hadm hn⟩
    · show (if _ then _ else if _ then _ else _) = _
      rw [if_neg (by omega), if_pos rfl]
    · show (if _ then _ else if _ then _ else _) = _
      rw [if_neg (by omega), if_neg (by omega)]
      exact hs.limit
    · show (if _ then _ else if _ then _ else _) = _
      rw [if_neg (by omega), if_neg (by omega)]
      exact hs.step
  · have hperforms : ∀ m1 : Machine, m1.At f rest (s.past 1) →
        Performs f rest (Exec.plain { f with pc := s.pc + 1 } i i.opcode) m1 (.ok (s.past 1)) := by
      intro m1 hat
      rw [ho]
      refine .read hat (by omega) (.read (b := i.a.val + 1) hat (by omega) (.read (b := i.a.val + 2) hat (by omega) ?_))
      simp only [Spot.past, hs.index, hs.limit, hs.step, nextIndex?_int_none hadm]
      exact .pure hat
    obtain ⟨m', hstep, hat, hlim⟩ := h.performs hl (hpc ▸ hi) hplain hperforms
    refine ⟨m', s.past 1, hstep, hat, hlim, fun hy => absurd hy hadm, fun _ => ?_⟩
    rw [← hpc]
    rfl

/-! ## 4. The loop -/

/-- A loop under way: it has been begun, and after some rounds control is again where rounds end. The body
    is any change of the machine that leaves the hidden registers and the limits as they are and comes back to
    the end of the round. The values are those that the rounds found in the register behind the hidden ones. -/
inductive Rounds (f : Frame) (rest : List Frame) (a last body : Nat) (m₀ : Machine) : List Value → Machine → Prop where
  | begun {m : Machine} (hs : m₀.step .run = .more m .run) : Rounds f rest a last body m₀ [] m
  | round {vs : List Value} {m m₁ m₂ : Machine} {s₁ s₂ : Spot} (h : Rounds f rest a last body m₀ vs m)
      (hs : m.step .run = .more m₁ .run) (h₁ : m₁.At f rest s₁) (hbody : s₁.pc = body) (h₂ : m₂.At f rest s₂)
      (hlast : s₂.pc = last) (hidden : ∀ r, a ≤ r → r < a + 3 → s₂.regs r = s₁.regs r) (hlimits : m₂.limits = m₁.limits) :
      Rounds f rest a last body m₀ (vs ++ [s₁.regs (a + 3)]) m₂

theorem At.spot_eq {s' : Spot} (h : m.At f rest s) (h' : m.At f rest s') : s = s' := by
  have hf := h.frames.symm.trans h'.frames
  have hpc : s.pc = s'.pc := congrArg Frame.pc (List.cons.inj hf).1
  have hregs : s.regs = s'.regs := h.regs.symm.trans h'.regs
  cases s
  cases s'
  cases hpc
  cases hregs
  rfl

/-- Where the rounds of a loop stand: the index is the value of the last round, or one step before the first. -/
structure Standing (f : Frame) (rest : List Frame) (a last : Nat) (init limit stride : Int64) (vs : List Value)
    (m : Machine) : Prop where
  limits : m.limits.Endless
  spot : ∃ s index, m.At f rest s ∧ s.pc = last ∧ s.Hidden a index limit stride ∧
    (LoopRound.Admitted limit stride (index.toInt + stride.toInt) ↔
      LoopRound.Exists init limit stride vs.length ∧ Double.inRange (init.toInt - stride.toInt) = true) ∧
    (LoopRound.Admitted limit stride (index.toInt + stride.toInt) →
      index.toInt + stride.toInt = LoopRound.value init stride vs.length)
  values : ∀ k < vs.length, vs[k]? = some (.int (Int64.ofInt (LoopRound.value init stride k))) ∧
    LoopRound.Exists init limit stride k

namespace Standing

variable {vs : List Value}

theorem begun (hl : m.limits.Endless) (h : m.At f rest s) (hpc : s.pc = last)
    (hs : s.Hidden a (init - stride) limit stride) : Standing f rest a last init limit stride [] m := by
  refine ⟨hl, ⟨s, init - stride, h, hpc, hs, LoopRound.admitted_first, fun hadm => ?_⟩, fun k hk => absurd hk (Nat.not_lt_zero k)⟩
  obtain ⟨-, hin⟩ := LoopRound.admitted_first.mp hadm
  have hlo := init.le_toInt
  have hslo := stride.le_toInt
  simp only [Double.inRange, decide_eq_true_eq] at hin
  have hsub : (init - stride).toInt = init.toInt - stride.toInt := by
    rw [Int64.toInt_sub, Int.bmod_eq_of_le] <;> omega
  rw [hsub, Int.sub_add_cancel]
  exact LoopRound.value_zero.symm

theorem round (h : Standing f rest a last init limit stride vs m) (hloop : f.proto.LoopAt a first last body)
    {m1 m2 : Machine} {s1 s2 : Spot} (hstep : m.step .run = .more m1 .run) (h1 : m1.At f rest s1) (hbody : s1.pc = body)
    (h2 : m2.At f rest s2) (hlast : s2.pc = last) (hidden : ∀ r, a ≤ r → r < a + 3 → s2.regs r = s1.regs r)
    (hlimits : m2.limits = m1.limits) :
    Standing f rest a last init limit stride (vs ++ [s1.regs (a + 3)]) m2 := by
  obtain ⟨s, index, hat, hpc, hs, hiff, hval⟩ := h.spot
  obtain ⟨m', s', hstep', hat', hlim, hyes, hno⟩ := hat.iterates h.limits hloop hpc hs
  rw [hstep] at hstep'
  cases hstep'
  cases hat'.spot_eq h1
  have hadm : LoopRound.Admitted limit stride (index.toInt + stride.toInt) := by
    refine Classical.byContradiction fun hn => ?_
    have hleft := hno hn
    have := hloop.before
    omega
  obtain ⟨-, hcontrol, hs'⟩ := hyes hadm
  obtain ⟨hex, hin⟩ := hiff.mp hadm
  rw [hval hadm] at hcontrol hs'
  have hvalue : (Int64.ofInt (LoopRound.value init stride vs.length)).toInt = LoopRound.value init stride vs.length := by
    have hrange := (hex _ (Nat.le_refl _)).1
    simp only [Double.inRange, decide_eq_true_eq] at hrange
    exact Int64.toInt_ofInt_of_le (by omega) (by omega)
  have hnext : (Int64.ofInt (LoopRound.value init stride vs.length)).toInt + stride.toInt =
      LoopRound.value init stride (vs.length + 1) := by
    rw [hvalue, LoopRound.value_succ]
  have hhidden : s2.Hidden a (Int64.ofInt (LoopRound.value init stride vs.length)) limit stride :=
    ⟨(hidden a (by omega) (by omega)).trans hs'.index, (hidden (a + 1) (by omega) (by omega)).trans hs'.limit,
      (hidden (a + 2) (by omega) (by omega)).trans hs'.step⟩
  refine ⟨by rw [hlimits, hlim]; exact h.limits, ⟨s2, _, h2, hlast, hhidden, ?_, ?_⟩, fun k hk => ?_⟩
  · rw [hnext, List.length_append, List.length_singleton, LoopRound.exists_succ]
    exact ⟨fun hadm' => ⟨⟨hex, hadm'⟩, hin⟩, fun hboth => hboth.1.2⟩
  · intro _
    rw [hnext, List.length_append, List.length_singleton]
  · rw [List.length_append, List.length_singleton] at hk
    rcases Nat.lt_succ_iff_lt_or_eq.mp hk with hlt | rfl
    · rw [List.getElem?_append_left hlt]
      exact h.values k hlt
    · rw [List.getElem?_concat_length, hcontrol]
      exact ⟨rfl, hex⟩

end Standing

/-- **The rounds of a loop over integers.** The loop is begun; after any number of rounds, the values handed
    to the body were the first of `init, init + step, …`, all admitted by the limit and computed without wrapping;
    and control goes to the body with the next of them if it too is admitted, and leaves the loop if not. There is
    no round at all where the place before the first value is no integer of 64 bits. -/
theorem rounds_values {m₀ : Machine} {s₀ : Spot} (hloop : f.proto.LoopAt a first last body) (hl : m₀.limits.Endless)
    (h₀ : m₀.At f rest s₀) (hpc : s₀.pc = first) (hs : s₀.Hidden a init limit stride) :
    (∃ m, Rounds f rest a last body m₀ [] m) ∧
      ∀ vs m, Rounds f rest a last body m₀ vs m →
        (∀ k < vs.length, vs[k]? = some (.int (Int64.ofInt (LoopRound.value init stride k))) ∧
          LoopRound.Exists init limit stride k) ∧
        ∃ m₁ s₁, m.step .run = .more m₁ .run ∧ m₁.At f rest s₁ ∧
          (LoopRound.Exists init limit stride vs.length ∧ Double.inRange (init.toInt - stride.toInt) = true →
            s₁.pc = body ∧ s₁.regs (a + 3) = .int (Int64.ofInt (LoopRound.value init stride vs.length))) ∧
          (¬ (LoopRound.Exists init limit stride vs.length ∧ Double.inRange (init.toInt - stride.toInt) = true) →
            s₁.pc = last + 1) := by
  obtain ⟨m, s, hstep, hat, hlim, hspc, hshid⟩ := h₀.prepares hl hloop hpc hs
  refine ⟨⟨m, .begun hstep⟩, fun vs m' hr => ?_⟩
  have hstanding : Standing f rest a last init limit stride vs m' := by
    induction hr with
    | begun hs' =>
      rw [hstep] at hs'
      cases hs'
      exact .begun (hlim ▸ hl) hat hspc hshid
    | round _ hs' h₁ hbody h₂ hlast hidden hlimits ih =>
      exact ih.round hloop hs' h₁ hbody h₂ hlast hidden hlimits
  obtain ⟨s', index, hat', hpc', hs', hiff, hval⟩ := hstanding.spot
  obtain ⟨m₁, s₁, hstep₁, hat₁, -, hyes, hno⟩ := hat'.iterates hstanding.limits hloop hpc' hs'
  refine ⟨hstanding.values, m₁, s₁, hstep₁, hat₁, fun hex => ?_, fun hn => hno (mt hiff.mp hn)⟩
  have hadm := hiff.mpr hex
  obtain ⟨hbody, hcontrol, -⟩ := hyes hadm
  rw [hval hadm] at hcontrol
  exact ⟨hbody, hcontrol⟩

/-- A function with a loop that does nothing. -/
def idleLoop : Proto where
  code := #[.ofAsBx .forPrep 0 0, .ofAsBx .forLoop 0 (-1), .ofABC .ret 0 1 0]
  constants := #[]
  protos := []
  upvalues := []
  params := 0
  isVararg := false
  maxStack := 4
  source := none
  lineDefined := 0
  lastLine := 0
  lines := #[]
  locals := []

def beforeLoop (init limit stride : Int64) : Machine :=
  { bare .standard with
    stack := #[.nil, .int init, .int limit, .int stride, .nil]
    frames := [⟨0, 0, none, idleLoop, #[], []⟩] }

/-- Three integers from the least one on are not above the limit, but the loop over them is left at once: the
    place before the least integer is none. -/
theorem rounds_values_least :
    let f : Frame := ⟨0, 0, none, idleLoop, #[], []⟩
    let m₀ := beforeLoop Int64.minValue (Int64.minValue + 2) 1
    LoopRound.Exists Int64.minValue (Int64.minValue + 2) 1 0 ∧
      ∃ m m₁ s₁, Rounds f [] 0 1 1 m₀ [] m ∧ m.step .run = .more m₁ .run ∧ m₁.At f [] s₁ ∧ s₁.pc = 2 := by
  intro f m₀
  have hexists : LoopRound.Exists Int64.minValue (Int64.minValue + 2) 1 0 := LoopRound.exists_zero.mpr (by decide)
  have hloop : idleLoop.LoopAt 0 0 1 1 :=
    ⟨⟨_, rfl, by decide, by decide, by decide⟩, ⟨_, rfl, by decide, by decide, by decide⟩, by decide, by decide⟩
  have h₀ : m₀.At f [] ⟨0, m₀.registers f.base⟩ := ⟨rfl, by decide, rfl⟩
  obtain ⟨⟨m, hbegun⟩, hall⟩ := rounds_values hloop ⟨rfl, rfl⟩ h₀ rfl ⟨rfl, rfl, rfl⟩
  obtain ⟨-, m₁, s₁, hstep, hat, -, hleft⟩ := hall [] m hbegun
  have hpc := hleft fun h => absurd h.2 (by decide)
  exact ⟨hexists, m, m₁, s₁, hbegun, hstep, hat, hpc⟩

end Machine

end LuaMachine
