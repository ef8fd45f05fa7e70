/-
  THE MACHINE TAKES THE WAY OF THE CODE. A step of the machine at an instruction that only computes makes of
  registers and place what `Proto.effect?` says, or raises the failure of the comparison; a way of such
  instructions is a run of the machine.

  * `Machine.Goes` -- a run all of whose states have a property; **`Proto.Path.goes`**.
-/
import LuaMachine.Proofs.Machine.Run
import LuaMachine.Proofs.Machine.Stack
import LuaMachine.Proofs.Meaning.Path

namespace LuaMachine

namespace Machine

def registers (m : Machine) (base : Nat) : Nat → Value := fun r => m.stack[base + r]?.getD .nil

structure At (f : Frame) (rest : List Frame) (s : Spot) (m : Machine) : Prop where
  frames : m.frames = { f with pc := s.pc } :: rest
  top : f.top ≤ m.stack.size
  regs : m.registers f.base = s.regs

def Same (m m' : Machine) : Prop :=
  m' = { m with executed := m'.executed, stack := m'.stack, frames := m'.frames }

variable {m m' m'' : Machine} {f : Frame} {rest : List Frame} {s : Spot}

theorem Same.trans (h : m.Same m') (h' : m'.Same m'') : m.Same m'' := by
  unfold Same at *
  rw [h', h]

theorem At.lt (h : m.At f rest s) {r : Nat} (hr : r < f.proto.room.registers) : f.base + r < m.stack.size := by
  have htop : f.base + f.proto.room.registers ≤ m.stack.size := h.top
  omega

theorem At.value (h : m.At f rest s) {r : Nat} (hr : r < f.proto.room.registers) :
    m.stack[f.base + r]? = some (s.regs r) := by
  rw [← h.regs, registers, Array.getElem?_eq_getElem (h.lt hr), Option.getD_some]

end Machine

namespace Exec

open Machine

variable {α β : Type} {m m' m₁ : Machine} {f : Frame} {rest : List Frame} {s : Spot}

/-! ## 1. Steps that do not fail -/

theorem write_at (h : m.At f rest s) {a : Nat} (ha : a < f.proto.room.registers) (v : Value) :
    ∃ m', Exec.write (f.base + a) v m = .ok () m' ∧
      m'.At f rest { s with regs := fun r => if r = a then v else s.regs r } ∧ m.Same m' := by
  have hlt := h.lt ha
  refine ⟨{ m with stack := m.stack.set (f.base + a) v hlt }, dif_pos hlt, ⟨h.frames, ?_, ?_⟩, rfl⟩
  · rw [Array.size_set]
    exact h.top
  · funext r
    show (m.stack.set (f.base + a) v hlt)[f.base + r]?.getD .nil = if r = a then v else s.regs r
    rw [Array.getElem?_set, ← h.regs]
    by_cases hr : r = a
    · simp [hr]
    · rw [if_neg (by omega), if_neg hr]
      rfl

theorem modifyFrame_at (h : m.At f rest s) {g : Frame → Frame} {pc : Nat}
    (hg : g { f with pc := s.pc } = { f with pc := pc }) :
    ∃ m', Exec.modifyFrame g m = .ok () m' ∧ m'.At f rest { s with pc := pc } ∧ m.Same m' :=
  ⟨_, modifyFrame_eq h.frames, ⟨by rw [hg], h.top, h.regs⟩, rfl⟩

theorem read_at (h : m.At f rest s) {r : Nat} (hr : r < f.proto.room.registers) :
    Exec.read (f.base + r) m = .ok (s.regs r) m := by
  rw [read_eq (h.lt hr), ← Option.some_inj.mp ((Array.getElem?_eq_getElem (h.lt hr)).symm.trans (h.value hr))]

theorem constant_of {k : Nat} {c : Constant} (hc : f.proto.constants[k]? = some c) :
    Exec.constant f k m = .ok (.ofConstant c) m := by
  unfold Exec.constant
  rw [hc]
  rfl

/-! ## 2. Instructions -/

/-- The rest of an instruction brings the function to this place with these registers, or fails by
    a comparison. -/
def Performs (f : Frame) (rest : List Frame) (x : Exec Unit) (m : Machine) : Except Clash Spot → Prop
  | .ok s => ∃ m', x m = .ok () m' ∧ m'.At f rest s ∧ m.Same m'
  | .error c => ∃ place, x m = .error (.fault (.runtime place (.compare c.1 c.2))) m

namespace Performs

variable {r : Except Clash Spot} {v : Value} {k : Value → Exec Unit} {a b n : Nat}

theorem next {x : Exec α} {y : α} {k : α → Exec Unit} (hx : x m = .ok y m) (h : Performs f rest (k y) m r) :
    Performs f rest (x >>= k) m r := by
  unfold Performs at *
  rw [bind_of_ok hx]
  exact h

theorem andThen {x y : Exec Unit} {s' : Spot} (hx : Performs f rest x m (.ok s))
    (h : ∀ m', m'.At f rest s → Performs f rest y m' (.ok s')) :
    Performs f rest (do x; y) m (.ok s') := by
  obtain ⟨m₁, hok, hat, hsame⟩ := hx
  obtain ⟨m', hy, hat', hsame'⟩ := h m₁ hat
  exact ⟨m', by rw [bind_of_ok hok, hy], hat', hsame.trans hsame'⟩

theorem pure (h : m.At f rest s) : Performs f rest (Pure.pure ()) m (.ok s) := ⟨m, rfl, h, rfl⟩

theorem read (h : m.At f rest s) (hb : b < f.proto.room.registers) (hk : Performs f rest (k (s.regs b)) m r) :
    Performs f rest (Exec.read (f.base + b) >>= k) m r :=
  next (read_at h hb) hk

theorem write (n : Nat) (h : m.At f rest (s.past (n + 1))) (ha : a < f.proto.room.registers) :
    Performs f rest (Exec.write (f.base + a) v) m (.ok ((s.put a v).past n)) := by
  have hput : (s.put a v).past n = { s.past (n + 1) with regs := fun r => if r = a then v else s.regs r } := by
    simp only [Spot.put, Spot.past, Nat.add_assoc, Nat.add_comm 1 n]
  rw [hput]
  exact write_at h ha v

theorem clear (h : m.At f rest (s.past 1)) (ha : a + n ≤ f.proto.room.registers) :
    Performs f rest (Exec.clear (f.base + a) n) m (.ok (s.clear a n)) := by
  suffices hall : ∀ (m : Machine) (s : Spot), m.At f rest s →
      Performs f rest (Exec.clear (f.base + a) n) m
        (.ok { s with regs := fun r => if a ≤ r ∧ r < a + n then .nil else s.regs r }) from hall m _ h
  induction n with
  | zero =>
    intro m s h
    have hsame : s = { s with regs := fun r => if a ≤ r ∧ r < a + 0 then Value.nil else s.regs r } := by
      cases s
      congr
      funext r
      rw [if_neg (by omega)]
    rw [← hsame]
    exact pure h
  | succ n ih =>
    intro m s h
    obtain ⟨m₁, hok, h1, hsame1⟩ := write_at h (a := a + n) (by omega) .nil
    obtain ⟨m', hok', h', hsame'⟩ := ih (by omega) m₁ _ h1
    refine ⟨m', ?_, ?_, hsame1.trans hsame'⟩
    · rw [← Nat.add_assoc] at hok
      exact (bind_of_ok hok).trans hok'
    · have hregs : (fun r => if a ≤ r ∧ r < a + (n + 1) then Value.nil else s.regs r) = fun r =>
          if a ≤ r ∧ r < a + n then Value.nil else if r = a + n then .nil else s.regs r := by
        funext r
        by_cases hr : r = a + n
        · simp [hr]
        · have hiff : (a ≤ r ∧ r < a + (n + 1)) ↔ (a ≤ r ∧ r < a + n) := by omega
          simp only [hiff, if_neg hr]
      rw [hregs]
      exact h'

theorem extra {x : Instr} {missing : RuntimeFault} {k : Nat → Exec Unit} {s' : Spot} (h : m.At f rest (s.past 1))
    (hx : f.proto.code[s.pc + 1]? = some x) (hk : ∀ m', m'.At f rest (s.past 2) → Performs f rest (k x.ax) m' (.ok s')) :
    Performs f rest (Exec.extra { f with pc := s.pc + 1 } missing >>= k) m (.ok s') := by
  obtain ⟨m₁, hskip, hat, hsame⟩ : Performs f rest Exec.skip m (.ok (s.past 2)) := modifyFrame_at h rfl
  obtain ⟨m', hok, hat', hsame'⟩ := hk m₁ hat
  have hextra : Exec.extra { f with pc := s.pc + 1 } missing m = .ok x.ax m₁ := by
    unfold Exec.extra
    rw [bind_of_ok hskip]
    dsimp only
    rw [hx]
    rfl
  exact ⟨m', by rw [bind_of_ok hextra, hok], hat', hsame.trans hsame'⟩

theorem skip (h : m.At f rest s) : Performs f rest Exec.skip m (.ok (s.past 1)) := modifyFrame_at h rfl

theorem jump {distance : Int} {dest : Nat} (h : m.At f rest (s.past 1)) (hd : (s.pc : Int) + 1 + distance = dest) :
    Performs f rest (Exec.jump distance) m (.ok { s with pc := dest }) := by
  refine modifyFrame_at h ?_
  have hpc : ((s.pc + 1 : Nat) : Int) + distance = dest := by omega
  simp only [Spot.past, hpc, Int.natCast_nonneg, if_true, Int.toNat_natCast]

theorem skipUnless (outcome expected : Bool) (h : m.At f rest (s.past 1)) :
    Performs f rest (Exec.skipUnless outcome expected) m (.ok (s.past (if outcome = expected then 1 else 2))) := by
  unfold Exec.skipUnless
  by_cases ho : outcome = expected
  · rw [if_neg (not_not_intro ho), if_pos ho]
    exact pure h
  · rw [if_pos ho, if_neg ho]
    exact skip h

theorem operand {x : Nat} (h : m.At f rest s) (hx : f.proto.room.Has x) (hv : f.proto.value? s.regs x = some v)
    (hk : Performs f rest (k v) m r) : Performs f rest (Exec.operand f x >>= k) m r := by
  refine next ?_ hk
  unfold Room.Has at hx
  unfold Proto.value? at hv
  unfold Exec.operand
  split
  · next hconst =>
    rw [if_pos hconst] at hv
    obtain ⟨c, hc, rfl⟩ := Option.map_eq_some_iff.mp hv
    exact constant_of hc
  · next hconst =>
    rw [if_neg hconst] at hx hv
    cases hv
    exact read_at h hx

theorem compare {i : Instr} {order : Value → Value → Option Bool} (h : m.At f rest (s.past 1))
    (hb : f.proto.room.Has i.b.val) (hc : f.proto.room.Has i.c.val) (he : f.proto.compare? s i order = some r) :
    Performs f rest (Exec.compareOperands { f with pc := s.pc + 1 } i order) m r := by
  unfold Proto.compare? at he
  split at he
  · next x y hx hy =>
    refine operand h hb hx (operand h hc hy ?_)
    cases ho : order x y with
    | some outcome =>
      rw [ho] at he
      cases he
      exact skipUnless _ _ h
    | none =>
      rw [ho] at he
      cases he
      exact ⟨_, rfl⟩
  · cases he

/-- **Every instruction with an effect has it.** -/
theorem plain {i : Instr} (h : m.At f rest (s.past 1)) (hi : f.proto.code[s.pc]? = some i)
    (hfits : i.Fits f.proto.room) (he : f.proto.effect? s = some r) :
    Performs f rest (Exec.plain { f with pc := s.pc + 1 } i i.opcode) m r := by
  cases ho : i.opcode <;> simp only [Proto.effect?, Instr.Fits, hi, ho, Op.order?, reduceCtorEq] at he hfits
  case move =>
    cases he
    exact read h hfits.2 (write 0 h hfits.1)
  case loadK =>
    obtain ⟨c, hc, rfl⟩ := Option.map_eq_some_iff.mp he
    exact next (constant_of hc) (write 0 h hfits.1)
  case loadKx =>
    split at he
    · next x hx =>
      obtain ⟨c, hc, rfl⟩ := Option.map_eq_some_iff.mp he
      exact extra h hx fun m' hm' => next (constant_of hc) (write 1 hm' hfits)
    · cases he
  case loadBool =>
    cases he
    refine andThen (write 0 h hfits) fun m' hm' => ?_
    by_cases hc : i.c.val = 0
    · rw [if_neg (not_not_intro hc), if_pos hc]
      exact pure hm'
    · rw [if_pos hc, if_neg hc]
      exact skip hm'
  case loadNil =>
    cases he
    exact clear h (by omega)
  case not =>
    cases he
    exact read h hfits.2 (write 0 h hfits.1)
  case jmp =>
    split at he
    · next hcond =>
      cases he
      show Performs f rest (if i.a.val ≠ 0 then do Exec.close _; Exec.jump i.sbx else Exec.jump i.sbx) m _
      rw [if_neg (not_not_intro hcond.1)]
      exact jump h (Int.toNat_of_nonneg hcond.2).symm
    · cases he
  case eq => exact compare h hfits.1 hfits.2 he
  case lt => exact compare h hfits.1 hfits.2 he
  case le => exact compare h hfits.1 hfits.2 he
  case test =>
    cases he
    have hend : Performs f rest (Exec.skipUnless (!(s.regs i.a.val).isFalsy) (i.c.val ≠ 0)) m
        (.ok (s.past (if (s.regs i.a.val).isFalsy = (i.c.val ≠ 0 : Bool) then 2 else 1))) := by
      have hskip := skipUnless (!(s.regs i.a.val).isFalsy) (i.c.val ≠ 0) h
      cases hv : (s.regs i.a.val).isFalsy <;> cases hc : (decide (i.c.val ≠ 0) : Bool) <;> rw [hv, hc] at hskip <;>
        exact hskip
    exact read h hfits hend
  case testSet =>
    cases he
    have hbne : (i.c.val != 0) = (i.c.val ≠ 0 : Bool) := by
      rw [Bool.eq_iff_iff, bne_iff_ne, decide_eq_true_iff]
    have hend : Performs f rest (if (s.regs i.b.val).isFalsy == (i.c.val != 0) then Exec.skip
          else Exec.write (f.base + i.a.val) (s.regs i.b.val)) m
        (.ok (if (s.regs i.b.val).isFalsy = (i.c.val ≠ 0 : Bool) then s.past 2 else s.put i.a.val (s.regs i.b.val))) := by
      simp only [hbne, beq_iff_eq]
      by_cases hc : (s.regs i.b.val).isFalsy = (i.c.val ≠ 0 : Bool)
      · rw [if_pos hc, if_pos hc]
        exact skip h
      · rw [if_neg hc, if_neg hc]
        exact write 0 h hfits.1
    exact read h hfits.2 hend

end Performs

theorem execute_plain {g : Frame} {i : Instr} {r : Except Clash Spot} (hi : f.proto.code[s.pc]? = some i)
    (he : f.proto.effect? s = some r) :
    Exec.execute g i = (do Exec.plain g i i.opcode; return .run) := by
  unfold Exec.execute
  cases ho : i.opcode <;> simp only [Proto.effect?, hi, ho, Op.order?, reduceCtorEq] at he <;> rfl

theorem fetch_ok {i : Instr} (hb : m.limits.budget = none) (hx : m.limits.expired = false) (hf : m.frames = f :: rest)
    (hi : f.proto.code[f.pc]? = some i) :
    Exec.fetch m = .ok ({ f with pc := f.pc + 1 }, i)
      { m with executed := m.executed + 1, frames := { f with pc := f.pc + 1 } :: rest } := by
  have hcount : Exec.count m = .ok () { m with executed := m.executed + 1 } := by
    show (if (_ : Bool) then Exec.failWith .interrupted else Pure.pure ()) { m with executed := m.executed + 1 } = _
    rw [hb, hx]
    simp only [Bool.and_false, Bool.or_false, Bool.false_eq_true, if_false]
    rfl
  unfold Exec.fetch
  rw [bind_of_ok hcount]
  rw [bind_of_ok (show (get : Exec Machine) _ = .ok _ _ from rfl)]
  simp only [hf]
  rw [bind_of_ok (show (set _ : Exec PUnit) _ = .ok _ _ from rfl)]
  simp only [Nat.add_sub_cancel, hi]
  rfl

end Exec

/-! ## 3. Steps of the machine -/

structure Limits.Endless (l : Limits) : Prop where
  budget : l.budget = none
  expired : l.expired = false

namespace Machine

open Exec

variable {m₀ m : Machine} {f : Frame} {rest : List Frame} {s s' : Spot}

structure On (m₀ : Machine) (f : Frame) (rest : List Frame) (s : Spot) (m : Machine) : Prop extends
    m.At f rest s where
  ready : m.Ready .run
  same : m₀.Same m

theorem Same.limits (h : m₀.Same m) : m.limits = m₀.limits := by
  rw [h]

theorem On.fetched {i : Instr} (h : On m₀ f rest s m) (hl : m₀.limits.Endless) (hi : f.proto.code[s.pc]? = some i) :
    ∃ m₁, Exec.fetch m = .ok ({ f with pc := s.pc + 1 }, i) m₁ ∧ m₁.At f rest (s.past 1) ∧ m.Same m₁ ∧ m₁.Whole := by
  have hlim : m.limits = m₀.limits := h.same.limits
  have hfetch := fetch_ok (by rw [hlim]; exact hl.budget) (by rw [hlim]; exact hl.expired) h.frames hi
  obtain ⟨g, rest', hrun, hin⟩ := h.ready.1.running h.ready.2
  have hmeets := fetch_meets (S := False) hrun hin
  unfold Meets at hmeets
  rw [hfetch] at hmeets
  exact ⟨_, hfetch, ⟨rfl, h.top, h.regs⟩, rfl, hmeets.2.2.1.toWhole⟩

theorem code_of_effect {p : Proto} {r : Except Clash Spot} (he : p.effect? s = some r) :
    ∃ i, p.code[s.pc]? = some i := by
  unfold Proto.effect? at he
  split at he
  · cases he
  · next i hi => exact ⟨i, hi⟩

theorem step_of_fetch {m₁ : Machine} {g : Frame} {i : Instr} (hfetch : Exec.fetch m = .ok (g, i) m₁) :
    m.step .run = ofExec (Exec.execute g i) m₁ := by
  unfold Machine.step ofExec
  rw [bind_of_ok hfetch]

theorem step_of_ok {m₁ m' : Machine} {g : Frame} {i : Instr} {mode : Mode} (hfetch : Exec.fetch m = .ok (g, i) m₁)
    (hexec : Exec.execute g i m₁ = .ok mode m') : m.step .run = .more m' mode := by
  rw [step_of_fetch hfetch]
  unfold ofExec
  rw [hexec]

/-- **A step with an effect**: the machine is ready to go on where the effect says. -/
theorem On.step (h : On m₀ f rest s m) (hl : m₀.limits.Endless) (hp : f.proto.Sound)
    (he : f.proto.effect? s = some (.ok s')) : ∃ m', m.step .run = .more m' .run ∧ On m₀ f rest s' m' := by
  obtain ⟨i, hi⟩ := code_of_effect he
  obtain ⟨m₁, hfetch, hat1, hsame1, _⟩ := h.fetched hl hi
  obtain ⟨m', hplain, hat', hsame'⟩ := Performs.plain hat1 hi (hp.fits _ i hi) he
  have hstep : m.step .run = .more m' .run := by
    refine step_of_ok hfetch ?_
    rw [execute_plain hi he, bind_of_ok hplain]
    rfl
  have hkeeps := step_keeps h.ready
  rw [hstep] at hkeeps
  exact ⟨m', hstep, hat', hkeeps.1, (h.same.trans hsame1).trans hsame'⟩

theorem On.clash {c : Clash} (h : On m₀ f rest s m) (hl : m₀.limits.Endless) (hp : f.proto.Sound)
    (he : f.proto.effect? s = some (.error c)) :
    ∃ m' place, m.step .run = .more m' (.raise (.runtime place (.compare c.1 c.2))) ∧
      m'.Ready (.raise (.runtime place (.compare c.1 c.2))) ∧ m'.At f rest (s.past 1) ∧ m₀.Same m' := by
  obtain ⟨i, hi⟩ := code_of_effect he
  obtain ⟨m₁, hfetch, hat1, hsame1, _⟩ := h.fetched hl hi
  obtain ⟨place, hplain⟩ := Performs.plain hat1 hi (hp.fits _ i hi) he
  have hstep : m.step .run = .more m₁ (.raise (.runtime place (.compare c.1 c.2))) := by
    have hexec : Exec.execute { f with pc := s.pc + 1 } i m₁ = .error (.fault (.runtime place (.compare c.1 c.2))) m₁ := by
      rw [execute_plain hi he]
      show EStateM.bind (Exec.plain _ i i.opcode) _ m₁ = _
      rw [EStateM.bind, hplain]
    rw [step_of_fetch hfetch]
    unfold ofExec
    rw [hexec]
  have hkeeps := step_keeps h.ready
  rw [hstep] at hkeeps
  exact ⟨m₁, place, hstep, hkeeps.1, hat1, h.same.trans hsame1⟩

/-! ## 4. Runs -/

inductive Goes (P : Machine → Mode → Prop) : Machine → Mode → Machine → Mode → Prop where
  | refl {m : Machine} {mode : Mode} (h : P m mode) : Goes P m mode m mode
  | step {m m₁ m' : Machine} {mode mode₁ mode' : Mode} (h : P m mode) (hs : m.step mode = .more m₁ mode₁)
      (hg : Goes P m₁ mode₁ m' mode') : Goes P m mode m' mode'

theorem Reaches.head {m₀ m : Machine} {mode0 mode : Mode} (h : Reaches m₀ mode0 m mode) :
    (m = m₀ ∧ mode = mode0) ∨
      ∃ m₁ mode1, m₀.step mode0 = .more m₁ mode1 ∧ Reaches m₁ mode1 m mode := by
  induction h with
  | start => exact .inl ⟨rfl, rfl⟩
  | step _ hs ih =>
    rcases ih with ⟨rfl, rfl⟩ | ⟨m₁, mode1, hfirst, hr⟩
    · exact .inr ⟨_, _, hs, .start⟩
    · exact .inr ⟨m₁, mode1, hfirst, .step hr hs⟩

namespace Goes

variable {P : Machine → Mode → Prop} {m' m'' : Machine} {mode mode' mode'' : Mode}

theorem snoc (h : Goes P m mode m' mode') (hs : m'.step mode' = .more m'' mode'') (hp : P m'' mode'') :
    Goes P m mode m'' mode'' := by
  induction h with
  | refl h => exact .step h hs (.refl hp)
  | step h hfirst _ ih => exact .step h hfirst (ih hs)

theorem ends {o : Outcome} (h : Goes P m mode m' mode') (hd : m'.step mode' = .done m'' o) :
    (∃ n, ∀ fuel, n ≤ fuel → runFor fuel m mode = (m'', o)) ∧
      ∀ m₁ mode1, Reaches m mode m₁ mode1 → P m₁ mode1 := by
  induction h with
  | refl hp =>
    refine ⟨⟨1, fun fuel hle => ?_⟩, fun m₁ mode1 hr => ?_⟩
    · obtain ⟨k, rfl⟩ := Nat.exists_eq_add_of_le' hle
      rw [runFor, hd]
    · rcases hr.head with ⟨rfl, rfl⟩ | ⟨_, _, hs, _⟩
      · exact hp
      · rw [hd] at hs
        cases hs
  | step hp hs _ ih =>
    obtain ⟨⟨n, hn⟩, hall⟩ := ih hd
    refine ⟨⟨n + 1, fun fuel hle => ?_⟩, fun m₁ mode1 hr => ?_⟩
    · obtain ⟨k, rfl⟩ := Nat.exists_eq_add_of_le' (Nat.le_trans (Nat.le_add_left 1 n) hle)
      rw [runFor, hs]
      exact hn k (Nat.le_of_succ_le_succ hle)
    · rcases hr.head with ⟨rfl, rfl⟩ | ⟨_, _, hs', hr'⟩
      · exact hp
      · rw [hs] at hs'
        cases hs'
        exact hall m₁ mode1 hr'

end Goes

end Machine

section

open Machine

variable {P : Machine → Mode → Prop} {m₀ m : Machine} {f : Frame} {rest : List Frame} {s s' : Spot} {low : Nat}
  {vals : Nat → Value} (hl : m₀.limits.Endless) (hp : f.proto.Sound)
  (hP : ∀ s m, On m₀ f rest s m → (∀ r < low, s.regs r = vals r) → P m .run)

include hl hp hP

/-- **A way through the code is a run of the machine**, through states with the values below the bound in
    their registers. -/
theorem Proto.Path.goes (hpath : f.proto.Path low s s') (h : On m₀ f rest s m) (hv : ∀ r < low, s.regs r = vals r) :
    ∃ m', On m₀ f rest s' m' ∧ Goes P m .run m' .run := by
  induction hpath generalizing m with
  | refl s => exact ⟨m, h, .refl (hP _ _ h hv)⟩
  | step he hk _ ih =>
    obtain ⟨m₁, hstep, h1⟩ := h.step hl hp he
    obtain ⟨m', h', hgoes⟩ := ih h1 fun r hr => (hk r hr).trans (hv r hr)
    exact ⟨m', h', .step (hP _ _ h hv) hstep hgoes⟩

theorem Proto.Fails.goes {c : Clash} (hfails : f.proto.Fails low s c) (h : On m₀ f rest s m)
    (hv : ∀ r < low, s.regs r = vals r)
    (hE : ∀ s m e, m.At f rest s → (∀ r < low, s.regs r = vals r) → P m (.raise e)) :
    ∃ m' place, m'.Ready (.raise (.runtime place (.compare c.1 c.2))) ∧ m₀.Same m' ∧
      Goes P m .run m' (.raise (.runtime place (.compare c.1 c.2))) := by
  obtain ⟨s1, hpath, he⟩ := hfails
  obtain ⟨m₁, h1, hgoes⟩ := hpath.goes hl hp hP h hv
  obtain ⟨m', place, hstep, hready, hat, hsame⟩ := h1.clash hl hp he
  have hv1 : ∀ r < low, (s1.past 1).regs r = vals r := fun r hr => (hpath.keeps r hr).trans (hv r hr)
  exact ⟨m', place, hready, hsame, hgoes.snoc hstep (hE _ _ _ hat hv1)⟩

end

end LuaMachine
