/-
  THE INSTRUCTION BUDGET. Each instruction is counted once, and nothing else touches the count; the first
  instruction beyond the budget interrupts the run. An interruption ends all activations, whatever they are
  for. Between two instructions there are only so many other steps, so every call with a budget ends.

  * `Within.step` -- **what one step does to it**; `Reaches.interrupted` -- an interruption is final;
  * `budget_kept` -- **what every call with a budget comes to**.
-/
import LuaMachine.Proofs.Machine.Footing
import LuaMachine.Proofs.Machine.Restore

namespace LuaMachine

/-! ## 1. The count -/

def Limits.Allow (l : Limits) (n : Nat) : Prop := l.budget = some n ∧ l.expired = false

def Mode.cost : Mode → Nat
  | .run => 1
  | _ => 0

def Mode.isInterrupted : Mode → Bool
  | .raise e => !e.isCatchable
  | _ => false

theorem Failure.eq_interrupted {e : Failure} (h : e.isCatchable = false) : e = .interrupted := by
  cases e <;> first | rfl | cases h

theorem Mode.eq_interrupted {mode : Mode} (h : mode.isInterrupted = true) : mode = .raise .interrupted := by
  cases mode with
  | raise e => rw [Failure.eq_interrupted (e := e) (by simpa [isInterrupted] using h)]
  | run | host | deliver => cases h

namespace Machine

def SameCount (m m' : Machine) : Prop := m'.executed = m.executed ∧ m'.limits = m.limits

theorem sameCount_wide : Exec.Wide SameCount where
  trans h h' := ⟨h'.1.trans h.1, h'.2.trans h.2⟩
  quiet _ _ _ _ := ⟨rfl, rfl⟩
  newClosed _ _ := ⟨rfl, rfl⟩
  stack _ _ := ⟨rfl, rfl⟩
  top _ _ := ⟨rfl, rfl⟩
  frames _ _ _ := ⟨rfl, rfl⟩
  setClosed _ _ _ _ _ := ⟨rfl, rfl⟩
  captured _ _ _ := ⟨rfl, rfl⟩
  closing _ _ _ := ⟨rfl, rfl⟩
  ending _ _ := ⟨rfl, rfl⟩

theorem sameCount_unactivated : Exec.Unactivated SameCount := fun _ _ => ⟨rfl, rfl⟩

structure Within (n : Nat) (m : Machine) (mode : Mode) : Prop where
  allow : m.limits.Allow n
  executed : mode.isInterrupted = false ∧ m.executed ≤ n ∨ mode.isInterrupted = true ∧ m.executed = n + 1

end Machine

namespace Exec

variable {m : Machine} {n : Nat}

open Machine (SameCount)

theorem count_ok (h : m.limits.Allow n) (hlt : m.executed < n) :
    count m = .ok () { m with executed := m.executed + 1 } := by
  have hspent : (n < m.executed + 1) = False := eq_false (Nat.not_lt.mpr hlt)
  unfold count
  rw [bind_of_ok (show (get : Exec Machine) m = .ok m m from rfl)]
  simp only [h.1, h.2, hspent, decide_false, Bool.and_false, Bool.or_false, Bool.false_eq_true, if_false]
  rfl

theorem count_spent (h : m.limits.Allow n) (hle : n ≤ m.executed) :
    count m = .error (.fault .interrupted) { m with executed := m.executed + 1 } := by
  have hspent : (n < m.executed + 1) = True := eq_true (Nat.lt_succ_of_le hle)
  unfold count
  rw [bind_of_ok (show (get : Exec Machine) m = .ok m m from rfl)]
  simp only [h.1, hspent, decide_true, Bool.true_or, if_true]
  rfl

theorem counted_along (m : Machine) (n : Nat) (hcount : count m = .ok () { m with executed := n }) :
    Meets True (fun e m' => e.isCatchable = true ∧ SameCount { m with executed := n } m')
      (do let (f, i) ← fetch; execute f i) m fun _ m' => SameCount { m with executed := n } m' := by
  have hexec : ∀ (f : Frame) (i : Instr) (m1 : Machine), SameCount { m with executed := n } m1 →
      Meets True (fun e m' => e.isCatchable = true ∧ SameCount { m with executed := n } m') (execute f i) m1
        fun _ m' => SameCount { m with executed := n } m' := fun f i m1 h1 =>
    Meets.imp (Machine.sameCount_wide.execute_along i m1)
      (fun _ _ h => ⟨h.1, Machine.sameCount_wide.trans h1 h.2⟩) fun _ _ h => Machine.sameCount_wide.trans h1 h
  refine Meets.bind (Meets.bind (Meets.of_ok hcount (Meets.get ?_)))
  split
  · trivial
  · next f rest _ =>
    refine Meets.set ?_
    split
    · exact hexec _ _ _ ⟨rfl, rfl⟩
    · exact ⟨rfl, rfl, rfl⟩

end Exec

/-! ## 2. What operations lead to -/

def isPiece (vs : List Value) : Bool :=
  match vs.headD .nil with
  | .str (_ :: _) => true
  | _ => false

/-- A bound for the steps that are made in a mode before the next instruction, `n` activations being
    under way. A call by a library function has one argument less than the function, but an activation
    more; what a reader gives may be followed by another call of the reader, if it is a piece. -/
def Mode.weight (n : Nat) : Mode → Nat
  | .run => 0
  | .raise _ => 4 * n
  | .deliver vs => 4 * n + if isPiece vs then 3 else 1
  | .host _ args _ => 4 * n + 10 * args.length + 2

namespace Exec

variable {α β : Type} {x : Exec α} {k : α → Exec β} {m : Machine} {w : Nat}

def Gives (P : α → Prop) (x : Exec α) : Prop := ∀ m, Meets True (fun _ _ => True) x m fun a _ => P a

namespace Gives

theorem bind {P : β → Prop} (hk : ∀ a, Gives P (k a)) : Gives P (x >>= k) := fun m =>
  Meets.bind <| by
    unfold Meets
    split
    · exact hk _ _
    · trivial
    · trivial

theorem pure {P : α → Prop} {a : α} (h : P a) : Gives P (Pure.pure a) := fun _ => h

theorem failWith {P : α → Prop} (e : Failure) : Gives P (failWith e) := fun _ => trivial

theorem fail {P : α → Prop} (e : RuntimeFault) : Gives P (fail e) := fun _ => trivial

theorem afterFail {P : β → Prop} (e : RuntimeFault) : Gives P (Exec.fail e >>= k) := fun _ => trivial

end Gives

theorem endCall_gives (vs : List Value) : Gives (fun mode => mode = .run ∨ mode = .deliver vs) (endCall vs) := by
  unfold endCall
  refine .bind fun m => ?_
  split
  · exact .pure (.inr rfl)
  · refine .bind fun _ => ?_
    split <;> split <;> first | exact .pure (.inr rfl) | exact .bind fun _ => .pure (.inl rfl)

theorem finish_gives (ret : HostReturn) (vs : List Value) :
    Gives (fun mode => mode = .run ∨ mode = .deliver vs) (finish ret vs) := by
  cases ret with
  | place dest wanted => exact .bind fun _ => .pure (.inl rfl)
  | tail base => exact .bind fun _ => endCall_gives vs
  | answer => exact .pure (.inr rfl)

theorem failCall_gives {P : Mode → Prop} (slot : Nat) (v : Value) : Gives P (failCall slot v) :=
  .bind fun m => by
    split
    · split
      · exact .fail _
      · exact .failWith _
    · exact .failWith _

theorem readMany_gives (start n : Nat) : Gives (fun vs => vs.length = n) (readMany start n) :=
  .bind fun m => by
    split
    · refine .pure ?_
      rw [Array.length_toList, Array.size_extract]
      omega
    · exact fun _ => trivial

theorem beginCall_gives (slot nargs : Nat) (wanted : Option Nat) (ret : HostReturn) :
    Gives (fun mode => mode = .run ∨ ∃ h args, mode = .host h args ret ∧ args.length = nargs)
      (beginCall slot nargs wanted ret) := by
  refine .bind fun v => ?_
  split
  · refine .bind fun m => .bind fun fn => ?_
    split
    · exact fun m => Meets.bind (Meets.imp (readMany_gives (slot + 1) nargs m) (fun _ _ h => h)
        fun args _ hlen => .inr ⟨_, args, rfl, hlen⟩)
    · split
      · exact .failWith _
      · exact .bind fun _ => .pure (.inl rfl)
  · exact failCall_gives _ _

theorem execute_gives (f : Frame) (i : Instr) : Gives (fun mode => mode.isInterrupted = false) (execute f i) := by
  have hbegin : ∀ slot nargs wanted ret, Gives (fun mode => mode.isInterrupted = false)
      (beginCall slot nargs wanted ret) := fun slot nargs wanted ret m =>
    Meets.imp (beginCall_gives slot nargs wanted ret m) (fun _ _ h => h) fun mode _ h => by
      obtain rfl | ⟨_, _, rfl, _⟩ := h <;> rfl
  unfold execute
  split
  · exact .bind fun _ => hbegin _ _ _ _
  · refine .bind fun nargs => .bind fun v => ?_
    split
    · refine .bind fun m => .bind fun fn => ?_
      split
      · exact .bind fun _ => .pure rfl
      · exact .bind fun _ => .bind fun _ => .bind fun _ => hbegin _ _ _ _
    · exact failCall_gives _ _
  · refine .bind fun _ => .bind fun vs => .bind fun _ m => ?_
    exact Meets.imp (endCall_gives vs m) (fun _ _ h => h) fun mode _ h => by
      obtain rfl | rfl := h <;> rfl
  · refine .bind fun _ => .bind fun _ => .bind fun _ => .bind fun _ => .bind fun _ => .bind fun _ => ?_
    exact hbegin _ _ _ _
  · exact .bind fun _ => .pure rfl

/-- **Without arguments no library function gives a piece of a chunk**, so that a reader which never
    ends is a function of the script. -/
theorem simple_gives (h : HostFn) : Gives (fun vs => isPiece vs = false) (simple h []) := by
  unfold simple
  cases h <;> dsimp only
  case print => exact .bind fun _ => .pure rfl
  case type | tostring | rawequal => exact .afterFail _
  case tonumber => exact .afterFail _
  case ipairs | pairs | ipairsStep | next | rawget | rawset => exact .afterFail _
  case select => exact .afterFail _
  case rawlen => exact .fail _
  case assert => exact .afterFail _
  case error => exact .bind fun _ => .bind fun m => .failWith _
  case unpack => exact .afterFail _
  case collectgarbage =>
    refine .bind fun option => ?_
    split <;> first | exact .pure rfl | exact .fail _
  case pcall | load => exact .pure rfl

/-! ## 3. Steps between two instructions -/

def Lighter (w : Nat) (x : Exec Mode) (m : Machine) : Prop :=
  Meets True (fun _ m' => 4 * m'.activations.length < w) x m fun mode m' => mode.weight m'.activations.length < w

theorem sameActivations_wide : Wide fun m m' => m'.activations = m.activations where
  trans h h' := h'.trans h
  quiet _ _ _ _ := rfl
  newClosed _ _ := rfl
  stack _ _ := rfl
  top _ _ := rfl
  frames _ _ _ := rfl
  setClosed _ _ _ _ _ := rfl
  captured _ _ _ := rfl
  closing _ _ _ := rfl
  ending _ _ := rfl

theorem Lighter.after {k : α → Exec Mode} {P : α → Prop} (hx : Along (fun m m' => m'.activations = m.activations) x)
    (hP : Gives P x) (hw : 4 * m.activations.length < w)
    (hk : ∀ a m', P a → m'.activations = m.activations → Lighter w (k a) m') : Lighter w (x >>= k) m :=
  Meets.bind (Meets.imp ((hx m).and (hP m)) (fun _ _ ⟨⟨_, h⟩, _⟩ => by rwa [h]) fun a m' ⟨h, ha⟩ => hk a m' ha h)

theorem Gives.any (x : Exec α) : Gives (fun _ => True) x := fun m => by
  unfold Meets
  split <;> trivial

theorem finish_lighter (ret : HostReturn) (vs : List Value)
    (hw : (Mode.deliver vs).weight m.activations.length < w) : Lighter w (finish ret vs) m := by
  have hle : 4 * m.activations.length < w := Nat.lt_of_le_of_lt (Nat.le_add_right _ _) hw
  refine Meets.imp ((sameActivations_wide.finish ret vs m).and (finish_gives ret vs m))
    (fun _ _ ⟨⟨_, h⟩, _⟩ => by rwa [h]) fun mode m' ⟨h, hmode⟩ => ?_
  obtain rfl | rfl := hmode
  · exact Nat.zero_lt_of_lt hle
  · rwa [h]

theorem settleFailure_lighter (purpose : Purpose) (e : Failure) (hw : 4 * m.activations.length + 1 < w) :
    Lighter w (settleFailure purpose e) m := by
  have hle : 4 * m.activations.length < w := Nat.lt_of_succ_lt hw
  unfold settleFailure
  split
  · split
    · exact finish_lighter _ _ hw
    · exact hle
  · exact hle

theorem activate_lighter (f : Value) (args : List Value) (purpose : Purpose)
    (hw : 4 * (m.activations.length + 1) + 10 * args.length + 2 < w) : Lighter w (activate f args purpose) m := by
  have hle : 4 * m.activations.length + 1 < w := by omega
  unfold activate
  refine Meets.get ?_
  split
  · exact settleFailure_lighter _ _ hle
  · refine Lighter.after (sameActivations_wide.ensure _) (.any _) (by omega) fun _ m1 _ h1 => ?_
    refine Lighter.after (sameActivations_wide.writeMany _ _) (.any _) (by rw [h1]; omega) fun _ m2 _ h2 => ?_
    refine Meets.bind ?_
    show Meets _ _ (beginCall m.frameTop args.length none .answer)
      { m2 with activations := ⟨m2.frames.length, m.frameTop, m2.top, purpose⟩ :: m2.activations } _
    refine Meets.imp ((sameActivations_wide.beginCall_along _ _ _ _ _).and (beginCall_gives _ _ _ _ _))
      (fun _ m' ⟨⟨_, h⟩, _⟩ => ?_) fun mode m' ⟨h, hmode⟩ => ?_
    all_goals rw [h, List.length_cons, h2, h1]
    · omega
    · obtain rfl | ⟨_, vs, rfl, hlen⟩ := hmode
      · exact Nat.zero_lt_of_lt hle
      · show 4 * (m.activations.length + 1) + 10 * vs.length + 2 < w
        rwa [hlen]

theorem weight_deliver_le (n : Nat) (vs : List Value) : (Mode.deliver vs).weight n ≤ 4 * n + 3 := by
  show 4 * n + (if isPiece vs then 3 else 1) ≤ 4 * n + 3
  split <;> omega

theorem host_lighter (h : HostFn) (args : List Value) (ret : HostReturn) :
    Lighter ((Mode.host h args ret).weight m.activations.length) (host h args ret) m := by
  have hweight : (Mode.host h args ret).weight m.activations.length = 4 * m.activations.length + 10 * args.length + 2 := rfl
  rw [hweight]
  have hle : 4 * m.activations.length < 4 * m.activations.length + 10 * args.length + 2 := by omega
  have hsimple : ∀ h, Lighter (4 * m.activations.length + 10 * args.length + 2)
      (do finish ret (← simple h args)) m := by
    intro h
    cases args with
    | nil =>
      refine .after sameActivations_wide.simple_along (simple_gives h) hle fun vs m' hvs hm' => finish_lighter _ _ ?_
      rw [hm', Mode.weight, hvs]
      exact Nat.lt_succ_self _
    | cons v args =>
      refine .after sameActivations_wide.simple_along (.any _) hle fun vs m' _ hm' => finish_lighter _ _ ?_
      have := weight_deliver_le m.activations.length vs
      rw [hm', List.length_cons]
      omega
  unfold host
  split
  · cases args with
    | nil => exact hle
    | cons f args =>
      refine activate_lighter f _ _ ?_
      simp only [List.drop_succ_cons, List.drop_zero, List.length_cons]
      omega
  · unfold loadFrom
    cases args with
    | nil => exact hle
    | cons v args =>
      have hload : ∀ chunk name, Lighter (4 * m.activations.length + 10 * (v :: args).length + 2)
          (do finish ret (← loadWith chunk name (v :: args))) m := fun chunk name =>
        .after (sameActivations_wide.loadWith _ _) (.any _) hle fun vs m' _ hm' => finish_lighter _ _ <| by
          have := weight_deliver_le m.activations.length vs
          rw [hm', List.length_cons]
          omega
      split
      · exact hload _ _
      · refine activate_lighter _ _ _ ?_
        rw [List.length_nil, List.length_cons]
        omega
      · exact hle
  · exact hsimple _

theorem loadWith_gives (chunk : Bytes) (name : String) (args : List Value) :
    Gives (fun vs => isPiece vs = false) (loadWith chunk name args) := by
  have hchunk : ∀ name env, Gives (fun r : Except Failure Value => ∀ v, r = .ok v → isPiece [v] = false)
      (loadChunk chunk name env) := by
    intro name env
    unfold loadChunk
    split
    · next p _ =>
      have hmain : Gives (fun v => isPiece [v] = false) (ofMain p env) :=
        .bind fun cells m => (rfl : isPiece [.function m.functions.size] = false)
      refine fun m => Meets.bind (Meets.imp (hmain m) (fun _ _ h => h) fun v _ h => ?_)
      rintro _ ⟨⟩
      exact h
    · exact .pure nofun
  unfold loadWith
  extract_lets named
  have hnamed : ∀ name : String, Gives (fun vs => isPiece vs = false) (named name) := fun name =>
    .bind fun mode => by
      split
      split
      · exact .pure rfl
      · refine .bind fun m m' => Meets.bind (Meets.imp (hchunk name _ m') (fun _ _ h => h) fun r m'' hr => ?_)
        split
        · exact hr _ rfl
        · exact (rfl : isPiece [.nil, _] = false)
  split
  · exact .bind fun _ => hnamed _
  · exact .bind fun _ => .bind fun _ => hnamed _

theorem settleResults_lighter (purpose : Purpose) (vs : List Value) (hp : purpose ≠ .outermost) :
    Lighter ((Mode.deliver vs).weight (m.activations.length + 1)) (settleResults purpose vs) m := by
  have hweight : 4 * m.activations.length + 4 < (Mode.deliver vs).weight (m.activations.length + 1) := by
    show _ < 4 * (m.activations.length + 1) + (if isPiece vs then 3 else 1)
    split <;> omega
  have hfinish : ∀ ret vs', isPiece vs' = false →
      Lighter ((Mode.deliver vs).weight (m.activations.length + 1)) (finish ret vs') m := fun ret vs' h' => by
    refine finish_lighter _ _ ?_
    rw [Mode.weight, h']
    exact Nat.lt_of_le_of_lt (Nat.add_le_add_left (by decide) _) hweight
  cases purpose with
  | outermost => exact (hp rfl).elim
  | guarded ret => exact hfinish ret _ rfl
  | reading pieces args ret =>
    have hwhole : ∀ chunk name, Lighter ((Mode.deliver vs).weight (m.activations.length + 1))
        (do finish ret (← loadWith chunk name args)) m := fun chunk name =>
      Lighter.after (sameActivations_wide.loadWith _ _) (loadWith_gives _ _ _) (by omega) fun vs' m' hvs hm' =>
        finish_lighter _ _ <| by
          rw [hm', Mode.weight, hvs]
          exact Nat.lt_of_le_of_lt (Nat.add_le_add_left (by decide) _) hweight
    show Lighter _ (pieceRead pieces args ret vs) m
    unfold pieceRead
    dsimp only
    split
    · exact hwhole _ _
    · exact hwhole _ _
    · next s hempty hs =>
      refine activate_lighter _ _ _ ?_
      have hpiece : isPiece vs = true := by
        unfold isPiece
        rw [hs]
        cases s with
        | nil => exact (hempty rfl).elim
        | cons b s => rfl
      rw [Mode.weight, hpiece, List.length_nil]
      exact Nat.lt_succ_self _
    · exact hfinish _ _ rfl

end Exec

namespace Machine

variable {n : Nat} {m m' : Machine} {mode mode' : Mode} {o : Outcome}

theorem ofExec_lighter {x : Exec Mode} {w : Nat} (hx : Exec.Lighter w x m) (h : ofExec x m = .more m' mode') :
    mode'.weight m'.activations.length < w :=
  ofExec_more hx (fun _ _ h => h) h

theorem unwind_activations {a : Activation} {rest : List Activation} (h : unwind a rest m = .ok () m') :
    m'.activations = rest := by
  have hclosed := Exec.sameActivations_wide.close a.slot { m with activations := rest }
  have hmeets : Exec.Meets True (fun _ _ => True) (unwind a rest) m fun _ m' => m'.activations = rest :=
    Exec.Meets.bind (Exec.Meets.of_ok rfl
      (Exec.Meets.bind (hclosed.imp (fun _ _ _ => trivial) fun _ _ hrest => hrest)))
  rw [Exec.Meets, h] at hmeets
  exact hmeets

/-- **Every step but an instruction leads to something lighter.** -/
theorem step_shrinks (hmode : mode ≠ .run) (h : m.step mode = .more m' mode') :
    mode'.weight m'.activations.length < mode.weight m.activations.length := by
  cases mode with
  | run => exact (hmode rfl).elim
  | host fn args ret => exact ofExec_lighter (Exec.host_lighter fn args ret) h
  | deliver vs =>
    cases ha : m.activations with
    | nil =>
      simp only [step, ha] at h
      cases h
    | cons a rest =>
      rw [step_deliver_eq ha] at h
      split at h
      · cases h
      · next p hp => exact ofExec_lighter (Exec.settleResults_lighter (m := leave a rest m) a.purpose vs hp) h
  | raise e =>
    cases ha : m.activations with
    | nil =>
      simp only [step, ha] at h
      cases h
    | cons a rest =>
      rw [step_raise_eq ha] at h
      split at h
      · cases h
      · next m1 hu =>
        split at h
        · cases h
        · refine ofExec_lighter (Exec.settleFailure_lighter a.purpose e ?_) h
          rw [unwind_activations hu]
          show _ < 4 * (rest.length + 1)
          omega

/-! ## 4. Interruption -/

theorem sameCount_trans {m1 m2 m3 : Machine} : SameCount m1 m2 → SameCount m2 m3 → SameCount m1 m3 :=
  sameCount_wide.trans

end Machine

namespace Exec

open Machine (SameCount sameCount_wide sameCount_unactivated)

variable {m : Machine} {h : HostFn} {args : List Value} {ret : HostReturn}

def Proceeds (x : Exec Mode) : Prop := Gives (fun mode => mode.isInterrupted = false) x

theorem finish_proceeds (vs : List Value) : Proceeds (finish ret vs) := fun m =>
  Meets.imp (finish_gives ret vs m) (fun _ _ h => h) fun mode _ h => by
    obtain rfl | rfl := h <;> rfl

theorem settleFailure_proceeds (purpose : Purpose) (e : Failure) : Proceeds (settleFailure purpose e) := by
  unfold settleFailure
  split
  · split
    · exact finish_proceeds _
    · exact .failWith _
  · exact .failWith _

theorem activate_proceeds (f : Value) (purpose : Purpose) : Proceeds (activate f args purpose) := by
  refine .bind fun m => ?_
  split
  · exact settleFailure_proceeds _ _
  · refine .bind fun _ => .bind fun _ => .bind fun _ m => ?_
    exact Meets.imp (beginCall_gives _ _ _ _ m) (fun _ _ h => h) fun mode _ h => by
      obtain rfl | ⟨_, _, rfl, _⟩ := h <;> rfl

theorem host_proceeds : Proceeds (host h args ret) := by
  unfold host
  split
  · exact .bind fun _ => activate_proceeds _ _
  · unfold loadFrom
    split
    · exact .bind fun _ => finish_proceeds _
    · exact activate_proceeds _ _
    · exact .fail _
  · exact .bind fun _ => finish_proceeds _

theorem settleResults_proceeds (purpose : Purpose) (vs : List Value) : Proceeds (settleResults purpose vs) := by
  cases purpose with
  | outermost => exact .pure rfl
  | guarded ret => exact finish_proceeds _
  | reading pieces args ret =>
    show Proceeds (pieceRead pieces args ret vs)
    unfold pieceRead
    dsimp only
    split
    · exact .bind fun _ => finish_proceeds _
    · exact .bind fun _ => finish_proceeds _
    · exact activate_proceeds _ _
    · exact finish_proceeds _

end Exec

namespace Machine

variable {n : Nat} {m m' : Machine} {mode mode' : Mode} {o : Outcome}

theorem ofExec_sameCount {x : Exec Mode} (hx : Exec.Along SameCount x) (hg : Exec.Proceeds x)
    (h : ofExec x m = .more m' mode') : SameCount m m' ∧ mode'.isInterrupted = false := by
  refine ofExec_more ((hx m).and (hg m)) (fun e m' ⟨⟨he, hs⟩, _⟩ => ⟨hs, ?_⟩) h
  show (!e.isCatchable) = false
  rw [he]
  rfl

theorem unwind_sameCount {a : Activation} {rest : List Activation} (h : unwind a rest m = .ok () m') :
    SameCount m m' := by
  have hx := sameCount_wide.unwind sameCount_unactivated a rest m
  unfold Exec.Meets at hx
  rwa [h] at hx

/-- **No step but an instruction counts, or begins an interruption, or ends one.** -/
theorem step_sameCount (hmode : mode ≠ .run) (h : m.step mode = .more m' mode') :
    SameCount m m' ∧ mode'.isInterrupted = mode.isInterrupted := by
  cases mode with
  | run => exact (hmode rfl).elim
  | host fn args ret =>
    exact ofExec_sameCount (sameCount_wide.host_along sameCount_unactivated fn) Exec.host_proceeds h
  | deliver vs =>
    cases ha : m.activations with
    | nil =>
      simp only [step, ha] at h
      cases h
    | cons a rest =>
      rw [step_deliver_eq ha] at h
      split at h
      · cases h
      · exact ofExec_sameCount (m := leave a rest m) (sameCount_wide.settleResults sameCount_unactivated _ _)
          (Exec.settleResults_proceeds _ _) h
  | raise e =>
    cases ha : m.activations with
    | nil =>
      simp only [step, ha] at h
      cases h
    | cons a rest =>
      rw [step_raise_eq ha] at h
      split at h
      · cases h
      · next m1 hu =>
        have hunwound := unwind_sameCount hu
        split at h
        · cases h
        · cases hcatch : e.isCatchable with
          | true =>
            have hsettled := ofExec_sameCount (sameCount_wide.settleFailure hcatch)
              (Exec.settleFailure_proceeds _ _) h
            refine ⟨sameCount_trans hunwound hsettled.1, ?_⟩
            rw [hsettled.2, Mode.isInterrupted, hcatch]
            rfl
          | false =>
            -- whatever the activation was for, the failure goes on
            have hfails : Exec.settleFailure a.purpose e = Exec.failWith e := by
              unfold Exec.settleFailure
              split
              · rw [hcatch]
                rfl
              · rfl
            rw [hfails] at h
            cases h
            exact ⟨hunwound, rfl⟩

theorem step_run_counts (hl : m.limits.Allow n) (hlt : m.executed < n) (h : m.step .run = .more m' mode') :
    SameCount { m with executed := m.executed + 1 } m' ∧ mode'.isInterrupted = false := by
  have hgives : Exec.Proceeds (do let (f, i) ← Exec.fetch; Exec.execute f i) := .bind fun _ => Exec.execute_gives _ _
  refine ofExec_more ((Exec.counted_along m _ (Exec.count_ok hl hlt)).and (hgives m)) (fun e m' ⟨⟨he, hs⟩, _⟩ => ⟨hs, ?_⟩) h
  show (!e.isCatchable) = false
  rw [he]
  rfl

theorem step_run_interrupts (hl : m.limits.Allow n) (hle : n ≤ m.executed) :
    m.step .run = .more { m with executed := m.executed + 1 } (.raise .interrupted) := by
  have hx : (do let (f, i) ← Exec.fetch; Exec.execute f i : Exec Mode) m =
      .error (.fault .interrupted) { m with executed := m.executed + 1 } := by
    show EStateM.bind (EStateM.bind Exec.count _) _ m = _
    unfold EStateM.bind
    rw [Exec.count_spent hl hle]
  show ofExec _ m = _
  unfold ofExec
  rw [hx]

/-- **Each step keeps to the budget**, or leaves the run being interrupted. -/
theorem Within.step (h : Within n m mode) (hs : m.step mode = .more m' mode') : Within n m' mode' := by
  by_cases hmode : mode = .run
  · subst hmode
    obtain ⟨_, hle⟩ | ⟨hi, _⟩ := h.executed
    · rcases Nat.lt_or_eq_of_le hle with hlt | heq
      · obtain ⟨⟨hcount, hlimits⟩, hi⟩ := step_run_counts h.allow hlt hs
        refine ⟨by rw [hlimits]; exact h.allow, .inl ⟨hi, ?_⟩⟩
        rw [hcount]
        exact hlt
      · rw [step_run_interrupts h.allow (Nat.le_of_eq heq.symm)] at hs
        cases hs
        exact ⟨h.allow, .inr ⟨rfl, congrArg (· + 1) heq⟩⟩
    · cases hi
  · obtain ⟨⟨hcount, hlimits⟩, hi⟩ := step_sameCount hmode hs
    refine ⟨by rw [hlimits]; exact h.allow, ?_⟩
    rw [hi, hcount]
    exact h.executed

theorem Within.counts (h : Within n m mode) (hs : m.step mode = .more m' mode') :
    m'.executed = m.executed + mode.cost := by
  by_cases hmode : mode = .run
  · subst hmode
    obtain ⟨_, hle⟩ | ⟨hi, _⟩ := h.executed
    · rcases Nat.lt_or_eq_of_le hle with hlt | heq
      · exact (step_run_counts h.allow hlt hs).1.1
      · rw [step_run_interrupts h.allow (Nat.le_of_eq heq.symm)] at hs
        cases hs
        rfl
    · cases hi
  · have hcost : mode.cost = 0 := by
      cases mode <;> first | rfl | exact (hmode rfl).elim
    rw [hcost]
    exact (step_sameCount hmode hs).1.1

theorem Within.done (h : Within n m mode) (hs : m.step mode = .done m' o) :
    (∀ vs, o = .results vs → m'.executed ≤ n) ∧
      ∀ e, o = .failed e → e ≠ .interrupted ∧ m'.executed ≤ n ∨ e = .interrupted ∧ m'.executed = n + 1 := by
  refine ⟨?_, ?_⟩
  · rintro vs rfl
    cases mode with
    | run | host => cases ofExec_done hs
    | deliver vs' =>
      obtain ⟨_, hle⟩ | ⟨hi, _⟩ := h.executed
      · cases ha : m.activations with
        | nil =>
          simp only [Machine.step, ha] at hs
          cases hs
          exact hle
        | cons a rest =>
          rw [step_deliver_eq ha] at hs
          split at hs
          · cases hs
            exact hle
          · cases ofExec_done hs
      · cases hi
    | raise e =>
      cases ha : m.activations with
      | nil =>
        simp only [Machine.step, ha] at hs
        cases hs
      | cons a rest =>
        rw [step_raise_eq ha] at hs
        split at hs
        · cases hs
        · split at hs
          · cases hs
          · cases ofExec_done hs
  · rintro e rfl
    have hmode := step_failed hs
    subst hmode
    have hcount : m'.executed = m.executed := by
      cases ha : m.activations with
      | nil =>
        simp only [Machine.step, ha] at hs
        cases hs
        rfl
      | cons a rest =>
        rw [step_raise_eq ha] at hs
        split at hs
        · cases hs
        · next hu =>
          split at hs
          · cases hs
            exact (unwind_sameCount hu).1
          · cases ofExec_done hs
    rw [hcount]
    obtain ⟨hi, hle⟩ | ⟨hi, heq⟩ := h.executed
    · refine .inl ⟨?_, hle⟩
      rintro rfl
      cases hi
    · cases Mode.eq_interrupted hi
      exact .inr ⟨rfl, heq⟩

/-! ## 5. Runs -/

theorem Reaches.interrupted {m0 : Machine} (hr : Reaches m0 (.raise .interrupted) m mode) :
    mode = .raise .interrupted ∧ m.executed = m0.executed := by
  induction hr with
  | start => exact ⟨rfl, rfl⟩
  | @step m m' mode mode' _ hs ih =>
    obtain ⟨rfl, hcount⟩ := ih
    cases ha : m.activations with
    | nil =>
      simp only [Machine.step, ha] at hs
      cases hs
    | cons a rest =>
      have hmode : Mode.raise .interrupted ≠ .run := by simp
      have hsame := (step_sameCount hmode hs).1.1.trans hcount
      rw [step_raise_eq ha] at hs
      split at hs
      · cases hs
      · refine ⟨?_, hsame⟩
        split at hs
        · cases hs
        · have hfails : Exec.settleFailure a.purpose .interrupted = Exec.failWith .interrupted := by
            unfold Exec.settleFailure
            split <;> rfl
          rw [hfails] at hs
          cases hs
          rfl

theorem Reaches.within {m0 : Machine} {mode0 : Mode} (h0 : Within n m0 mode0) (hr : Reaches m0 mode0 m mode) :
    Within n m mode := by
  induction hr with
  | start => exact h0
  | step _ hs ih => exact ih.step hs

theorem step_done (h : m.step mode = .done m' o) : o ≠ .unfinished := by
  cases mode with
  | run | host =>
    rw [ofExec_done h]
    simp
  | deliver vs =>
    cases ha : m.activations with
    | nil =>
      simp only [step, ha] at h
      cases h
      simp
    | cons a rest =>
      rw [step_deliver_eq ha] at h
      split at h
      · cases h
        simp
      · rw [ofExec_done h]
        simp
  | raise e =>
    cases ha : m.activations with
    | nil =>
      simp only [step, ha] at h
      cases h
      simp
    | cons a rest =>
      rw [step_raise_eq ha] at h
      split at h
      · cases h
        simp
      · split at h
        · cases h
          simp
        · rw [ofExec_done h]
          simp

/-- **A run with a budget ends**: each instruction uses up some of the budget, and each other step leads
    to something lighter. -/
theorem Within.ends {n : Nat} {m : Machine} {mode : Mode} (h : Within n m mode) : ∃ k, ∀ fuel, k ≤ fuel → (runFor fuel m mode).2 ≠ .unfinished := by
  cases hs : m.step mode with
  | done m' o =>
    refine ⟨1, fun fuel hle => ?_⟩
    obtain ⟨fuel, rfl⟩ := Nat.exists_eq_add_of_le' hle
    unfold runFor
    rw [hs]
    exact step_done hs
  | more m' mode' =>
    obtain ⟨k, hk⟩ := (h.step hs).ends
    refine ⟨k + 1, fun fuel hle => ?_⟩
    obtain ⟨fuel, rfl⟩ := Nat.exists_eq_add_of_le' (Nat.le_trans (Nat.le_add_left 1 k) hle)
    unfold runFor
    rw [hs]
    exact hk fuel (Nat.le_of_succ_le_succ hle)
termination_by (n + 1 - m.executed, mode.weight m.activations.length)
decreasing_by
  by_cases hmode : mode = .run
  · subst hmode
    obtain ⟨_, hle⟩ | ⟨hi, _⟩ := h.executed
    · have hcount : m'.executed = m.executed + 1 := h.counts hs
      refine Prod.Lex.left _ _ ?_
      omega
    · cases hi
  · have hlighter := step_shrinks hmode hs
    rw [← (step_sameCount hmode hs).1.1]
    exact Prod.Lex.right _ hlighter

inductive Spans (m₀ : Machine) (mode₀ : Mode) : Nat → Machine → Mode → Prop where
  | start : Spans m₀ mode₀ 0 m₀ mode₀
  | step {k : Nat} {m m' : Machine} {mode mode' : Mode} (h : Spans m₀ mode₀ k m mode)
      (hs : m.step mode = .more m' mode') : Spans m₀ mode₀ (k + mode.cost) m' mode'

theorem Spans.reaches {k : Nat} {m0 : Machine} {mode0 : Mode} (h : Spans m0 mode0 k m mode) :
    Reaches m0 mode0 m mode := by
  induction h with
  | start => exact .start
  | step _ hs ih => exact .step ih hs

theorem Spans.executed {k : Nat} {m0 : Machine} {mode0 : Mode} (h0 : Within n m0 mode0) (h : Spans m0 mode0 k m mode) :
    m.executed = m0.executed + k := by
  induction h with
  | start => rfl
  | step h hs ih => rw [(h.reaches.within h0).counts hs, ih, Nat.add_assoc]

theorem Reaches.linear {m0 : Machine} {mode0 : Mode} (h : Reaches m0 mode0 m mode) (h' : Reaches m0 mode0 m' mode') :
    Reaches m mode m' mode' ∨ Reaches m' mode' m mode := by
  induction h with
  | start => exact .inl h'
  | @step m1 m2 mode1 mode2 _ hs ih =>
    obtain hafter | hbefore := ih
    · obtain ⟨rfl, rfl⟩ | ⟨m3, mode3, hs', hr⟩ := hafter.cases_head
      · exact .inr (.step .start hs)
      · rw [hs] at hs'
        cases hs'
        exact .inl hr
    · exact .inr (.step hbefore hs)

/-! ## 6. Calls -/

def CallsFor (m : Machine) (f : Value) (args : List Value) (k : Nat) (m' : Machine) (mode' : Mode) : Prop :=
  ∃ m₁ mode₁, ofExec (Exec.activate f args .outermost) { m with executed := 0 } = .more m₁ mode₁ ∧
    Spans m₁ mode₁ k m' mode'

section

variable {f : Value} {args : List Value}

theorem activate_within (hl : m.limits.Allow n)
    (h : ofExec (Exec.activate f args .outermost) { m with executed := 0 } = .more m' mode') :
    Within n m' mode' ∧ m'.executed = 0 := by
  obtain ⟨⟨hcount, hlimits⟩, hi⟩ := ofExec_sameCount (m := { m with executed := 0 })
    (sameCount_wide.activate sameCount_unactivated f args .outermost) (Exec.activate_proceeds f .outermost) h
  have hcount : m'.executed = 0 := hcount
  refine ⟨⟨by rw [hlimits]; exact hl, .inl ⟨hi, ?_⟩⟩, hcount⟩
  rw [hcount]
  exact Nat.zero_le n

theorem CallsFor.calls {k : Nat} (h : m.CallsFor f args k m' mode') : m.Calls f args m' mode' := by
  obtain ⟨m1, mode1, hstart, hspans⟩ := h
  exact ⟨m1, mode1, hstart, hspans.reaches⟩

theorem Calls.within (hl : m.limits.Allow n) (h : m.Calls f args m' mode') : Within n m' mode' := by
  obtain ⟨m1, mode1, hstart, hr⟩ := h
  exact hr.within (activate_within hl hstart).1

theorem Calls.ends_interrupted {m1 m2 : Machine} (hm : m.Steady) (hf : f.Known m.sizes) (hargs : ∀ v ∈ args, v.Known m.sizes)
    (hi : m.Calls f args m1 (.raise .interrupted)) (h : m.Calls f args m2 mode) (hs : m2.step mode = .done m' o) :
    o = .failed .interrupted := by
  obtain ⟨m3, mode3, hstart, hr⟩ := h
  obtain ⟨m3', mode3', hstart', hr'⟩ := id hi
  rw [hstart] at hstart'
  cases hstart'
  have hmode : mode = .raise .interrupted := by
    obtain hafter | hbefore := hr'.linear hr
    · exact hafter.interrupted.1
    · -- the last state of a run comes before no other
      obtain ⟨_, hmode⟩ | ⟨m4, mode4, hs', _⟩ := hbefore.cases_head
      · exact hmode.symm
      · rw [hs] at hs'
        cases hs'
  subst hmode
  have hkeeps := step_keeps (Calls.ready hm hf hargs ⟨m3, mode3, hstart, hr⟩)
  rw [hs] at hkeeps
  cases ha : m2.activations with
  | nil =>
    simp only [step, ha] at hs
    cases hs
    rfl
  | cons a rest =>
    rw [step_raise_eq ha] at hs
    split at hs
    · cases hs
      cases hkeeps.1
    · split at hs
      · cases hs
        rfl
      · rw [ofExec_done hs] at hkeeps
        cases hkeeps.1

/-- **No call evades its budget.** A call from outside counts its instructions from none on, whatever ran
    before, each of them once. It ends. It does at most `n` instructions, or the one after them
    interrupts it; then no other instruction is done, the interruption is raised in every activation
    until the last, whatever it was for, and it is what the call fails with. -/
theorem budget_kept (hm : m.Built) (hf : f.Known m.sizes) (hargs : ∀ v ∈ args, v.Known m.sizes) (hl : m.limits.Allow n) :
    (∀ k m' mode, m.CallsFor f args k m' mode →
      m'.executed = k ∧ (k ≤ n ∨ mode = .raise .interrupted ∧ k = n + 1)) ∧
    (∀ m₁ m' mode, m.Calls f args m₁ (.raise .interrupted) → Reaches m₁ (.raise .interrupted) m' mode →
      mode = .raise .interrupted ∧ m'.executed = n + 1) ∧
    (∃ k, ∀ fuel wanted, k ≤ fuel → (m.call fuel f args wanted).2 ≠ .unfinished) ∧
    ∀ fuel wanted m' o, m.call fuel f args wanted = (m', o) →
      (∀ vs, o = .results vs → m'.executed ≤ n) ∧
      (∀ e, o = .failed e → e ≠ .interrupted ∧ m'.executed ≤ n ∨ e = .interrupted ∧ m'.executed = n + 1) ∧
      ∀ m₁, m.Calls f args m₁ (.raise .interrupted) → o = .unfinished ∨ o = .failed .interrupted := by
  refine ⟨fun k m' mode hcalls => ?_, fun m₁ m' mode hcalls hr => ?_, ?_, fun fuel wanted m' o hc => ?_⟩
  · have hwithin := hcalls.calls.within hl
    obtain ⟨m₁, mode₁, hstart, hspans⟩ := hcalls
    obtain ⟨hbegun, hzero⟩ := activate_within hl hstart
    have hcount := hspans.executed hbegun
    rw [hzero, Nat.zero_add] at hcount
    refine ⟨hcount, ?_⟩
    rw [← hcount]
    exact hwithin.executed.imp And.right fun ⟨hi, heq⟩ => ⟨Mode.eq_interrupted hi, heq⟩
  · obtain ⟨hmode, hcount⟩ := hr.interrupted
    refine ⟨hmode, ?_⟩
    rw [hcount]
    obtain ⟨hi, _⟩ | ⟨_, heq⟩ := (hcalls.within hl).executed
    · cases hi
    · exact heq
  · obtain ⟨m₁, mode₁, hstart, _⟩ := call_starts hm.steady hf hargs
    obtain ⟨k, hk⟩ := (activate_within hl hstart).1.ends
    refine ⟨k, fun fuel wanted hle => ?_⟩
    unfold call
    rw [hstart]
    dsimp only
    split
    · nofun
    · exact hk fuel hle
  · by_cases hu : o = .unfinished
    · subst hu
      exact ⟨fun _ h => (nomatch h), fun _ h => (nomatch h), fun _ _ => .inl rfl⟩
    · obtain ⟨m₁, mode₁, o₁, hcalls, hstep, hsame⟩ := call_ends hm.steady hf hargs hc hu
      obtain ⟨hresults, hfails⟩ := (hcalls.within hl).done hstep
      have hended := fun m₂ (hi : m.Calls f args m₂ (.raise .interrupted)) =>
        hi.ends_interrupted hm.steady hf hargs hcalls hstep
      obtain rfl | ⟨vs, vs', rfl, rfl⟩ := hsame
      · exact ⟨hresults, hfails, fun m₂ hi => .inr (hended m₂ hi)⟩
      · exact ⟨fun _ _ => hresults vs rfl, fun _ h => (nomatch h), fun m₂ hi => nomatch hended m₂ hi⟩

end

theorem pcall_interrupted : (match
      (Machine.new ⟨255, some 10, false⟩).load (Bytes.ofString "pcall(function() while true do end end)") "t" none with
    | (m, .ok (.function id)) =>
      match m.call 30 (.function id) [] none with
      | (_, .failed .interrupted) => decide (id < m.functions.size ∧ m.limits.budget = some 10 ∧ m.limits.expired = false)
      | _ => false
    | _ => false) = true := by decide +kernel

/-- A protected call of a loop that has no end is interrupted all the same, by the instruction after the
    tenth. -/
theorem budget_kept_pcall : ∃ m id m',
    (Machine.new ⟨255, some 10, false⟩).load (Bytes.ofString "pcall(function() while true do end end)") "t" none =
      (m, .ok (.function id)) ∧
    m.call 30 (.function id) [] none = (m', .failed .interrupted) ∧ m'.executed = 11 := by
  let source := Bytes.ofString "pcall(function() while true do end end)"
  have hok := pcall_interrupted
  have henv : ∀ v ∈ (none : Option Value), v.Known (Machine.new ⟨255, some 10, false⟩).sizes := by simp
  have hbuilt := (Machine.Built.new ⟨255, some 10, false⟩).load source "t" henv
  split at hok
  · next m id hload =>
    rw [hload] at hbuilt
    split at hok
    · next m' hc =>
      obtain ⟨hid, hl⟩ := of_decide_eq_true hok
      have hargs : ∀ v ∈ ([] : List Value), v.Known m.sizes := by simp
      have hkept := budget_kept hbuilt (f := .function id) hid hargs hl
      have hfails := (hkept.2.2.2 30 none m' _ hc).2.1 .interrupted rfl
      exact ⟨m, id, m', hload, hc, (hfails.resolve_left fun h => h.1 rfl).2⟩
    · cases hok
  · cases hok

end Machine

end LuaMachine
