/-
  FRAMES AND THE STACK. Frames are begun by calls and iterators, by library functions, and in the place of
  others; they end by returning and by failures. However long a run is, there are no more of them than are
  allowed, each has its registers on the stack, and each stands on the one that called it.

  * `Roomy.step` -- **every step keeps the bounds**;
  * `reachable_stacked` -- **they do in every state of every run**.
-/
import LuaMachine.Proofs.Machine.Budget
import LuaMachine.Proofs.Machine.Capture

namespace LuaMachine

/-! ## 1. Bounds on what runs -/

structure Machine.Roomy (k : Nat) (m : Machine) : Prop where
  tidy : m.Tidy
  depth : m.frames.length + k ≤ m.limits.maxDepth
  nesting : m.activations.length ≤ Limits.maxActivations

namespace Machine.Roomy

variable {m m' : Machine} {k j : Nat}

theorem le (h : m.Roomy k) (hj : j ≤ k) : m.Roomy j := ⟨h.tidy, by have := h.depth; omega, h.nesting⟩

theorem fewer (h : m.Roomy k) (ht : m'.Tidy) (hl : m'.limits = m.limits)
    (hf : m'.frames.length ≤ m.frames.length) (ha : m'.activations.length ≤ Limits.maxActivations) : m'.Roomy k :=
  ⟨ht, by rw [hl]; exact Nat.le_trans (Nat.add_le_add_right hf k) h.depth, ha⟩

end Machine.Roomy

namespace Exec

open Machine (Roomy SameCount sameCount_wide)

variable {α β : Type} {x : Exec α} {m : Machine} {k k' k'' : Nat}

/-- The operation, where there is room for `k` frames, leaves room for `k'`, and keeps the bounds also
    when it fails. -/
def Bounded (k k' : Nat) (x : Exec α) : Prop :=
  ∀ m : Machine, m.Roomy k → Meets True (fun _ m' => m'.Roomy 0) x m fun _ m' => m'.Roomy k'

namespace Bounded

variable {next : α → Exec β}

theorem bind (hx : Bounded k k' x) (hk : ∀ a, Bounded k' k'' (next a)) : Bounded k k'' (x >>= next) := fun m hm =>
  Meets.bind (Meets.imp (hx m hm) (fun _ _ h => h) fun a m' h => hk a m' h)

theorem pure (a : α) : Bounded k k (Pure.pure a) := fun _ hm => hm

theorem failWith (e : Failure) : Bounded k k' (failWith e : Exec α) := fun _ hm => hm.le (Nat.zero_le k)

theorem of_spares (hs : Spares 0 (fun _ => True) x) (hl : Along SameCount x) : Bounded k k x := fun m hm =>
  have hkept : ∀ m' : Machine, m.Spares 0 (fun _ => True) m' → m'.frames = m.frames →
      m'.activations = m.activations → m'.limits = m.limits → m'.Roomy k := fun m' hs hf ha hl =>
    hm.fewer hs.tidy hl (Nat.le_of_eq (by rw [hf])) (by rw [ha]; exact hm.nesting)
  Meets.imp ((hs m hm.tidy).and (hl m))
    (fun _ m' ⟨⟨hs, hf, ha⟩, _, hl⟩ => (hkept m' hs hf ha hl.2).le (Nat.zero_le k))
    fun _ m' ⟨⟨hs, hf, ha⟩, hl⟩ => hkept m' hs hf ha hl.2

theorem get : Bounded k k (MonadState.get : Exec Machine) := fun _ hm => hm

theorem read (i : Nat) : Bounded k k (Exec.read i) := of_spares (.read i) (sameCount_wide.read i)

theorem readMany (i n : Nat) : Bounded k k (Exec.readMany i n) :=
  of_spares (.readMany i n) (sameCount_wide.readMany i n)

theorem need (o : Option α) : Bounded k k (Exec.need o) := of_spares (.need o) (sameCount_wide.need o)

theorem write (i : Nat) (v : Value) : Bounded k k (Exec.write i v) :=
  of_spares (.write (Nat.zero_le i) v) (sameCount_wide.write i v)

theorem place (i : Nat) (vs : List Value) (wanted : Option Nat) : Bounded k k (Exec.place i vs wanted) :=
  of_spares (.place (Nat.zero_le i) vs wanted) (sameCount_wide.place i vs wanted)

theorem openCount (start b : Nat) : Bounded k k (Exec.openCount start b) :=
  of_spares (.openCount start b) (sameCount_wide.openCount start b)

theorem close (level : Nat) : Bounded k k (Exec.close level) :=
  of_spares (.close level) (sameCount_wide.close level)

theorem failCall (slot : Nat) (v : Value) : Bounded k k' (Exec.failCall slot v : Exec α) := fun _ hm =>
  Meets.imp failCall_meets (fun _ _ h => h ▸ hm.le (Nat.zero_le k)) fun _ _ h => h.elim

theorem moveDown (src dest n : Nat) : Bounded k k (Exec.moveDown src dest n) := by
  induction n generalizing src dest with
  | zero => exact pure ()
  | succ n ih =>
    exact (read _).bind fun _ => (write _ _).bind fun _ => (write _ _).bind fun _ => ih _ _

/-! ### Calls and returns -/

theorem pushFrame (slot nargs : Nat) (wanted : Option Nat) (p : Proto) (cells : Array Nat) :
    Bounded 1 0 (Exec.pushFrame slot nargs wanted p cells) := by
  unfold Exec.pushFrame
  extract_lets base top params start begun
  have hpushed : ∀ varargs, Bounded 1 0 (modify fun m : Machine =>
      { m with frames := ⟨slot, 0, wanted, p, cells, varargs⟩ :: m.frames }) := fun varargs m hm =>
    show Roomy 0 _ from ⟨⟨hm.tidy.sorted, hm.tidy.live⟩, hm.depth, hm.nesting⟩
  have hbegun : ∀ varargs, Bounded 1 0 (begun varargs) := by
    intro varargs
    unfold begun
    extract_lets cleared
    have hclear : Bounded 1 1 (Exec.clear start (top - start)) :=
      of_spares (.clear (Nat.zero_le _) _) (sameCount_wide.clear _ _)
    have hcleared : ∀ u, Bounded 1 0 (cleared u) := fun _ => hclear.bind fun _ => hpushed varargs
    split
    · exact (of_spares .stuck Footing.stuck).bind hcleared
    · exact hcleared ()
  refine (of_spares (.ensure _) (sameCount_wide.ensure _)).bind fun _ => ?_
  split
  · exact (readMany _ _).bind hbegun
  · exact hbegun []

theorem beginCall (slot nargs : Nat) (wanted : Option Nat) (ret : HostReturn) :
    Bounded 0 0 (Exec.beginCall slot nargs wanted ret) := by
  intro m hm
  unfold Exec.beginCall
  refine Meets.read fun v _ => ?_
  split
  · refine Meets.get (Meets.need fun fn _ => ?_)
    split
    · exact Meets.readMany fun vs => hm
    · split
      · exact hm
      · next hlt =>
        exact (pushFrame _ _ _ _ _).bind (fun _ => pure Mode.run) m ⟨hm.tidy, Nat.not_le.mp hlt, hm.nesting⟩
  · exact failCall _ _ m hm

theorem endCall (vs : List Value) : Bounded 0 0 (Exec.endCall vs) := by
  intro m hm
  unfold Exec.endCall
  refine Meets.get ?_
  split
  · exact hm
  · next f rest hf =>
    have hpopped : { m with frames := rest }.Roomy 0 :=
      hm.fewer ⟨hm.tidy.sorted, hm.tidy.live⟩ rfl (by rw [hf]; exact Nat.le_succ _) hm.nesting
    have hplaced : ∀ n depth : Nat, Bounded 0 0 (if n ≤ depth then Pure.pure (Mode.deliver vs) else do
        Exec.place f.slot vs f.wanted
        Pure.pure Mode.run) := by
      intro n depth
      split
      · exact pure _
      · exact (place _ _ _).bind fun _ => pure _
    exact hplaced rest.length _ _ hpopped

theorem finish (ret : HostReturn) (vs : List Value) : Bounded 0 0 (Exec.finish ret vs) := by
  cases ret with
  | place dest wanted => exact (place _ _ _).bind fun _ => pure _
  | tail base => exact (close _).bind fun _ => endCall _
  | answer => exact pure _

theorem settleFailure (purpose : Purpose) (e : Failure) : Bounded 0 0 (Exec.settleFailure purpose e) := by
  unfold Exec.settleFailure
  split
  · split
    · exact finish _ _
    · exact failWith _
  · exact failWith _

theorem activate (f : Value) (args : List Value) (purpose : Purpose) :
    Bounded 0 0 (Exec.activate f args purpose) := by
  intro m hm
  unfold Exec.activate
  refine Meets.get ?_
  split
  · exact settleFailure _ _ m hm
  · next hlt =>
    have hplaced : Spares 0 (fun _ => True) (do
        ensure (m.frameTop + 1 + args.length)
        writeMany m.frameTop (f :: args)) := (Spares.ensure _).bind fun _ => .writeMany (Nat.zero_le _) _
    have hcount : Along SameCount (do
        ensure (m.frameTop + 1 + args.length)
        writeMany m.frameTop (f :: args)) :=
      sameCount_wide.bind (sameCount_wide.ensure _) fun _ => sameCount_wide.writeMany _ _
    show Meets True _ ((do
        ensure (m.frameTop + 1 + args.length)
        writeMany m.frameTop (f :: args)) >>= fun _ => do
      modify fun m' =>
        { m' with activations := ⟨m'.frames.length, m.frameTop, m'.top, purpose⟩ :: m'.activations }
      Exec.beginCall m.frameTop args.length none .answer) m _
    refine Meets.bind (Meets.imp ((hplaced m hm.tidy).and (hcount m)) (fun _ m' ⟨⟨hs, hf, ha⟩, _, hl⟩ => ?_)
      fun _ m' ⟨⟨hs, hf, ha⟩, hl⟩ => ?_)
    · exact hm.fewer hs.tidy hl.2 (Nat.le_of_eq (by rw [hf])) (by rw [ha]; exact hm.nesting)
    · refine beginCall _ _ _ _ { m' with activations := _ :: m'.activations } ?_
      refine hm.fewer ⟨hs.tidy.sorted, hs.tidy.live⟩ hl.2 (Nat.le_of_eq (by rw [← hf])) ?_
      show m'.activations.length + 1 ≤ _
      rw [ha]
      exact Nat.not_le.mp hlt

/-! ### Instructions and library functions -/

theorem tailCall (f : Frame) (ra b : Nat) : Bounded 0 0 (Exec.tailCall f ra b) := by
  refine (openCount _ _).bind fun nargs => (read _).bind fun v => ?_
  split
  · refine get.bind fun m => (need _).bind fun fn => ?_
    split
    · exact (readMany _ _).bind fun _ => pure _
    · have hpop : Bounded 0 0 (modify fun m : Machine => { m with frames := m.frames.tail }) := fun m hm => by
        have hlen : m.frames.tail.length ≤ m.frames.length := by
          rw [List.length_tail]
          exact Nat.sub_le _ _
        exact hm.fewer ⟨hm.tidy.sorted, hm.tidy.live⟩ rfl hlen hm.nesting
      exact (close _).bind fun _ => hpop.bind fun _ => (moveDown _ _ _).bind fun _ => beginCall _ _ _ _
  · exact failCall _ _

theorem callIterator (ra c : Nat) : Bounded 0 0 (Exec.callIterator ra c) := by
  refine (read _).bind fun _ => (write _ _).bind fun _ => (read _).bind fun _ => (write _ _).bind fun _ => ?_
  exact (read _).bind fun _ => (write _ _).bind fun _ => beginCall _ _ _ _

theorem returnValues (f : Frame) (ra b : Nat) : Bounded 0 0 (Exec.returnValues f ra b) :=
  (openCount _ _).bind fun _ => (readMany _ _).bind fun _ => (close _).bind fun _ => endCall _

theorem execute (f : Frame) (i : Instr) (m : Machine) (rest : List Frame) (hf : m.frames = f :: rest)
    (hm : m.Roomy 0) :
    Meets True (fun _ m' => m'.Roomy 0) (Exec.execute f i) m fun _ m' => m'.Roomy 0 := by
  by_cases ho : isCall i.opcode = true
  · unfold Exec.execute
    cases hop : i.opcode <;> rw [hop] at ho <;> dsimp only
    case call => exact (openCount _ _).bind (fun _ => beginCall _ _ _ _) m hm
    case tailCall => exact tailCall _ _ _ m hm
    case ret => exact returnValues _ _ _ m hm
    case tforCall => exact callIterator _ _ m hm
    all_goals cases ho
  · -- other instructions move the function on and leave the other frames
    have hmoves : Meets True (fun _ m' => m'.Tidy ∧ m'.activations = m.activations ∧ m'.frames.length = m.frames.length)
        (Exec.plain f i i.opcode) m fun _ m' =>
          m'.Tidy ∧ m'.activations = m.activations ∧ m'.frames.length = m.frames.length := by
      by_cases hj : i.opcode = .jmp
      · exact Meets.imp (jmp_meets 0 (fun _ => True) hj hm.tidy hf) (fun _ _ h => h.elim)
          fun _ m' ⟨hs, ha, hf', _⟩ => ⟨hs.tidy, ha, by rw [hf', hf]; rfl⟩
      · have hpasses := plain_passes hj m rest hm.tidy hf
        exact Meets.imp hpasses (fun _ _ ⟨hs, ha, _, _, hf'⟩ => ⟨hs.tidy, ha, by rw [hf', hf]; rfl⟩)
          fun _ _ ⟨hs, ha, _, _, hf'⟩ => ⟨hs.tidy, ha, by rw [hf', hf]; rfl⟩
    have hlimits := sameCount_wide.execute_along (f := f) i m
    rw [execute_still (Bool.eq_false_iff.mpr ho)] at hlimits ⊢
    have hstill : Meets True (fun _ m' => m'.Tidy ∧ m'.activations = m.activations ∧ m'.frames.length = m.frames.length)
        (do Exec.plain f i i.opcode; return Mode.run) m fun _ m' =>
          m'.Tidy ∧ m'.activations = m.activations ∧ m'.frames.length = m.frames.length :=
      Meets.bind (Meets.imp hmoves (fun _ _ h => h) fun _ _ h => h)
    exact Meets.imp (hstill.and hlimits)
      (fun _ m' ⟨⟨ht, ha, hlen⟩, _, hl⟩ => hm.fewer ht hl.2 (Nat.le_of_eq hlen) (by rw [ha]; exact hm.nesting))
      fun _ m' ⟨⟨ht, ha, hlen⟩, hl⟩ => hm.fewer ht hl.2 (Nat.le_of_eq hlen) (by rw [ha]; exact hm.nesting)

theorem instruction : Bounded 0 0 (do let (f, i) ← fetch; Exec.execute f i) := by
  intro m hm
  have hcounted : ∀ n, { m with executed := n }.Roomy 0 := fun n =>
    ⟨⟨hm.tidy.sorted, hm.tidy.live⟩, hm.depth, hm.nesting⟩
  cases hf : m.frames with
  | nil =>
    refine Meets.bind (Meets.bind (Meets.imp (count_only m) (fun _ _ hn => hn.elim fun n hn => hn ▸ hcounted n) ?_))
    rintro _ _ ⟨n, rfl⟩
    refine Meets.get ?_
    simp only [hf]
    trivial
  | cons f rest =>
    have hfetched : ∀ n, (fetched m f rest n).Roomy 0 := fun n =>
      hm.fewer ⟨hm.tidy.sorted, hm.tidy.live⟩ rfl (Nat.le_of_eq (by rw [hf]; rfl)) hm.nesting
    refine Meets.bind (fetch_meets_stands hf (fun _ n => hcounted n) (fun _ n _ => hfetched n) fun i n _ => ?_)
    exact execute _ i _ rest rfl (hfetched n)

theorem loadWith (chunk : Bytes) (name : String) (args : List Value) : Bounded 0 0 (Exec.loadWith chunk name args) :=
  of_spares (.loadWith _ _) (sameCount_wide.loadWith _ _)

theorem loadFrom (args : List Value) (ret : HostReturn) : Bounded 0 0 (Exec.loadFrom args ret) := by
  unfold Exec.loadFrom
  split
  · exact (loadWith _ _ _).bind fun _ => finish _ _
  · exact activate _ _ _
  · exact of_spares (.failType _) (sameCount_wide.fail _)

theorem host (h : HostFn) (args : List Value) (ret : HostReturn) : Bounded 0 0 (Exec.host h args ret) := by
  unfold Exec.host
  split
  · exact (of_spares .argument sameCount_wide.argument).bind fun _ => activate _ _ _
  · exact loadFrom _ _
  · exact (of_spares .simple sameCount_wide.simple_along).bind fun _ => finish _ _

theorem settleResults (purpose : Purpose) (vs : List Value) : Bounded 0 0 (Exec.settleResults purpose vs) := by
  cases purpose with
  | outermost => exact pure _
  | guarded ret => exact finish _ _
  | reading pieces args ret =>
    have hwhole : Bounded 0 0 (do Exec.finish ret (← Exec.loadWith pieces.reverse.flatten "=(load)" args)) :=
      (loadWith _ _ _).bind fun _ => finish _ _
    show Bounded 0 0 (pieceRead pieces args ret vs)
    unfold pieceRead
    dsimp only
    split
    · exact hwhole
    · exact hwhole
    · exact activate _ _ _
    · exact finish _ _

end Bounded

end Exec

/-! ## 2. Steps -/

namespace Machine

variable {m m' : Machine} {mode mode' : Mode}

theorem Roomy.unwind {a : Activation} {rest : List Activation} (h : m.Roomy 0) (ha : m.activations = a :: rest)
    (hu : Machine.unwind a rest m = .ok () m') : m'.Roomy 0 := by
  have hlimits := sameCount_wide.unwind sameCount_unactivated a rest m
  have hunwound := unwind_meets 0 (fun _ => True) a rest h.tidy
  unfold Exec.Meets at hlimits hunwound
  rw [hu] at hlimits hunwound
  obtain ⟨hs, hf, hact, _⟩ := hunwound
  refine h.fewer hs.tidy hlimits.2 ?_ ?_
  · rw [hf, List.length_drop]
    exact Nat.sub_le _ _
  · have hnesting := h.nesting
    rw [ha] at hnesting
    rw [hact]
    exact Nat.le_of_succ_le hnesting

/-- **Every step keeps the bounds** on frames and activations. -/
theorem Roomy.step (h : m.Roomy 0) (hs : m.step mode = .more m' mode') : m'.Roomy 0 := by
  have hstep : ∀ {x : Exec Mode} {m1 : Machine}, Exec.Bounded 0 0 x → m1.Roomy 0 →
      ofExec x m1 = .more m' mode' → m'.Roomy 0 := fun hx hm1 =>
    ofExec_more (hx _ hm1) (R := fun _ m' => m'.Roomy 0) fun _ _ h => h
  cases mode with
  | run => exact hstep .instruction h hs
  | host fn args ret => exact hstep (.host fn args ret) h hs
  | deliver vs =>
    cases ha : m.activations with
    | nil =>
      simp only [Machine.step, ha] at hs
      cases hs
    | cons a rest =>
      rw [step_deliver_eq ha] at hs
      have hnesting := h.nesting
      rw [ha] at hnesting
      have hleft : (leave a rest m).Roomy 0 :=
        h.fewer ⟨h.tidy.sorted, h.tidy.live⟩ rfl (Nat.le_refl _) (Nat.le_of_succ_le hnesting)
      split at hs
      · cases hs
      · exact hstep (.settleResults _ _) hleft hs
  | raise e =>
    cases ha : m.activations with
    | nil =>
      simp only [Machine.step, ha] at hs
      cases hs
    | cons a rest =>
      rw [step_raise_eq ha] at hs
      split at hs
      · cases hs
      · next hu =>
        split at hs
        · cases hs
        · exact hstep (.settleFailure _ _) (h.unwind ha hu) hs

theorem Idle.roomy (h : m.Idle) : m.Roomy 0 where
  tidy := h.tidy
  depth := by rw [h.frames]; exact Nat.zero_le _
  nesting := by rw [h.activations]; exact Nat.zero_le _

/-- **Every call from outside keeps the bounds** in all its states. -/
theorem Calls.roomy {f : Value} {args : List Value} (hm : m.Idle) (h : m.Calls f args m' mode) : m'.Roomy 0 := by
  obtain ⟨m1, mode1, hstart, hr⟩ := h
  induction hr with
  | start =>
    exact ofExec_more (Exec.Bounded.activate f args .outermost _ (hm.uncounted 0).roomy)
      (R := fun _ m' => m'.Roomy 0) (fun _ _ h => h) hstart
  | step _ hs ih => exact ih.step hs

end Machine

/-! ## 3. Frames on one another -/

/-- An activation under `frames`: it began over no more than these, and the first frame begun since is
    behind the registers of the frame that it began over and behind the open values there. -/
structure Activation.Under (a : Activation) (frames : List Frame) : Prop where
  depth : a.depth ≤ frames.length
  savedTop : a.savedTop ≤ a.slot
  entered : ∀ (g : Frame) (below : List Frame), g :: below <:+ frames → below.length = a.depth →
    a.slot ≤ g.slot ∧ ∀ f ∈ below.head?, f.top ≤ g.slot

theorem Frame.topOver_le {frames : List Frame} {top n : Nat} (h : topOver frames top ≤ n) :
    top ≤ n ∧ ∀ f ∈ frames.head?, f.top ≤ n := by
  cases frames with
  | nil => exact ⟨h, by simp⟩
  | cons f fs =>
    have h := Nat.max_le.mp h
    exact ⟨h.2, fun g hg => by cases hg; exact h.1⟩

theorem Rising.pairs {low : Nat} {fs : List Frame} (h : Rising low fs) :
    ∀ g f below, g :: f :: below <:+ fs → f.base ≤ g.slot := by
  induction fs with
  | nil => exact fun _ _ _ hs => nomatch List.suffix_nil.mp hs
  | cons f' fs ih =>
    intro g f below hs
    rcases List.suffix_cons_iff.mp hs with heq | hs
    · obtain ⟨rfl, rfl⟩ := List.cons.inj heq
      exact h.1
    · exact ih h.2 g f below hs

theorem Rising.append {low low' : Nat} {above below : List Frame} (h : Rising low above) (h' : Rising low' below)
    (hle : low' ≤ low) (hbase : ∀ f ∈ below.head?, f.base ≤ low) : Rising low' (above ++ below) := by
  induction above with
  | nil => exact h'
  | cons g above ih =>
    refine ⟨?_, ih h.2⟩
    cases above with
    | cons g' above => exact h.1
    | nil =>
      have hlow : low ≤ g.slot := h.1
      cases below with
      | nil => exact Nat.le_trans hle hlow
      | cons f below => exact Nat.le_trans (hbase f rfl) hlow

namespace Layers

variable {a₀ a : Activation} {rest : List Activation} {frames : List Frame}

theorem rising (h : Layers a₀ [] [] a rest frames) : Rising 0 frames := by
  have hlow : ∀ {fs : List Frame} {low : Nat}, Rising low fs → Rising 0 (fs ++ []) := fun hr => by
    have hnone : Rising 0 [] := trivial
    exact hr.append hnone (Nat.zero_le _) (by simp)
  induction h with
  | ground hr => exact hlow hr
  | @stacked a b rest above below h hdepth hslot hle hserves hr ih =>
    refine hr.append ih (Nat.zero_le _) fun f hf => ?_
    exact Nat.le_trans (Nat.le_add_right _ _) ((Frame.topOver_le (Nat.le_of_eq hslot.symm)).2 f hf)

theorem under (h : Layers a₀ [] [] a rest frames) (h0 : a₀.depth = 0) (htop : a₀.savedTop ≤ a₀.slot) :
    ∀ b ∈ a :: rest, b.slot ≤ a.slot ∧ b.Under frames := by
  induction h with
  | @ground fs hr =>
    intro b hb
    obtain rfl : b = a₀ := by simpa using hb
    refine ⟨Nat.le_refl _, by omega, htop, fun g below hs hlen => ?_⟩
    obtain rfl : below = [] := List.eq_nil_of_length_eq_zero (by omega)
    rw [List.append_nil] at hs
    exact ⟨hr.le g (hs.subset (List.mem_cons_self ..)), by simp⟩
  | @stacked a b rest above below h hdepth hslot hle hserves hr ih =>
    obtain ⟨hsaved, hbelow⟩ := Frame.topOver_le (Nat.le_of_eq hslot.symm)
    -- the first frame over those below is one of the activation's own
    have hfirst : ∀ g : Frame, g :: below <:+ above ++ below → a.slot ≤ g.slot := by
      rintro g ⟨t, ht⟩
      have habove : t ++ [g] = above :=
        List.append_cancel_right (by rw [List.append_assoc]; exact ht)
      exact hr.le g (by rw [← habove]; simp)
    have hsame : ∀ (g : Frame) (below' : List Frame), g :: below' <:+ above ++ below → below'.length = below.length →
        below' = below := fun g below' hs hlen =>
      (List.suffix_of_suffix_length_le ((List.suffix_cons g below').trans hs) (List.suffix_append above below)
        (Nat.le_of_eq hlen)).eq_of_length hlen
    intro c hc
    rcases List.mem_cons.mp hc with rfl | hc
    · refine ⟨Nat.le_refl _, by rw [hdepth, List.length_append]; omega, hsaved, fun g below' hs hlen => ?_⟩
      obtain rfl := hsame g below' hs (hlen.trans hdepth)
      have hslot := hfirst g hs
      exact ⟨hslot, fun f hf => Nat.le_trans (hbelow f hf) hslot⟩
    · obtain ⟨hcle, hunder⟩ := ih c hc
      have hcle := Nat.le_trans hcle hle
      have hcdepth := hunder.depth
      refine ⟨hcle, by rw [List.length_append]; omega, hunder.savedTop, fun g below' hs hlen => ?_⟩
      rcases Nat.lt_or_ge below'.length below.length with hlt | hge
      · exact hunder.entered g below' (List.suffix_of_suffix_length_le hs (List.suffix_append above below) hlt) hlen
      · -- the activation ran no script function itself, but one that runs in it did
        obtain rfl := hsame g below' hs (by omega)
        have hslot := hfirst g hs
        exact ⟨Nat.le_trans hcle hslot, fun f hf => Nat.le_trans (hbelow f hf) hslot⟩

theorem purposes (h : Layers a₀ [] [] a rest frames) :
    ∃ inner, a :: rest = inner ++ [a₀] ∧ ∀ b ∈ inner, b.purpose ≠ .outermost := by
  induction h with
  | ground hr => exact ⟨[], rfl, by simp⟩
  | @stacked a b rest above below h hdepth hslot hle hserves hr ih =>
    obtain ⟨inner, heq, hinner⟩ := ih
    refine ⟨a :: inner, by rw [heq]; rfl, List.forall_mem_cons.mpr ⟨fun hout => ?_, hinner⟩⟩
    rw [hout] at hserves
    exact hserves

end Layers

/-! ## 4. Every state of every run -/

namespace Machine

variable {m m' : Machine} {mode : Mode}

/-- Frames, activations and the stack fit together. There are no more frames and activations than may
    be; what is open ends on the stack; each frame begins behind the place of its function and has room
    for its registers; it stands on the registers of the frame before it. The activations are a call
    from outside and calls by library functions in it; a frame that one of them began stands behind all
    registers of the frame before it, and behind the values that were open. Without an activation
    nothing runs, and nothing is captured. -/
structure Stacked (m : Machine) : Prop where
  depth : m.frames.length ≤ m.limits.maxDepth
  nesting : m.activations.length ≤ Limits.maxActivations
  top : m.top ≤ m.stack.size
  registers : ∀ f ∈ m.frames,
    f.base = f.slot + 1 ∧ f.top = f.base + f.proto.maxStack.toNat ∧ f.top ≤ m.stack.size
  rising : ∀ g f below, g :: f :: below <:+ m.frames → f.base ≤ g.slot
  calls : m.activations ≠ [] → ∃ inner a, m.activations = inner ++ [a] ∧ a.purpose = .outermost ∧
    ∀ b ∈ inner, b.purpose ≠ .outermost
  entered : ∀ a ∈ m.activations, a.depth ≤ m.frames.length ∧
    ∀ g below, g :: below <:+ m.frames → below.length = a.depth →
      a.savedTop ≤ g.slot ∧ ∀ f ∈ below.head?, f.top ≤ g.slot
  resting : m.activations = [] → m.frames = [] ∧ m.openCells = []

theorem Stacked.of_layers {a₀ a : Activation} {rest : List Activation} (hw : m.Whole) (hb : m.Roomy 0)
    (ha : m.activations = a :: rest) (hl : Layers a₀ [] [] a rest m.frames) (h0 : a₀.depth = 0)
    (htop : a₀.savedTop ≤ a₀.slot) (hp : a₀.purpose = .outermost) : m.Stacked where
  depth := hb.depth
  nesting := hb.nesting
  top := hw.top
  registers := fun f hf => ⟨rfl, rfl, (hw.frames f hf).top⟩
  rising := hl.rising.pairs
  calls := fun _ => by
    obtain ⟨inner, heq, hinner⟩ := hl.purposes
    exact ⟨inner, a₀, ha.trans heq, hp, hinner⟩
  entered := by
    rw [ha]
    intro b hb
    have hunder := (hl.under h0 htop b hb).2
    refine ⟨hunder.depth, fun g below hs hlen => ?_⟩
    have hentered := hunder.entered g below hs hlen
    exact ⟨Nat.le_trans hunder.savedTop hentered.1, hentered.2⟩
  resting := fun hnil => by
    rw [ha] at hnil
    cases hnil

theorem Stacked.of_idle (hw : m.Whole) (h : m.Idle) : m.Stacked where
  depth := h.roomy.depth
  nesting := h.roomy.nesting
  top := hw.top
  registers := by simp [h.frames]
  rising := fun g f below hs => by
    rw [h.frames] at hs
    exact nomatch List.suffix_nil.mp hs
  calls := fun hne => (hne h.activations).elim
  entered := by simp [h.activations]
  resting := fun _ => ⟨h.frames, h.openCells⟩

theorem Calls.layers {f : Value} {args : List Value} (hm : m.Idle) (h : m.Calls f args m' mode) :
    ∃ a₀ a rest, m'.activations = a :: rest ∧ Layers a₀ [] [] a rest m'.frames ∧ a₀.depth = 0 ∧
      a₀.savedTop ≤ a₀.slot ∧ a₀.purpose = .outermost := by
  obtain ⟨own, hstands, _⟩ := (h.during hm).layered (hm.uncounted 0).tidy
  obtain ⟨a, rest, ha, hl⟩ := hstands.layers
  have hframes : ({ m with executed := 0 } : Machine).frames = [] := hm.frames
  have hactivations : ({ m with executed := 0 } : Machine).activations = [] := hm.activations
  rw [hframes, hactivations] at hl
  exact ⟨_, a, rest, ha, hl, rfl, Nat.le_refl _, rfl⟩

/-- **In every state of every run the frames are stacked**, and the bounds are kept. -/
theorem reachable_stacked (h : m.Reachable) : m.Stacked := by
  have hw := h.whole
  cases h with
  | idle h n => exact .of_idle hw (h.idle.uncounted n)
  | running h _ _ hc =>
    obtain ⟨a₀, a, rest, ha, hl, h₀, htop, hp⟩ := hc.layers h.idle
    exact .of_layers hw (hc.roomy h.idle) ha hl h₀ htop hp
  | @settling m m₁ f args vs a rest h _ _ hc ha =>
    have hidle := h.idle.uncounted 0
    obtain ⟨own, hstands, hserves⟩ := (hc.during h.idle).layered hidle.tidy
    obtain ⟨a₀, a', rest', ha', hl, h₀, htop, hp⟩ := hc.layers h.idle
    obtain ⟨rfl, rfl⟩ := List.cons.inj (ha.symm.trans ha')
    cases rest with
    | nil =>
      have hreturns := Returns.delivered (hc.during h.idle) ha (by rw [hidle.activations])
      exact .of_idle hw ((hreturns.restores hidle.tidy).idle hidle)
    | cons b bs =>
      obtain ⟨_, _, above, below, heq, hframes, hl', hdepth, _⟩ := hl.inner (Nat.zero_lt_succ _)
      obtain ⟨rfl, rfl⟩ := List.cons.inj heq
      -- the frames are those that the activation began over
      obtain rfl : above = [] := List.eq_nil_of_length_eq_zero <| by
        have hlen : m₁.frames.length = a.depth := hserves _ _ ha
        rw [hframes, List.length_append] at hlen
        omega
      have hroomy := hc.roomy h.idle
      have hnesting := hroomy.nesting
      rw [ha] at hnesting
      have hleft : (leave a (b :: bs) m₁).Roomy 0 :=
        hroomy.fewer ⟨hroomy.tidy.sorted, hroomy.tidy.live⟩ rfl (Nat.le_refl _) (Nat.le_of_succ_le hnesting)
      have hbelow : (leave a (b :: bs) m₁).frames = below := hframes
      exact .of_layers hw hleft rfl (hbelow ▸ hl') h₀ htop hp

theorem pcall_nested : (match stateOf "local function g() return 1 end return pcall(pcall, g)" 7 with
    | some (_, _, m, _) =>
      match m.frames, m.activations with
      | [_, _], [a, _, _] => decide (a.depth = 1)
      | _, _ => false
    | none => false) = true := by decide +kernel

/-- A function called by `pcall` called by `pcall`: its frame is that of the third activation, and stands
    behind the registers of the main function. -/
theorem reachable_stacked_pcall : ∃ (m : Machine) (g f : Frame), m.Reachable ∧ m.frames = [g, f] ∧
    m.activations.length = 3 ∧ f.top ≤ g.slot ∧ g.slot + 1 + g.proto.maxStack.toNat ≤ m.stack.size := by
  have hok := pcall_nested
  split at hok
  · next m₀ id m mode hstate =>
    obtain ⟨hbuilt, hid, hcalls⟩ := stateOf_calls hstate
    have hreach : m.Reachable := .running hbuilt hid (by simp) hcalls
    have hstacked := reachable_stacked hreach
    split at hok
    · next g f a b c hframes hactivations =>
      obtain ⟨_, hentered⟩ := hstacked.entered a (by rw [hactivations]; exact List.mem_cons_self ..)
      have hall : [g, f] <:+ m.frames := hframes ▸ List.suffix_refl m.frames
      have habove := (hentered g [f] hall (of_decide_eq_true hok).symm).2 f rfl
      obtain ⟨_, htop, hroom⟩ := hstacked.registers g (by rw [hframes]; exact List.mem_cons_self ..)
      exact ⟨m, g, f, hreach, hframes, congrArg List.length hactivations, habove, htop ▸ hroom⟩
    · cases hok
  · cases hok

end Machine

end LuaMachine
