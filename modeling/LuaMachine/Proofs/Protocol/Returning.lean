/-
  RESULTS ARRIVE. While a function runs that a call has begun, those that it returns to wait under it, and
  the stack below the call is theirs. When it returns, its results are where its caller looks for them.

  * `CallSite.Runs` -- the states of a call; `Lasts.step` -- **what each step of it comes to**;
  * `call_protocol` -- **every call of a script function, from its arguments to its results**.
-/
import LuaMachine.Proofs.Machine.Capture
import LuaMachine.Proofs.Protocol.Passing

namespace LuaMachine

/-! ## 1. Calls that last -/

namespace CallSite

def Above (site : CallSite) (frames : List Frame) : Prop :=
  ∃ above g, frames = above ++ g :: site.callers ∧ g.slot = site.slot ∧ g.wanted = site.wanted ∧
    ∀ f ∈ above, site.slot ≤ f.slot

def Under (site : CallSite) (activations : List Activation) : Prop :=
  ∃ inner, activations = inner ++ site.activations ∧ ∀ b ∈ inner, site.callers.length < b.depth

structure Lasts (site : CallSite) (m₀ m : Machine) : Prop where
  spared : m₀.Spares site.slot (fun _ => True) m
  above : site.Above m.frames
  under : site.Under m.activations

structure Leaves (site : CallSite) (m₀ : Machine) (frames : List Frame) (m : Machine) : Prop where
  spared : m₀.Spares site.slot (fun _ => True) m
  frames : m.frames = frames
  under : site.Under m.activations

def HasCaller (site : CallSite) : Prop := ∀ a ∈ site.activations.head?, a.depth < site.callers.length

/-- The function of the call has returned values: its caller has as many as it wants, with nil for those that are
    missing, or all, and the top is behind them. Below the place of the call only captured variables have changed. -/
structure Returned (site : CallSite) (m₀ : Machine) (vs : List Value) (mode : Mode) (m : Machine) : Prop where
  frames : m.frames = site.callers
  activations : m.activations = site.activations
  stack : ∀ s < site.slot, s < m₀.stack.size → (∀ c, (s, c) ∉ m₀.openCells) → m.stack[s]? = m₀.stack[s]?
  run : site.HasCaller → mode = .run
  wanted : site.HasCaller → ∀ n, site.wanted = some n → ∀ k < n, m.stack[site.slot + k]? = some (vs[k]?.getD .nil)
  all : site.HasCaller → site.wanted = none → (∀ k < vs.length, m.stack[site.slot + k]? = vs[k]?) ∧ m.top = site.slot + vs.length
  deliver : ¬ site.HasCaller → mode = .deliver vs

structure Last (site : CallSite) (m₀ : Machine) (f : Frame) (m : Machine) : Prop where
  spared : m₀.Spares site.slot (fun _ => True) m
  frames : m.frames = f :: site.callers
  slot : f.slot = site.slot
  wanted : f.wanted = site.wanted
  activations : m.activations = site.activations

variable {site : CallSite} {m₀ m m' : Machine} {f : Frame} {rest : List Frame}

theorem Above.length_lt {frames : List Frame} (h : site.Above frames) : site.callers.length < frames.length := by
  obtain ⟨above, g, rfl, _⟩ := h
  rw [List.length_append, List.length_cons]
  omega

theorem Above.head (h : site.Above (f :: rest)) :
    site.slot ≤ f.slot ∧ (rest = site.callers ∧ f.slot = site.slot ∧ f.wanted = site.wanted ∨ site.Above rest) := by
  obtain ⟨above, g, heq, hslot, hwanted, habove⟩ := h
  cases above with
  | nil =>
    obtain ⟨rfl, rfl⟩ := List.cons.inj heq
    exact ⟨Nat.le_of_eq hslot.symm, .inl ⟨rfl, hslot, hwanted⟩⟩
  | cons f' above =>
    obtain ⟨rfl, rfl⟩ := List.cons.inj heq
    obtain ⟨hf, habove⟩ := List.forall_mem_cons.mp habove
    exact ⟨hf, .inr ⟨above, g, rfl, hslot, hwanted, habove⟩⟩

theorem Above.push {frames : List Frame} (h : site.Above frames) (hf : site.slot ≤ f.slot) : site.Above (f :: frames) := by
  obtain ⟨above, g, rfl, hslot, hwanted, habove⟩ := h
  exact ⟨f :: above, g, rfl, hslot, hwanted, List.forall_mem_cons.mpr ⟨hf, habove⟩⟩

theorem Above.goto (h : site.Above (f :: rest)) (pc : Nat) : site.Above ({ f with pc := pc } :: rest) := by
  obtain ⟨hle, ⟨rfl, hslot, hwanted⟩ | habove⟩ := h.head
  · exact ⟨[], _, rfl, hslot, hwanted, by simp⟩
  · exact habove.push hle

theorem Above.drop {above below : List Frame} (h : site.Above (above ++ below)) (hlt : site.callers.length < below.length) :
    site.Above below := by
  induction above with
  | nil => exact h
  | cons f above ih =>
    refine ih (h.head.2.resolve_left fun ⟨heq, _⟩ => ?_)
    have heq : above ++ below = site.callers := heq
    rw [← heq, List.length_append] at hlt
    omega

theorem Lasts.calm {P : Nat → Prop} (h : site.Lasts m₀ m) (hs : m.Spares site.slot P m') (hf : m'.frames = m.frames)
    (ha : m'.activations = m.activations) : site.Lasts m₀ m' :=
  ⟨h.spared.trans (hs.imp (Nat.le_refl _) fun _ _ => trivial), hf ▸ h.above, ha ▸ h.under⟩

theorem Lasts.le_frameTop (h : site.Lasts m₀ m) : site.slot ≤ m.frameTop := by
  obtain ⟨f, rest, hf⟩ : ∃ f rest, m.frames = f :: rest :=
    List.exists_cons_of_length_pos (Nat.lt_of_le_of_lt (Nat.zero_le _) h.above.length_lt)
  have hhead := (hf ▸ h.above).head.1
  have htop : f.slot ≤ f.top := by
    unfold Frame.top Frame.base
    omega
  rw [m.frameTop_eq, hf]
  exact Nat.le_trans hhead (Nat.le_trans htop (Nat.le_max_left _ _))

theorem Under.outer {a : Activation} {as : List Activation} (h : site.Under (a :: as)) (hd : a.depth ≤ site.callers.length) :
    a :: as = site.activations := by
  obtain ⟨inner, heq, hinner⟩ := h
  cases inner with
  | nil => exact heq
  | cons b inner =>
    obtain ⟨rfl, _⟩ := List.cons.inj heq
    have := hinner a (List.mem_cons_self ..)
    omega

theorem Under.inner {a : Activation} {as : List Activation} (h : site.Under (a :: as)) (hne : a :: as ≠ site.activations) :
    site.callers.length < a.depth ∧ site.Under as ∧ site.activations.length ≤ as.length := by
  obtain ⟨inner, heq, hinner⟩ := h
  cases inner with
  | nil => exact (hne heq).elim
  | cons b inner =>
    obtain ⟨rfl, rfl⟩ := List.cons.inj heq
    obtain ⟨hb, hinner⟩ := List.forall_mem_cons.mp hinner
    exact ⟨hb, ⟨inner, rfl, hinner⟩, (List.suffix_append inner site.activations).length_le⟩

end CallSite

/-! ## 2. Steps of a call -/

namespace Exec

variable {α : Type} {site : CallSite} {m₀ m : Machine} {f : Frame} {rest : List Frame} {c : Activation} {cs : List Activation}
  {ret : HostReturn} {vs args : List Value} {slot nargs ra b : Nat} {i : Instr}

def Ends (site : CallSite) (m₀ : Machine) (x : Exec Mode) (m : Machine) (vs : List Value) : Prop :=
  ∃ f m₁, x m = finish (.tail f.base) vs m₁ ∧ site.Last m₀ f m₁

def Stays (site : CallSite) (m₀ : Machine) (x : Exec Mode) (m : Machine) : Prop :=
  (∃ vs, Ends site m₀ x m vs) ∨
    Meets True (fun _ m' => site.callers.length < m'.frames.length → site.Lasts m₀ m') x m fun _ m' => site.Lasts m₀ m'

theorem Stays.pure {mode : Mode} (h : site.Lasts m₀ m) : Stays site m₀ (Pure.pure mode) m := .inr h

theorem Stays.of_lasts {x : Exec Mode} (h : Meets True (fun _ m' => site.Lasts m₀ m') x m fun _ m' => site.Lasts m₀ m') :
    Stays site m₀ x m := .inr (Meets.imp h (fun _ _ h _ => h) fun _ _ h => h)

theorem Stays.failWith {e : Failure} (h : site.Lasts m₀ m) : Stays site m₀ (failWith e) m := .inr fun _ => h

theorem Spares.thenStays {x : Exec α} {k : α → Exec Mode} {P : Nat → Prop} (hx : Spares site.slot P x) (h : site.Lasts m₀ m)
    (hk : ∀ a m', site.Lasts m₀ m' → m'.frames = m.frames → m'.activations = m.activations → Stays site m₀ (k a) m') :
    Stays site m₀ (x >>= k) m := by
  have hmeets := hx m h.spared.tidy
  unfold Meets at hmeets
  split at hmeets
  · next a m' hok =>
    obtain ⟨hs, hf, ha⟩ := hmeets
    have hstays := hk a m' (h.calm hs hf ha) hf ha
    unfold Stays Ends Meets
    rw [bind_of_ok hok]
    exact hstays
  · next e m' herr =>
    obtain ⟨hs, hf, ha⟩ := hmeets
    refine .inr (Meets.bind ?_)
    unfold Meets
    rw [herr]
    exact fun _ => h.calm hs hf ha
  · next m' herr =>
    refine .inr (Meets.bind ?_)
    unfold Meets
    rw [herr]
    trivial

/-! ### Returning -/

theorem finishTail_stays (h : site.Lasts m₀ m) (ha : m.activations = c :: cs) (hd : c.depth < m.frames.length)
    (hf : m.frames = f :: rest) (vs : List Value) :
    Ends site m₀ (finish (.tail f.base) vs) m vs ∨ Meets True (fun _ m' => site.Lasts m₀ m') (finish (.tail f.base) vs) m
      fun _ m' => site.Lasts m₀ m' := by
  obtain ⟨hlow, ⟨rfl, hslot, hwanted⟩ | habove⟩ := (hf ▸ h.above).head
  · refine .inl ⟨f, m, rfl, h.spared, hf, hslot, hwanted, ?_⟩
    rw [hf] at hd
    exact ha.trans ((ha ▸ h.under).outer (Nat.le_of_lt_succ hd))
  · refine .inr (Meets.bind (Meets.imp (closed site.slot (fun _ => False) f.base h.spared.tidy) (fun _ _ h => h.elim) ?_))
    rintro _ m₁ ⟨hs, hf1, ha1, _⟩
    have hpop : site.Lasts m₀ { m₁ with frames := rest } :=
      ⟨(h.calm hs hf1 ha1).spared.trans (.same hs.tidy rfl rfl rfl), habove, (h.calm hs hf1 ha1).under⟩
    rw [Meets, endCall_of_frames vs (hf1.trans hf) (ha1.trans ha)]
    show Meets True _ (if rest.length ≤ c.depth then Pure.pure (Mode.deliver vs) else do
      place f.slot vs f.wanted
      return .run) { m₁ with frames := rest } _
    split
    · exact hpop
    · exact Meets.bind (Meets.imp (Spares.place (P := fun _ => False) hlow vs f.wanted _ hpop.spared.tidy)
        (fun _ _ h => hpop.calm h.1 h.2.1 h.2.2) fun _ _ h => hpop.calm h.1 h.2.1 h.2.2)

theorem finish_stays (h : site.Lasts m₀ m) (ha : m.activations = c :: cs) (hr : ret.Serves c.depth m.frames) :
    Stays site m₀ (finish ret vs) m := by
  cases ret with
  | answer => exact .pure h
  | place dest wanted =>
    obtain ⟨_, f, rest, hf, hdest⟩ := hr
    have hlow : site.slot ≤ dest := Nat.le_trans (hf ▸ h.above).head.1 (Nat.le_of_succ_le hdest)
    exact (Spares.place (P := fun _ => False) hlow vs wanted).thenStays h fun _ _ h' _ _ => .pure h'
  | tail base =>
    obtain ⟨hd, f, rest, hf, rfl⟩ := hr
    exact (finishTail_stays h ha hd hf vs).elim (fun hends => .inl ⟨vs, hends⟩) .of_lasts

theorem settleFailure_stays {purpose : Purpose} {e : Failure} (h : site.Lasts m₀ m) (ha : m.activations = c :: cs)
    (hp : purpose.Serves c.depth m.frames) : Stays site m₀ (settleFailure purpose e) m := by
  unfold settleFailure
  split
  · split
    · exact finish_stays h ha hp
    · exact .failWith h
  · exact .failWith h

/-! ### Calling -/

theorem Spares.thenLeaves {β : Type} {x : Exec α} {k : α → Exec β} {frames : List Frame} {P : Nat → Prop} {Q : β → Machine → Prop}
    (hx : Spares site.slot P x) (h : site.Leaves m₀ frames m)
    (hk : ∀ a m', site.Leaves m₀ frames m' → Meets True (fun _ m' => site.Leaves m₀ frames m') (k a) m' Q) :
    Meets True (fun _ m' => site.Leaves m₀ frames m') (x >>= k) m Q := by
  have hsame : ∀ m' : Machine, m.Spares site.slot P m' ∧ m'.frames = m.frames ∧ m'.activations = m.activations →
      site.Leaves m₀ frames m' := fun m' ⟨hs, hf, ha⟩ =>
    ⟨h.spared.trans (hs.imp (Nat.le_refl _) fun _ _ => trivial), hf.trans h.frames, ha ▸ h.under⟩
  exact Meets.bind (Meets.imp (hx m h.spared.tidy) (fun _ m' => hsame m') fun a m' hm' => hk a m' (hsame m' hm'))

theorem pushFrame_lasts {wanted : Option Nat} {p : Proto} {cells : Array Nat} {frames : List Frame}
    (h : site.Leaves m₀ frames m) (hslot : site.slot ≤ slot)
    (hpush : ∀ g : Frame, g.slot = slot → g.wanted = wanted → site.Above (g :: frames)) :
    Meets True (fun _ m' => site.Leaves m₀ frames m') (pushFrame slot nargs wanted p cells) m fun _ m' => site.Lasts m₀ m' := by
  unfold pushFrame
  extract_lets base top params start begun
  have hstart : site.slot ≤ start := Nat.le_add_right_of_le (Nat.le_succ_of_le hslot)
  have hbegun : ∀ varargs m', site.Leaves m₀ frames m' →
      Meets True (fun _ m' => site.Leaves m₀ frames m') (begun varargs) m' fun _ m' => site.Lasts m₀ m' := by
    intro varargs m' h'
    unfold begun
    extract_lets cleared
    have hcleared : ∀ u m', site.Leaves m₀ frames m' →
        Meets True (fun _ m' => site.Leaves m₀ frames m') (cleared u) m' fun _ m' => site.Lasts m₀ m' := fun _ _ h' =>
      (Spares.clear (P := fun _ => False) hstart _).thenLeaves h' fun _ m' h' => by
        refine show site.Lasts m₀ _ from ⟨h'.spared.trans (.same h'.spared.tidy rfl rfl rfl), ?_, h'.under⟩
        show site.Above (_ :: m'.frames)
        rw [h'.frames]
        exact hpush _ rfl rfl
    split
    · exact (Spares.stuck (P := fun _ => False)).thenLeaves h' hcleared
    · exact hcleared () m' h'
  refine (Spares.ensure (P := fun _ => False) _).thenLeaves h fun _ m₁ h1 => ?_
  split
  · exact (Spares.readMany (P := fun _ => False) _ _).thenLeaves h1 hbegun
  · exact hbegun [] m₁ h1

theorem beginCall_lasts {wanted : Option Nat} {frames : List Frame} (h : site.Leaves m₀ frames m) (hslot : site.slot ≤ slot)
    (hpush : ∀ g : Frame, g.slot = slot → g.wanted = wanted → site.Above (g :: frames))
    (hhost : ∀ id fn, m.stack[slot]? = some (.function id) → m.functions[id]? = some (.host fn) → site.Above frames) :
    Meets True (fun _ m' => site.Leaves m₀ frames m') (beginCall slot nargs wanted ret) m fun _ m' => site.Lasts m₀ m' := by
  unfold beginCall
  refine Meets.read fun v hv => ?_
  split
  · refine Meets.get (Meets.need fun fn hfn => ?_)
    split
    · exact Meets.readMany fun vs => show site.Lasts m₀ m from ⟨h.spared, h.frames ▸ hhost _ _ hv hfn, h.under⟩
    · split
      · exact h
      · exact Meets.bind (Meets.imp (pushFrame_lasts h hslot hpush) (fun _ _ h => h) fun _ _ h => h)
  · exact Meets.imp failCall_meets (fun _ _ hm => hm ▸ h) fun _ _ h => h.elim

theorem beginCall_lasting {wanted : Option Nat} (h : site.Lasts m₀ m) (hslot : site.slot ≤ slot) :
    Meets True (fun _ m' => site.Lasts m₀ m') (beginCall slot nargs wanted ret) m fun _ m' => site.Lasts m₀ m' :=
  Meets.imp (beginCall_lasts ⟨h.spared, rfl, h.under⟩ hslot (fun _ hg _ => h.above.push (hg ▸ hslot)) fun _ _ _ _ => h.above)
    (fun _ _ h' => ⟨h'.spared, h'.frames ▸ h.above, h'.under⟩) fun _ _ h => h

theorem activate_stays {v : Value} {purpose : Purpose} (h : site.Lasts m₀ m) (ha : m.activations = c :: cs)
    (hp : purpose.Serves c.depth m.frames) : Stays site m₀ (activate v args purpose) m := by
  by_cases hmax : Limits.maxActivations ≤ m.activations.length
  · have hx : activate v args purpose m = settleFailure purpose .stackOverflow m := by
      show (if Limits.maxActivations ≤ m.activations.length then _ else _ : Exec Mode) m = _
      rw [if_pos hmax]
    have hstays := settleFailure_stays (e := .stackOverflow) h ha hp
    unfold Stays Ends Meets at hstays ⊢
    rwa [hx]
  · refine .of_lasts (activate_meets h.spared.tidy (Nat.not_le.mp hmax) fun m' hs hf _ ha' => ?_)
    have hlow := h.le_frameTop
    have hbegun : site.Lasts m₀ m' := by
      refine ⟨h.spared.trans (hs.imp hlow fun _ _ => trivial), hf ▸ h.above, ?_⟩
      obtain ⟨inner, heq, hinner⟩ := h.under
      rw [ha', heq]
      exact ⟨_ :: inner, rfl, List.forall_mem_cons.mpr ⟨h.above.length_lt, hinner⟩⟩
    exact beginCall_lasting hbegun hlow

/-! ### Library functions -/

theorem loadFrom_stays (h : site.Lasts m₀ m) (ha : m.activations = c :: cs) (hr : ret.Serves c.depth m.frames) :
    Stays site m₀ (loadFrom args ret) m := by
  unfold loadFrom
  split
  · refine (Spares.loadWith (P := fun _ => False) _ _).thenStays h fun vs m' h' hf' ha' => finish_stays h' (ha'.trans ha) ?_
    rwa [hf']
  · exact activate_stays h ha hr
  · exact .failWith h

theorem host_stays {fn : HostFn} (h : site.Lasts m₀ m) (ha : m.activations = c :: cs) (hr : ret.Serves c.depth m.frames) :
    Stays site m₀ (host fn args ret) m := by
  have hsimple : ∀ fn, Stays site m₀ (do finish ret (← simple fn args)) m := fun fn =>
    (Spares.simple (P := fun _ => False)).thenStays h fun vs m' h' hf' ha' => finish_stays h' (ha'.trans ha) (by rwa [hf'])
  unfold host
  split
  · unfold argument
    split
    · exact activate_stays h ha hr
    · exact .failWith h
  · exact loadFrom_stays h ha hr
  · exact hsimple _

theorem settleResults_stays {purpose : Purpose} (h : site.Lasts m₀ m) (ha : m.activations = c :: cs)
    (hp : purpose.Serves c.depth m.frames) : Stays site m₀ (settleResults purpose vs) m := by
  cases purpose with
  | outermost => exact hp.elim
  | guarded ret => exact finish_stays h ha hp
  | reading pieces args ret =>
    have hwhole : Stays site m₀ (do finish ret (← loadWith pieces.reverse.flatten "=(load)" args)) m :=
      (Spares.loadWith (P := fun _ => False) _ _).thenStays h fun vs m' h' hf' ha' =>
        finish_stays h' (ha'.trans ha) (by rw [hf']; exact hp)
    show Stays site m₀ (pieceRead pieces args ret vs) m
    unfold pieceRead
    dsimp only
    split
    · exact hwhole
    · exact hwhole
    · exact activate_stays h ha hp
    · exact finish_stays h ha hp

/-! ### Instructions -/

theorem call_lasting (h : site.Lasts m₀ m) (hra : site.slot ≤ ra) {w : Nat} :
    Meets True (fun _ m' => site.Lasts m₀ m') (call ra b w) m fun _ m' => site.Lasts m₀ m' := by
  refine Meets.bind (Meets.imp openCount_meets (fun _ _ h => h) ?_)
  rintro n _ rfl
  exact beginCall_lasting h hra

theorem callIterator_lasting (h : site.Lasts m₀ m) (hra : site.slot ≤ ra) {w : Nat} :
    Meets True (fun _ m' => site.Lasts m₀ m') (callIterator ra w) m fun _ m' => site.Lasts m₀ m' := by
  have hwrite : ∀ {m : Machine} {k : Unit → Exec Mode} (j : Nat) (v : Value), site.Lasts m₀ m →
      (∀ m', site.Lasts m₀ m' → Meets True (fun _ m' => site.Lasts m₀ m') (k ()) m' fun _ m' => site.Lasts m₀ m') →
      Meets True (fun _ m' => site.Lasts m₀ m') (write (ra + j) v >>= k) m fun _ m' => site.Lasts m₀ m' := fun j v h hk =>
    Meets.bind (Meets.imp (Spares.write (P := fun _ => False) (Nat.le_add_right_of_le hra) v _ h.spared.tidy)
      (fun _ _ ⟨hs, hf, ha⟩ => h.calm hs hf ha) fun _ m' ⟨hs, hf, ha⟩ => hk m' (h.calm hs hf ha))
  refine Meets.read fun w2 _ => hwrite 5 w2 h fun m₁ h1 => Meets.read fun w1 _ => hwrite 4 w1 h1 fun m2 h2 => ?_
  exact Meets.read fun w0 _ => hwrite 3 w0 h2 fun m3 h3 => beginCall_lasting h3 (Nat.le_add_right_of_le hra)

theorem tailCall_lasting (h : site.Lasts m₀ m) (hf : m.frames = f :: rest) (hra : f.slot < ra) :
    Meets True (fun _ m' => site.callers.length < m'.frames.length → site.Lasts m₀ m') (tailCall f ra b) m
      fun _ m' => site.Lasts m₀ m' := by
  have hhead := (hf ▸ h.above).head
  refine Meets.bind (Meets.imp openCount_meets (fun _ _ h => h) ?_)
  rintro nargs _ rfl
  refine Meets.read fun v hv => ?_
  split
  · next id =>
    refine Meets.get (Meets.need fun fn hfn => ?_)
    split
    · exact Meets.readMany fun vs => h
    · refine Meets.bind (Meets.imp (closed site.slot (fun _ => False) f.base h.spared.tidy) (fun _ _ h => h.elim) ?_)
      rintro _ m₁ ⟨hs1, hf1, ha1, hstack1, hfun1, _⟩
      refine Meets.bind (x := modify _) (show Meets _ _ _ m₁ _ from ?_)
      have hs : m.Spares site.slot (fun _ => False) { m₁ with frames := m₁.frames.tail } :=
        hs1.trans (.same hs1.tidy rfl rfl rfl)
      have hspares : Spares site.slot (fun _ => False) (moveDown ra f.slot (nargs + 1)) := .moveDown hhead.1 (Nat.le_of_lt hra) _
      have hdown := (hspares _ hs.tidy).and (moveDown_meets hra (nargs + 1) _)
      refine Meets.bind (Meets.imp hdown (fun _ _ h => h.2.elim) ?_)
      rintro _ m2 ⟨⟨hs2, hf2, ha2⟩, _, hmoved, hfun2⟩
      have hleaves : site.Leaves m₀ rest m2 := by
        refine ⟨h.spared.trans ((hs.trans hs2).imp (Nat.le_refl _) fun _ _ => trivial), ?_, ?_⟩
        · rw [hf2]
          show m₁.frames.tail = rest
          rw [hf1, hf]
          rfl
        · rw [ha2]
          exact ha1 ▸ h.under
      have hpush : ∀ g : Frame, g.slot = f.slot → g.wanted = f.wanted → site.Above (g :: rest) := fun g hslot hwanted => by
        obtain ⟨hle, ⟨rfl, hslot', hwanted'⟩ | habove⟩ := hhead
        · exact ⟨[], g, rfl, hslot.trans hslot', hwanted.trans hwanted', by simp⟩
        · exact habove.push (hslot ▸ hle)
      refine Meets.imp (beginCall_lasts hleaves hhead.1 hpush fun id' fn' hv' hfn' => ?_) (fun _ m' h' hlt => ?_) fun _ _ h => h
      · -- the function that was moved is the one that was read, and that is a script
        have hv'' : m.stack[ra]? = some (.function id') := by
          rw [← hstack1, ← hv']
          exact (hmoved 0 (Nat.zero_lt_succ _)).symm
        have hfn'' : m.functions[id']? = some (.host fn') := by
          rw [← hfun1, ← hfn']
          exact hfun2.symm ▸ rfl
        rw [hv] at hv''
        cases hv''
        rw [hfn] at hfn''
        cases hfn''
      · refine ⟨h'.spared, ?_, h'.under⟩
        rw [h'.frames] at hlt ⊢
        exact hhead.2.resolve_left fun ⟨heq, _⟩ => absurd hlt (by rw [heq]; exact Nat.lt_irrefl _)
  · exact Meets.imp failCall_meets (fun _ _ hm _ => hm ▸ h) fun _ _ h => h.elim

theorem returnValues_cases (f : Frame) (ra b : Nat) (m : Machine) :
    returnValues f ra b m = .error .stuck m ∨
      ∃ vs, m.Supplies ra b vs ∧ returnValues f ra b m = finish (.tail f.base) vs m := by
  have hcount : openCount ra b m = .ok ((Operand.toCount? b).getD (m.top - ra)) m := by
    unfold openCount
    cases Operand.toCount? b <;> rfl
  generalize hn : (Operand.toCount? b).getD (m.top - ra) = n at hcount
  by_cases hroom : ra + n ≤ m.stack.size
  · have hread : readMany ra n m = .ok (m.stack.extract ra (ra + n)).toList m := by
      show (if ra + n ≤ m.stack.size then _ else stuck : Exec (List Value)) m = _
      rw [if_pos hroom]
      rfl
    refine .inr ⟨(m.stack.extract ra (ra + n)).toList, ⟨?_, fun k hk => ?_⟩, ?_⟩
    · rw [hn, Array.length_toList, Array.size_extract, Nat.min_eq_left hroom, Nat.add_sub_cancel_left]
    · rw [Array.length_toList, Array.size_extract, Nat.min_eq_left hroom, Nat.add_sub_cancel_left] at hk
      rw [Array.getElem?_toList, Array.getElem?_extract, Nat.min_eq_left hroom, Nat.add_sub_cancel_left, if_pos hk]
    · unfold returnValues
      rw [bind_of_ok hcount, bind_of_ok hread]
      rfl
  · have hread : readMany ra n m = .error .stuck m := by
      show (if ra + n ≤ m.stack.size then _ else stuck : Exec (List Value)) m = _
      rw [if_neg hroom]
      rfl
    refine .inl ?_
    unfold returnValues
    rw [bind_of_ok hcount]
    show EStateM.bind (readMany ra n) _ m = _
    rw [EStateM.bind, hread]

end Exec

/-! ## 3. The end of a call -/

/-- The machine is about to return values from its running function: by a return, or as what a library function gives
    that has been called in its place. -/
inductive Machine.Gives (m : Machine) : Mode → List Value → Prop where
  | returned {f : Frame} {rest : List Frame} {i : Instr} {vs : List Value} (hf : m.frames = f :: rest)
      (hi : f.proto.code[f.pc]? = some i) (ho : i.opcode = .ret) (hvs : m.Supplies (f.base + i.a.val) i.b.val vs) :
      Gives m .run vs
  | passed {mode : Mode} {base : Nat} {vs : List Value} {m' : Machine} (hmode : mode ≠ .run)
      (h : m.step mode = Machine.ofExec (Exec.finish (.tail base) vs) m') : Gives m mode vs

namespace Exec

variable {site : CallSite} {m₀ m : Machine} {f : Frame} {c : Activation} {cs : List Activation} {vs : List Value}

/-- **The results of the call's function arrive** where its caller looks for them. -/
theorem finish_returns (h : site.Last m₀ f m) (ha : site.activations = c :: cs) :
    Meets True (fun _ _ => False) (finish (.tail f.base) vs) m fun mode m' => site.Returned m₀ vs mode m' := by
  have hcaller : site.HasCaller ↔ c.depth < site.callers.length := by
    unfold CallSite.HasCaller
    rw [ha]
    simp
  refine Meets.bind (Meets.imp (closed site.slot (fun _ => False) f.base h.spared.tidy) (fun _ _ h => h.elim) ?_)
  rintro _ m₁ ⟨hs, hf1, ha1, _⟩
  have hstack := (h.spared.trans (hs.imp (Nat.le_refl _) fun _ _ => trivial)).stack
  have ha1 := ha1.trans h.activations
  rw [Meets, endCall_of_frames vs (hf1.trans h.frames) (ha1.trans ha)]
  show Meets True _ (if site.callers.length ≤ c.depth then Pure.pure (Mode.deliver vs) else do
    place f.slot vs f.wanted
    return .run) { m₁ with frames := site.callers } _
  split
  · next hle =>
    have hnone : ¬ site.HasCaller := fun hc => Nat.not_lt.mpr hle (hcaller.mp hc)
    exact ⟨rfl, ha1, hstack, fun hc => (hnone hc).elim, fun hc => (hnone hc).elim, fun hc => (hnone hc).elim, fun _ => rfl⟩
  · next hlt =>
    have hcaller := hcaller.mpr (Nat.not_le.mp hlt)
    obtain ⟨stack, hok, _, _, hbelow, hnew⟩ := place_all f.slot vs f.wanted { m₁ with frames := site.callers }
    rw [h.slot, h.wanted] at hok hnew
    rw [h.slot] at hbelow
    rw [Meets, h.slot, h.wanted, bind_of_ok hok]
    refine ⟨rfl, ha1, fun s hs' hin hfree => ?_, fun _ => rfl, fun _ n hn k hk => ?_, fun _ hall => ?_, fun hno => (hno hcaller).elim⟩
    · have hin1 : s < m₁.stack.size := Nat.lt_of_lt_of_le hin (Nat.le_trans h.spared.stackSize hs.stackSize)
      exact (hbelow s hs' hin1).trans (hstack s hs' hin hfree)
    · have hlen : k < (granted vs site.wanted).length := by
        rw [hn]
        exact length_adjust ▸ hk
      have hvalue := hnew k hlen
      rw [hn] at hvalue
      exact hvalue.trans (getElem?_adjust hk)
    · rw [hall] at hnew
      refine ⟨hnew, ?_⟩
      show (if site.wanted.isSome then m₁.top else site.slot + vs.length) = _
      rw [hall]
      rfl

theorem instruction_stays (h : site.Lasts m₀ m) (ha : m.activations = c :: cs) (hd : c.depth < m.frames.length) :
    (∃ vs, m.Gives .run vs ∧ Ends site m₀ instruction m vs) ∨
      Meets True (fun _ m' => site.callers.length < m'.frames.length → site.Lasts m₀ m') instruction m fun _ m' => site.Lasts m₀ m' := by
  obtain ⟨f, rest, hf⟩ : ∃ f rest, m.frames = f :: rest :=
    List.exists_cons_of_length_pos (Nat.lt_of_le_of_lt (Nat.zero_le _) hd)
  have hfetched : ∀ n, site.Lasts m₀ (fetched m f rest n) := fun n =>
    ⟨h.spared.trans (.same h.spared.tidy rfl rfl rfl), (hf ▸ h.above).goto _, h.under⟩
  have hfetch : Meets True (fun _ m' => site.Lasts m₀ m') fetch m fun r m' => ∃ n, r.1 = { f with pc := f.pc + 1 } ∧
      f.proto.code[f.pc]? = some r.2 ∧ m' = fetched m f rest n :=
    fetch_meets_stands hf (fun _ n => h.calm (P := fun _ => False) (.same h.spared.tidy rfl rfl rfl) rfl rfl)
      (fun _ n _ => hfetched n) fun i n hi => ⟨n, rfl, hi, rfl⟩
  unfold Meets at hfetch
  split at hfetch
  case h_2 e m' herr =>
    refine .inr (Meets.bind ?_)
    unfold Meets
    rw [herr]
    exact fun _ => hfetch
  case h_3 m' herr =>
    refine .inr (Meets.bind ?_)
    unfold Meets
    rw [herr]
    trivial
  case h_1 r m' hok =>
    obtain ⟨f', i⟩ := r
    obtain ⟨n, rfl, hi, rfl⟩ := hfetch
    have h := hfetched n
    have hfetched : instruction m = execute { f with pc := f.pc + 1 } i (fetched m f rest n) := bind_of_ok hok
    have hlow : site.slot ≤ f.slot := h.above.head.1
    have hra : site.slot ≤ f.base + i.a.val := Nat.le_add_right_of_le (Nat.le_succ_of_le hlow)
    unfold Ends Meets
    rw [hfetched]
    by_cases hcall : isCall i.opcode = true
    · unfold execute
      cases ho : i.opcode <;> rw [ho] at hcall
      case call => exact .inr (Meets.imp (call_lasting h hra) (fun _ _ h _ => h) fun _ _ h => h)
      case tforCall => exact .inr (Meets.imp (callIterator_lasting h hra) (fun _ _ h _ => h) fun _ _ h => h)
      case tailCall => exact .inr (tailCall_lasting h rfl (Nat.lt_of_lt_of_le (Nat.lt_succ_self _) (Nat.le_add_right f.base _)))
      case ret =>
        show (∃ vs, m.Gives .run vs ∧ ∃ f1 m₁, returnValues _ _ _ _ = _ ∧ _) ∨ Meets True _ (returnValues _ _ _) _ _
        rcases returnValues_cases { f with pc := f.pc + 1 } (({ f with pc := f.pc + 1 } : Frame).base + i.a.val) i.b.val
          (fetched m f rest n) with hstuck | ⟨vs, hvs, hret⟩
        · refine .inr ?_
          unfold Meets
          rw [hstuck]
          trivial
        · have hd' : c.depth < (fetched m f rest n).frames.length := by
            rw [hf] at hd
            exact hd
          unfold Meets
          rw [hret]
          refine (finishTail_stays h ha hd' rfl vs).imp (fun hends => ⟨vs, .returned hf hi ho ⟨hvs.count, hvs.values⟩, hends⟩) fun hlasts => ?_
          exact Meets.imp hlasts (fun _ _ h _ => h) fun _ _ h => h
      all_goals cases hcall
    · refine .inr ?_
      have hlasts : ∀ (P : Nat → Prop) (m' : Machine), (fetched m f rest n).Spares f.base P m' →
          m'.activations = m.activations → (∃ pc, m'.frames = { f with pc := pc } :: rest) → site.Lasts m₀ m' := by
        rintro P m' hs ha' ⟨pc, hf'⟩
        refine ⟨h.spared.trans (hs.imp (Nat.le_succ_of_le hlow) fun _ _ => trivial), hf' ▸ ?_, ha' ▸ h.under⟩
        exact CallSite.Above.goto (f := { f with pc := f.pc + 1 }) h.above pc
      rw [execute_still (Bool.eq_false_iff.mpr hcall)]
      by_cases hj : i.opcode = .jmp
      · exact Meets.bind (Meets.imp (jmp_meets f.base (fun _ => True) (f := { f with pc := f.pc + 1 }) hj h.spared.tidy rfl)
          (fun _ _ h => h.elim) fun _ m' ⟨hs, ha', hf', _⟩ => hlasts _ m' hs ha' ⟨_, hf'⟩)
      · exact Meets.bind (Meets.imp (plain_passes (f := { f with pc := f.pc + 1 }) hj _ rest h.spared.tidy rfl)
          (fun _ m' ⟨hs, ha', pc, _, hf'⟩ _ => hlasts _ m' hs ha' ⟨pc, hf'⟩)
          fun _ m' ⟨hs, ha', pc, _, hf'⟩ => hlasts _ m' hs ha' ⟨pc, hf'⟩)

end Exec

/-! ## 4. The states of a call -/

def CallSite.Fails (site : CallSite) (m : Machine) (mode : Mode) (m' : Machine) (mode' : Mode) : Prop :=
  (∃ e, mode' = .raise e ∧ m'.frames.length ≤ site.callers.length) ∨ ∃ e, mode = .raise e ∧ m.activations = site.activations

inductive CallSite.Runs (site : CallSite) (m₁ : Machine) : Machine → Mode → Prop where
  | start : Runs site m₁ m₁ .run
  | step {m m' : Machine} {mode mode' : Mode} (h : Runs site m₁ m mode) (hs : m.step mode = .more m' mode')
      (hin : site.callers.length < m'.frames.length) (hfails : ¬ site.Fails m mode m' mode') : Runs site m₁ m' mode'

structure CallSite.Grounded (site : CallSite) (b : Machine) (a₀ : Activation) (m : Machine) (mode : Mode) : Prop where
  depth : a₀.depth = b.frames.length
  under : b.activations.length < site.activations.length
  active : ∀ a ∈ site.activations.head?, a.depth ≤ site.callers.length
  stands : ∃ own, m.Stands .none b a₀ own
  serves : ∀ a as, m.activations = a :: as → mode.Serves m a

namespace CallSite

open Machine

variable {site : CallSite} {m₀ m m' m₁ b : Machine} {a₀ c : Activation} {cs : List Activation} {own : Ledger} {mode mode' : Mode}

theorem Lasts.ends_inner (h : site.Lasts m₀ m) (hg : site.Grounded b a₀ m mode) (ha : m.activations = c :: cs) (hend : mode.ends = true)
    (hfails : ∀ e, mode = .raise e → m.activations ≠ site.activations) :
    site.callers.length < c.depth ∧ site.Under cs ∧ site.activations.length ≤ cs.length := by
  refine (ha ▸ h.under).inner fun heq => ?_
  cases mode with
  | run | host => cases hend
  | raise e => exact hfails e rfl (ha.trans heq)
  | deliver vs =>
    have hdepth : m.frames.length = c.depth := hg.serves c cs ha
    have := hg.active c (by rw [← heq]; rfl)
    have := h.above.length_lt
    omega

theorem of_operation {x : Exec Mode} {m2 : Machine} (hactive : site.activations = c :: cs)
    (hx : (∃ vs, m.Gives mode vs ∧ Exec.Ends site m₀ x m2 vs) ∨
      Exec.Meets True (fun _ m' => site.callers.length < m'.frames.length → site.Lasts m₀ m') x m2 fun _ m' => site.Lasts m₀ m')
    (hstep : ofExec x m2 = .more m' mode') :
    site.Lasts m₀ m' ∨ site.Fails m mode m' mode' ∨ ∃ vs, m.Gives mode vs ∧ site.Returned m₀ vs mode' m' := by
  rcases hx with ⟨vs, hgives, f, m₁, hx, hlast⟩ | hmeets
  · have hfinish : ofExec (Exec.finish (.tail f.base) vs) m₁ = .more m' mode' := by
      unfold ofExec at hstep ⊢
      rwa [hx] at hstep
    exact .inr (.inr ⟨vs, hgives, ofExec_more (Exec.finish_returns hlast hactive)
      (R := fun mode m' => site.Returned m₀ vs mode m') (fun _ _ h => h.elim) hfinish⟩)
  · refine ofExec_more (R := fun mode' m' => site.Lasts m₀ m' ∨ site.Fails m mode m' mode' ∨
      ∃ vs, m.Gives mode vs ∧ site.Returned m₀ vs mode' m') (Exec.Meets.imp hmeets (fun _ _ h => h) fun _ _ h => .inl h)
      (fun e m' h => ?_) hstep
    by_cases hlt : site.callers.length < m'.frames.length
    · exact .inl (h hlt)
    · exact .inr (.inl (.inl ⟨e, rfl, Nat.not_lt.mp hlt⟩))

/-- **A step of a call** leaves it lasting, or it fails, or its function returns values. -/
theorem Lasts.step (h : site.Lasts m₀ m) (hg : site.Grounded b a₀ m mode) (hstep : m.step mode = .more m' mode') :
    site.Lasts m₀ m' ∨ site.Fails m mode m' mode' ∨ ∃ vs, m.Gives mode vs ∧ site.Returned m₀ vs mode' m' := by
  obtain ⟨own, hstands⟩ := hg.stands
  obtain ⟨c, cs, hactive⟩ := List.exists_cons_of_length_pos (Nat.lt_of_le_of_lt (Nat.zero_le _) hg.under)
  obtain ⟨a, as, ha, hl⟩ := hstands.layers
  have hserves := hg.serves a as ha
  -- a step of a library function, or one that ends an activation
  have hstays : ∀ {x : Exec Mode} {m2 : Machine}, mode ≠ .run → m.step mode = ofExec x m2 → Exec.Stays site m₀ x m2 →
      site.Lasts m₀ m' ∨ site.Fails m mode m' mode' ∨ ∃ vs, m.Gives mode vs ∧ site.Returned m₀ vs mode' m' := by
    intro x m2 hmode hx hstays
    refine of_operation hactive (hstays.imp_left fun ⟨vs, f, m₁, heq, hlast⟩ => ⟨vs, ?_, f, m₁, heq, hlast⟩)
      (hx.symm.trans hstep)
    have hpassed : m.step mode = ofExec (Exec.finish (.tail f.base) vs) m₁ := by
      rw [hx]
      unfold ofExec
      rw [heq]
    exact .passed hmode hpassed
  cases mode with
  | run => exact of_operation hactive (Exec.instruction_stays h ha hserves) hstep
  | host fn args ret => exact hstays (by simp) rfl (Exec.host_stays h ha hserves.1)
  | deliver vs =>
    obtain ⟨hlt, hunder', hlen⟩ := h.ends_inner hg ha rfl fun e he => by cases he
    obtain ⟨d, ds, above, below, rfl, hframes, _, hdepth', _, _, hp, _⟩ := hl.inner (Nat.lt_of_lt_of_le hg.under hlen)
    -- the functions are those that the activation began over
    obtain rfl : above = [] := List.eq_nil_of_length_eq_zero <| by
      have hlen : m.frames.length = a.depth := hserves
      rw [hframes, List.length_append] at hlen
      omega
    have hbelow : m.frames = below := hframes
    have hleft : site.Lasts m₀ (leave a (d :: ds) m) :=
      ⟨h.spared.trans (.same h.spared.tidy rfl rfl rfl), h.above, hunder'⟩
    rw [step_deliver_eq ha] at hstep
    split at hstep
    · cases hstep
    · have hsettled : Exec.Stays site m₀ (Exec.settleResults a.purpose vs) (leave a (d :: ds) m) :=
        Exec.settleResults_stays hleft rfl (hbelow ▸ hp)
      refine hstays (by simp) (step_deliver_eq ha |>.trans ?_) hsettled
      split
      · contradiction
      · rfl
  | raise e =>
    by_cases hfails : m.activations = site.activations
    · exact .inr (.inl (.inr ⟨e, rfl, hfails⟩))
    obtain ⟨hlt, hunder', hlen⟩ := h.ends_inner hg ha rfl fun _ _ => hfails
    obtain ⟨d, ds, above, below, rfl, hframes, _, hdepth', _, _, hp, _⟩ := hl.inner (Nat.lt_of_lt_of_le hg.under hlen)
    have hunwound := unwind_meets site.slot (fun _ => True) a (d :: ds) h.spared.tidy
    unfold Exec.Meets at hunwound
    rw [step_raise_eq ha] at hstep
    split at hunwound
    · next m2 hx =>
      obtain ⟨hs2, hf2, ha2, _⟩ := hunwound
      have hbelow : m2.frames = below := by
        rw [hf2, hframes, List.length_append, hdepth', Nat.add_sub_cancel]
        exact List.drop_left
      have hleft : site.Lasts m₀ m2 :=
        ⟨h.spared.trans hs2, hbelow ▸ (hframes ▸ h.above).drop (hdepth' ▸ hlt), ha2 ▸ hunder'⟩
      rw [hx] at hstep
      dsimp only at hstep
      split at hstep
      · cases hstep
      · have hsettled : Exec.Stays site m₀ (Exec.settleFailure a.purpose e) m2 := Exec.settleFailure_stays hleft ha2 (hbelow ▸ hp)
        refine hstays (by simp) (step_raise_eq ha |>.trans ?_) hsettled
        rw [hx]
        dsimp only
        split
        · contradiction
        · rfl
    · exact hunwound.elim
    · next hx =>
      rw [hx] at hstep
      cases hstep

theorem Runs.lasts (hr : site.Runs m₁ m mode) (h : site.Lasts m₀ m₁) (hg : site.Grounded b a₀ m₁ .run) :
    site.Lasts m₀ m ∧ site.Grounded b a₀ m mode := by
  induction hr with
  | start => exact ⟨h, hg⟩
  | @step m m' mode mode' _ hs hin hfails ih =>
    obtain ⟨hlasts, hg⟩ := ih
    obtain ⟨own, hstands⟩ := hg.stands
    have hend : mode.ends = true → b.activations.length + 1 < m.activations.length := fun hend => by
      obtain ⟨a, as, ha, _⟩ := hstands.layers
      have hinner := hlasts.ends_inner hg ha hend fun e he heq => hfails (.inr ⟨e, he, heq⟩)
      have := hg.under
      rw [ha, List.length_cons]
      omega
    obtain ⟨⟨own', _, _, hstands'⟩, hserves'⟩ := step_stands hg.depth hstands hg.serves hend hs
    refine ⟨(hlasts.step hg hs).resolve_right fun hno => hno.elim hfails fun ⟨vs, _, hreturned⟩ => ?_,
      hg.depth, hg.under, hg.active, ⟨own', hstands'⟩, hserves'⟩
    rw [hreturned.frames] at hin
    exact Nat.lt_irrefl _ hin

theorem Begun.lasts {p : Proto} {cells : Array Nat} (h : site.Begun m₀ p cells m) : site.Lasts m₀ m := by
  obtain ⟨g, hf, hslot, hwanted, _⟩ := h.frames
  exact ⟨h.spared.imp (Nat.le_refl _) fun _ _ => trivial, ⟨[], g, hf, hslot, hwanted, by simp⟩, [], h.activations, by simp⟩

end CallSite

/-! ## 5. Every call -/

namespace Machine

variable {m : Machine} {id : Nat} {site : CallSite} {x : Exec Mode} {p : Proto} {cells : Array Nat}

theorem Calling.grounded {m₁ : Machine} (h : m.Calling id site x) (hx : x m = .ok .run m₁) (hbegun : site.Begun m p cells m₁) :
    ∃ (b : Machine) (a₀ : Activation), site.Grounded b a₀ m₁ .run := by
  obtain ⟨g, hf, _⟩ := hbegun.frames
  have hmore : ofExec x m = .more m₁ .run := by
    unfold ofExec
    rw [hx]
  have hactive : (∀ a as, m₁.activations = a :: as → Mode.run.Serves m₁ a) →
      ∀ a ∈ site.activations.head?, a.depth ≤ site.callers.length := fun hserves a ha => by
    obtain ⟨as, hact⟩ := List.head?_eq_some_iff.mp ha
    have hlt : a.depth < m₁.frames.length := hserves a as (hbegun.activations.trans hact)
    rw [hf] at hlt
    exact Nat.le_of_lt_succ hlt
  -- an instruction is at work during a call from outside
  have hrunning : m.Executes → x = Exec.instruction → site.activations = m.activations →
      ∃ (b : Machine) (a₀ : Activation), site.Grounded b a₀ m₁ .run := by
    rintro ⟨b, fn, as, hbuilt, _, _, n, mode, hstart, hr⟩ hi hact
    have hduring : b.Calls fn as m₁ .run := ⟨n, mode, hstart, .step hr (by rw [← hmore, hi]; rfl)⟩
    obtain ⟨own, hstands, hserves⟩ := (hduring.during hbuilt.idle).layered (hbuilt.idle.uncounted 0).tidy
    obtain ⟨c, cs, hc, _⟩ := hstands.layers
    refine ⟨_, _, rfl, ?_, hactive hserves, ⟨own, hstands⟩, hserves⟩
    rw [hbegun.activations.symm.trans hc, show ({ b with executed := 0 } : Machine).activations = [] from hbuilt.idle.activations]
    exact Nat.zero_lt_succ _
  cases h with
  | call hm | tailCall hm | iterator hm => exact hrunning hm rfl rfl
  | outside hm hmax args purpose =>
    have hduring : m.During (.function id) args purpose m₁ .run := .start hmax hmore
    obtain ⟨own, hstands, hserves⟩ := hduring.layered hm.tidy
    exact ⟨m, m.activation purpose, rfl, Nat.lt_succ_self _, hactive hserves, ⟨own, hstands⟩, hserves⟩

/-- **Every call of a script function, from its arguments to its results.** The function begins, unless the
    limits are reached: it is in front of those that it returns to, its first registers hold the arguments and the
    others nil, and it has put aside what it has no parameters for, if it takes more. Each step from then on leaves it
    running, or makes the call fail, or returns values: then those that it returns to are as they were, as many
    values as are wanted are at the place of the call, with nil for those that are missing, or all, and the
    top behind them; below the place of the call only captured variables have changed. -/
theorem call_protocol (h : m.Calling id site x) (hid : m.functions[id]? = some (.script p cells)) :
    Exec.Meets False (fun e m₁ => e = .interrupted ∨ e = .stackOverflow ∧ m₁.limits.maxDepth ≤ m₁.frames.length) x m
      fun mode m₁ => mode = .run ∧ site.Begun m p cells m₁ ∧
        ∀ (m₂ m₃ : Machine) (mode₂ mode₃ : Mode), site.Runs m₁ m₂ mode₂ → m₂.step mode₂ = .more m₃ mode₃ →
          site.callers.length < m₃.frames.length ∨ site.Fails m₂ mode₂ m₃ mode₃ ∨
            ∃ vs, m₂.Gives mode₂ vs ∧ site.Returned m vs mode₃ m₃ := by
  have hbegins := h.begins hid
  unfold Exec.Meets at hbegins ⊢
  split at hbegins
  · next mode m₁ hx =>
    obtain ⟨rfl, hbegun⟩ := hbegins
    refine ⟨rfl, hbegun, fun m₂ m₃ mode₂ mode₃ hr hs => ?_⟩
    obtain ⟨b, a₀, hg⟩ := h.grounded hx hbegun
    obtain ⟨hlasts, hg⟩ := hr.lasts hbegun.lasts hg
    exact (hlasts.step hg hs).imp_left fun h => h.above.length_lt
  · exact hbegins
  · exact hbegins

theorem varargs_called : (match stateOf "local function f(a, ...) return a end local x, y = f(1, 2, 3)" 5 with
    | some (_, _, m, .run) =>
      match m.frames with
      | f :: _ =>
        match f.proto.code[f.pc]? with
        | some i =>
          match m.stack[f.base + i.a.val]? with
          | some (.function id) =>
            match m.functions[id]? with
            | some (.script p _) => decide (i.opcode = .call ∧ i.b.val = 4 ∧ i.c.val = 3 ∧
                (m.stack[f.base + i.a.val + 1]? = some (.int 1) ∧ m.stack[f.base + i.a.val + 1 + 1]? = some (.int 2) ∧
                  m.stack[f.base + i.a.val + 1 + 2]? = some (.int 3)) ∧
                p.params = 1 ∧ p.isVararg = true)
            | _ => false
          | _ => false
        | none => false
      | [] => false
    | _ => false) = true := by decide +kernel

theorem call_protocol_varargs : ∃ (m : Machine) (id : Nat) (site : CallSite) (p : Proto) (cells : Array Nat),
    m.Calling id site Exec.instruction ∧ m.functions[id]? = some (.script p cells) ∧ p.params = 1 ∧ p.isVararg = true ∧
    site.args = [.int 1, .int 2, .int 3] ∧ site.wanted = some 2 ∧
    Exec.Meets False (fun e m₁ => e = .interrupted ∨ e = .stackOverflow ∧ m₁.limits.maxDepth ≤ m₁.frames.length)
      Exec.instruction m fun mode m₁ => mode = .run ∧ site.Begun m p cells m₁ ∧
        ∀ (m₂ m₃ : Machine) (mode₂ mode₃ : Mode), site.Runs m₁ m₂ mode₂ → m₂.step mode₂ = .more m₃ mode₃ →
          site.callers.length < m₃.frames.length ∨ site.Fails m₂ mode₂ m₃ mode₃ ∨
            ∃ vs, m₂.Gives mode₂ vs ∧ site.Returned m vs mode₃ m₃ := by
  have hok := varargs_called
  split at hok
  case h_2 => cases hok
  next m₀ main m hstate =>
  split at hok
  case h_2 => cases hok
  next f rest hframes =>
  split at hok
  case h_2 => cases hok
  next i hi =>
  split at hok
  case h_2 => cases hok
  next id hfn =>
  split at hok
  case h_2 => cases hok
  next p cells hid =>
  obtain ⟨ho, hb, hc, ⟨hfirst, hsecond, hthird⟩, hparams, hvararg⟩ := of_decide_eq_true hok
  obtain ⟨hbuilt, hmain, hcalls⟩ := stateOf_calls hstate
  have hspans : m.Supplies (f.base + i.a.val + 1) i.b.val [.int 1, .int 2, .int 3] := by
    refine ⟨by rw [hb]; rfl, fun k hk => ?_⟩
    have hk : k < 3 := hk
    obtain rfl | rfl | rfl : k = 0 ∨ k = 1 ∨ k = 2 := by omega
    · exact hfirst
    · exact hsecond
    · exact hthird
  have hcalling := Calling.call ⟨m₀, _, _, hbuilt, hmain, by simp, hcalls⟩ hframes hi ho hfn hspans
  refine ⟨m, id, _, p, cells, hcalling, hid, hparams, hvararg, rfl, ?_, call_protocol hcalling hid⟩
  rw [hc]
  rfl

end Machine

end LuaMachine
