/-
  A CALL RESTORES THE MACHINE. Whether a call gives results or fails, and wherever it fails, the machine has
  the frames, activations and top that it had, and below the place of the call only captured variables have
  changed.

  * `call_restores` -- **what every call restores**; `kept_open` -- a captured place above the place of the
    call that is still captured afterwards.
-/
import LuaMachine.Proofs.Machine.During
import LuaMachine.Proofs.Machine.Run

namespace LuaMachine

namespace Machine

/-! ## 1. The states of a call -/

def activation (m : Machine) (purpose : Purpose) : Activation := ⟨m.frames.length, m.frameTop, m.top, purpose⟩

inductive During (m : Machine) (f : Value) (args : List Value) (purpose : Purpose) : Machine → Mode → Prop where
  | start {m' : Machine} {mode : Mode} (hmax : m.activations.length < Limits.maxActivations)
      (h : ofExec (Exec.activate f args purpose) m = .more m' mode) : During m f args purpose m' mode
  | step {m₁ m₂ : Machine} {mode₁ mode₂ : Mode} (h : During m f args purpose m₁ mode₁)
      (hend : mode₁.ends = true → m.activations.length + 1 < m₁.activations.length)
      (hs : m₁.step mode₁ = .more m₂ mode₂) : During m f args purpose m₂ mode₂

/-- A call that begins in the machine `m` returns: it is refused, or gives results, or fails. -/
inductive Returns (m : Machine) (f : Value) (args : List Value) (purpose : Purpose) :
    Machine → Except Failure (List Value) → Prop where
  | refused (hmax : Limits.maxActivations ≤ m.activations.length) :
      Returns m f args purpose m (.error .stackOverflow)
  | delivered {m₁ : Machine} {vs : List Value} {a : Activation} {rest : List Activation}
      (h : m.During f args purpose m₁ (.deliver vs)) (ha : m₁.activations = a :: rest)
      (hr : rest.length = m.activations.length) : Returns m f args purpose (leave a rest m₁) (.ok vs)
  | raised {m₁ m₂ : Machine} {e : Failure} {a : Activation} {rest : List Activation}
      (h : m.During f args purpose m₁ (.raise e)) (ha : m₁.activations = a :: rest)
      (hr : rest.length = m.activations.length) (hu : unwind a rest m₁ = .ok () m₂) :
      Returns m f args purpose m₂ (.error e)

variable {D : Discipline} {own : Ledger} {m m' m₁ : Machine} {f : Value} {args : List Value} {purpose : Purpose}
  {mode mode' : Mode}

theorem activate_stands (hm : m.Tidy) (hk : own.known ≤ m.cells.size)
    (hmax : m.activations.length < Limits.maxActivations)
    (h : ofExec (Exec.activate f args purpose) m = .more m' mode) :
    m'.Stands D m (m.activation purpose) own ∧ ∀ a as, m'.activations = a :: as → mode.Serves m' a := by
  refine ofExec_more (R := fun mode m' => m'.Stands D m (m.activation purpose) own ∧
      ∀ a as, m'.activations = a :: as → mode.Serves m' a)
    (Exec.activate_meets hm hmax fun m₁ hs hf htop hact => ?_) (fun _ _ h => ⟨h, fun _ _ _ => trivial⟩) h
  have hbegun : m₁.Stands D m (m.activation purpose) own := by
    refine ⟨hs.imp (Nat.le_refl _) fun _ => False.elim, Nat.le_trans hk hs.cellsSize, ⟨_, _, hact, ?_⟩, [], hf,
      fun e he => ?_⟩
    · show Layers _ _ _ _ _ m₁.frames
      rw [hf]
      exact .ground (show Rising _ [] from trivial)
    · exact (hs.opened e he).imp_right fun h => h.2.2.elim
  have hclear : m₁.Clear D m own m.frameTop := fun e he => (hs.opened e he).imp_right fun h => h.2.2.elim
  refine Exec.beginCall_keeps rfl hbegun hact ⟨Nat.le_refl _, fun hlt => ?_⟩ hclear
    fun _ _ _ _ => ⟨congrArg List.length hf, ?_⟩
  · rw [hf] at hlt
    exact absurd hlt (Nat.lt_irrefl _)
  · exact Nat.le_of_eq (by rw [m₁.frameTop_eq, hf, htop]; rfl)

theorem During.stands (hm : m.Tidy) (hk : own.known ≤ m.cells.size) (h : m.During f args purpose m' mode) :
    m'.StandsOn D m (m.activation purpose) own ∧ ∀ a as, m'.activations = a :: as → mode.Serves m' a := by
  induction h with
  | start hmax h =>
    have hbegun := activate_stands (D := D) hm hk hmax h
    exact ⟨hbegun.1.on, hbegun.2⟩
  | step _ hend hs ih =>
    obtain ⟨⟨own', hknown, hsame, hstands⟩, hserves⟩ := ih
    obtain ⟨⟨own'', hknown', hsame', hstands'⟩, hserves'⟩ := step_stands rfl hstands hserves hend hs
    refine ⟨⟨own'', hknown'.trans hknown, fun c hc => ?_, hstands'⟩, hserves'⟩
    rw [hsame' c (by rwa [hknown]), hsame c hc]

theorem During.layered (hm : m.Tidy) (h : m.During f args purpose m' mode) :
    ∃ own, m'.Stands .none m (m.activation purpose) own ∧ ∀ a as, m'.activations = a :: as → mode.Serves m' a := by
  have hempty : (⟨0, fun _ => default⟩ : Ledger).known ≤ m.cells.size := Nat.zero_le _
  obtain ⟨⟨own, _, _, hstands⟩, hserves⟩ := h.stands (D := .none) hm hempty
  exact ⟨own, hstands, hserves⟩

/-! ## 2. What a return restores -/

/-- From `m` to `m'` everything of the running functions is restored, no place is captured anew, and of
    the stack below `slot` only what was captured may have changed. -/
structure Restored (m : Machine) (slot : Nat) (m' : Machine) : Prop where
  frames : m'.frames = m.frames
  activations : m'.activations = m.activations
  top : m'.top = m.top
  openCells : ∀ e ∈ m'.openCells, e ∈ m.openCells
  stack : ∀ s < slot, s < m.stack.size → (∀ c, (s, c) ∉ m.openCells) → m'.stack[s]? = m.stack[s]?
  tidy : m'.Tidy

theorem Stands.own_activation {a : Activation} {rest : List Activation}
    (h : m'.Stands D m (m.activation purpose) own) (ha : m'.activations = a :: rest)
    (hr : rest.length = m.activations.length) :
    a = m.activation purpose ∧ rest = m.activations ∧
      Layers (m.activation purpose) m.activations m.frames a rest m'.frames := by
  obtain ⟨b, bs, hb, hl⟩ := h.layers
  obtain ⟨rfl, rfl⟩ := List.cons.inj (ha.symm.trans hb)
  obtain ⟨rfl, rfl⟩ := hl.is_ground (Nat.le_of_eq hr)
  exact ⟨rfl, rfl, hl⟩

theorem leave_restores {a : Activation} {rest : List Activation} {vs : List Value}
    (h : m₁.Stands D m (m.activation purpose) own) (ha : m₁.activations = a :: rest)
    (hr : rest.length = m.activations.length) (hs : Mode.Serves m₁ a (.deliver vs)) :
    m.Restored m.frameTop (leave a rest m₁) := by
  obtain ⟨rfl, rfl, _⟩ := h.own_activation ha hr
  obtain ⟨fs, hfs, howned⟩ := h.owned
  obtain rfl : fs = [] := List.eq_nil_of_length_eq_zero <| by
    have hlen : m₁.frames.length = m.frames.length := hs
    rw [hfs, List.length_append] at hlen
    omega
  refine ⟨hfs, rfl, rfl, fun e he => ?_, fun s hs hin hfree => h.spared.stack s hs hin hfree, ?_⟩
  · exact (howned e he).resolve_right id
  · exact ⟨h.spared.tidy.sorted, h.spared.tidy.live⟩

theorem unwind_restores {a : Activation} {rest : List Activation}
    (h : m₁.Stands D m (m.activation purpose) own) (ha : m₁.activations = a :: rest)
    (hr : rest.length = m.activations.length) (hu : unwind a rest m₁ = .ok () m') :
    m.Restored m.frameTop m' ∧ ∀ e ∈ m'.openCells, e.1 < m.frameTop := by
  obtain ⟨rfl, rfl, hl⟩ := h.own_activation ha hr
  have hunwound := unwind_meets m.frameTop (fun _ => False) (m.activation purpose) m.activations
    h.spared.tidy
  unfold Exec.Meets at hunwound
  rw [hu] at hunwound
  obtain ⟨hs, hf, ha', ht, hopen⟩ := hunwound
  obtain ⟨fs, hfs, howned⟩ := h.owned
  have hframes : m'.frames = m.frames := by
    rw [hf, hfs, List.length_append, show (m.activation purpose).depth = m.frames.length from rfl,
      Nat.add_sub_cancel]
    exact List.drop_left
  obtain ⟨gs, hgs, habove⟩ := hl.since
  obtain rfl : gs = fs := List.append_cancel_right (hgs.symm.trans hfs)
  have hspared := h.spared.trans (hs.imp (Nat.le_refl _) fun _ => False.elim)
  refine ⟨⟨hframes, ha', ht, fun e he => ?_, hspared.stack, hspared.tidy⟩, fun e he => ((hopen e).mp he).2⟩
  obtain ⟨he, hlt⟩ := (hopen e).mp he
  refine (howned e he).resolve_right fun hheld => ?_
  obtain ⟨g, hg, hholds⟩ := hheld.exists
  -- the functions of the call hold no place below its own
  have hslot := habove g hg
  have hbase : g.slot + 1 ≤ e.1 := hholds.2.2.1
  have : e.1 < (m.activation purpose).slot := hlt
  omega

theorem Returns.restores {r : Except Failure (List Value)} (hm : m.Tidy) (h : m.Returns f args purpose m' r) :
    m.Restored m.frameTop m' := by
  cases h with
  | refused _ => exact ⟨rfl, rfl, rfl, fun _ he => he, fun _ _ _ _ => rfl, hm⟩
  | delivered h ha hr =>
    obtain ⟨own, hstands, hserves⟩ := h.layered hm
    exact leave_restores hstands ha hr (hserves _ _ ha)
  | raised h ha hr hu =>
    obtain ⟨own, hstands, _⟩ := h.layered hm
    exact (unwind_restores hstands ha hr hu).1

/-! ## 3. Calls from outside -/

structure Idle (m : Machine) : Prop where
  frames : m.frames = []
  activations : m.activations = []
  openCells : m.openCells = []
  tidy : m.Tidy

theorem Idle.spared {low : Nat} (h : m.Idle) (hs : m.Spares low (fun _ => False) m') (hf : m'.frames = m.frames)
    (ha : m'.activations = m.activations) : m'.Idle where
  frames := hf.trans h.frames
  activations := ha.trans h.activations
  openCells := by
    refine List.eq_nil_iff_forall_not_mem.mpr fun e he => ?_
    rcases hs.opened e he with he | ⟨_, _, hno⟩
    · rw [h.openCells] at he
      cases he
    · exact hno
  tidy := hs.tidy

theorem Restored.idle {slot : Nat} (h : m.Idle) (hr : m.Restored slot m') : m'.Idle where
  frames := hr.frames.trans h.frames
  activations := hr.activations.trans h.activations
  openCells := by
    refine List.eq_nil_iff_forall_not_mem.mpr fun e he => ?_
    have := hr.openCells e he
    rw [h.openCells] at this
    cases this
  tidy := hr.tidy

theorem ofExec_done {x : Exec Mode} {o : Outcome} (h : ofExec x m = .done m' o) : o = .stuck := by
  unfold ofExec at h
  split at h <;> cases h
  rfl

theorem Stands.outermost {a : Activation} {rest : List Activation} (h : m₁.Stands D m (m.activation .outermost) own)
    (ha : m₁.activations = a :: rest) :
    a.purpose = .outermost ↔ rest.length ≤ m.activations.length := by
  obtain ⟨b, bs, hb, hl⟩ := h.layers
  obtain ⟨rfl, rfl⟩ := List.cons.inj (ha.symm.trans hb)
  refine ⟨fun hout => Nat.not_lt.mp fun hmore => ?_, fun hle => ?_⟩
  · obtain ⟨_, _, _, _, _, _, _, _, _, _, hserves, _⟩ := hl.inner hmore
    rw [hout] at hserves
    exact hserves
  · rw [(hl.is_ground hle).1]
    rfl

theorem Stands.goes_on (h : m₁.Stands D m (m.activation .outermost) own) (hend : mode.ends = true)
    (hs : m₁.step mode = .more m' mode') : m.activations.length + 1 < m₁.activations.length := by
  obtain ⟨a, as, ha, _⟩ := h.layers
  rw [ha]
  refine Nat.succ_lt_succ (Nat.not_le.mp fun hle => ?_)
  have hout := (h.outermost ha).mpr hle
  cases mode with
  | run | host => cases hend
  | deliver vs =>
    rw [step_deliver_eq ha, hout] at hs
    cases hs
  | raise e =>
    rw [step_raise_eq ha, hout] at hs
    split at hs <;> cases hs

theorem During.ends {o : Outcome} (hm : m.Tidy) (h : m.During f args .outermost m₁ mode)
    (hs : m₁.step mode = .done m' o) (ho : o ≠ .stuck) : ∃ r, m.Returns f args .outermost m' r := by
  obtain ⟨own, hstands, _⟩ := h.layered hm
  obtain ⟨a, as, ha, hl⟩ := hstands.layers
  have hlen : a.purpose = .outermost → as.length = m.activations.length := fun hout =>
    congrArg List.length (hl.is_ground ((hstands.outermost ha).mp hout)).2
  cases mode with
  | run | host => exact (ho (ofExec_done hs)).elim
  | deliver vs =>
    rw [step_deliver_eq ha] at hs
    split at hs
    · next hout =>
      cases hs
      exact ⟨_, .delivered h ha (hlen hout)⟩
    · exact (ho (ofExec_done hs)).elim
  | raise e =>
    rw [step_raise_eq ha] at hs
    split at hs
    · cases hs
      exact (ho rfl).elim
    · next hu =>
      split at hs
      · next hout =>
        cases hs
        exact ⟨_, .raised h ha (hlen hout) hu⟩
      · exact (ho (ofExec_done hs)).elim

theorem Idle.uncounted (h : m.Idle) (n : Nat) : { m with executed := n }.Idle :=
  ⟨h.frames, h.activations, h.openCells, h.tidy.sorted, h.tidy.live⟩

theorem Calls.during (hm : m.Idle) (h : m.Calls f args m' mode) :
    { m with executed := 0 }.During f args .outermost m' mode := by
  obtain ⟨m₁, mode1, hstart, hr⟩ := h
  have htidy := (hm.uncounted 0).tidy
  induction hr with
  | start =>
    refine .start ?_ hstart
    show m.activations.length < _
    rw [hm.activations]
    decide
  | step _ hs ih =>
    obtain ⟨own, hstands, _⟩ := ih.layered htidy
    exact .step ih (fun hend => hstands.goes_on hend hs) hs

end Machine

namespace Exec

variable {low : Nat} {P : Nat → Prop}

theorem Spares.setGlobal (name : String) (v : Value) : Spares low P (setGlobal name v) :=
  update (fun _ => rfl) (fun _ => rfl) (fun _ => rfl) (fun _ => rfl) fun _ => rfl

theorem Spares.defineAll (hs : List HostFn) : Spares low P (defineAll hs) := by
  induction hs with
  | nil => exact pure ()
  | cons h hs ih => exact (newFunction _).bind fun _ => (setGlobal _ _).bind fun _ => ih

theorem Spares.openLibrary : Spares low P openLibrary := by
  unfold Exec.openLibrary
  generalize HostFn.globals = names
  exact (defineAll _).bind fun _ => (newFunction _).bind fun _ => (newTable _).bind fun _ =>
    (setGlobal _ _).bind fun _ => get.bind fun _ => (setGlobal _ _).bind fun _ => setGlobal _ _

theorem Spares.idle {α : Type} {x : Exec α} {m : Machine} {Q : α → Machine → Prop}
    (hx : Spares 0 (fun _ => False) x) (hsafe : Safe False x m Q) (hm : m.Idle) :
    (∃ a m', x m = .ok a m' ∧ m'.Idle) ∨ ∃ e m', x m = .error e m' ∧ m'.Idle := by
  have hmeets := hx m hm.tidy
  unfold Meets at hmeets
  unfold Safe Meets at hsafe
  split at hmeets
  · next heq => exact .inl ⟨_, _, heq, hm.spared hmeets.1 hmeets.2.1 hmeets.2.2⟩
  · next heq => exact .inr ⟨_, _, heq, hm.spared hmeets.1 hmeets.2.1 hmeets.2.2⟩
  · next heq =>
    rw [heq] at hsafe
    exact hsafe.elim

-- the library is not to be unfolded any more
attribute [local irreducible] openLibrary

theorem openLibrary_idle {m : Machine} (hm : m.Idle) (hw : m.Whole) :
    (∃ a m', openLibrary m = .ok a m' ∧ m'.Idle) ∨ ∃ e m', openLibrary m = .error e m' ∧ m'.Idle :=
  Spares.openLibrary.idle (Safe.openLibrary hw) hm

end Exec

namespace Machine

variable {m : Machine}

theorem bare_idle (limits : Limits) : (bare limits).Idle := ⟨rfl, rfl, rfl, .nil, by simp [bare]⟩

/-- **Between calls from outside a machine is idle.** -/
theorem Built.idle (h : m.Built) : m.Idle := by
  induction h with
  | new limits =>
    unfold Machine.new
    obtain ⟨_, _, hx, hidle⟩ | ⟨_, _, hx, hidle⟩ :=
      Exec.openLibrary_idle (bare_idle limits) (bare_steady limits).toWhole <;>
    · rw [hx]
      exact hidle
  | setGlobal hb name hv ih =>
    unfold Machine.setGlobal
    obtain ⟨_, _, hx, hidle⟩ | ⟨_, _, hx, hidle⟩ := (Exec.Spares.setGlobal name _).idle
      (Exec.Safe.setGlobal name hb.steady.toWhole hv) ih <;>
    · rw [hx]
      exact hidle
  | @load m hb chunk name env he ih =>
    have henv : (env.getD (.table m.globals)).Known m.sizes := by
      cases env with
      | none => exact hb.steady.globals
      | some v => exact he v rfl
    unfold Machine.load
    obtain ⟨_, _, hx, hidle⟩ | ⟨_, _, hx, hidle⟩ := (Exec.Spares.loadChunk chunk name _).idle
      (Exec.Safe.loadChunk chunk name hb.steady.toWhole henv) ih <;>
    · rw [hx]
      exact hidle
  | @call m m' hb fuel f args wanted o hf hargs hc hs hu ih =>
    obtain ⟨m₁, mode1, o1, hcalls, hstep, hsame⟩ := call_ends hb.steady hf hargs hc hu
    have hstuck : o1 ≠ .stuck := by
      rintro rfl
      rcases hsame with rfl | ⟨_, _, hr, _⟩
      · exact hs rfl
      · cases hr
    obtain ⟨r, hreturns⟩ := (hcalls.during ih).ends (ih.uncounted 0).tidy hstep hstuck
    exact (hreturns.restores (ih.uncounted 0).tidy).idle (ih.uncounted 0)

/-! ## 4. Every call -/

/-- Machines in which a call may begin: between calls from outside, at any state of such a call, and
    where a library function has the results of a call that it made. -/
inductive Reachable : Machine → Prop where
  | idle {m : Machine} (h : m.Built) (n : Nat) : Reachable { m with executed := n }
  | running {m m' : Machine} {f : Value} {args : List Value} {mode : Mode} (h : m.Built)
      (hf : f.Known m.sizes) (hargs : ∀ v ∈ args, v.Known m.sizes) (hc : m.Calls f args m' mode) :
      Reachable m'
  | settling {m m' : Machine} {f : Value} {args vs : List Value} {a : Activation} {rest : List Activation}
      (h : m.Built) (hf : f.Known m.sizes) (hargs : ∀ v ∈ args, v.Known m.sizes)
      (hc : m.Calls f args m' (.deliver vs)) (ha : m'.activations = a :: rest) : Reachable (leave a rest m')

theorem Calls.tidy {m' : Machine} {f : Value} {args : List Value} {mode : Mode} (hm : m.Idle)
    (h : m.Calls f args m' mode) : m'.Tidy := by
  obtain ⟨_, hstands, _⟩ := (h.during hm).layered (hm.uncounted 0).tidy
  exact hstands.spared.tidy

theorem Reachable.tidy (h : m.Reachable) : m.Tidy := by
  cases h with
  | idle h n => exact (h.idle.uncounted n).tidy
  | running h _ _ hc => exact hc.tidy h.idle
  | settling h _ _ hc _ =>
    have := hc.tidy h.idle
    exact ⟨this.sorted, this.live⟩

theorem Ready.whole {mode : Mode} (h : m.Ready mode) : m.Whole := by
  cases mode with
  | raise e => exact h.1.toWhole
  | run | host | deliver => exact h.1.toWhole

theorem Reachable.whole (h : m.Reachable) : m.Whole := by
  cases h with
  | @idle m h n =>
    have hw := h.steady.toWhole
    exact ⟨hw.stack, hw.cells, hw.tables, hw.functions, hw.frames, hw.openCells, hw.top, hw.activations, hw.globals⟩
  | running h hf hargs hc => exact (hc.ready h.steady hf hargs).whole
  | settling h hf hargs hc ha =>
    have hsteady := (hc.ready h.steady hf hargs).1
    have hk := hsteady.activations
    rw [ha] at hk
    exact (hsteady.withoutActivation ha (hk _ (List.mem_cons_self ..)).savedTop).toWhole

theorem Whole.frameTop_le (h : m.Whole) : m.frameTop ≤ m.stack.size := by
  rw [frameTop_eq]
  cases hf : m.frames with
  | nil => exact h.top
  | cons f rest => exact Nat.max_le.mpr ⟨(h.frames f (by rw [hf]; exact List.mem_cons_self ..)).top, h.top⟩

/-- **Every call restores the machine.** However a call returns, from whatever reachable machine and
    whatever it calls, there are the frames and activations that there were, all with what they had, and
    the top. From the place of the call on nothing is captured that was not captured before; after a
    call that has begun and fails, nothing is captured there at all. Below that place only captured
    variables may have changed. -/
theorem call_restores {m m' : Machine} {f : Value} {args : List Value} {purpose : Purpose}
    {r : Except Failure (List Value)} (hm : m.Reachable) (h : m.Returns f args purpose m' r) :
    m'.frames = m.frames ∧ m'.activations = m.activations ∧ m'.top = m.top ∧
      (∀ e ∈ m'.openCells, m.frameTop ≤ e.1 → e ∈ m.openCells) ∧
      (∀ e, r = .error e → m.activations.length < Limits.maxActivations →
        ∀ o ∈ m'.openCells, o.1 < m.frameTop) ∧
      ∀ s < m.frameTop, (∀ c, (s, c) ∉ m.openCells) → m'.stack[s]? = m.stack[s]? := by
  have hr := h.restores hm.tidy
  refine ⟨hr.frames, hr.activations, hr.top, fun e he _ => hr.openCells e he, fun e he hmax => ?_,
    fun s hs => hr.stack s hs (Nat.lt_of_lt_of_le hs hm.whole.frameTop_le)⟩
  cases h with
  | refused hge => exact absurd hmax (Nat.not_lt.mpr hge)
  | delivered _ _ _ => cases he
  | raised h ha hlen hu =>
    obtain ⟨_, hstands, _⟩ := h.layered hm.tidy
    exact (unwind_restores hstands ha hlen hu).2

/-! ## 5. A captured place above a call -/

def stepFor : Nat → Machine → Mode → Option (Machine × Mode)
  | 0, m, mode => some (m, mode)
  | n + 1, m, mode =>
    match m.step mode with
    | .more m mode => stepFor n m mode
    | .done .. => none

theorem Reaches.of_stepFor {m' : Machine} {mode mode' : Mode} {n : Nat} (h : stepFor n m mode = some (m', mode')) :
    Reaches m mode m' mode' := by
  induction n generalizing m mode with
  | zero =>
    cases h
    exact .start
  | succ n ih =>
    unfold stepFor at h
    split at h
    · next hs => exact (ih h).after hs
    · cases h

/-- A `pcall` in the main function of a chunk, after some steps of its run: the machine, what is called,
    and the machine when the library function that is called has returned. -/
def protectedCall (p : Proto) (n : Nat) : Option (Machine × Value × List Value × HostReturn × Machine) :=
  match (new .standard).load (Chunk.ofProto p false) "t" none with
  | (m₀, .ok (.function id)) =>
    if id < m₀.functions.size then
      match ofExec (Exec.activate (.function id) [] .outermost) { m₀ with executed := 0 } with
      | .more m₁ mode₁ =>
        match stepFor n m₁ mode₁ with
        | some (m, .host .pcall (f :: args) ret) =>
          if m.activations.length < Limits.maxActivations then
            match ofExec (Exec.activate f args (.guarded ret)) m with
            | .more m₂ (.host h hargs hret) =>
              match m₂.step (.host h hargs hret) with
              | .more m₃ (.deliver _) =>
                match m₃.activations with
                | a :: rest => if rest.length = m.activations.length then some (m, f, args, ret, leave a rest m₃) else none
                | [] => none
              | _ => none
            | _ => none
          else none
        | _ => none
      | _ => none
    else none
  | _ => none

theorem protectedCall_returns {p : Proto} {n : Nat} {m m' : Machine} {f : Value} {args : List Value}
    {ret : HostReturn} (h : protectedCall p n = some (m, f, args, ret, m')) :
    m.Reachable ∧ ∃ vs, m.Returns f args (.guarded ret) m' (.ok vs) := by
  unfold protectedCall at h
  split at h
  case h_2 => cases h
  next m0 id hload =>
  split at h
  case isFalse => cases h
  next hid =>
  split at h
  case h_2 => cases h
  next m₁ mode1 hstart =>
  split at h
  case h_2 => cases h
  next hafter =>
  split at h
  case isFalse => cases h
  next hmax =>
  split at h
  case h_2 => cases h
  next hbegin =>
  split at h
  case h_2 => cases h
  next hstep =>
  split at h
  case h_2 => cases h
  next hact =>
  split at h
  case isFalse => cases h
  next hlen =>
  cases h
  have henv : ∀ v ∈ (none : Option Value), v.Known (new .standard).sizes := by simp
  have hbuilt : m0.Built := by
    have := (Built.new .standard).load (Chunk.ofProto p false) "t" henv
    rwa [hload] at this
  have hreturns := Returns.delivered (.step (.start hmax hbegin) (by simp [Mode.ends]) hstep) hact hlen
  exact ⟨.running hbuilt (f := .function id) hid (by simp) ⟨m₁, mode1, hstart, .of_stepFor hafter⟩, _, hreturns⟩

def shell (params maxStack : UInt8) (code : Array Instr) : Proto :=
  { mainOf code with params := params, isVararg := false, maxStack := maxStack }

def keeper : Proto :=
  { shell 0 2 #[.ofABC .getUpval 0 0 0, .ofABC .ret 0 2 0, .ofABC .ret 0 1 0] with
    upvalues := [⟨none, true, 10⟩] }

/-- A function that calls its second argument with the third and fourth, then the fourth, and gives what
    the first gives. -/
def caller : Proto :=
  shell 4 6 #[.ofABC .call 1 3 1, .ofABC .call 3 1 1, .ofABC .call 0 1 0, .ofABC .ret 0 0 0, .ofABC .ret 0 1 0]

/-- A main function whose register 10 is captured when it calls `caller` with `keeper`, `pcall`, `type`
    and a function that does nothing, but has eight registers. The registers of `caller` end below the
    captured one. -/
def highCapture : Proto :=
  { mainOf #[.ofABx .loadK 10 0, .ofABx .closure 1 0, .ofABx .closure 2 1, .ofABC .getTabUp 3 0 257,
      .ofABC .getTabUp 4 0 258, .ofABx .closure 5 2, .ofABC .call 1 5 0, .ofABC .ret 1 0 0, .ofABC .ret 0 1 0] with
    constants := #[.str (Bytes.ofString "kept"), .str (Bytes.ofString "pcall"), .str (Bytes.ofString "type")]
    protos := [caller, keeper, shell 0 8 #[.ofABC .ret 0 1 0]]
    upvalues := [⟨none, true, 0⟩]
    maxStack := 12 }

/-- **A place above a call may stay captured.** In a chunk that is accepted, though no compiler makes it,
    a function with few registers calls a library function; a register of its caller, captured and further
    up than that call, is captured still when the call has returned. -/
theorem kept_open : ¬ ∀ (m m' : Machine) (f : Value) (args : List Value) (purpose : Purpose)
    (r : Except Failure (List Value)), m.Reachable → m.Returns f args purpose m' r →
      ∀ e ∈ m'.openCells, e.1 < m.frameTop := by
  intro hall
  have hkept : (match protectedCall highCapture 8 with
      | some (m, _, _, _, m') => m'.openCells.any fun e => decide (m.frameTop ≤ e.1)
      | none => false) = true := by decide +kernel
  split at hkept
  · next m f args ret m' hcall =>
    obtain ⟨hm, vs, hreturns⟩ := protectedCall_returns hcall
    obtain ⟨e, he, hle⟩ := List.any_eq_true.mp hkept
    have := hall m m' f args _ _ hm hreturns e he
    have := of_decide_eq_true hle
    omega
  · cases hkept

theorem call_restores_pcall : ∃ (m m' : Machine) (f : Value) (args : List Value) (purpose : Purpose)
    (r : Except Failure (List Value)), m.Reachable ∧ m.Returns f args purpose m' r ∧
    m.frames.length = 2 ∧ m'.frames = m.frames ∧ ∀ s < m.frameTop, (∀ c, (s, c) ∉ m.openCells) → m'.stack[s]? = m.stack[s]? := by
  have hcalled : (match protectedCall highCapture 8 with
      | some (m, _, _, _, _) => m.frames.length == 2
      | none => false) = true := by decide +kernel
  split at hcalled
  · next m f args ret m' hcall =>
    obtain ⟨hm, vs, hreturns⟩ := protectedCall_returns hcall
    have hrestores := call_restores hm hreturns
    exact ⟨m, m', f, args, _, _, hm, hreturns, by simpa using hcalled, hrestores.1, hrestores.2.2.2.2.2⟩
  · cases hcalled

end Machine

end LuaMachine
