/-
  STEPS DURING A CALL. Each step keeps the layers that the call has built, spares what is below them, and
  knows whose the captured places are.

  * `Machine.step_stands` -- **every step of a call but its last** keeps a machine standing.
-/
import LuaMachine.Proofs.Machine.Layer

namespace LuaMachine

namespace Exec

open Layers (Fits)

variable {D : Discipline} {m₀ m : Machine} {a₀ a : Activation} {as : List Activation} {own : Ledger}
  {α β : Type}

/-! ## 1. Steps during a call -/

def Keeps (D : Discipline) (m₀ : Machine) (a₀ : Activation) (own : Ledger) (x : Exec Mode)
    (m : Machine) : Prop :=
  Meets True (fun _ m' => m'.Stands D m₀ a₀ own) x m fun mode m' => m'.Stands D m₀ a₀ own ∧
    ∀ a as, m'.activations = a :: as → mode.Serves m' a

theorem Keeps.pure {mode : Mode} (h : m.Stands D m₀ a₀ own)
    (hs : ∀ a as, m.activations = a :: as → mode.Serves m a) : Keeps D m₀ a₀ own (Pure.pure mode) m :=
  ⟨h, hs⟩

theorem Keeps.failWith {e : Failure} (h : m.Stands D m₀ a₀ own) : Keeps D m₀ a₀ own (failWith e) m := h

theorem Keeps.stuck : Keeps D m₀ a₀ own stuck m := trivial

section

variable {S : Prop} {E : Failure → Machine → Prop} {R : β → Machine → Prop}

theorem Meets.and {E' : Failure → Machine → Prop} {x : Exec α} {Q Q' : α → Machine → Prop}
    (h : Meets S E x m Q) (h' : Meets S E' x m Q') :
    Meets S (fun e m' => E e m' ∧ E' e m') x m fun a m' => Q a m' ∧ Q' a m' := by
  unfold Meets at *
  split at h
  · next hx =>
    rw [hx] at h'
    exact ⟨h, h'⟩
  · next hx =>
    rw [hx] at h'
    exact ⟨h, h'⟩
  · exact h

theorem Meets.need {o : Option α} {k : α → Exec β} (h : ∀ a, o = some a → Meets True E (k a) m R) :
    Meets True E (Exec.need o >>= k) m R := by
  cases o with
  | none => exact trivial
  | some a => exact h a rfl

theorem Meets.read {i : Nat} {k : Value → Exec β} (h : ∀ v, m.stack[i]? = some v → Meets True E (k v) m R) :
    Meets True E (Exec.read i >>= k) m R := by
  refine Meets.bind (show Meets True E (Exec.need m.stack[i]?) m _ from ?_)
  cases hv : m.stack[i]? with
  | none => exact trivial
  | some v => exact h v hv

theorem Meets.readMany {i n : Nat} {k : List Value → Exec β} (h : ∀ vs, Meets True E (k vs) m R) :
    Meets True E (Exec.readMany i n >>= k) m R := by
  refine Meets.bind (show Meets True E (if i + n ≤ m.stack.size then _ else _) m _ from ?_)
  split
  · exact h _
  · exact trivial

theorem Meets.write {i : Nat} {v : Value} {k : Unit → Exec β}
    (h : ∀ hi : i < m.stack.size, Meets True E (k ()) { m with stack := m.stack.set i v hi } R) :
    Meets True E (Exec.write i v >>= k) m R := by
  refine Meets.bind ?_
  unfold Meets Exec.write
  by_cases hi : i < m.stack.size
  · rw [dif_pos hi]
    exact h hi
  · rw [dif_neg hi]
    trivial

theorem failCall_meets {slot : Nat} {v : Value} :
    Meets True (fun _ m' => m' = m) (failCall slot v : Exec α) m fun _ _ => False := by
  unfold failCall
  refine Meets.get ?_
  split
  · split <;> exact rfl
  · exact rfl

end

theorem Spares.thenStands {x : Exec α} {k : α → Exec β} {R : β → Machine → Prop}
    (hx : Spares a₀.slot (fun _ => False) x) (h : m.Stands D m₀ a₀ own)
    (hk : ∀ a m', m'.Stands D m₀ a₀ own → m'.frames = m.frames → m'.activations = m.activations →
      (∀ slot, m.Clear D m₀ own slot → m'.Clear D m₀ own slot) →
      Meets True (fun _ m' => m'.Stands D m₀ a₀ own) (k a) m' R) :
    Meets True (fun _ m' => m'.Stands D m₀ a₀ own) (x >>= k) m R :=
  Meets.bind (Meets.imp (hx m h.spared.tidy) (fun _ _ ⟨hs, hf, ha⟩ => h.calm hs hf ha)
    fun a m' ⟨hs, hf, ha⟩ => hk a m' (h.calm hs hf ha) hf ha fun _ hc => hc.calm hs)

theorem Spares.thenKeeps {x : Exec α} {k : α → Exec Mode} (hx : Spares a₀.slot (fun _ => False) x)
    (h : m.Stands D m₀ a₀ own)
    (hk : ∀ a m', m'.Stands D m₀ a₀ own → m'.frames = m.frames → m'.activations = m.activations →
      (∀ slot, m.Clear D m₀ own slot → m'.Clear D m₀ own slot) →
      Keeps D m₀ a₀ own (k a) m') : Keeps D m₀ a₀ own (x >>= k) m := hx.thenStands h hk

/-! ## 2. Returning -/

theorem endCall_keeps {f : Frame} {fs : List Frame} {vs : List Value} (h0 : a₀.depth = m₀.frames.length)
    (h : m.Runs D m₀ a₀ own f fs) (hbelow : ∀ e ∈ m.openCells, e ∈ m₀.openCells ∨ e.1 < f.base) :
    Keeps D m₀ a₀ own (endCall vs) m := by
  obtain ⟨a, as, ha, hd, hl⟩ := h.layers
  rw [h.frames_eq] at hd hl
  have hstands := h.pop h0 hbelow
  have hlow : a₀.slot ≤ f.slot := Nat.le_trans hl.slot_le (hl.head h0 hd).1
  unfold Keeps Meets
  rw [endCall_of_frames vs h.frames_eq ha]
  show Keeps D m₀ a₀ own _ _
  split
  · next hle =>
    refine Keeps.pure hstands fun b bs hb => ?_
    obtain ⟨rfl, rfl⟩ := List.cons.inj (ha.symm.trans hb)
    exact Nat.le_antisymm hle (Nat.le_of_lt_succ hd)
  · next hlt =>
    refine (Spares.place hlow vs f.wanted).thenKeeps hstands fun _ m' hm' hf' ha' _ => Keeps.pure hm' fun b bs hb => ?_
    obtain ⟨rfl, rfl⟩ := List.cons.inj ((ha'.trans ha).symm.trans hb)
    show a.depth < m'.frames.length
    rw [hf']
    exact Nat.not_le.mp hlt

theorem close_runs {f : Frame} {fs : List Frame} (h : m.Runs D m₀ a₀ own f fs) :
    Meets True (fun _ _ => False) (close f.base) m fun _ m' => m'.Runs D m₀ a₀ own f fs ∧
      m'.stack = m.stack ∧ m'.functions = m.functions ∧ m'.activations = m.activations ∧
        ∀ e ∈ m'.openCells, e ∈ m₀.openCells ∨ e.1 < f.base :=
  Meets.imp (closed a₀.slot (fun _ => False) f.base h.spared.tidy) (fun _ _ h => h)
    fun _ _ ⟨hs, hf, ha, hstack, hfun, hopen⟩ =>
      ⟨h.calm hs hf ha, hstack, hfun, ha, fun e he => .inr ((hopen e).mp he).2⟩

theorem finish_keeps {ret : HostReturn} {vs : List Value} (h0 : a₀.depth = m₀.frames.length)
    (h : m.Stands D m₀ a₀ own) (ha : m.activations = a :: as) (hr : ret.Serves a.depth m.frames) :
    Keeps D m₀ a₀ own (finish ret vs) m := by
  obtain ⟨b, bs, hb, hl⟩ := h.layers
  obtain ⟨rfl, rfl⟩ := List.cons.inj (ha.symm.trans hb)
  cases ret with
  | answer =>
    refine Keeps.pure h fun b bs hb => ?_
    obtain ⟨rfl, rfl⟩ := List.cons.inj (ha.symm.trans hb)
    exact hr
  | place dest wanted =>
    obtain ⟨hd, f, rest, hf, hdest⟩ := hr
    have hslot := (Layers.head h0 (hf ▸ hl) (hf ▸ hd)).1
    have hlow : a₀.slot ≤ dest := Nat.le_trans hl.slot_le (Nat.le_trans hslot (Nat.le_of_succ_le hdest))
    refine (Spares.place hlow vs wanted).thenKeeps h fun _ m' hm' hf' ha' _ => Keeps.pure hm' fun b bs hb => ?_
    obtain ⟨rfl, rfl⟩ := List.cons.inj ((ha'.trans ha).symm.trans hb)
    show a.depth < m'.frames.length
    rwa [hf']
  | tail base =>
    obtain ⟨hd, f, rest, hf, rfl⟩ := hr
    obtain ⟨fs, rfl, hruns, _⟩ := h.running h0 hf fun b bs hb => by
      obtain ⟨rfl, rfl⟩ := List.cons.inj (ha.symm.trans hb)
      exact hd
    exact Meets.bind (Meets.imp (close_runs hruns) (fun _ _ h => h.elim)
      fun _ m' ⟨hruns', _, _, _, hbelow⟩ => endCall_keeps h0 hruns' hbelow)

theorem settleFailure_keeps {purpose : Purpose} {e : Failure} (h0 : a₀.depth = m₀.frames.length)
    (h : m.Stands D m₀ a₀ own) (ha : m.activations = a :: as) (hp : purpose.Serves a.depth m.frames) :
    Keeps D m₀ a₀ own (settleFailure purpose e) m := by
  unfold settleFailure
  split
  · split
    · exact finish_keeps h0 h ha hp
    · exact Keeps.failWith h
  · exact Keeps.failWith h

/-! ## 3. Beginning calls -/

theorem pushFrame_meets_stands {slot nargs : Nat} {wanted : Option Nat} {p : Proto} {cells : Array Nat}
    (h0 : a₀.depth = m₀.frames.length) (h : m.Stands D m₀ a₀ own) (ha : m.activations = a :: as)
    (hfits : Fits a m.frames slot) (hclear : m.Clear D m₀ own slot) :
    Meets True (fun _ m' => m'.Stands D m₀ a₀ own) (pushFrame slot nargs wanted p cells) m fun _ m' =>
      m'.Stands D m₀ a₀ own ∧ m'.activations = m.activations ∧ a.depth < m'.frames.length := by
  obtain ⟨b, bs, hb, hl⟩ := h.layers
  obtain ⟨rfl, rfl⟩ := List.cons.inj (ha.symm.trans hb)
  have hlow : a₀.slot ≤ slot := Nat.le_trans hl.slot_le hfits.1
  -- the frame, whatever its other arguments are
  have hpush : ∀ (m1 : Machine) (varargs : List Value), m1.Stands D m₀ a₀ own → m1.frames = m.frames →
      m1.activations = m.activations → m1.Clear D m₀ own slot →
      { m1 with frames := ⟨slot, 0, wanted, p, cells, varargs⟩ :: m1.frames }.Stands D m₀ a₀ own := by
    intro m1 varargs h1 hf1 ha1 hc1
    obtain ⟨fs, hfs, howned⟩ := h1.owned
    refine ⟨h1.spared.trans (.same h1.spared.tidy rfl rfl rfl), h1.known, ⟨a, as, ha1.trans ha, ?_⟩,
      ⟨slot, 0, wanted, p, cells, varargs⟩ :: fs, congrArg (_ :: ·) hfs, fun e he => ?_⟩
    · show Layers a₀ m₀.activations m₀.frames a as (_ :: m1.frames)
      rw [hf1]
      exact hl.push h0 hfits
    · rcases howned e he with hold | hheld
      · exact .inl hold
      · exact (hc1 e he).imp_right fun hle => .inr ⟨hle, hheld⟩
  have hmodify : ∀ (m1 : Machine) (varargs : List Value), m1.Stands D m₀ a₀ own → m1.frames = m.frames →
      m1.activations = m.activations → m1.Clear D m₀ own slot → Meets True (fun _ m' => m'.Stands D m₀ a₀ own)
        (modify fun m => { m with frames := ⟨slot, 0, wanted, p, cells, varargs⟩ :: m.frames }) m1
        fun _ m' => m'.Stands D m₀ a₀ own ∧ m'.activations = m.activations ∧ a.depth < m'.frames.length := by
    intro m1 varargs h1 hf1 ha1 hc1
    refine ⟨hpush m1 varargs h1 hf1 ha1 hc1, ha1, ?_⟩
    have := hl.depth_le h0
    rw [← hf1] at this
    exact Nat.lt_succ_of_le this
  unfold pushFrame
  extract_lets base top params start begun
  have hstart : a₀.slot ≤ start := Nat.le_add_right_of_le (Nat.le_succ_of_le hlow)
  have hbegun : ∀ varargs m1, m1.Stands D m₀ a₀ own → m1.frames = m.frames → m1.activations = m.activations →
      m1.Clear D m₀ own slot →
      Meets True (fun _ m' => m'.Stands D m₀ a₀ own) (begun varargs) m1 fun _ m' =>
        m'.Stands D m₀ a₀ own ∧ m'.activations = m.activations ∧ a.depth < m'.frames.length := by
    intro varargs m1 h1 hf1 ha1 hc1
    have hcleared : ∀ m2 : Machine, m2.Stands D m₀ a₀ own → m2.frames = m1.frames →
        m2.activations = m1.activations → m2.Clear D m₀ own slot → _ :=
      fun m2 h2 hf2 ha2 hc2 => (Spares.clear hstart (top - start)).thenStands h2 fun _ m3 h3 hf3 ha3 hc3 =>
        hmodify m3 varargs h3 (hf3.trans (hf2.trans hf1)) (ha3.trans (ha2.trans ha1)) (hc3 _ hc2)
    unfold begun
    extract_lets cleared
    split
    · exact Spares.stuck.thenStands h1 fun _ m2 h2 hf2 ha2 hc2 => hcleared m2 h2 hf2 ha2 (hc2 _ hc1)
    · exact hcleared m1 h1 rfl rfl hc1
  refine (Spares.ensure _).thenStands h fun _ m1 h1 hf1 ha1 hc1 => ?_
  split
  · exact (Spares.readMany _ _).thenStands h1 fun varargs m2 h2 hf2 ha2 hc2 =>
      hbegun varargs m2 h2 (hf2.trans hf1) (ha2.trans ha1) (hc2 _ (hc1 _ hclear))
  · exact hbegun [] m1 h1 hf1 ha1 (hc1 _ hclear)

theorem beginCall_keeps {slot nargs : Nat} {wanted : Option Nat} {ret : HostReturn}
    (h0 : a₀.depth = m₀.frames.length) (h : m.Stands D m₀ a₀ own) (ha : m.activations = a :: as)
    (hfits : Fits a m.frames slot) (hclear : m.Clear D m₀ own slot) (hhost : ∀ id fn, m.stack[slot]? = some (.function id) →
      m.functions[id]? = some (.host fn) → ret.Serves a.depth m.frames ∧ a.slot ≤ m.frameTop) :
    Keeps D m₀ a₀ own (beginCall slot nargs wanted ret) m := by
  unfold beginCall
  refine Meets.read fun v hv => ?_
  split
  · refine Meets.get (Meets.need fun fn hfn => ?_)
    split
    · refine Meets.readMany fun vs => Keeps.pure h fun b bs hb => ?_
      obtain ⟨rfl, rfl⟩ := List.cons.inj (ha.symm.trans hb)
      exact hhost _ _ hv hfn
    · split
      · exact Keeps.failWith h
      · refine Meets.bind (Meets.imp (pushFrame_meets_stands h0 h ha hfits hclear) (fun _ _ h => h)
          fun _ m' ⟨h', ha', hlt⟩ => Keeps.pure h' fun b bs hb => ?_)
        obtain ⟨rfl, rfl⟩ := List.cons.inj ((ha'.trans ha).symm.trans hb)
        exact hlt
  · exact Meets.imp failCall_meets (fun _ _ hm => hm ▸ h) fun _ _ h => h.elim

def KeepsTop (x : Exec α) : Prop := ∀ m, Meets True (fun _ _ => False) x m fun _ m' => m'.top = m.top

theorem KeepsTop.write (i : Nat) (v : Value) : KeepsTop (write i v) := by
  intro m
  unfold Meets Exec.write
  by_cases h : i < m.stack.size
  · rw [dif_pos h]
  · rw [dif_neg h]
    trivial

theorem KeepsTop.writeMany (i : Nat) (vs : List Value) : KeepsTop (writeMany i vs) := by
  induction vs generalizing i with
  | nil => exact fun _ => rfl
  | cons v vs ih =>
    exact fun m => Meets.bind (Meets.imp (write i v m) (fun _ _ h => h) fun _ m' h =>
      Meets.imp (ih (i + 1) m') (fun _ _ h => h) fun _ _ h' => h'.trans h)

theorem KeepsTop.ensure (n : Nat) : KeepsTop (ensure n) := by
  intro m
  show (if m.stack.size < n then _ else m).top = m.top
  split <;> rfl

theorem Spares.thenTop {x : Exec α} {k : α → Exec β} {low : Nat} {E : Failure → Machine → Prop}
    {R : β → Machine → Prop} (hx : Spares low (fun _ => False) x) (htop : KeepsTop x) (hm : m.Tidy)
    (hk : ∀ a m', m.Spares low (fun _ => False) m' → m'.frames = m.frames → m'.activations = m.activations →
      m'.top = m.top → Meets True E (k a) m' R) : Meets True E (x >>= k) m R := by
  exact Meets.bind (Meets.imp ((hx m hm).and (htop m)) (fun _ _ h => h.2.elim)
    fun a m' ⟨⟨hs, hf, ha⟩, ht⟩ => hk a m' hs hf ha ht)

theorem activate_meets {f : Value} {args : List Value} {purpose : Purpose} {E : Failure → Machine → Prop}
    {R : Mode → Machine → Prop} (hm : m.Tidy) (hmax : m.activations.length < Limits.maxActivations)
    (h : ∀ m', m.Spares m.frameTop (fun _ => False) m' → m'.frames = m.frames → m'.top = m.top →
      m'.activations = ⟨m.frames.length, m.frameTop, m.top, purpose⟩ :: m.activations →
      Meets True E (beginCall m.frameTop args.length none .answer) m' R) :
    Meets True E (activate f args purpose) m R := by
  unfold activate
  refine Meets.get ?_
  rw [if_neg (Nat.not_le.mpr hmax)]
  have hgrown : Spares m.frameTop (fun _ => False) (ensure (m.frameTop + 1 + args.length)) := Spares.ensure _
  refine hgrown.thenTop (KeepsTop.ensure _) hm fun _ m1 hs1 hf1 ha1 ht1 => ?_
  refine (Spares.writeMany (Nat.le_refl _) _).thenTop (KeepsTop.writeMany _ _) hs1.tidy
    fun _ m2 hs2 hf2 ha2 ht2 => ?_
  have hs := hs1.trans hs2
  refine h { m2 with activations := ⟨m2.frames.length, m.frameTop, m2.top, purpose⟩ :: m2.activations }
    (hs.trans (.same hs.tidy rfl rfl rfl)) (hf2.trans hf1) (ht2.trans ht1) ?_
  rw [hf2, hf1, ht2, ht1, ha2, ha1]

theorem activate_keeps {f : Value} {args : List Value} {purpose : Purpose} (h0 : a₀.depth = m₀.frames.length)
    (h : m.Stands D m₀ a₀ own) (ha : m.activations = a :: as) (hp : purpose.Serves a.depth m.frames)
    (htop : a.slot ≤ m.frameTop) : Keeps D m₀ a₀ own (activate f args purpose) m := by
  obtain ⟨b, bs, hb, hl⟩ := h.layers
  obtain ⟨rfl, rfl⟩ := List.cons.inj (ha.symm.trans hb)
  have hlow : a₀.slot ≤ m.frameTop := Nat.le_trans hl.slot_le htop
  by_cases hmax : Limits.maxActivations ≤ m.activations.length
  · have hx : activate f args purpose m = settleFailure purpose .stackOverflow m := by
      show (if Limits.maxActivations ≤ m.activations.length then _ else _ : Exec Mode) m = _
      rw [if_pos hmax]
    unfold Keeps Meets
    rw [hx]
    exact settleFailure_keeps h0 h ha hp
  · refine activate_meets h.spared.tidy (Nat.not_le.mp hmax) fun m' hs hf htop' hact => ?_
    have hl' : Layers a₀ m₀.activations m₀.frames ⟨m.frames.length, m.frameTop, m.top, purpose⟩
        (a :: as) ([] ++ m.frames) := .stacked hl rfl m.frameTop_eq htop hp trivial
    have h' : m'.Stands D m₀ a₀ own := by
      obtain ⟨fs, hfs, howned⟩ := h.owned
      refine ⟨h.spared.trans (hs.imp hlow fun _ => False.elim), Nat.le_trans h.known hs.cellsSize, ⟨_, a :: as, by rw [hact, ha], by rwa [hf]⟩,
        fs, hf.trans hfs, fun e he => ?_⟩
      exact (hs.opened e he).elim (howned e) fun ⟨_, _, hno⟩ => hno.elim
    refine beginCall_keeps h0 h' hact ⟨Nat.le_refl _, fun hlt => ?_⟩ (h.clear_top.calm hs)
      fun _ _ _ _ => ⟨congrArg List.length hf, ?_⟩
    · rw [hf] at hlt
      exact absurd hlt (Nat.lt_irrefl _)
    · exact Nat.le_of_eq (by rw [m.frameTop_eq, m'.frameTop_eq, hf, htop'])

/-! ## 4. Library functions -/

theorem loadFrom_keeps {args : List Value} {ret : HostReturn} (h0 : a₀.depth = m₀.frames.length)
    (h : m.Stands D m₀ a₀ own) (ha : m.activations = a :: as) (hr : ret.Serves a.depth m.frames)
    (htop : a.slot ≤ m.frameTop) : Keeps D m₀ a₀ own (loadFrom args ret) m := by
  unfold loadFrom
  split
  · refine (Spares.loadWith _ _).thenKeeps h fun vs m' h' hf' ha' _ => finish_keeps h0 h' (ha'.trans ha) ?_
    rwa [hf']
  · exact activate_keeps h0 h ha hr htop
  · exact h

theorem host_keeps {fn : HostFn} {args : List Value} {ret : HostReturn} (h0 : a₀.depth = m₀.frames.length)
    (h : m.Stands D m₀ a₀ own) (ha : m.activations = a :: as) (hr : ret.Serves a.depth m.frames)
    (htop : a.slot ≤ m.frameTop) : Keeps D m₀ a₀ own (host fn args ret) m := by
  have hsimple : ∀ fn, Keeps D m₀ a₀ own (do finish ret (← simple fn args)) m := fun fn =>
    Spares.simple.thenKeeps h fun vs m' h' hf' ha' _ => finish_keeps h0 h' (ha'.trans ha) (by rwa [hf'])
  unfold host
  split
  · unfold argument
    split
    · exact activate_keeps h0 h ha hr htop
    · exact h
  · exact loadFrom_keeps h0 h ha hr htop
  · exact hsimple _

theorem settleResults_keeps {purpose : Purpose} {vs : List Value} (h0 : a₀.depth = m₀.frames.length)
    (h : m.Stands D m₀ a₀ own) (ha : m.activations = a :: as) (hp : purpose.Serves a.depth m.frames)
    (htop : a.slot ≤ m.frameTop) : Keeps D m₀ a₀ own (settleResults purpose vs) m := by
  cases purpose with
  | outermost => exact hp.elim
  | guarded ret => exact finish_keeps h0 h ha hp
  | reading pieces args ret =>
    have hwhole : Keeps D m₀ a₀ own (do finish ret (← loadWith pieces.reverse.flatten "=(load)" args)) m :=
      (Spares.loadWith _ _).thenKeeps h fun vs m' h' hf' ha' _ => finish_keeps h0 h' (ha'.trans ha) (by rw [hf']; exact hp)
    show Keeps D m₀ a₀ own (pieceRead pieces args ret vs) m
    unfold pieceRead
    dsimp only
    split
    · exact hwhole
    · exact hwhole
    · exact activate_keeps h0 h ha hp htop
    · exact finish_keeps h0 h ha hp

/-! ## 5. Instructions that call or return -/

section

variable {f : Frame} {rest : List Frame} {i : Instr}

theorem fits_above (ha : m.activations = a :: as) (h0 : a₀.depth = m₀.frames.length)
    (h : m.Stands D m₀ a₀ own) (hf : m.frames = f :: rest) (hd : a.depth < m.frames.length) {slot : Nat}
    (hbase : f.base ≤ slot) : Fits a m.frames slot ∧ a.slot ≤ m.frameTop ∧ a₀.slot ≤ f.slot := by
  obtain ⟨b, bs, hb, hl⟩ := h.layers
  obtain ⟨rfl, rfl⟩ := List.cons.inj (ha.symm.trans hb)
  have hslot := (Layers.head h0 (hf ▸ hl) (hf ▸ hd)).1
  refine ⟨⟨Nat.le_trans hslot (Nat.le_of_succ_le hbase), fun _ => ⟨f, rest, hf, hbase⟩⟩, ?_,
    Nat.le_trans hl.slot_le hslot⟩
  rw [m.frameTop_eq, hf]
  have hle : f.slot ≤ f.top := by
    unfold Frame.top Frame.base
    omega
  exact Nat.le_trans hslot (Nat.le_trans hle (Nat.le_max_left _ _))

theorem call_keeps (h0 : a₀.depth = m₀.frames.length) (h : m.Stands D m₀ a₀ own) (hf : m.frames = f :: rest)
    (ha : m.activations = a :: as) (hd : a.depth < m.frames.length) {ra b c : Nat} (hra : f.base ≤ ra)
    (hclear : m.Clear D m₀ own ra) : Keeps D m₀ a₀ own (call ra b c) m := by
  refine (Spares.openCount _ _).thenKeeps h fun nargs m' h' hf' ha' hc' => ?_
  rw [← hf'] at hf hd
  rw [← ha'] at ha
  obtain ⟨hfits, htop, _⟩ := fits_above ha h0 h' hf hd hra
  exact beginCall_keeps h0 h' ha hfits (hc' _ hclear) fun _ _ _ _ => ⟨⟨hd, f, rest, hf, hra⟩, htop⟩

theorem copy_keeps {src dest : Nat} {k : Unit → Exec Mode} (hdest : a₀.slot ≤ dest) (h : m.Stands D m₀ a₀ own)
    (hk : ∀ m', m'.Stands D m₀ a₀ own → m'.frames = m.frames → m'.activations = m.activations →
      (∀ slot, m.Clear D m₀ own slot → m'.Clear D m₀ own slot) →
      Keeps D m₀ a₀ own (k ()) m') : Keeps D m₀ a₀ own (do let v ← read src; let r ← write dest v; k r) m :=
  (Spares.read src).thenKeeps h fun v _ h1 hf1 ha1 hc1 => (Spares.write hdest v).thenKeeps h1
    fun _ m2 h2 hf2 ha2 hc2 => hk m2 h2 (hf2.trans hf1) (ha2.trans ha1) fun slot hc => hc2 slot (hc1 slot hc)

theorem callIterator_keeps (h0 : a₀.depth = m₀.frames.length) (h : m.Stands D m₀ a₀ own)
    (hf : m.frames = f :: rest) (ha : m.activations = a :: as) (hd : a.depth < m.frames.length) {ra c : Nat}
    (hra : f.base ≤ ra) (hclear : m.Clear D m₀ own (ra + 3)) : Keeps D m₀ a₀ own (callIterator ra c) m := by
  have hle : f.base ≤ ra + 3 := Nat.le_add_right_of_le hra
  have hlow : a₀.slot ≤ ra :=
    Nat.le_trans (fits_above ha h0 h hf hd hle).2.2 (Nat.le_of_succ_le hra)
  refine copy_keeps (Nat.le_add_right_of_le hlow) h fun m1 h1 hf1 ha1 hc1 => ?_
  refine copy_keeps (Nat.le_add_right_of_le hlow) h1 fun m2 h2 hf2 ha2 hc2 => ?_
  refine copy_keeps (Nat.le_add_right_of_le hlow) h2 fun m3 h3 hf3 ha3 hc3 => ?_
  rw [← hf1, ← hf2, ← hf3] at hf hd
  rw [← ha1, ← ha2, ← ha3] at ha
  obtain ⟨hfits, htop, _⟩ := fits_above ha h0 h3 hf hd hle
  exact beginCall_keeps h0 h3 ha hfits (hc3 _ (hc2 _ (hc1 _ hclear))) fun _ _ _ _ => ⟨⟨hd, f, rest, hf, hle⟩, htop⟩

theorem openCount_meets {E : Failure → Machine → Prop} {start b : Nat} :
    Meets True E (openCount start b) m fun _ m' => m = m' := by
  unfold openCount
  split <;> rfl

theorem returnValues_keeps {fs : List Frame} (h0 : a₀.depth = m₀.frames.length)
    (h : m.Runs D m₀ a₀ own f fs) {ra b : Nat} : Keeps D m₀ a₀ own (returnValues f ra b) m := by
  unfold returnValues
  refine Meets.bind (Meets.imp openCount_meets (fun _ _ h => h) fun n m' hm' => ?_)
  subst hm'
  refine Meets.readMany fun vs => ?_
  exact Meets.bind (Meets.imp (close_runs h) (fun _ _ h => h.elim)
    fun _ m' ⟨hruns', _, _, _, hbelow⟩ => endCall_keeps h0 hruns' hbelow)

theorem Spares.moveDown {low src dest : Nat} {P : Nat → Prop} (hlow : low ≤ dest) (hle : dest ≤ src) (n : Nat) :
    Spares low P (moveDown src dest n) := by
  induction n generalizing src dest with
  | zero => exact Spares.pure ()
  | succ n ih =>
    exact (Spares.read _).bind fun v => (Spares.write (Nat.le_trans hlow hle) _).bind fun _ =>
      (Spares.write hlow _).bind fun _ => ih (Nat.le_succ_of_le hlow) (Nat.succ_le_succ hle)

theorem moveDown_meets {src dest : Nat} (hlt : dest < src) (n : Nat) (m : Machine) :
    Meets True (fun _ _ => False) (moveDown src dest n) m fun _ m' =>
      (∀ s < dest, m'.stack[s]? = m.stack[s]?) ∧ (∀ k < n, m'.stack[dest + k]? = m.stack[src + k]?) ∧
        m'.functions = m.functions := by
  induction n generalizing src dest m with
  | zero => exact ⟨fun _ _ => rfl, fun _ h => absurd h (Nat.not_lt_zero _), rfl⟩
  | succ n ih =>
    refine Meets.read fun v hv => Meets.write fun hsrc => Meets.write fun hdest => ?_
    have hset : ∀ s, s ≠ src → s ≠ dest → ((m.stack.set src .nil hsrc).set dest v hdest)[s]? = m.stack[s]? :=
      fun s h h' => by rw [Array.getElem?_set_ne _ h'.symm, Array.getElem?_set_ne _ h.symm]
    refine Meets.imp (ih (Nat.succ_lt_succ hlt) _) (fun _ _ h => h) fun _ m' ⟨hbelow, hmoved, hfun⟩ => ⟨fun s hs => ?_, fun k hk => ?_, hfun⟩
    · exact (hbelow s (Nat.lt_succ_of_lt hs)).trans (hset s (by omega) (by omega))
    · cases k with
      | zero => exact (hbelow dest (Nat.lt_succ_self dest)).trans ((Array.getElem?_set_self hdest).trans hv.symm)
      | succ k =>
        -- the values behind the first are where they were
        rw [show dest + (k + 1) = dest.succ + k by omega, show src + (k + 1) = src.succ + k by omega]
        exact (hmoved k (Nat.lt_of_succ_lt_succ hk)).trans (hset _ (by omega) (by omega))

theorem tailCall_keeps (h0 : a₀.depth = m₀.frames.length) (h : m.Stands D m₀ a₀ own)
    (hf : m.frames = f :: rest) (ha : m.activations = a :: as) (hd : a.depth < m.frames.length) {ra b : Nat}
    (hra : f.base ≤ ra) : Keeps D m₀ a₀ own (tailCall f ra b) m := by
  have hserves : ∀ b bs, m.activations = b :: bs → b.depth < m.frames.length := fun b bs hb => by
    obtain ⟨rfl, rfl⟩ := List.cons.inj (ha.symm.trans hb)
    exact hd
  obtain ⟨_, htop, hlow⟩ := fits_above ha h0 h hf hd hra
  obtain ⟨fs, rfl, hruns, _⟩ := h.running h0 hf hserves
  unfold tailCall
  refine Meets.bind (Meets.imp openCount_meets (fun _ _ h => h) fun nargs m1 hm1 => ?_)
  subst hm1
  refine Meets.read fun v hv => ?_
  split
  · next id =>
    refine Meets.get (Meets.need fun fn hfn => ?_)
    split
    · refine Meets.readMany fun vs => Keeps.pure h fun b bs hb => ?_
      obtain ⟨rfl, rfl⟩ := List.cons.inj (ha.symm.trans hb)
      exact ⟨⟨hd, f, _, hf, rfl⟩, htop⟩
    · refine Meets.bind (Meets.imp (close_runs hruns) (fun _ _ h => h.elim)
        fun _ m1 ⟨hruns1, hstack1, hfun1, ha1, hbelow⟩ => ?_)
      obtain ⟨b, bs, hb, hd', hl⟩ := hruns1.layers
      obtain ⟨rfl, rfl⟩ := List.cons.inj ((ha1.trans ha).symm.trans hb)
      rw [hruns1.frames_eq] at hd' hl
      have hfits := hl.fits_head h0 hd'
      have hpop : { m1 with frames := m1.frames.tail }.Stands D m₀ a₀ own := by
        rw [show m1.frames.tail = fs ++ m₀.frames by rw [hruns1.frames_eq]; rfl]
        exact hruns1.pop h0 hbelow
      have hlt : f.slot < ra := hra
      refine Meets.bind (x := modify _) (show Meets _ _ _ m1 _ from ?_)
      refine Meets.bind (Meets.imp (((Spares.moveDown (P := fun _ => False) hlow (Nat.le_of_lt hlt) (nargs + 1)) _ hpop.spared.tidy).and
        (moveDown_meets hlt (nargs + 1) _)) (fun _ _ h => h.2.elim)
        fun _ m3 ⟨⟨hs3, hf3, ha3⟩, _, hstack3, hfun3⟩ => ?_)
      have h3 := hpop.calm hs3 hf3 ha3
      refine beginCall_keeps h0 h3 (ha3.trans (ha1.trans ha)) ?_ ?_ fun id' fn' hv' hfn' => ?_
      · rw [hf3]
        show Fits a m1.frames.tail f.slot
        rw [hruns1.frames_eq]
        exact hfits
      · have hclear : ({ m1 with frames := m1.frames.tail } : Machine).Clear D m₀ own f.slot :=
          fun e he => (hbelow e he).imp_right fun hlt _ => Nat.le_of_lt_succ hlt
        exact hclear.calm hs3
      · -- the function that was moved is the one that was read, and that is a script
        rw [show m3.stack[f.slot]? = _ from hstack3 0 (Nat.succ_pos _)] at hv'
        rw [hfun3] at hfn'
        have hv'' : m.stack[ra]? = some (.function id') := by
          rw [← hstack1]
          exact hv'
        have hfn'' : m.functions[id']? = some (.host fn') := by
          rw [← hfun1]
          exact hfn'
        rw [hv] at hv''
        cases hv''
        rw [hfn] at hfn''
        cases hfn''
  · exact Meets.imp failCall_meets (fun _ _ hm => hm ▸ h) fun _ _ h => h.elim

end

end Exec

/-! ## 6. Instructions that move on -/

namespace Machine

variable {D : Discipline} {m₀ m m' : Machine} {a₀ : Activation} {own : Ledger} {f : Frame}
  {rest : List Frame} {i : Instr} {pc : Nat}

def StandsOn (m : Machine) (D : Discipline) (m₀ : Machine) (a₀ : Activation) (own : Ledger) : Prop :=
  ∃ own' : Ledger, own'.known = own.known ∧ (∀ c < own.known, own'.owner c = own.owner c) ∧
    m.Stands D m₀ a₀ own'

theorem Stands.on (h : m.Stands D m₀ a₀ own) : m.StandsOn D m₀ a₀ own := ⟨own, rfl, fun _ _ => rfl, h⟩

/-- After an instruction that moves its function on, what was captured is held as before, and what the
    instruction has captured is held by the function. -/
theorem Stands.moved (h0 : a₀.depth = m₀.frames.length) (h : m.Stands D m₀ a₀ own) (hf : m.frames = f :: rest)
    (hserves : ∀ a as, m.activations = a :: as → a.depth < m.frames.length)
    (hi : f.proto.code[f.pc]? = some i) (ho : i.opcode ≠ .ret)
    (hs : m.Spares f.base (fun s => ∃ r, s = f.base + r ∧ f.proto.Captures i r) m')
    (ha' : m'.activations = m.activations) (hf' : m'.frames = { f with pc := pc } :: rest)
    (hpc : f.proto.Next (f.pc + 1) i pc)
    (hclosed : i.opcode = .jmp → i.a.val ≠ 0 → ∀ e ∈ m'.openCells, e.1 < f.base + i.a.val - 1) :
    m'.StandsOn D m₀ a₀ own := by
  obtain ⟨fs, rfl, hruns, howned⟩ := h.running h0 hf hserves
  obtain ⟨a, as, ha, hd, hl⟩ := hruns.layers
  rw [hf] at hd hl
  have hlow : a₀.slot ≤ f.base := Nat.le_succ_of_le (Nat.le_trans hl.slot_le (hl.head h0 hd).1)
  -- what the function held it holds still
  have hkept : ∀ {o : Owner} {s : Nat}, (i.opcode = .jmp → i.a.val ≠ 0 → s < f.base + i.a.val - 1) →
      f.Holds D o s → { f with pc := pc }.Holds D o s := by
    intro o s hs ⟨hslot, hproto, hbase, hat⟩
    refine ⟨hslot, hproto, hbase, fun hg => D.goes hg hi ho (hat hg) hpc fun hj hz => ?_⟩
    have := hs hj hz
    have : f.base ≤ s := hbase
    show s - f.base + 1 < i.a.val
    omega
  -- what it has captured it holds, whoever the owner is said to be
  have hnew : ∀ r, f.proto.Captures i r → ∃ o, { f with pc := pc }.Holds D o (f.base + r) := by
    intro r hr
    have hpc' : pc = f.pc + 1 := by
      have hop := hr.1
      rcases hpc with ⟨_, rfl⟩ | ⟨hskip, _⟩ | ⟨hj | hloop, _⟩
      · rfl
      · rw [hop] at hskip
        cases hskip
      · rw [hop] at hj
        cases hj
      · rw [hop] at hloop
        cases hloop
    by_cases hg : D.Good f.proto
    · obtain ⟨k, hk⟩ := D.captured hg hi hr
      refine ⟨⟨f.slot, f.proto, k⟩, rfl, rfl, Nat.le_add_right _ _, fun _ => ?_⟩
      show D.At f.proto pc k (f.base + r - f.base)
      rwa [Nat.add_sub_cancel_left, hpc']
    · exact ⟨⟨f.slot, f.proto, 0⟩, rfl, rfl, Nat.le_add_right _ _, fun h => (hg h).elim⟩
  classical
  let owner : Nat → Owner := fun c =>
    if c < m.cells.size then own.owner c
    else Classical.epsilon fun o => ∃ s, (s, c) ∈ m'.openCells ∧ { f with pc := pc }.Holds D o s
  have hsame : ∀ c < m.cells.size, owner c = own.owner c := fun c hc => if_pos hc
  have hold : ∀ e ∈ m.openCells, owner e.2 = own.owner e.2 := fun e he => hsame _ <| by
    have := (h.spared.tidy.live e.1 e.2).mp he
    exact (Array.getElem?_eq_some_iff.mp this).1
  refine ⟨⟨own.known, owner⟩, rfl, fun c hc => hsame c (Nat.lt_of_lt_of_le hc h.known),
    h.spared.trans (hs.imp hlow fun _ _ => trivial), Nat.le_trans h.known hs.cellsSize, ⟨a, as, ha'.trans ha, ?_⟩,
    { f with pc := pc } :: fs, hf', fun e he => ?_⟩
  · rw [hf']
    exact (hl.head h0 hd).2.2 _ rfl
  · rcases hs.opened e he with hwas | ⟨hfresh, _, r, hr, hcap⟩
    · refine (howned e hwas).imp_right fun hheld => ?_
      rw [show (⟨own.known, owner⟩ : Ledger).owner e.2 = own.owner e.2 from hold e hwas]
      exact hheld.imp_left (hkept fun hj hz => hclosed hj hz e he)
    · refine .inr (.inl ?_)
      have howner : owner e.2 = _ := if_neg (Nat.not_lt.mpr hfresh)
      obtain ⟨o, ho⟩ := hnew r hcap
      obtain ⟨s, hs', hholds⟩ := Classical.epsilon_spec
        (p := fun o => ∃ s, (s, e.2) ∈ m'.openCells ∧ { f with pc := pc }.Holds D o s) ⟨o, e.1, he, hr ▸ ho⟩
      -- a cell is live at one place only
      have hplace : e.1 = s := by
        have h1 := (hs.tidy.live e.1 e.2).mp he
        have h2 := (hs.tidy.live s e.2).mp hs'
        rw [h1] at h2
        simpa using h2
      show Frame.Holds D _ (owner e.2) e.1
      rw [howner, hplace]
      exact hholds

theorem Stands.goto (h0 : a₀.depth = m₀.frames.length) (h : m.Stands D m₀ a₀ own) (hf : m.frames = f :: rest)
    (hserves : ∀ a as, m.activations = a :: as → a.depth < m.frames.length)
    (pc executed : Nat)
    (hkept : ∀ o s, f.Holds D o s → { f with pc := pc }.Holds D o s) :
    { m with executed := executed, frames := { f with pc := pc } :: rest }.Stands D m₀ a₀ own := by
  obtain ⟨fs, rfl, hruns, howned⟩ := h.running h0 hf hserves
  have hgoto := hruns.goto h0 pc executed
  obtain ⟨a, as, ha, _, hl⟩ := hgoto.layers
  refine ⟨hgoto.spared, hgoto.known, ⟨a, as, ha, hl⟩, { f with pc := pc } :: fs, rfl, fun e he => ?_⟩
  exact (howned e he).imp_right fun hheld => hheld.imp_left (hkept _ _)

end Machine

namespace Exec

open Machine (StandsOn)

variable {D : Discipline} {m₀ m : Machine} {a₀ a : Activation} {as : List Activation} {own : Ledger}
  {f : Frame} {rest : List Frame} {i : Instr}

def fetched (m : Machine) (f : Frame) (rest : List Frame) (executed : Nat) : Machine :=
  { m with executed := executed, frames := { f with pc := f.pc + 1 } :: rest }

theorem count_only (m : Machine) :
    Meets True (fun _ m' => ∃ n, m' = { m with executed := n }) count m fun _ m' => ∃ n, m' = { m with executed := n } := by
  unfold count
  refine Meets.get ?_
  dsimp only
  split <;> split
  all_goals exact ⟨_, rfl⟩

theorem fetch_meets_stands {E : Failure → Machine → Prop} {R : Frame × Instr → Machine → Prop}
    (hf : m.frames = f :: rest) (hcount : ∀ e n, E e { m with executed := n })
    (hend : ∀ e n, f.proto.code[f.pc]? = none → E e (fetched m f rest n))
    (h : ∀ i n, f.proto.code[f.pc]? = some i → R ({ f with pc := f.pc + 1 }, i) (fetched m f rest n)) :
    Meets True E fetch m R := by
  unfold fetch
  refine Meets.bind (Meets.imp (count_only m) (fun e _ hn => hn.elim fun n hn => hn ▸ hcount e n) ?_)
  rintro _ _ ⟨n, rfl⟩
  refine Meets.get ?_
  simp only [hf]
  refine Meets.set ?_
  split
  · next i hi => exact h i n hi
  · next hi => exact hend _ n hi

theorem execute_still (h : isCall i.opcode = false) :
    execute f i = (do plain f i i.opcode; return .run) := by
  unfold execute
  cases ho : i.opcode <;> rw [ho] at h <;> first | rfl | cases h

section

variable (h0 : a₀.depth = m₀.frames.length) (h : m.Stands D m₀ a₀ own) (ha : m.activations = a :: as)
  (hd : a.depth < m.frames.length) (hf : m.frames = f :: rest) (hi : f.proto.code[f.pc]? = some i) (n : Nat)

include h0 h ha hd hf hi

theorem plain_stands (ho : isCall i.opcode = false) :
    Meets True (fun _ m' => m'.StandsOn D m₀ a₀ own) (plain { f with pc := f.pc + 1 } i i.opcode)
      (fetched m f rest n) fun _ m' => m'.StandsOn D m₀ a₀ own ∧ m'.activations = m.activations ∧
        m'.frames.length = m.frames.length := by
  have hserves : ∀ b bs, m.activations = b :: bs → b.depth < m.frames.length := fun b bs hb => by
    obtain ⟨rfl, rfl⟩ := List.cons.inj (ha.symm.trans hb)
    exact hd
  have hret : i.opcode ≠ .ret := fun hr => by
    rw [hr] at ho
    cases ho
  have hsame : m.Spares f.base (fun s => ∃ r, s = f.base + r ∧ f.proto.Captures i r) (fetched m f rest n) :=
    .same h.spared.tidy rfl rfl rfl
  have hcount : ∀ (m' : Machine) (pc : Nat), m'.frames = { f with pc := pc } :: rest →
      m'.frames.length = m.frames.length := fun m' pc hf' => by rw [hf', hf]; rfl
  by_cases hj : i.opcode = .jmp
  · refine Meets.imp (jmp_meets f.base (fun s => ∃ r, s = f.base + r ∧ f.proto.Captures i r)
      (f := { f with pc := f.pc + 1 }) hj hsame.tidy rfl) (fun _ _ h => h.elim) fun _ m' ⟨hs, ha', hf', hclosed⟩ => ?_
    refine ⟨h.moved h0 hf hserves hi hret (hsame.trans hs) ha' hf' (.inr (.inr ⟨.inl hj, rfl⟩)) ?_, ha', hcount m' _ hf'⟩
    exact fun _ hz e he => (hclosed e he).2 hz
  · have hmoved : ∀ m' : Machine, (fetched m f rest n).Spares f.base
        (fun s => ∃ r, s = f.base + r ∧ f.proto.Captures i r) m' → m'.activations = m.activations →
        (∃ pc, f.proto.Next (f.pc + 1) i pc ∧ m'.frames = { f with pc := pc } :: rest) →
        m'.StandsOn D m₀ a₀ own := fun m' hs ha' ⟨pc, hpc, hf'⟩ =>
      h.moved h0 hf hserves hi hret (hsame.trans hs) ha' hf' hpc fun hj' => (hj hj').elim
    refine Meets.imp (plain_passes (f := { f with pc := f.pc + 1 }) hj (fetched m f rest n) rest hsame.tidy rfl)
      (fun _ m' ⟨hs, ha', hpc⟩ => hmoved m' hs ha' hpc) fun _ m' ⟨hs, ha', hpc⟩ => ⟨hmoved m' hs ha' hpc, ha', ?_⟩
    obtain ⟨pc, _, hf'⟩ := hpc
    exact hcount m' pc hf'

theorem call_stands (ho : isCall i.opcode = true) :
    Keeps D m₀ a₀ own (execute { f with pc := f.pc + 1 } i) (fetched m f rest n) := by
  have hserves : ∀ b bs, m.activations = b :: bs → b.depth < m.frames.length := fun b bs hb => by
    obtain ⟨rfl, rfl⟩ := List.cons.inj (ha.symm.trans hb)
    exact hd
  have hd' : a.depth < (fetched m f rest n).frames.length := by
    rw [hf] at hd
    exact hd
  -- behind a call the function holds what it held
  have hgoto : i.opcode ≠ .ret → (fetched m f rest n).Stands D m₀ a₀ own := fun hret => by
    refine h.goto h0 hf hserves (f.pc + 1) n fun o s ⟨hslot, hproto, hbase, hat⟩ =>
      ⟨hslot, hproto, hbase, fun hg => ?_⟩
    have hj : i.opcode ≠ .jmp := fun hj => by
      rw [hj] at ho
      cases ho
    exact D.goes hg hi hret (hat hg) (.inl ⟨hj, rfl⟩) fun h => (hj h).elim
  have hra : ({ f with pc := f.pc + 1 } : Frame).base ≤ ({ f with pc := f.pc + 1 } : Frame).base + i.a.val :=
    Nat.le_add_right _ _
  -- what is called is above all that good functions hold
  have hclear : ∀ level, (∀ k r, D.Good f.proto → D.At f.proto f.pc k r → r ≤ level) →
      (fetched m f rest n).Clear D m₀ own (f.base + level) := fun level hle e he => by
    obtain ⟨fs, rfl, _, howned⟩ := h.running h0 hf hserves
    refine (howned e he).imp_right fun hheld hg => ?_
    rcases hheld with ⟨_, hproto, hbase, hat⟩ | ⟨hlow, _⟩
    · have hg : D.Good f.proto := hproto ▸ hg
      have := hle _ _ hg (hat hg)
      omega
    · exact Nat.le_trans (hlow hg) (Nat.le_add_right_of_le (Nat.le_succ _))
  unfold execute
  cases hop : i.opcode <;> rw [hop] at ho hgoto <;> dsimp only
  case call =>
    exact call_keeps h0 (hgoto (by simp)) rfl ha hd' hra (hclear _ fun k r hg hat => D.call hg hi hop hat)
  case tforCall =>
    exact callIterator_keeps h0 (hgoto (by simp)) rfl ha hd' hra
      (hclear (i.a.val + 3) fun k r hg hat => D.iterator hg hi hop hat)
  case tailCall => exact tailCall_keeps h0 (hgoto (by simp)) rfl ha hd' hra
  case ret =>
    obtain ⟨fs, rfl, hruns, _⟩ := h.running h0 hf hserves
    exact returnValues_keeps h0 (hruns.goto h0 (f.pc + 1) n)
  all_goals cases ho

end

/-- **An instruction** keeps a machine standing. -/
theorem run_stands (h0 : a₀.depth = m₀.frames.length) (h : m.Stands D m₀ a₀ own)
    (ha : m.activations = a :: as) (hd : a.depth < m.frames.length) :
    Meets True (fun _ m' => m'.StandsOn D m₀ a₀ own)
      (do let (f, i) ← fetch; execute f i) m fun mode m' => m'.StandsOn D m₀ a₀ own ∧
        ∀ a as, m'.activations = a :: as → mode.Serves m' a := by
  have hserves : ∀ b bs, m.activations = b :: bs → b.depth < m.frames.length := fun b bs hb => by
    obtain ⟨rfl, rfl⟩ := List.cons.inj (ha.symm.trans hb)
    exact hd
  cases hf : m.frames with
  | nil =>
    rw [hf] at hd
    exact absurd hd (Nat.not_lt_zero _)
  | cons f rest =>
    have htidy := h.spared.tidy
    refine Meets.bind (fetch_meets_stands hf (fun e n => ?_) (fun e n hnone => ?_) fun i n hi => ?_)
    · have hcounted : { m with executed := n }.Stands D m₀ a₀ own := h.calm (.same htidy rfl rfl rfl) rfl rfl
      exact hcounted.on
    · refine (h.goto h0 hf hserves (f.pc + 1) n fun o s ⟨hslot, hproto, hbase, hat⟩ =>
        ⟨hslot, hproto, hbase, fun hg => ?_⟩).on
      -- a function that holds something is in its code
      have := D.inside hg (hat hg)
      rw [Array.getElem?_eq_getElem this] at hnone
      cases hnone
    · by_cases ho : isCall i.opcode = true
      · exact Meets.imp (call_stands h0 h ha hd hf hi n ho) (fun _ _ h => h.on)
          fun _ _ h => ⟨h.1.on, h.2⟩
      · have ho := Bool.eq_false_iff.mpr ho
        show Meets _ _ (execute { f with pc := f.pc + 1 } i) _ _
        rw [execute_still ho]
        refine Meets.bind (Meets.imp (plain_stands h0 h ha hd hf hi n ho) (fun _ _ h => h)
          fun _ m' ⟨h', ha', hlen⟩ => ⟨h', fun b bs hb => ?_⟩)
        obtain ⟨rfl, rfl⟩ := List.cons.inj ((ha'.trans ha).symm.trans hb)
        show a.depth < m'.frames.length
        rwa [hlen]

end Exec

/-! ## 7. Steps -/

def Mode.ends : Mode → Bool
  | .deliver _ | .raise _ => true
  | _ => false

namespace Machine

variable {D : Discipline} {m₀ m m' : Machine} {a₀ : Activation} {own : Ledger} {mode mode' : Mode}

theorem unwind_meets (low : Nat) (P : Nat → Prop) (a : Activation) (rest : List Activation) (hm : m.Tidy) :
    Exec.Meets True (fun _ _ => False) (unwind a rest) m fun _ m' => m.Spares low P m' ∧
      m'.frames = m.frames.drop (m.frames.length - a.depth) ∧ m'.activations = rest ∧ m'.top = a.savedTop ∧
        ∀ e, e ∈ m'.openCells ↔ e ∈ m.openCells ∧ e.1 < a.slot := by
  have hsame : m.Spares low P { m with activations := rest } := .same hm rfl rfl rfl
  refine Exec.Meets.bind (show Exec.Meets _ _ _ m _ from
    Exec.Meets.bind (Exec.Meets.imp (Exec.closed low P a.slot hsame.tidy) (fun _ _ h => h)
      fun _ m1 ⟨hs, hf, ha, _, _, hopen⟩ => ?_))
  refine ⟨hsame.trans (hs.trans (.same hs.tidy rfl rfl rfl)), ?_, ha, rfl, hopen⟩
  show m1.frames.drop (m1.frames.length - a.depth) = _
  rw [hf]

theorem ofExec_more {x : Exec Mode} {m : Machine} {E : Failure → Machine → Prop} {R : Mode → Machine → Prop}
    (h : Exec.Meets True E x m R) (hE : ∀ e m', E e m' → R (.raise e) m') (hx : ofExec x m = .more m' mode') :
    R mode' m' := by
  unfold Exec.Meets at h
  unfold ofExec at hx
  split at h <;> rename_i hr <;> rw [hr] at hx <;> cases hx
  · exact h
  · exact hE _ _ h

theorem step_deliver_eq {vs : List Value} {a : Activation} {rest : List Activation} (ha : m.activations = a :: rest) :
    m.step (.deliver vs) = match a.purpose with
      | .outermost => .done (leave a rest m) (.results vs)
      | p => ofExec (Exec.settleResults p vs) (leave a rest m) := by
  cases m
  cases ha
  rfl

theorem step_raise_eq {e : Failure} {a : Activation} {rest : List Activation} (ha : m.activations = a :: rest) :
    m.step (.raise e) = match unwind a rest m with
      | .error _ m => .done m .stuck
      | .ok _ m =>
        match a.purpose with
        | .outermost => .done m (.failed e)
        | p => ofExec (Exec.settleFailure p e) m := by
  cases m
  cases ha
  rfl

/-- **Every step of a call but its last** keeps the machine standing, and leads to a mode that can rely
    on what it needs. -/
theorem step_stands (h0 : a₀.depth = m₀.frames.length) (h : m.Stands D m₀ a₀ own)
    (hs : ∀ a as, m.activations = a :: as → mode.Serves m a)
    (hend : mode.ends = true → m₀.activations.length + 1 < m.activations.length)
    (hstep : m.step mode = .more m' mode') :
    m'.StandsOn D m₀ a₀ own ∧ ∀ a as, m'.activations = a :: as → mode'.Serves m' a := by
  obtain ⟨a, as, ha, hl⟩ := h.layers
  have hserves := hs a as ha
  have hkeeps : ∀ {x : Exec Mode} {m1 : Machine}, Exec.Keeps D m₀ a₀ own x m1 → ofExec x m1 = .more m' mode' →
      m'.StandsOn D m₀ a₀ own ∧ ∀ a as, m'.activations = a :: as → mode'.Serves m' a := by
    intro x m1 hk hx
    have hk := ofExec_more hk (R := fun mode m' => m'.Stands D m₀ a₀ own ∧
      ∀ a as, m'.activations = a :: as → mode.Serves m' a) (fun _ _ h => ⟨h, fun _ _ _ => trivial⟩) hx
    exact ⟨hk.1.on, hk.2⟩
  cases mode with
  | run => exact ofExec_more (Exec.run_stands h0 h ha hserves) (fun _ _ h => ⟨h, fun _ _ _ => trivial⟩) hstep
  | host fn args ret => exact hkeeps (Exec.host_keeps h0 h ha hserves.1 hserves.2) hstep
  | deliver vs =>
    have hmore := hend rfl
    rw [ha] at hmore
    obtain ⟨b, bs, above, below, rfl, hframes, hb, hdepth, hslot, hle, hp, _⟩ := hl.inner (Nat.lt_of_succ_lt_succ hmore)
    -- the frames are those that the activation began over
    obtain rfl : above = [] := List.eq_nil_of_length_eq_zero <| by
      have hlen : m.frames.length = a.depth := hserves
      rw [hframes, List.length_append] at hlen
      omega
    have hleft : (leave a (b :: bs) m).Stands D m₀ a₀ own := by
      refine ⟨h.spared.trans (.same h.spared.tidy rfl rfl rfl), h.known, ⟨b, bs, rfl, ?_⟩, h.owned⟩
      show Layers a₀ m₀.activations m₀.frames b bs m.frames
      rwa [hframes]
    have hbelow : (leave a (b :: bs) m).frames = below := hframes
    have htop : b.slot ≤ (leave a (b :: bs) m).frameTop := by
      rw [frameTop_eq, hbelow]
      exact hslot ▸ hle
    rw [step_deliver_eq ha] at hstep
    split at hstep
    · cases hstep
    · exact hkeeps (Exec.settleResults_keeps h0 hleft rfl (hbelow ▸ hp) htop) hstep
  | raise e =>
    have hmore := hend rfl
    rw [ha] at hmore
    obtain ⟨b, bs, above, below, rfl, hframes, hb, hdepth, hslot, hle, hp, hr⟩ := hl.inner (Nat.lt_of_succ_lt_succ hmore)
    have hunwound := unwind_meets a₀.slot (fun _ => False) a (b :: bs) h.spared.tidy
    unfold Exec.Meets at hunwound
    rw [step_raise_eq ha] at hstep
    split at hunwound
    · next m1 hx =>
      obtain ⟨hs1, hf1, ha1, ht1, hopen⟩ := hunwound
      rw [hx] at hstep
      have hbelow : m1.frames = below := by
        rw [hf1, hframes, List.length_append, hdepth, Nat.add_sub_cancel]
        exact List.drop_left
      have hleft : m1.Stands D m₀ a₀ own := by
        obtain ⟨fs, hfs, howned⟩ := h.owned
        obtain ⟨gs, rfl, _⟩ := hb.since
        refine ⟨h.spared.trans (hs1.imp (Nat.le_refl _) fun _ => False.elim),
          Nat.le_trans h.known hs1.cellsSize, ⟨b, bs, ha1, hbelow ▸ hb⟩, gs, hbelow,
          fun e he => ?_⟩
        obtain ⟨he, hlt⟩ := (hopen e).mp he
        refine (howned e he).imp_right fun hheld => ?_
        -- the functions that end hold no place below the activation's
        obtain rfl : fs = above ++ gs := List.append_cancel_right (hfs.symm.trans hframes |>.trans (List.append_assoc ..).symm)
        exact hheld.drop fun g hg => Nat.le_trans (Nat.le_of_lt hlt) (hr.le g hg)
      dsimp only at hstep
      split at hstep
      · cases hstep
      · exact hkeeps (Exec.settleFailure_keeps h0 hleft ha1 (hbelow ▸ hp)) hstep
    · exact hunwound.elim
    · next hx =>
      rw [hx] at hstep
      cases hstep

end Machine

end LuaMachine
