/-
  CODE AND MACHINE ENACT THE EVENTS OF A PROGRAM. Each instruction begins with the values of the locals in
  the first registers, no more and no less, and what an event says is in the registers when it is noted. One
  instruction may be followed by several events, or by none.

  * **`Proto.Enacts.run`** -- the machine enacts what the code enacts.
-/
import LuaMachine.Proofs.Structured.Program
import LuaMachine.Proofs.Meaning.Step

namespace LuaMachine

open Structured

def Shows (vs : List Value) (regs : Nat → Value) : Prop := ∀ (i : Nat) (v : Value), vs[i]? = some v → regs i = v

/-- The registers hold what the event says, for locals that had these values before it. An assignment that
    changes nothing needs no register. -/
def Structured.Event.Holds (vs : List Value) (regs : Nat → Value) : Event → Prop
  | declared v => regs vs.length = v
  | assigned i v => i < vs.length ∧ (vs[i]? = some v ∨ regs i = v)
  | left n => n ≤ vs.length

theorem Shows.congr {vs : List Value} {regs regs' : Nat → Value} (h : Shows vs regs)
    (hr : ∀ i < vs.length, regs' i = regs i) : Shows vs regs' :=
  fun i v hv => (hr i (List.getElem?_eq_some_iff.mp hv).1).trans (h i v hv)

theorem Shows.take {vs : List Value} {regs : Nat → Value} (h : Shows vs regs) (n : Nat) : Shows (vs.take n) regs := by
  intro i v hv
  rw [List.getElem?_take] at hv
  split at hv
  · exact h i v hv
  · cases hv

/-! ## 1. Code -/

/-- From one place to another the code runs `n` instructions and enacts these events, which take the
    locals from the first values to the last ones. -/
inductive Proto.Enacts (p : Proto) : Nat → List Value → Spot → List Event → List Value → Spot → Prop where
  | refl (vs : List Value) (s : Spot) : Enacts p 0 vs s [] vs s
  | step {n : Nat} {vs vs' : List Value} {s s₁ s' : Spot} {es : List Event} (hs : Shows vs s.regs)
      (he : p.effect? s = some (.ok s₁)) (h : Enacts p n vs s₁ es vs' s') : Enacts p (n + 1) vs s es vs' s'
  | event {n : Nat} {vs vs' : List Value} {s s' : Spot} {e : Event} {es : List Event} (hh : e.Holds vs s.regs)
      (h : Enacts p n (e.apply vs) s es vs' s') : Enacts p n vs s (e :: es) vs' s'

namespace Proto

variable {p : Proto} {n m low : Nat} {vs vs1 vs' : List Value} {s s₁ s' : Spot} {es es' : List Event}

theorem Enacts.trans (h : p.Enacts n vs s es vs1 s₁) (h' : p.Enacts m vs1 s₁ es' vs' s') :
    p.Enacts (n + m) vs s (es ++ es') vs' s' := by
  induction h with
  | refl =>
    rw [Nat.zero_add]
    exact h'
  | step hs he _ ih =>
    rw [Nat.add_right_comm]
    exact .step hs he (ih h')
  | event hh _ ih => exact .event hh (ih h')

theorem Enacts.noted (h : p.Enacts n vs s es vs1 s₁) {e : Event} (hh : e.Holds vs1 s₁.regs) :
    p.Enacts n vs s (es ++ [e]) (e.apply vs1) s₁ :=
  h.trans (.event hh (.refl _ _))

/-- **A way on which the locals keep their values enacts no event.** -/
theorem Path.enacts (h : p.Path low s s') (hs : Shows vs s.regs) (hl : vs.length ≤ low) :
    ∃ n, p.Enacts n vs s [] vs s' := by
  induction h with
  | refl s => exact ⟨0, .refl _ s⟩
  | step he hk _ ih =>
    obtain ⟨n, hn⟩ := ih (hs.congr fun i hi => hk i (Nat.lt_of_lt_of_le hi hl))
    exact ⟨n + 1, .step hs he hn⟩

theorem Path.shows (h : p.Path low s s') (hs : Shows vs s.regs) (hl : vs.length ≤ low) : Shows vs s'.regs :=
  hs.congr fun i hi => h.keeps i (Nat.lt_of_lt_of_le hi hl)

theorem Enacts.declared (ws : List Value) (h : ∀ (i : Nat) (v : Value), ws[i]? = some v → s.regs (vs.length + i) = v) :
    p.Enacts 0 vs s (ws.map .declared) (vs ++ ws) s := by
  induction ws generalizing vs with
  | nil =>
    rw [List.append_nil]
    exact .refl vs s
  | cons w ws ih =>
    refine .event (h 0 w rfl) ?_
    rw [show vs ++ w :: ws = vs ++ [w] ++ ws by simp]
    refine ih fun i v hv => ?_
    have hlen : (Event.apply vs (.declared w)).length = vs.length + 1 := by simp [Event.apply]
    rw [hlen, Nat.add_assoc, Nat.add_comm 1 i]
    exact h (i + 1) v hv

end Proto

/-! ## 2. Traces -/

namespace Proto

/-- How the code ends where a run ends: with `D` where the run has come to its end, with `B` where a `break`
    has left it, before a comparison that fails, or after at least `bound` instructions. -/
def Ends (p : Proto) (bound n : Nat) (D B : List Value → Spot → Prop) (vs : List Value) (s : Spot) : Ending → Prop
  | .done ws => vs = ws ∧ D ws s
  | .broke ws => vs = ws ∧ B ws s
  | .clash c => Shows vs s.regs ∧ p.effect? s = some (.error c)
  | .endless => bound ≤ n

/-- From `s` the code enacts a trace. Where the bound on the rounds of loops did not suffice, as many
    instructions have been run. -/
def Traces (p : Proto) (bound : Nat) (D B : List Value → Spot → Prop) (vs : List Value) (s : Spot) (t : Trace) : Prop :=
  ∃ n vs' s', p.Enacts n vs s t.events vs' s' ∧ p.Ends bound n D B vs' s' t.ending

variable {p : Proto} {n m k k' low : Nat} {vs vs1 : List Value} {s s₁ : Spot} {es : List Event} {t : Trace}
  {D D' B B' : List Value → Spot → Prop} {e : Ending}

theorem Ends.imp (h : p.Ends k n D B vs s e) (hk : k ≤ n → k' ≤ m) (hD : ∀ ws s', D ws s' → D' ws s')
    (hB : ∀ ws s', B ws s' → B' ws s') : p.Ends k' m D' B' vs s e := by
  cases e with
  | done ws => exact ⟨h.1, hD _ _ h.2⟩
  | broke ws => exact ⟨h.1, hB _ _ h.2⟩
  | clash c => exact h
  | endless => exact hk h

namespace Traces

theorem stop (h : D vs s) : p.Traces k D B vs s (.stop (.done vs)) := ⟨0, vs, s, .refl vs s, rfl, h⟩

theorem broke (h : B vs s) : p.Traces k D B vs s (.stop (.broke vs)) := ⟨0, vs, s, .refl vs s, rfl, h⟩

theorem imp (h : p.Traces k D B vs s t) (hD : ∀ ws s', D ws s' → D' ws s') (hB : ∀ ws s', B ws s' → B' ws s') :
    p.Traces k D' B' vs s t := by
  obtain ⟨n, vs', s', hn, hend⟩ := h
  exact ⟨n, vs', s', hn, hend.imp id hD hB⟩

theorem after (h : p.Enacts n vs s es vs1 s₁) (h' : p.Traces k D B vs1 s₁ t) :
    p.Traces (n + k) D B vs s (t.after es) := by
  obtain ⟨m, vs', s', hm, hend⟩ := h'
  exact ⟨n + m, vs', s', h.trans hm, hend.imp (Nat.add_le_add_left · n) (fun _ _ => id) fun _ _ => id⟩

theorem bound (h : p.Traces k D B vs s t) (hk : k' ≤ k) : p.Traces k' D B vs s t := by
  obtain ⟨n, vs', s', hn, hend⟩ := h
  exact ⟨n, vs', s', hn, hend.imp (Nat.le_trans hk) (fun _ _ => id) fun _ _ => id⟩

theorem from_enacts (h : p.Enacts n vs s [] vs s₁) (h' : p.Traces k D B vs s₁ t) : p.Traces k D B vs s t :=
  (after h h').bound (Nat.le_add_left k n)

theorem from_path (h : p.Path low s s₁) (hs : Shows vs s.regs) (hl : vs.length ≤ low) (h' : p.Traces k D B vs s₁ t) :
    p.Traces k D B vs s t := by
  obtain ⟨n, hn⟩ := h.enacts hs hl
  exact h'.from_enacts hn

theorem clash {c : Clash} (h : p.Fails low s c) (hs : Shows vs s.regs) (hl : vs.length ≤ low) :
    p.Traces k D B vs s (.stop (.clash c)) := by
  obtain ⟨s', hpath, he⟩ := h
  obtain ⟨n, hn⟩ := hpath.enacts hs hl
  exact ⟨n, vs, s', hn, hpath.shows hs hl, he⟩

/-- **One run after another.** -/
theorem andThen {next : List Value → Trace} (h : p.Traces k D B vs s t)
    (h' : ∀ ws s', D ws s' → p.Traces k D' B ws s' (next ws)) : p.Traces k D' B vs s (t.andThen next) := by
  obtain ⟨n, vs', s', hn, hend⟩ := h
  unfold Trace.andThen
  split
  · next ws ht =>
    rw [ht] at hend
    obtain ⟨rfl, hd⟩ := hend
    exact (after hn (h' _ _ hd)).bound (Nat.le_add_left k n)
  · next ht =>
    refine ⟨n, vs', s', hn, ?_⟩
    cases he : t.ending with
    | done ws => exact absurd he (ht ws)
    | broke ws | clash c | endless =>
      rw [he] at hend
      exact hend

theorem leaving {m : Nat} (h : p.Traces k D B vs s t) (hD : ∀ ws s', D ws s' → m ≤ ws.length ∧ D' (ws.take m) s')
    (hB : ∀ ws s', B ws s' → m ≤ ws.length ∧ B' (ws.take m) s') : p.Traces k D' B' vs s (t.leaving m) := by
  obtain ⟨n, vs', s', hn, hend⟩ := h
  unfold Trace.leaving
  cases ht : t.ending with
  | done ws =>
    rw [ht] at hend
    obtain ⟨rfl, hd⟩ := hend
    exact ⟨n, _, s', hn.noted (e := .left m) (hD _ _ hd).1, rfl, (hD _ _ hd).2⟩
  | broke ws =>
    rw [ht] at hend
    obtain ⟨rfl, hb⟩ := hend
    exact ⟨n, _, s', hn.noted (e := .left m) (hB _ _ hb).1, rfl, (hB _ _ hb).2⟩
  | clash c | endless =>
    rw [ht] at hend
    exact ⟨n, vs', s', hn, by rw [ht]; exact hend⟩

/-- **Round after round of a loop.** Every round that comes to its end runs at least one instruction until
    the next one begins. -/
theorem loop {once : List Value → Trace} {bound : Nat} {I : List Value → Spot → Prop}
    (h : ∀ vs s, I vs s → p.Traces bound (fun ws s' => ∃ n s'', p.Enacts (n + 1) ws s' [] ws s'' ∧ I ws s'') D vs s
      (once vs)) (hk : k ≤ bound) (hs : I vs s) : p.Traces k D B vs s (Trace.loop once k vs) := by
  induction k generalizing vs s with
  | zero => exact ⟨0, vs, s, .refl vs s, Nat.le_refl 0⟩
  | succ k ih =>
    obtain ⟨n, vs', s', hn, hend⟩ := h vs s hs
    unfold Trace.loop
    dsimp only
    cases ht : (once vs).ending with
    | done ws =>
      rw [ht] at hend
      obtain ⟨rfl, m, s'', hm, hi⟩ := hend
      have hround := hn.trans hm
      rw [List.append_nil] at hround
      refine (after hround (ih (Nat.le_of_succ_le hk) hi)).bound ?_
      omega
    | broke ws =>
      rw [ht] at hend
      exact ⟨n, vs', s', hn, hend⟩
    | clash c =>
      rw [ht] at hend
      exact ⟨n, vs', s', hn, by rw [ht]; exact hend⟩
    | endless =>
      rw [ht] at hend
      exact ⟨n, vs', s', hn, by rw [ht]; exact Nat.le_trans hk hend⟩

end Traces

end Proto

/-! ## 3. The machine -/

namespace Machine

def Exposes (f : Frame) (rest : List Frame) (Q : (Nat → Value) → Prop) (m : Machine) : Prop :=
  (∃ pc, m.frames = { f with pc := pc } :: rest) ∧ Q (m.registers f.base)

/-- From one state to another the machine runs `n` instructions of the function of `f` and enacts these
    events, which take the locals from the first values to the last ones. -/
inductive Enacts (f : Frame) (rest : List Frame) : Nat → List Value → Machine → List Event → List Value → Machine →
    Prop where
  | refl (vs : List Value) (m : Machine) : Enacts f rest 0 vs m [] vs m
  | step {n : Nat} {vs vs' : List Value} {m m₁ m' : Machine} {es : List Event} (hs : m.Exposes f rest (Shows vs))
      (hstep : m.step .run = .more m₁ .run) (h : Enacts f rest n vs m₁ es vs' m') : Enacts f rest (n + 1) vs m es vs' m'
  | event {n : Nat} {vs vs' : List Value} {m m' : Machine} {e : Event} {es : List Event}
      (hh : m.Exposes f rest (e.Holds vs)) (h : Enacts f rest n (e.apply vs) m es vs' m') :
      Enacts f rest n vs m (e :: es) vs' m'

variable {f : Frame} {rest : List Frame} {n fuel : Nat} {vs vs' : List Value} {m0 m m' : Machine} {es : List Event}

theorem Enacts.runFor_add (h : Enacts f rest n vs m es vs' m') (fuel : Nat) :
    runFor (n + fuel) m .run = runFor fuel m' .run := by
  induction h with
  | refl => rw [Nat.zero_add]
  | step _ hstep _ ih =>
    rw [Nat.add_right_comm, runFor, hstep]
    exact ih
  | event _ _ ih => exact ih

theorem Enacts.unfinished (h : Enacts f rest n vs m es vs' m') (hf : fuel ≤ n) :
    (runFor fuel m .run).2 = .unfinished := by
  induction h generalizing fuel with
  | refl =>
    obtain rfl : fuel = 0 := Nat.le_zero.mp hf
    rfl
  | step _ hstep _ ih =>
    cases fuel with
    | zero => rfl
    | succ fuel =>
      rw [runFor, hstep]
      exact ih (Nat.le_of_succ_le_succ hf)
  | event _ _ ih => exact ih hf

end Machine

theorem Machine.On.exposes {m0 m : Machine} {f : Frame} {rest : List Frame} {s : Spot} {Q : (Nat → Value) → Prop}
    (h : Machine.On m0 f rest s m) (hq : Q s.regs) : m.Exposes f rest Q := by
  refine ⟨⟨s.pc, h.frames⟩, ?_⟩
  rw [h.regs]
  exact hq

open Machine in
/-- **The machine enacts what the code enacts.** -/
theorem Proto.Enacts.run {f : Frame} {rest : List Frame} {n : Nat} {vs vs' : List Value} {m0 m : Machine} {s s' : Spot}
    {es : List Event} (h : f.proto.Enacts n vs s es vs' s') (hm : On m0 f rest s m) (hl : m0.limits.Endless)
    (hp : f.proto.Sound) : ∃ m', On m0 f rest s' m' ∧ Machine.Enacts f rest n vs m es vs' m' := by
  induction h generalizing m with
  | refl => exact ⟨m, hm, .refl _ _⟩
  | step hs he _ ih =>
    obtain ⟨m1, hstep, hm1⟩ := hm.step hl hp he
    obtain ⟨m', hm', hrun⟩ := ih hm1
    exact ⟨m', hm', .step (hm.exposes hs) hstep hrun⟩
  | event hh _ ih =>
    obtain ⟨m', hm', hrun⟩ := ih hm
    exact ⟨m', hm', .event (hm.exposes hh) hrun⟩

end LuaMachine
