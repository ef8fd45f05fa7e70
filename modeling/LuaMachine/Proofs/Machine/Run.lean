/-
  RUNS ARE SAFE. What one step keeps is kept by every run of every machine that can be built from outside;
  where a run is stuck or fails as only broken code does, the code that runs there did not come from a
  source text.

  * `Machine.Ready`, `step_keeps` -- **a ready machine is ready after each step**;
  * `stuck_only_lax`, `overrun_only_skip` -- **where checked code can go wrong**;
  * `compiled_code_safe` -- **compiled code never does**.
-/
import LuaMachine.Machine.Run
import LuaMachine.Proofs.Machine.Library

namespace LuaMachine

/-! ## 1. The next instruction -/

namespace Machine

def AtEnd (m : Machine) (e : Failure) : Prop :=
  (∃ f rest, m.frames = f :: rest ∧ f.Overrun) ∧ ∃ place, e = .runtime place .ranPastEnd

def AtLax (m : Machine) : Prop :=
  ∃ f rest i, m.frames = f :: rest ∧ f.proto.code[f.pc]? = some i ∧ i.Lax f.proto.room

theorem Running.counted {m : Machine} {f : Frame} {rest : List Frame} (h : m.Running f rest) (n : Nat) :
    { m with executed := n }.Running f rest :=
  ⟨⟨h.stack, h.cells, h.tables, h.functions, h.frames, h.openCells, h.top, h.activations, h.globals⟩,
    h.frames_eq, h.inCode, h.stacked, h.called⟩

theorem Running.goto {m : Machine} {f : Frame} {rest : List Frame} (h : m.Running f rest) (pc : Nat) :
    { m with frames := { f with pc := pc } :: rest }.Running { f with pc := pc } rest :=
  ⟨Exec.whole_at h.toWhole h.frames_eq pc, rfl, h.inCode, h.stacked, h.called⟩

end Machine

namespace Exec

variable {S : Prop} {m : Machine} {f : Frame} {rest : List Frame}

theorem count_meets {I : Failure → Prop} (hm : m.Running f rest) :
    Meets S (Failed I) count m fun _ m' => m' = { m with executed := m.executed + 1 } := by
  show Meets S (Failed I) (if (_ : Bool) then Exec.failWith .interrupted else Pure.pure ())
    { m with executed := m.executed + 1 } _
  generalize (_ || _ : Bool) = spent
  cases spent with
  | false => rfl
  | true =>
    have hsane : Failure.interrupted.Sane m.sizes := ⟨trivial, rfl⟩
    exact Failed.ofSane (hm.counted _).good hsane

theorem fetch_meets (hm : m.Running f rest) (hin : f.InCode) :
    Meets S (Failed m.AtEnd) fetch m fun r m' =>
      r.1 = { f with pc := f.pc + 1 } ∧ f.proto.code[f.pc]? = some r.2 ∧ m'.Running r.1 rest ∧
        Behind r.1 r.2 := by
  refine Meets.bind ((count_meets hm).imp (fun _ _ he => he) ?_)
  rintro _ _ rfl
  have hm' := (hm.counted (m.executed + 1)).goto (f.pc + 1)
  refine Meets.get ?_
  simp only [hm.frames_eq]
  refine Meets.set ?_
  simp only [Nat.add_sub_cancel]
  cases hi : f.proto.code[f.pc]? with
  | none =>
    have hsize := Array.getElem?_eq_none_iff.mp hi
    have hover : f.Overrun := hin.resolve_left (Nat.not_lt.mpr hsize)
    exact ⟨hm'.good, trivial, fun _ => ⟨⟨f, rest, hm.frames_eq, hover⟩, _, rfl⟩⟩
  | some i => exact ⟨rfl, rfl, hm', ⟨f.pc, rfl, hi⟩, hm.known.linked.code.here⟩

end Exec

/-! ## 2. Steps -/

def Outcome.Known (s : Sizes) : Outcome → Prop
  | .results vs => ∀ v ∈ vs, v.Known s
  | .failed e => e.Known s
  | _ => True

def Machine.Ready (m : Machine) : Mode → Prop
  | .raise e => m.Good ∧ e.Known m.sizes
  | mode => m.Steady ∧ mode.Fits m

/-- What a step of `m` may come to. It is stuck only at a lax instruction, and begins to fail as
    broken code does only behind the last instruction of a function. -/
def Progress.Keeps (m : Machine) (mode : Mode) : Progress → Prop
  | .more m' mode' => m'.Ready mode' ∧
      ∀ e, mode' = .raise e → e.isInternal = true → mode = .raise e ∨ mode = .run ∧ m.AtEnd e
  | .done _ .stuck => mode = .run ∧ m.AtLax
  | .done m' o => m'.Steady ∧ o.Known m'.sizes

namespace Machine

variable {m m' : Machine} {mode : Mode} {S : Prop} {I : Failure → Prop} {x : Exec Mode}

theorem Ready.ofFits (hm : m.Steady) (h : mode.Fits m) : m.Ready mode := by
  cases mode with
  | raise e => exact ⟨hm.good, h.1⟩
  | _ => exact ⟨hm, h⟩

theorem ofExec_keeps (h : Exec.Leads S I x m') (hS : S → mode = .run ∧ m.AtLax)
    (hI : ∀ e, I e → mode = .raise e ∨ mode = .run ∧ m.AtEnd e) : (ofExec x m').Keeps m mode := by
  unfold Exec.Leads Exec.Meets at h
  unfold ofExec
  split at h
  · next mode' m'' hx =>
    rw [hx]
    refine ⟨Ready.ofFits h.1 h.2, ?_⟩
    rintro e rfl hi
    rw [h.2.2] at hi
    cases hi
  · next e m'' hx =>
    rw [hx]
    refine ⟨⟨h.1, h.2.1⟩, ?_⟩
    rintro e' he hi
    cases he
    exact hI e (h.2.2 hi)
  · next hx =>
    rw [hx]
    exact hS h

theorem Steady.withoutActivation (hm : m.Steady) {a : Activation} {rest : List Activation}
    (ha : m.activations = a :: rest) {top : Nat} (htop : top ≤ m.stack.size) :
    { m with activations := rest, top := top }.Steady := by
  have hs := hm.stacked
  have hk := hm.activations
  rw [ha] at hs hk
  exact {
    hm.toWhole.withControl hm.frames (fun b hb => hk b (List.mem_cons_of_mem _ hb)) htop with
    inCode := hm.inCode
    stacked := hs.2.2.mono hs.1 }

theorem unwind_ok {a : Activation} {rest : List Activation} (hm : m.Good) (ha : m.activations = a :: rest) :
    ∃ m', unwind a rest m = .ok () m' ∧ m'.Steady ∧ m.sizes.Le m'.sizes ∧ m'.activations = rest ∧
      m'.frames.length = a.depth := by
  have hs := hm.stacked
  have hk := hm.activations
  have hin := hm.inCode
  unfold lasting at hin
  rw [ha] at hs hk hin
  have hm1 : { m with activations := rest }.Whole :=
    hm.toWhole.withControl hm.frames (fun b hb => hk b (List.mem_cons_of_mem _ hb)) hm.top
  obtain ⟨m2, hok, hm2, hc⟩ := Exec.close_ok hm1 a.slot
  have hframes : m2.frames = m.frames := hc.frames
  have hdepth := hs.1
  refine ⟨{ m2 with frames := m2.frames.drop (m2.frames.length - a.depth), top := a.savedTop }, ?_, ?_,
    hc.sizes, hc.activations, ?_⟩
  · show EStateM.bind (Exec.close a.slot) _ { m with activations := rest } = _
    rw [EStateM.bind, hok]
    rfl
  · have hlen : (m2.frames.drop (m2.frames.length - a.depth)).length = a.depth := by
      rw [List.length_drop, hframes]
      omega
    have htop : a.savedTop ≤ m2.stack.size :=
      Nat.le_trans (hk a (List.mem_cons_self ..)).savedTop hc.stack
    refine { hm2.withControl (fun f hf => hm2.frames f (List.mem_of_mem_drop hf)) hm2.activations htop with
      inCode := ?_, stacked := ?_ }
    · show ∀ f ∈ m2.frames.drop (m2.frames.length - a.depth), f.InCode
      rw [hframes]
      exact hin
    · show Activation.Stacked m2.activations (m2.frames.drop _).length
      rw [hlen, hc.activations]
      exact hs.2.2
  · show (m2.frames.drop _).length = _
    rw [List.length_drop, hframes]
    omega

/-- **A ready machine is ready after each step**, or its run is over. -/
theorem step_keeps (hm : m.Ready mode) : (m.step mode).Keeps m mode := by
  cases mode with
  | run =>
    obtain ⟨f, rest, hrun, hin⟩ := hm.1.running hm.2
    refine ofExec_keeps (S := m.AtLax) (I := m.AtEnd) ?_ (fun hs => ⟨rfl, hs⟩) fun e he => .inr ⟨rfl, he⟩
    refine Exec.Meets.bind ((Exec.fetch_meets hrun hin).imp (fun _ _ he => he) ?_)
    rintro ⟨f', i⟩ m' ⟨hf', hi, hrun', hb⟩
    subst hf'
    exact (Exec.execute_leads hrun' hb).imp (fun hlax => ⟨f, rest, i, hrun.frames_eq, hi, hlax⟩)
      fun _ => id
  | host h args ret =>
    exact ofExec_keeps (S := False) (I := fun _ => False) (Exec.host_leads hm.1 hm.2.1 hm.2.2)
      False.elim fun _ => False.elim
  | deliver vs =>
    obtain ⟨hm, hvs⟩ := hm
    cases ha : m.activations with
    | nil =>
      simp only [step, ha]
      exact ⟨hm, hvs⟩
    | cons a rest =>
      have hk := hm.activations a (by rw [ha]; exact List.mem_cons_self ..)
      have hleft : (leave a rest m).Steady := hm.withoutActivation ha hk.savedTop
      have hs := hm.stacked
      rw [ha] at hs
      have hleads : Exec.Leads False (fun _ => False) (Exec.settleResults a.purpose vs) (leave a rest m) :=
        Exec.settleResults_leads hleft hk.purpose (hs.2.1.mono hs.1) hvs
      have hon : (ofExec (Exec.settleResults a.purpose vs) (leave a rest m)).Keeps m (.deliver vs) :=
        ofExec_keeps hleads False.elim fun _ => False.elim
      simp only [step, ha]
      cases hp : a.purpose with
      | outermost => exact ⟨hleft, hvs⟩
      | _ =>
        rw [hp] at hon
        exact hon
  | raise e =>
    obtain ⟨hm, he⟩ := hm
    cases ha : m.activations with
    | nil =>
      have hin := hm.inCode
      unfold lasting at hin
      rw [ha] at hin
      simp only [step, ha]
      exact ⟨{ hm with inCode := hin }, he⟩
    | cons a rest =>
      have hs := hm.stacked
      have hk := hm.activations a (by rw [ha]; exact List.mem_cons_self ..)
      rw [ha] at hs
      obtain ⟨m', hok, hm', hsizes, hact, hlen⟩ := unwind_ok hm ha
      have he' : e.Known m'.sizes := he.mono hsizes
      have hfits : a.purpose.Fits m'.frames.length m'.activations := by
        rw [hact, hlen]
        exact hs.2.1
      have hleads := Exec.settleFailure_leads (S := False) hm' he' hfits
      have hon : (ofExec (Exec.settleFailure a.purpose e) m').Keeps m (.raise e) :=
        ofExec_keeps hleads False.elim fun e' he' => .inl (by rw [he'.1])
      simp only [step, ha, hok]
      cases hp : a.purpose with
      | outermost => exact ⟨hm', he'⟩
      | _ =>
        rw [hp] at hon
        exact hon

theorem step_failed {e : Failure} (h : m.step mode = .done m' (.failed e)) : mode = .raise e := by
  have hexec : ∀ {x : Exec Mode} {m1 : Machine}, ofExec x m1 ≠ .done m' (.failed e) := by
    intro x m1 hc
    unfold ofExec at hc
    split at hc <;> cases hc
  cases mode with
  | run => exact (hexec h).elim
  | host _ _ _ => exact (hexec h).elim
  | deliver vs =>
    simp only [step] at h
    split at h
    · cases h
    · split at h
      · cases h
      · exact (hexec h).elim
  | raise e' =>
    simp only [step] at h
    split at h
    · cases h
      rfl
    · split at h
      · cases h
      · split at h
        · cases h
          rfl
        · exact (hexec h).elim

/-! ## 3. Runs -/

inductive Reaches (m₀ : Machine) (mode₀ : Mode) : Machine → Mode → Prop where
  | start : Reaches m₀ mode₀ m₀ mode₀
  | step {m m' : Machine} {mode mode' : Mode} (h : Reaches m₀ mode₀ m mode)
      (hs : m.step mode = .more m' mode') : Reaches m₀ mode₀ m' mode'

namespace Reaches

variable {m₀ : Machine} {mode₀ : Mode}

theorem ready (h0 : m₀.Ready mode₀) (h : Reaches m₀ mode₀ m mode) : m.Ready mode := by
  induction h with
  | start => exact h0
  | step _ hs ih =>
    have hkeeps := step_keeps ih
    rw [hs] at hkeeps
    exact hkeeps.1

theorem atEnd (h0 : m₀.Ready mode₀) (hsane : ∀ e, mode₀ = .raise e → e.isInternal = false)
    (h : Reaches m₀ mode₀ m mode) :
    ∀ e, mode = .raise e → e.isInternal = true → ∃ m1, Reaches m₀ mode₀ m1 .run ∧ m1.AtEnd e := by
  induction h with
  | start =>
    intro e he hi
    rw [hsane e he] at hi
    cases hi
  | @step m m' mode mode' h hs ih =>
    intro e he hi
    have hkeeps := step_keeps (h.ready h0)
    rw [hs] at hkeeps
    rcases hkeeps.2 e he hi with hraise | ⟨rfl, hend⟩
    · exact ih e hraise hi
    · exact ⟨m, h, hend⟩

theorem after {m1 : Machine} {mode1 : Mode} (hs : m₀.step mode₀ = .more m1 mode1)
    (h : Reaches m1 mode1 m mode) : Reaches m₀ mode₀ m mode := by
  induction h with
  | start => exact .step .start hs
  | step _ hs' ih => exact .step ih hs'

theorem cases_head (h : Reaches m₀ mode₀ m mode) :
    m = m₀ ∧ mode = mode₀ ∨ ∃ m1 mode1, m₀.step mode₀ = .more m1 mode1 ∧ Reaches m1 mode1 m mode := by
  induction h with
  | start => exact .inl ⟨rfl, rfl⟩
  | step h hs ih =>
    obtain ⟨rfl, rfl⟩ | ⟨m1, mode1, hs1, hr⟩ := ih
    · exact .inr ⟨_, _, hs, .start⟩
    · exact .inr ⟨m1, mode1, hs1, .step hr hs⟩

end Reaches

theorem runFor_ends {n : Nat} {o : Outcome} (h : runFor n m mode = (m', o)) (ho : o ≠ .unfinished) :
    ∃ m1 mode1, Reaches m mode m1 mode1 ∧ m1.step mode1 = .done m' o := by
  induction n generalizing m mode with
  | zero =>
    cases h
    exact (ho rfl).elim
  | succ n ih =>
    unfold runFor at h
    split at h
    · next hs =>
      obtain ⟨m1, mode1, hr, hd⟩ := ih h
      exact ⟨m1, mode1, hr.after hs, hd⟩
    · next hs =>
      cases h
      exact ⟨m, mode, .start, hs⟩

/-! ## 4. Calls from outside -/

def Calls (m : Machine) (f : Value) (args : List Value) (m' : Machine) (mode' : Mode) : Prop :=
  ∃ m₁ mode₁, ofExec (Exec.activate f args .outermost) { m with executed := 0 } = .more m₁ mode₁ ∧
    Reaches m₁ mode₁ m' mode'

section

variable {f : Value} {args : List Value}

theorem Steady.uncounted (hm : m.Steady) : { m with executed := 0 }.Steady :=
  ⟨⟨hm.stack, hm.cells, hm.tables, hm.functions, hm.frames, hm.openCells, hm.top, hm.activations,
    hm.globals⟩, hm.inCode, hm.stacked⟩

theorem call_starts (hm : m.Steady) (hf : f.Known m.sizes) (hargs : ∀ v ∈ args, v.Known m.sizes) :
    ∃ m1 mode1, ofExec (Exec.activate f args .outermost) { m with executed := 0 } = .more m1 mode1 ∧
      m1.Ready mode1 ∧ ∀ e, mode1 = .raise e → e.isInternal = false := by
  have hleads : Exec.Leads False (fun _ => False) (Exec.activate f args .outermost)
      { m with executed := 0 } := Exec.activate_leads hm.uncounted hf hargs trivial trivial
  unfold Exec.Leads Exec.Meets at hleads
  unfold ofExec
  split at hleads
  · next mode1 m1 hx =>
    rw [hx]
    refine ⟨m1, mode1, rfl, Ready.ofFits hleads.1 hleads.2, ?_⟩
    rintro e rfl
    exact hleads.2.2
  · next e m1 hx =>
    rw [hx]
    refine ⟨m1, .raise e, rfl, ⟨hleads.1, hleads.2.1⟩, ?_⟩
    rintro _ ⟨⟩
    exact Bool.eq_false_iff.mpr hleads.2.2
  · exact hleads.elim

namespace Calls

variable {m' : Machine} (hm : m.Steady) (hf : f.Known m.sizes) (hargs : ∀ v ∈ args, v.Known m.sizes)

include hm hf hargs

theorem ready (h : m.Calls f args m' mode) : m'.Ready mode := by
  obtain ⟨m1, mode1, hstart, hready, _⟩ := call_starts hm hf hargs
  obtain ⟨m2, mode2, hstart', hr⟩ := h
  rw [hstart] at hstart'
  cases hstart'
  exact hr.ready hready

theorem atEnd {e : Failure} (h : m.Calls f args m' (.raise e)) (hi : e.isInternal = true) :
    ∃ m1, m.Calls f args m1 .run ∧ m1.AtEnd e := by
  obtain ⟨m1, mode1, hstart, hready, hsane⟩ := call_starts hm hf hargs
  obtain ⟨m2, mode2, hstart', hr⟩ := h
  rw [hstart] at hstart'
  cases hstart'
  obtain ⟨m3, hr3, hend⟩ := hr.atEnd hready hsane e rfl hi
  exact ⟨m3, ⟨m1, mode1, hstart, hr3⟩, hend⟩

end Calls

/-- A call that ends does so in a step from one of its states; of its results as many are given as
    are wanted. -/
theorem call_ends (hm : m.Steady) (hf : f.Known m.sizes) (hargs : ∀ v ∈ args, v.Known m.sizes)
    {fuel : Nat} {wanted : Option Nat} {m' : Machine} {o : Outcome}
    (h : m.call fuel f args wanted = (m', o)) (ho : o ≠ .unfinished) :
    ∃ m1 mode1 o1, m.Calls f args m1 mode1 ∧ m1.step mode1 = .done m' o1 ∧
      (o1 = o ∨ ∃ vs vs', o1 = .results vs ∧ o = .results vs') := by
  obtain ⟨m1, mode1, hstart, _, _⟩ := call_starts hm hf hargs
  unfold call at h
  rw [hstart] at h
  dsimp only at h
  cases hrun : runFor fuel m1 mode1 with
  | mk m2 o2 =>
    rw [hrun] at h
    have hends : m2 = m' ∧ (o2 = o ∨ ∃ vs vs', o2 = .results vs ∧ o = .results vs') := by
      dsimp only at h
      split at h
      · cases h
        exact ⟨rfl, .inr ⟨_, _, rfl, rfl⟩⟩
      · cases h
        exact ⟨rfl, .inl rfl⟩
    obtain ⟨rfl, hsame⟩ := hends
    have ho2 : o2 ≠ .unfinished := by
      rintro rfl
      rcases hsame with rfl | ⟨_, _, hr, _⟩
      · exact ho rfl
      · cases hr
    obtain ⟨m3, mode3, hr, hd⟩ := runFor_ends hrun ho2
    exact ⟨m3, mode3, o2, ⟨m1, mode1, hstart, hr⟩, hd, hsame⟩

end

/-! ## 5. Machines built from outside -/

/-- Machines that were made, given chunks and global variables, and asked to call functions. -/
inductive Built : Machine → Prop where
  | new (limits : Limits) : Built (new limits)
  | setGlobal {m : Machine} (h : Built m) (name : String) {v : Value} (hv : v.Known m.sizes) :
      Built (m.setGlobal name v)
  | load {m : Machine} (h : Built m) (chunk : Bytes) (name : String) {env : Option Value}
      (he : ∀ v ∈ env, v.Known m.sizes) : Built (m.load chunk name env).1
  | call {m m' : Machine} (h : Built m) {fuel : Nat} {f : Value} {args : List Value}
      {wanted : Option Nat} {o : Outcome} (hf : f.Known m.sizes) (hargs : ∀ v ∈ args, v.Known m.sizes)
      (hc : m.call fuel f args wanted = (m', o)) (hs : o ≠ .stuck) (hu : o ≠ .unfinished) : Built m'

theorem bare_steady (limits : Limits) : (bare limits).Steady where
  stack := by simp [bare]
  cells := by simp [bare]
  tables := by simpa [bare] using Table.holds_empty
  functions := by simp [bare]
  frames := by simp [bare]
  openCells := by simp [bare]
  top := Nat.le_refl _
  activations := by simp [bare]
  globals := Nat.zero_lt_one
  inCode := by simp [bare]
  stacked := trivial

end Machine

namespace Exec

variable {S : Prop} {m : Machine} {v : Value}

theorem Safe.setGlobal (name : String) (hm : m.Whole) (hv : v.Known m.sizes) :
    Safe S (setGlobal name v) m fun _ _ => True := by
  have hset : Safe S (modify fun m' => { m' with
      tables := m'.tables.modify m.globals fun t => t.setName name v }) m fun _ _ => True :=
    Safe.changeTable hm fun _ ht => ht.setEntry Value.known_ofString hv
  exact hset

theorem Safe.defineAll (hm : m.Whole) (hs : List HostFn) : Safe S (defineAll hs) m fun _ _ => True := by
  induction hs generalizing m with
  | nil => exact Safe.pure hm trivial
  | cons h hs ih =>
    have hhost : (Function.host h).Known m.sizes := trivial
    refine (Safe.newFunction hm hhost).bind fun f m1 hm1 _ hf => ?_
    exact (Safe.setGlobal _ hm1 hf).bind fun _ m2 hm2 _ _ => ih hm2

theorem Safe.openLibrary (hm : m.Whole) : Safe S openLibrary m fun _ _ => True := by
  unfold Exec.openLibrary
  generalize HostFn.globals = names
  refine (Safe.defineAll hm names).bind fun _ m1 hm1 _ _ => ?_
  have hhost : (Function.host .unpack).Known m1.sizes := trivial
  refine (Safe.newFunction hm1 hhost).bind fun f m2 hm2 _ hf => ?_
  have htable : (Table.empty.setName "unpack" f).Holds (Value.Known m2.sizes) :=
    Table.holds_empty.setEntry Value.known_ofString hf
  refine (Safe.newTable hm2 htable).bind fun t m3 hm3 _ ht => ?_
  refine (Safe.setGlobal _ hm3 ht).bind fun _ m4 hm4 _ _ => Safe.get ?_
  have hglobals : (Value.table m4.globals).Known m4.sizes := hm4.globals
  refine (Safe.setGlobal _ hm4 hglobals).bind fun _ m5 hm5 _ _ => ?_
  exact Safe.setGlobal _ hm5 Value.known_ofString

theorem Safe.steady {α : Type} {x : Exec α} {Q : α → Machine → Prop} (h : Safe False x m Q)
    (hm : m.Steady) : ∃ m', m'.Steady ∧ ((∃ a, x m = .ok a m') ∨ ∃ e, x m = .error e m') := by
  unfold Safe Meets at h
  split at h
  · next a m' hx => exact ⟨m', hm.ofCalm h.1 h.2.1, .inl ⟨a, hx⟩⟩
  · next e m' hx => exact ⟨m', hm.ofCalm h.1 h.2.1, .inr ⟨.fault e, hx⟩⟩
  · exact h.elim

-- the library is not to be unfolded any more
attribute [local irreducible] openLibrary

theorem openLibrary_steady (hm : m.Steady) :
    ∃ m', m'.Steady ∧ ((∃ a, openLibrary m = .ok a m') ∨ ∃ e, openLibrary m = .error e m') :=
  (Safe.openLibrary hm.toWhole).steady hm

end Exec

namespace Machine

/-- **Every machine that can be built from outside is steady.** -/
theorem Built.steady {m : Machine} (h : m.Built) : m.Steady := by
  induction h with
  | new limits =>
    obtain ⟨m', hm', ⟨_, hx⟩ | ⟨_, hx⟩⟩ := Exec.openLibrary_steady (bare_steady limits) <;>
    · unfold Machine.new
      rw [hx]
      exact hm'
  | setGlobal _ name hv ih =>
    obtain ⟨m', hm', ⟨_, hx⟩ | ⟨_, hx⟩⟩ := (Exec.Safe.setGlobal name ih.toWhole hv).steady ih <;>
    · unfold Machine.setGlobal
      rw [hx]
      exact hm'
  | @load m _ chunk name env he ih =>
    have henv : (env.getD (.table m.globals)).Known m.sizes := by
      cases env with
      | none => exact ih.globals
      | some v => exact he v rfl
    obtain ⟨m', hm', ⟨_, hx⟩ | ⟨_, hx⟩⟩ :=
      (Exec.Safe.loadChunk chunk name ih.toWhole henv).steady ih <;>
    · unfold Machine.load
      rw [hx]
      exact hm'
  | @call m m' _ fuel f args wanted o hf hargs hc hs hu ih =>
    obtain ⟨m1, mode1, o1, hcalls, hstep, hsame⟩ := call_ends ih hf hargs hc hu
    have hkeeps := step_keeps (hcalls.ready ih hf hargs)
    rw [hstep] at hkeeps
    cases o1 with
    | stuck =>
      rcases hsame with rfl | ⟨_, _, hr, _⟩
      · exact (hs rfl).elim
      · cases hr
    | results vs => exact hkeeps.1
    | failed e => exact hkeeps.1
    | unfinished => exact hkeeps.1

end Machine

/-! ## 6. Checked code and compiled code -/

def Proto.Compiled (q : Proto) : Prop :=
  ∃ (source : Bytes) (name : String) (p : Proto), compile source name = .ok p ∧ q.Sub p

theorem Proto.Compiled.sound {q : Proto} (h : q.Compiled) : q.Sound := by
  obtain ⟨source, name, p, hp, hsub⟩ := h
  exact ((compile_made hp).1.sub hsub).here.toSound

def Outcome.isBroken : Outcome → Bool
  | .stuck => true
  | .failed e => e.isInternal
  | _ => false

theorem Instr.Fits.not_lax {r : Room} {i : Instr} (h : i.Fits r) : ¬ i.Lax r := by
  unfold Instr.Fits at h
  unfold Instr.Lax
  cases ho : i.opcode <;> rw [ho] at h <;> dsimp only at h ⊢
  case forLoop | tforLoop | ret => omega
  all_goals exact id

theorem Proto.Sound.not_overrun {f : Frame} (h : f.proto.Sound) : ¬ f.Overrun := by
  rintro ⟨_, i, hi, ho, hc⟩
  have := h.skips _ i hi ho hc
  omega

namespace Machine

variable {m m' : Machine} {f : Value} {args : List Value}

section

variable (hm : m.Built) (hf : f.Known m.sizes) (hargs : ∀ v ∈ args, v.Known m.sizes)

include hm hf hargs

theorem Calls.inCode {frame : Frame} {rest : List Frame} (h : m.Calls f args m' .run)
    (hframes : m'.frames = frame :: rest) : frame.InCode :=
  (h.ready hm.steady hf hargs).1.inCode frame (by rw [hframes]; exact List.mem_cons_self ..)

theorem broken_call {fuel : Nat} {wanted : Option Nat} {o : Outcome}
    (h : m.call fuel f args wanted = (m', o)) (ho : o.isBroken = true) :
    ∃ m1 frame rest, m.Calls f args m1 .run ∧ m1.frames = frame :: rest ∧
      (o = .stuck ∧ (∃ i, frame.proto.code[frame.pc]? = some i ∧ i.Lax frame.proto.room) ∨
        frame.Overrun ∧ ∃ place, o = .failed (.runtime place .ranPastEnd)) := by
  have hu : o ≠ .unfinished := by
    rintro rfl
    cases ho
  obtain ⟨m1, mode1, o1, hcalls, hstep, hsame⟩ := call_ends hm.steady hf hargs h hu
  have hsame : o1 = o := by
    rcases hsame with rfl | ⟨_, _, _, rfl⟩
    · rfl
    · cases ho
  subst hsame
  have hready := hcalls.ready hm.steady hf hargs
  have hkeeps := step_keeps hready
  rw [hstep] at hkeeps
  cases o1 with
  | stuck =>
    obtain ⟨rfl, frame, rest, i, hframes, hi, hlax⟩ := hkeeps
    exact ⟨m1, frame, rest, hcalls, hframes, .inl ⟨rfl, i, hi, hlax⟩⟩
  | failed e =>
    have hraise : mode1 = .raise e := step_failed hstep
    subst hraise
    obtain ⟨m2, hcalls2, ⟨frame, rest, hframes, hover⟩, place, rfl⟩ := hcalls.atEnd hm.steady hf hargs ho
    exact ⟨m2, frame, rest, hcalls2, hframes, .inr ⟨hover, place, rfl⟩⟩
  | _ => cases ho

end

/-- A main function with this code and one register. -/
def mainOf (code : Array Instr) : Proto where
  code := code
  constants := #[]
  protos := []
  upvalues := []
  params := 0
  isVararg := true
  maxStack := 1
  source := none
  lineDefined := 0
  lastLine := 0
  lines := #[]
  locals := []

def trial (p : Proto) (fuel : Nat) : Option (Machine × Nat × Machine × Outcome) :=
  match (new .standard).load (Chunk.ofProto p false) "t" none with
  | (m, .ok (.function id)) =>
    if id < m.functions.size then some (m, id, m.call fuel (.function id) [] none) else none
  | _ => none

theorem trial_ok {p : Proto} {fuel id : Nat} {m m' : Machine} {o : Outcome}
    (h : trial p fuel = some (m, id, m', o)) :
    m.Built ∧ (Value.function id).Known m.sizes ∧ m.call fuel (.function id) [] none = (m', o) := by
  unfold trial at h
  split at h
  · next m1 id1 hload =>
    split at h
    · next hid =>
      simp only [Option.some.injEq, Prod.mk.injEq] at h
      obtain ⟨rfl, rfl, hc⟩ := h
      have henv : ∀ v ∈ (none : Option Value), v.Known (new .standard).sizes := by simp
      have hbuilt := (Built.new .standard).load (Chunk.ofProto p false) "t" henv
      rw [hload] at hbuilt
      exact ⟨hbuilt, hid, hc⟩
    · cases h
  · cases h

/-- **Where checked code leaves its function.** In every function of a chunk that is accepted, jumps land
    at instructions and the words that must follow do; only a skip may end behind the last one. At every
    fetch of every call the running function is at an instruction, or a LOADBOOL has skipped its last
    RETURN; and of the failures that only broken code has, a call raises none but the one that follows
    from it. -/
theorem overrun_only_skip (m : Machine) (f : Value) (args : List Value) :
    (∀ (bytes : Bytes) (name : String) (p q : Proto), Chunk.toProto bytes name = .ok p → q.Sub p →
      ∀ (pc : Nat) (i : Instr), q.code[pc]? = some i → i.Jumps (q.code.size - 1) pc ∧
        i.Followed q.constants.size q.code[pc + 1]? ∧ i.Skips q.code.size pc) ∧
    (m.Built → f.Known m.sizes →
      (∀ v ∈ args, v.Known m.sizes) →
      (∀ (m₁ : Machine) (frame : Frame) (rest : List Frame), m.Calls f args m₁ .run →
        m₁.frames = frame :: rest → frame.pc < frame.proto.code.size ∨ frame.Overrun) ∧
      ∀ (m₁ : Machine) (e : Failure), m.Calls f args m₁ (.raise e) → e.isInternal = true →
        ∃ m₂, m.Calls f args m₂ .run ∧ m₂.AtEnd e) := by
  refine ⟨fun bytes name p q hp hsub pc i hi => ?_, fun hm hf hargs => ⟨?_, ?_⟩⟩
  · have hq := ((Chunk.toProto_ok.mp hp).2.sub hsub).here
    exact ⟨hq.jumps pc i hi, hq.followed pc i hi, hq.skips pc i hi⟩
  · exact fun _ _ _ hcalls hframes => hcalls.inCode hm hf hargs hframes
  · exact fun _ _ hcalls hi => hcalls.atEnd hm.steady hf hargs hi

theorem skip_return_fails : (match trial (mainOf #[.ofABC .loadBool 0 0 1, .ofABC .ret 0 1 0]) 3 with
    | some (_, _, _, .failed e) => e.isInternal
    | _ => false) = true := by decide +kernel

theorem overrun_only_skip_return :
    ∃ m id m' e, trial (mainOf #[.ofABC .loadBool 0 0 1, .ofABC .ret 0 1 0]) 3 = some (m, id, m', .failed e) ∧
      e.isInternal = true ∧ ∃ m₂, m.Calls (.function id) [] m₂ .run ∧ m₂.AtEnd e := by
  have hok := skip_return_fails
  split at hok
  · next m id m' e htrial =>
    obtain ⟨hm, hf, hc⟩ := trial_ok htrial
    obtain ⟨m₁, mode₁, o₁, hcalls, hstep, rfl | ⟨_, _, _, ho⟩⟩ :=
      call_ends hm.steady hf (by simp) hc (by simp)
    · rw [step_failed hstep] at hcalls
      exact ⟨m, id, m', e, htrial, hok, ((overrun_only_skip m _ []).2 hm hf (by simp)).2 m₁ e hcalls hok⟩
    · cases ho
  · cases hok

/-- **Compiled code never reaches for what is not there, and never leaves its function.** All that an
    instruction of a compiled function touches is there, and no TESTSET keeps the mark of a register
    that was to be filled in. Whenever a compiled function runs, in whatever call of whatever machine,
    it is at an instruction, is not stuck, and does not fail as broken code does; a call that does has
    run a function that was not compiled from any source. -/
theorem compiled_code_safe :
    (∀ q : Proto, q.Compiled → ∀ (pc : Nat) (i : Instr), q.code[pc]? = some i →
      i.Fits q.room ∧ (i.opcode = .testSet → i.a.val ≠ 255)) ∧
    ∀ (m : Machine) (f : Value) (args : List Value), m.Built → f.Known m.sizes →
      (∀ v ∈ args, v.Known m.sizes) →
      (∀ (m₁ : Machine) (frame : Frame) (rest : List Frame), m.Calls f args m₁ .run →
        m₁.frames = frame :: rest → frame.proto.Compiled →
          (∃ i, frame.proto.code[frame.pc]? = some i) ∧ (∀ m₂, m₁.step .run ≠ .done m₂ .stuck) ∧
            ∀ m₂ e, m₁.step .run = .more m₂ (.raise e) → e.isInternal = false) ∧
      ∀ (fuel : Nat) (wanted : Option Nat) (m' : Machine) (o : Outcome),
        m.call fuel f args wanted = (m', o) → o.isBroken = true →
          ∃ m₁ frame rest, m.Calls f args m₁ .run ∧ m₁.frames = frame :: rest ∧ ¬ frame.proto.Compiled := by
  refine ⟨fun q hq pc i hi => ?_, fun m f args hm hf hargs => ⟨?_, ?_⟩⟩
  · have hfits := hq.sound.fits pc i hi
    refine ⟨hfits, fun ho => ?_⟩
    simp only [Instr.Fits, ho] at hfits
    have := q.maxStack.toNat_lt
    have : q.room.registers = q.maxStack.toNat := rfl
    omega
  · intro m₁ frame rest hcalls hframes hcomp
    have hsound := hcomp.sound
    have hkeeps := step_keeps (hcalls.ready hm.steady hf hargs)
    refine ⟨?_, fun m₂ hstep => ?_, fun m₂ e hstep => ?_⟩
    · have hlt := (hcalls.inCode hm hf hargs hframes).resolve_right hsound.not_overrun
      exact ⟨_, Array.getElem?_eq_getElem hlt⟩
    · rw [hstep] at hkeeps
      obtain ⟨_, frame', rest', i, hframes', hi, hlax⟩ := hkeeps
      rw [hframes] at hframes'
      cases hframes'
      exact (hsound.fits _ i hi).not_lax hlax
    · rw [hstep] at hkeeps
      refine Bool.eq_false_iff.mpr fun hinternal => ?_
      rcases hkeeps.2 e rfl hinternal with hraise | ⟨_, ⟨frame', rest', hframes', hover⟩, _⟩
      · cases hraise
      · rw [hframes] at hframes'
        cases hframes'
        exact hsound.not_overrun hover
  · intro fuel wanted m' o hc ho
    obtain ⟨m₁, frame, rest, hcalls, hframes, hbroken⟩ := broken_call hm hf hargs hc ho
    refine ⟨m₁, frame, rest, hcalls, hframes, fun hcomp => ?_⟩
    rcases hbroken with ⟨_, i, hi, hlax⟩ | ⟨hover, _⟩
    · exact (hcomp.sound.fits _ i hi).not_lax hlax
    · exact hcomp.sound.not_overrun hover

end Machine

end LuaMachine
