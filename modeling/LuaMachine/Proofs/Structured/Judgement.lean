/-
  WHAT STATEMENTS DO. Between two statements the locals have registers of their own; the code that has been
  written takes control from the first place to the second one, or leaves it at the jump of a break, and
  enacts the trace of the statements on its way.

  * `Performs` -- **statements have been read that do what their traces say**.
-/
import LuaMachine.Proofs.Structured.Block

namespace LuaMachine

open Structured

namespace Draft

/-! ## 1. What statements keep -/

/-- What statements keep of a draft: blocks, the gotos that wait and the tests of their jumps. The code grows
    no shorter. -/
structure Onward (list : List Nat) (d d' : Draft) : Prop where
  tests : d.SameTests (d.pending 0 ++ list) d'
  grows : d.pc ≤ d'.pc
  gotos : d.gotos <+: d'.gotos
  blocks : d'.blocks = d.blocks
  vararg : d'.isVararg = d.isVararg
  params : d'.params = d.params

def Done (d : Draft) (p : Proto) (n : Nat) (vs : List Value) (s : Spot) : Prop := vs.length = n ∧ d.Stands p vs s

def Broken (d : Draft) (m n : Nat) (vs : List Value) (s : Spot) : Prop :=
  n ≤ vs.length ∧ Shows vs s.regs ∧ d.Jumping (d.pending m) s

variable {p : Proto} {d d' d'' : Draft} {list list' : List Nat} {names names' : List Bytes} {b : Block}
  {around : List Block} {vs : List Value} {s : Spot} {m m' n n' : Nat}

namespace Onward

theorem refl (list : List Nat) (d : Draft) : d.Onward list d :=
  ⟨.refl _ _, Nat.le_refl _, List.prefix_rfl, rfl, rfl, rfl⟩

theorem pending (h : d.Onward list d') (hm : m' ≤ m) (hle : m' ≤ d.gotos.length) : ∀ j ∈ d.pending m, j ∈ d'.pending m' :=
  pending_mono h.gotos hm hle

theorem trans (h : d.Onward list d') (h' : d'.Onward list d'') : d.Onward list d'' where
  tests := by
    refine h.tests.trans (h'.tests.mono fun j hj => ?_)
    exact (List.mem_append.mp hj).elim (fun hj => List.mem_append_left _ (h.pending (Nat.le_refl 0) (Nat.zero_le _) j hj))
      (List.mem_append_right _)
  grows := Nat.le_trans h.grows h'.grows
  gotos := h.gotos.trans h'.gotos
  blocks := h'.blocks.trans h.blocks
  vararg := h'.vararg.trans h.vararg
  params := h'.params.trans h.params

theorem mono (h : d.Onward list d') (hl : ∀ j ∈ list', j ∈ list) : d.Onward list' d' := by
  refine ⟨h.tests.mono fun j hj => ?_, h.grows, h.gotos, h.blocks, h.vararg, h.params⟩
  exact (List.mem_append.mp hj).elim (List.mem_append_left _) fun hj => List.mem_append_right _ (hl j hj)

theorem of_moves (h : d.Moves (d.pending 0 ++ list) d') : d.Onward list d' :=
  ⟨h.tests, h.grows, h.gotos ▸ List.prefix_rfl, h.blocks, h.vararg, h.params⟩

end Onward

theorem pending_sub (d : Draft) (m : Nat) (list : List Nat) : ∀ j ∈ d.pending m, j ∈ d.pending 0 ++ list :=
  fun j hj => List.mem_append_left _ (pending_mono List.prefix_rfl (Nat.zero_le m) (Nat.zero_le _) j hj)

theorem Broken.onward (h : d.Broken m n vs s) (ho : d.Onward list d') (hm : m' ≤ m) (hle : m' ≤ d.gotos.length)
    (hn : n' ≤ n) : d'.Broken m' n' vs s :=
  ⟨Nat.le_trans hn h.1, h.2.1, (h.2.2.congr ho.tests (d.pending_sub m list)).mono (ho.pending hm hle)⟩

namespace Left

theorem broken (h : d.Left names b around d') (hb : d.Broken m n vs s) (hn : n' ≤ n) : d'.Broken m n' (vs.take n') s := by
  refine ⟨?_, hb.2.1.take n', ?_⟩
  · exact Nat.le_of_eq (by rw [List.length_take, Nat.min_eq_left (Nat.le_trans hn hb.1)])
  · rw [pending_congr h.jumps]
    exact hb.2.2.congr (h.tests _) fun _ => id

theorem done (h : d.Left names b around d') (hd : d.Done p n vs s) (hn : n' ≤ n) : d'.Done p n' (vs.take n') s := by
  refine ⟨?_, h.stands (hd.2.take n')⟩
  rw [List.length_take, Nat.min_eq_left (by rw [hd.1]; exact hn)]

end Left

theorem Between.leaves {list1 list2 : List Nat} (hd : d.Between list names) (h : d'.Between list1 names')
    (ho : (d.enter false).Onward list2 d') (hs : names <+: names') :
    Compile.Writes Compile.leaveBlock d' fun _ d'' => ∃ b, d'.Left names' b d.blocks d'' ∧ d''.Between list1 names ∧
      d.Onward list2 d'' := by
  have hact : d.active ≤ names'.length := hd.active ▸ hs.length_le
  have htake : names'.take d.active = names := by
    rw [hd.active]
    exact (List.prefix_iff_eq_take.mp hs).symm
  have hzero : d.labels.length = 0 := by rw [hd.labels, List.length_nil]
  have hfirst : d'.gotos.take d.gotos.length = d.gotos := (List.prefix_iff_eq_take.mp ho.gotos).symm
  refine (Compile.Writes.leaveBlock_ends h.toScoped ho.blocks hd.inside rfl hzero hact).imp fun _ d'' hl => ?_
  have hl : d'.Left names' _ d.blocks d'' := hl
  refine ⟨_, hl, htake ▸ hl.between h hact hd.inside, ho.tests.trans (hl.tests _), hl.pc ▸ ho.grows, ?_, ?_, ?_, ?_⟩
  · rw [List.prefix_iff_eq_take]
    exact hfirst.symm.trans hl.kept.symm
  · rw [hl.rest]
  · rw [hl.rest]
    exact ho.vararg
  · rw [hl.rest]
    exact ho.params

/-! ## 2. Going back -/

/-- Jumps of a list have got their target, which is not the next place. -/
structure Backed (list : List Nat) (names : List Bytes) (target : Nat) (l : JumpList) (d d' : Draft) : Prop where
  between : d'.Between list names
  onward : d.Onward list d'
  pc : d'.pc = d.pc
  pending : d'.pending 0 = d.pending 0
  runs : ∀ (p : Proto) (k : Nat), CompletesAbove k p d' (d'.pending 0 ++ list) d'.pc →
    CompletesAbove 0 p d (d.pending 0 ++ (list ++ l)) d.pc ∧ (∀ j ∈ l, d.Lands p.code target Operand.noRegister target j) ∧
      ∀ (vs : List Value) (s : Spot), d.Stands p vs s → d'.Stands p vs s

theorem AimsAt.last {l : JumpList} {vt reg pt : Nat} (h : d.AimsAt vt reg pt l d') (hj : ∀ j ∈ l, d.Jmp j) :
    (d'.Open ↔ d.Open) ∧ (d.Open → d'.instr (d.pc - 1) = d.instr (d.pc - 1)) := by
  have hpc : d'.pc = d.pc := h.size
  have hsame : d.Open → d'.instr (d.pc - 1) = d.instr (d.pc - 1) := fun ho => instr_congr (h.same _ (ho.not_loose hj))
  refine ⟨⟨fun ho => ?_, fun ho => ?_⟩, hsame⟩
  · have hlast := ho.2
    rw [hpc] at hlast
    by_cases hl : d.Loose l (d.pc - 1)
    · rcases hl with hm | ⟨hm, -⟩
      · rw [(h.lands _ hm).jmp.opcode] at hlast
        cases hlast
      · have := (hj _ hm).lt
        omega
    · rw [instr_congr (h.same _ hl)] at hlast
      have hlt := ho.1
      rw [hpc, h.rest] at hlt
      exact ⟨hlt, hlast⟩
  · refine ⟨?_, ?_⟩
    · rw [hpc, h.rest]
      exact ho.1
    · rw [hpc, hsame ho]
      exact ho.2

end Draft

open Draft

/-- **Jumps go back** to a place before, if there are any. -/
theorem Compile.Writes.patchTo_backs {list : List Nat} {names : List Bytes} {d : Draft} {l : JumpList} {target : Nat}
    (hd : d.Between (list ++ l) names) (hne : target = d.pc → l = []) :
    Compile.Writes (Compile.patchTo l target) d fun _ d' => d.Backed list names target l d' := by
  by_cases htarget : target = d.pc
  · obtain rfl := hne htarget
    refine Compile.Writes.bind (Compile.Writes.ofFn ?_)
    rw [if_pos htarget]
    refine Compile.Writes.patchHere_receives.imp fun _ d' h => ?_
    subst h
    refine ⟨hd.receive, .of_moves (d.receive_moves _ _), rfl, rfl, fun p k hp => ?_⟩
    obtain ⟨hp0, hstands, -⟩ := hd.received hp
    exact ⟨hp0, by simp, fun vs s hst => (hstands vs s hst).2⟩
  · have hw := hd.waits
    rw [← List.append_assoc] at hw
    refine (Compile.Writes.patchTo_aims hw htarget).imp fun _ d' ha => ?_
    have hm := ha.moves hw
    have hpc : d'.pc = d.pc := ha.size
    have hjmp : ∀ j ∈ l, d.Jmp j := fun j hj => hw.jmp (List.mem_append_right _ hj)
    obtain ⟨hopen, hlast⟩ := ha.last hjmp
    have hpending : d'.pending 0 = d.pending 0 := by rw [Draft.pending, hm.gotos, ← Draft.pending]
    have htight : d'.Tight := fun ho => by
      rw [hpc, hlast (hopen.mp ho)]
      exact hd.tight (hopen.mp ho)
    refine ⟨?_, .of_moves hm, hpc, hpending, fun p k hp => ?_⟩
    · refine {
        toScoped := hd.toScoped.same hm.toSameScope
        waits := by
          rw [hpending, hpc]
          exact ha.waits hw
        roomy := ha.roomy hd.roomy
        tight := htight
        calm := hm.calm hd.calm
        free := by rw [ha.rest]; exact hd.free
        inside := hm.blocks ▸ hd.inside }
    · rw [hpending, hpc] at hp
      obtain ⟨hp0, hlands⟩ := hp.aims ha hw
      refine ⟨by rw [← List.append_assoc]; exact hp0.mono (Nat.zero_le k), hlands, fun vs s hst => ?_⟩
      exact hst.congr hpc (by rw [ha.rest]) (ha.sameTests_here hw) hopen hlast

/-! ## 3. Statements -/

/-- Statements have been read behind which locals of the names `names'` are in scope; the code does what the
    traces of their runs say. -/
structure Performs (list : List Nat) (names names' : List Bytes) (run : Nat → List Value → Trace) (d d' : Draft) :
    Prop where
  between : d'.Between list names'
  onward : d.Onward list d'
  scope : names <+: names'
  runs : ∀ p : Proto, CompletesAbove 0 p d' (d'.pending 0 ++ list) d'.pc →
    CompletesAbove 0 p d (d.pending 0 ++ list) d.pc ∧
      ∀ (bound : Nat) (vs : List Value) (s : Spot), d.Done p names.length vs s →
        p.Traces bound (d'.Done p names'.length) (d'.Broken d.gotos.length names.length) vs s (run bound vs)

namespace Performs

variable {list list' : List Nat} {names names' names'' : List Bytes} {run run' : Nat → List Value → Trace} {d d' d'' : Draft}

theorem nothing (h : d.Between list names) : Performs list names names (fun _ vs => .stop (.done vs)) d d :=
  ⟨h, .refl _ _, List.prefix_rfl, fun _ hp => ⟨hp, fun _ _ _ hs => .stop hs⟩⟩

/-- **Statements one after another.** -/
theorem andThen (h : Performs list names names' run d d') (h' : Performs list names' names'' run' d' d'') :
    Performs list names names'' (fun bound vs => (run bound vs).andThen (run' bound)) d d'' := by
  refine ⟨h'.between, h.onward.trans h'.onward, h.scope.trans h'.scope, fun p hp => ?_⟩
  obtain ⟨hp', hruns'⟩ := h'.runs p hp
  obtain ⟨hp0, hruns⟩ := h.runs p hp'
  have hlen := h.onward.gotos.length_le
  refine ⟨hp0, fun bound vs s hs => Proto.Traces.andThen ((hruns bound vs s hs).imp (fun _ _ => id) fun ws s' hb => ?_)
    fun ws s' hd => (hruns' bound ws s' hd).imp (fun _ _ => id) fun ws' s'' hb => ?_⟩
  · exact hb.onward h'.onward (Nat.le_refl _) hlen (Nat.le_refl _)
  · exact hb.onward (.refl list d'') hlen (Nat.le_trans hlen h'.onward.gotos.length_le) h.scope.length_le

/-- **A block.** At its end its locals go out of scope, and breaks go on waiting. -/
theorem scope_ends (h : Performs list names names' run (d.enter false) d') (hd : d.Between list names) :
    Compile.Writes Compile.leaveBlock d' fun _ d'' =>
      Performs list names names (fun bound vs => (run bound vs).leaving vs.length) d d'' := by
  refine (hd.leaves h.between h.onward h.scope).imp fun _ d'' hleft => ?_
  obtain ⟨b, hl, hbetween, honward⟩ := hleft
  refine ⟨hbetween, honward, List.prefix_rfl, fun p hp => ?_⟩
  rw [pending_congr hl.jumps, hl.pc] at hp
  obtain ⟨hp0, hruns⟩ := h.runs p (hl.completes hp)
  refine ⟨hp0.stock rfl rfl rfl fun _ _ => id, fun bound vs s hs => ?_⟩
  have hrun := hruns bound vs s ⟨hs.1, hs.2.stock rfl rfl rfl⟩
  rw [hs.1]
  exact hrun.leaving (fun ws s' hd' => ⟨hd'.1 ▸ h.scope.length_le, hl.done hd' h.scope.length_le⟩)
    fun ws s' hb => ⟨hb.1, hl.broken hb (Nat.le_refl _)⟩

end Performs

end LuaMachine
