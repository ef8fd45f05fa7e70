/-
  BRANCHES OF A CONDITIONAL. A condition that fails sends control past its branch; a branch that is not the
  last one ends with a jump, and all these jumps arrive at the end.

  * `Concludes` -- the rest of a conditional; **`Chooses.concludes`** -- a branch and the rest.
-/
import LuaMachine.Proofs.Structured.Declaration

namespace LuaMachine

open Structured Compile Draft

variable {list list' : List Nat} {names names' : List Bytes} {p : Proto} {d d1 d2 d3 d' : Draft}
  {l leaving leaving' passing : JumpList} {line : Nat} {c : Formula} {run yes : Nat → List Value → Trace} {last last' : Prop}

/-! ## 1. Breaks -/

theorem Draft.Onward.breaks (h : d.Onward list d1) (l : JumpList) (line : Nat) : d.Onward list (d1.breaks l line) :=
  ⟨h.tests, h.grows, h.gotos.trans (List.prefix_append _ _), h.blocks, h.vararg, h.params⟩

theorem Departed.performs (h : Departed (d.pending 0 ++ list) d l d1) (hd : d.Between list names) (line : Nat) :
    Performs list names names (fun _ vs => .stop (.broke vs)) d (d1.breaks l line) := by
  have hbetween : d1.Between (list ++ l) names := hd.further h.moves h.waits h.roomy h.fresh.tight h.free
  refine ⟨hbetween.breaks, (Onward.of_moves h.moves).breaks l line, List.prefix_rfl, fun p hp => ?_⟩
  have hp1 := completes_breaks hp
  rw [h.moves.toSameScope.pending, ← List.append_assoc] at hp1
  refine ⟨h.completes p 0 0 hp1, fun bound vs s hs => .broke ⟨Nat.le_of_eq hs.1.symm, ?_, ?_⟩⟩
  · exact hs.2.shows (h.completes p 0 vs.length hp1) (Nat.le_refl _) (Nat.le_refl _)
  · rw [← h.moves.gotos]
    exact (h.jumping p s hs.2.entered).breaks

namespace Compile

variable {rest : List Token}

theorem Takes.gotoStatement_breaks (hl : d.labels = []) (hne : rest ≠ []) :
    Takes (Compile.gotoStatement l) (.keyword .break :: rest) d fun _ ts d' => ts = rest ∧ ∃ line, d' = d.breaks l line := by
  refine Takes.line fun line => Takes.testNext_stay (by simp) ?_
  rw [if_neg Bool.false_ne_true]
  refine Takes.next hne (Takes.bind (Takes.pure (Takes.get fun s hs hd => ?_)))
  have hlabel : ∀ g, Writes (Compile.gotoLabel g) d fun found d' => found = false ∧ d' = d := fun g => by
    refine Writes.get fun s hs => ?_
    rw [hs, findLabel_none hl]
    exact Writes.pure ⟨rfl, rfl⟩
  refine Takes.write (hlabel _) fun found d' h => ?_
  obtain ⟨rfl, rfl⟩ := h
  rw [hd, if_pos (by rfl)]
  exact Takes.ofWrites (Writes.modifyFn rfl) fun _ d' h => ⟨rfl, line, h⟩

end Compile

/-! ## 2. Guarded statements -/

/-- A condition and the statements it guards have been read; where it fails, control takes a jump of a list. -/
structure Guarded (list : List Nat) (names : List Bytes) (c : Formula) (yes : Nat → List Value → Trace)
    (passing : JumpList) (d d' : Draft) : Prop where
  between : d'.Between (list ++ passing) names
  onward : d.Onward list d'
  runs : ∀ p : Proto, CompletesAbove 0 p d' (d'.pending 0 ++ (list ++ passing)) d'.pc →
    CompletesAbove 0 p d (d.pending 0 ++ list) d.pc ∧
      ∀ (bound : Nat) (D B : List Value → Spot → Prop) (vs : List Value) (s : Spot) (no : Trace),
        d.Done p names.length vs s → (∀ ws s', d'.Done p names.length ws s' → D ws s') →
        (∀ ws s', d'.Broken d.gotos.length names.length ws s' → B ws s') →
        (∀ s', Shows vs s'.regs → d'.Jumping passing s' → p.Traces bound D B vs s' no) →
        p.Traces bound D B vs s (c.test names vs (yes bound vs) no)

theorem Tested.between {cond : Bool} (h : Tested (d.pending 0 ++ list) names d c cond l d1) (hd : d.Between list names) :
    d1.Between (list ++ l) names :=
  hd.further h.moves h.waits h.roomy h.fresh.tight h.free

theorem Guarded.of_tested (h : Tested (d.pending 0 ++ list) names d c false passing d1) (hd : d.Between list names)
    (h' : Performs (list ++ passing) names names yes d1 d2) : Guarded list names c yes passing d d2 := by
  have honward : d.Onward list d1 := .of_moves h.moves
  refine ⟨h'.between, honward.trans (h'.onward.mono fun j => List.mem_append_left _), fun p hp => ?_⟩
  obtain ⟨hp1, hruns'⟩ := h'.runs p hp
  rw [h.moves.toSameScope.pending, ← List.append_assoc] at hp1
  obtain ⟨hp0, hruns⟩ := h.runs p 0 hp1
  refine ⟨hp0, fun bound D B vs s no hs hD hB hno => ?_⟩
  obtain ⟨hlow, hhigh, hst⟩ := hd.fits hs.2 hs.1
  refine hruns bound D B vs s (yes bound vs) no hlow hhigh hst ?_ ?_
  · intro s' hst _
    refine (hruns' bound vs s' ⟨hs.1, hst⟩).imp hD fun ws s'' hb => hB ws s'' ?_
    rwa [← h.moves.gotos]
  · intro s' hj hshow
    exact hno s' hshow (hj.congr h'.onward.tests fun j hj => List.mem_append_right _ (List.mem_append_right _ hj))

/-- A branch that begins with a break, whose condition jumps to it: control that does not jumps past the statements
    behind it, which are never run. -/
theorem Guarded.of_break (h : Tested (d.pending 0 ++ list) names d c true l d1) (hd : d.Between list names)
    (hj : Departed (((d1.enter false).breaks l line).pending 0 ++ list) ((d1.enter false).breaks l line) passing d2)
    (h' : Performs (list ++ passing) names names' run d2 d3) :
    Writes leaveBlock d3 fun _ d' =>
      Guarded list names c (fun _ vs => (Trace.stop (.broke vs)).leaving vs.length) passing d d' := by
  have h1 := h.between hd
  have hbroken : ((d1.enter false).breaks l line).Between list names := (h1.enter false).breaks
  have hpending : d2.pending 0 = ((d1.enter false).breaks l line).pending 0 := hj.moves.toSameScope.pending 0
  have honward : (d1.enter false).Onward list ((d1.enter false).breaks l line) := (Onward.refl list _).breaks l line
  have honward2 : ((d1.enter false).breaks l line).Onward list d2 := .of_moves hj.moves
  have honward3 : d2.Onward list d3 := h'.onward.mono fun j => List.mem_append_left _
  refine (h1.leaves h'.between ((honward.trans honward2).trans honward3) h'.scope).imp fun _ d' hleft => ?_
  obtain ⟨b, hl, hbetween, honward'⟩ := hleft
  refine ⟨hbetween, (Onward.of_moves h.moves).trans honward', fun p hp => ?_⟩
  rw [pending_congr hl.jumps, hl.pc] at hp
  obtain ⟨hp2, -⟩ := h'.runs p (hl.completes hp)
  rw [hpending, ← List.append_assoc] at hp2
  have hp1 : CompletesAbove 0 p d1 (d1.pending 0 ++ (list ++ l)) d1.pc :=
    (completes_breaks (hj.completes p 0 0 hp2)).stock rfl rfl rfl fun _ _ => id
  rw [h.moves.toSameScope.pending, ← List.append_assoc] at hp1
  obtain ⟨hp0, hruns⟩ := h.runs p 0 hp1
  refine ⟨hp0, fun bound D B vs s no hs hD hB hno => ?_⟩
  obtain ⟨hlow, hhigh, hst⟩ := hd.fits hs.2 hs.1
  refine hruns bound D B vs s _ no hlow hhigh hst ?_ ?_
  · -- the condition fails, and control jumps past the statements
    intro s' hst' hshow
    have hin : ((d1.enter false).breaks l line).Stands p vs s' := hst'.stock rfl rfl rfl
    have hpass : d3.Jumping passing s' := (hj.jumping p s' hin.entered).congr h'.onward.tests fun j hj =>
      List.mem_append_right _ (List.mem_append_right _ hj)
    exact hno s' hshow (hpass.congr (hl.tests _) fun _ => id)
  · -- the condition holds, and control is at the break
    intro s' hjump hshow
    have hbreak : ((d1.enter false).breaks l line).Broken d1.gotos.length names.length vs s' :=
      ⟨hlow, hshow, Jumping.breaks (d := d1.enter false) hjump⟩
    have hlen : d1.gotos.length ≤ ((d1.enter false).breaks l line).gotos.length := by
      simp [Draft.breaks, Draft.enter]
    have hbreak2 : d2.Broken d1.gotos.length names.length vs s' := hbreak.onward honward2 (Nat.le_refl _) hlen (Nat.le_refl _)
    have hbreak3 := hbreak2.onward honward3 (Nat.le_refl _) (Nat.le_trans hlen honward2.gotos.length_le) (Nat.le_refl _)
    rw [hs.1]
    refine (Proto.Traces.broke (D := fun _ _ => False) hbreak3).leaving (fun _ _ h => h.elim) fun ws s'' hb => ⟨hb.1, hB _ _ ?_⟩
    rw [← h.moves.gotos]
    exact hl.broken hb (Nat.le_refl _)

/-! ## 3. Branches -/

theorem Draft.Between.perm (h : d.Between list names) (hp : list.Perm list') : d.Between list' names :=
  show { d with gotos := d.gotos }.Between list' names from h.regoto h.allBreaks (hp.append_left _)

/-- A branch has been read. At its end control jumps to the end of the conditional, by a jump of a list, or stands at
    the next place if the branch is the last one. Where the condition fails, control stands there, too. -/
structure Chooses (list : List Nat) (names : List Bytes) (last : Prop) (c : Formula) (yes : Nat → List Value → Trace)
    (leaving leaving' : JumpList) (d d' : Draft) : Prop where
  between : d'.Between (list ++ leaving') names
  onward : d.Onward (list ++ leaving) d'
  more : ∀ j ∈ leaving, j ∈ leaving'
  runs : ∀ p : Proto, CompletesAbove 0 p d' (d'.pending 0 ++ (list ++ leaving')) d'.pc →
    CompletesAbove 0 p d (d.pending 0 ++ (list ++ leaving)) d.pc ∧
      ∀ (bound : Nat) (D B : List Value → Spot → Prop) (vs : List Value) (s : Spot) (no : Trace),
        d.Done p names.length vs s →
        (∀ ws s', ws.length = names.length →
          (Shows ws s'.regs ∧ d'.Jumping leaving' s' ∨ last ∧ d'.Stands p ws s') → D ws s') →
        (∀ ws s', d'.Broken d.gotos.length names.length ws s' → B ws s') →
        (∀ s', d'.Done p names.length vs s' → p.Traces bound D B vs s' no) →
        p.Traces bound D B vs s (c.test names vs (yes bound vs) no)

theorem Guarded.ends (h : Guarded (list ++ leaving) names c yes passing d d1) (hl : last) :
    Chooses list names last c yes leaving leaving d (d1.receive passing) := by
  have honward : d1.Onward (list ++ leaving) (d1.receive passing) := .of_moves (d1.receive_moves _ _)
  refine ⟨h.between.receive, h.onward.trans honward, fun _ => id, fun p hp => ?_⟩
  obtain ⟨hp1, hstands, hjumps⟩ := h.between.received hp
  obtain ⟨hp0, hruns⟩ := h.runs p hp1
  refine ⟨hp0, fun bound D B vs s no hs hD hB hno => hruns bound D B vs s no hs ?_ ?_ ?_⟩
  · exact fun ws s' hdone => hD ws s' hdone.1 (.inr ⟨hl, (hstands ws s' hdone.2).2⟩)
  · exact fun ws s' hb => hB ws s' (hb.onward honward (Nat.le_refl _) h.onward.gotos.length_le (Nat.le_refl _))
  · exact fun s' hshow hj => hno s' ⟨hs.1, hjumps vs s' hshow hj⟩

/-- **A branch with others behind it** ends with a jump to the end of the conditional. -/
theorem Guarded.departs (h : Guarded (list ++ leaving) names c yes passing d d1)
    (hj : Departed (d1.pending 0 ++ (list ++ leaving ++ passing)) d1 l d2) :
    Chooses list names last c yes leaving (leaving ++ l) d (d2.receive passing) := by
  have hperm : (list ++ leaving ++ passing ++ l).Perm (list ++ (leaving ++ l) ++ passing) := by
    rw [← List.append_assoc list leaving l, List.append_assoc _ passing l, List.append_assoc _ l passing]
    exact List.perm_append_comm.append_left _
  have hfurther : d2.Between (list ++ leaving ++ passing ++ l) names :=
    h.between.further hj.moves hj.waits hj.roomy hj.fresh.tight hj.free
  have hbetween : d2.Between (list ++ (leaving ++ l) ++ passing) names := hfurther.perm hperm
  have honward : d1.Onward (list ++ leaving ++ passing) (d2.receive passing) :=
    (Onward.of_moves hj.moves).trans (.of_moves (d2.receive_moves _ _))
  refine ⟨hbetween.receive, h.onward.trans (honward.mono fun j => List.mem_append_left _),
    fun j => List.mem_append_left _, fun p hp => ?_⟩
  obtain ⟨hp2, -, hjumps⟩ := hbetween.received hp
  replace hp2 : CompletesAbove 0 p d2 (d1.pending 0 ++ (list ++ leaving ++ passing) ++ l) d2.pc := hp2.congr fun j => by
    rw [hj.moves.toSameScope.pending, List.append_assoc (d1.pending 0)]
    exact (hperm.symm.append_left _).mem_iff
  have hp1 := fun m => hj.completes p 0 m hp2
  obtain ⟨hp0, hruns⟩ := h.runs p (hp1 0)
  refine ⟨hp0, fun bound D B vs s no hs hD hB hno => hruns bound D B vs s no hs ?_ ?_ ?_⟩
  · intro ws s' hdone
    refine hD ws s' hdone.1 (.inl ⟨hdone.2.shows (hp1 ws.length) (Nat.le_refl _) (Nat.le_refl _), ?_⟩)
    exact (hj.jumping p s' hdone.2.entered).mono fun j => List.mem_append_right _
  · exact fun ws s' hb => hB ws s' (hb.onward honward (Nat.le_refl _) h.onward.gotos.length_le (Nat.le_refl _))
  · intro s' hshow hjump
    refine hno s' ⟨hs.1, hjumps vs s' hshow (hjump.congr hj.moves.tests fun j hj => ?_)⟩
    exact List.mem_append_right _ (List.mem_append_right _ hj)

/-- **A branch that is nothing but a break**: its condition jumps right to it. -/
theorem Chooses.of_break (h : Tested (d.pending 0 ++ (list ++ leaving)) names d c true l d1)
    (hd : d.Between (list ++ leaving) names) :
    Writes leaveBlock ((d1.enter false).breaks l line) fun _ d' =>
      Chooses list names last c (fun _ vs => (Trace.stop (.broke vs)).leaving vs.length) leaving leaving d d' := by
  have h1 := h.between hd
  have hbroken : ((d1.enter false).breaks l line).Between (list ++ leaving) names := (h1.enter false).breaks
  have honward : (d1.enter false).Onward (list ++ leaving) ((d1.enter false).breaks l line) :=
    (Onward.refl _ (d1.enter false)).breaks l line
  refine (h1.leaves hbroken honward List.prefix_rfl).imp fun _ d' hleft => ?_
  obtain ⟨b, hl, hbetween, honward'⟩ := hleft
  refine ⟨hbetween, (Onward.of_moves h.moves).trans honward', fun _ => id, fun p hp => ?_⟩
  rw [pending_congr hl.jumps, hl.pc] at hp
  have hp1 : CompletesAbove 0 p d1 (d1.pending 0 ++ (list ++ leaving ++ l)) d1.pc :=
    (completes_breaks (d := d1.enter false) (hl.completes hp)).stock rfl rfl rfl fun _ _ => id
  rw [h.moves.toSameScope.pending, ← List.append_assoc] at hp1
  obtain ⟨hp0, hruns⟩ := h.runs p 0 hp1
  refine ⟨hp0, fun bound D B vs s no hs hD hB hno => ?_⟩
  obtain ⟨hlow, hhigh, hst⟩ := hd.fits hs.2 hs.1
  refine hruns bound D B vs s _ no hlow hhigh hst ?_ ?_
  · exact fun s' hst' hshow => hno s' ⟨hs.1, hl.stands (hst'.stock rfl rfl rfl)⟩
  · intro s' hjump hshow
    have hbreak : ((d1.enter false).breaks l line).Broken d1.gotos.length names.length vs s' :=
      ⟨hlow, hshow, Jumping.breaks (d := d1.enter false) hjump⟩
    rw [hs.1]
    refine (Proto.Traces.broke (D := fun _ _ => False) hbreak).leaving (fun _ _ h => h.elim) fun ws s'' hb => ⟨hb.1, hB _ _ ?_⟩
    rw [← h.moves.gotos]
    exact hl.broken hb (Nat.le_refl _)

/-! ## 4. The rest of a conditional -/

/-- The rest of a conditional has been read: the jumps of the branches before arrive at its end, and so does control
    that stands behind the last branch. -/
structure Concludes (list : List Nat) (names : List Bytes) (last : Prop) (run : Nat → List Value → Trace)
    (leaving : JumpList) (d d' : Draft) : Prop where
  between : d'.Between list names
  onward : d.Onward list d'
  runs : ∀ p : Proto, CompletesAbove 0 p d' (d'.pending 0 ++ list) d'.pc →
    CompletesAbove 0 p d (d.pending 0 ++ (list ++ leaving)) d.pc ∧
      (∀ (vs : List Value) (s : Spot), Shows vs s.regs → d.Jumping leaving s → d'.Stands p vs s) ∧
      (last → ∀ (vs : List Value) (s : Spot), d.Stands p vs s → d'.Stands p vs s) ∧
      ∀ (bound : Nat) (vs : List Value) (s : Spot), d.Done p names.length vs s →
        p.Traces bound (d'.Done p names.length) (d'.Broken d.gotos.length names.length) vs s (run bound vs)

theorem Performs.concludes (h : Performs (list ++ leaving) names names run d d1) (hlast : last → d1 = d) :
    Concludes list names last run leaving d (d1.receive leaving) := by
  have honward : d1.Onward list (d1.receive leaving) := .of_moves (d1.receive_moves _ _)
  refine ⟨h.between.receive, (h.onward.mono fun j => List.mem_append_left _).trans honward, fun p hp => ?_⟩
  obtain ⟨hp1, hstands, hjumps⟩ := h.between.received hp
  obtain ⟨hp0, hruns⟩ := h.runs p hp1
  refine ⟨hp0, fun vs s hshow hj => hjumps vs s hshow (hj.congr h.onward.tests fun j hj => ?_), fun hl vs s hst => ?_,
    fun bound vs s hs => (hruns bound vs s hs).imp (fun ws s' hd => ⟨hd.1, (hstands ws s' hd.2).2⟩) fun ws s' hb => ?_⟩
  · exact List.mem_append_right _ (List.mem_append_right _ hj)
  · exact (hstands vs s (hlast hl ▸ hst)).2
  · exact hb.onward honward (Nat.le_refl _) h.onward.gotos.length_le (Nat.le_refl _)

/-- **A branch and the rest.** -/
theorem Chooses.concludes (h : Chooses list names last c yes leaving leaving' d d1)
    (h' : Concludes list names last run leaving' d1 d') (hnot : ¬ last') :
    Concludes list names last' (fun bound vs => c.test names vs (yes bound vs) (run bound vs)) leaving d d' := by
  have honward : d.Onward list d1 := h.onward.mono fun j => List.mem_append_left _
  refine ⟨h'.between, honward.trans h'.onward, fun p hp => ?_⟩
  obtain ⟨hp1, hjumps, hlast, hruns'⟩ := h'.runs p hp
  obtain ⟨hp0, hruns⟩ := h.runs p hp1
  have hlen := h.onward.gotos.length_le
  refine ⟨hp0, fun vs s hshow hj => ?_, fun hl => absurd hl hnot, fun bound vs s hs => hruns bound _ _ vs s _ hs ?_ ?_ ?_⟩
  · refine hjumps vs s hshow ((hj.congr h.onward.tests fun j hj => ?_).mono h.more)
    exact List.mem_append_right _ (List.mem_append_right _ hj)
  · rintro ws s' hws (⟨hshow, hj⟩ | ⟨hl, hst⟩)
    · exact ⟨hws, hjumps ws s' hshow hj⟩
    · exact ⟨hws, hlast hl ws s' hst⟩
  · exact fun ws s' hb => hb.onward h'.onward (Nat.le_refl _) hlen (Nat.le_refl _)
  · refine fun s' hs' => (hruns' bound vs s' hs').imp (fun _ _ => id) fun ws s'' hb => ?_
    exact hb.onward (.refl list d') hlen (Nat.le_trans hlen h'.onward.gotos.length_le) (Nat.le_refl _)

theorem Concludes.performs (h : Concludes list names last run [] d d') : Performs list names names run d d' := by
  refine ⟨h.between, h.onward, List.prefix_rfl, fun p hp => ?_⟩
  obtain ⟨hp0, -, -, hruns⟩ := h.runs p hp
  rw [List.append_nil] at hp0
  exact ⟨hp0, hruns⟩

end LuaMachine
