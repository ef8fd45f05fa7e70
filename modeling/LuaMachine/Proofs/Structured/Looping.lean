/-
  LOOPS. A jump at the end of a round goes back to the place where the round began; the breaks arrive behind
  the loop.

  * **`Performs.while_ends`**, **`Performs.until_ends`** -- the two loops.
-/
import LuaMachine.Proofs.Structured.Branching

namespace LuaMachine

open Structured Compile Draft

theorem Proto.Traces.left {p : Proto} {k n : Nat} {D B : List Value → Spot → Prop} {vs : List Value} {s : Spot}
    {t : Trace} (h : p.Traces k D B vs s (t.leaving n)) :
    p.Traces k (fun ws s' => ws.length ≤ n ∧ D ws s') (fun ws s' => ws.length ≤ n ∧ B ws s') vs s (t.leaving n) := by
  obtain ⟨m, vs', s', hm, hend⟩ := h
  refine ⟨m, vs', s', hm, ?_⟩
  unfold Trace.leaving at hend ⊢
  cases ht : t.ending with
  | done ws | broke ws =>
    rw [ht] at hend
    exact ⟨hend.1, List.length_take_le _ _, hend.2⟩
  | clash c | endless =>
    rw [ht] at hend
    dsimp only at hend ⊢
    rw [ht] at hend ⊢
    exact hend

namespace Draft

variable {list list1 list2 : List Nat} {names : List Bytes} {d d' d'' : Draft}

theorem receive_nil (d : Draft) : d.receive [] = { d with lastTarget := d.pc } := by
  rw [receive, List.append_nil]

theorem Fresh.stands {p : Proto} {vs : List Value} {regs : Nat → Value} (h : d.Fresh) (hs : Shows vs regs) :
    d.Stands p vs ⟨d.pc, regs⟩ :=
  Entered.stands (.direct h.primed) hs

structure LoopLeft (list : List Nat) (names : List Bytes) (n : Nat) (d d' : Draft) : Prop where
  between : d'.Between list names
  runs : ∀ (p : Proto) (k : Nat), CompletesAbove k p d' (d'.pending 0 ++ list) d'.pc →
    CompletesAbove 0 p d (d.pending 0 ++ list) d.pc ∧
      (∀ (vs : List Value) (s : Spot), d.Stands p vs s → d'.Stands p vs s) ∧
      ∀ (vs : List Value) (s : Spot), Shows vs s.regs → d.Jumping (d.pending n) s → d'.Stands p vs s

/-- **The block of a loop ends.** -/
theorem Between.leavesLoop (hd : d.Between list names) (h : d'.Between list1 names)
    (ho : (d.enter true).Onward list2 d') :
    Compile.Writes Compile.leaveBlock d' fun _ d'' =>
      d'.LoopLeft list1 names d.gotos.length d'' ∧ d.Onward list2 d'' := by
  have hact : d.active = names.length := hd.active
  have htake : names.take d.active = names := by rw [hact, List.take_length]
  have hzero : d.labels.length = 0 := by rw [hd.labels, List.length_nil]
  have hfirst : d'.gotos.take d.gotos.length = d.gotos := (List.prefix_iff_eq_take.mp ho.gotos).symm
  refine (Compile.Writes.leaveBlock_ends h.toScoped ho.blocks hd.inside rfl hzero (Nat.le_of_eq hact)).imp fun _ d'' hl => ?_
  have hl : (d'.gather d.gotos.length).Left names _ d.blocks d'' := hl
  have hgather := h.gather d.gotos.length
  refine ⟨⟨htake ▸ hl.between hgather (Nat.le_of_eq hact) hd.inside, fun p k hp => ?_⟩,
    ho.tests.trans (hl.tests _), ?_, ?_, ?_, ?_, ?_⟩
  · rw [pending_congr hl.jumps, hl.pc] at hp
    obtain ⟨hp', hstands, hjumps⟩ := h.gathered (hl.completes hp)
    exact ⟨hp', fun vs s hst => hl.stands (hstands vs s hst).2, fun vs s hs hj => hl.stands (hjumps vs s hs hj)⟩
  · rw [hl.pc]
    exact ho.grows
  · have hkept : d''.gotos.take d.gotos.length = d.gotos := by
      refine hl.kept.trans ?_
      show (d'.gotos.take d.gotos.length).take d.gotos.length = d.gotos
      rw [hfirst, List.take_length]
    exact List.prefix_iff_eq_take.mpr hkept.symm
  · rw [hl.rest]
  · rw [hl.rest]
    exact ho.vararg
  · rw [hl.rest]
    exact ho.params

end Draft

section

variable {list : List Nat} {names names' : List Bytes} {run : Nat → List Value → Trace} {c : Formula}
  {d d1 d2 d3 d4 d5 d6 : Draft} {l back : JumpList}

/-- **A loop whose condition is before its body.** -/
theorem Performs.while_ends (hd : d.Between list names)
    (ht : Tested ((d.receive []).pending 0 ++ list) names (d.receive []) c false l d1)
    (h : Performs (list ++ l) names names (fun bound vs => (run bound vs).leaving vs.length) (d1.enter true) d2)
    (hj : Departed (d2.pending 0 ++ (list ++ l)) d2 back d3)
    (hb : Backed (list ++ l) names d.pc back d3 d4)
    (hl : d4.LoopLeft (list ++ l) names d1.gotos.length d5) (ho : d1.Onward (list ++ l) d5) :
    Performs list names names
      (fun bound vs => Trace.loop (fun vs => c.test names vs ((run bound vs).leaving vs.length) (.stop (.broke vs))) bound vs)
      d (d5.receive l) := by
  have hd0 : (d.receive []).Between list names := hd.nil.receive
  have honward1 : (d.receive []).Onward list d1 := .of_moves ht.moves
  have honward0 : d.Onward list (d.receive []) := .of_moves (d.receive_moves _ _)
  have honward3 : d2.Onward (list ++ l) d3 := .of_moves hj.moves
  have hfinal : d5.Onward list (d5.receive l) := .of_moves (d5.receive_moves _ _)
  refine ⟨hl.between.receive, ((honward0.trans honward1).trans (ho.mono fun j => List.mem_append_left _)).trans hfinal,
    List.prefix_rfl, fun p hp => ?_⟩
  obtain ⟨hp5, hstands5, hjumps5⟩ := hl.between.received hp
  obtain ⟨hp4, -, hbreaks⟩ := hl.runs p 0 hp5
  obtain ⟨hp3, hlands, -⟩ := hb.runs p 0 hp4
  rw [hj.moves.toSameScope.pending, ← List.append_assoc] at hp3
  have hp2 := fun m => hj.completes p 0 m hp3
  obtain ⟨hp1, hbody⟩ := h.runs p (hp2 0)
  have hp1' : CompletesAbove 0 p d1 ((d.receive []).pending 0 ++ list ++ l) d1.pc := by
    rw [← ht.moves.toSameScope.pending, List.append_assoc]
    exact hp1.stock rfl rfl rfl fun _ _ => id
  obtain ⟨hp0, htest⟩ := ht.runs p 0 hp1'
  obtain ⟨hpd, hstands, -⟩ := hd.nil.received hp0
  rw [List.append_nil] at hpd
  refine ⟨hpd, fun bound vs s hs => ?_⟩
  refine Proto.Traces.loop (I := (d.receive []).Done p names.length) (fun vs s hs => ?_) (Nat.le_refl bound)
    ⟨hs.1, (hstands vs s hs.2).2⟩
  obtain ⟨hlow, hhigh, hst⟩ := hd0.fits hs.2 hs.1
  refine htest bound _ _ vs s _ _ hlow hhigh hst ?_ ?_
  · -- a round
    intro s' hst' _
    have hround := (hbody bound vs s' ⟨hs.1, hst'.stock rfl rfl rfl⟩).left
    refine hround.imp (fun ws s'' hdone => ?_) fun ws s'' hbroken => ?_
    · have hshow : Shows ws s''.regs := hdone.2.2.shows (hp2 ws.length) (Nat.le_refl _) (Nat.le_refl _)
      obtain ⟨n, hn⟩ := (hj.jumping p s'' hdone.2.2.entered).back hlands hshow
      exact ⟨n, _, hn, hdone.2.1, (d.receive_fresh []).stands hshow⟩
    · obtain ⟨hle, hbroken⟩ := hbroken
      obtain ⟨hge, hshow, hjump⟩ := hbroken.onward (honward3.trans hb.onward) (Nat.le_refl _) h.onward.gotos.length_le
        (Nat.le_refl _)
      exact ⟨Nat.le_antisymm (hs.1 ▸ hle) hge, (hstands5 ws s'' (hbreaks ws s'' hshow hjump)).2⟩
  · -- the end
    intro s' hjump hshow
    refine .broke ⟨hs.1, hjumps5 vs s' hshow (hjump.congr ho.tests fun j hj => ?_)⟩
    exact List.mem_append_right _ (List.mem_append_right _ hj)

/-- **A loop whose condition is behind its body** and sees the locals of it. -/
theorem Performs.until_ends {b : Block} {around : List Block} (hd : d.Between list names)
    (h : Performs list names names' run (((d.receive []).enter true).enter false) d1)
    (ht : Tested (d1.pending 0 ++ list) names' d1 c false l d2) (hl : d2.Left names' b around d3)
    (hb : Backed list names d.pc l d3 d4) (he : d4.LoopLeft list names d.gotos.length d5)
    (ho : (d.receive []).Onward list d5) :
    Performs list names names
      (fun bound vs => Trace.loop (fun vs => ((run bound vs).andThen fun ws =>
        c.test names' ws (.stop (.broke ws)) (.stop (.done ws))).leaving vs.length) bound vs) d d5 := by
  have honward0 : d.Onward list (d.receive []) := .of_moves (d.receive_moves _ _)
  have honward2 : d1.Onward list d2 := .of_moves ht.moves
  refine ⟨he.between, honward0.trans ho, List.prefix_rfl, fun p hp => ?_⟩
  obtain ⟨hp4, hstands4, hbreaks⟩ := he.runs p 0 hp
  obtain ⟨hp3, hlands, hstands3⟩ := hb.runs p 0 hp4
  rw [pending_congr hl.jumps, hl.pc] at hp3
  have hp2 := hl.completes hp3
  rw [ht.moves.toSameScope.pending, ← List.append_assoc] at hp2
  obtain ⟨hp1, htest⟩ := ht.runs p 0 hp2
  obtain ⟨hp0, hbody⟩ := h.runs p hp1
  have hp0 : CompletesAbove 0 p (d.receive []) ((d.receive []).pending 0 ++ list) (d.receive []).pc :=
    hp0.stock rfl rfl rfl fun _ _ => id
  obtain ⟨hpd, hstands, -⟩ := hd.nil.received hp0
  rw [List.append_nil] at hpd
  refine ⟨hpd, fun bound vs s hs => ?_⟩
  refine Proto.Traces.loop (I := (d.receive []).Done p names.length) (fun vs s hs => ?_) (Nat.le_refl bound)
    ⟨hs.1, (hstands vs s hs.2).2⟩
  have hlen : ∀ ws : List Value, names.length ≤ ws.length →
      vs.length ≤ ws.length ∧ (ws.take vs.length).length = names.length := by
    intro ws hws
    rw [List.length_take, hs.1]
    exact ⟨hws, Nat.min_eq_left hws⟩
  have hscope := h.scope.length_le
  have hround := hbody bound vs s ⟨hs.1, hs.2.stock rfl rfl rfl⟩
  -- the condition, which either goes back or leaves the loop
  let again : List Value → Spot → Prop := fun ws s' => ws.length = names'.length ∧ Shows ws s'.regs ∧ d2.Jumping l s'
  let out : List Value → Spot → Prop := fun ws s' =>
    d1.Broken d.gotos.length names.length ws s' ∨ ws.length = names'.length ∧ d2.Stands p ws s'
  have hcond : ∀ ws s', d1.Done p names'.length ws s' →
      p.Traces bound again out ws s' (c.test names' ws (.stop (.broke ws)) (.stop (.done ws))) := by
    intro ws s' hdone
    obtain ⟨hlow, hhigh, hst⟩ := h.between.fits hdone.2 hdone.1
    refine htest bound _ _ ws s' _ _ hlow hhigh hst ?_ ?_
    · exact fun s'' hst' _ => .broke (.inr ⟨hdone.1, hst'⟩)
    · exact fun s'' hj hshow => .stop ⟨hdone.1, hshow, hj⟩
  have hall := (hround.imp (fun _ _ => id) fun ws s' hbroken => (.inl hbroken : out ws s')).andThen hcond
  refine hall.leaving ?_ ?_
  · rintro ws s' ⟨hws, hshow, hj⟩
    obtain ⟨hle, htake⟩ := hlen ws (hws ▸ hscope)
    have hshow' := hshow.take vs.length
    obtain ⟨n, hn⟩ := (hj.congr (hl.tests l) fun _ => id).back hlands hshow'
    exact ⟨hle, n, _, hn, htake, (d.receive_fresh []).stands hshow'⟩
  · rintro ws s' (hbroken | ⟨hws, hst⟩)
    · obtain ⟨hle, htake⟩ := hlen ws hbroken.1
      have hbroken2 := hbroken.onward honward2 (Nat.le_refl _) h.onward.gotos.length_le (Nat.le_refl _)
      have hout := hl.broken hbroken2 (Nat.le_of_eq hs.1)
      have hfirst : d.gotos.length ≤ d3.gotos.length := by
        have hjumps := congrArg List.length hl.jumps
        rw [List.length_map, List.length_map, ht.moves.gotos] at hjumps
        exact Nat.le_trans h.onward.gotos.length_le (Nat.le_of_eq hjumps.symm)
      have hout4 := hout.onward hb.onward (Nat.le_refl _) hfirst (Nat.le_refl _)
      exact ⟨hle, htake, hbreaks _ s' hout4.2.1 hout4.2.2⟩
    · obtain ⟨hle, htake⟩ := hlen ws (hws ▸ hscope)
      exact ⟨hle, htake, hstands4 _ s' (hstands3 _ s' (hl.stands (hst.take vs.length)))⟩

end

end LuaMachine
