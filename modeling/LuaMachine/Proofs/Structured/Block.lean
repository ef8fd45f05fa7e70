/-
  BLOCKS. At the end of a block its locals go out of scope, and the breaks that wait go to the block around;
  at the end of a loop they arrive.

  * **`Compile.Writes.leaveBlock_ends`** -- what is done at the end of a block.
-/
import LuaMachine.Proofs.Structured.Condition

namespace LuaMachine

/-! ## 1. Beginning and end -/

namespace Draft

def enter (d : Draft) (isLoop : Bool) : Draft :=
  { d with blocks := ⟨d.labels.length, d.gotos.length, d.active, false, isLoop⟩ :: d.blocks }

/-- The innermost block has come to its end: its locals are out of scope. -/
structure Left (names : List Bytes) (b : Block) (around : List Block) (d d' : Draft) : Prop where
  rest : d' = { d with
    locals := d'.locals, declared := d'.declared, active := b.active, free := b.active, labels := [], blocks := around,
    gotos := d'.gotos }
  lists : d'.Lists (names.take b.active)
  allBreaks : ∀ g ∈ d'.gotos, g.name = Compile.breakName
  kept : d'.gotos.take b.firstGoto = d.gotos.take b.firstGoto
  jumps : d'.gotos.map (·.jumps) = d.gotos.map (·.jumps)

variable {names : List Bytes} {list l : List Nat} {p : Proto} {d d' : Draft} {b : Block} {around : List Block}
  {vs : List Value} {s : Spot} {k top : Nat}

theorem Between.enter (h : d.Between list names) (isLoop : Bool) : (d.enter isLoop).Between list names where
  lists := h.lists.congr rfl rfl
  active := h.active
  labels := h.labels
  allBreaks := h.allBreaks
  waits := ⟨h.waits.le, h.waits.jumps, h.waits.nodup, h.waits.target⟩
  roomy := h.roomy.congr rfl rfl rfl rfl
  tight := h.tight
  calm := h.calm
  free := h.free
  inside := List.cons_ne_nil _ _

theorem pending_congr (h : d'.gotos.map (·.jumps) = d.gotos.map (·.jumps)) (n : Nat) : d'.pending n = d.pending n := by
  have hmap : ∀ d : Draft, d.pending n = ((d.gotos.map (·.jumps)).drop n).flatten := fun d => by
    rw [pending, List.flatMap_def, List.map_drop]
  rw [hmap, hmap, h]

namespace Left

theorem pc (h : d.Left names b around d') : d'.pc = d.pc := by
  rw [Draft.pc, Draft.pc, h.rest]

theorem stands (h : d.Left names b around d') (hs : d.Stands p vs s) : d'.Stands p vs s :=
  hs.stock (by rw [h.rest]) (by rw [h.rest]) (by rw [h.rest])

theorem completes (h : d.Left names b around d') (hp : CompletesAbove k p d' list top) : CompletesAbove k p d list top :=
  hp.stock (by rw [h.rest]) (by rw [h.rest]) (by rw [h.rest]) fun _ _ hc => by
    rw [h.rest]
    exact hc

theorem tests (h : d.Left names b around d') (list : List Nat) : d.SameTests list d' :=
  .of_code fun _ _ => by rw [h.rest]

theorem between (h : d.Left names b around d') (hd : d.Between list names)
    (ha : b.active ≤ names.length) (hin : around ≠ []) : d'.Between list (names.take b.active) where
  lists := h.lists
  active := by
    rw [h.rest, List.length_take, Nat.min_eq_left ha]
  labels := by rw [h.rest]
  allBreaks := h.allBreaks
  waits := by
    have hw := hd.waits
    rw [pending_congr h.jumps, h.rest]
    exact ⟨hw.le, hw.jumps, hw.nodup, hw.target⟩
  roomy := by
    have hle : b.active ≤ d.maxStack := Nat.le_trans (hd.active ▸ ha) (Nat.le_trans hd.roomy.active hd.roomy.free)
    rw [h.rest]
    exact ⟨Nat.le_refl _, hle, hd.roomy.stack, hd.roomy.constants⟩
  tight := by
    rw [h.rest]
    exact hd.tight
  calm := by
    rw [h.rest]
    exact hd.calm
  free := by rw [h.rest]
  inside := by
    rw [h.rest]
    exact hin

end Left

/-! ## 2. Breaks -/

def breaks (d : Draft) (l : JumpList) (line : Nat) : Draft :=
  { d with gotos := d.gotos ++ [⟨Compile.breakName, l, line, d.active⟩] }

def gather (d : Draft) (n : Nat) : Draft := { d.receive (d.pending n) with gotos := d.gotos.take n }

theorem pending_append (d : Draft) (n : Nat) : d.pending 0 = (d.gotos.take n).flatMap (·.jumps) ++ d.pending n := by
  rw [pending, pending, ← List.flatMap_append, List.take_append_drop, List.drop_zero]

theorem breaks_perm (d : Draft) (l : JumpList) (line : Nat) (list : List Nat) :
    (d.pending 0 ++ (list ++ l)).Perm ((d.breaks l line).gotos.flatMap (·.jumps) ++ list) := by
  have hnew : (d.breaks l line).gotos.flatMap (·.jumps) = d.pending 0 ++ l := by
    simp only [breaks, pending, List.drop_zero, List.flatMap_append, List.flatMap_cons, List.flatMap_nil, List.append_nil]
  rw [hnew, List.append_assoc]
  exact List.perm_append_comm.append_left _

theorem gather_perm (d : Draft) (n : Nat) (list : List Nat) :
    (d.pending 0 ++ list).Perm ((d.gotos.take n).flatMap (·.jumps) ++ (list ++ d.pending n)) := by
  rw [d.pending_append n, List.append_assoc]
  exact List.perm_append_comm.append_left _

theorem Between.breaks {line : Nat} (h : d.Between (list ++ l) names) : (d.breaks l line).Between list names := by
  refine h.regoto (fun g hg => ?_) (d.breaks_perm l line list)
  rcases List.mem_append.mp hg with hg | hg
  · exact h.allBreaks g hg
  · rw [List.mem_singleton] at hg
    rw [hg]

theorem completes_breaks {line : Nat}
    (hp : CompletesAbove k p (d.breaks l line) ((d.breaks l line).pending 0 ++ list) top) :
    CompletesAbove k p d (d.pending 0 ++ (list ++ l)) top :=
  completes_regoto hp (d.breaks_perm l line list)

theorem Jumping.breaks {line : Nat} (h : d.Jumping l s) :
    (d.breaks l line).Jumping ((d.breaks l line).pending d.gotos.length) s := by
  have hnew : (d.breaks l line).pending d.gotos.length = l := by simp [pending, Draft.breaks]
  rw [hnew]
  exact h

theorem Between.gather (h : d.Between list names) (n : Nat) : (d.gather n).Between list names := by
  have hbreaks : ∀ g ∈ d.gotos.take n, g.name = Compile.breakName := fun g hg =>
    h.allBreaks g ((List.take_sublist _ _).subset hg)
  exact (h.regoto hbreaks (d.gather_perm n list)).receive

/-- **Where breaks arrive**, there stands who stood at the end of the code, and who was at one of them. -/
theorem Between.gathered {n : Nat} (h : d.Between list names)
    (hp : CompletesAbove k p (d.gather n) ((d.gather n).pending 0 ++ list) (d.gather n).pc) :
    CompletesAbove 0 p d (d.pending 0 ++ list) d.pc ∧
      (∀ (vs : List Value) (s : Spot), d.Stands p vs s → Shows vs s.regs ∧ (d.gather n).Stands p vs s) ∧
      ∀ (vs : List Value) (s : Spot), Shows vs s.regs → d.Jumping (d.pending n) s → (d.gather n).Stands p vs s := by
  have hbreaks : ∀ g ∈ d.gotos.take n, g.name = Compile.breakName := fun g hg =>
    h.allBreaks g ((List.take_sublist _ _).subset hg)
  obtain ⟨hp0, hstands, hjumps⟩ := (h.regoto hbreaks (d.gather_perm n list)).received hp
  exact ⟨completes_regoto hp0 (d.gather_perm n list), fun vs s hst => hstands vs s (hst.stock rfl rfl rfl), hjumps⟩

end Draft

/-! ## 3. The end of a block -/

namespace Compile

variable {names : List Bytes} {list : List Nat} {d : Draft} {b : Block} {around : List Block}

theorem Writes.enterBlock_enters {isLoop : Bool} : Writes (Compile.enterBlock isLoop) d fun _ d' => d' = d.enter isLoop :=
  Writes.enterBlock.imp fun _ _ h => h.2

theorem findLabel_none (h : d.labels = []) (name : Bytes) : findLabel? d name = none := by
  unfold findLabel?
  split
  · rfl
  · rw [h, List.drop_nil]
    rfl

theorem Writes.moveOut_moves {gs : List PendingGoto} (hd : d.labels = []) (hc : b.captured = false) :
    Writes (Compile.moveOut b gs) d fun gs' d' => d' = d ∧ gs'.map (·.jumps) = gs.map (·.jumps) ∧
      gs'.map (·.name) = gs.map (·.name) := by
  induction gs with
  | nil => exact Writes.pure ⟨rfl, rfl, rfl⟩
  | cons g gs ih =>
    unfold Compile.moveOut
    rw [if_neg fun h => Bool.false_ne_true (hc.symm.trans h.2)]
    have hgoto : ∀ g', Writes (Compile.gotoLabel g') d fun found d' => found = false ∧ d' = d := fun g' => by
      refine Writes.get fun s hs => ?_
      rw [hs, findLabel_none hd]
      exact Writes.pure ⟨rfl, rfl⟩
    refine (hgoto _).andThen fun found d1 h => ?_
    obtain ⟨rfl, rfl⟩ := h
    rw [if_neg Bool.false_ne_true]
    refine ih.andThen fun gs' d' h => Writes.pure ?_
    obtain ⟨hd', hj, hn⟩ := h
    exact ⟨hd', by simp only [List.map_cons, hj], by simp only [List.map_cons, hn]⟩

theorem Writes.closeMatching_gathers {label : Label} {gs : List PendingGoto} (hpc : label.pc = d.pc)
    (hn : ∀ g ∈ gs, g.name = label.name) :
    Writes (closeMatching label gs) d fun rest d' => rest = [] ∧
      d' = { d with lastTarget := d'.lastTarget, here := d.here ++ gs.flatMap (·.jumps) } ∧
      (d.lastTarget = d.pc → d'.lastTarget = d.pc) := by
  induction gs generalizing d with
  | nil => exact Writes.pure ⟨rfl, by rw [List.flatMap_nil, List.append_nil], id⟩
  | cons g gs ih =>
    unfold closeMatching
    rw [if_pos (hn g (List.mem_cons_self ..))]
    have hclose : Writes (closeGoto g label) d fun _ d1 => d1 = d.receive g.jumps := by
      unfold closeGoto
      split
      · exact Writes.get fun _ _ => Writes.failPlain
      · refine Writes.bind (Writes.ofFn ?_)
        rw [if_pos hpc]
        exact Writes.patchHere_receives
    refine hclose.andThen fun _ d1 hd1 => ?_
    subst hd1
    refine (ih (d := d.receive g.jumps) hpc fun g' hg' => hn g' (List.mem_cons_of_mem _ hg')).imp fun rest d' h => ?_
    obtain ⟨hrest, hd', ht⟩ := h
    refine ⟨hrest, ?_, fun _ => ht rfl⟩
    rw [hd']
    simp only [Draft.receive, List.flatMap_cons, List.append_assoc]

theorem Writes.closeGotos_gathers (label : Label) (hpc : label.pc = d.pc) (ht : d.lastTarget = d.pc)
    (hn : ∀ g ∈ d.gotos, g.name = label.name) (hb : d.blocks = b :: around) :
    Writes (closeGotos label) d fun _ d' => d' = d.gather b.firstGoto := by
  refine Writes.get fun s hs => ?_
  subst hs
  rw [hb]
  refine (Writes.closeMatching_gathers hpc fun g hg => hn g ((List.drop_sublist _ _).subset hg)).andThen fun rest d' h => ?_
  obtain ⟨rfl, hd', hlast⟩ := h
  refine Writes.modifyFn ?_
  rw [hd', hlast ht, List.append_nil]
  rfl

theorem Writes.breakLabel_gathers (hd : ∀ g ∈ d.gotos, g.name = breakName) (hb : d.blocks = b :: around) :
    Writes breakLabel d fun _ d' => ∃ labels, d' = { d.gather b.firstGoto with labels := d.labels ++ labels } := by
  refine Writes.markTarget.andThen fun pc d1 h => ?_
  obtain ⟨rfl, rfl⟩ := h
  refine Writes.get fun s _ => Writes.bind (Writes.modifyFn ?_)
  let label : Label := ⟨breakName, d.code.size, 0, s.fn.active⟩
  let d1 : Draft := { d with lastTarget := d.code.size, labels := d.labels ++ [label] }
  exact (Writes.closeGotos_gathers (d := d1) label rfl rfl hd hb).imp fun _ d' h => ⟨[label], h⟩

theorem Writes.leaveBlock_ends (hd : d.Scoped names) (hb : d.blocks = b :: around) (hin : around ≠ [])
    (hc : b.captured = false) (h0 : b.firstLabel = 0) (hact : b.active ≤ names.length) :
    Writes Compile.leaveBlock d fun _ d' =>
      (if b.isLoop then d.gather b.firstGoto else d).Left names b around d' := by
  refine Writes.get fun s hs => ?_
  subst hs
  split
  · next hnil =>
    rw [hb] at hnil
    cases hnil
  next b' around' hb' =>
  obtain ⟨rfl, rfl⟩ : b = b' ∧ around = around' := by
    rw [hb] at hb'
    simpa using hb'
  extract_lets finish breaks
  -- locals go out of scope, and breaks that wait go out of the block
  have hfinish : ∀ d1 : Draft, d1.Lists names → d1.active = names.length → (∀ g ∈ d1.gotos, g.name = breakName) →
      Writes (finish ()) d1 fun _ d' => d1.Left names b around d' := by
    intro d1 hlists hactive hbreaks
    obtain ⟨ls, ds, hend⟩ := endLocals_eq b.active { d1 with blocks := around }
    have hout : { d1 with blocks := around }.Lists names := hlists.congr rfl rfl
    have hlists' := hout.endLocals hact
    have hmin : min d1.active b.active = b.active := Nat.min_eq_right (hactive ▸ hact)
    refine Writes.bind (Writes.modifyFn ?_)
    simp only [hend, h0, List.take_zero, hmin] at hlists' ⊢
    refine Writes.demanding fun _ => Writes.get fun t ht => ?_
    rw [ht]
    split
    · next hdrop =>
      exact Writes.pure ⟨rfl, hlists'.congr rfl rfl, hbreaks, rfl, rfl⟩
    · next g gs hdrop =>
      rw [if_neg (by simpa using hin)]
      refine (Writes.moveOut_moves rfl hc).andThen fun gs' d2 h => Writes.modifyFn ?_
      obtain ⟨rfl, hjumps, hnames⟩ := h
      have hsplit : d1.gotos.take b.firstGoto ++ g :: gs = d1.gotos := by
        rw [← hdrop]
        exact List.take_append_drop _ _
      have hlen : (d1.gotos.take b.firstGoto).length = b.firstGoto := by
        have hlt : b.firstGoto < d1.gotos.length := by
          have : 0 < (d1.gotos.drop b.firstGoto).length := by simp [hdrop]
          rw [List.length_drop] at this
          omega
        rw [List.length_take, Nat.min_eq_left (Nat.le_of_lt hlt)]
      refine ⟨rfl, hlists'.congr rfl rfl, fun g' hg' => ?_, ?_, ?_⟩
      · rcases List.mem_append.mp hg' with hg' | hg'
        · exact hbreaks g' ((List.take_sublist _ _).subset hg')
        · have hname : g'.name ∈ (g :: gs).map (·.name) := hnames ▸ List.mem_map_of_mem hg'
          obtain ⟨g'', hg'', hname⟩ := List.mem_map.mp hname
          rw [← hname]
          exact hbreaks g'' (hsplit ▸ List.mem_append_right _ hg'')
      · exact List.take_left' hlen
      · show (d1.gotos.take b.firstGoto ++ gs').map (·.jumps) = _
        rw [List.map_append, hjumps, ← List.map_append, hsplit]
  rw [hc, Bool.and_false, if_neg Bool.false_ne_true]
  show Writes (if b.isLoop = true then _ else finish ()) s.fn _
  split
  · refine (Writes.breakLabel_gathers hd.allBreaks hb).andThen fun _ d1 h => ?_
    obtain ⟨labels, rfl⟩ := h
    have hbreaks : ∀ g ∈ (s.fn.gather b.firstGoto).gotos, g.name = breakName := fun g hg =>
      hd.allBreaks g ((List.take_sublist _ _).subset hg)
    let d1 : Draft := { s.fn.gather b.firstGoto with labels := s.fn.labels ++ labels }
    refine (hfinish d1 (hd.lists.congr rfl rfl) hd.active hbreaks).imp fun _ d' h => ?_
    exact ⟨h.rest, h.lists, h.allBreaks, h.kept, h.jumps⟩
  · exact hfinish s.fn hd.lists hd.active hd.allBreaks

end Compile

end LuaMachine
