/-
  LOCALS, GOTOS AND BLOCKS KEEP A DRAFT GOOD. A goto whose label has not been met keeps its jumps waiting;
  whoever takes it from the list has aimed them.

  * `Settled.closeBody` -- the end of a function: **all its jumps are aimed**.
-/
import LuaMachine.Compiler.Expression
import LuaMachine.Proofs.Compiler.Scope

namespace LuaMachine

def Going (gs : List PendingGoto) (n : Nat) : Prop := ∃ g ∈ gs, n ∈ g.jumps

theorem Going.append {gs gs' : List PendingGoto} {n : Nat} :
    Going (gs ++ gs') n ↔ Going gs n ∨ Going gs' n := by
  simp only [Going, List.mem_append]
  grind

theorem Going.cons {g : PendingGoto} {gs : List PendingGoto} {n : Nat} :
    Going (g :: gs) n ↔ n ∈ g.jumps ∨ Going gs n := by
  simp only [Going, List.mem_cons]
  grind

namespace Draft

/-! ## 1. Between two statements -/

def HasGoto (d : Draft) (g : PendingGoto) : Prop :=
  g.active ≤ d.maxStack ∧ ∀ n ∈ g.jumps, d.OpAt n .jmp

structure Settled (source : Bytes) (depth : Nat) (waiting : Nat → Prop) (d : Draft) : Prop where
  ready : d.Ready source depth fun n => waiting n ∨ Going d.gotos n
  gotos : ∀ g ∈ d.gotos, d.HasGoto g
  labels : ∀ l ∈ d.labels, l.pc ≤ d.code.size

/-- What a statement leaves alone. -/
structure Follows (d d' : Draft) : Prop where
  kept : d.Kept d'
  maxStack : d.maxStack ≤ d'.maxStack
  constants : d.constants.size ≤ d'.constants.size
  upvalues : d.upvalues.size ≤ d'.upvalues.size
  params : d'.params = d.params
  active : d.active ≤ d'.active
  blocks : ∃ level, Marked level d.blocks d'.blocks

variable {d d' : Draft} {source : Bytes} {depth : Nat} {waiting waiting' : Nat → Prop}

theorem Grows.follows (h : d.Grows d') : d.Follows d' where
  kept := h.kept
  maxStack := h.maxStack
  constants := h.constants
  upvalues := h.upvalues
  params := h.params
  active := Nat.le_of_eq h.active.symm
  blocks := ⟨_, h.blocks⟩

theorem Follows.refl (d : Draft) : d.Follows d := (Grows.refl d).follows

theorem Follows.trans {d'' : Draft} (h : d.Follows d') (h' : d'.Follows d'') : d.Follows d'' where
  kept := h.kept.trans h'.kept
  maxStack := Nat.le_trans h.maxStack h'.maxStack
  constants := Nat.le_trans h.constants h'.constants
  upvalues := Nat.le_trans h.upvalues h'.upvalues
  params := h'.params.trans h.params
  active := Nat.le_trans h.active h'.active
  blocks := by
    obtain ⟨l, hl⟩ := h.blocks
    obtain ⟨l', hl'⟩ := h'.blocks
    exact ⟨max l l', (hl.mono (Nat.le_max_left ..)).trans (hl'.mono (Nat.le_max_right ..))⟩

theorem HasGoto.kept {g : PendingGoto} (h : d.HasGoto g) (hk : d.Kept d')
    (hm : d.maxStack ≤ d'.maxStack) : d'.HasGoto g :=
  ⟨Nat.le_trans h.1 hm, fun n hn => (h.2 n hn).kept_jmp hk⟩

theorem Settled.advance (h : d.Settled source depth waiting) (hk : d.Kept d')
    (hm : d.maxStack ≤ d'.maxStack) (hg : d'.gotos = d.gotos) (hl : d'.labels = d.labels)
    (hr : d'.Ready source depth fun n => waiting' n ∨ Going d.gotos n) :
    d'.Settled source depth waiting' := by
  refine ⟨?_, fun g hmem => ?_, fun l hmem => ?_⟩
  · rw [hg]
    exact hr
  · rw [hg] at hmem
    exact (h.gotos g hmem).kept hk hm
  · rw [hl] at hmem
    exact Nat.le_trans (h.labels l hmem) hk.size

theorem Settled.grows (h : d.Settled source depth waiting) (hg : d.Grows d')
    (hr : d'.Ready source depth fun n => waiting' n ∨ Going d.gotos n) :
    d'.Settled source depth waiting' :=
  h.advance hg.kept hg.maxStack hg.gotos hg.labels hr

theorem Settled.extends (h : d.Settled source depth waiting) (hx : d.Extends d')
    (hr : d'.Ready source depth fun n => waiting' n ∨ Going d.gotos n) :
    d'.Settled source depth waiting' :=
  h.grows hx.grows hr

theorem Settled.wait (h : d.Settled source depth waiting) (hw : ∀ n, waiting n → waiting' n) :
    d.Settled source depth waiting' :=
  ⟨h.ready.wait fun _ => Or.imp_left (hw _), h.gotos, h.labels⟩

theorem Settled.steady (h : d.Settled source depth waiting) (hs : d.Steady d')
    (hc : d'.code = d.code) (hl : d'.lines.size = d.lines.size) (hh : d'.here = d.here) :
    d'.Settled source depth waiting := by
  refine h.extends hs.toExtends (h.ready.steady hs (h.ready.good.steady hs hc hl (fun n hn => ?_) ?_))
  · rw [hh]
    exact hn
  · rw [hh]
    exact h.ready.good.here

end Draft

namespace Compile

open Draft

variable {d d' : Draft} {source : Bytes} {depth : Nat} {waiting : Nat → Prop}

/-! ## 2. Locals -/

theorem Writes.enterBlock {isLoop : Bool} :
    Writes (Compile.enterBlock isLoop) d fun _ d' => d.free = d.active ∧
      d' = { d with blocks := ⟨d.labels.length, d.gotos.length, d.active, false, isLoop⟩ :: d.blocks } := by
  refine Writes.bind (Writes.modifyFn (Writes.demand.imp fun _ d' hd => ?_))
  obtain ⟨rfl, hfree⟩ := hd
  exact ⟨of_decide_eq_true hfree, rfl⟩

theorem Writes.declare {name : Bytes} :
    Writes (Compile.declare name) d fun _ d' =>
      ∃ ls ds, d' = { d with locals := ls, declared := ds } := by
  refine Writes.get fun s hs => ?_
  split
  · exact Writes.failLimit
  · exact Writes.modifyFn ⟨_, _, rfl⟩

theorem mapLocal_eq (d : Draft) (reg : Nat) (f : DraftLocal → DraftLocal) :
    ∃ ls, mapLocal d reg f = { d with locals := ls } := by
  unfold mapLocal
  split
  · exact ⟨_, rfl⟩
  · exact ⟨_, rfl⟩

theorem Writes.beginLocal {reg : Nat} :
    Writes (Compile.beginLocal reg) d fun _ d' => ∃ ls, d' = { d with locals := ls } :=
  Writes.modifyFn (mapLocal_eq ..)

theorem Writes.activate {n : Nat} :
    Writes (Compile.activate n) d fun _ d' =>
      ∃ ls, d' = { d with locals := ls, active := d.active + n } := by
  induction n generalizing d with
  | zero => exact Writes.pure ⟨d.locals, rfl⟩
  | succ n ih =>
    refine Writes.get fun s hs => ?_
    refine Writes.beginLocal.andThen fun _ d1 ⟨ls, hd1⟩ => ?_
    refine Writes.bind (Writes.modifyFn ?_)
    refine ih.imp fun _ d' ⟨ls', hd'⟩ => ⟨ls', ?_⟩
    subst hd1
    rw [hd']
    simp only [Nat.add_assoc, Nat.add_comm 1 n]

theorem endLocals_eq (level : Nat) (d : Draft) :
    ∃ ls ds, endLocals level d =
      { d with locals := ls, declared := ds, active := min d.active level } := by
  have hgo : ∀ (pc n : Nat) (d : Draft), ∃ ls, endLocals.go level pc n d = { d with locals := ls } := by
    intro pc n
    induction n with
    | zero => exact fun d => ⟨d.locals, rfl⟩
    | succ n ih =>
      intro d
      obtain ⟨ls, hls⟩ := mapLocal_eq d (level + n) fun v => { v with stop := pc }
      obtain ⟨ls', hls'⟩ := ih (mapLocal d (level + n) fun v => { v with stop := pc })
      refine ⟨ls', ?_⟩
      unfold endLocals.go
      rw [hls', hls]
  obtain ⟨ls, hls⟩ := hgo d.pc (d.active - level) d
  refine ⟨ls, d.declared.take level, ?_⟩
  unfold endLocals
  simp only [hls]

end Compile

namespace Draft

open Compile

variable {d d' : Draft} {source : Bytes} {depth : Nat} {waiting waiting' : Nat → Prop}

/-! ## 3. Gotos -/

theorem Ready.closeGoto {g : PendingGoto} {label : Label}
    (h : d.Ready source depth fun n => waiting n ∨ n ∈ g.jumps) (hg : d.HasGoto g)
    (hl : label.pc ≤ d.code.size) :
    Writes (Compile.closeGoto g label) d fun _ d' => d'.Ready source depth waiting ∧ d.Steady d' ∧
      d'.code.size = d.code.size := by
  unfold Compile.closeGoto
  split
  · exact Writes.get fun s _ => Writes.failPlain
  · refine (h.good.patchTo hg.2 hl).imp fun _ d' ⟨hgood, hs, hsize⟩ => ?_
    exact ⟨h.steady hs hgood, hs, hsize⟩

theorem Ready.closeMatching {label : Label} {gs : List PendingGoto}
    (h : d.Ready source depth fun n => waiting n ∨ Going gs n) (hg : ∀ g ∈ gs, d.HasGoto g)
    (hl : label.pc ≤ d.code.size) :
    Writes (Compile.closeMatching label gs) d fun rest d' =>
      d'.Ready source depth (fun n => waiting n ∨ Going rest n) ∧ d.Steady d' ∧
      d'.code.size = d.code.size ∧ ∀ g ∈ rest, g ∈ gs := by
  induction gs generalizing d waiting with
  | nil => exact Writes.pure ⟨h, .refl d, rfl, fun _ => id⟩
  | cons g rest ih =>
    unfold Compile.closeMatching
    split
    · have h' : d.Ready source depth fun n => (waiting n ∨ Going rest n) ∨ n ∈ g.jumps :=
        h.wait fun n hn => by
          rw [Going.cons] at hn
          grind
      refine (h'.closeGoto (hg g (by simp)) hl).andThen fun _ d1 ⟨h₁, hs1, hsize⟩ => ?_
      refine (ih h₁ (fun g' hm => ?_) (by omega)).imp fun gs' d' ⟨h₂, hs2, hsize', hsub⟩ => ?_
      · exact (hg g' (by simp [hm])).kept hs1.kept hs1.maxStack
      · exact ⟨h₂, hs1.trans hs2, by omega, fun g' hm => List.mem_cons_of_mem _ (hsub g' hm)⟩
    · have h' : d.Ready source depth fun n => (waiting n ∨ n ∈ g.jumps) ∨ Going rest n :=
        h.wait fun n hn => by
          rw [Going.cons] at hn
          grind
      refine (ih h' (fun g' hm => hg g' (by simp [hm])) hl).andThen
        fun gs' d' ⟨h₂, hs2, hsize', hsub⟩ => Writes.pure ⟨h₂.wait fun n hn => ?_, hs2, hsize', ?_⟩
      · rw [Going.cons]
        grind
      · intro g' hm
        rcases List.mem_cons.mp hm with rfl | hm
        · simp
        · exact List.mem_cons_of_mem _ (hsub g' hm)

theorem Settled.setGotos {gs : List PendingGoto} (h : d.Ready source depth fun n => waiting n ∨ Going gs n)
    (hg : ∀ g ∈ gs, d.HasGoto g) (hl : ∀ l ∈ d.labels, l.pc ≤ d.code.size) :
    { d with gotos := gs }.Settled source depth waiting := by
  have hs := h.good.stocked
  refine ⟨⟨⟨h.good.written.transport rfl rfl (.refl _) (Nat.le_refl _) fun _ => id, ?_, h.good.here⟩,
    h.active⟩, hg, hl⟩
  exact ⟨hs.low, hs.high, hs.free, hs.constants, hs.upvalues, hs.count, hs.protos, hs.captured⟩

/-- What statements that write little leave: other gotos, labels and jumps. -/
structure Patched (d d' : Draft) : Prop extends d.Follows d' where
  active_eq : d'.active = d.active
  free_eq : d'.free = d.free
  maxStack_eq : d'.maxStack = d.maxStack
  blocks_eq : d'.blocks = d.blocks
  upvalues_eq : d'.upvalues = d.upvalues
  protos_eq : d'.protos = d.protos

theorem Steady.patched (h : d.Steady d') (gs : List PendingGoto) (ls : List Label) :
    d.Patched { d' with gotos := gs, labels := ls } :=
  ⟨⟨h.kept, h.maxStack, h.constants, Nat.le_of_eq (by rw [← h.upvalues]), h.params,
    Nat.le_of_eq h.active.symm, 0, by rw [← h.blocks]; exact .refl _ _⟩, h.active, h.free_eq,
    h.maxStack_eq, h.blocks, h.upvalues, h.protos⟩

theorem Patched.trans {d'' : Draft} (h : d.Patched d') (h' : d'.Patched d'') : d.Patched d'' :=
  ⟨h.toFollows.trans h'.toFollows, h'.active_eq.trans h.active_eq, h'.free_eq.trans h.free_eq,
    h'.maxStack_eq.trans h.maxStack_eq, h'.blocks_eq.trans h.blocks_eq,
    h'.upvalues_eq.trans h.upvalues_eq, h'.protos_eq.trans h.protos_eq⟩

/-- **The gotos of the innermost block that have the label's name are aimed at it.** -/
theorem Settled.closeGotos {label : Label} (h : d.Settled source depth waiting)
    (hl : label.pc ≤ d.code.size) :
    Writes (Compile.closeGotos label) d fun _ d' => d'.Settled source depth waiting ∧
      d.Patched d' ∧ d'.code.size = d.code.size := by
  refine Writes.get fun s hs => ?_
  subst hs
  extract_lets first gotos
  clear_value first
  have hsplit : ∀ n, Going s.fn.gotos n ↔ Going (gotos.take first) n ∨ Going (gotos.drop first) n := by
    intro n
    rw [← Going.append, List.take_append_drop]
  have h' : s.fn.Ready source depth fun n => (waiting n ∨ Going (gotos.take first) n) ∨
      Going (gotos.drop first) n :=
    h.ready.wait fun n hn => by
      rw [hsplit] at hn
      grind
  refine (h'.closeMatching (fun g hm => h.gotos g (List.mem_of_mem_drop hm)) hl).andThen
    fun rest d1 ⟨h₁, hs1, hsize, hsub⟩ => Writes.modifyFn ⟨?_, hs1.patched _ d1.labels, hsize⟩
  refine Settled.setGotos (h₁.wait fun n hn => ?_) (fun g hm => ?_) fun l hm => ?_
  · rw [Going.append]
    grind
  · have hmem : g ∈ s.fn.gotos := by
      rcases List.mem_append.mp hm with hm | hm
      · exact List.mem_of_mem_take hm
      · exact List.mem_of_mem_drop (hsub g hm)
    exact (h.gotos g hmem).kept hs1.kept hs1.maxStack
  · rw [hs1.labels] at hm
    have := h.labels l hm
    omega

/-- **A goto whose label has been met is aimed at it.** -/
theorem Ready.gotoLabel {g : PendingGoto} (h : d.Ready source depth fun n => waiting n ∨ n ∈ g.jumps)
    (hg : d.HasGoto g) (hl : ∀ l ∈ d.labels, l.pc ≤ d.code.size) :
    Writes (Compile.gotoLabel g) d fun found d' => d.Steady d' ∧ d'.code.size = d.code.size ∧
      (found = true → d'.Ready source depth waiting) ∧
      (found = false → d'.Ready source depth fun n => waiting n ∨ n ∈ g.jumps) := by
  refine Writes.get fun s hs => ?_
  subst hs
  split
  · exact Writes.pure ⟨.refl _, rfl, nofun, fun _ => h⟩
  · next label hfind =>
    have hmem : label ∈ s.fn.labels := by
      unfold findLabel? at hfind
      split at hfind
      · exact nomatch hfind
      · exact List.mem_of_mem_drop (List.mem_of_find?_eq_some hfind)
    have hpc := hl label hmem
    have hend : ∀ d1, d1.Ready source depth (fun n => waiting n ∨ n ∈ g.jumps) → s.fn.Steady d1 →
        d1.code.size = s.fn.code.size → Writes (do Compile.closeGoto g label; return true) d1
          fun found d' => s.fn.Steady d' ∧ d'.code.size = s.fn.code.size ∧
            (found = true → d'.Ready source depth waiting) ∧
            (found = false → d'.Ready source depth fun n => waiting n ∨ n ∈ g.jumps) := by
      intro d1 h₁ hs1 hsize
      refine (h₁.closeGoto (hg.kept hs1.kept hs1.maxStack) (by omega)).andThen
        fun _ d2 ⟨h₂, hs2, hsize2⟩ => Writes.pure ⟨hs1.trans hs2, by omega, fun _ => h₂, nofun⟩
    split
    · next hlt =>
      refine (h.good.closeOnJump hg.2 (Nat.lt_of_lt_of_le hlt hg.1)).andThen
        fun _ d1 ⟨hgood, hs1, hsize⟩ => hend d1 (h.steady hs1 hgood) hs1 hsize
    · exact hend s.fn h (.refl _) rfl

theorem Ready.moveOut {b : Block} {gs : List PendingGoto}
    (h : d.Ready source depth fun n => waiting n ∨ Going gs n) (hg : ∀ g ∈ gs, d.HasGoto g)
    (hl : ∀ l ∈ d.labels, l.pc ≤ d.code.size) (hb : b.captured → b.active < d.maxStack) :
    Writes (Compile.moveOut b gs) d fun rest d' =>
      d'.Ready source depth (fun n => waiting n ∨ Going rest n) ∧ d.Steady d' ∧
      d'.code.size = d.code.size ∧ ∀ g ∈ rest, d'.HasGoto g := by
  induction gs generalizing d waiting with
  | nil => exact Writes.pure ⟨h, .refl d, rfl, nofun⟩
  | cons g rest ih =>
    have hnext : ∀ d1, d1.Ready source depth (fun n => (waiting n ∨ Going rest n) ∨ n ∈ g.jumps) →
        d.Steady d1 → d1.code.size = d.code.size → Writes (do
          let g := { g with active := min g.active b.active }
          if ← Compile.gotoLabel g then Compile.moveOut b rest
          else return g :: (← Compile.moveOut b rest)) d1 fun rest d' =>
            d'.Ready source depth (fun n => waiting n ∨ Going rest n) ∧ d.Steady d' ∧
            d'.code.size = d.code.size ∧ ∀ g ∈ rest, d'.HasGoto g := by
      intro d1 h₁ hs1 hsize1
      have hg1 : d1.HasGoto { g with active := min g.active b.active } := by
        have h2 := (hg g (by simp)).kept hs1.kept hs1.maxStack
        exact ⟨Nat.le_trans (Nat.min_le_left ..) h2.1, h2.2⟩
      have hl1 : ∀ d2, d1.Steady d2 → d2.code.size = d1.code.size → ∀ l ∈ d2.labels,
          l.pc ≤ d2.code.size := by
        intro d2 hs2 hsize2 l hm
        rw [hs2.labels, hs1.labels] at hm
        have := hl l hm
        omega
      have hrest : ∀ d2, d1.Steady d2 → ∀ g' ∈ rest, d2.HasGoto g' := fun d2 hs2 g' hm =>
        (hg g' (by simp [hm])).kept (hs1.trans hs2).kept (hs1.trans hs2).maxStack
      have hb1 : ∀ d2, d1.Steady d2 → b.captured → b.active < d2.maxStack := fun d2 hs2 hc => by
        rw [(hs1.trans hs2).maxStack_eq]
        exact hb hc
      refine (Ready.gotoLabel (g := { g with active := min g.active b.active }) h₁ hg1
        (hl1 d1 (.refl _) rfl)).andThen fun found d2 ⟨hs2, hsize2, hyes, hno⟩ => ?_
      cases found with
      | true =>
        refine (ih (hyes rfl) (hrest d2 hs2) (hl1 d2 hs2 hsize2) (hb1 d2 hs2)).imp
          fun gs' d' ⟨h3, hs3, hsize3, hall⟩ => ?_
        exact ⟨h3, (hs1.trans hs2).trans hs3, by omega, hall⟩
      | false =>
        have h₂ : d2.Ready source depth fun n => (waiting n ∨ n ∈ g.jumps) ∨ Going rest n :=
          (hno rfl).wait fun n hn => by grind
        refine (ih h₂ (hrest d2 hs2) (hl1 d2 hs2 hsize2) (hb1 d2 hs2)).andThen
          fun gs' d' ⟨h3, hs3, hsize3, hall⟩ => Writes.pure ⟨h3.wait fun n hn => ?_,
            (hs1.trans hs2).trans hs3, by omega, fun g' hm => ?_⟩
        · rw [Going.cons]
          grind
        · rcases List.mem_cons.mp hm with rfl | hm
          · exact hg1.kept (hs2.trans hs3).kept (hs2.trans hs3).maxStack
          · exact hall g' hm
    have h' : d.Ready source depth fun n => (waiting n ∨ Going rest n) ∨ n ∈ g.jumps :=
      h.wait fun n hn => by
        rw [Going.cons] at hn
        grind
    unfold Compile.moveOut
    split
    · next hc =>
      refine (h'.good.closeOnJump (hg g (by simp)).2 (hb hc.2)).andThen
        fun _ d1 ⟨hgood, hs1, hsize⟩ => hnext d1 (h'.steady hs1 hgood) hs1 hsize
    · exact hnext d h' (.refl d) rfl

/-! ## 4. Blocks -/

theorem Settled.steadily (h : d.Settled source depth waiting) (hs : d.Steady d')
    (hg : d'.GoodFor d.maxStack source depth fun n => waiting' n ∨ Going d.gotos n) :
    d'.Settled source depth waiting' :=
  h.extends hs.toExtends (h.ready.steady hs hg)

theorem Settled.markTarget (h : d.Settled source depth waiting) :
    Writes Compile.markTarget d fun pc d' => d'.Settled source depth waiting ∧ d.Steady d' ∧
      pc = d.code.size ∧ d'.code = d.code :=
  h.ready.good.markTarget.imp fun _ _ ⟨hpc, hg, hs, hc⟩ => ⟨h.steadily hs hg, hs, hpc, hc⟩

theorem Settled.jump (h : d.Settled source depth waiting) :
    Writes Compile.jump d fun l d' => d'.Settled source depth (fun n => waiting n ∨ n ∈ l) ∧
      d.Steady d' ∧ ∀ n ∈ l, d'.OpAt n .jmp :=
  h.ready.good.jump.imp fun l d' ⟨hg, hs, hj, _, _⟩ =>
    ⟨h.steadily hs (hg.wait fun n hn => by grind), hs, hj⟩

theorem Settled.patchHere {list : JumpList}
    (h : d.Settled source depth fun n => waiting n ∨ n ∈ list) (hl : ∀ n ∈ list, d.OpAt n .jmp) :
    Writes (Compile.patchHere list) d fun _ d' => d'.Settled source depth waiting ∧ d.Steady d' := by
  have hg : d.GoodFor d.maxStack source depth fun n => (waiting n ∨ Going d.gotos n) ∨ n ∈ list :=
    h.ready.good.wait fun n hn => by grind
  exact (hg.patchHere hl).imp fun _ d' ⟨hg', hs, _⟩ => ⟨h.steadily hs hg', hs⟩

theorem Settled.patchTo {list : JumpList} {target : Nat}
    (h : d.Settled source depth fun n => waiting n ∨ n ∈ list) (hl : ∀ n ∈ list, d.OpAt n .jmp)
    (ht : target ≤ d.code.size) :
    Writes (Compile.patchTo list target) d fun _ d' => d'.Settled source depth waiting ∧
      d.Steady d' := by
  have hg : d.GoodFor d.maxStack source depth fun n => (waiting n ∨ Going d.gotos n) ∨ n ∈ list :=
    h.ready.good.wait fun n hn => by grind
  exact (hg.patchTo hl ht).imp fun _ d' ⟨hg', hs, _⟩ => ⟨h.steadily hs hg', hs⟩

theorem GoodFor.enterBlock {registers : Nat} {isLoop : Bool}
    (h : d.GoodFor registers source depth waiting) :
    Writes (Compile.enterBlock isLoop) d fun _ d' => d'.GoodFor registers source depth waiting ∧
      ∃ b, d' = { d with blocks := b :: d.blocks } ∧ b.active = d.active := by
  refine Writes.enterBlock.imp fun _ d' hd => ?_
  obtain ⟨-, rfl⟩ := hd
  refine ⟨?_, _, rfl, rfl⟩
  have hs := h.stocked
  refine ⟨h.written.transport rfl rfl (.refl _) (Nat.le_refl _) fun _ => id, ?_, h.here⟩
  refine ⟨hs.low, hs.high, hs.free, hs.constants, hs.upvalues, hs.count, hs.protos, fun b hb hc => ?_⟩
  rcases List.mem_cons.mp hb with rfl | hb
  · exact nomatch hc
  · exact hs.captured b hb hc

theorem Settled.enterBlock {isLoop : Bool} (h : d.Settled source depth waiting) :
    Writes (Compile.enterBlock isLoop) d fun _ d' => d'.Settled source depth waiting ∧
      ∃ b, d' = { d with blocks := b :: d.blocks } ∧ b.active = d.active := by
  refine h.ready.good.enterBlock.imp fun _ d' ⟨hg, b, hd, hb⟩ => ?_
  subst hd
  exact ⟨⟨⟨hg, h.ready.active⟩, h.gotos, h.labels⟩, b, rfl, hb⟩

theorem GoodFor.activate {registers n : Nat} (h : d.GoodFor registers source depth waiting) :
    Writes (Compile.activate n) d fun _ d' => d'.GoodFor registers source depth waiting ∧
      ∃ ls, d' = { d with locals := ls, active := d.active + n } := by
  refine Writes.activate.imp fun _ d' ⟨ls, hd⟩ => ?_
  subst hd
  have hs := h.stocked
  refine ⟨⟨h.written.transport rfl rfl (.refl _) (Nat.le_refl _) fun _ => id, ?_, h.here⟩, ls, rfl⟩
  refine ⟨hs.low, hs.high, hs.free, hs.constants, hs.upvalues, hs.count, hs.protos, fun b hb hc => ?_⟩
  have := hs.captured b hb hc
  show b.active < max d.maxStack (d.active + n)
  omega

theorem Settled.activate {n : Nat} (h : d.Settled source depth waiting) (ha : d.active + n ≤ d.maxStack) :
    Writes (Compile.activate n) d fun _ d' => d'.Settled source depth waiting ∧
      ∃ ls, d' = { d with locals := ls, active := d.active + n } := by
  refine h.ready.good.activate.imp fun _ d' ⟨hg, ls, hd⟩ => ?_
  subst hd
  exact ⟨⟨⟨hg, ha⟩, h.gotos, h.labels⟩, ls, rfl⟩

theorem Follows.activate (d : Draft) (ls : Array DraftLocal) (n : Nat) :
    d.Follows { d with locals := ls, active := d.active + n } :=
  ⟨.refl d, Nat.le_refl _, Nat.le_refl _, Nat.le_refl _, rfl, Nat.le_add_right .., 0, .refl _ _⟩

theorem Patched.refl (d : Draft) : d.Patched d := (Steady.refl d).patched d.gotos d.labels

theorem Steady.toPatched (h : d.Steady d') : d.Patched d' := h.patched d'.gotos d'.labels

theorem Settled.setLabels {ls : List Label} (h : d.Settled source depth waiting)
    (hl : ∀ l ∈ ls, l.pc ≤ d.code.size) : { d with labels := ls }.Settled source depth waiting := by
  have hs := h.ready.good.stocked
  refine ⟨⟨⟨h.ready.good.written.transport rfl rfl (.refl _) (Nat.le_refl _) fun _ => id, ?_,
    h.ready.good.here⟩, h.ready.active⟩, h.gotos, hl⟩
  exact ⟨hs.low, hs.high, hs.free, hs.constants, hs.upvalues, hs.count, hs.protos, hs.captured⟩

theorem Settled.addLabel {l : Label} (h : d.Settled source depth waiting) (hl : l.pc ≤ d.code.size) :
    { d with labels := d.labels ++ [l] }.Settled source depth waiting := by
  refine h.setLabels fun k hk => ?_
  rcases List.mem_append.mp hk with hk | hk
  · exact h.labels k hk
  · rw [List.mem_singleton.mp hk]
    exact hl

theorem Settled.breakLabel (h : d.Settled source depth waiting) :
    Writes Compile.breakLabel d fun _ d' => d'.Settled source depth waiting ∧ d.Patched d' := by
  refine h.markTarget.andThen fun pc d1 ⟨h₁, hs1, hpc, hc⟩ => Writes.get fun s hs => ?_
  subst hs
  extract_lets label
  have hpc' : label.pc ≤ s.fn.code.size := by
    rw [hc]
    exact Nat.le_of_eq hpc
  have hx := (Steady.refl s.fn).patched s.fn.gotos (s.fn.labels ++ [label])
  refine Writes.bind (Writes.modifyFn ?_)
  refine ((h₁.addLabel hpc').closeGotos hpc').imp fun _ d' ⟨h3, hp, _⟩ => ?_
  exact ⟨h3, hs1.toPatched.trans (hx.trans hp)⟩

/-- What leaving a block leaves. -/
structure Leaves (b : Block) (around : List Block) (d d' : Draft) : Prop where
  kept : d.Kept d'
  maxStack : d'.maxStack = d.maxStack
  constants : d.constants.size ≤ d'.constants.size
  upvalues : d'.upvalues = d.upvalues
  params : d'.params = d.params
  active : d'.active = min d.active b.active
  free : d'.free = d'.active
  blocks : d'.blocks = around

theorem Settled.forget {b : Block} {around : List Block} (h : d.Settled source depth waiting)
    (hb : d.blocks = b :: around) :
    Writes (modifyFn fun d =>
      let d := endLocals b.active { d with blocks := around }
      { d with free := d.active, labels := d.labels.take b.firstLabel }) d fun _ d' =>
        d'.Settled source depth waiting ∧ Leaves b around d d' := by
  obtain ⟨ls, ds, hd⟩ := endLocals_eq b.active { d with blocks := around }
  have hs := h.ready.good.stocked
  have ha := h.ready.active
  refine Writes.modifyFn ?_
  simp only [hd]
  refine ⟨⟨⟨⟨?_, ?_, h.ready.good.here⟩, ?_⟩, h.gotos, ?_⟩, ?_⟩
  · exact h.ready.good.written.transport rfl rfl (.refl _) (Nat.le_refl _) fun _ => id
  · refine ⟨hs.low, hs.high, ?_, hs.constants, hs.upvalues, hs.count, hs.protos, fun c hc hcap => ?_⟩
    · show min d.active b.active ≤ d.maxStack
      omega
    · have := hs.captured c (by rw [hb]; exact List.mem_cons_of_mem _ hc) hcap
      show c.active < max d.maxStack (min d.active b.active)
      omega
  · show min d.active b.active ≤ d.maxStack
    omega
  · exact fun l hl => h.labels l (List.mem_of_mem_take hl)
  · exact ⟨.refl d, rfl, Nat.le_refl _, rfl, rfl, rfl, rfl, rfl⟩

theorem Leaves.after {b : Block} {around : List Block} {d1 d2 : Draft} (h : Leaves b around d1 d2)
    (hp : d.Patched d1) : Leaves b around d d2 where
  kept := hp.kept.trans h.kept
  maxStack := h.maxStack.trans hp.maxStack_eq
  constants := Nat.le_trans hp.constants h.constants
  upvalues := h.upvalues.trans hp.upvalues_eq
  params := h.params.trans hp.params
  active := by rw [h.active, hp.active_eq]
  free := h.free
  blocks := h.blocks

theorem Leaves.before {b : Block} {around : List Block} {d1 d2 : Draft} (h : Leaves b around d d1)
    (hp : d1.Patched d2) : Leaves b around d d2 where
  kept := h.kept.trans hp.kept
  maxStack := hp.maxStack_eq.trans h.maxStack
  constants := Nat.le_trans h.constants hp.constants
  upvalues := hp.upvalues_eq.trans h.upvalues
  params := hp.params.trans h.params
  active := hp.active_eq.trans h.active
  free := by rw [hp.free_eq, hp.active_eq, h.free]
  blocks := hp.blocks_eq.trans h.blocks

theorem Settled.closeCaptured {b : Block} {k : Unit → Compile Unit} {Q : Unit → Draft → Prop}
    (h : d.Settled source depth waiting) (hb : b ∈ d.blocks) (hc : b.captured)
    (hk : ∀ u d', d'.Settled source depth waiting → d.Steady d' → Writes (k u) d' Q) :
    Writes (do
      let j ← Compile.jump
      closeOnJump j b.active
      let u ← Compile.patchHere j
      k u) d Q := by
  refine h.jump.andThen fun l d1 ⟨h₁, hs1, hl⟩ => ?_
  have hlt : b.active < d1.maxStack := by
    have := h.ready.good.stocked.captured b hb hc
    have := h.ready.active
    rw [hs1.maxStack_eq]
    omega
  refine (h₁.ready.good.closeOnJump hl hlt).andThen fun _ d2 ⟨hg2, hs2, _⟩ => ?_
  exact ((h₁.steadily hs2 hg2).patchHere fun n hn => (hl n hn).kept_jmp hs2.kept).andThen
    fun u d3 ⟨h3, hs3⟩ => hk u d3 h3 ((hs1.trans hs2).trans hs3)

/-- **A block ends**: what it leaves is good, with the locals and registers from before it. -/
theorem Settled.leaveBlock {b : Block} {around : List Block} (h : d.Settled source depth waiting)
    (hb : d.blocks = b :: around) :
    Writes Compile.leaveBlock d fun _ d' => d'.Settled source depth waiting ∧
      Leaves b around d d' := by
  refine Writes.get fun s hs => ?_
  subst hs
  split
  · next hnil =>
    rw [hb] at hnil
    exact nomatch hnil
  next b' around' hb' =>
  obtain ⟨rfl, rfl⟩ : b = b' ∧ around = around' := by
    rw [hb] at hb'
    simpa using hb'
  extract_lets finish breaks
  -- the gotos that are left go to the block around
  have hfinish : ∀ d1 u, s.fn.Patched d1 → d1.Settled source depth waiting →
      Writes (finish u) d1 fun _ d' => d'.Settled source depth waiting ∧
        Leaves b around s.fn d' := by
    intro d1 u hp h₁
    refine (h₁.forget (hp.blocks_eq.trans hb)).andThen fun _ d2 ⟨h₂, hx2⟩ => ?_
    have hx := hx2.after hp
    refine Writes.demanding fun _ => Writes.get fun t ht => ?_
    subst ht
    dsimp only
    split
    · exact Writes.pure ⟨h₂, hx⟩
    · next g rest hdrop =>
      split
      · unfold failGoto
        split <;> exact Writes.failPlain
      · rw [← hdrop]
        have hgoing : ∀ n, Going t.fn.gotos n ↔ Going (t.fn.gotos.take b.firstGoto) n ∨
            Going (t.fn.gotos.drop b.firstGoto) n := by
          intro n
          rw [← Going.append, List.take_append_drop]
        have hr : t.fn.Ready source depth fun n => (waiting n ∨
            Going (t.fn.gotos.take b.firstGoto) n) ∨ Going (t.fn.gotos.drop b.firstGoto) n :=
          h₂.ready.wait fun n hn => by
            rw [hgoing] at hn
            grind
        have hcap : b.captured → b.active < t.fn.maxStack := fun hc => by
          have := h.ready.good.stocked.captured b (by rw [hb]; simp) hc
          have := h.ready.active
          rw [hx.maxStack]
          omega
        refine (hr.moveOut (fun g hg => h₂.gotos g (List.mem_of_mem_drop hg)) h₂.labels hcap).andThen
          fun rest' d3 ⟨h3, hs3, hsize, hall⟩ => Writes.modifyFn ⟨?_, hx.before (hs3.patched _ d3.labels)⟩
        refine Settled.setGotos (h3.wait fun n hn => ?_) (fun g hg => ?_) fun l hl => ?_
        · rw [Going.append]
          grind
        · rcases List.mem_append.mp hg with hg | hg
          · exact (h₂.gotos g (List.mem_of_mem_take hg)).kept hs3.kept hs3.maxStack
          · exact hall g hg
        · rw [hs3.labels] at hl
          have := h₂.labels l hl
          omega
  have hbreaks : ∀ d1 u, s.fn.Patched d1 → d1.Settled source depth waiting →
      Writes (breaks u) d1 fun _ d' => d'.Settled source depth waiting ∧
        Leaves b around s.fn d' := by
    intro d1 u hp h₁
    show Writes (if b.isLoop = true then _ else _) d1 _
    split
    · exact h₁.breakLabel.andThen fun u d2 ⟨h₂, hp2⟩ => hfinish d2 u (hp.trans hp2) h₂
    · exact hfinish d1 () hp h₁
  split
  · next hc =>
    have hc' : b.captured := by simp_all
    exact h.closeCaptured (by rw [hb]; simp) hc' fun u d1 h₁ hs1 => hbreaks d1 u hs1.toPatched h₁
  · exact hbreaks s.fn () (.refl _) h

theorem Settled.innermostBlock (h : d.Settled source depth waiting) :
    Writes Compile.innermostBlock d fun r d' => d' = d ∧ (r.1 = true → r.2 < d.maxStack) := by
  refine Writes.get fun s hs => ?_
  subst hs
  split
  · exact Writes.pure ⟨rfl, nofun⟩
  · next b around hb =>
    refine Writes.pure ⟨rfl, fun hc => ?_⟩
    have h1 := h.ready.good.stocked.captured b (by rw [hb]; simp) hc
    have h2 := h.ready.active
    show b.active < _
    omega

theorem Settled.closeOnJump {list : JumpList} {level : Nat} (h : d.Settled source depth waiting)
    (hl : ∀ n ∈ list, d.OpAt n .jmp) (hr : level < d.maxStack) :
    Writes (Compile.closeOnJump list level) d fun _ d' => d'.Settled source depth waiting ∧
      d.Steady d' :=
  (h.ready.good.closeOnJump hl hr).imp fun _ _ ⟨hg, hs, _⟩ => ⟨h.steadily hs hg, hs⟩

theorem leaveBody {b : Block} (hb : d.blocks = [b]) (hl : b.isLoop = false) :
    Writes Compile.leaveBlock d fun _ d' => d.gotos.drop b.firstGoto = [] ∧
      ∃ ls ds a labels, d' = { d with
        blocks := [], locals := ls, declared := ds, active := min d.active a, free := min d.active a,
        labels := labels } := by
  refine Writes.get fun s hs => ?_
  subst hs
  split
  · next hnil =>
    rw [hb] at hnil
    exact nomatch hnil
  next b' around hb' =>
  obtain ⟨rfl, rfl⟩ : b = b' ∧ [] = around := by
    rw [hb] at hb'
    simpa using hb'
  extract_lets finish breaks
  show Writes (if b.isLoop = true then _ else finish ()) s.fn _
  rw [hl]
  obtain ⟨ls, ds, hd⟩ := endLocals_eq b.active { s.fn with blocks := [] }
  refine Writes.bind (Writes.modifyFn ?_)
  simp only [hd]
  refine Writes.demanding fun _ => Writes.get fun t ht => ?_
  rw [ht]
  split
  · next hdrop => exact Writes.pure ⟨hdrop, ls, ds, b.active, _, rfl⟩
  · show Writes (failGoto _) _ _
    unfold failGoto
    split <;> exact Writes.failPlain

/-- **A function ends**: all its jumps are aimed, and it is fit to run. -/
theorem Settled.closeBody {b : Block} (h : d.Settled source depth fun _ => False)
    (hb : d.blocks = [b]) (hl : b.isLoop = false) (hg : b.firstGoto = 0)
    (hp : d.params ≤ d.maxStack) :
    Writes Grammar.closeBody d fun _ d' => (d'.finish source).All (Proto.Made source) ∧
      (d'.finish source).Within (depth + 1) ∧ d'.upvalues = d.upvalues := by
  have hw : d.Written d.maxStack d.code.size fun n => Going d.gotos n ∨ n ∈ d.here :=
    h.ready.good.written.mono (Nat.le_refl _) (Nat.le_refl _) fun n hn => by grind
  let last := Instr.ofABC .ret 0 (Operand.ofCount (some 0)) 0
  refine Writes.bind (Writes.discard ?_)
  refine (Writes.emit hw h.ready.good.jumps_here (Nat.le_refl _)).imp
    ?_
  rintro _ d1 ⟨_, e, line, hwe, he, hd1⟩
  have hs1 : d.Steady d1 := by
    rw [hd1]
    exact he.steady.trans (.push _ line)
  have hsize : d1.code.size - 1 = d.code.size := by simp [hd1, Draft.push, he.size]
  have hw1 : d1.Written d1.maxStack (d1.code.size - 1) (Going d.gotos) := by
    rw [hs1.maxStack_eq, hsize, hd1]
    have hplain : last.Plain := Instr.plain_ofABC rfl ..
    refine hwe.push (Nat.le_refl _) (hplain.okAt ?_ ..) (hplain.followed _ _)
    simp [last, Instr.Fits, Operand.ofCount]
  have hends : d1.code.back? = some last := by simp [hd1, Draft.push, last]
  refine (leaveBody (hs1.blocks.trans hb) hl).imp ?_
  rintro _ d2 ⟨hnone, ls, ds, a, labels, hd2⟩
  rw [hs1.gotos, hg, List.drop_zero] at hnone
  have hk := h.ready.good.stocked.steady hs1
  have hk2 : d2.Stocked source depth := by
    have ha := h.ready.active
    have hm := hs1.maxStack_eq
    have hact := hs1.active
    rw [hd2]
    refine ⟨hk.low, hk.high, ?_, hk.constants, hk.upvalues, hk.count, hk.protos, by simp⟩
    show min d1.active a ≤ d1.maxStack
    omega
  have hw2 : d2.Written d2.maxStack (d2.code.size - 1) fun _ => False := by
    rw [hd2]
    refine hw1.transport rfl rfl (.refl _) (Nat.le_refl _) fun n hn => ?_
    rw [hnone] at hn
    obtain ⟨_, hmem, -⟩ := hn
    cases hmem
  have hp2 : d2.params ≤ d2.maxStack := by
    have h1 := hs1.params
    have h2 := hs1.maxStack_eq
    rw [hd2]
    show d1.params ≤ d1.maxStack
    omega
  obtain ⟨hall, hdepth⟩ := finish_made hk2 hw2 hp2 ⟨last, by rw [hd2]; exact hends, by simp [last]⟩
  exact ⟨hall, hdepth, by rw [hd2]; exact hs1.upvalues⟩

end Draft

/-! ## 5. Statements on all drafts -/

structure Drafts.Past (depth : Nat) (waiting : Nat → Prop) (w : Drafts) : Prop where
  settled : w.fn.Settled w.source depth waiting
  linked : Linked (w.fn :: w.outer)

structure Drafts.At (depth : Nat) (waiting : Nat → Prop) (w : Drafts) : Prop extends
    w.Past depth waiting where
  level : w.fn.active ≤ w.fn.free

structure Drafts.Follows (w w' : Drafts) : Prop where
  fn : w.fn.Follows w'.fn
  outer : CapturedAll w.outer w'.outer
  source : w'.source = w.source

namespace Drafts

open Compile

variable {w w' : Drafts} {d : Draft} {depth : Nat} {waiting waiting' : Nat → Prop}

theorem Follows.refl (w : Drafts) : w.Follows w := ⟨.refl _, .refl _, rfl⟩

theorem Follows.trans {w'' : Drafts} (h : w.Follows w') (h' : w'.Follows w'') : w.Follows w'' :=
  ⟨h.fn.trans h'.fn, h.outer.trans h'.outer, h'.source.trans h.source⟩

theorem Steps.follows (h : w.Steps w') : w.Follows w' := ⟨h.fn.follows, h.outer, h.source⟩

theorem Follows.write (h : w.fn.Follows d) : w.Follows { w with fn := d } := ⟨h, .refl _, rfl⟩

theorem Past.fit (h : w.Past depth waiting) :
    w.Fit depth fun n => waiting n ∨ Going w.fn.gotos n :=
  ⟨h.settled.ready, h.linked⟩

theorem Past.after (h : w.Past depth waiting) (hs : w.Steps w')
    (hf : w'.Fit depth fun n => waiting' n ∨ Going w.fn.gotos n) : w'.Past depth waiting' := by
  refine ⟨?_, hf.linked⟩
  rw [hs.source]
  exact h.settled.grows hs.fn (by rw [← hs.source]; exact hf.ready)

theorem Past.wait (h : w.Past depth waiting) (hw : ∀ n, waiting n → waiting' n) :
    w.Past depth waiting' :=
  ⟨h.settled.wait hw, h.linked⟩

theorem Past.write (h : w.Past depth waiting) (hu : d.upvalues = w.fn.upvalues)
    (hs : d.Settled w.source depth waiting') : Drafts.Past depth waiting' { w with fn := d } :=
  ⟨hs, h.linked.head hu⟩

theorem At.write (h : w.At depth waiting) (hp : w.fn.Steady d)
    (hs : d.Settled w.source depth waiting') : Drafts.At depth waiting' { w with fn := d } :=
  ⟨h.toPast.write hp.upvalues hs, by rw [hp.active, hp.free_eq]; exact h.level⟩

theorem At.wait (h : w.At depth waiting) (hw : ∀ n, waiting n → waiting' n) : w.At depth waiting' :=
  ⟨h.toPast.wait hw, h.level⟩

theorem At.after (h : w.At depth waiting) (hs : w.Steps w')
    (hf : w'.Fit depth fun n => waiting' n ∨ Going w.fn.gotos n) (hle : w.fn.free ≤ w'.fn.free) :
    w'.At depth waiting' := by
  refine ⟨h.toPast.after hs hf, ?_⟩
  rw [hs.fn.active]
  exact Nat.le_trans h.level hle

/-- **A goto or break**: its jumps wait for the label, or are aimed. -/
theorem Past.gotoStatement {jumps : JumpList} (h : w.Past depth fun n => waiting n ∨ n ∈ jumps)
    (hj : ∀ n ∈ jumps, w.fn.OpAt n .jmp) :
    Leads (gotoStatement jumps) w fun _ w' => w'.Past depth waiting ∧ w.Follows w' ∧
      w.fn.Patched w'.fn := by
  have hend : ∀ name line, Leads (do
      let g : PendingGoto := ⟨name, jumps, line, (← get).fn.active⟩
      if !(← gotoLabel g) then modifyFn fun d => { d with gotos := d.gotos ++ [g] }) w
        fun _ w' => w'.Past depth waiting ∧ w.Follows w' ∧ w.fn.Patched w'.fn := by
    intro name line
    refine Leads.get fun s hs => ?_
    extract_lets g
    have hactive : s.fn.active = w.fn.active := by rw [← hs]; rfl
    have hready : w.fn.Ready w.source depth fun n => (waiting n ∨ Going w.fn.gotos n) ∨ n ∈ g.jumps :=
      h.settled.ready.wait fun n hn => by grind
    have hgoto : w.fn.HasGoto g := by
      refine ⟨?_, hj⟩
      show s.fn.active ≤ _
      rw [hactive]
      exact h.settled.ready.active
    refine Leads.write (hready.gotoLabel hgoto h.settled.labels) fun found d ⟨hs1, hsize, hyes, hno⟩ => ?_
    cases found with
    | true =>
      refine Leads.pure ?_
      exact ⟨h.write hs1.upvalues (h.settled.extends hs1.toExtends (hyes rfl)), .write hs1.toExtends.grows.follows, hs1.toPatched⟩
    | false =>
      have hp := hs1.patched (d.gotos ++ [g]) d.labels
      simp only [Bool.not_false, if_true]
      refine Leads.modifyFn ⟨h.write hs1.upvalues ?_, .write hp.toFollows, hp⟩
      refine Draft.Settled.setGotos ((hno rfl).wait fun n hn => ?_) (fun g' hg' => ?_) fun l hl => ?_
      · rw [Going.append, hs1.gotos]
        have : n ∈ g.jumps → Going [g] n := fun hn => ⟨g, by simp, hn⟩
        grind
      · rcases List.mem_append.mp hg' with hg' | hg'
        · rw [hs1.gotos] at hg'
          exact (h.settled.gotos g' hg').kept hs1.kept hs1.maxStack
        · rw [List.mem_singleton.mp hg']
          exact hgoto.kept hs1.kept hs1.maxStack
      · rw [hs1.labels] at hl
        have := h.settled.labels l hl
        rw [hsize]
        exact this
  unfold Compile.gotoStatement
  refine Leads.read Reads.line fun line => ?_
  refine Leads.read Reads.testNext fun b => ?_
  split
  · exact Leads.read Reads.checkName fun name => hend name line
  · exact Leads.read Reads.next fun _ => hend breakName line

def opened (w : Drafts) (b : Block) : Drafts := { w with fn := { w.fn with blocks := b :: w.fn.blocks } }

theorem At.enterBlock {isLoop : Bool} (h : w.At depth waiting) :
    Leads (enterBlock isLoop) w fun _ w' => w'.At depth waiting ∧
      ∃ b, w' = w.opened b ∧ b.active = w.fn.active := by
  refine Leads.ofWrites h.settled.enterBlock fun _ d ⟨hs, b, hd, hb⟩ => ?_
  subst hd
  exact ⟨⟨⟨hs, h.linked.head rfl⟩, h.level⟩, b, rfl, hb⟩

/-- **A block that was opened is left**: the locals are those from before it. -/
theorem Past.leaveBlock {b : Block} (h : w'.Past depth waiting) (hf : (w.opened b).Follows w')
    (hb : b.active = w.fn.active) :
    Leads leaveBlock w' fun _ w'' => w''.At depth waiting ∧ w.Follows w'' ∧ w'.fn.Kept w''.fn ∧
      w''.fn.maxStack = w'.fn.maxStack := by
  obtain ⟨b', around, hblocks, hactive, level, hmarked⟩ : ∃ b' around, w'.fn.blocks = b' :: around ∧
      b'.active = w.fn.active ∧ ∃ level, Marked level w.fn.blocks around := by
    obtain ⟨level, hm⟩ := hf.fn.blocks
    generalize w'.fn.blocks = bs at hm
    cases hm with
    | cons hb' ht => exact ⟨_, _, rfl, hb'.active.trans hb, level, ht⟩
  refine Leads.ofWrites (h.settled.leaveBlock hblocks) fun _ d ⟨hs, hl⟩ => ?_
  have hle : w.fn.active ≤ w'.fn.active := hf.fn.active
  have hact : d.active = w.fn.active := by
    rw [hl.active]
    omega
  refine ⟨⟨h.write hl.upvalues hs, Nat.le_of_eq hl.free.symm⟩, ⟨?_, hf.outer, hf.source⟩, hl.kept, hl.maxStack⟩
  exact ⟨hf.fn.kept.trans hl.kept, Nat.le_trans hf.fn.maxStack (Nat.le_of_eq hl.maxStack.symm),
    Nat.le_trans hf.fn.constants hl.constants, by rw [hl.upvalues]; exact hf.fn.upvalues,
    hl.params.trans hf.fn.params, Nat.le_of_eq hact.symm, level, by rw [hl.blocks]; exact hmarked⟩

end Drafts

end LuaMachine
