/-
  READING STATEMENTS KEEPS ALL DRAFTS GOOD, so every function the compiler makes is fit to run.

  * `ofLevels_ok` -- **the whole grammar keeps the drafts good**, by induction on the levels.
-/
import LuaMachine.Compiler.Statement
import LuaMachine.Proofs.Compiler.Expression

namespace LuaMachine

open Compile

namespace Grammar

open Drafts

variable {g : Grammar} {n depth : Nat} {waiting : Nat → Prop} {w w0 : Drafts}

/-! ## 1. Conditionals -/

theorem Ok.block (hg : g.Ok n) (hn : n ≤ depth) (h : w.At depth waiting) :
    Leads g.block w fun _ w' => w'.At depth waiting ∧ w.Follows w' := by
  refine h.enterBlock.andThen fun _ w1 ⟨h₁, b, hw1, hb⟩ => ?_
  subst hw1
  refine (hg.statements hn h₁).andThen fun _ w2 ⟨h₂, hf2⟩ => ?_
  exact (h₂.toPast.leaveBlock hf2 hb).imp fun _ w3 ⟨h3, hf3, _⟩ => ⟨h3, hf3⟩

theorem decided {x : Compile JumpList} {e : Expr} (h : w.At depth waiting)
    (hy : Yields depth (fun m => waiting m ∨ Going w.fn.gotos m) w e w0)
    (hx : Writes x w0.fn fun l d' =>
      Draft.Decides w0.source depth (fun m => waiting m ∨ Going w.fn.gotos m) w0.fn e l d') :
    Leads x w0 fun l w' => w'.At depth (fun m => waiting m ∨ m ∈ l) ∧ w.Follows w' ∧
      ∀ m ∈ l, w'.fn.OpAt m .jmp := by
  refine Leads.ofWrites hx fun l d ⟨hr, hext, hl, hab⟩ => ?_
  have hs := hy.steps.trans (.write hext)
  refine ⟨h.after hs ((hy.fit.write hext hr).wait fun m hm => by grind) (hab _ hy.above), hs.follows, hl⟩

theorem Ok.condition (hg : g.Ok n) (hn : n ≤ depth) (h : w.At depth waiting) :
    Leads g.condition w fun l w' => w'.At depth (fun m => waiting m ∨ m ∈ l) ∧ w.Follows w' ∧
      ∀ m ∈ l, w'.fn.OpAt m .jmp := by
  refine (hg.expr hn h.toPast.fit).andThen fun e w1 hy => ?_
  split
  · next hnil =>
    have hy' : Yields depth (fun m => waiting m ∨ Going w.fn.gotos m) w { e with place := .bool false }
        w1 := by
      have hj : ({ e with place := .bool false } : Expr).jumps = e.jumps := by
        simp only [Expr.jumps, hnil]
        rfl
      have hc := hy.above.cost
      rw [hnil] at hc
      refine ⟨by rw [hj]; exact hy.fit, hy.steps, ⟨trivial, by rw [hj]; exact hy.ok.jumps, by rintro ⟨⟩⟩,
        ⟨hc, by simp, by simp⟩⟩
    exact decided h hy' (hy'.fit.ready.goIfTrue hy'.ok)
  · exact decided h hy (hy.fit.ready.goIfTrue hy.ok)

theorem skipSemicolons_leads {m : Nat} : Leads (skipSemicolons m) w fun _ w' => w' = w := by
  induction m with
  | zero => exact Leads.failNear
  | succ m ih =>
    unfold skipSemicolons
    refine Leads.read Reads.testNext fun b => ?_
    split
    · exact ih
    · exact Leads.pure rfl

def Branched (depth : Nat) (waiting : Nat → Prop) (w : Drafts) (leaving : JumpList) (w' : Drafts) :
    Prop :=
  w'.At depth (fun m => waiting m ∨ m ∈ leaving) ∧ w.Follows w' ∧ ∀ m ∈ leaving, w'.fn.OpAt m .jmp

theorem Ok.branchEnd (hg : g.Ok n) (hn : n ≤ depth) {leaving passing : JumpList} {b : Block}
    (h : w.At depth fun m => (waiting m ∨ m ∈ leaving) ∨ m ∈ passing) (hf : (w0.opened b).Follows w)
    (hb : b.active = w0.fn.active) (hl : ∀ m ∈ leaving, w.fn.OpAt m .jmp)
    (hp : ∀ m ∈ passing, w.fn.OpAt m .jmp) :
    Leads (g.branchEnd leaving passing) w fun l w' => Branched depth waiting w0 l w' := by
  refine (hg.statements hn h).andThen fun _ w1 ⟨h₁, hf1⟩ => ?_
  refine (h₁.toPast.leaveBlock (hf.trans hf1) hb).andThen fun _ w2 ⟨h₂, hf2, hk2, _⟩ => ?_
  have hkept := hf1.fn.kept.trans hk2
  refine Leads.read Reads.token fun t => ?_
  extract_lets next
  have hnext : ∀ l w3, w3.At depth (fun m => (waiting m ∨ m ∈ l) ∨ m ∈ passing) → w0.Follows w3 →
      (∀ m ∈ l, w3.fn.OpAt m .jmp) → (∀ m ∈ passing, w3.fn.OpAt m .jmp) →
      Leads (next l) w3 fun l w' => Branched depth waiting w0 l w' := by
    intro l w3 h3 hf3 hl3 hp3
    refine Leads.write (h3.settled.patchHere hp3) fun _ d ⟨hs, hst⟩ => Leads.pure ?_
    exact ⟨h3.write hst hs, hf3.trans (Steps.write hst.toExtends).follows,
      fun m hm => (hl3 m hm).kept_jmp hst.kept⟩
  have hl2 : ∀ m ∈ leaving, w2.fn.OpAt m .jmp := fun m hm => (hl m hm).kept_jmp hkept
  have hp2 : ∀ m ∈ passing, w2.fn.OpAt m .jmp := fun m hm => (hp m hm).kept_jmp hkept
  have hjump : Leads (do next (← joinJumps leaving (← jump))) w2 fun l w' =>
      Branched depth waiting w0 l w' := by
    refine Leads.write h₂.settled.jump fun j d ⟨hs, hst, hj⟩ => ?_
    refine Leads.write (Writes.joinJumps leaving j) fun l d' ⟨hl', hd'⟩ => ?_
    subst hl'
    subst hd'
    refine hnext _ _ ((h₂.write hst hs).wait fun m hm => ?_)
      (hf2.trans (Steps.write hst.toExtends).follows) (fun m hm => ?_)
      fun m hm => (hp2 m hm).kept_jmp hst.kept
    · rw [List.mem_append]
      grind
    · rcases List.mem_append.mp hm with hm | hm
      · exact (hl2 m hm).kept_jmp hst.kept
      · exact hj m hm
  split
  · exact hjump
  · exact hjump
  · exact hnext leaving w2 h₂ hf2 hl2 hp2

theorem Ok.branch (hg : g.Ok n) (hn : n ≤ depth) {leaving : JumpList}
    (h : w.At depth fun m => waiting m ∨ m ∈ leaving) (hl : ∀ m ∈ leaving, w.fn.OpAt m .jmp) :
    Leads (g.branch leaving) w fun l w' => Branched depth waiting w l w' := by
  refine Leads.read Reads.next fun _ => ?_
  refine (hg.expr hn h.toPast.fit).andThen fun e w1 hy => ?_
  refine Leads.read Reads.checkNext fun _ => Leads.read Reads.token fun t => ?_
  -- a goto at the beginning takes the jumps of the condition
  have hgoto : Leads (do
      let jumps ← goIfFalse e
      enterBlock false
      gotoStatement jumps
      skipSemicolons g.bound
      if ← atBlockEnd false then
        leaveBlock
        return leaving
      else
        let passing ← jump
        g.branchEnd leaving passing) w1 fun l w' => Branched depth waiting w l w' := by
    refine (decided h hy (hy.fit.ready.goIfFalse hy.ok)).andThen fun j w2 ⟨h₂, hf2, hj2⟩ => ?_
    refine h₂.enterBlock.andThen fun _ w3 ⟨h3, b, hw3, hb⟩ => ?_
    subst hw3
    refine (h3.toPast.gotoStatement hj2).andThen fun _ w4 ⟨h4, hf4, hp4⟩ => ?_
    have hl4 : ∀ m ∈ leaving, w4.fn.OpAt m .jmp :=
      fun m hm => ((hl m hm).kept_jmp hf2.fn.kept).kept_jmp hf4.fn.kept
    refine skipSemicolons_leads.andThen fun _ w5 hw5 => ?_
    subst hw5
    refine Leads.read Reads.atBlockEnd fun b => ?_
    split
    · refine (h4.leaveBlock hf4 hb).andThen fun _ w6 ⟨h6, hf6, hk6, _⟩ => Leads.pure ?_
      exact ⟨h6, hf2.trans hf6, fun m hm => (hl4 m hm).kept_jmp hk6⟩
    · refine Leads.write h4.settled.jump fun passing d ⟨hs, hst, hp⟩ => ?_
      have hat : Drafts.At depth (fun m => (waiting m ∨ m ∈ leaving) ∨ m ∈ passing)
          { w5 with fn := d } := by
        refine ⟨h4.write hst.upvalues hs, ?_⟩
        have hlevel : w2.fn.active ≤ w2.fn.free := h₂.level
        have h1 : w5.fn.active = w2.fn.active := hp4.active_eq
        have h2 : w5.fn.free = w2.fn.free := hp4.free_eq
        rw [hst.active, hst.free_eq]
        omega
      have hf5 := hf4.trans (Steps.write hst.toExtends : Drafts.Steps w5 { w5 with fn := d }).follows
      refine (hg.branchEnd hn hat hf5 hb (fun m hm => (hl4 m hm).kept_jmp hst.kept) hp).imp
        fun l w' ⟨h', hf', hl'⟩ => ⟨h', hf2.trans hf', hl'⟩
  split
  · exact hgoto
  · exact hgoto
  · refine (decided h hy (hy.fit.ready.goIfTrue hy.ok)).andThen fun passing w2 ⟨h₂, hf2, hp2⟩ => ?_
    refine h₂.enterBlock.andThen fun _ w3 ⟨h3, b, hw3, hb⟩ => ?_
    subst hw3
    refine (hg.branchEnd hn h3 (.refl _) hb (fun m hm => (hl m hm).kept_jmp hf2.fn.kept) hp2).imp
      fun l w' ⟨h', hf', hl'⟩ => ⟨h', hf2.trans hf', hl'⟩

theorem Ok.branchesFrom (hg : g.Ok n) (hn : n ≤ depth) {m : Nat} {leaving : JumpList}
    (h : Branched depth waiting w0 leaving w) :
    Leads (g.branchesFrom m leaving) w fun l w' => Branched depth waiting w0 l w' := by
  induction m generalizing w leaving with
  | zero => exact Leads.failNear
  | succ m ih =>
    unfold Grammar.branchesFrom
    refine Leads.read Reads.token fun t => ?_
    split
    · refine (hg.branch hn h.1 h.2.2).andThen fun l w1 ⟨h₁, hf1, hl1⟩ => ?_
      exact ih ⟨h₁, h.2.1.trans hf1, hl1⟩
    · exact Leads.pure h

/-- **A conditional.** -/
theorem Ok.ifStatement (hg : g.Ok n) (hn : n ≤ depth) {line : Nat} (h : w.At depth waiting) :
    Leads (g.ifStatement line) w fun _ w' => w'.Past depth waiting ∧ w.Follows w' := by
  have hnone : ∀ m ∈ ([] : JumpList), w.fn.OpAt m .jmp := nofun
  refine (hg.branch hn (h.wait fun _ => .inl) hnone).andThen fun l w1 h₁ => ?_
  refine (hg.branchesFrom hn h₁).andThen fun l w2 ⟨h₂, hf2, hl2⟩ => ?_
  refine Leads.read Reads.testNext fun b => ?_
  extract_lets next
  have hnext : ∀ u w3, w3.At depth (fun m => waiting m ∨ m ∈ l) → w.Follows w3 →
      (∀ m ∈ l, w3.fn.OpAt m .jmp) →
      Leads (next u) w3 fun _ w' => w'.Past depth waiting ∧ w.Follows w' := by
    intro u w3 h3 hf3 hl3
    refine Leads.read Reads.checkMatch fun _ => ?_
    refine Leads.ofWrites (h3.settled.patchHere hl3) fun _ d ⟨hs, hst⟩ => ?_
    exact ⟨(h3.write hst hs).toPast, hf3.trans (Steps.write hst.toExtends).follows⟩
  split
  · refine (hg.block hn h₂).andThen fun u w3 ⟨h3, hf3⟩ => ?_
    exact hnext u w3 h3 (hf2.trans hf3) fun m hm => (hl2 m hm).kept_jmp hf3.fn.kept
  · exact hnext () w2 h₂ hf2 hl2

/-! ## 2. Loops -/

theorem Ok.whileStatement (hg : g.Ok n) (hn : n ≤ depth) {line : Nat} (h : w.At depth waiting) :
    Leads (g.whileStatement line) w fun _ w' => w'.Past depth waiting ∧ w.Follows w' := by
  refine Leads.read Reads.next fun _ => ?_
  refine Leads.write h.settled.markTarget fun start d1 ⟨hs1, hst1, hstart, hcode⟩ => ?_
  have hf1 := (Steps.write hst1.toExtends : Drafts.Steps w { w with fn := d1 }).follows
  refine (hg.condition hn (h.write hst1 hs1)).andThen fun l w2 ⟨h₂, hf2, hl2⟩ => ?_
  refine h₂.enterBlock.andThen fun _ w3 ⟨h3, b, hw3, hb⟩ => ?_
  subst hw3
  refine Leads.read Reads.checkNext fun _ => ?_
  refine (hg.block hn h3).andThen fun _ w4 ⟨h4, hf4⟩ => ?_
  refine Leads.write h4.settled.jump fun j d5 ⟨hs5, hst5, hj⟩ => ?_
  have hle : start ≤ d5.code.size := by
    have h1 := ((hf1.trans hf2).fn.kept.trans hf4.fn.kept).size
    have h2 := hst5.kept.size
    rw [hstart]
    omega
  refine Leads.write (Draft.Settled.patchTo hs5 hj hle) fun _ d6 ⟨hs6, hst6⟩ => ?_
  refine Leads.read Reads.checkMatch fun _ => ?_
  have hst := hst5.trans hst6
  have h6 : Drafts.At depth (fun m => waiting m ∨ m ∈ l) { w4 with fn := d6 } := h4.write hst hs6
  have hf6 := hf4.trans (Steps.write hst.toExtends : Drafts.Steps w4 { w4 with fn := d6 }).follows
  refine (h6.toPast.leaveBlock hf6 hb).andThen fun _ w7 ⟨h7, hf7, _, _⟩ => ?_
  refine Leads.ofWrites (h7.settled.patchHere fun m hm => (hl2 m hm).kept_jmp hf7.fn.kept)
    fun _ d8 ⟨hs8, hst8⟩ => ?_
  exact ⟨(h7.write hst8 hs8).toPast,
    ((hf1.trans hf2).trans hf7).trans (Steps.write hst8.toExtends).follows⟩

/-- **A loop whose condition sees the locals of its body.** -/
theorem Ok.repeatStatement (hg : g.Ok n) (hn : n ≤ depth) {line : Nat} (h : w.At depth waiting) :
    Leads (g.repeatStatement line) w fun _ w' => w'.Past depth waiting ∧ w.Follows w' := by
  refine Leads.write h.settled.markTarget fun start d1 ⟨hs1, hst1, hstart, _⟩ => ?_
  have hf1 := (Steps.write hst1.toExtends : Drafts.Steps w { w with fn := d1 }).follows
  refine (h.write hst1 hs1).enterBlock.andThen fun _ w2 ⟨h₂, outerBlock, hw2, hb2⟩ => ?_
  refine h₂.enterBlock.andThen fun _ w3 ⟨h3, b, hw3, hb⟩ => ?_
  subst hw3
  refine Leads.read Reads.next fun _ => ?_
  refine (hg.statements hn h3).andThen fun _ w4 ⟨h4, hf4⟩ => ?_
  refine Leads.read Reads.checkMatch fun _ => ?_
  refine (hg.condition hn h4).andThen fun again w5 ⟨h5, hf5, hl5⟩ => ?_
  have hinner := hf4.trans hf5
  -- the block is left, then the condition aimed at the start, then the loop left
  have hend : ∀ d, d.Settled w5.source depth (fun m => waiting m ∨ m ∈ again) → w5.fn.Steady d →
      Leads (do
        leaveBlock
        patchTo again start
        leaveBlock) { w5 with fn := d } fun _ w' => w'.Past depth waiting ∧ w.Follows w' := by
    intro d hd hst
    have hat := h5.write hst hd
    have hfd := hinner.trans (Steps.write hst.toExtends : Drafts.Steps w5 { w5 with fn := d }).follows
    refine (hat.toPast.leaveBlock hfd hb).andThen fun _ w6 ⟨h6, hf6, hk6, _⟩ => ?_
    have hle : start ≤ w6.fn.code.size := by
      have h1 := hst1.kept.size
      have h2 : d1.code.size ≤ _ := hw2 ▸ hf6.fn.kept.size
      rw [hstart]
      exact Nat.le_trans h1 h2
    refine Leads.write (h6.settled.patchTo (fun m hm => ((hl5 m hm).kept_jmp hst.kept).kept_jmp hk6) hle)
      fun _ d7 ⟨hs7, hst7⟩ => ?_
    have hf7 := hf6.trans (Steps.write hst7.toExtends : Drafts.Steps w6 { w6 with fn := d7 }).follows
    subst hw2
    exact ((h6.write hst7 hs7).toPast.leaveBlock hf7 hb2).imp
      fun _ w8 ⟨h8, hf8, _⟩ => ⟨h8.toPast, hf1.trans hf8⟩
  refine Leads.write h5.settled.innermostBlock fun ⟨captured, active⟩ d ⟨hd, hcap⟩ => ?_
  subst hd
  dsimp only
  split
  · next hc =>
    exact Leads.write (h5.settled.closeOnJump hl5 (hcap hc)) fun _ d6 ⟨hs6, hst6⟩ => hend d6 hs6 hst6
  · exact hend w5.fn h5.settled (.refl _)

/-! ### Loops with hidden locals -/

theorem loop_okAt {op : Op} {r : Room} {a pc limit : Nat} (hop : op.layout = .asbx)
    (hf : (Instr.ofAsBx op a (-1)).Fits r) (h : pc ≤ limit) (waits : Prop) :
    (Instr.ofAsBx op a (-1)).OkAt r limit waits pc := by
  refine ⟨Instr.known_ofABC .., .inl hf, fun _ => ?_, fun h => ?_⟩
  · rw [Instr.sbx_ofAsBx _ _ _ (by decide)]
    omega
  · rw [Instr.opcode_ofAsBx] at h
    rw [h] at hop
    exact nomatch hop

theorem followed_loop {op : Op} {a k : Nat} {next : Option Instr} (hop : op.layout = .asbx) :
    (Instr.ofAsBx op a (-1)).Followed k next := by
  unfold Instr.Followed
  rw [Instr.opcode_ofAsBx]
  cases op <;> first | trivial | exact absurd hop (by decide)

/-- The end of a loop has been written, and jumps to itself. -/
structure Looped (registers : Nat) (waiting : Nat → Prop) (d : Draft) (pc : Nat) (d' : Draft) :
    Prop where
  written : d'.Written registers d'.code.size waiting
  steady : d.Steady d'
  here : d'.here = []
  jumps : d'.JumpAt pc
  size : d.code.size < d'.code.size

variable {d : Draft} {registers : Nat}

theorem emitLoop {op : Op} {a : Nat} (hop : op.layout = .asbx)
    (hw : d.Written registers d.code.size fun m => waiting m ∨ m ∈ d.here)
    (hh : ∀ m ∈ d.here, d.JumpAt m) (hf : (Instr.ofAsBx op a (-1)).Fits (d.room registers)) :
    Writes (emitAsBx op a (-1)) d fun pc d' => Looped registers waiting d pc d' := by
  refine (Writes.emit hw hh (Nat.le_refl _)).imp fun pc d' ⟨hpc, e, line, hwe, he, hd⟩ => ?_
  have hsize : d'.code.size = d.code.size + 1 := by simp [hd, Draft.push, he.size]
  refine ⟨?_, ?_, by rw [hd]; exact he.here, ⟨Instr.ofAsBx op a (-1), ?_, ?_⟩, by omega⟩
  · rw [hsize, hd]
    refine hwe.push (Nat.le_succ _) (loop_okAt hop ?_ (by rw [he.size]; omega) _) (followed_loop hop)
    rw [he.steady.room]
    exact hf
  · rw [hd]
    exact he.steady.trans (.push _ line)
  · rw [hd, hpc, ← he.size]
    exact Array.getElem?_push_size
  · rw [Instr.opcode_ofAsBx]
    exact hop

theorem emitIterator {base vars line : Nat} {next : Nat → Compile Unit} {Q : Unit → Draft → Prop}
    (hw : d.Written registers d.code.size fun m => waiting m ∨ m ∈ d.here)
    (hh : ∀ m ∈ d.here, d.JumpAt m) (hb : base + 5 < registers) (hv : base + 2 + vars < registers)
    (hnext : ∀ pc d', Looped registers waiting d pc d' → Writes (next pc) d' Q) :
    Writes (do
      discard <| emitABC .tforCall base 0 vars
      fixLine line
      let pc ← emitAsBx .tforLoop (base + 2) (-1)
      next pc) d Q := by
  have ha := Nat.mod_le base 256
  refine Writes.bind (Writes.discard ?_)
  refine (Writes.emitFirst hw hh (Nat.le_refl _)).imp ?_
  rintro _ d1 ⟨_, hhalf⟩
  have hline : d1.Steady { d1 with lines := d1.lines.modify (d1.lines.size - 1) fun _ => line } :=
    .of_code rfl rfl rfl rfl rfl rfl rfl rfl rfl rfl rfl
  refine Writes.bind (Writes.modifyFn ?_)
  have hhalf' : Half registers d.code.size waiting d (Instr.ofABC .tforCall base 0 vars)
      { d1 with lines := d1.lines.modify (d1.lines.size - 1) fun _ => line } := by
    obtain ⟨e, hwe, hse, hsize, hcode, hlines⟩ := hhalf.code
    exact ⟨hhalf.steady.trans hline, hhalf.landed, e, hwe, hse, hsize, hcode, by simpa using hlines⟩
  have hloop : (Instr.ofAsBx .tforLoop (base + 2) (-1)).Fits (d.room registers) := by
    have := Nat.mod_le (base + 2) 256
    simp only [Instr.Fits, Instr.opcode_ofAsBx, Instr.a_ofAsBx, Draft.room]
    omega
  refine (hhalf'.emit (by omega) ⟨Instr.known_ofABC .., .inl ?_, ?_, ?_⟩
    (loop_okAt rfl hloop (by omega) _) ?_ (followed_loop rfl)).andThen ?_
  · have := Nat.mod_le vars 512
    simp only [Instr.Fits, Instr.opcode_ofABC, Instr.a_ofABC, Instr.c_ofABC, Draft.room]
    omega
  · simp [Instr.Jumps, Op.layout]
  · simp [Instr.Skips]
  · simp only [Instr.Followed, Instr.opcode_ofABC]
    exact ⟨_, rfl, by simp⟩
  · rintro pc d' ⟨hpc, hw', hs', hnil, hsize, hlast⟩
    refine hnext pc d' ⟨hw', hs', hnil, ?_, by omega⟩
    rw [hpc]
    exact ⟨_, hlast, by rw [Instr.opcode_ofAsBx]; rfl⟩

theorem Looped.aim {d' : Draft} {pc target line : Nat} (h : Looped registers waiting d pc d')
    (ht : target < d'.code.size) :
    Writes (do
      patchTo [pc] target
      fixLine line) d' fun _ d'' => d''.Written registers d''.code.size waiting ∧ d.Steady d'' ∧
        d''.here = [] := by
  have hpc : ¬target = d'.pc := by
    unfold Draft.pc
    omega
  refine Writes.bind ?_
  refine Writes.bind (Writes.ofFn ?_)
  rw [if_neg hpc]
  refine (Writes.aimJumps (h.written.mono (Nat.le_refl _) (Nat.le_refl _) fun _ => .inr) ?_ (.inl rfl)
    (Nat.le_of_lt ht) (Nat.le_of_lt ht)).imp fun _ d1 ⟨hw1, ha1⟩ => Writes.modifyFn ?_
  · intro m hm
    rw [List.mem_singleton.mp hm]
    exact h.jumps
  have hline : d1.Steady { d1 with lines := d1.lines.modify (d1.lines.size - 1) fun _ => line } :=
    .of_code rfl rfl rfl rfl rfl rfl rfl rfl rfl rfl rfl
  refine ⟨hw1.transport rfl (by simp) ?_ ?_ fun _ => id, (h.steady.trans ha1.steady).trans hline, ?_⟩
  · rw [hline.room]
    exact .refl _
  · exact Nat.le_of_eq ha1.size.symm
  · exact ha1.here.trans h.here

structure Entered (registers : Nat) (source : Bytes) (depth : Nat) (waiting : Nat → Prop) (d : Draft)
    (entry : JumpList) (d' : Draft) : Prop where
  good : d'.GoodFor registers source depth fun m => waiting m ∨ m ∈ entry
  steady : d.Steady d'
  jumps : ∀ m ∈ entry, d'.JumpAt m
  nonempty : entry ≠ []

theorem enterNumeric {base : Nat} {source : Bytes} (h : d.GoodFor registers source depth waiting)
    (hb : base + 3 < registers) :
    Writes (emitAsBx .forPrep base (-1)) d fun pc d' =>
      Entered registers source depth waiting d [pc] d' := by
  have hf : (Instr.ofAsBx .forPrep base (-1)).Fits (d.room registers) := by
    have := Nat.mod_le base 256
    simp only [Instr.Fits, Instr.opcode_ofAsBx, Instr.a_ofAsBx, Draft.room]
    omega
  refine (emitLoop rfl h.written h.jumps_here hf).imp fun pc d' hl => ?_
  refine ⟨(h.landed hl.steady hl.here hl.written).wait fun _ => .inl, hl.steady, ?_, by simp⟩
  intro m hm
  rw [List.mem_singleton.mp hm]
  exact hl.jumps

theorem enterGeneric {source : Bytes} (h : d.GoodFor registers source depth waiting) :
    Writes jump d fun entry d' => Entered registers source depth waiting d entry d' := by
  refine h.jump.imp fun l d' ⟨hg, hs, hl, hmem, _⟩ => ⟨hg, hs, fun m hm => (hl m hm).jumpAt, ?_⟩
  rintro rfl
  exact nomatch hmem

theorem loopEnd {base line vars : Nat} {numeric : Bool} {entry : JumpList} {source : Bytes}
    (h : d.Settled source depth fun m => waiting m ∨ m ∈ entry) (he : ∀ m ∈ entry, d.JumpAt m)
    (hne : entry ≠ []) (hb : base + 3 < d.maxStack) (hv : base + 2 + vars < d.maxStack)
    (hi : numeric = false → base + 5 < d.maxStack) :
    Writes (do
      patchHere entry
      let back ←
        if numeric then emitAsBx .forLoop base (-1)
        else do
          discard <| emitABC .tforCall base 0 vars
          fixLine line
          emitAsBx .tforLoop (base + 2) (-1)
      patchTo [back] (entry.headD 0 + 1)
      fixLine line) d fun _ d' => d'.Settled source depth waiting ∧ d.Steady d' := by
  refine Writes.patchHere.andThen fun _ d1 hd1 => ?_
  have hs1 : d.Steady d1 := by
    rw [hd1]
    exact .of_code rfl rfl rfl rfl rfl rfl rfl rfl rfl rfl rfl
  have hw1 : d1.Written d.maxStack d1.code.size fun m => (waiting m ∨ Going d.gotos m) ∨ m ∈ d1.here := by
    rw [hd1]
    refine h.ready.good.written.transport rfl rfl (.refl _) (Nat.le_refl _) fun m hm => ?_
    rw [List.mem_append]
    grind
  have hh1 : ∀ m ∈ d1.here, d1.JumpAt m := by
    rw [hd1]
    intro m hm
    rcases List.mem_append.mp hm with hm | hm
    · exact (h.ready.good.here m hm).jumpAt
    · exact he m hm
  have htarget : entry.headD 0 < d1.code.size := by
    rw [hd1]
    cases entry with
    | nil => exact absurd rfl hne
    | cons m rest => exact (he m (by simp)).lt
  extract_lets next
  have hnext : ∀ pc d2, Looped d.maxStack (fun m => waiting m ∨ Going d.gotos m) d1 pc d2 →
      Writes (next pc) d2 fun _ d' => d'.Settled source depth waiting ∧ d.Steady d' := by
    intro pc d2 hl
    refine (hl.aim (Nat.lt_of_le_of_lt htarget hl.size)).imp fun _ d3 ⟨hw3, hs3, hnil⟩ => ?_
    have hs := hs1.trans hs3
    exact ⟨h.steadily hs (h.ready.good.landed hs hnil hw3), hs⟩
  cases numeric with
  | true =>
    refine (emitLoop rfl hw1 hh1 ?_).andThen hnext
    have := Nat.mod_le base 256
    simp only [Instr.Fits, Instr.opcode_ofAsBx, Instr.a_ofAsBx, Draft.room]
    omega
  | false =>
    refine emitIterator hw1 hh1 (hi rfl) hv hnext

/-- **The body of a loop with hidden locals**, which have their registers. -/
theorem Ok.forBody (hg : g.Ok n) (hn : n ≤ depth) {base line vars : Nat} {numeric : Bool}
    (h : w.Past depth waiting) (hl : w.fn.active + 3 ≤ w.fn.free) (hb : base + 3 ≤ w.fn.free)
    (hv : 1 ≤ vars) (hi : numeric = false → base + 5 < w.fn.maxStack) :
    Leads (g.forBody base line vars numeric) w fun _ w' => w'.Past depth waiting ∧ w.Follows w' := by
  have hfree := h.settled.ready.good.stocked.free
  refine Leads.write (h.settled.activate (n := 3) (by omega)) fun _ d1 ⟨h₁, ls, hd1⟩ => ?_
  have hf1 : w.Follows { w with fn := d1 } := .write (by rw [hd1]; exact .activate ..)
  have hfree1 : d1.free = w.fn.free := by rw [hd1]
  have hmax1 : d1.maxStack = w.fn.maxStack := by rw [hd1]
  have hactive1 : d1.active = w.fn.active + 3 := by rw [hd1]
  have hup1 : d1.upvalues = w.fn.upvalues := by rw [hd1]
  refine Leads.read Reads.checkNext fun _ => ?_
  -- until the locals of the body have registers, the code is ahead of them
  let registers := max d1.maxStack (d1.free + vars)
  have hg1 : d1.GoodFor registers w.source depth fun m => waiting m ∨ Going d1.gotos m :=
    h₁.ready.good.mono (Nat.le_max_left ..)
  have hbase : base + 3 < registers := by
    simp only [registers]
    omega
  extract_lets next
  have hnext : ∀ entry d2, Entered registers w.source depth (fun m => waiting m ∨ Going d1.gotos m) d1
      entry d2 → Leads (next entry) { w with fn := d2 } fun _ w' => w'.Past depth waiting ∧
        w.Follows w' := by
    intro entry d2 h₂
    have hs2 := h₂.steady
    refine Leads.write h₂.good.enterBlock fun _ d3 ⟨hg3, b, hd3, hb3⟩ => ?_
    refine Leads.write hg3.activate fun _ d4 ⟨hg4, ls4, hd4⟩ => ?_
    have hmax4 : d4.maxStack = d1.maxStack := by rw [hd4, hd3]; exact hs2.maxStack_eq
    have hfree4 : d4.free = d1.free := by rw [hd4, hd3]; exact hs2.free_eq
    refine Leads.write (hg4.reserve (n := vars) (Nat.le_of_eq (by rw [hmax4, hfree4])))
      fun _ d5 ⟨hg5, hx5, hd5⟩ => ?_
    have hmax5 : d5.maxStack = registers := by
      rw [hd5]
      show max d4.maxStack (d4.free + vars) = _
      rw [hmax4, hfree4]
    have hfree5 : d5.free = d1.free + vars := by
      rw [hd5]
      show d4.free + vars = _
      rw [hfree4]
    have hactive5 : d5.active = d1.active + vars := by
      rw [hx5.active, hd4, hd3]
      show d2.active + vars = _
      rw [hs2.active]
    have hgotos5 : d5.gotos = d1.gotos := by rw [hd5, hd4, hd3]; exact hs2.gotos
    have hlabels5 : d5.labels = d1.labels := by rw [hd5, hd4, hd3]; exact hs2.labels
    have hkept5 : d1.Kept d5 := by
      rw [hd5, hd4, hd3]
      exact hs2.kept
    have hset5 : d5.Settled w.source depth fun m => waiting m ∨ m ∈ entry := by
      refine h₁.advance hkept5 (by rw [hmax5]; exact Nat.le_max_left ..) hgotos5 hlabels5
        ⟨hg5.wait fun m hm => by grind, ?_⟩
      simp only [registers] at hmax5
      omega
    have hup5 : d5.upvalues = w.fn.upvalues := by
      rw [hd5, hd4, hd3]
      exact hs2.upvalues.trans hup1
    have h5 : Drafts.At depth (fun m => waiting m ∨ m ∈ entry) { w with fn := d5 } :=
      ⟨h.write hup5 hset5, by show d5.active ≤ d5.free; omega⟩
    have hf5 : (Drafts.opened { w with fn := d2 } b).Follows { w with fn := d5 } := by
      refine ⟨?_, .refl _, rfl⟩
      show Draft.Follows { d2 with blocks := b :: d2.blocks } d5
      rw [← hd3]
      refine Draft.Follows.trans ?_ hx5.grows.follows
      rw [hd4]
      exact .activate ..
    refine (hg.block hn h5).andThen fun _ w6 ⟨h6, hf6⟩ => ?_
    refine (h6.toPast.leaveBlock (hf5.trans hf6) hb3).andThen fun _ w7 ⟨h7, hf7, _, hmax7⟩ => ?_
    have hmax : registers ≤ w7.fn.maxStack := by
      have h1 : d5.maxStack ≤ w6.fn.maxStack := hf6.fn.maxStack
      omega
    have hjumps : ∀ m ∈ entry, w7.fn.JumpAt m :=
      fun m hm => (h₂.jumps m hm).kept hf7.fn.kept
    refine Leads.ofWrites (loopEnd h7.settled hjumps h₂.nonempty (by omega) ?_ fun hnum => ?_)
      fun _ d8 ⟨hs8, hst8⟩ => ?_
    · simp only [registers] at hmax
      omega
    · have := hi hnum
      have h1 : d1.maxStack ≤ registers := Nat.le_max_left ..
      omega
    · refine ⟨h7.toPast.write hst8.upvalues hs8, ?_⟩
      exact ((hf1.trans (Steps.write hs2.toExtends : Drafts.Steps { w with fn := d1 } _).follows).trans
        hf7).trans (Steps.write hst8.toExtends).follows
  cases numeric with
  | true => exact Leads.write (enterNumeric hg1 hbase) fun pc d2 h₂ => hnext [pc] d2 h₂
  | false => exact Leads.write (enterGeneric hg1) hnext

/-! ### Lists of variables and values -/

theorem declare_leads {name : Bytes} (h : w.Past depth waiting) :
    Leads (declare name) w fun _ w' => w'.Past depth waiting ∧ w.Steps w' ∧
      w'.fn.free = w.fn.free := by
  refine Leads.ofWrites Writes.declare fun _ d ⟨ls, ds, hd⟩ => ?_
  subst hd
  have hs : w.fn.Steady { w.fn with locals := ls, declared := ds } :=
    .of_code rfl rfl rfl rfl rfl rfl rfl rfl rfl rfl rfl
  exact ⟨h.write rfl (h.settled.steady hs rfl rfl rfl), .write hs.toExtends, rfl⟩

theorem namesFrom_leads {m count : Nat} (h : w.Past depth waiting) :
    Leads (namesFrom m count) w fun c w' => w'.Past depth waiting ∧ w.Steps w' ∧
      w'.fn.free = w.fn.free ∧ count ≤ c := by
  induction m generalizing w count with
  | zero => exact Leads.failNear
  | succ m ih =>
    unfold namesFrom
    refine Leads.read Reads.testNext fun b => ?_
    split
    · refine Leads.read Reads.checkName fun name => ?_
      refine (declare_leads h).andThen fun _ w1 ⟨h₁, hs1, hf1⟩ => ?_
      refine (ih h₁).imp fun c w2 ⟨h₂, hs2, hf2, hc⟩ => ?_
      exact ⟨h₂, hs1.trans hs2, hf2.trans hf1, by omega⟩
    · exact Leads.pure ⟨h, .refl w, rfl, Nat.le_refl _⟩

theorem Ok.exprToRegister (hg : g.Ok n) (hn : n ≤ depth) (h : w.Past depth waiting) :
    Leads g.exprToRegister w fun _ w' => w'.Past depth waiting ∧ w.Steps w' ∧
      w.fn.free + 1 ≤ w'.fn.free := by
  refine (hg.expr hn h.fit).andThen fun e w1 hy => Leads.discard ?_
  refine Leads.ofWrites (hy.fit.ready.toNextRegister hy.ok) fun reg d ⟨hr, hx, hreg, hab⟩ => ?_
  have hs := hy.steps.trans (.write hx)
  refine ⟨h.after hs (hy.fit.write hx hr), hs, ?_⟩
  have := hab _ hy.above
  show w.fn.free + 1 ≤ d.free
  omega

def Values (d : Draft) (base exprs : Nat) (e : Expr) : Prop :=
  (e = .plain .void ∧ exprs = 0 ∧ base ≤ d.free) ∨
    (e.Ok d ∧ 1 ≤ exprs ∧ e.place.Above d (base + exprs - 1))

/-- **As many registers are filled as there are variables.** -/
theorem adjust_writes {base vars exprs : Nat} {e : Expr} {source : Bytes}
    (h : d.Ready source depth fun m => waiting m ∨ m ∈ e.jumps) (he : Values d base exprs e) :
    Writes (adjust vars exprs e) d fun _ d' => d'.Ready source depth waiting ∧ d.Extends d' ∧
      base + vars ≤ d'.free := by
  unfold adjust
  extract_lets cut wanted fill
  -- registers of values that no variable takes are free again
  have hcut : ∀ u d1, d1.Ready source depth waiting → d.Extends d1 → base + vars ≤ d1.free →
      base + exprs ≤ d1.free → Writes (cut u) d1 fun _ d' => d'.Ready source depth waiting ∧
        d.Extends d' ∧ base + vars ≤ d'.free := by
    intro u d1 h₁ hx1 hv hx
    show Writes (if vars < exprs then _ else _) d1 _
    split
    · refine Writes.demanding fun _ => ?_
      refine Writes.modifyFn ⟨h₁.lower (Nat.sub_le ..), hx1.trans (.lower d1 _), ?_⟩
      show base + vars ≤ d1.free - (exprs - vars)
      omega
    · exact Writes.pure ⟨h₁, hx1, hv⟩
  split
  · next hm =>
    obtain ⟨hok, hcount, hab⟩ : e.Ok d ∧ 1 ≤ exprs ∧ e.place.Above d (base + exprs - 1) := by
      rcases he with ⟨hv, -⟩ | he
      · rw [hv] at hm
        exact nomatch hm
      · exact he
    refine (h.setReturns hok hm).andThen fun _ d1 ⟨hg1, hx1, _, hfree, _⟩ => ?_
    have hle := hfree _ hab
    have hactive : d1.active ≤ d1.maxStack := by
      rw [hx1.active]
      exact Nat.le_trans h.active hx1.maxStack
    have hfree1 := hg1.stocked.free
    simp only [Option.getD_some] at hg1
    split
    · refine (hg1.reserve (Nat.le_refl _)).andThen fun _ d2 ⟨hg2, hx2, hd2⟩ => ?_
      have hf2 : d2.free = d1.free + (wanted - 1) := by rw [hd2]
      refine hcut () d2 ⟨hg2, ?_⟩ (hx1.trans hx2) ?_ ?_
      · rw [hx2.active]
        exact Nat.le_trans hactive hx2.maxStack
      · simp only [wanted] at hf2
        omega
      · omega
    · next hw =>
      simp only [wanted] at hw
      refine hcut () d1 ⟨hg1.mono ?_, hactive⟩ hx1 (by omega) (by omega)
      simp only [wanted]
      omega
  · next hm =>
    have hfill : ∀ u d1, d1.Ready source depth waiting → d.Extends d1 → base + exprs ≤ d1.free →
        Writes (fill u) d1 fun _ d' => d'.Ready source depth waiting ∧ d.Extends d' ∧
          base + vars ≤ d'.free := by
      intro u d1 h₁ hx1 hle
      show Writes (if exprs < vars then _ else _) d1 _
      split
      · refine Writes.get fun s hs => ?_
        refine (h₁.reserve (vars - exprs)).andThen fun _ d2 ⟨h₂, hx2, hd2⟩ => ?_
        have hfree : s.fn.free = d1.free := by rw [hs]
        rw [hfree]
        have hm2 := h₂.good.stocked.free
        have hf2 : d2.free = d1.free + (vars - exprs) := by rw [hd2]
        refine (h₂.good.loadNil (by omega) (by omega)).andThen fun _ d3 ⟨hg3, hs3⟩ => ?_
        have hf3 := hs3.free_eq
        exact hcut () d3 (h₂.steady hs3 hg3) ((hx1.trans hx2).trans hs3.toExtends) (by omega) (by omega)
      · exact hcut () d1 h₁ hx1 (by omega) (by omega)
    split
    · next hv =>
      obtain ⟨hok, hcount, hab⟩ : e.Ok d ∧ 1 ≤ exprs ∧ e.place.Above d (base + exprs - 1) := by
        rcases he with ⟨hp, -⟩ | he
        · rw [hp] at hv
          exact absurd rfl hv
        · exact he
      refine Writes.bind (Writes.discard ?_)
      refine (h.toNextRegister hok).imp fun reg d1 ⟨h₁, hx1, hreg, hle⟩ => hfill () d1 h₁ hx1 ?_
      have := hle _ hab
      omega
    · next hv =>
      rcases he with ⟨hp, h0, hle⟩ | ⟨hok, -⟩
      · refine hfill () d (h.wait fun m hm => ?_) (.refl d) (by omega)
        rw [hp] at hm
        simpa [Expr.jumps_plain, Place.jumps] using hm
      · have := hok.place
        rw [Decidable.not_not.mp hv] at this
        exact this.elim

theorem Past.adjusted {vars exprs : Nat} {e : Expr} {w1 : Drafts} (h : w.Past depth waiting)
    (hs : w.Steps w1) (hr : w1.Fit depth fun m => (waiting m ∨ Going w.fn.gotos m) ∨ m ∈ e.jumps)
    (he : Values w1.fn w.fn.free exprs e) :
    Leads (adjust vars exprs e) w1 fun _ w' => w'.Past depth waiting ∧ w.Steps w' ∧
      w.fn.free + vars ≤ w'.fn.free := by
  refine Leads.ofWrites (adjust_writes hr.ready he) fun _ d ⟨hd, hx, hle⟩ => ?_
  have hs' := hs.trans (.write hx)
  exact ⟨h.after hs' (hr.write hx hd), hs', hle⟩

theorem Listed.values {exprs : Nat} {e : Expr} {w1 : Drafts} (h : Listed depth waiting w exprs e w1) :
    Values w1.fn w.fn.free exprs e :=
  .inr ⟨h.ok, h.count, h.above⟩

/-- **A numeric loop.** -/
theorem Ok.forNumeric (hg : g.Ok n) (hn : n ≤ depth) {name : Bytes} {line : Nat}
    (h : w.At depth waiting) :
    Leads (g.forNumeric name line) w fun _ w' => w'.Past depth waiting ∧ w.Follows w' := by
  refine Leads.get fun s hs => ?_
  have hbase : s.fn.free = w.fn.free := by rw [← hs]; rfl
  refine (declare_leads h.toPast).andThen fun _ w1 ⟨h₁, hs1, hf1⟩ => ?_
  refine (declare_leads h₁).andThen fun _ w2 ⟨h₂, hs2, hf2⟩ => ?_
  refine (declare_leads h₂).andThen fun _ w3 ⟨h3, hs3, hf3⟩ => ?_
  refine (declare_leads h3).andThen fun _ w4 ⟨h4, hs4, hf4⟩ => ?_
  refine Leads.read Reads.checkNext fun _ => ?_
  refine (hg.exprToRegister hn h4).andThen fun _ w5 ⟨h5, hs5, hf5⟩ => ?_
  refine Leads.read Reads.checkNext fun _ => ?_
  refine (hg.exprToRegister hn h5).andThen fun _ w6 ⟨h6, hs6, hf6⟩ => ?_
  have hsteps := (((hs1.trans hs2).trans (hs3.trans hs4)).trans hs5).trans hs6
  have hbody : ∀ w7, w7.Past depth waiting → w6.Steps w7 → w6.fn.free + 1 ≤ w7.fn.free →
      Leads (g.forBody s.fn.free line 1 true) w7 fun _ w' => w'.Past depth waiting ∧ w.Follows w' := by
    intro w7 h7 hs7 hf7
    have hactive : w7.fn.active = w.fn.active := (hsteps.trans hs7).fn.active
    have hlevel := h.level
    refine Leads.imp (hg.forBody hn h7 ?_ ?_ (Nat.le_refl 1) nofun)
      fun _ w8 ⟨h8, hf8⟩ => ⟨h8, (hsteps.trans hs7).follows.trans hf8⟩
    · omega
    · omega
  refine Leads.read Reads.testNext fun b => ?_
  split
  · exact (hg.exprToRegister hn h6).andThen fun _ w7 ⟨h7, hs7, hf7⟩ => hbody w7 h7 hs7 hf7
  · refine Leads.get fun s6 hs6' => ?_
    have hreg : s6.fn.free = w6.fn.free := by rw [← hs6']; rfl
    refine Leads.write (h6.settled.ready.addConstant _) fun k d7 ⟨hr7, hx7, hk, ks, hd7⟩ => ?_
    have hfree7 : d7.free = w6.fn.free := by rw [hd7]
    -- the step is loaded into the register that is taken next
    have hg7 := hr7.good.mono (Nat.le_max_left d7.maxStack (d7.free + 1))
    have hlt : s6.fn.free < max d7.maxStack (d7.free + 1) := by omega
    refine Leads.write (hg7.loadConstant hlt hk) fun _ d8 ⟨hg8, hs8⟩ => ?_
    refine Leads.write (hg8.reserve (n := 1) ?_) fun _ d9 ⟨hg9, hx9, hd9⟩ => ?_
    · exact Nat.le_of_eq (by rw [hs8.maxStack_eq, hs8.free_eq])
    have hx := (hx7.trans hs8.toExtends).trans hx9
    have hr9 : d9.Ready w6.source depth fun m => waiting m ∨ Going w6.fn.gotos m :=
      ⟨hg9, by rw [hx.active]; exact Nat.le_trans h6.settled.ready.active hx.maxStack⟩
    refine hbody _ (h6.after (.write hx) (h6.fit.write hx hr9)) (.write hx) ?_
    show w6.fn.free + 1 ≤ d9.free
    rw [hd9]
    show w6.fn.free + 1 ≤ d8.free + 1
    exact Nat.le_of_eq (by rw [hs8.free_eq, hfree7])

/-- **A loop with an iterator.** -/
theorem Ok.forGeneric (hg : g.Ok n) (hn : n ≤ depth) {name : Bytes} (h : w.At depth waiting) :
    Leads (g.forGeneric name) w fun _ w' => w'.Past depth waiting ∧ w.Follows w' := by
  refine Leads.get fun s hs => ?_
  have hbase : s.fn.free = w.fn.free := by rw [← hs]; rfl
  refine (declare_leads h.toPast).andThen fun _ w1 ⟨h₁, hs1, hf1⟩ => ?_
  refine (declare_leads h₁).andThen fun _ w2 ⟨h₂, hs2, hf2⟩ => ?_
  refine (declare_leads h₂).andThen fun _ w3 ⟨h3, hs3, hf3⟩ => ?_
  refine (declare_leads h3).andThen fun _ w4 ⟨h4, hs4, hf4⟩ => ?_
  refine (namesFrom_leads h4).andThen fun vars w5 ⟨h5, hs5, hf5, hvars⟩ => ?_
  refine Leads.read Reads.checkNext fun _ => Leads.read Reads.line fun line => ?_
  refine (hg.exprs hn h5.fit).andThen fun ⟨count, e⟩ w6 hl => ?_
  refine (Past.adjusted h5 hl.steps hl.fit (Listed.values hl)).andThen fun _ w7 ⟨h7, hs7, hf7⟩ => ?_
  refine Leads.write (h7.settled.ready.checkStack 3) fun _ d8 ⟨hr8, hx8, hf8, hm8⟩ => ?_
  have h8 : Drafts.Past depth waiting { w7 with fn := d8 } := h7.after (.write hx8) (h7.fit.write hx8 hr8)
  have hsteps := (((hs1.trans hs2).trans (hs3.trans hs4)).trans (hs5.trans hs7)).trans (.write hx8)
  have hactive : d8.active = w.fn.active := hsteps.fn.active
  have hlevel := h.level
  refine Leads.imp (hg.forBody hn h8 ?_ ?_ hvars fun _ => ?_)
    fun _ w9 ⟨h9, hf9⟩ => ⟨h9, hsteps.follows.trans hf9⟩
  · show d8.active + 3 ≤ d8.free
    omega
  · show s.fn.free + 3 ≤ d8.free
    omega
  · show s.fn.free + 5 < d8.maxStack
    omega

theorem Ok.forStatement (hg : g.Ok n) (hn : n ≤ depth) {line : Nat} (h : w.At depth waiting) :
    Leads (g.forStatement line) w fun _ w' => w'.Past depth waiting ∧ w.Follows w' := by
  refine h.enterBlock.andThen fun _ w1 ⟨h₁, b, hw1, hb⟩ => ?_
  subst hw1
  refine Leads.read Reads.next fun _ => Leads.read Reads.checkName fun name => ?_
  refine Leads.read Reads.token fun t => ?_
  extract_lets next
  have hnext : ∀ u w2, w2.Past depth waiting ∧ (w.opened b).Follows w2 →
      Leads (next u) w2 fun _ w' => w'.Past depth waiting ∧ w.Follows w' :=
    fun u w2 ⟨h₂, hf2⟩ => Leads.read Reads.checkMatch fun _ =>
      (h₂.leaveBlock hf2 hb).imp fun _ w3 ⟨h3, hf3, _⟩ => ⟨h3.toPast, hf3⟩
  split
  · exact (hg.forNumeric hn h₁).andThen hnext
  · exact (hg.forGeneric hn h₁).andThen hnext
  · exact (hg.forGeneric hn h₁).andThen hnext
  · exact Leads.bind Leads.failNear

/-! ## 3. Functions and locals -/

theorem Yields.plain {e : Expr} {w' : Drafts} (h : Yields depth waiting w e w')
    (hv : e.place.isVariable) : w'.Fit depth waiting :=
  h.fit.wait fun m hm => by
    rw [h.ok.jumps_eq_nil (Place.not_value_of_variable hv)] at hm
    simpa using hm

theorem fieldsFrom_leads {m : Nat} {e : Expr} (h : Yields depth waiting w0 e w)
    (hv : e.place.isVariable) :
    Leads (fieldsFrom m e) w fun e' w' => Yields depth waiting w0 e' w' ∧ e'.place.isVariable := by
  induction m generalizing w e with
  | zero => exact Leads.failNear
  | succ m ih =>
    unfold fieldsFrom
    refine Leads.read Reads.token fun t => ?_
    split
    · exact (field_leads h.fit h.ok).andThen fun e' w1 ⟨ht, hv'⟩ => ih (h.turned ht) hv'
    · exact Leads.pure ⟨h, hv⟩

/-- **A function is stored under its name.** -/
theorem Ok.functionStatement (hg : g.Ok n) (hn : n < depth) {line : Nat} (h : w.At depth waiting) :
    Leads (g.functionStatement line) w fun _ w' => w'.Past depth waiting ∧ w.Follows w' := by
  refine Leads.read Reads.next fun _ => Leads.read Reads.checkName fun name => ?_
  rw [hg.name]
  refine h.toPast.fit.named.andThen fun e w1 ⟨hy1, hv1⟩ => ?_
  refine (fieldsFrom_leads hy1 hv1).andThen fun e w2 ⟨hy2, hv2⟩ => ?_
  refine Leads.read Reads.token fun t => ?_
  extract_lets isMethod next
  have hnext : ∀ e w3, Yields depth (fun m => waiting m ∨ Going w.fn.gotos m) w e w3 ∧
      e.place.isVariable → Leads (next e) w3 fun _ w' => w'.Past depth waiting ∧ w.Follows w' := by
    intro e w3 ⟨hy, hv⟩
    have hfit := Yields.plain hy hv
    have ha : w3.fn.active ≤ max w3.fn.maxStack (w3.fn.free + 1) :=
      Nat.le_trans hfit.ready.active (Nat.le_max_left ..)
    refine (hg.functionBody hn hfit.ready.good ha hfit.linked).andThen fun reg w4 ⟨h4, hs4, hreg, _⟩ => ?_
    have hlt : reg < w4.fn.maxStack := by
      have := h4.ready.good.stocked.free
      omega
    refine Leads.write (Draft.Ready.storeVariable (h4.ready.wait fun _ => .inl)
      (⟨hlt, nofun, nofun⟩ : (Expr.plain (.fixed reg)).Ok w4.fn) (hs4.fn.variable hy.ok.place hv) hv)
      fun _ d5 ⟨hr5, hx5⟩ => ?_
    refine Leads.ofWrites hr5.good.fixLine fun _ d6 ⟨hg6, hs6, _⟩ => ?_
    have hx := hx5.trans hs6.toExtends
    have hs := (hy.steps.trans hs4).trans (.write hx)
    exact ⟨h.toPast.after hs (h4.write hx (hr5.steady hs6 hg6)), hs.follows⟩
  split
  · exact ((field_leads hy2.fit hy2.ok).imp fun _ _ ⟨ht, hv⟩ => ⟨hy2.turned ht, hv⟩).andThen hnext
  · exact hnext e w2 ⟨hy2, hv2⟩

/-- **A local function**: its register is taken only when its closure is there. -/
theorem Ok.localFunction (hg : g.Ok n) (hn : n < depth) (h : w.At depth waiting) :
    Leads g.localFunction w fun _ w' => w'.Past depth waiting ∧ w.Follows w' := by
  refine Leads.get fun s hs => Leads.read Reads.checkName fun name => ?_
  refine (declare_leads h.toPast).andThen fun _ w1 ⟨h₁, hs1, hf1⟩ => ?_
  refine Leads.write h₁.settled.ready.good.activate fun _ d2 ⟨hg2, ls, hd2⟩ => ?_
  refine Leads.read Reads.line fun line => Leads.bind (Leads.discard ?_)
  have hlevel := h.level
  have hactive1 : w1.fn.active = w.fn.active := hs1.fn.active
  have ha2 : d2.active ≤ max d2.maxStack (d2.free + 1) := by
    rw [hd2]
    show w1.fn.active + 1 ≤ max w1.fn.maxStack (w1.fn.free + 1)
    omega
  have hl2 : Linked (d2 :: w1.outer) := h₁.linked.head (by rw [hd2])
  have hgood2 : d2.Good w1.source depth fun m => waiting m ∨ Going w1.fn.gotos m := by
    rw [hd2] at hg2 ⊢
    exact hg2
  refine (hg.functionBody (w := { w1 with fn := d2 }) hn hgood2 ha2 hl2).imp
    fun reg w3 ⟨h3, hs3, _, _⟩ => Leads.ofWrites Writes.beginLocal fun _ d4 ⟨ls4, hd4⟩ => ?_
  have hst4 : w3.fn.Steady d4 := by
    rw [hd4]
    exact .of_code rfl rfl rfl rfl rfl rfl rfl rfl rfl rfl rfl
  have hset3 : w3.fn.Settled w1.source depth waiting := by
    refine h₁.settled.advance ?_ ?_ ?_ ?_ (by rw [← hs3.source]; exact h3.ready)
    · have := hs3.fn.kept
      rw [hd2] at this
      exact this
    · have := hs3.fn.maxStack
      rw [hd2] at this
      exact this
    · rw [hs3.fn.gotos, hd2]
    · rw [hs3.fn.labels, hd2]
  have hfol : w1.Follows { w1 with fn := d2 } := .write (by rw [hd2]; exact .activate ..)
  refine ⟨⟨?_, h3.linked.head hst4.upvalues⟩, ((hs1.follows.trans hfol).trans hs3.follows).trans
    (Steps.write hst4.toExtends).follows⟩
  rw [hs3.source]
  exact hset3.steady hst4 (by rw [hd4]) (by rw [hd4]) (by rw [hd4])

/-- **Locals with their values.** -/
theorem Ok.localStatement (hg : g.Ok n) (hn : n ≤ depth) (h : w.At depth waiting) :
    Leads g.localStatement w fun _ w' => w'.Past depth waiting ∧ w.Follows w' := by
  refine Leads.read Reads.checkName fun name => ?_
  refine (declare_leads h.toPast).andThen fun _ w1 ⟨h₁, hs1, hf1⟩ => ?_
  refine (namesFrom_leads h₁).andThen fun vars w2 ⟨h₂, hs2, hf2, _⟩ => ?_
  refine Leads.read Reads.testNext fun b => ?_
  extract_lets next
  have hnext : ∀ r w3, w2.Steps w3 →
      w3.Fit depth (fun m => (waiting m ∨ Going w2.fn.gotos m) ∨ m ∈ r.2.jumps) →
      Values w3.fn w2.fn.free r.1 r.2 →
      Leads (next r) w3 fun _ w' => w'.Past depth waiting ∧ w.Follows w' := by
    intro ⟨count, e⟩ w3 hs3 hfit hval
    refine (Past.adjusted h₂ hs3 hfit hval).andThen fun _ w4 ⟨h4, hs4, hf4⟩ => ?_
    have hsteps := (hs1.trans hs2).trans hs4
    have hactive : w4.fn.active = w.fn.active := hsteps.fn.active
    have hlevel := h.level
    have hmax := h4.settled.ready.good.stocked.free
    refine Leads.ofWrites (h4.settled.activate (by omega)) fun _ d ⟨hs, ls, hd⟩ => ?_
    refine ⟨h4.write (by rw [hd]) hs, hsteps.follows.trans (.write ?_)⟩
    rw [hd]
    exact .activate ..
  split
  · exact (hg.exprs hn h₂.fit).andThen fun r w3 hl => hnext r w3 hl.steps hl.fit (Listed.values hl)
  · exact hnext (0, .plain .void) w2 (.refl _) (h₂.fit.wait fun _ => .inl)
      (.inl ⟨rfl, rfl, Nat.le_refl _⟩)

/-! ## 4. Assignments, labels and returns -/

def Targets (d : Draft) (ts : List Expr) : Prop := ∀ t ∈ ts, t.place.Ok d ∧ t.place.isVariable

theorem Targets.grows {d d' : Draft} {ts : List Expr} (h : Targets d ts) (hg : d.Grows d') :
    Targets d' ts :=
  fun t ht => ⟨hg.variable (h t ht).1 (h t ht).2, (h t ht).2⟩

theorem Targets.cons {d : Draft} {t : Expr} {ts : List Expr} (ht : t.place.Ok d)
    (hv : t.place.isVariable) (h : Targets d ts) : Targets d (t :: ts) := by
  intro u hu
  rcases List.mem_cons.mp hu with rfl | hu
  · exact ⟨ht, hv⟩
  · exact h u hu

theorem avoidConflict_ok {copy : Nat} {assigned : Place} {t : Expr} (ht : t.place.Ok d)
    (hv : t.place.isVariable)
    (hc : (avoidConflict copy assigned t).2 = true → copy < d.maxStack ∧ d.maxStack ≤ 254) :
    (avoidConflict copy assigned t).1.place.Ok d ∧ (avoidConflict copy assigned t).1.place.isVariable := by
  unfold avoidConflict at *
  split at hc
  · next table key base hp =>
    rw [hp] at ht
    revert hc
    extract_lets sameTable sameKey
    intro hc
    simp only [Bool.or_eq_true] at hc
    have hkey : sameKey = true → d.HasOperand copy := fun hk =>
      have := hc (.inr hk)
      .of_register this.1 this.2
    have hbase : sameTable = true → copy < d.maxStack := fun hs => (hc (.inl hs)).1
    refine ⟨?_, rfl⟩
    clear_value sameTable sameKey
    cases base <;> cases sameTable <;> cases sameKey <;>
      simp_all [Place.Ok]
  · exact ⟨ht, hv⟩

theorem avoidConflict_other {copy : Nat} {assigned : Place} {t : Expr}
    (hl : ∀ r, assigned ≠ .localVar r) (hu : ∀ i, assigned ≠ .upvalue i) :
    (avoidConflict copy assigned t).2 = false := by
  unfold avoidConflict
  split
  · cases assigned with
    | localVar r => exact absurd rfl (hl r)
    | upvalue i => exact absurd rfl (hu i)
    | _ => rfl
  · rfl

theorem checkConflict_writes {assigned : Place} {targets : List Expr} {source : Bytes}
    (h : d.Ready source depth waiting) (ha : assigned.Ok d) (ht : Targets d targets) :
    Writes (checkConflict assigned targets) d fun ts d' => d'.Ready source depth waiting ∧
      d.Extends d' ∧ Targets d' ts := by
  refine Writes.get fun s hs => ?_
  subst hs
  extract_lets copy checked next
  have hmem : ∀ d', s.fn.Extends d' → d'.maxStack ≤ 254 →
      (checked.any (·.2) = true → copy < d'.maxStack) → Targets d' (checked.map (·.1)) := by
    intro d' hx hm hc t hmem
    simp only [checked, List.map_map, List.mem_map] at hmem
    obtain ⟨u, hu, rfl⟩ := hmem
    have hu' := (ht.grows hx.grows) u hu
    refine avoidConflict_ok hu'.1 hu'.2 fun hconf => ⟨hc ?_, hm⟩
    simp only [checked, List.any_map, List.any_eq_true]
    exact ⟨u, hu, hconf⟩
  -- a copy into the register that is taken next
  have hcopy : ∀ i : Instr, i.Plain → i.Fits (s.fn.room (max s.fn.maxStack (s.fn.free + 1))) →
      Writes (do
        discard <| emit i
        let u ← reserve 1
        next u) s.fn fun ts d' => d'.Ready source depth waiting ∧ s.fn.Extends d' ∧ Targets d' ts := by
    intro i hp hf
    have hgood := h.good.mono (Nat.le_max_left s.fn.maxStack (s.fn.free + 1))
    refine Writes.bind (Writes.discard ?_)
    refine (hgood.emit hp hf).imp ?_
    rintro _ d1 ⟨_, hg1, he1⟩
    refine (hg1.reserve (n := 1) ?_).andThen ?_
    · exact Nat.le_of_eq (by rw [he1.maxStack_eq, he1.free_eq])
    rintro _ d2 ⟨hg2, hx2, hd2⟩
    have hx := he1.toExtends.trans hx2
    refine Writes.pure ⟨⟨hg2, by rw [hx.active]; exact Nat.le_trans h.active hx.maxStack⟩, hx,
      hmem d2 hx hg2.stocked.high fun _ => ?_⟩
    rw [hd2]
    show s.fn.free < max d1.maxStack (d1.free + 1)
    rw [he1.free_eq]
    omega
  have hfree : s.fn.free < max s.fn.maxStack (s.fn.free + 1) := by omega
  have hcopy' : s.fn.free % 256 < max s.fn.maxStack (s.fn.free + 1) :=
    Nat.lt_of_le_of_lt (Nat.mod_le ..) hfree
  split
  · next hany =>
    split
    · next r =>
      refine hcopy _ (Instr.plain_ofABC rfl ..) ?_
      have hr : r < s.fn.active := ha
      have := h.active
      have := Nat.mod_le r 512
      simp only [Instr.Fits, Instr.opcode_ofABC, Instr.a_ofABC, Instr.b_ofABC, Draft.room]
      exact ⟨hcopy', by omega⟩
    · next i =>
      refine hcopy _ (Instr.plain_ofABC rfl ..) ?_
      have hi : i < s.fn.upvalues.size := ha
      have := Nat.mod_le i 512
      simp only [Instr.Fits, Instr.opcode_ofABC, Instr.a_ofABC, Instr.b_ofABC, Draft.room]
      exact ⟨hcopy', by omega⟩
    · next hlocal hupvalue =>
      simp only [checked, List.any_map, List.any_eq_true] at hany
      obtain ⟨t, -, hconf⟩ := hany
      rw [Function.comp_apply, avoidConflict_other hlocal hupvalue] at hconf
      cases hconf
  · next hnone =>
    exact Writes.pure ⟨h, .refl _, hmem _ (.refl _) h.good.stocked.high fun hc => absurd hc hnone⟩

theorem Ok.nextTarget (hg : g.Ok n) (hn : n ≤ depth) {e : Expr} {earlier : List Expr}
    {rest : Expr → List Expr → Compile (List Expr)}
    (h : w.Fit depth fun m => waiting m ∨ m ∈ e.jumps) (he : e.place.isVariable → e.Ok w.fn)
    (ht : Targets w.fn earlier)
    (hrest : ∀ {w' e' ts}, w'.Fit depth (fun m => waiting m ∨ m ∈ e'.jumps) →
      (e'.place.isVariable → e'.Ok w'.fn) → Targets w'.fn ts →
      Leads (rest e' ts) w' fun ts w'' => w''.Fit depth waiting ∧ w'.Steps w'' ∧ Targets w''.fn ts) :
    Leads (do
      if e.place.isVariable then
        if ← testNext (.symbol .comma) then
          let e' ← g.suffixed
          let targets ←
            match e'.place with
            | .indexed .. => pure (e :: earlier)
            | p => checkConflict p (e :: earlier)
          rest e' targets
        else return e :: earlier
      else failNear .notAStatement) w fun ts w' => w'.Fit depth waiting ∧ w.Steps w' ∧
        Targets w'.fn ts := by
  split
  · next hv =>
    have hok := he hv
    have h₁ : w.Fit depth waiting := h.wait fun m hm => by
      rw [hok.jumps_eq_nil (Place.not_value_of_variable hv)] at hm
      simpa using hm
    have ht1 : Targets w.fn (e :: earlier) := ht.cons hok.place hv
    refine Leads.read Reads.testNext fun b => ?_
    split
    · refine (hg.suffixed hn h₁).andThen fun e' w1 hy => ?_
      have ht2 := ht1.grows hy.steps.fn
      extract_lets next
      have hnext : ∀ ts d, w1.fn.Extends d →
          d.Ready w1.source depth (fun m => waiting m ∨ m ∈ e'.jumps) → Targets d ts →
          Leads (next ts) { w1 with fn := d } fun ts w' => w'.Fit depth waiting ∧ w.Steps w' ∧
            Targets w'.fn ts := by
        intro ts d hx hr hts
        refine (hrest (hy.fit.write hx hr) (fun hv' => ?_) hts).imp fun ts' w2 ⟨h₂, hs2, ht2⟩ =>
          ⟨h₂, (hy.steps.trans (.write hx)).trans hs2, ht2⟩
        refine ⟨Draft.variable_ext hy.ok.place hv' hx, fun m hm => ?_, hy.ok.whole⟩
        rw [hy.ok.jumps_eq_nil (Place.not_value_of_variable hv')] at hm
        exact nomatch hm
      split
      · exact hnext _ w1.fn (.refl _) hy.fit.ready ht2
      · refine Leads.write (checkConflict_writes hy.fit.ready hy.ok.place ht2)
          fun ts d ⟨hr, hx, hts⟩ => hnext ts d hx hr hts
    · exact Leads.pure ⟨h₁, .refl w, ht1⟩
  · exact Leads.failNear

/-- **The targets of an assignment are all there.** -/
theorem Ok.targetsFrom (hg : g.Ok n) (hn : n ≤ depth) {left : Nat} {e : Expr} {earlier : List Expr}
    (h : w.Fit depth fun m => waiting m ∨ m ∈ e.jumps) (he : e.place.isVariable → e.Ok w.fn)
    (ht : Targets w.fn earlier) :
    Leads (g.targetsFrom left e earlier) w fun ts w' => w'.Fit depth waiting ∧ w.Steps w' ∧
      Targets w'.fn ts := by
  induction left generalizing w e earlier with
  | zero =>
    unfold Grammar.targetsFrom
    exact hg.nextTarget hn h he ht fun _ _ _ => Leads.failNear
  | succ left ih =>
    unfold Grammar.targetsFrom
    exact hg.nextTarget hn h he ht ih

theorem storeAll_writes {targets : List Expr} {source : Bytes} (h : d.Ready source depth waiting)
    (ht : Targets d targets) :
    Writes (storeAll targets) d fun _ d' => d'.Ready source depth waiting ∧ d.Extends d' := by
  induction targets generalizing d with
  | nil => exact Writes.pure ⟨h, .refl d⟩
  | cons t rest ih =>
    refine Writes.topRegister ?_
    have hlast : (Expr.plain (.fixed (d.free - 1))).Ok d := by
      have h1 := h.good.stocked.free
      have h2 := h.good.stocked.low
      exact ⟨by show d.free - 1 < d.maxStack; omega, nofun, nofun⟩
    have htarget := ht t (by simp)
    refine (Draft.Ready.storeVariable (h.wait fun _ => .inl) hlast htarget.1 htarget.2).andThen
      fun _ d1 ⟨h₁, hx1⟩ => ?_
    refine (ih h₁ (Targets.grows (fun u hu => ht u (by simp [hu])) hx1.grows)).imp
      fun _ d2 ⟨h₂, hx2⟩ => ⟨h₂, hx1.trans hx2⟩

/-- **An assignment.** -/
theorem Ok.assignment (hg : g.Ok n) (hn : n ≤ depth) {e : Expr} (h : w.Past depth waiting)
    (hy : Yields depth (fun m => waiting m ∨ Going w.fn.gotos m) w e w0) :
    Leads (g.assignment e) w0 fun _ w' => w'.Past depth waiting ∧ w.Follows w' := by
  have hnone : Targets w0.fn [] := fun t ht => nomatch ht
  refine (hg.targetsFrom hn hy.fit (fun _ => hy.ok) hnone).andThen fun ts w1 ⟨h₁, hs1, ht1⟩ => ?_
  refine Leads.read Reads.checkNext fun _ => ?_
  refine (hg.exprs hn h₁).andThen fun ⟨count, v⟩ w2 hl => ?_
  have ht2 := ht1.grows hl.steps.fn
  have hs2 := (hy.steps.trans hs1).trans hl.steps
  have hdone : ∀ d, d.Ready w2.source depth (fun m => waiting m ∨ Going w.fn.gotos m) →
      w2.fn.Extends d → Drafts.Past depth waiting { w2 with fn := d } ∧
        w.Follows { w2 with fn := d } := fun d hd hx =>
    have hs := hs2.trans (.write hx)
    ⟨h.after hs (hl.fit.write hx hd), hs.follows⟩
  dsimp only
  split
  · next hcount =>
    refine Leads.write (hl.fit.ready.setOneReturn hl.ok) fun v' d ⟨hturn, _⟩ => ?_
    have ht3 := ht2.grows hturn.ext.grows
    cases ts with
    | nil =>
      have hpos : 1 ≤ count := hl.count
      rw [hcount] at hpos
      exact nomatch hpos
    | cons t rest =>
      have htarget := ht3 t (by simp)
      refine Leads.write (hturn.ready.storeVariable hturn.ok htarget.1 htarget.2) fun _ d1 ⟨h3, hx3⟩ => ?_
      have hrest : Targets d1 rest := Targets.grows (fun u hu => ht3 u (by simp [hu])) hx3.grows
      exact Leads.ofWrites (storeAll_writes h3 hrest) fun _ d2 ⟨h4, hx4⟩ =>
        hdone d2 h4 ((hturn.ext.trans hx3).trans hx4)
  · refine Leads.write (adjust_writes hl.fit.ready (Listed.values hl)) fun _ d ⟨hd, hx, _⟩ => ?_
    exact Leads.ofWrites (storeAll_writes hd (ht2.grows hx.grows)) fun _ d1 ⟨hd1, hx1⟩ =>
      hdone d1 hd1 (hx.trans hx1)

/-- **A call or an assignment.** The results of the call are dropped. -/
theorem Ok.exprStatement (hg : g.Ok n) (hn : n ≤ depth) (h : w.Past depth waiting) :
    Leads g.exprStatement w fun _ w' => w'.Past depth waiting ∧ w.Follows w' := by
  refine (hg.suffixed hn h.fit).andThen fun e w1 hy => Leads.read Reads.token fun t => ?_
  split
  · exact hg.assignment hn h hy
  · exact hg.assignment hn h hy
  · split
    · next pc hp =>
      have hplace := hy.ok.place
      rw [hp] at hplace
      obtain ⟨i, hi, ho, -⟩ := hplace
      obtain ⟨hgood, hs⟩ := hy.fit.ready.good.mapInstr (Nat.le_refl _) pc (fun i => i.setC 1)
        fun j hj => by
          rw [hi] at hj
          cases hj
          have hold := hy.fit.ready.good.written.instr pc i hi
          have hfit := hold.fits.resolve_right fun h => by simp [ho] at h
          refine ⟨⟨hold.known, .inl ?_, ?_, ?_⟩, .of_opcode rfl (by simp [ho]) (by simp [ho]), .inl rfl⟩
          · simp only [Instr.Fits, Instr.opcode_setC, ho, Instr.a_setC, Instr.b_setC,
              Instr.c_setC] at hfit ⊢
            omega
          · simp [Instr.Jumps, ho, Op.layout]
          · simp [Instr.Skips, ho]
      have hjumps : e.jumps = [] := hy.ok.jumps_eq_nil (by rw [hp]; rfl)
      have hsteps := hy.steps.trans (.write hs.toExtends)
      refine Leads.modifyFn ⟨h.after hsteps ?_, hsteps.follows⟩
      refine hy.fit.write hs.toExtends ((hy.fit.ready.steady hs hgood).wait fun m hm => ?_)
      simpa [hjumps] using hm
    · exact Leads.failNear

theorem Ok.skipNoOps (hg : g.Ok n) (hn : n ≤ depth) {m : Nat} (h : w.At depth waiting) :
    Leads (g.skipNoOps m) w fun _ w' => w'.At depth waiting ∧ w.Follows w' := by
  induction m generalizing w with
  | zero => exact Leads.failNear
  | succ m ih =>
    unfold Grammar.skipNoOps
    refine Leads.read Reads.token fun t => ?_
    have hgo : Leads (do g.statement; skipNoOps g m) w fun _ w' => w'.At depth waiting ∧ w.Follows w' :=
      (hg.statement hn h).andThen fun _ w1 ⟨h₁, hf1⟩ =>
        (ih h₁).imp fun _ w2 ⟨h₂, hf2⟩ => ⟨h₂, hf1.trans hf2⟩
    split
    · exact hgo
    · exact hgo
    · exact Leads.pure ⟨h, .refl w⟩

/-- **A label**: the gotos of its name are aimed at it. -/
theorem Ok.labelStatement (hg : g.Ok n) (hn : n ≤ depth) {name : Bytes} {line : Nat}
    (h : w.At depth waiting) :
    Leads (g.labelStatement name line) w fun _ w' => w'.Past depth waiting ∧ w.Follows w' := by
  refine Leads.get fun s hs => ?_
  split
  · exact Leads.failPlain
  refine Leads.read Reads.checkNext fun _ => ?_
  refine Leads.write h.settled.markTarget fun pc d1 ⟨hs1, hst1, hpc, hc1⟩ => ?_
  have h₁ := h.write hst1 hs1
  have hpc1 : pc ≤ d1.code.size := by
    exact Nat.le_of_eq (by rw [hpc, hc1])
  refine Leads.get fun s1 hs1' => ?_
  extract_lets index label next
  refine Leads.bind (Leads.modifyFn ?_)
  have h₂ : Drafts.At depth waiting { w with fn := { d1 with labels := d1.labels ++ [label] } } :=
    ⟨⟨hs1.addLabel hpc1, h₁.linked.head rfl⟩, h₁.level⟩
  have hf2 : w.Follows { w with fn := { d1 with labels := d1.labels ++ [label] } } :=
    .write (hst1.patched d1.gotos _).toFollows
  refine (hg.skipNoOps hn h₂).andThen fun _ w3 ⟨h3, hf3⟩ => ?_
  have hpc3 : pc ≤ w3.fn.code.size := Nat.le_trans hpc1 hf3.fn.kept.size
  have hnext : ∀ l : Label, l.pc = pc → Leads (next l) w3 fun _ w' => w'.Past depth waiting ∧
      w.Follows w' := by
    intro l hl
    have hle : l.pc ≤ w3.fn.code.size := by rw [hl]; exact hpc3
    refine Leads.bind (Leads.modifyFn ?_)
    have hset : { w3.fn with labels := w3.fn.labels.set index l }.Settled w3.source depth waiting := by
      refine h3.settled.setLabels fun k hk => ?_
      rcases List.mem_or_eq_of_mem_set hk with hk | rfl
      · exact h3.settled.labels k hk
      · exact hle
    refine Leads.ofWrites (hset.closeGotos hle) fun _ d4 ⟨hs4, hp4, _⟩ => ?_
    have hp := ((Draft.Steady.refl w3.fn).patched w3.fn.gotos _).trans hp4
    exact ⟨h3.toPast.write hp.upvalues_eq hs4, (hf2.trans hf3).trans (.write hp.toFollows)⟩
  refine Leads.read Reads.atBlockEnd fun b => ?_
  split
  · refine Leads.write h3.settled.innermostBlock fun ⟨captured, active⟩ d ⟨hd, _⟩ => ?_
    subst hd
    exact hnext _ rfl
  · exact hnext label rfl

/-- **What is returned lies in registers that are there.** -/
theorem Ok.returnStatement (hg : g.Ok n) (hn : n ≤ depth) (h : w.At depth waiting) :
    Leads g.returnStatement w fun _ w' => w'.Past depth waiting ∧ w.Follows w' := by
  refine Leads.read Reads.atBlockEnd fun b => Leads.read Reads.token fun t => ?_
  extract_lets next
  have hnext : ∀ u w1, w1.Past depth waiting → w.Follows w1 →
      Leads (next u) w1 fun _ w' => w'.Past depth waiting ∧ w.Follows w' :=
    fun u w1 h₁ hf1 => Leads.discard (Leads.ofReads Reads.testNext fun _ => ⟨h₁, hf1⟩)
  split
  · have hlow := h.settled.ready.good.stocked.low
    refine Leads.write (h.settled.ready.good.emitReturn (.inl rfl) (by simp)) ?_
    rintro u d ⟨hgood, he⟩
    exact hnext u _ (h.toPast.write he.upvalues (h.settled.steadily he.toSteady hgood))
      (Steps.write he.toExtends).follows
  · refine (hg.exprs hn h.toPast.fit).andThen ?_
    rintro ⟨count, e⟩ w1 hl
    refine Leads.get fun s hs => ?_
    have hactive : s.fn.active = w.fn.active := by
      rw [show s.fn = w1.fn from congrArg Drafts.fn hs]
      exact hl.steps.fn.active
    have hlevel := h.level
    have hcount : 1 ≤ count := hl.count
    -- a RETURN of registers that are there
    have hret : ∀ first k d, w1.fn.Extends d →
        d.Ready w1.source depth (fun m => waiting m ∨ Going w.fn.gotos m) → first < d.maxStack →
        first + k.getD 0 ≤ d.maxStack → Leads (do next (← emitReturn first k)) { w1 with fn := d }
          fun _ w' => w'.Past depth waiting ∧ w.Follows w' := by
      intro first k d hx hr hfirst hlast
      refine Leads.write (hr.good.emitReturn (.inr hfirst) hlast) ?_
      rintro u d' ⟨hg', he'⟩
      have hx' := hx.trans he'.toExtends
      have hsteps := hl.steps.trans (.write hx')
      exact hnext u _ (h.toPast.after hsteps (hl.fit.write hx' (hr.steady he'.toSteady hg')))
        hsteps.follows
    dsimp only
    split
    · next hm =>
      refine Leads.write (hl.fit.ready.setReturns hl.ok hm) ?_
      rintro _ d ⟨hgood, hx, _, hfree, hcall⟩
      have hle : w.fn.free + count - 1 + 1 ≤ d.free := hfree _ hl.above
      have hmax := hgood.stocked.free
      have hr : d.Ready w1.source depth fun m => waiting m ∨ Going w.fn.gotos m := by
        refine ⟨hgood.mono (by simp only [Option.getD]; omega), ?_⟩
        rw [hx.active]
        exact Nat.le_trans hl.fit.ready.active hx.maxStack
      split
      · next pc hp =>
        obtain ⟨i, hi, ho⟩ := hcall pc hp
        obtain ⟨hgood', hs'⟩ := hr.good.mapInstr (Nat.le_refl _) pc (fun i => i.setOp .tailCall)
          fun j hj => by
            rw [hi] at hj
            cases hj
            have hold := hr.good.written.instr pc i hi
            have hfit := hold.fits.resolve_right fun h => by simp [ho] at h
            refine ⟨⟨?_, .inl ?_, ?_, ?_⟩, .of_tailCall ho (by simp), .inr (.inr (.inl ⟨ho, by simp⟩))⟩
            · rfl
            · simp only [Instr.Fits, Instr.opcode_setOp, ho, Instr.a_setOp, Instr.b_setOp] at hfit ⊢
              omega
            · simp [Instr.Jumps, Op.layout]
            · simp [Instr.Skips]
        refine Leads.bind (Leads.modifyFn (Leads.demanding fun _ => ?_))
        refine hret _ none _ (hx.trans hs'.toExtends) (hr.steady hs' hgood') ?_ ?_
        · show s.fn.active < d.maxStack
          omega
        · show s.fn.active + 0 ≤ d.maxStack
          omega
      · exact hret _ none d hx hr (by omega) (by simp only [Option.getD]; omega)
    · split
      · refine Leads.write (hl.fit.ready.toAnyRegister hl.ok) ?_
        rintro r d ⟨hr, hx, hlt, _⟩
        exact hret r (some 1) d hx hr hlt hlt
      · refine Leads.bind (Leads.discard ?_)
        refine Leads.ofWrites (hl.fit.ready.toNextRegister hl.ok) ?_
        rintro reg d ⟨hr, hx, hreg, hab⟩
        have hle : w.fn.free + count - 1 ≤ reg := hab _ hl.above
        have hmax := hr.good.stocked.free
        refine Leads.demanding fun _ => ?_
        exact hret _ (some count) d hx hr (by omega) (by simp only [Option.getD]; omega)

/-! ## 5. The grammar -/

theorem Past.freeAll (h : w.Past depth waiting) (hf : w0.Follows w) :
    Leads (modifyFn fun d => { d with free := d.active }) w fun _ w' => w'.At depth waiting ∧
      w0.Follows w' := by
  have hs := h.settled.ready.good.stocked
  refine Leads.modifyFn ⟨⟨⟨⟨⟨⟨?_, ?_, h.settled.ready.good.here⟩, h.settled.ready.active⟩,
    h.settled.gotos, h.settled.labels⟩, h.linked.head rfl⟩, Nat.le_refl _⟩, hf.trans (.write ?_)⟩
  · exact h.settled.ready.good.written.transport rfl rfl (.refl _) (Nat.le_refl _) fun _ => id
  · exact ⟨hs.low, hs.high, h.settled.ready.active, hs.constants, hs.upvalues, hs.count, hs.protos,
      hs.captured⟩
  · exact ⟨.refl _, Nat.le_refl _, Nat.le_refl _, Nat.le_refl _, rfl, Nat.le_refl _, 0, .refl _ _⟩

/-- **Any statement keeps the drafts good.** -/
theorem Ok.statementBody (hg : g.Ok n) (hn : n < depth) (h : w.At depth waiting) :
    Leads g.statementBody w fun _ w' => w'.At depth waiting ∧ w.Follows w' := by
  have hle := Nat.le_of_lt hn
  refine Leads.read Reads.line fun line => Leads.read Reads.token fun t => ?_
  extract_lets next
  have hnext : ∀ u w1, w1.Past depth waiting ∧ w.Follows w1 →
      Leads (next u) w1 fun _ w' => w'.At depth waiting ∧ w.Follows w' :=
    fun u w1 ⟨h₁, hf1⟩ => Leads.demanding fun _ => Past.freeAll h₁ hf1
  have hgoto : Leads (do next (← gotoStatement (← jump))) w fun _ w' => w'.At depth waiting ∧
      w.Follows w' := by
    refine Leads.write h.settled.jump fun l d ⟨hs, hst, hl⟩ => ?_
    refine ((h.write hst hs).toPast.gotoStatement hl).andThen fun u w1 ⟨h₁, hf1, _⟩ => ?_
    exact hnext u w1 ⟨h₁, (Steps.write hst.toExtends).follows.trans hf1⟩
  split
  · exact Leads.read Reads.next fun u => hnext u w ⟨h.toPast, .refl w⟩
  · exact (hg.ifStatement hle h).andThen hnext
  · exact (hg.whileStatement hle h).andThen hnext
  · refine Leads.read Reads.next fun _ => (hg.block hle h).andThen fun _ w1 ⟨h₁, hf1⟩ => ?_
    exact Leads.read Reads.checkMatch fun u => hnext u w1 ⟨h₁.toPast, hf1⟩
  · exact (hg.forStatement hle h).andThen hnext
  · exact (hg.repeatStatement hle h).andThen hnext
  · exact (hg.functionStatement hn h).andThen hnext
  · refine Leads.read Reads.next fun _ => Leads.read Reads.testNext fun b => ?_
    split
    · exact (hg.localFunction hn h).andThen hnext
    · exact (hg.localStatement hle h).andThen hnext
  · refine Leads.read Reads.next fun _ => Leads.read Reads.checkName fun name => ?_
    exact (hg.labelStatement hle h).andThen hnext
  · exact Leads.read Reads.next fun _ => (hg.returnStatement hle h).andThen hnext
  · exact hgoto
  · exact hgoto
  · exact (hg.exprStatement hle h.toPast).andThen hnext

/-- **The grammar of any number of levels keeps the drafts good**; the functions read in it are of at
    most as many levels. -/
theorem ofLevels_ok (bound n : Nat) : (ofLevels Compile.named bound n).Ok n := by
  induction n with
  | zero => exact ⟨fun _ _ => Leads.failNear, fun _ _ _ => Leads.failNear, rfl⟩
  | succ n ih => exact ⟨fun hn h => ih.statementBody hn h, fun _ hn h => ih.expressionBody hn h, rfl⟩

def mainDraft : Draft :=
  { Draft.addUpvalue { Draft.new 0 with blocks := [⟨0, 0, 0, false, false⟩] } environmentName (.register 0) with
    isVararg := true }

theorem mainDraft_at (source : Bytes) : Drafts.At n (fun _ => False) ⟨mainDraft, [], source⟩ := by
  have hblank : Blank mainDraft := ⟨rfl, rfl, rfl, rfl, rfl, rfl, rfl, rfl, rfl, rfl⟩
  have hset : mainDraft.Settled source n fun _ => False :=
    hblank.settled (Nat.le_refl 2) (by decide) (Nat.zero_le 2) (Nat.zero_le 2) (by decide) ..
  exact ⟨⟨hset, ⟨⟨some environmentName, true, 0⟩, by simp [mainDraft, Draft.addUpvalue, Draft.new], rfl⟩⟩, Nat.le_refl 0⟩

theorem Ok.mainFunction (hg : g.Ok n) (source : Bytes) :
    Leads g.mainFunction ⟨Draft.new 0, [], source⟩ fun _ w' =>
      (w'.fn.finish source).All (Proto.Made source) ∧ (w'.fn.finish source).Within (n + 1) := by
  refine Leads.write Writes.enterBlock fun _ d0 hd0 => ?_
  obtain ⟨-, rfl⟩ := hd0
  refine Leads.bind (Leads.modifyFn ?_)
  have hat := mainDraft_at (n := n) source
  refine (hg.statements (Nat.le_refl n) hat).andThen fun _ w1 ⟨h₁, hf1⟩ => ?_
  refine Leads.read Reads.check fun _ => ?_
  have hsource : w1.source = source := hf1.source
  obtain ⟨b, hb, hloop, hgoto⟩ : ∃ b : Block, w1.fn.blocks = [b] ∧ b.isLoop = false ∧
      b.firstGoto = 0 := by
    obtain ⟨level, hm⟩ := hf1.fn.blocks
    generalize w1.fn.blocks = bs at hm
    cases hm with
    | cons hb ht =>
      cases ht with
      | nil => exact ⟨_, rfl, hb.isLoop, hb.firstGoto⟩
  have hparams : w1.fn.params ≤ w1.fn.maxStack := by
    have h1 : w1.fn.params = 0 := hf1.fn.params
    omega
  refine Leads.ofWrites (h₁.settled.closeBody hb hloop hgoto hparams) fun _ d' ⟨hmade, hwithin, _⟩ => ?_
  rw [hsource] at hmade hwithin
  exact ⟨hmade, hwithin⟩

end Grammar

/-- **Every function that is compiled is fit to run**, the main one and those nested in it, and they are
    not nested deeper than statements and expressions can be. -/
theorem compile_made {source : Bytes} {chunkName : String} {p : Proto}
    (h : compile source chunkName = .ok p) :
    p.All (Proto.Made (Bytes.ofString chunkName)) ∧ p.Within (maxLevels + 1) := by
  unfold compile compileWith at h
  extract_lets chunk at h
  split at h
  · exact nomatch h
  · exact nomatch h
  · next first rest fault _ =>
    dsimp only at h
    split at h
    · next s hs =>
      cases h
      have hg := Grammar.ofLevels_ok (rest.length + 2) maxLevels
      exact hg.mainFunction (Bytes.ofString chunkName) _ _ s rfl hs
    · exact nomatch h

end LuaMachine
