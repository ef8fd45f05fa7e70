/-
  STATEMENTS ARE READ BY STEPS of the sketch, and so is a whole program. While the body of a loop is read,
  the place where the loop goes back to is kept.

  * `orders_ofLevels` -- **statements and expressions at any depth**.
-/
import LuaMachine.Proofs.Jumps.Statement
import LuaMachine.Proofs.Sketch.Expression

namespace LuaMachine.Grammar

open Compile Compile.Goes

variable {g : Grammar} {scope : Bool} {u : Sketch} {e : Expr} {bs hs : List Nat}

/-! ## 1. Conditionals -/

theorem Orders.block (ho : g.Orders hs) (hu : u.At 0 bs hs) : Goes true g.block u fun _ u' => u'.Ready bs hs := by
  refine (Goes.enterBlock false hu).bind fun _ u1 _ h1 => (ho.statements ⟨h1.1, h1.2.1⟩).bind fun _ u2 _ h2 => ?_
  exact (Goes.leaveBlock h2.level).imp fun _ _ h => h.1

theorem Terms.condition (hg : g.Terms) : Goes scope g.condition u fun l u' => ∀ n ∈ l, u'.draft.JumpAt n := by
  refine hg.expr.bind fun e u1 _ he => ?_
  split
  · exact Goes.goIfTrue ⟨Place.fit_of_inert rfl u1, he.onTrue, he.onFalse⟩
  · exact Goes.goIfTrue he

/-- **The end of a branch**: the jumps that pass it arrive, a jump that leaves the statement comes to the others. -/
theorem Orders.branchEnd {a : Nat} {leaving passing : JumpList} (ho : g.Orders hs) (hu : u.Ready (a :: bs) hs)
    (hleaving : ∀ n ∈ leaving, u.draft.JumpAt n) (hpassing : ∀ n ∈ passing, u.draft.JumpAt n) :
    Goes true (g.branchEnd leaving passing) u fun l u' => (∀ n ∈ l, u'.draft.JumpAt n) ∧ u'.At 0 bs hs := by
  refine (ho.statements hu).bind fun _ u1 hsteps1 h1 => (Goes.leaveBlock h1.level).bind fun _ u2 hsteps2 h2 => ?_
  have hsteps := hsteps1.trans hsteps2
  have hpassing2 : ∀ n ∈ passing, u2.draft.JumpAt n := fun n hn => Sketch.Steps.jumpAt hsteps (hpassing n hn)
  have hleaving2 : ∀ n ∈ leaving, u2.draft.JumpAt n := fun n hn => Sketch.Steps.jumpAt hsteps (hleaving n hn)
  refine read Reads.token fun t => ?_
  extract_lets rest
  have hrest : ∀ l (u3 : Sketch), (∀ n ∈ l, u3.draft.JumpAt n) → (∀ n ∈ passing, u3.draft.JumpAt n) →
      u3.At 0 bs hs → Goes true (rest l) u3 fun l u' => (∀ n ∈ l, u'.draft.JumpAt n) ∧ u'.At 0 bs hs := by
    intro l u3 hl hp hu3
    exact (Goes.patchHere hp).resting.bind fun _ u4 hsteps4 h4 =>
      pure ⟨fun n hn => hsteps4.jumpAt (hl n hn), hu3.rests h4.2⟩
  have hleave : Goes true (do
      let j ← jump
      rest (← joinJumps leaving j)) u2 fun l u' => (∀ n ∈ l, u'.draft.JumpAt n) ∧ u'.At 0 bs hs := by
    refine Goes.jump.resting.bind fun j u3 hsteps3 h3 => (Goes.joinJumps leaving j).bind ?_
    rintro _ u4 - ⟨rfl, rfl⟩
    refine hrest _ u4 (fun n hn => ?_) (fun n hn => hsteps3.jumpAt (hpassing2 n hn)) (h2.1.level.rests h3.2)
    exact (List.mem_append.mp hn).elim (fun hn => hsteps3.jumpAt (hleaving2 n hn)) (h3.1.1 n)
  split
  · exact hleave
  · exact hleave
  · exact hrest leaving u2 hleaving2 hpassing2 h2.1.level

/-- **A branch**: the jumps that leave the statement are given back. -/
theorem Orders.branch {leaving : JumpList} (ho : g.Orders hs) (hg : g.Terms) (hu : u.At 0 bs hs)
    (hleaving : ∀ n ∈ leaving, u.draft.JumpAt n) :
    Goes true (g.branch leaving) u fun l u' => (∀ n ∈ l, u'.draft.JumpAt n) ∧ u'.At 0 bs hs := by
  refine read Reads.next fun _ => hg.expr.resting.bind fun e u1 hsteps1 he => read Reads.checkNext fun _ => ?_
  have hu1 := hu.rests he.2
  have hleaving1 : ∀ n ∈ leaving, u1.draft.JumpAt n := fun n hn => hsteps1.jumpAt (hleaving n hn)
  have hjump : Goes true (do
      let jumps ← Compile.goIfFalse e
      Compile.enterBlock false
      Compile.gotoStatement jumps
      skipSemicolons g.bound
      if ← atBlockEnd false then
        Compile.leaveBlock
        return leaving
      else
        let passing ← jump
        g.branchEnd leaving passing) u1 fun l u' => (∀ n ∈ l, u'.draft.JumpAt n) ∧ u'.At 0 bs hs := by
    refine (Goes.goIfFalse he.1).resting.bind fun jumps u2 hsteps2 h2 => ?_
    refine (Goes.enterBlock false (hu1.rests h2.2)).bind fun _ u3 hsteps3 h3 => ?_
    refine (Goes.gotoStatement fun n hn => hsteps3.jumpAt (h2.1 n hn)).resting.bind fun _ u4 hsteps4 h4 => ?_
    have hready := Sketch.Ready.rests ⟨h3.1, h3.2.1⟩ h4.2 h4.1
    have hall := (hsteps2.trans hsteps3).trans hsteps4
    refine read (skipSemicolons_reads _) fun _ => read Reads.atBlockEnd fun atEnd => ?_
    split
    · refine (Goes.leaveBlock hready.level).bind fun _ u5 hsteps5 h5 => pure ⟨fun n hn => ?_, h5.1.level⟩
      exact Sketch.Steps.jumpAt (hall.trans hsteps5) (hleaving1 n hn)
    · refine Goes.jump.resting.bind fun passing u5 hsteps5 h5 => ?_
      refine ho.branchEnd (hready.rests h5.2 h5.1.2.2.2) (fun n hn => ?_) h5.1.1
      exact Sketch.Steps.jumpAt (hall.trans hsteps5) (hleaving1 n hn)
  refine read Reads.token fun t => ?_
  split
  · exact hjump
  · exact hjump
  · refine (Goes.goIfTrue he.1).resting.bind fun passing u2 hsteps2 h2 => ?_
    refine (Goes.enterBlock false (hu1.rests h2.2)).bind fun _ u3 hsteps3 h3 => ?_
    refine ho.branchEnd ⟨h3.1, h3.2.1⟩ (fun n hn => ?_) fun n hn => hsteps3.jumpAt (h2.1 n hn)
    exact Sketch.Steps.jumpAt (hsteps2.trans hsteps3) (hleaving1 n hn)

theorem Orders.branchesFrom {leaving : JumpList} (ho : g.Orders hs) (hg : g.Terms) (n : Nat) (hu : u.At 0 bs hs)
    (hleaving : ∀ n ∈ leaving, u.draft.JumpAt n) :
    Goes true (g.branchesFrom n leaving) u fun l u' => (∀ n ∈ l, u'.draft.JumpAt n) ∧ u'.At 0 bs hs := by
  induction n generalizing u leaving with
  | zero => exact failNear
  | succ n ih =>
    refine read Reads.token fun t => ?_
    split
    · exact (ho.branch hg hu hleaving).bind fun l u1 _ h1 => ih h1.2 h1.1
    · exact pure ⟨hleaving, hu⟩

theorem Orders.ifStatement (ho : g.Orders hs) (hg : g.Terms) (line : Nat) (hu : u.At 0 bs hs) :
    Goes true (g.ifStatement line) u fun _ u' => u'.At 0 bs hs := by
  refine (ho.branch hg hu fun n hn => absurd hn List.not_mem_nil).bind fun l1 u1 _ h1 => ?_
  refine (ho.branchesFrom hg _ h1.2 h1.1).bind fun l2 u2 _ h2 => read Reads.testNext fun other => ?_
  extract_lets rest
  have hrest : ∀ u3 : Sketch, (∀ n ∈ l2, u3.draft.JumpAt n) → u3.At 0 bs hs →
      Goes true (rest ()) u3 fun _ u' => u'.At 0 bs hs := fun u3 hl hu3 =>
    read Reads.checkMatch fun _ => (Goes.patchHere hl).resting.imp fun _ _ h => hu3.rests h.2
  split
  · exact (ho.block h2.2).bind fun _ u3 hsteps3 h3 => hrest u3 (fun n hn => hsteps3.jumpAt (h2.1 n hn)) h3.level
  · exact hrest u2 h2.1 h2.2

/-! ## 2. Loops -/

/-- **A `while` loop**: while its condition and its body are read its head is kept, the place that is marked first. -/
theorem Orders.whileStatement (ho : g.Orders (u.draft.pc :: hs)) (hg : g.Terms) (line : Nat) (hu : u.At 0 bs hs) :
    Goes true (g.whileStatement line) u fun _ u' => u'.At 0 bs hs := by
  refine closeLoop u.draft.pc (read Reads.next fun _ => Goes.markTarget.bind ?_)
  rintro _ _ - ⟨rfl, rfl⟩
  have hmarked : u.draft.pc ∈ u.marked.targets := List.mem_cons_self
  refine before (.openLoop rfl hmarked) rfl ?_
  have hu1 : Sketch.At { u.marked with heads := u.draft.pc :: u.marked.heads } 0 bs (u.draft.pc :: hs) :=
    ⟨hu.waits, hu.blocks, congrArg _ hu.heads⟩
  refine hg.condition.resting.bind fun leaving u2 hsteps2 h2 => ?_
  refine (Goes.enterBlock true (hu1.rests h2.2)).bind fun _ u3 hsteps3 h3 => read Reads.checkNext fun _ => ?_
  refine (ho.block h3.1).bind fun _ u4 hsteps4 h4 => Goes.jump.resting.bind fun back u5 hsteps5 h5 => ?_
  have hstart := Sketch.Steps.targets_subset (((hsteps2.trans hsteps3).trans hsteps4).trans hsteps5) hmarked
  refine (Goes.patchTo h5.1.1 hstart).resting.bind fun _ u6 hsteps6 h6 => read Reads.checkMatch fun _ => ?_
  refine (Goes.leaveBlock ((h4.level.rests h5.2).rests h6.2)).bind fun _ u7 hsteps7 h7 => ?_
  refine (Goes.patchHere fun n hn => ?_).resting.imp fun _ _ h => h7.1.level.rests h.2
  have hall := (((hsteps3.trans hsteps4).trans hsteps5).trans hsteps6).trans hsteps7
  exact Sketch.Steps.jumpAt hall (h2.1 n hn)

/-- **A `repeat` loop** likewise. -/
theorem Orders.repeatStatement (ho : g.Orders (u.draft.pc :: hs)) (hg : g.Terms) (line : Nat) (hu : u.At 0 bs hs) :
    Goes true (g.repeatStatement line) u fun _ u' => u'.At 0 bs hs := by
  refine closeLoop u.draft.pc (Goes.markTarget.bind ?_)
  rintro _ _ - ⟨rfl, rfl⟩
  have hmarked : u.draft.pc ∈ u.marked.targets := List.mem_cons_self
  refine before (.openLoop rfl hmarked) rfl ?_
  have hu1 : Sketch.At { u.marked with heads := u.draft.pc :: u.marked.heads } 0 bs (u.draft.pc :: hs) :=
    ⟨hu.waits, hu.blocks, congrArg _ hu.heads⟩
  refine (Goes.enterBlock true hu1).bind fun _ u2 hsteps2 h2 => ?_
  refine (Goes.enterBlock false h2.1).bind fun _ u3 hsteps3 h3 => read Reads.next fun _ => ?_
  refine (ho.statements ⟨h3.1, h3.2.1⟩).bind fun _ u4 hsteps4 h4 => read Reads.checkMatch fun _ => ?_
  refine hg.condition.resting.bind fun again u5 hsteps5 h5 => ?_
  have hstart := Sketch.Steps.targets_subset (((hsteps2.trans hsteps3).trans hsteps4).trans hsteps5) hmarked
  have hend : ∀ u6 : Sketch, Sketch.Steps true u5 u6 → u5.Rests u6 → Goes true (do
      Compile.leaveBlock
      Compile.patchTo again u.draft.pc
      Compile.leaveBlock) u6 fun _ u' => u'.At 0 bs (u.draft.pc :: hs) := by
    intro u6 hsteps6 h6
    refine (Goes.leaveBlock ((h4.level.rests h5.2).rests h6)).bind fun _ u7 hsteps7 h7 => ?_
    have hjumps : ∀ n ∈ again, u7.draft.JumpAt n := fun n hn =>
      Sketch.Steps.jumpAt (hsteps6.trans hsteps7) (h5.1 n hn)
    have hstart7 := Sketch.Steps.targets_subset (hsteps6.trans hsteps7) hstart
    refine (Goes.patchTo hjumps hstart7).resting.bind fun _ u8 _ h8 => ?_
    exact (Goes.leaveBlock (h7.1.level.rests h8.2)).imp fun _ _ h => h.1.level
  have hblock : Goes true Compile.innermostBlock u5 fun _ u' => u' = u5 := by
    refine get fun s _ => ?_
    split
    · exact pure rfl
    · exact pure rfl
  refine hblock.bind ?_
  rintro b _ - rfl
  dsimp only
  split
  · exact (Goes.closeOnJump _ h5.1).resting.bind fun _ u6 hsteps6 h6 => hend u6 hsteps6 h6.2
  · exact hend _ .refl (.refl _)

/-- **The body of a `for` loop**: while it is read its head is kept, the place behind the jump into the loop. -/
theorem Orders.forBody {vars : Nat} (ho : g.Orders ((u.draft.pc + 1) :: hs)) (base line : Nat) (numeric : Bool)
    (hu : u.At (vars + 3) bs hs) : Goes true (g.forBody base line vars numeric) u fun _ u' => u'.At 0 bs hs := by
  have hwaits := hu.waits
  refine (Goes.activate (k := 3) (by omega)).bind fun _ u1 _ h1 => read Reads.checkNext fun _ => ?_
  have hu1 := h1.at hu
  have hpc1 : u1.draft.pc = u.draft.pc := by rw [Draft.pc, Draft.pc, h1.code]
  extract_lets body
  have hbody : ∀ entry (u2 : Sketch), u2.At vars bs hs → (∀ n ∈ entry, u2.draft.JumpAt n) → entry.head? = some u.draft.pc →
      u2.draft.pc = u.draft.pc + 1 → Goes true (body entry) u2 fun _ u' => u'.At 0 bs hs := by
    intro entry u2 hu2 hentry hhead hpc2
    have hjump : u2.draft.JumpAt (u2.draft.pc - 1) := by
      rw [hpc2, Nat.add_sub_cancel]
      exact hentry _ (List.mem_of_mem_head? hhead)
    refine closeLoop (u.draft.pc + 1) (before (.enterLoop hjump) rfl ?_)
    have hmem : u.draft.pc + 1 ∈ u2.draft.pc :: u2.targets := hpc2 ▸ List.mem_cons_self
    refine before (.openLoop rfl hmem) rfl ?_
    have hu3 : Sketch.At { u2 with targets := u2.draft.pc :: u2.targets, heads := (u.draft.pc + 1) :: u2.heads } vars bs
        ((u.draft.pc + 1) :: hs) := ⟨hu2.waits, hu2.blocks, congrArg _ hu2.heads⟩
    refine (Goes.enterBlock false hu3).bind fun _ u4 hsteps4 h4 => ?_
    refine (Goes.activate (Nat.le_of_eq h4.1.waits.symm)).bind fun _ u5 hsteps5 h5 => ?_
    have hu5 : u5.At 0 (u2.draft.active :: bs) ((u.draft.pc + 1) :: hs) := h5.at (by rw [Nat.zero_add]; exact h4.1)
    refine (Goes.reserve vars).bind fun _ u6 hsteps6 h6 => ?_
    refine (ho.block (hu5.rests h6.1.rests)).bind fun _ u7 hsteps7 h7 => ?_
    refine (Goes.leaveBlock h7.level).bind fun _ u8 hsteps8 h8 => ?_
    have hall := (((hsteps4.trans hsteps5).trans hsteps6).trans hsteps7).trans hsteps8
    have hentry8 : ∀ n ∈ entry, u8.draft.JumpAt n := fun n hn => Sketch.Steps.jumpAt hall (hentry n hn)
    have hmem8 : u.draft.pc + 1 ∈ u8.targets := Sketch.Steps.targets_subset hall hmem
    refine (Goes.patchHere hentry8).resting.bind fun _ u9 hsteps9 h9 => ?_
    have hu9 := h8.1.level.rests h9.2
    have hmem9 := hsteps9.targets_subset hmem8
    have hentry' : entry.headD 0 + 1 = u.draft.pc + 1 := by rw [List.headD_eq_head?_getD, hhead]; rfl
    extract_lets again
    have hagain : ∀ back (v : Sketch), u9.Rests v → v.draft.JumpAt back → u.draft.pc + 1 ∈ v.targets →
        Goes true (again back) v fun _ u' => u'.At 0 bs ((u.draft.pc + 1) :: hs) := by
      intro back v hv hback hmem
      have hpatch : Goes false (Compile.patchTo [back] (entry.headD 0 + 1)) v fun _ _ => True := by
        rw [hentry']
        refine (Goes.patchTo (fun n hn => ?_) hmem).imp fun _ _ _ => trivial
        rwa [List.mem_singleton.mp hn]
      refine hpatch.resting.bind fun _ v1 _ hv1 => (Goes.ofIdle Idle.fixLine).imp fun _ v2 hv2 => ?_
      exact ((hu9.rests hv).rests hv1.2).rests hv2.rests
    split
    · refine (Goes.emitJump rfl).resting.bind fun back v hsteps hv => hagain back v hv.2 ?_ (hsteps.targets_subset hmem9)
      exact ⟨_, hv.1.instr, by rw [Instr.opcode_ofAsBx]; rfl⟩
    · refine (Goes.writeABC rfl).resting.bind fun _ v1 hsteps1 hv1 => ?_
      refine (Goes.ofIdle Idle.fixLine).bind fun _ v2 hsteps2 hv2 => ?_
      refine (Goes.emitJump rfl).resting.bind fun back v hsteps hv => ?_
      refine hagain back v ((hv1.2.trans hv2.rests).trans hv.2) ⟨_, hv.1.instr, by rw [Instr.opcode_ofAsBx]; rfl⟩ ?_
      exact Sketch.Steps.targets_subset ((hsteps1.trans hsteps2).trans hsteps) hmem9
  split
  · refine (Goes.emitJump rfl).resting.bind fun pc u2 _ h2 => ?_
    refine hbody [pc] u2 (hu1.rests h2.2) (fun n hn => ?_) ?_ ?_
    · rw [List.mem_singleton.mp hn]
      exact ⟨_, h2.1.instr, by rw [Instr.opcode_ofAsBx]; rfl⟩
    · rw [h2.1.place, hpc1]
      rfl
    · rw [h2.1.pc_eq, h2.1.place, hpc1]
  · refine Goes.jump.resting.bind fun entry u2 _ h2 => hbody entry u2 (hu1.rests h2.2) h2.1.1 ?_ ?_
    · rw [h2.1.2.1, hpc1]
    · rw [h2.1.2.2.1, hpc1]

theorem Terms.exprToRegister (hg : g.Terms) : Goes scope g.exprToRegister u fun _ _ => True :=
  hg.expr.bind fun _ _ _ he => discard ((Goes.toNextRegister he).imp fun _ _ _ => trivial)

/-- **A numeric loop** has three hidden locals and one with a name. -/
theorem Orders.forNumeric (ho : ∀ head, g.Orders (head :: hs)) (hg : g.Terms) (name : Bytes) (line : Nat)
    (hu : u.At 0 bs hs) : Goes true (g.forNumeric name line) u fun _ u' => u'.At 0 bs hs := by
  refine get fun s _ => (Goes.declare _ hu).bind fun _ u1 _ h1 => (Goes.declare _ h1.1).bind fun _ u2 _ h2 => ?_
  refine (Goes.declare _ h2.1).bind fun _ u3 _ h3 => (Goes.declare _ h3.1).bind fun _ u4 _ h4 => ?_
  refine read Reads.checkNext fun _ => hg.exprToRegister.resting.bind fun _ u5 _ h5 => ?_
  refine read Reads.checkNext fun _ => hg.exprToRegister.resting.bind fun _ u6 _ h6 => ?_
  have hu6 := (h4.1.rests h5.2).rests h6.2
  refine read Reads.testNext fun step => ?_
  extract_lets rest
  have hrest : ∀ u7 : Sketch, u7.At 4 bs hs → Goes true (rest ()) u7 fun _ u' => u'.At 0 bs hs := fun u7 hu7 =>
    (ho _).forBody _ line true hu7
  split
  · exact hg.exprToRegister.resting.bind fun _ u7 _ h7 => hrest u7 (hu6.rests h7.2)
  · refine get fun s _ => (Goes.ofIdle Idle.addConstant).bind fun k u7 _ h7 => ?_
    refine (Goes.loadConstant _ k).resting.bind fun _ u8 _ h8 => (Goes.reserve 1).bind fun _ u9 _ h9 => ?_
    exact hrest u9 (((hu6.rests h7.rests).rests h8.2).rests h9.1.rests)

theorem namesFrom_goes (n count : Nat) {k : Nat} (hu : u.At (k + count) bs hs) :
    Goes true (namesFrom n count) u fun c u' => u'.At (k + c) bs hs ∧ count ≤ c ∧ u'.draft.free = u.draft.free ∧
      u'.draft.active = u.draft.active := by
  induction n generalizing u count with
  | zero => exact failNear
  | succ n ih =>
    refine read Reads.testNext fun more => ?_
    split
    · refine read Reads.checkName fun name => (Goes.declare name hu).bind fun _ u1 _ h1 => ?_
      refine (ih (count + 1) h1.1).imp fun c u' h => ⟨h.1, Nat.le_of_succ_le h.2.1, h.2.2.1.trans h1.2.1, ?_⟩
      exact h.2.2.2.trans h1.2.2.1
    · exact pure ⟨hu, Nat.le_refl _, rfl, rfl⟩

theorem adjust_goes (vars exprs : Nat) (he : e.Fit u) : Goes scope (adjust vars exprs e) u fun _ _ => True := by
  unfold adjust
  extract_lets surplus wanted missing
  have hsurplus : ∀ u1, Goes scope (surplus ()) u1 fun _ _ => True := by
    intro u1
    show Goes scope (if vars < exprs then _ else _) _ _
    split
    · exact demanding fun _ => (Goes.ofIdle (Idle.modifyFn fun _ => .rest rfl)).imp fun _ _ _ => trivial
    · exact pure trivial
  have hmissing : ∀ u1, Goes scope (missing ()) u1 fun _ _ => True := by
    intro u1
    show Goes scope (if exprs < vars then _ else _) _ _
    split
    · next hlt =>
      refine get fun s hs => ?_
      rw [hs]
      refine (Goes.reserve (vars - exprs)).bind fun _ u2 _ h2 => ?_
      refine (Goes.loadNil (by omega) (by omega)).bind fun _ u3 _ _ => hsurplus u3
    · exact hsurplus u1
  split
  · refine (Goes.setReturns (some wanted) he).bind fun _ u1 _ _ => ?_
    split
    · exact (Goes.ofIdle Idle.reserve).bind fun _ u2 _ _ => hsurplus u2
    · exact hsurplus u1
  · split
    · exact (discard (P := fun _ _ => True) (Goes.toNextRegister he)).bind fun _ u1 _ _ => hmissing u1
    · exact hmissing u

/-- **A loop over an iterator** has three hidden locals and one or more with names. -/
theorem Orders.forGeneric (ho : ∀ head, g.Orders (head :: hs)) (hg : g.Terms) (name : Bytes) (hu : u.At 0 bs hs) :
    Goes true (g.forGeneric name) u fun _ u' => u'.At 0 bs hs := by
  refine get fun s _ => (Goes.declare _ hu).bind fun _ u1 _ h1 => (Goes.declare _ h1.1).bind fun _ u2 _ h2 => ?_
  refine (Goes.declare _ h2.1).bind fun _ u3 _ h3 => (Goes.declare _ h3.1).bind fun _ u4 _ h4 => ?_
  refine (namesFrom_goes (k := 3) _ 1 h4.1).bind fun vars u5 _ h5 => read Reads.checkNext fun _ => ?_
  refine read Reads.line fun line => hg.exprs.resting.bind fun r u6 _ h6 => ?_
  refine (adjust_goes 3 r.1 h6.1).resting.bind fun _ u7 _ h7 => ?_
  refine (Goes.ofIdle Idle.checkStack).bind fun _ u8 _ h8 => (ho _).forBody _ line false ?_
  rw [Nat.add_comm]
  exact ((h5.1.rests h6.2).rests h7.2).rests h8.rests

theorem Orders.forStatement (ho : ∀ head, g.Orders (head :: hs)) (hg : g.Terms) (line : Nat) (hu : u.At 0 bs hs) :
    Goes true (g.forStatement line) u fun _ u' => u'.At 0 bs hs := by
  refine (Goes.enterBlock true hu).bind fun _ u1 _ h1 => read Reads.next fun _ => read Reads.checkName fun name => ?_
  refine read Reads.token fun t => ?_
  extract_lets rest
  have hrest : ∀ u2 : Sketch, u2.At 0 (u.draft.active :: bs) hs → Goes true (rest ()) u2 fun _ u' => u'.At 0 bs hs :=
    fun u2 hu2 => read Reads.checkMatch fun _ => (Goes.leaveBlock hu2).imp fun _ _ h => h.1.level
  split
  · exact (Orders.forNumeric ho hg name line h1.1).bind fun _ u2 _ h2 => hrest u2 h2
  · exact (Orders.forGeneric ho hg name h1.1).bind fun _ u2 _ h2 => hrest u2 h2
  · exact (Orders.forGeneric ho hg name h1.1).bind fun _ u2 _ h2 => hrest u2 h2
  · exact Goes.bind (P := fun _ _ => False) failNear fun _ _ _ h => h.elim

/-! ## 3. Functions and locals -/

theorem fieldsFrom_goes (n : Nat) (he : e.Fit u) : Goes scope (fieldsFrom n e) u fun e' u' => e'.Fit u' := by
  induction n generalizing u e with
  | zero => exact failNear
  | succ n ih =>
    refine read Reads.token fun t => ?_
    split
    · exact (field_goes he).bind fun e' u1 _ he' => ih he'
    · exact pure he

theorem Terms.functionStatement (hg : g.Terms) (ho : g.Orders []) (line : Nat) :
    Goes scope (g.functionStatement line) u fun _ _ => True := by
  refine read Reads.next fun _ => read Reads.checkName fun name => (hg.name scope name u).bind fun e u1 _ he => ?_
  refine (fieldsFrom_goes _ he).bind fun e' u2 _ he' => read Reads.token fun t => ?_
  extract_lets isMethod rest
  have hrest : ∀ (e : Expr) (u3 : Sketch), e.Fit u3 → Goes scope (rest e) u3 fun _ _ => True := by
    refine fun e u3 he => (ho.functionBody isMethod line).bind fun reg u4 _ _ => ?_
    refine (Goes.storeVariable (Expr.fit_inert rfl u4) he.place.small).bind fun _ u5 _ _ => ?_
    exact (Goes.ofIdle Idle.fixLine).imp fun _ _ _ => trivial
  split
  · exact (field_goes he').bind fun e3 u3 _ he3 => hrest e3 u3 he3
  · exact hrest e' u2 he'

/-- **A local function**: its life begins when it is there. -/
theorem Orders.localFunction (ho : g.Orders []) (hu : u.At 0 bs hs) :
    Goes true g.localFunction u fun _ u' => u'.At 0 bs hs := by
  refine get fun s hs' => ?_
  rw [hs']
  refine read Reads.checkName fun name => (Goes.declare name hu).bind fun _ u1 _ h1 => ?_
  obtain ⟨hu1, -, hactive1, hdeclared1, hsize1⟩ := h1
  refine (Goes.activate (Nat.le_of_eq hu1.waits.symm)).bind fun _ u2 _ h2 => read Reads.line fun line => ?_
  have hu2 := h2.at hu1
  refine (discard (P := fun _ _ => True) (ho.functionBody false line)).resting.bind fun _ u3 _ h3 => ?_
  have hu3 := hu2.rests h3.2
  have hdeclared : u3.draft.declared = u.draft.declared.push u.draft.locals.size :=
    (h3.2.declared.trans h2.declared).trans hdeclared1
  have hsize : u3.draft.locals.size = u.draft.locals.size + 1 := by rw [h3.2.locals, h2.size, hsize1]
  refine Goes.beginAgain hu3 ?_ hu3.waits.symm ?_
  · rw [hdeclared, Array.size_push, hu.waits, Nat.add_zero]
  · rw [hdeclared, hsize, Nat.add_sub_cancel, ← hu.waits.trans (Nat.add_zero _)]
    exact Array.getElem?_push_size

theorem Terms.localStatement (hg : g.Terms) (hu : u.At 0 bs hs) :
    Goes true g.localStatement u fun _ u' => u'.At 0 bs hs := by
  refine read Reads.checkName fun name => (Goes.declare name hu).bind fun _ u1 _ h1 => ?_
  refine (namesFrom_goes (k := 0) _ 1 h1.1).bind fun vars u2 _ h2 => read Reads.testNext fun values => ?_
  extract_lets rest
  have hrest : ∀ r (u3 : Sketch), r.2.Fit u3 → u3.At (0 + vars) bs hs → Goes true (rest r) u3 fun _ u' => u'.At 0 bs hs := by
    refine fun r u3 hr hu3 => (adjust_goes vars r.1 hr).resting.bind fun _ u4 _ h4 => ?_
    have hu4 := hu3.rests h4.2
    have hwaits := hu4.waits
    exact (Goes.activate (by omega)).imp fun _ u5 h5 => h5.at hu4
  split
  · exact hg.exprs.resting.bind fun r u3 _ hr => hrest r u3 hr.1 (h2.1.rests hr.2)
  · exact hrest (0, .plain .void) u2 (Expr.fit_inert rfl u2) h2.1

/-! ## 4. Assignments, labels and returns -/

def Storable (es : List Expr) : Prop := ∀ e ∈ es, ∀ r, e.place = .localVar r → r < 255

theorem storable_avoidConflict {copy : Nat} {assigned : Place} {target : Expr}
    (h : ∀ r, target.place = .localVar r → r < 255) (r : Nat)
    (hr : (avoidConflict copy assigned target).1.place = .localVar r) : r < 255 := by
  unfold avoidConflict at hr
  split at hr
  · cases hr
  · exact h r hr

theorem checkConflict_goes (assigned : Place) {targets : List Expr} (ht : Storable targets) :
    Goes scope (checkConflict assigned targets) u fun es _ => Storable es := by
  refine get fun s _ => ?_
  extract_lets copy checked
  have hchecked : Storable (checked.map (·.1)) := by
    intro e he r hr
    obtain ⟨r', hr', rfl⟩ := List.mem_map.mp he
    obtain ⟨target, htarget, rfl⟩ := List.mem_map.mp hr'
    exact storable_avoidConflict (ht target htarget) r hr
  split
  · split
    · exact (Goes.writeABC rfl).bind fun _ u1 _ _ => (Goes.ofIdle Idle.reserve).bind fun _ _ _ _ => pure hchecked
    · exact (Goes.writeABC rfl).bind fun _ u1 _ _ => (Goes.ofIdle Idle.reserve).bind fun _ _ _ _ => pure hchecked
    · exact pure hchecked
  · exact pure hchecked

theorem Terms.nextTarget (hg : g.Terms) {k : Expr → List Expr → Compile (List Expr)} {earlier : List Expr}
    (hk : ∀ e targets u', (∀ r, e.place = .localVar r → r < 255) → Storable targets →
      Goes scope (k e targets) u' fun es _ => Storable es)
    (he : ∀ r, e.place = .localVar r → r < 255) (ht : Storable earlier) : Goes scope (do
      if e.place.isVariable then
        if ← testNext (.symbol .comma) then
          let e' ← g.suffixed
          let targets ←
            match e'.place with
            | .indexed .. => Pure.pure (e :: earlier)
            | p => checkConflict p (e :: earlier)
          k e' targets
        else return e :: earlier
      else Compile.failNear .notAStatement) u fun es _ => Storable es := by
  have htargets : Storable (e :: earlier) := List.forall_mem_cons.mpr ⟨he, ht⟩
  split
  · refine read Reads.testNext fun comma => ?_
    split
    · refine hg.suffixed.bind fun e' u1 _ he' => ?_
      split
      · exact hk e' _ u1 he'.place.small htargets
      · exact (checkConflict_goes _ htargets).bind fun targets u2 _ h2 => hk e' targets u2 he'.place.small h2
    · exact pure htargets
  · exact failNear

theorem Terms.targetsFrom (hg : g.Terms) (left : Nat) {earlier : List Expr}
    (he : ∀ r, e.place = .localVar r → r < 255) (ht : Storable earlier) :
    Goes scope (g.targetsFrom left e earlier) u fun es _ => Storable es := by
  induction left generalizing u e earlier with
  | zero => exact hg.nextTarget (k := fun _ _ => Compile.failNear .tooDeep) (fun _ _ _ _ _ => failNear) he ht
  | succ left ih => exact hg.nextTarget (k := g.targetsFrom left) (fun _ _ _ he ht => ih he ht) he ht

theorem storeAll_goes {targets : List Expr} (ht : Storable targets) : Goes scope (storeAll targets) u fun _ _ => True := by
  induction targets generalizing u with
  | nil => exact pure trivial
  | cons t rest ih =>
    obtain ⟨ht1, hrest⟩ := List.forall_mem_cons.mp ht
    refine (Goes.ofIdle Idle.topRegister).bind fun reg u1 _ _ => ?_
    exact (Goes.storeVariable (Expr.fit_inert rfl u1) ht1).bind fun _ u2 _ _ => ih hrest

/-- **An assignment.** -/
theorem Terms.assignment (hg : g.Terms) (he : e.Fit u) : Goes scope (g.assignment e) u fun _ _ => True := by
  refine (hg.targetsFrom g.left he.place.small fun _ h => absurd h List.not_mem_nil).bind fun targets u1 _ ht => ?_
  refine read Reads.checkNext fun _ => hg.exprs.bind fun r u2 _ hr => ?_
  dsimp only
  split
  · refine (Goes.setOneReturn hr).bind fun e1 u3 _ h1 => ?_
    cases targets with
    | nil => exact pure trivial
    | cons t rest =>
      obtain ⟨ht1, hrest⟩ := List.forall_mem_cons.mp ht
      exact (Goes.storeVariable h1.1 ht1).bind fun _ u4 _ _ => storeAll_goes hrest
  · exact (adjust_goes _ r.1 hr).bind fun _ u3 _ _ => storeAll_goes ht

theorem Terms.exprStatement (hg : g.Terms) : Goes scope g.exprStatement u fun _ _ => True := by
  refine hg.suffixed.bind fun e u1 _ he => read Reads.token fun t => ?_
  split
  · exact hg.assignment he
  · exact hg.assignment he
  · split
    · next pc hp =>
      have hfirm := (he.place.calls pc hp).imp fun _ => Instr.Calls.firm
      exact (Goes.setOperands (g := fun _ i => i.setC 1) hfirm fun _ _ => rfl).imp fun _ _ _ => trivial
    · exact failNear

theorem Orders.skipNoOps (ho : g.Orders hs) (n : Nat) (hu : u.Ready bs hs) :
    Goes true (g.skipNoOps n) u fun _ u' => u'.Ready bs hs := by
  induction n generalizing u with
  | zero => exact failNear
  | succ n ih =>
    refine read Reads.token fun t => ?_
    split
    · exact (ho u bs hu).bind fun _ u1 _ h1 => ih h1
    · exact (ho u bs hu).bind fun _ u1 _ h1 => ih h1
    · exact pure hu

/-- **A label** stands where jumps may go. -/
theorem Orders.labelStatement (ho : g.Orders hs) (name : Bytes) (line : Nat) (hu : u.Ready bs hs) :
    Goes true (g.labelStatement name line) u fun _ u' => u'.At 0 bs hs := by
  refine get fun s _ => ?_
  split
  · exact failPlain
  · refine read Reads.checkNext fun _ => Goes.markTarget.bind ?_
    rintro _ _ - ⟨rfl, rfl⟩
    have hmarked : u.draft.pc ∈ u.marked.targets := List.mem_cons_self
    have hu1 : u.marked.Ready bs hs := ⟨⟨hu.level.waits, hu.level.blocks, hu.level.heads⟩, hu.free⟩
    refine get fun s _ => ?_
    extract_lets index label rest
    refine (Goes.noteLabels (f := fun ls => ls ++ [label]) fun l hl => ?_).resting.bind fun _ u2 hsteps2 h2 => ?_
    · rcases List.mem_append.mp hl with hl | hl
      · exact .inl hl
      · rw [List.mem_singleton.mp hl]
        exact .inr hmarked
    refine (ho.skipNoOps _ (hu1.rests h2.2 h2.1.1)).bind fun _ u3 hsteps3 h3 => ?_
    have hmarked3 := Sketch.Steps.targets_subset (hsteps2.trans hsteps3) hmarked
    have hrest : ∀ l : Label, l.pc = u.draft.pc → Goes true (rest l) u3 fun _ u' => u'.At 0 bs hs := by
      intro l hl
      refine (Goes.noteLabels (f := fun ls => ls.set index l) fun l' hl' => ?_).resting.bind fun _ u4 hsteps4 h4 => ?_
      · rcases List.mem_or_eq_of_mem_set hl' with hl' | rfl
        · exact .inl hl'
        · exact .inr (hl ▸ hmarked3)
      · have hlabel : l.pc ∈ u4.targets := hl ▸ hsteps4.targets_subset hmarked3
        exact (Goes.closeGotos hlabel).resting.imp fun _ u5 h5 => (h3.level.rests h4.2).rests h5.2
    refine read Reads.atBlockEnd fun atEnd => ?_
    split
    · have hblock : Goes true Compile.innermostBlock u3 fun _ u' => u' = u3 := by
        refine get fun s _ => ?_
        split
        · exact pure rfl
        · exact pure rfl
      refine hblock.bind ?_
      rintro b _ - rfl
      exact hrest _ rfl
    · exact hrest label rfl

theorem setTailCall_goes {pc : Nat} (hpc : u.draft.HoldsAt pc Instr.Calls) :
    Goes scope (Compile.modifyFn fun d => d.mapInstr pc fun i => i.setOp .tailCall) u fun _ _ => True := by
  refine (Goes.mapInstr (n := fun _ => pc) fun i hi => ?_).imp fun _ _ _ => trivial
  obtain ⟨j, hj, hcall | htail⟩ := hpc
  · rw [hi] at hj
    cases hj
    exact .tail hcall (Instr.opcode_setOp ..)
  · rw [hi] at hj
    cases hj
    exact .operands (by rw [htail]; rfl) (by rw [Instr.opcode_setOp, htail])

theorem Terms.returnStatement (hg : g.Terms) : Goes scope g.returnStatement u fun _ _ => True := by
  refine read Reads.atBlockEnd fun atEnd => read Reads.token fun t => ?_
  extract_lets rest
  have hrest : ∀ u1, Goes scope (rest ()) u1 fun _ _ => True := fun u1 =>
    discard (Goes.ofReads Reads.testNext fun _ => trivial)
  have hreturn : ∀ first n u1, Goes scope (do
      Compile.emitReturn first n
      rest ()) u1 fun _ _ => True := fun first n u1 =>
    (Goes.emitReturn first n).bind fun _ u2 _ _ => hrest u2
  split
  · exact hreturn _ _ u
  · refine hg.exprs.bind fun r u1 _ hr => get fun s _ => ?_
    extract_lets active
    split
    · refine (Goes.setReturns none hr).bind fun _ u2 _ h2 => ?_
      split
      · next pc hp _ =>
        exact (setTailCall_goes (h2.place.calls pc hp)).bind fun _ u3 _ _ => demanding fun _ => hreturn _ _ u3
      · exact hreturn _ _ u2
    · split
      · exact (Goes.toAnyRegister hr).bind fun reg u2 _ _ => hreturn reg _ u2
      · refine (discard (P := fun _ _ => True) (Goes.toNextRegister hr)).bind fun _ u2 _ _ => ?_
        exact demanding fun _ => hreturn _ _ u2

/-! ## 5. The grammar -/

/-- **A statement is read by steps**, and only locals hold registers behind it. -/
theorem Orders.statementBody (ho : ∀ hs, g.Orders hs) (hg : g.Terms) (hs : List Nat) (hu : u.Ready bs hs) :
    Goes true g.statementBody u fun _ u' => u'.Ready bs hs := by
  refine read Reads.line fun line => read Reads.token fun t => ?_
  extract_lets rest
  have hrest : ∀ u1 : Sketch, u1.At 0 bs hs → Goes true (rest ()) u1 fun _ u' => u'.Ready bs hs := fun u1 hu1 =>
    demanding fun _ => note (Draft.Resembles.rest rfl).keeps rfl ⟨⟨hu1.waits, hu1.blocks, hu1.heads⟩, rfl⟩
  have hat := hu.level
  have hquiet : ∀ {α : Type} {x : Compile α} (P : α → Sketch → Prop), Goes false x u P →
      Goes true (x >>= fun _ => rest ()) u fun _ u' => u'.Ready bs hs := fun _ h =>
    h.resting.bind fun _ u1 _ h1 => hrest u1 (hat.rests h1.2)
  have hjump : Goes true (do
      let jumps ← Compile.jump
      Compile.gotoStatement jumps
      rest ()) u fun _ u' => u'.Ready bs hs := by
    refine Goes.jump.resting.bind fun l u1 _ h1 => (Goes.gotoStatement h1.1.1).resting.bind fun _ u2 _ h2 => ?_
    exact hrest u2 ((hat.rests h1.2).rests h2.2)
  split
  · exact read Reads.next fun _ => hrest u hat
  · exact ((ho hs).ifStatement hg line hat).bind fun _ u1 _ h1 => hrest u1 h1
  · exact ((ho _).whileStatement hg line hat).bind fun _ u1 _ h1 => hrest u1 h1
  · exact read Reads.next fun _ => ((ho hs).block hat).bind fun _ u1 _ h1 => read Reads.checkMatch fun _ =>
      hrest u1 h1.level
  · exact (Orders.forStatement (fun _ => ho _) hg line hat).bind fun _ u1 _ h1 => hrest u1 h1
  · exact ((ho _).repeatStatement hg line hat).bind fun _ u1 _ h1 => hrest u1 h1
  · exact hquiet _ (hg.functionStatement (ho []) line)
  · refine read Reads.next fun _ => read Reads.testNext fun isFunction => ?_
    split
    · exact ((ho []).localFunction hat).bind fun _ u1 _ h1 => hrest u1 h1
    · exact (hg.localStatement hat).bind fun _ u1 _ h1 => hrest u1 h1
  · refine read Reads.next fun _ => read Reads.checkName fun name => ?_
    exact ((ho hs).labelStatement name line hu).bind fun _ u1 _ h1 => hrest u1 h1
  · exact read Reads.next fun _ => hquiet _ hg.returnStatement
  · exact hjump
  · exact hjump
  · exact hquiet _ hg.exprStatement

/-- **Statements and expressions at any depth.** -/
theorem orders_ofLevels (bound n : Nat) : (∀ hs, (ofLevels Compile.named bound n).Orders hs) ∧
    (ofLevels Compile.named bound n).Terms := by
  induction n with
  | zero => exact ⟨fun _ _ _ _ => failNear, fun _ _ _ => failNear, fun _ name _ => Goes.named name⟩
  | succ n ih =>
    exact ⟨fun hs _ _ hu => Orders.statementBody ih.1 ih.2 hs hu, fun _ limit _ => ih.2.expressionBody (ih.1 []) limit,
      fun _ name _ => Goes.named name⟩

/-- **The main function is read by steps** from its beginning, and all its locals have ended. -/
theorem Orders.mainFunction (ho : g.Orders []) :
    Goes true g.mainFunction (Sketch.new 0) fun _ u' => u'.draft.declared = #[] := by
  have hnew : (Sketch.new 0).At 0 [] [] := ⟨rfl, rfl, rfl⟩
  refine (Goes.enterBlock false hnew).bind fun _ u1 _ h1 => ?_
  refine (note (P := fun _ u' => u'.Ready [0] []) (Draft.Resembles.rest rfl).keeps rfl
    ⟨⟨h1.1.waits, h1.1.blocks, h1.1.heads⟩, h1.2.1⟩).bind fun _ u2 _ h2 => ?_
  refine (ho.statements h2).bind fun _ u3 _ h3 => read Reads.check fun _ => ?_
  refine (Goes.emitReturn 0 (some 0)).resting.bind fun _ u4 _ h4 => ?_
  refine (Goes.leaveBlock (h3.level.rests h4.2)).imp fun _ u5 h5 => Array.eq_empty_of_size_eq_zero ?_
  rw [h5.1.level.waits, h5.2]

end LuaMachine.Grammar

namespace LuaMachine

/-- **Every function of a compiled program** has been reached by steps, and all its locals have ended. -/
theorem wrought_of_compile {source : Bytes} {name : String} {p : Proto} (h : compile source name = .ok p) :
    p.All Proto.Wrought := by
  unfold compile compileWith at h
  split at h
  · cases h
  · cases h
  · next first rest fault _ =>
    extract_lets chunk g full at h
    obtain ⟨ho, -⟩ := Grammar.orders_ofLevels (rest.length + 2) Compile.maxLevels
    split at h
    · next s hrun =>
      cases h
      obtain ⟨u, hs, hpasses, hdeclared⟩ :=
        (ho []).mainFunction (Sketch.sound_new 0) ⟨first, rest, fault, 1, _, full, Draft.new 0, []⟩ () s rfl hrun
      rw [hs]
      refine .mk ⟨u, full, ⟨0, hpasses.steps⟩, hdeclared, rfl⟩ fun q hq => ?_
      refine (hpasses.protos q (Array.mem_toList_iff.mp hq)).resolve_left fun hnew => ?_
      simp [Sketch.new, Draft.new] at hnew
    · cases h

end LuaMachine
