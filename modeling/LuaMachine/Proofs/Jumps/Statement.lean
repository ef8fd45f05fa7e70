/-
  STATEMENTS USE UP THE JUMPS THEY WRITE. The jumps out of a loop and behind a condition are kept beside
  what the body does, and arrive when it has been read. Only gotos wait longer, in their draft.

  * `faithful_ofLevels` -- **any statement, any expression, any depth**.
-/
import LuaMachine.Proofs.Jumps.Expression
import LuaMachine.Proofs.Registers.Statement

namespace LuaMachine.Grammar

open Compile Compile.Courses

variable {g : Grammar} {w : Drafts} {e : Expr}

/-! ## 1. Conditionals -/

theorem Faithful.block (hg : g.Faithful) : Consumes g.block [] := fun _ =>
  still Still.enterBlock fun _ w1 _ => (hg.statements w1).along fun _ w2 _ => leaveBlock w2

theorem Faithful.condition (hg : g.Faithful) : Courses g.condition w [] (fun l => [l]) fun _ _ => True := by
  refine hg.expr.next fun e w1 he => ?_
  split
  · next hp =>
    have hknown := Moves.goIfTrue (Expr.apt_of_value (e := { e with place := .bool false }) rfl w1.fn)
    have hlists : ({ e with place := .bool false } : Expr).lists = e.lists := by
      rw [Expr.lists, Expr.lists, hp]
      rfl
    rw [hlists] at hknown
    exact ofMoves hknown
  · exact ofMoves (Moves.goIfTrue he)

theorem skipSemicolons_reads (n : Nat) : Reads (skipSemicolons n) := by
  induction n with
  | zero => exact Reads.failNear
  | succ n ih =>
    refine Reads.testNext.bind fun more => ?_
    split
    · exact ih
    · exact Reads.pure

/-- **The end of a branch**: the jumps that pass it arrive, a jump that leaves the statement comes to the others. -/
theorem Faithful.branchEnd (hg : g.Faithful) (leaving passing : JumpList) :
    Courses (g.branchEnd leaving passing) w [leaving, passing] (fun l => [l]) fun _ _ => True := by
  refine (hg.statements w).along fun _ w1 _ => (leaveBlock w1).along fun _ w2 _ => read Reads.token fun t => ?_
  extract_lets rest
  have hrest : ∀ l w3, Courses (rest l) w3 [l, passing] (fun l => [l]) fun _ _ => True := fun l w3 =>
    (ofMoves (Moves.patchHere passing)).andThen (K := [l]) (by grind) fun _ _ _ => pure (.refl _) trivial
  have hleave : Courses (do
      let j ← jump
      rest (← joinJumps leaving j)) w2 [leaving, passing] (fun l => [l]) fun _ _ => True := by
    refine (ofMoves Moves.jump).beside fun j w3 _ => ?_
    exact (ofMoves (Moves.joinJumps leaving j)).andThen (K := [passing]) (by grind) fun l w4 _ => hrest l w4
  split
  · exact hleave
  · exact hleave
  · exact hrest leaving w2

/-- **A branch**: the jumps that leave the statement are given back. -/
theorem Faithful.branch (hg : g.Faithful) (leaving : JumpList) :
    Courses (g.branch leaving) w [leaving] (fun l => [l]) fun _ _ => True := by
  refine read Reads.next fun _ => hg.expr.beside fun e w1 he => read Reads.checkNext fun _ => ?_
  have hjump : Courses (do
      let jumps ← goIfFalse e
      Compile.enterBlock false
      Compile.gotoStatement jumps
      skipSemicolons g.bound
      if ← atBlockEnd false then
        Compile.leaveBlock
        return leaving
      else
        let passing ← jump
        g.branchEnd leaving passing) w1 (e.lists ++ [leaving]) (fun l => [l]) fun _ _ => True := by
    refine (ofMoves (Moves.goIfFalse he)).andThen (K := [leaving]) (.refl _) fun jumps w2 _ => ?_
    refine still Still.enterBlock fun _ w3 _ => ?_
    refine (gotoStatement jumps w3).andThen (K := [leaving]) (.refl _) fun _ w4 _ => ?_
    refine read (skipSemicolons_reads _) fun _ => read Reads.atBlockEnd fun atEnd => ?_
    split
    · exact (leaveBlock w4).along fun _ _ _ => pure (.refl _) trivial
    · refine (ofMoves Moves.jump).beside fun passing w5 _ => ?_
      exact (hg.branchEnd leaving passing).taking (by grind)
  refine read Reads.token fun t => ?_
  split
  · exact hjump
  · exact hjump
  · refine (ofMoves (Moves.goIfTrue he)).andThen (K := [leaving]) (.refl _) fun passing w2 _ => ?_
    refine still Still.enterBlock fun _ w3 _ => ?_
    exact (hg.branchEnd leaving passing).taking (by grind)

theorem Faithful.branchesFrom (hg : g.Faithful) (n : Nat) (leaving : JumpList) :
    Courses (g.branchesFrom n leaving) w [leaving] (fun l => [l]) fun _ _ => True := by
  induction n generalizing w leaving with
  | zero => exact failNear
  | succ n ih =>
    refine read Reads.token fun t => ?_
    split
    · exact (hg.branch leaving).next fun l w1 _ => ih l
    · exact pure (.refl _) trivial

theorem Faithful.ifStatement (hg : g.Faithful) (line : Nat) : Consumes (g.ifStatement line) [] := by
  intro w
  refine ((hg.branch []).taking (by grind)).next fun l1 w1 _ => ?_
  refine (hg.branchesFrom _ l1).next fun l2 w2 _ => read Reads.testNext fun other => ?_
  extract_lets rest
  have hrest : ∀ w3, Courses (rest ()) w3 [l2] (fun _ => []) fun _ _ => True := fun w3 =>
    read Reads.checkMatch fun _ => ofMoves (Moves.patchHere l2)
  split
  · exact (hg.block w2).along fun _ w3 _ => hrest w3
  · exact hrest w2

/-! ## 2. Loops -/

theorem Faithful.whileStatement (hg : g.Faithful) (line : Nat) : Consumes (g.whileStatement line) [] := by
  refine fun w => read Reads.next fun _ => still Still.markTarget fun start w1 _ => ?_
  refine hg.condition.next fun leaving w2 _ => still Still.enterBlock fun _ w3 _ => read Reads.checkNext fun _ => ?_
  refine (hg.block w3).along fun _ w4 _ => (ofMoves Moves.jump).beside fun back w5 _ => ?_
  refine (ofMoves (Moves.patchTo back start)).andThen (K := [leaving]) (.refl _) fun _ w6 _ => ?_
  refine read Reads.checkMatch fun _ => (leaveBlock w6).along fun _ w7 _ => ?_
  exact ofMoves (Moves.patchHere leaving)

theorem Faithful.repeatStatement (hg : g.Faithful) (line : Nat) : Consumes (g.repeatStatement line) [] := by
  refine fun w => still Still.markTarget fun start w1 _ => still Still.enterBlock fun _ w2 _ => ?_
  refine still Still.enterBlock fun _ w3 _ => read Reads.next fun _ => (hg.statements w3).along fun _ w4 _ => ?_
  refine read Reads.checkMatch fun _ => hg.condition.next fun again w5 _ => ?_
  refine still Still.innermostBlock fun b w6 _ => ?_
  have hend : ∀ w7, Courses (do
      Compile.leaveBlock
      patchTo again start
      Compile.leaveBlock) w7 [again] (fun _ => []) fun _ _ => True := fun w7 =>
    (leaveBlock w7).along fun _ w8 _ => (ofMoves (Moves.patchTo again start)).next fun _ w9 _ => leaveBlock w9
  dsimp only
  split
  · exact (ofMoves (Moves.closeOnJump again _)).next fun _ w7 _ => hend w7
  · exact hend w6

/-- **The body of a `for` loop**: the jump that enters it arrives behind it, the jump back is aimed at it. -/
theorem Faithful.forBody (hg : g.Faithful) (base line vars : Nat) (numeric : Bool) :
    Consumes (g.forBody base line vars numeric) [] := by
  refine fun w => still (Still.activate 3) fun _ w1 _ => read Reads.checkNext fun _ => ?_
  extract_lets body
  have hbody : ∀ entry w2, Courses (body entry) w2 [entry] (fun _ => []) fun _ _ => True := by
    refine fun entry w2 => still Still.enterBlock fun _ w3 _ => still (Still.activate vars) fun _ w4 _ => ?_
    refine still Still.reserve fun _ w5 _ => (hg.block w5).along fun _ w6 _ => (leaveBlock w6).along fun _ w7 _ => ?_
    refine (ofMoves (Moves.patchHere entry)).next fun _ w8 _ => ?_
    extract_lets again
    have hagain : ∀ back w9, Courses (again back) w9 [[back]] (fun _ => []) fun _ _ => True := fun back w9 =>
      (ofMoves (Moves.patchTo [back] _)).next fun _ w10 _ => ofStill Still.fixLine
    split
    · exact (ofMoves (Moves.emitJump rfl)).next fun back w9 _ => hagain back w9
    · refine (ofMoves (Moves.writeABC (by decide))).next fun _ w9 _ => still Still.fixLine fun _ w10 _ => ?_
      exact (ofMoves (Moves.emitJump rfl)).next fun back w11 _ => hagain back w11
  split
  · exact (ofMoves (Moves.emitJump rfl)).next fun pc w2 _ => hbody [pc] w2
  · exact (ofMoves Moves.jump).next fun entry w2 _ => hbody entry w2

theorem Faithful.exprToRegister (hg : g.Faithful) : Consumes g.exprToRegister [] := fun _ =>
  hg.expr.next fun _ _ he => he.stored

theorem Faithful.forNumeric (hg : g.Faithful) (name : Bytes) (line : Nat) : Consumes (g.forNumeric name line) [] := by
  refine fun w => get fun s _ => still Still.declare fun _ w1 _ => still Still.declare fun _ w2 _ => ?_
  refine still Still.declare fun _ w3 _ => still Still.declare fun _ w4 _ => read Reads.checkNext fun _ => ?_
  refine (hg.exprToRegister w4).along fun _ w5 _ => read Reads.checkNext fun _ => ?_
  refine (hg.exprToRegister w5).along fun _ w6 _ => read Reads.testNext fun step => ?_
  extract_lets rest
  have hrest : Consumes (rest ()) [] := fun w7 => hg.forBody _ line 1 true w7
  split
  · exact (hg.exprToRegister w6).along fun _ w7 _ => hrest w7
  · refine get fun s _ => still Still.addConstant fun k w7 _ => ?_
    refine (ofMoves (Moves.loadConstant _ k)).next fun _ w8 _ => still Still.reserve fun _ w9 _ => ?_
    exact hrest w9

theorem namesFrom_courses (n count : Nat) : Courses (namesFrom n count) w [] (fun _ => []) fun _ _ => True := by
  induction n generalizing w count with
  | zero => exact Courses.failNear
  | succ n ih =>
    refine read Reads.testNext fun more => ?_
    split
    · exact read Reads.checkName fun name => still Still.declare fun _ w1 _ => ih (count + 1)
    · exact pure (.refl _) trivial

/-- **Values are adjusted to variables**: the jumps of the last one arrive. -/
theorem adjust_courses (vars exprs : Nat) (he : e.Optional w.fn) :
    Courses (adjust vars exprs e) w e.lists (fun _ => []) fun _ _ => True := by
  unfold adjust
  extract_lets surplus wanted missing
  have hsurplus : Consumes (surplus ()) [] := by
    intro w1
    show Courses (if vars < exprs then _ else _) _ _ _ _
    split
    · exact demanding (ofStill (Still.modifyFn fun _ => ⟨rfl, rfl, rfl⟩))
    · exact pure (.refl _) trivial
  have hmissing : Consumes (missing ()) [] := by
    intro w1
    show Courses (if exprs < vars then _ else _) _ _ _ _
    split
    · refine get fun s _ => still Still.reserve fun _ w2 _ => ?_
      exact (ofMoves (Moves.loadNil _ _)).next fun _ w3 _ => hsurplus w3
    · exact hsurplus w1
  split
  · next hm =>
    have hapt := he.apt_of_multi hm
    refine (ofMoves (Moves.setReturns (some wanted) hapt)).andThen (K := []) (hapt.bare_of_multi hm) fun _ w1 _ => ?_
    split
    · exact still Still.reserve fun _ w2 _ => hsurplus w2
    · exact hsurplus w1
  · exact he.stored hmissing

theorem Faithful.forGeneric (hg : g.Faithful) (name : Bytes) : Consumes (g.forGeneric name) [] := by
  refine fun w => get fun s _ => still Still.declare fun _ w1 _ => still Still.declare fun _ w2 _ => ?_
  refine still Still.declare fun _ w3 _ => still Still.declare fun _ w4 _ => ?_
  refine (namesFrom_courses _ _).along fun vars w5 _ => read Reads.checkNext fun _ => read Reads.line fun line => ?_
  refine hg.exprs.next fun r w6 hr => (adjust_courses 3 r.1 hr.optional).next fun _ w7 _ => ?_
  exact still Still.checkStack fun _ w8 _ => hg.forBody _ line vars false w8

theorem Faithful.forStatement (hg : g.Faithful) (line : Nat) : Consumes (g.forStatement line) [] := by
  refine fun w => still Still.enterBlock fun _ w1 _ => read Reads.next fun _ => read Reads.checkName fun name => ?_
  refine read Reads.token fun t => ?_
  extract_lets rest
  have hrest : Consumes (rest ()) [] := fun w2 => read Reads.checkMatch fun _ => leaveBlock w2
  split
  · exact (hg.forNumeric name line w1).along fun _ w2 _ => hrest w2
  · exact (hg.forGeneric name w1).along fun _ w2 _ => hrest w2
  · exact (hg.forGeneric name w1).along fun _ w2 _ => hrest w2
  · exact Courses.along (Q := fun _ _ => True) Courses.failNear fun _ w2 _ => hrest w2

/-! ## 3. Functions and locals -/

theorem variable_field (hb : e.Bare) (hv : e.place.isVariable) :
    Courses (field e) w [] (fun _ => []) fun e' _ => e'.Bare ∧ e'.place.isVariable :=
  (field_courses (hb.apt hv w.fn)).taking hb.symm

theorem fieldsFrom_courses (n : Nat) (hb : e.Bare) (hv : e.place.isVariable) :
    Courses (fieldsFrom n e) w [] (fun _ => []) fun e' _ => e'.Bare ∧ e'.place.isVariable := by
  induction n generalizing w e with
  | zero => exact Courses.failNear
  | succ n ih =>
    refine read Reads.token fun t => ?_
    split
    · exact (variable_field hb hv).next fun e' w1 he' => ih he'.1 he'.2
    · exact pure (.refl _) ⟨hb, hv⟩

theorem storeFixed (reg : Nat) {target : Place} (ht : target.isVariable) :
    Courses (storeVariable target (.plain (.fixed reg))) w [] (fun _ => []) fun _ _ => True := by
  have hstore := Moves.storeVariable (Expr.apt_of_value (e := .plain (.fixed reg)) rfl w.fn) ht
  have hbare : (Expr.plain (.fixed reg)).Bare := Expr.bare_plain rfl
  exact (ofMoves hstore).taking hbare.symm

theorem Faithful.functionStatement (hg : g.Faithful) (line : Nat) : Consumes (g.functionStatement line) [] := by
  refine fun w => read Reads.next fun _ => read Reads.checkName fun name => (hg.name name w).along fun e w1 he => ?_
  refine (fieldsFrom_courses _ he.1 he.2).along fun e' w2 he' => read Reads.token fun t => ?_
  extract_lets isMethod rest
  have hrest : ∀ e w3, e.place.isVariable → Courses (rest e) w3 [] (fun _ => []) fun _ _ => True := by
    refine fun e w3 hv => (hg.functionBody isMethod line).next fun reg w4 _ => ?_
    exact (storeFixed reg hv).next fun _ w5 _ => ofStill Still.fixLine
  split
  · exact (variable_field he'.1 he'.2).next fun e3 w3 he3 => hrest e3 w3 he3.2
  · exact hrest e' w2 he'.2

theorem Faithful.localFunction (hg : g.Faithful) : Consumes g.localFunction [] := by
  refine fun w => get fun s _ => read Reads.checkName fun name => still Still.declare fun _ w1 _ => ?_
  refine still (Still.activate 1) fun _ w2 _ => read Reads.line fun line => ?_
  have hbody : Courses (Functor.discard (g.functionBody false line)) w2 [] (fun _ => []) fun _ _ => True :=
    discard (hg.functionBody false line)
  exact hbody.next fun _ w3 _ => ofStill Still.beginLocal

theorem Faithful.localStatement (hg : g.Faithful) : Consumes g.localStatement [] := by
  refine fun w => read Reads.checkName fun name => still Still.declare fun _ w1 _ => ?_
  refine (namesFrom_courses _ _).along fun vars w2 _ => read Reads.testNext fun values => ?_
  extract_lets rest
  have hrest : ∀ r w3, r.2.Optional w3.fn →
      Courses (rest r) w3 r.2.lists (fun _ => []) fun _ _ => True := fun r w3 hr =>
    (adjust_courses vars r.1 hr).next fun _ w4 _ => ofStill (Still.activate vars)
  split
  · exact hg.exprs.next fun r w3 hr => hrest r w3 hr.optional
  · exact (hrest (0, .plain .void) w2 (Expr.optional_void w2.fn)).taking Expr.bare_void.symm

/-! ## 4. Assignments, labels and returns -/

structure Assignable (es : List Expr) : Prop where
  nonempty : es ≠ []
  stored : ∀ e ∈ es, e.place.isVariable

theorem checkConflict_courses (assigned : Place) {targets : List Expr} (ht : Assignable targets) :
    Courses (checkConflict assigned targets) w [] (fun _ => []) fun es _ => Assignable es := by
  refine get fun s _ => ?_
  extract_lets copy checked
  have hchecked : Assignable (checked.map (·.1)) := by
    refine ⟨by simpa [checked] using ht.nonempty, fun e he => ?_⟩
    obtain ⟨r, hr, rfl⟩ := List.mem_map.mp he
    obtain ⟨target, htarget, rfl⟩ := List.mem_map.mp hr
    exact isVariable_avoidConflict (ht.stored target htarget)
  split
  · split
    · refine (ofMoves (Moves.writeABC (by decide))).next fun _ w1 _ => still Still.reserve fun _ w2 _ => ?_
      exact pure (.refl _) hchecked
    · refine (ofMoves (Moves.writeABC (by decide))).next fun _ w1 _ => still Still.reserve fun _ w2 _ => ?_
      exact pure (.refl _) hchecked
    · exact pure (.refl _) hchecked
  · exact pure (.refl _) hchecked

theorem Faithful.nextTarget (hg : g.Faithful) {k : Expr → List Expr → Compile (List Expr)} {earlier : List Expr}
    (hk : ∀ e targets w', e.Apt w'.fn → Assignable targets →
      Courses (k e targets) w' e.lists (fun _ => []) fun es _ => Assignable es)
    (he : e.Apt w.fn) (ht : ∀ t ∈ earlier, t.place.isVariable) : Courses (do
      if e.place.isVariable then
        if ← testNext (.symbol .comma) then
          let e' ← g.suffixed
          let targets ←
            match e'.place with
            | .indexed .. => pure (e :: earlier)
            | p => checkConflict p (e :: earlier)
          k e' targets
        else return e :: earlier
      else failNear .notAStatement) w e.lists (fun _ => []) fun es _ => Assignable es := by
  split
  · next hv =>
    have hbare : e.Bare := he.bare (Place.isValue_of_isVariable hv)
    have htargets : Assignable (e :: earlier) := ⟨List.cons_ne_nil _ _, List.forall_mem_cons.mpr ⟨hv, ht⟩⟩
    refine Courses.taking ?_ hbare
    refine read Reads.testNext fun comma => ?_
    split
    · refine hg.suffixed.next fun e' w1 he' => ?_
      extract_lets rest
      have hrest : ∀ targets w2, e'.Apt w2.fn → Assignable targets →
          Courses (rest targets) w2 e'.lists (fun _ => []) fun es _ => Assignable es := fun targets w2 =>
        hk e' targets w2
      split
      · exact hrest _ w1 he' htargets
      · exact (checkConflict_courses _ htargets).calm.along fun targets w2 h2 => hrest targets w2 (he'.after h2.2) h2.1
    · exact pure (.refl _) htargets
  · exact Courses.failNear

theorem Faithful.targetsFrom (hg : g.Faithful) (left : Nat) {earlier : List Expr} (he : e.Apt w.fn)
    (ht : ∀ t ∈ earlier, t.place.isVariable) :
    Courses (g.targetsFrom left e earlier) w e.lists (fun _ => []) fun es _ => Assignable es := by
  induction left generalizing w e earlier with
  | zero => exact hg.nextTarget (k := fun _ _ => Compile.failNear .tooDeep) (fun _ _ _ _ _ => Courses.failNear) he ht
  | succ left ih =>
    exact hg.nextTarget (k := g.targetsFrom left) (fun _ _ _ he ht => ih he ht.stored) he ht

theorem storeAll_courses {targets : List Expr} (ht : ∀ t ∈ targets, t.place.isVariable) :
    Consumes (storeAll targets) [] := by
  intro w
  induction targets generalizing w with
  | nil => exact pure (.refl _) trivial
  | cons t rest ih =>
    refine still Still.topRegister fun reg w1 _ => ?_
    exact (storeFixed reg (ht t List.mem_cons_self)).next fun _ w2 _ => ih (List.forall_mem_cons.mp ht).2 w2

/-- **An assignment**: the jumps of the last value arrive where it is stored. -/
theorem Faithful.assignment (hg : g.Faithful) (he : e.Apt w.fn) :
    Courses (g.assignment e) w e.lists (fun _ => []) fun _ _ => True := by
  refine (hg.targetsFrom g.left he fun _ h => absurd h List.not_mem_nil).next fun targets w1 ht => ?_
  refine read Reads.checkNext fun _ => hg.exprs.next fun r w2 hr => ?_
  dsimp only
  split
  · refine (ofMoves (Moves.setOneReturn hr)).beside fun e1 w3 h1 => ?_
    rw [List.nil_append, ← h1.1]
    cases targets with
    | nil => exact absurd rfl ht.nonempty
    | cons t rest =>
      obtain ⟨ht1, hrest⟩ := List.forall_mem_cons.mp ht.stored
      exact (ofMoves (Moves.storeVariable h1.2.1 ht1)).next fun _ w4 _ => storeAll_courses hrest w4
  · exact (adjust_courses _ r.1 hr.optional).next fun _ w3 _ => storeAll_courses ht.stored w3

theorem Faithful.exprStatement (hg : g.Faithful) : Consumes g.exprStatement [] := by
  refine fun w => hg.suffixed.next fun e w1 he => read Reads.token fun t => ?_
  split
  · exact hg.assignment he
  · exact hg.assignment he
  · split
    · next pc hp =>
      have hcall := Moves.recodeCalm (he.calm pc (.inl hp)) (g := fun _ i => i.setC 1) fun _ => rfl
      exact (ofMoves hcall).taking (he.bare (by rw [hp]; rfl))
    · exact Courses.failNear

theorem Faithful.skipNoOps (hg : g.Faithful) (n : Nat) : Consumes (g.skipNoOps n) [] := by
  intro w
  induction n generalizing w with
  | zero => exact Courses.failNear
  | succ n ih =>
    refine read Reads.token fun t => ?_
    split
    · exact (hg.statement w).along fun _ w1 _ => ih w1
    · exact (hg.statement w).along fun _ w1 _ => ih w1
    · exact pure (.refl _) trivial

/-- **A label**: the gotos that wait for it are aimed. -/
theorem Faithful.labelStatement (hg : g.Faithful) (name : Bytes) (line : Nat) :
    Consumes (g.labelStatement name line) [] := by
  refine fun w => get fun s _ => ?_
  split
  · exact Courses.failPlain
  · refine read Reads.checkNext fun _ => still Still.markTarget fun pc w1 _ => get fun s _ => ?_
    extract_lets index label rest
    refine still (Still.modifyFn fun _ => ⟨rfl, rfl, rfl⟩) fun _ w2 _ => (hg.skipNoOps _ w2).along fun _ w3 _ => ?_
    have hrest : ∀ l w4, Courses (rest l) w4 [] (fun _ => []) fun _ _ => True := fun l w4 =>
      still (Still.modifyFn fun _ => ⟨rfl, rfl, rfl⟩) fun _ w5 _ => closeGotos l w5
    refine read Reads.atBlockEnd fun atEnd => ?_
    split
    · exact still Still.innermostBlock fun b w4 _ => hrest _ w4
    · exact hrest label w3

theorem setTailCall {pc : Nat} (hpc : Calm w.fn.code pc) :
    Courses (Compile.modifyFn fun d => d.mapInstr pc fun i => i.setOp .tailCall) w [] (fun _ => [])
      fun _ _ => True := by
  refine ofMoves (Moves.recode (n := fun _ => pc) fun i hi => .inr ?_)
  obtain ⟨j, hj, hlayout, -⟩ := hpc
  rw [hi] at hj
  cases hj
  exact ⟨hlayout, .inr (Instr.opcode_setOp ..)⟩

theorem Faithful.returnStatement (hg : g.Faithful) : Consumes g.returnStatement [] := by
  intro w
  refine read Reads.atBlockEnd fun atEnd => read Reads.token fun t => ?_
  extract_lets rest
  have hrest : Consumes (rest ()) [] := fun w1 =>
    discard (Leads.ofReads Reads.testNext fun _ => ⟨rfl, fun _ => .refl, trivial⟩)
  have hreturn : ∀ first n w1, Courses (do
      emitReturn first n
      rest ()) w1 [] (fun _ => []) fun _ _ => True := fun first n w1 =>
    (ofMoves (Moves.emitReturn first n)).next fun _ w2 _ => hrest w2
  split
  · exact hreturn _ _ w
  · refine hg.exprs.next fun r w1 hr => get fun s _ => ?_
    extract_lets active
    split
    · next hm =>
      refine Courses.taking ?_ (hr.bare_of_multi hm)
      refine (ofMoves (Moves.setReturns none hr)).calm.along fun _ w2 h2 => ?_
      split
      · next pc hp _ =>
        refine (setTailCall (h2.2 pc (hr.calm pc (.inl hp)))).along fun _ w3 _ => demanding ?_
        exact hreturn _ _ w3
      · exact hreturn _ _ w2
    · split
      · exact (ofMoves (Moves.toAnyRegister hr)).next fun reg w2 _ => hreturn reg _ w2
      · exact hr.stored.next fun _ w2 _ => demanding (hreturn _ _ w2)

/-! ## 5. The grammar -/

theorem Faithful.statementBody (hg : g.Faithful) : Consumes g.statementBody [] := by
  intro w
  refine read Reads.line fun line => read Reads.token fun t => ?_
  extract_lets rest
  have hrest : ∀ w1, Courses (rest ()) w1 [] (fun _ => []) fun _ _ => True := fun w1 =>
    demanding (ofStill (Still.modifyFn fun _ => ⟨rfl, rfl, rfl⟩))
  split
  · exact read Reads.next fun _ => hrest w
  · exact (hg.ifStatement line w).along fun _ w1 _ => hrest w1
  · exact (hg.whileStatement line w).along fun _ w1 _ => hrest w1
  · exact read Reads.next fun _ => (hg.block w).along fun _ w1 _ => read Reads.checkMatch fun _ => hrest w1
  · exact (hg.forStatement line w).along fun _ w1 _ => hrest w1
  · exact (hg.repeatStatement line w).along fun _ w1 _ => hrest w1
  · exact (hg.functionStatement line w).along fun _ w1 _ => hrest w1
  · refine read Reads.next fun _ => read Reads.testNext fun isFunction => ?_
    split
    · exact (hg.localFunction w).along fun _ w1 _ => hrest w1
    · exact (hg.localStatement w).along fun _ w1 _ => hrest w1
  · refine read Reads.next fun _ => read Reads.checkName fun name => ?_
    exact (hg.labelStatement name line w).along fun _ w1 _ => hrest w1
  · exact read Reads.next fun _ => (hg.returnStatement w).along fun _ w1 _ => hrest w1
  · exact (ofMoves Moves.jump).next fun l w1 _ => (gotoStatement l w1).next fun _ w2 _ => hrest w2
  · exact (ofMoves Moves.jump).next fun l w1 _ => (gotoStatement l w1).next fun _ w2 _ => hrest w2
  · exact (hg.exprStatement w).along fun _ w1 _ => hrest w1

/-- **Statements and expressions at any depth.** -/
theorem faithful_ofLevels (bound n : Nat) : (ofLevels Compile.named bound n).Faithful := by
  induction n with
  | zero => exact ⟨fun _ => Courses.failNear, fun _ _ => Courses.failNear, fun name _ => named name⟩
  | succ n ih => exact ⟨ih.statementBody, ih.expressionBody, fun name _ => named name⟩

theorem Faithful.mainFunction (hg : g.Faithful) : Consumes g.mainFunction [] := by
  refine fun w => still Still.enterBlock fun _ w1 _ => still (Still.modifyFn fun _ => ⟨rfl, rfl, rfl⟩) fun _ w2 _ => ?_
  exact (hg.statements w2).along fun _ w3 _ => read Reads.check fun _ => closeBody_courses w3

end LuaMachine.Grammar
