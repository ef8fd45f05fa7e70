/-
  NAMES IN STATEMENTS, and so in a whole source. What a statement declares is visible to the statements
  after it in its block, and to no other.

  * `Nested.statementBody`, `nested` -- **statements**, for a given way to read what is nested in them, and
    so for any nesting;
  * `compile_resolves` -- **every name of a source is resolved where it stands**.
-/
import LuaMachine.Proofs.Lexical.Expression

namespace LuaMachine.Lexical

open Compile Grammar Passage

variable {bound n : Nat}

@[simp] theorem left_ofLevels (f : Reader) (bound n : Nat) : (ofLevels f bound n).left = n := by cases n <;> rfl

/-! ## 1. Steps without nested constructs -/

theorem Quiet.adjust (vars exprs : Nat) (e : Expr) : Quiet (Grammar.adjust vars exprs e) := by
  have hdrop : Quiet (if vars < exprs then do
      Compile.demand .surplus fun d => exprs - vars ≤ d.free
      Compile.modifyFn fun d => { d with free := d.free - (exprs - vars) }
    else Pure.pure ()) := by
    split
    · exact Quiet.demand.bind fun _ => .modifyFn fun _ => ⟨rfl, rfl, rfl, rfl, rfl, rfl⟩
    · exact .pure _
  -- missing values are nil
  have hfill : Quiet (if exprs < vars then do
      let s ← MonadState.get
      Compile.reserve (vars - exprs)
      Compile.loadNil s.fn.free (vars - exprs)
      if vars < exprs then do
        Compile.demand .surplus fun d => exprs - vars ≤ d.free
        Compile.modifyFn fun d => { d with free := d.free - (exprs - vars) }
      else Pure.pure ()
    else if vars < exprs then do
      Compile.demand .surplus fun d => exprs - vars ≤ d.free
      Compile.modifyFn fun d => { d with free := d.free - (exprs - vars) }
    else Pure.pure ()) := by
    split
    · exact .get fun s => (Quiet.reserve _).bind fun _ => (Quiet.loadNil _ _).bind fun _ => hdrop
    · exact hdrop
  unfold Grammar.adjust
  dsimp only
  split
  · refine (Quiet.setReturns _ _).bind fun _ => ?_
    split
    · exact (Quiet.reserve _).bind fun _ => hdrop
    · exact hdrop
  · split
    · exact (Quiet.toNextRegister e).discard.bind fun _ => hfill
    · exact hfill

theorem Quiet.checkConflict (assigned : Place) (targets : List Expr) : Quiet (Grammar.checkConflict assigned targets) := by
  refine .get fun s => ?_
  dsimp only
  split
  · split
    · exact (Quiet.emitABC _ _ _ _).discard.bind fun _ => (Quiet.reserve 1).bind fun _ => .pure _
    · exact (Quiet.emitABC _ _ _ _).discard.bind fun _ => (Quiet.reserve 1).bind fun _ => .pure _
    · exact .pure _
  · exact .pure _

theorem Quiet.storeAll (targets : List Expr) : Quiet (Grammar.storeAll targets) := by
  induction targets with
  | nil => exact .pure _
  | cons e rest ih => exact Quiet.topRegister.bind fun _ => (Quiet.storeVariable _ _).bind fun _ => ih

theorem Quiet.leaveBranch (leaving passing : JumpList) : Quiet (do
    let leaving ← match ← Compile.token with
      | .keyword .else | .keyword .elseif => do Compile.joinJumps leaving (← Compile.jump)
      | _ => Pure.pure leaving
    Compile.patchHere passing
    return leaving) := by
  have hjoin : Quiet (do
      let leaving ← Compile.joinJumps leaving (← Compile.jump)
      Compile.patchHere passing
      return leaving) :=
    Quiet.jump.bind fun _ => (Quiet.joinJumps _ _).bind fun _ => (Quiet.patchHere _).bind fun _ => .pure _
  refine Quiet.token.bind fun t => ?_
  split
  · exact hjoin
  · exact hjoin
  · exact (Quiet.pure _).bind fun _ => (Quiet.patchHere _).bind fun _ => .pure _

theorem Quiet.storeValues (targets : List Expr) (count : Nat) (e : Expr) : Quiet (if count = targets.length then do
      let e ← Compile.setOneReturn e
      match targets with
      | [] => return
      | t :: rest =>
        Compile.storeVariable t.place e
        Grammar.storeAll rest
    else do
      Grammar.adjust targets.length count e
      Grammar.storeAll targets) := by
  split
  · refine (Quiet.setOneReturn _).bind fun e => ?_
    split
    · exact .pure _
    · exact (Quiet.storeVariable _ _).bind fun _ => Quiet.storeAll _
  · exact (Quiet.adjust _ _ _).bind fun _ => Quiet.storeAll _

theorem Quiet.callStatement (e : Expr) : Quiet (match e.place with
    | .call pc => Compile.modifyFn fun d => d.mapInstr pc fun i => i.setC 1
    | _ => Compile.failNear .notAStatement) := by
  split
  · exact .modifyFn fun _ => ⟨rfl, rfl, rfl, rfl, rfl, rfl⟩
  · exact .failNear

theorem namesFrom (fuel count : Nat) (t : Token) (ns before : List Bytes) (ls : List Nat) :
    Scans (fun _ => Grammar.namesFrom fuel count) t (.ahead ns before ls)
      (fun k _ sc' => ∃ more, k = count + more.length ∧ sc' = .ahead ns (before ++ more) ls)
      fun _ _ sc' _ x => ∃ more ts, (∀ first, NameList (first :: more) (.name first :: ts)) ∧
        sc' = .ahead ns (before ++ more) ls ∧ x = words ts := by
  induction fuel generalizing count t before with
  | zero => exact .failNear
  | succ fuel ih =>
    refine .testNext (by simp) (fun t' => ?_) fun _ => ?_
    · refine .eat .checkName ?_
      rintro m t'' _ rfl
      refine .declareNext m ((ih (count + 1) t'' (before ++ [m])).imp ?_ ?_)
      · rintro k _ _ ⟨more, rfl, rfl⟩
        refine ⟨m :: more, by rw [List.length_cons]; omega, ?_⟩
        rw [List.append_assoc, List.singleton_append]
      · rintro k _ sc' ctx _ - ⟨more, ts, hnames, hdeclared, rfl⟩
        refine ⟨m :: more, .symbol .comma :: .name m :: ts, fun first => .more (hnames m), ?_, rfl⟩
        rw [hdeclared, List.append_assoc, List.singleton_append]
    · have hnil : Scoping.ahead ns before ls = .ahead ns (before ++ []) ls := by rw [List.append_nil]
      exact .pure ⟨[], rfl, hnil⟩ fun ctx => ⟨[], [], fun first => .one, hnil, rfl⟩

theorem Scoping.ahead_inj {ns more more' : List Bytes} {ls : List Nat} (h : Scoping.ahead ns more ls = .ahead ns more' ls) :
    more = more' := List.append_cancel_left (congrArg Scoping.names h)

theorem fieldsFrom (fuel : Nat) (e : Expr) : Reads (fun _ => Grammar.fieldsFrom fuel e) fun _ _ x =>
    ∃ ts, (∀ own us, NamePath own us → NamePath own (ts ++ us)) ∧ x = words ts := by
  induction fuel generalizing e with
  | zero => exact fun t sc => .failNear
  | succ fuel ih =>
    intro t sc
    refine .token ?_
    by_cases hdot : t = .symbol .dot
    · subst hdot
      refine (field (t := .symbol .dot) (by simp) e sc).andThen ?_
      rintro e t' _ rfl
      refine (ih e t' _).imp (fun _ _ _ h => h) ?_
      rintro _ _ _ ctx _ - ⟨ts, hts, rfl⟩ _ ⟨name, rfl⟩
      exact ⟨.symbol .dot :: .name name :: ts, fun own us h => .field (hts own us h), rfl⟩
    · simp only [if_neg hdot]
      exact .pure rfl fun ctx => ⟨[], fun own us h => h, rfl⟩

theorem skipSemicolons (fuel : Nat) : Reads (fun _ => Grammar.skipSemicolons fuel) fun ctx ns x =>
    ∀ y last, Statements ctx ns y last → Statements ctx ns (x ++ y) last := by
  induction fuel with
  | zero => exact fun t sc => .failNear
  | succ fuel ih =>
    intro t sc
    refine .testNext (by simp) (fun t' => ?_) fun _ => .pure rfl fun ctx y last hy => hy
    refine (ih t' sc).imp (fun _ _ _ h => h) fun _ _ _ ctx x _ hx y last hy => ?_
    rw [append_assoc]
    exact .cons .semi (by simp) (hx y last hy)

theorem gotoStatement (jumps : JumpList) {t : Token} (ht : t = .keyword .goto ∨ t = .keyword .break) (sc : Scoping) :
    Scans (fun _ => Compile.gotoStatement jumps) t sc (fun _ _ sc' => sc' = sc)
      fun _ _ _ ctx x => Statement ctx sc.visible false x sc.visible := by
  -- the goto is aimed, or noted
  have haim : ∀ (line : Nat) (name : Bytes), Quiet (do
      let g : PendingGoto := ⟨name, jumps, line, (← MonadState.get).fn.active⟩
      if !(← gotoLabel g) then modifyFn fun d => { d with gotos := d.gotos ++ [g] }) := by
    intro line name
    refine .get fun s => (Quiet.gotoLabel _).bind fun found => ?_
    cases found with
    | true => exact .pure _
    | false =>
      rw [if_pos Bool.not_false]
      exact .modifyFn fun _ => ⟨rfl, rfl, rfl, rfl, rfl, rfl⟩
  refine .quiet Quiet.line fun line => .testNext (by simp) (fun t' => ?_) fun hne => ?_
  · refine .eat .checkName ?_
    rintro m t'' _ rfl
    exact .still (haim line m) (fun _ => rfl) fun _ ctx => append_empty (words [.name m]) ▸ .goto m
  · obtain rfl := ht.resolve_left hne
    refine .word (.next (by simp)) fun _ t' => .quiet (.pure _) fun name => ?_
    exact .still (haim line name) (fun _ => rfl) fun _ ctx => append_empty (word (.keyword .break)) ▸ .break

namespace Nested

variable (h : Nested bound n)

include h

/-! ## 2. Conditionals and loops -/

theorem block : Stays (fun f => (ofLevels f bound n).block) fun ctx ns x => ∃ last, Statements ctx ns x last :=
  fun t ns l ls => by
    refine .enterPlain false (.run h.statements fun _ t' more => ?_)
    refine .leaveLast (List.prefix_append ns more) rfl fun ctx x hx => ⟨ns ++ more, ?_⟩
    rw [append_empty]
    exact hx

theorem wholeCondition : ReadsWhole (fun f => (ofLevels f bound n).condition) Expression := fun t sc => by
  refine .readWhole h.wholeExpr fun e t' => .still (Quiet.goIfTrue _) (fun _ => rfl) fun _ ctx g x hx hg => ⟨g, ?_, hg⟩
  rw [append_empty]
  exact hx

theorem condition : Reads (fun f => (ofLevels f bound n).condition) fun ctx ns x => ∃ g, Expression ctx ns g x :=
  h.wholeCondition.reads

def Finishes (c : Reader → Compile α) : Prop := ∀ t ns l ls, Scans c t (.plain ns (ns.length :: l :: ls))
  (fun _ _ sc' => sc' = .plain ns (l :: ls)) fun _ _ _ ctx x => ∃ last, Statements ctx ns x last

theorem branchEnd (leaving passing : JumpList) : Finishes fun f => (ofLevels f bound n).branchEnd leaving passing := by
  intro t ns l ls
  refine .run h.statements fun _ t' more => .leaveBlock (List.prefix_append ns more) ?_
  refine .still (Quiet.leaveBranch leaving passing) (fun _ => rfl) fun _ ctx x hx => ⟨ns ++ more, ?_⟩
  rw [append_empty]
  exact hx

theorem gotoBranch (leaving jumps : JumpList) {t : Token} (ht : t = .keyword .goto ∨ t = .keyword .break) (ns : List Bytes)
    (l : Nat) (ls : List Nat) : Scans (fun f => do
      Compile.gotoStatement jumps
      Grammar.skipSemicolons (ofLevels f bound n).bound
      if ← atBlockEnd false then
        leaveBlock
        return leaving
      else
        let passing ← jump
        (ofLevels f bound n).branchEnd leaving passing) t (.plain ns (ns.length :: l :: ls))
      (fun _ _ sc' => sc' = .plain ns (l :: ls)) fun _ _ _ ctx x => ∃ last, Statements ctx ns x last := by
  refine (gotoStatement jumps ht _).andThen ?_
  rintro _ t' _ rfl
  simp only [bound_ofLevels, Scoping.visible_plain]
  refine .stay (skipSemicolons bound).stays fun _ t'' => .quiet (Quiet.atBlockEnd false) fun ends => ?_
  cases ends with
  | true =>
    exact .leaveBlock (List.prefix_refl ns) (.pure rfl fun ctx x hx y hy => ⟨ns, .cons hy (by simp) (hx empty ns .nil)⟩)
  | false =>
    refine .quiet Quiet.jump fun passing => (h.branchEnd leaving passing _ _ _ _).imp (fun _ _ _ h => h) ?_
    rintro _ _ _ ctx z - ⟨last, hz⟩ x hx y hy
    exact ⟨last, .cons hy (by simp) (hx z last hz)⟩

theorem branch {t : Token} (ht : t ≠ .eof) (leaving : JumpList) (ns : List Bytes) (l : Nat) (ls : List Nat) :
    Scans (fun f => (ofLevels f bound n).branch leaving) t (.plain ns (l :: ls)) (fun _ _ sc' => sc' = .plain ns (l :: ls))
      fun _ _ _ ctx x => ∃ y, Branch ctx ns y ∧ x = word t ++ y := by
  -- from the block of the branch on
  have hblock : ∀ {c : Reader → Compile JumpList} (t' : Token), (Scans c t' (.plain ns (ns.length :: l :: ls))
        (fun _ _ sc' => sc' = .plain ns (l :: ls)) fun _ _ _ ctx x => ∃ last, Statements ctx ns x last) →
      Scans (fun f => enterBlock false >>= fun _ => c f) t' (.plain ns (l :: ls)) (fun _ _ sc' => sc' = .plain ns (l :: ls))
        fun _ _ _ ctx y => ∀ x, (∃ g, Expression ctx ns g x) →
          ∃ z, Branch ctx ns z ∧ word t ++ (x ++ (word (.keyword .then) ++ y)) = word t ++ z := by
    intro c t' hc
    refine .enterPlain false (hc.imp (fun _ _ _ h => h) ?_)
    rintro _ _ _ ctx y - ⟨last, hy⟩ x ⟨g, hx⟩
    exact ⟨_, .when hx hy, rfl⟩
  refine .word (.next ht) fun _ t1 => .stay h.expr.stays fun e t2 => .word (.checkNext (by simp)) fun _ t3 => .token ?_
  have hplain : ∀ t', Scans (fun f => do
      let passing ← goIfTrue e
      enterBlock false
      (ofLevels f bound n).branchEnd leaving passing) t' (.plain ns (l :: ls)) (fun _ _ sc' => sc' = .plain ns (l :: ls))
      fun _ _ _ ctx y => ∀ x, (∃ g, Expression ctx ns g x) →
        ∃ z, Branch ctx ns z ∧ word t ++ (x ++ (word (.keyword .then) ++ y)) = word t ++ z := fun t' =>
    .quiet (Quiet.goIfTrue e) fun passing => hblock t' (h.branchEnd leaving passing _ _ _ _)
  cases t3 with
  | keyword k =>
    cases k with
    | goto => exact .quiet (Quiet.goIfFalse e) fun jumps => hblock _ (h.gotoBranch leaving jumps (.inl rfl) ns l ls)
    | «break» => exact .quiet (Quiet.goIfFalse e) fun jumps => hblock _ (h.gotoBranch leaving jumps (.inr rfl) ns l ls)
    | _ => exact hplain _
  | _ => exact hplain _

theorem branchesFrom (fuel : Nat) (leaving : JumpList) : Stays (fun f => (ofLevels f bound n).branchesFrom fuel leaving)
    fun ctx ns x => ∀ y, Branches ctx ns y → Branches ctx ns (x ++ y) := by
  induction fuel generalizing leaving with
  | zero => exact fun t ns l ls => .failNear
  | succ fuel ih =>
    intro t ns l ls
    refine .token ?_
    by_cases ht : t = .keyword .elseif
    · simp only [if_pos ht]
      subst ht
      refine (h.branch (t := .keyword .elseif) (by simp) leaving ns l ls).andThen ?_
      rintro leaving t' _ rfl
      refine (ih leaving t' ns l ls).imp (fun _ _ _ h => h) ?_
      rintro _ _ _ ctx z - hz _ ⟨x, hx, rfl⟩ y hy
      have := Branches.more hx (hz y hy)
      simpa only [append_assoc] using this
    · simp only [if_neg ht]
      exact .pure rfl fun ctx y hy => hy

theorem ifStatement (line : Nat) (ns : List Bytes) (l : Nat) (ls : List Nat) :
    Scans (fun f => (ofLevels f bound n).ifStatement line) (.keyword .if) (.plain ns (l :: ls))
      (fun _ _ sc' => sc' = .plain ns (l :: ls)) fun _ _ _ ctx x => Statement ctx ns false x ns := by
  refine (h.branch (t := .keyword .if) (by simp) [] ns l ls).andThen ?_
  rintro leaving t' _ rfl
  simp only [bound_ofLevels]
  refine .stay (h.branchesFrom bound leaving) fun leaving t'' => .testNext (by simp) (fun t3 => ?_) fun _ => ?_
  · refine .stay h.block fun _ t4 => .word (.checkMatch (.keyword .end) (by simp) _ _) fun _ t5 => ?_
    refine .still (Quiet.patchHere _) (fun _ => rfl) ?_
    rintro _ ctx x ⟨last, hx⟩ y hy _ ⟨z, hz, rfl⟩
    have := Statement.cond hz (hy _ (.otherwise hx))
    simpa only [append_assoc, append_empty] using this
  · refine .word (.checkMatch (.keyword .end) (by simp) _ _) fun _ t5 => .still (Quiet.patchHere _) (fun _ => rfl) ?_
    rintro _ ctx y hy _ ⟨z, hz, rfl⟩
    have := Statement.cond hz (hy _ .none)
    simpa only [append_assoc, append_empty] using this

theorem whileStatement (line : Nat) (ns : List Bytes) (l : Nat) (ls : List Nat) :
    Scans (fun f => (ofLevels f bound n).whileStatement line) (.keyword .while) (.plain ns (l :: ls))
      (fun _ _ sc' => sc' = .plain ns (l :: ls)) fun _ _ _ ctx x => Statement ctx ns false x ns := by
  refine .word (.next (by simp)) fun _ t1 => .quiet Quiet.markTarget fun start => .stay h.condition.stays fun leaving t2 => ?_
  refine .enterPlain true (.word (.checkNext (by simp)) fun _ t3 => .stay h.block fun _ t4 => .quiet Quiet.jump fun back => ?_)
  refine .quiet (Quiet.patchTo _ _) fun _ => .word (.checkMatch (.keyword .end) (by simp) _ _) fun _ t5 => ?_
  refine .leaveBlock (List.prefix_refl ns) (.still (Quiet.patchHere _) (fun _ => rfl) ?_)
  rintro _ ctx y ⟨last, hy⟩ x ⟨g, hx⟩
  rw [append_empty]
  exact .loop hx hy

theorem repeatStatement (line : Nat) (ns : List Bytes) (l : Nat) (ls : List Nat) :
    Scans (fun f => (ofLevels f bound n).repeatStatement line) (.keyword .repeat) (.plain ns (l :: ls))
      (fun _ _ sc' => sc' = .plain ns (l :: ls)) fun _ t' _ ctx x =>
        ∃ g, Statement ctx ns g x ns ∧ (g = true → t' ≠ .symbol .lparen) := by
  refine .quiet Quiet.markTarget fun start => .enterPlain true (.enterPlain false (.word (.next (by simp)) fun _ t1 => ?_))
  refine .run h.statements fun _ t2 more => .word (.checkMatch (.keyword .until) (by simp) _ _) fun _ t3 => ?_
  refine .readWhole h.wholeCondition fun again t4 => .quiet Quiet.innermostBlock fun b => ?_
  obtain ⟨captured, active⟩ := b
  rw [Scoping.visible_plain]
  -- the two blocks end
  have hrest : Scans (fun _ => do
      leaveBlock
      patchTo again start
      leaveBlock) t4 (.plain (ns ++ more) (ns.length :: ns.length :: l :: ls)) (fun _ _ sc' => sc' = .plain ns (l :: ls))
      fun _ t' _ ctx y => ∀ g x, Expression ctx (ns ++ more) g x → (g = true → t4 ≠ .symbol .lparen) →
        ∀ z, Statements ctx ns z (ns ++ more) → ∃ g, Statement ctx ns g
          (word (.keyword .repeat) ++ (z ++ (word (.keyword .until) ++ (x ++ y)))) ns ∧ (g = true → t' ≠ .symbol .lparen) := by
    refine .leaveBlock (List.prefix_append ns more) (.quiet (Quiet.patchTo _ _) fun _ => .leaveLast (List.prefix_refl ns) rfl ?_)
    intro ctx g x hx hg z hz
    refine ⟨g, ?_, hg⟩
    rw [append_empty]
    exact .repetition hz hx
  cases captured with
  | true => exact .quiet (Quiet.closeOnJump _ _) fun _ => hrest
  | false => exact hrest

/-- **The body of a loop with a state** sees the state and the variables; the variables are gone after it. -/
theorem forBody (base line : Nat) (numeric : Bool) {t : Token} {ns : List Bytes} {l : Nat} {ls : List Nat}
    (state vars : List Bytes) (hstate : state.length = 3) : Scans (fun f => (ofLevels f bound n).forBody base line vars.length numeric) t
      (.ahead ns (state ++ vars) (ns.length :: l :: ls)) (fun _ _ sc' => sc' = .plain (ns ++ state) (ns.length :: l :: ls))
      fun _ _ _ ctx x => ∃ y last, Statements ctx (ns ++ state ++ vars) y last ∧ x = word (.keyword .do) ++ y := by
  have hhead : (ns ++ state).length = ns.length + 3 := by rw [List.length_append, hstate]
  have hall : (ns ++ state ++ vars).length = ns.length + 3 + vars.length := by rw [List.length_append, hhead]
  -- how the loop goes on after its body
  have hback : ∀ entry : List Nat, Quiet (do
      patchHere entry
      let back ←
        if numeric then emitAsBx .forLoop base (-1)
        else do
          discard <| emitABC .tforCall base 0 vars.length
          fixLine line
          emitAsBx .tforLoop (base + 2) (-1)
      patchTo [back] (entry.headD 0 + 1)
      fixLine line) := by
    intro entry
    have hjump : ∀ back, Quiet (patchTo [back] (entry.headD 0 + 1) >>= fun _ => fixLine line) := fun back =>
      (Quiet.patchTo _ _).bind fun _ => Quiet.fixLine _
    refine (Quiet.patchHere _).bind fun _ => ?_
    dsimp only
    split
    · exact (Quiet.emitAsBx _ _ _).bind hjump
    · exact (Quiet.emitABC _ _ _ _).discard.bind fun _ => (Quiet.fixLine _).bind fun _ => (Quiet.emitAsBx _ _ _).bind hjump
  have hbody : ∀ (entry : List Nat) (t : Token), Scans (fun f => do
      enterBlock false
      activate vars.length
      reserve vars.length
      (ofLevels f bound n).block
      leaveBlock
      patchHere entry
      let back ←
        if numeric then emitAsBx .forLoop base (-1)
        else do
          discard <| emitABC .tforCall base 0 vars.length
          fixLine line
          emitAsBx .tforLoop (base + 2) (-1)
      patchTo [back] (entry.headD 0 + 1)
      fixLine line) t ⟨ns ++ state ++ vars, ns.length + 3, ns.length :: l :: ls⟩
      (fun _ _ sc' => sc' = .plain (ns ++ state) (ns.length :: l :: ls))
      fun _ _ _ ctx x => ∃ last, Statements ctx (ns ++ state ++ vars) x last := by
    intro entry t
    refine .enterBlock false (.activate _ (Nat.le_of_eq hall.symm) ?_)
    rw [show (⟨ns ++ state ++ vars, ns.length + 3 + vars.length, (ns.length + 3) :: ns.length :: l :: ls⟩ : Scoping) =
      .plain (ns ++ state ++ vars) ((ns ++ state).length :: ns.length :: l :: ls) from
        Scoping.ext rfl hall.symm (congrArg (· :: _) hhead.symm)]
    refine .quiet (Quiet.reserve _) fun _ => .stay h.block fun _ t' => .leaveBlock (List.prefix_append _ vars) ?_
    refine .still (hback entry) (fun _ => rfl) ?_
    rintro _ ctx x ⟨last, hx⟩
    rw [append_empty]
    exact ⟨last, hx⟩
  rw [show Scoping.ahead ns (state ++ vars) (ns.length :: l :: ls) = ⟨ns ++ state ++ vars, ns.length, ns.length :: l :: ls⟩ from
    Scoping.ext (List.append_assoc _ _ _).symm rfl rfl]
  refine .activate 3 ?_ (.word (.checkNext (by simp)) fun _ t' => ?_)
  · rw [hall]
    exact Nat.le_add_right _ _
  have hdone := fun entry => (hbody entry t').imp (Q := fun _ _ sc' => sc' = .plain (ns ++ state) (ns.length :: l :: ls))
    (P := fun _ _ _ ctx x => ∃ y last, Statements ctx (ns ++ state ++ vars) y last ∧
      word (.keyword .do) ++ x = word (.keyword .do) ++ y) (fun _ _ _ h => h) fun _ _ _ ctx x _ hx => hx.elim fun last hx => ⟨x, last, hx, rfl⟩
  cases numeric with
  | true => exact .quiet (Quiet.emitAsBx _ _ _) fun pc => .quiet (.pure _) fun entry => hdone entry
  | false => exact .quiet Quiet.jump fun entry => hdone entry

theorem exprToRegister : Reads (fun f => (ofLevels f bound n).exprToRegister) fun ctx ns x => ∃ g, Expression ctx ns g x :=
  fun t sc => by
  refine .read h.expr fun e t' => .still (Quiet.toNextRegister _).discard (fun _ => rfl) fun _ ctx x hx => ?_
  rw [append_empty]
  exact hx

theorem forNumeric (name : Bytes) (line : Nat) (ns : List Bytes) (l : Nat) (ls : List Nat) :
    Scans (fun f => (ofLevels f bound n).forNumeric name line) (.symbol .assign) (.plain ns (ns.length :: l :: ls))
      (fun _ _ sc' => sc' = .plain (ns ++ rangeState) (ns.length :: l :: ls)) fun _ _ _ ctx x =>
        Statement ctx ns false (word (.keyword .for) ++ (word (.name name) ++ (x ++ word (.keyword .end)))) ns := by
  refine .get fun s _ => .declareFirst _ (.declareNext _ (.declareNext _ (.declareNext name ?_)))
  show Scans _ _ (.ahead ns (rangeState ++ [name]) (ns.length :: l :: ls)) _ _
  have hvisible : (Scoping.ahead ns (rangeState ++ [name]) (ns.length :: l :: ls)).visible = ns := Scoping.visible_ahead ..
  refine .word (.checkNext (by simp)) fun _ t1 => .read h.exprToRegister fun _ t2 => .word (.checkNext (by simp)) fun _ t3 => ?_
  refine .read h.exprToRegister fun _ t4 => .testNext (by simp) (fun t5 => ?_) fun _ => ?_
  · refine .read h.exprToRegister fun _ t6 => (h.forBody s.fn.free line true rangeState [name] rfl).imp ?_ ?_
    · exact fun _ _ _ h => h
    rw [hvisible]
    rintro _ _ _ ctx _ - ⟨b, last, hb, rfl⟩ z ⟨_, hz⟩ y ⟨_, hy⟩ x ⟨_, hx⟩
    have := Statement.stepped name hx hy hz hb
    simpa only [append_assoc] using this
  · refine .get fun s' _ => .quiet (Quiet.addConstant _) fun k => .quiet (Quiet.loadConstant _ _) fun _ => ?_
    refine .quiet (Quiet.reserve 1) fun _ => (h.forBody s.fn.free line true rangeState [name] rfl).imp ?_ ?_
    · exact fun _ _ _ h => h
    rw [hvisible]
    rintro _ _ _ ctx _ - ⟨b, last, hb, rfl⟩ y ⟨_, hy⟩ x ⟨_, hx⟩
    have := Statement.range name hx hy hb
    simpa only [append_assoc] using this

theorem forGeneric (name : Bytes) {t : Token} (ns : List Bytes) (l : Nat) (ls : List Nat) :
    Scans (fun f => (ofLevels f bound n).forGeneric name) t (.plain ns (ns.length :: l :: ls))
      (fun _ _ sc' => sc' = .plain (ns ++ iteratorState) (ns.length :: l :: ls)) fun _ _ _ ctx x =>
        Statement ctx ns false (word (.keyword .for) ++ (word (.name name) ++ (x ++ word (.keyword .end)))) ns := by
  refine .get fun s _ => .declareFirst _ (.declareNext _ (.declareNext _ (.declareNext name ?_)))
  show Scans _ _ (.ahead ns (iteratorState ++ [name]) (ns.length :: l :: ls)) _ _
  simp only [bound_ofLevels]
  refine (namesFrom bound 1 t ns _ _).andThen ?_
  rintro count t1 _ ⟨more, rfl, rfl⟩
  have hlength : 1 + more.length = (name :: more).length := Nat.add_comm _ _
  rw [List.append_assoc, List.singleton_append, hlength]
  refine .word (.checkNext (by simp)) fun _ t2 => .quiet Quiet.line fun line => .read h.exprs fun r t3 => ?_
  refine .quiet (Quiet.adjust 3 _ _) fun _ => .quiet (Quiet.checkStack 3) fun _ => ?_
  refine (h.forBody s.fn.free line false iteratorState _ rfl).imp (fun _ _ _ h => h) ?_
  rw [Scoping.visible_ahead]
  rintro _ _ _ ctx _ - ⟨b, last, hb, rfl⟩ x ⟨g, hx⟩ _ ⟨more', ts, hnames, hdeclared, rfl⟩
  rw [List.append_assoc] at hdeclared
  cases List.append_cancel_left (Scoping.ahead_inj hdeclared)
  have := Statement.iterator (hnames name) hx hb
  rw [show words (.name name :: ts) = word (.name name) ++ words ts from rfl] at this
  simpa only [append_assoc] using this

theorem forStatement (line : Nat) (ns : List Bytes) (l : Nat) (ls : List Nat) :
    Scans (fun f => (ofLevels f bound n).forStatement line) (.keyword .for) (.plain ns (l :: ls))
      (fun _ _ sc' => sc' = .plain ns (l :: ls)) fun _ _ _ ctx x => Statement ctx ns false x ns := by
  refine .enterPlain true (.word (.next (by simp)) fun _ t1 => .eat .checkName ?_)
  rintro name t2 _ rfl
  -- the end of the loop
  have hend : ∀ {c : Reader → Compile Unit} {state : List Bytes} (t : Token),
      (Scans c t (.plain ns (ns.length :: l :: ls)) (fun _ _ sc' => sc' = .plain (ns ++ state) (ns.length :: l :: ls))
        fun _ _ _ ctx x => Statement ctx ns false (word (.keyword .for) ++ (word (.name name) ++ (x ++ word (.keyword .end)))) ns) →
      Scans (fun f => c f >>= fun _ => checkMatch (.keyword .end) (.keyword .for) line >>= fun _ => leaveBlock) t
        (.plain ns (ns.length :: l :: ls)) (fun _ _ sc' => sc' = .plain ns (l :: ls))
        fun _ _ _ ctx x => Statement ctx ns false (word (.keyword .for) ++ (words [.name name] ++ x)) ns := by
    intro c state t hc
    refine hc.andThen ?_
    rintro _ t' _ rfl
    refine .word (.checkMatch (.keyword .end) (by simp) _ _) fun _ t'' => .leaveLast (List.prefix_append ns state) rfl ?_
    intro ctx x hx
    rw [append_empty]
    exact hx
  refine .token ?_
  cases t2 with
  | symbol sym =>
    cases sym with
    | assign => exact hend _ (h.forNumeric name line ns l ls)
    | comma => exact hend _ (h.forGeneric name ns l ls)
    | _ => exact .fail fun _ => ⟨_, rfl⟩
  | keyword k =>
    cases k with
    | «in» => exact hend _ (h.forGeneric name ns l ls)
    | _ => exact .fail fun _ => ⟨_, rfl⟩
  | _ => exact .fail fun _ => ⟨_, rfl⟩

/-! ## 3. Functions and locals -/

theorem functionStatement (line : Nat) (sc : Scoping) : Scans (fun f => (ofLevels f bound n).functionStatement line)
    (.keyword .function) sc (fun _ _ sc' => sc' = sc) fun _ _ _ ctx x => Statement ctx sc.visible false x sc.visible := by
  refine .word (.next (by simp)) fun _ t1 => .eat .checkName ?_
  rintro name t2 _ rfl
  simp only [name_ofLevels, bound_ofLevels]
  refine .occurrence name fun e => .read (fieldsFrom bound e) fun e t3 => .token ?_
  -- from the body on
  have hbody : ∀ (isMethod : Bool) (e : Expr) (t : Token), Scans (fun f => do
      let reg ← (ofLevels f bound n).functionBody isMethod line
      storeVariable e.place (.plain (.fixed reg))
      fixLine line) t sc (fun _ _ sc' => sc' = sc)
      fun _ _ _ ctx x => FunctionBody ctx sc.visible (ownParameters isMethod) x := fun isMethod e t => by
    refine .read (h.functionBody isMethod line) fun reg t' => ?_
    refine .still ((Quiet.storeVariable _ _).bind fun _ => Quiet.fixLine _) (fun _ => rfl) fun _ ctx x hx => ?_
    rw [append_empty]
    exact hx
  by_cases hmethod : t3 = .symbol .colon
  · simp only [hmethod, decide_true, if_true]
    subst hmethod
    refine (field (t := .symbol .colon) (by simp) e sc).andThen ?_
    rintro e t4 _ rfl
    refine (hbody true e t4).imp (fun _ _ _ h => h) ?_
    rintro _ _ _ ctx x - hx _ ⟨m, rfl⟩ _ ⟨ts, hts, rfl⟩
    have := Statement.function name (hts self [.symbol .colon, .name m] .method) hx
    rw [word_append_name, append_assoc]
    rw [← words_append, append_assoc] at this
    exact this
  · simp only [hmethod, decide_false, if_false]
    refine .quiet (.pure _) fun e => (hbody false e t3).imp (fun _ _ _ h => h) ?_
    rintro _ _ _ ctx x - hx _ ⟨ts, hts, rfl⟩
    have := Statement.function name (hts _ [] .plain) hx
    rw [List.append_nil] at this
    exact this

theorem localFunction (ns : List Bytes) (l : Nat) (ls : List Nat) (t : Token) :
    Scans (fun f => (ofLevels f bound n).localFunction) t (.plain ns (l :: ls))
      (fun _ _ sc' => ∃ more, sc' = .plain (ns ++ more) (l :: ls)) fun _ _ sc' ctx x =>
        Statement ctx ns false (word (.keyword .local) ++ (word (.keyword .function) ++ x)) sc'.names := by
  refine .get fun s _ => .eat .checkName ?_
  rintro name t1 _ rfl
  refine .declareFirst name (.activateAll [name] (.quiet Quiet.line fun line => ?_))
  refine .stay (Reads.discard (h.functionBody false line)).stays fun _ t2 => .still (Quiet.beginLocal _) (fun _ => ⟨_, rfl⟩) ?_
  intro _ ctx x hx
  rw [append_empty]
  exact .localFunction name hx

theorem localStatement (ns : List Bytes) (l : Nat) (ls : List Nat) (t : Token) :
    Scans (fun f => (ofLevels f bound n).localStatement) t (.plain ns (l :: ls))
      (fun _ _ sc' => ∃ more, sc' = .plain (ns ++ more) (l :: ls)) fun _ t' sc' ctx x =>
        ∃ g, Statement ctx ns g (word (.keyword .local) ++ x) sc'.names ∧ (g = true → t' ≠ .symbol .lparen) := by
  refine .eat .checkName ?_
  rintro name t1 _ rfl
  simp only [bound_ofLevels]
  refine .declareFirst name ((namesFrom bound 1 t1 ns [name] _).andThen ?_)
  rintro count t2 _ ⟨more, rfl, rfl⟩
  have hlength : 1 + more.length = ([name] ++ more).length := Nat.add_comm _ _
  rw [hlength]
  refine .testNext (by simp) (fun t3 => ?_) fun _ => ?_
  · refine .readWhole h.wholeExprs fun r t4 => .quiet (Quiet.adjust _ _ _) fun _ => .activateLast ⟨_, rfl⟩ ?_
    rintro ctx g x hx hg _ ⟨more', ts, hnames, hdeclared, rfl⟩
    cases List.append_cancel_left (Scoping.ahead_inj hdeclared)
    rw [Scoping.visible_ahead] at hx
    have := Statement.assignedLocals (hnames name) hx
    exact ⟨g, by rwa [append_empty], hg⟩
  · refine .quiet (.pure _) fun r => .quiet (Quiet.adjust _ _ _) fun _ => .activateLast ⟨_, rfl⟩ ?_
    rintro ctx _ ⟨more', ts, hnames, hdeclared, rfl⟩
    cases List.append_cancel_left (Scoping.ahead_inj hdeclared)
    rw [append_empty]
    exact ⟨false, .locals (hnames name), fun hg => absurd hg Bool.false_ne_true⟩

/-! ## 4. Assignments, labels and returns -/

theorem nextTarget {c : Expr → List Expr → Reader → Compile (List Expr)}
    (hc : ∀ e targets, Reads (c e targets) fun ctx ns y => ∀ x, Targets ctx ns x → Targets ctx ns (x ++ y)) (e : Expr)
    (earlier : List Expr) : Reads (fun f => do
      if e.place.isVariable then
        if ← Compile.testNext (.symbol .comma) then
          let e' ← (ofLevels f bound n).suffixed
          let targets ← match e'.place with
            | .indexed .. => Pure.pure (e :: earlier)
            | p => Grammar.checkConflict p (e :: earlier)
          c e' targets f
        else return e :: earlier
      else Compile.failNear .notAStatement) fun ctx ns y => ∀ x, Targets ctx ns x → Targets ctx ns (x ++ y) := fun t sc => by
  by_cases hvariable : e.place.isVariable = true
  · simp only [if_pos hvariable]
    refine .testNext (by simp) (fun t1 => ?_) fun _ => ?_
    · refine .read h.suffixed fun e' t2 => ?_
      have hrest : ∀ targets, Scans (c e' targets) t2 sc (fun _ _ sc' => sc' = sc) fun _ _ _ ctx z => ∀ y,
          Suffixed ctx sc.visible y → ∀ x, Targets ctx sc.visible x →
            Targets ctx sc.visible (x ++ (word (.symbol .comma) ++ (y ++ z))) := fun targets =>
        (hc e' targets t2 sc).imp (fun _ _ _ h => h) fun _ _ _ ctx z _ hz y hy x hx => by
          have := hz _ (.more hx hy)
          simpa only [append_assoc] using this
      cases hplace : e'.place with
      | indexed => exact .quiet (.pure _) hrest
      | _ => exact .quiet (Quiet.checkConflict _ _) hrest
    · refine .pure rfl fun ctx x hx => ?_
      rw [append_empty]
      exact hx
  · simp only [if_neg hvariable]
    exact .failNear

theorem targetsFrom (left : Nat) (e : Expr) (earlier : List Expr) :
    Reads (fun f => (ofLevels f bound n).targetsFrom left e earlier)
      fun ctx ns y => ∀ x, Targets ctx ns x → Targets ctx ns (x ++ y) := by
  induction left generalizing e earlier with
  | zero => exact h.nextTarget (c := fun _ _ _ => Compile.failNear .tooDeep) (fun _ _ _ _ => .failNear) e earlier
  | succ left ih => exact h.nextTarget ih e earlier

theorem assignment (e : Expr) (t : Token) (sc : Scoping) : Scans (fun f => (ofLevels f bound n).assignment e) t sc
    (fun _ _ sc' => sc' = sc) fun _ t' _ ctx y => ∀ x, Suffixed ctx sc.visible x →
      ∃ g, Statement ctx sc.visible g (x ++ y) sc.visible ∧ (g = true → t' ≠ .symbol .lparen) := by
  simp only [Grammar.assignment, left_ofLevels]
  refine .read (h.targetsFrom n e []) fun targets t1 => .word (.checkNext (by simp)) fun _ t2 => ?_
  refine .readWhole h.wholeExprs fun r t3 => ?_
  refine .still (Quiet.storeValues targets r.1 r.2) (fun _ => rfl) fun _ ctx g y hy hg z hz x hx => ⟨g, ?_, hg⟩
  have := Statement.assignment (hz _ (.one hx)) hy
  simpa only [append_assoc, append_empty] using this

theorem exprStatement : ReadsWhole (fun f => (ofLevels f bound n).exprStatement) fun ctx ns g x => Statement ctx ns g x ns := by
  intro t sc
  refine (h.wholeSuffixed t sc).andThen ?_
  rintro e t1 sc rfl
  have hassign : ∀ t, Scans (fun f => (ofLevels f bound n).assignment e) t sc (fun _ _ sc' => sc' = sc)
      fun _ t' _ ctx y => ∀ x, Suffixed ctx sc.visible x ∧ t ≠ .symbol .lparen →
        ∃ g, Statement ctx sc.visible g (x ++ y) sc.visible ∧ (g = true → t' ≠ .symbol .lparen) := fun t =>
    (h.assignment e t sc).imp (fun _ _ _ h => h) fun _ _ _ _ _ _ hy x hx => hy x hx.1
  have hcall : ∀ t, Scans (fun _ => _) t sc (fun _ _ sc' => sc' = sc)
      fun _ t' _ ctx y => ∀ x, Suffixed ctx sc.visible x ∧ t ≠ .symbol .lparen →
        ∃ g, Statement ctx sc.visible g (x ++ y) sc.visible ∧ (g = true → t' ≠ .symbol .lparen) := fun t => by
    refine .still (Quiet.callStatement e) (fun _ => rfl) fun _ ctx x hx => ?_
    rw [append_empty]
    exact ⟨true, .call hx.1, fun _ => hx.2⟩
  refine .token ?_
  cases t1 with
  | symbol sym =>
    cases sym with
    | assign | comma => exact hassign _
    | _ => exact hcall _
  | _ => exact hcall _

theorem skipNoOps (fuel : Nat) : Runs fun f => (ofLevels f bound n).skipNoOps fuel := by
  induction fuel with
  | zero => exact fun t ns l ls => .failNear
  | succ fuel ih =>
    intro t ns l ls
    have hmore : Runs (fun f => (ofLevels f bound n).statement >>= fun _ => (ofLevels f bound n).skipNoOps fuel) :=
      fun t ns l ls => .runMore h.statement fun _ t' more => ih t' (ns ++ more) l ls
    refine .token ?_
    cases t with
    | symbol sym =>
      cases sym with
      | semi | doubleColon => exact hmore _ ns l ls
      | _ => exact Runs.nothing _ ns l ls
    | _ => exact Runs.nothing _ ns l ls

theorem labelStatement (name : Bytes) (line : Nat) (t : Token) (ns : List Bytes) (l : Nat) (ls : List Nat) :
    Scans (fun f => (ofLevels f bound n).labelStatement name line) t (.plain ns (l :: ls))
      (fun _ _ sc' => ∃ more, sc' = .plain (ns ++ more) (l :: ls)) fun _ t' sc' ctx x =>
        Continues ctx ns (word (.symbol .doubleColon) ++ (word (.name name) ++ x)) t' sc'.names := by
  refine .get fun s _ => ?_
  cases hlabel : findLabel? s.fn name with
  | some l => exact .failPlain
  | none =>
    refine .word (.checkNext (by simp)) fun _ t1 => .quiet Quiet.markTarget fun pc => .get fun s' _ => ?_
    refine .quiet (.modifyFn fun _ => ⟨rfl, rfl, rfl, rfl, rfl, rfl⟩) fun _ => ?_
    simp only [bound_ofLevels]
    refine (h.skipNoOps bound t1 ns l ls).andThen ?_
    rintro _ t2 _ ⟨more, rfl⟩
    have hclose : ∀ label : Label, Quiet (do
        Compile.modifyFn fun d => { d with labels := d.labels.set s'.fn.labels.length label }
        closeGotos label) := fun label =>
      Quiet.modifyThen (fun _ => ⟨rfl, rfl, rfl, rfl, rfl, rfl⟩) (Quiet.closeGotos label)
    have hlast : ∀ label : Label, Scans (fun _ => do
        Compile.modifyFn fun d => { d with labels := d.labels.set s'.fn.labels.length label }
        closeGotos label) t2 (.plain (ns ++ more) (l :: ls)) (fun _ _ sc' => ∃ more, sc' = .plain (ns ++ more) (l :: ls))
        fun _ t' sc' ctx y => ∀ x, Continues ctx ns x t2 (ns ++ more) → Continues ctx ns (word (.symbol .doubleColon) ++
          (word (.name name) ++ (word (.symbol .doubleColon) ++ (x ++ y)))) t' sc'.names := fun label => by
      refine .still (hclose label) (fun _ => ⟨_, rfl⟩) fun _ ctx x hx => ?_
      have := (Statement.label name).before hx
      simp only [append_assoc] at this
      rw [append_empty]
      exact this
    refine .quiet (Quiet.atBlockEnd false) fun ends => ?_
    cases ends with
    | true => exact .quiet Quiet.innermostBlock fun b => .quiet (.pure _) hlast
    | false => exact .quiet (.pure _) hlast

theorem returnStatement (sc : Scoping) (t : Token) : Scans (fun f => (ofLevels f bound n).returnStatement) t sc
    (fun _ _ sc' => sc' = sc) fun _ t' _ ctx x => Continues ctx sc.visible (word (.keyword .return) ++ x) t' sc.visible := by
  -- a semicolon may follow
  have hsemi : ∀ t, Scans (fun _ => discard (Compile.testNext (.symbol .semi))) t sc (fun _ _ sc' => sc' = sc)
      fun _ t' _ ctx y => ∀ g x, Statement ctx sc.visible g x sc.visible → (g = true → t ≠ .symbol .lparen) →
        Continues ctx sc.visible (x ++ y) t' sc.visible := by
    refine fun t => .discard (.lastEat (.testNext (by simp)) (fun _ _ _ _ => rfl) ?_)
    rintro _ _ _ ctx (⟨-, rfl⟩ | ⟨-, rfl, -, rfl⟩) g x hx hg
    · intro z last hz hstatements
      rw [append_assoc]
      exact .cons hx (fun _ hhead => by cases hhead) (.cons .semi (fun hg => absurd hg Bool.false_ne_true) hstatements)
    · rw [show words [] = empty from rfl, append_empty]
      exact hx.continues hg
  refine .quiet (Quiet.atBlockEnd true) fun ends => .token ?_
  by_cases hnone : (ends || decide (t = .symbol .semi)) = true
  · simp only [if_pos hnone]
    refine .quiet (Quiet.emitReturn _ _) fun _ => (hsemi t).imp (fun _ _ _ h => h) fun _ _ _ ctx y _ hy => ?_
    exact hy false _ .return fun hg => absurd hg Bool.false_ne_true
  · simp only [if_neg hnone]
    refine .readWhole h.wholeExprs fun r t1 => ?_
    obtain ⟨count, e⟩ := r
    have hdone : Scans (fun _ => discard (Compile.testNext (.symbol .semi))) t1 sc (fun _ _ sc' => sc' = sc)
        fun _ t' _ ctx y => ∀ g x, Expressions ctx sc.visible g x → (g = true → t1 ≠ .symbol .lparen) →
          Continues ctx sc.visible (word (.keyword .return) ++ (x ++ y)) t' sc.visible := by
      refine (hsemi t1).imp (fun _ _ _ h => h) fun _ _ _ ctx y _ hy g x hx hg => ?_
      have := hy g _ (.returnValues hx) hg
      rwa [append_assoc] at this
    refine .get fun s _ => ?_
    dsimp only
    by_cases hmulti : e.place.isMulti = true
    · simp only [if_pos hmulti]
      refine .quiet (Quiet.setReturns _ _) fun _ => ?_
      generalize e.place = p
      cases p with
      | call pc =>
        by_cases hone : count = 1
        · subst hone
          refine .quiet (.modifyFn fun _ => ⟨rfl, rfl, rfl, rfl, rfl, rfl⟩) fun _ => .quiet Quiet.demand fun _ => ?_
          exact .quiet (Quiet.emitReturn _ _) fun _ => hdone
        · obtain rfl | ⟨count, rfl⟩ : count = 0 ∨ ∃ m, count = m + 2 := by
            rcases count with - | - | m
            · exact .inl rfl
            · exact absurd rfl hone
            · exact .inr ⟨m, rfl⟩
          · exact .quiet (Quiet.emitReturn _ _) fun _ => hdone
          · exact .quiet (Quiet.emitReturn _ _) fun _ => hdone
      | _ => exact .quiet (Quiet.emitReturn _ _) fun _ => hdone
    · simp only [if_neg hmulti]
      by_cases hone : count = 1
      · simp only [if_pos hone]
        exact .quiet (Quiet.toAnyRegister e) fun reg => .quiet (Quiet.emitReturn _ _) fun _ => hdone
      · simp only [if_neg hone]
        refine .quiet (Quiet.toNextRegister e).discard fun _ => .quiet Quiet.demand fun _ => ?_
        exact .quiet (Quiet.emitReturn _ _) fun _ => hdone

/-! ## 5. Statements -/

/-- **A statement**, for a given way to read what is nested in it. -/
theorem statementBody : Runs fun f => (ofLevels f bound n).statementBody := by
  intro t ns l ls
  -- only locals hold registers afterwards
  have hafter : Quiet (do
      demand .statementEnd fun d => d.active ≤ d.free && d.free ≤ d.maxStack && d.maxStack < maxRegisters
      Compile.modifyFn fun d => { d with free := d.active }) :=
    Quiet.demand.bind fun _ => .modifyFn fun _ => ⟨rfl, rfl, rfl, rfl, rfl, rfl⟩
  -- one statement that declares nothing outside it
  have hwhole : ∀ {c : Reader → Compile Unit} {t : Token}, (Scans c t (.plain ns (l :: ls))
        (fun _ _ sc' => sc' = .plain ns (l :: ls)) fun _ t' _ ctx x =>
          ∃ g, Statement ctx ns g x ns ∧ (g = true → t' ≠ .symbol .lparen)) →
      Scans (fun f => do
        c f
        demand .statementEnd fun d => d.active ≤ d.free && d.free ≤ d.maxStack && d.maxStack < maxRegisters
        Compile.modifyFn fun d => { d with free := d.active }) t (.plain ns (l :: ls))
        (fun _ _ sc' => ∃ more, sc' = .plain (ns ++ more) (l :: ls)) fun _ t' sc' ctx x => Continues ctx ns x t' sc'.names := by
    intro c t hc
    refine (hc.imp ?_ ?_).thenQuiet hafter
    · rintro _ _ _ rfl
      exact ⟨[], by rw [List.append_nil]⟩
    · rintro _ _ _ ctx x rfl ⟨g, hx, hg⟩
      exact hx.continues hg
  -- and that nothing can make a call of
  have hone : ∀ {c : Reader → Compile Unit} {t : Token}, (Scans c t (.plain ns (l :: ls))
        (fun _ _ sc' => sc' = .plain ns (l :: ls)) fun _ _ _ ctx x => Statement ctx ns false x ns) → _ := fun {c t} hc =>
    hwhole (hc.imp (fun _ _ _ h => h) fun _ _ _ ctx x _ hx => ⟨false, hx, fun hg => absurd hg Bool.false_ne_true⟩)
  have hgoto : ∀ (jumps : JumpList) {t : Token} (ht : t = .keyword .goto ∨ t = .keyword .break), _ := fun jumps t ht => by
    have := gotoStatement jumps ht (.plain ns (l :: ls))
    rw [Scoping.visible_plain] at this
    exact hone this
  have hexpr : ∀ {t : Token}, _ := fun {t} => by
    have := h.exprStatement t (.plain ns (l :: ls))
    rw [Scoping.visible_plain] at this
    exact hwhole this
  refine .quiet Quiet.line fun line => .token ?_
  cases t with
  | symbol sym =>
    cases sym with
    | semi => exact hone (.lastEat (.next (by simp)) (fun _ _ _ _ => rfl) fun _ _ _ ctx hts => hts ▸ .semi)
    | doubleColon =>
      refine .word (.next (by simp)) fun _ t1 => .eat .checkName ?_
      rintro name t2 _ rfl
      exact (h.labelStatement name line t2 ns l ls).thenQuiet hafter
    | _ => exact hexpr
  | keyword k =>
    cases k with
    | «if» => exact hone (h.ifStatement line ns l ls)
    | «while» => exact hone (h.whileStatement line ns l ls)
    | «for» => exact hone (h.forStatement line ns l ls)
    | «repeat» => exact hwhole (h.repeatStatement line ns l ls)
    | function =>
      have := h.functionStatement line (.plain ns (l :: ls))
      rw [Scoping.visible_plain] at this
      exact hone this
    | «do» =>
      refine .word (.next (by simp)) fun _ t1 => .stay h.block fun _ t2 => ?_
      refine .thenQuiet (.lastEat (.checkMatch (.keyword .end) (by simp) _ _) (fun _ _ _ _ => ⟨[], by rw [List.append_nil]⟩) ?_) hafter
      rintro _ _ _ ctx rfl x ⟨last, hx⟩
      exact (Statement.block hx).continues fun hg => absurd hg Bool.false_ne_true
    | «local» =>
      refine .word (.next (by simp)) fun _ t1 => .testNext (by simp) (fun t2 => ?_) fun _ => ?_
      · refine .thenQuiet ((h.localFunction ns l ls t2).imp (fun _ _ _ h => h) ?_) hafter
        exact fun _ _ _ ctx x _ hx => hx.continues fun hg => absurd hg Bool.false_ne_true
      · refine .thenQuiet ((h.localStatement ns l ls t1).imp (fun _ _ _ h => h) ?_) hafter
        rintro _ _ _ ctx x - ⟨g, hx, hg⟩
        exact hx.continues hg
    | «return» =>
      have := h.returnStatement (.plain ns (l :: ls))
      rw [Scoping.visible_plain] at this
      refine .word (.next (by simp)) fun _ t1 => .thenQuiet ((this t1).imp ?_ ?_) hafter
      · rintro _ _ _ rfl
        exact ⟨[], by rw [List.append_nil]⟩
      · rintro _ _ _ ctx x rfl hx
        exact hx
    | goto => exact .quiet Quiet.jump fun jumps => hgoto jumps (.inl rfl)
    | «break» => exact .quiet Quiet.jump fun jumps => hgoto jumps (.inr rfl)
    | _ => exact hexpr
  | _ => exact hexpr

end Nested

/-- **Statements and expressions** with so many levels of nesting. -/
theorem nested (bound : Nat) : ∀ n, Nested bound n
  | 0 => ⟨fun _ _ _ _ => .failNear, fun _ _ _ => .failNear⟩
  | n + 1 =>
    have h := nested bound n
    ⟨h.statementBody, h.expressionBody⟩

/-! ## 6. A whole source -/

def readMain (f : Reader) (bound n : Nat) : Compile Unit := do
  (ofLevels f bound n).statements
  check .eof

theorem readMain_scans (t : Token) : Scans (fun f => readMain f bound n) t (.plain [] [0]) (fun _ t' _ => t' = .eof)
    fun _ _ _ ctx x => ∃ last, Statements ctx [] x last := by
  refine .run (nested bound n).statements fun _ t' more => ?_
  refine .lastEat .check (fun _ _ _ h => h.2) ?_
  rintro _ _ _ ctx ⟨rfl, -⟩ x hx
  refine ⟨more, ?_⟩
  show Statements ctx [] (x ++ empty) more
  rw [append_empty]
  exact hx

def started (s : Compiler) : Compiler :=
  { s with fn := { Draft.new 0 with
      blocks := [⟨0, 0, 0, false, false⟩]
      upvalues := #[⟨some environmentName, true, 0⟩]
      isVararg := true } }

theorem mainFunction_eq (f : Reader) (bound n : Nat) {s : Compiler} (hfn : s.fn = Draft.new 0) :
    (ofLevels f bound n).mainFunction s = (readMain f bound n (started s) >>= fun v => closeBody v.2) := by
  obtain ⟨current, ahead, fault, lastLine, chunk, full, fn, outer⟩ := s
  cases hfn
  show ((ofLevels f bound n).statements >>= fun _ => check .eof >>= fun _ => closeBody) _ = _
  rw [← bind_assoc]
  rfl

theorem started_settled {s : Compiler} (houter : s.outer = []) : Settled ((started s).fn :: (started s).outer) := by
  obtain ⟨current, ahead, fault, lastLine, chunk, full, fn, outer⟩ := s
  cases houter
  refine ⟨fun d hd => ?_, ⟨⟨List.pairwise_singleton _ _, fun i u hu => ?_, fun _ => ⟨_, List.mem_singleton_self _, rfl⟩⟩,
    sound_environment⟩, trivial⟩
  · cases List.mem_singleton.mp hd
    exact ⟨Nat.le_refl _, Nat.zero_le _, fun i hi => absurd hi (Array.not_mem_empty i), Nat.le_of_ble_eq_true rfl, rfl⟩
  · -- the only upvalue is the environment
    obtain ⟨rfl, rfl⟩ : i = 0 ∧ u = ⟨some environmentName, true, 0⟩ := by
      cases i with
      | zero =>
        cases hu
        exact ⟨rfl, rfl⟩
      | succ i => cases hu
    refine ⟨environmentName, 0, 0, rfl, .own rfl fun r' hr' => ?_, .register hu rfl⟩
    rw [Scope.environment, List.getElem?_eq_none (by rw [List.length_singleton]; omega)]
    simp

theorem eof_last {source : Bytes} {ts rest : List Token}
    (h : (Lexer.tokenize source).1.map (·.token) = ts ++ .eof :: rest) : rest = [] := by
  have hnone : ∀ {acc : List Lexeme} {ts rest : List Token}, Token.eof ∉ acc.map (·.token) →
      acc.reverse.map (·.token) ≠ ts ++ .eof :: rest := by
    intro acc ts rest hacc heq
    rw [List.map_reverse] at heq
    exact hacc (List.mem_reverse.mp (heq ▸ List.mem_append_right _ (List.mem_cons_self ..)))
  have hfrom : ∀ (n : Nat) (c : Cursor) (acc : List Lexeme), Token.eof ∉ acc.map (·.token) → ∀ ts rest,
      (Lexer.tokensFrom n c acc).1.map (·.token) = ts ++ .eof :: rest → rest = [] := by
    intro n
    induction n with
    | zero => exact fun c acc hacc ts rest h => absurd h (hnone hacc)
    | succ n ih =>
      intro c acc hacc ts rest h
      unfold Lexer.tokensFrom at h
      split at h
      · exact absurd h (hnone hacc)
      · next x _ _ =>
        split at h
        · -- this token is the end
          rcases rest.eq_nil_or_concat with rfl | ⟨r, z, rfl⟩
          · rfl
          · rw [List.reverse_cons, List.map_append, List.concat_eq_append, ← List.cons_append, ← List.append_assoc] at h
            exact absurd (List.append_inj' h rfl).1 (hnone hacc)
        · next hx =>
          refine ih _ (x :: acc) (fun hmem => ?_) ts rest h
          rcases List.mem_cons.mp hmem with heq | hmem
          · exact hx heq.symm
          · exact hacc hmem
  exact hfrom _ _ [] List.not_mem_nil _ _ h

theorem compileWith_eq {source : Bytes} {first : Lexeme} {rest : List Lexeme} {fault : Option LexError} (chunkName : String)
    (h : Lexer.tokenize source = (first :: rest, fault)) : ∃ s : Compiler, s.outer = [] ∧
      s.tokens = (Lexer.tokenize source).1.map (·.token) ∧ ∀ f : Reader, compileWith f source chunkName =
        (readMain f (rest.length + 2) maxLevels (started s) >>= fun v =>
          closeBody v.2 >>= fun w => .ok (w.2.fn.finish (Bytes.ofString chunkName))) := by
  refine ⟨⟨first, rest, fault, 1, ChunkName.display chunkName, Bytes.ofString chunkName, Draft.new 0, []⟩, rfl, ?_, fun f => ?_⟩
  · rw [h]
    rfl
  · unfold compileWith
    simp only [h]
    rw [← bind_assoc, ← mainFunction_eq f (rest.length + 2) maxLevels rfl]
    unfold StateT.run
    generalize Grammar.mainFunction _ _ = r
    cases r <;> rfl

/-- **Every name of a source is resolved where it stands.** The compiler looks names up in this order, and each is
    answered. If the source is compiled, then they are its names, in the order of the text, each resolved in the
    functions around it as these are when they are finished. -/
theorem compile_resolves (source : Bytes) (chunkName : String) : ∃ log, Asks (fun f => compileWith f source chunkName) log ∧
    (∀ q ∈ log, Answered q) ∧ ∀ p, compile source chunkName = .ok p → ∃ ts os,
      (Lexer.tokenize source).1.map (·.token) = ts ++ [.eof] ∧ Program ts os p ∧
      List.Forall₂ (fun o q => q.name = o.name ∧ Resolved o.around q) os log := by
  generalize htext : (Lexer.tokenize source).1.map (·.token) = text
  have hnothing : ∀ {e : CompileError}, (∀ f : Reader, compileWith f source chunkName = .error e) →
      ∃ log, Asks (fun f => compileWith f source chunkName) log ∧ (∀ q ∈ log, Answered q) ∧
        ∀ p, compile source chunkName = .ok p → ∃ ts os, text = ts ++ [.eof] ∧
          Program ts os p ∧ List.Forall₂ (fun o q => q.name = o.name ∧ Resolved o.around q) os log := by
    intro e he
    simp only [he]
    refine ⟨[], .none _, fun _ hq => absurd hq List.not_mem_nil, fun p hp => ?_⟩
    cases (he _).symm.trans hp
  obtain ⟨lexemes, fault, htok⟩ : ∃ lexemes fault, Lexer.tokenize source = (lexemes, fault) := ⟨_, _, rfl⟩
  cases lexemes with
  | nil =>
    cases fault with
    | none => exact hnothing fun f => by rw [compileWith, htok]
    | some e => exact hnothing fun f => by rw [compileWith, htok]
  | cons first rest =>
    obtain ⟨s, houter, htokens, hrun⟩ := compileWith_eq chunkName htok
    simp only [compile, hrun]
    obtain ⟨log, hasks, hans, hok⟩ := readMain_scans s.current.token (started s) rfl rfl (started_settled houter)
    refine ⟨log, hasks.followed _, hans, fun p hp => ?_⟩
    obtain ⟨⟨_, s₁⟩, hmain, hp⟩ := ok_of_bind hp
    obtain ⟨⟨_, s₂⟩, hclose, hp⟩ := ok_of_bind hp
    cases hp
    obtain ⟨hl, heof, hpass⟩ := hok _ s₁ hmain
    obtain ⟨d, rfl, -, hu, hprotos, -⟩ := closeBody_turns s₁ _ s₂ rfl hl.settled.known hclose
    have hnone : s₁.outer = [] := by
      have hcaptured : CapturedAll [] s₁.outer := houter ▸ hl.outer
      generalize s₁.outer = outer at hcaptured
      cases hcaptured
      rfl
    have hfits : (Context.mk (d.finish (Bytes.ofString chunkName)).upvalues [.environment]).Fits s₁ := by
      refine ⟨heof ▸ List.mem_cons_self .., ?_, ?_, ?_⟩
      · rw [← hu]
        exact List.prefix_refl _
      · rw [hnone]
        exact .refl _
      · have hsound := hl.settled.sound
        rw [hnone] at hsound
        exact ⟨hsound.1.congr (congrArg Array.toList hu), hsound.2⟩
    obtain ⟨x, hx, last, hstatements⟩ := hpass _ hfits
    have hends : text = x.tokens ++ .eof :: s₁.ahead.map (·.token) := by
      rw [← htext, ← htokens, ← heof]
      exact hx.tokens
    refine ⟨x.tokens, x.names, ?_, ⟨last, ?_⟩, hx.names⟩
    · rw [hends, eof_last (htext.trans hends)]
    · have hfinished : (d.finish (Bytes.ofString chunkName)).protos = x.protos := (congrArg Array.toList hprotos).trans hx.protos
      rw [hfinished]
      exact hstatements

end LuaMachine.Lexical
