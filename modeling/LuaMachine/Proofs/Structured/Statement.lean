/-
  STATEMENTS ARE READ. Each statement does what its trace says, provided that the statements nested in it
  do.

  * `Statement.Reads`, one theorem for each kind of statement; **`Program.reads`** -- any statements.
-/
import LuaMachine.Proofs.Structured.Looping

namespace LuaMachine

open Structured Compile Draft

/-! ## 1. First tokens -/

theorem Token.Apart.of_ends {t : Token} (h : t.endsBlock true = true) : t.Apart := by
  unfold Token.endsBlock at h
  split at h <;> first
    | exact ⟨rfl, rfl, by simp, by simp, by simp⟩
    | cases h

namespace Structured

theorem Statement.tokens_first (s : Statement) : ∃ t ts, s.tokens = t :: ts ∧ t.Apart ∧
    (∀ withUntil, t.endsBlock withUntil = false) ∧ t ≠ .keyword .return := by
  cases s <;> exact ⟨_, _, rfl, ⟨rfl, rfl, by simp, by simp, by simp⟩, fun _ => rfl, by simp⟩

theorem Program.tokens_first (body : Program) {t : Token} (more : List Token) (ht : t.Apart) :
    ∃ t' more', body.tokens ++ t :: more = t' :: more' ∧ t'.Apart := by
  cases body with
  | nil => exact ⟨t, more, rfl, ht⟩
  | cons s rest =>
    obtain ⟨t', ts, hs, happart, -⟩ := s.tokens_first
    exact ⟨t', ts ++ (rest.tokens ++ t :: more), by rw [Program.tokens, hs]; simp, happart⟩

theorem Branches.tokens_first (rest : Branches) :
    ∃ t ts, rest.tokens = t :: ts ∧ t.endsBlock true = true ∧ t.endsBlock false = true := by
  cases rest <;> exact ⟨_, _, rfl, rfl, rfl⟩

end Structured

namespace Compile

theorem Writes.markTarget_receives {d : Draft} :
    Writes Compile.markTarget d fun pc d' => pc = d.pc ∧ d' = d.receive [] :=
  Writes.markTarget.imp fun _ d' h => ⟨h.1, by rw [h.2, receive_nil]; rfl⟩

theorem Writes.innermostBlock_finds {d : Draft} {b : Block} {around : List Block} (h : d.blocks = b :: around) :
    Writes Compile.innermostBlock d fun a d' => a = (b.captured, b.active) ∧ d' = d := by
  refine Writes.get fun s hs => ?_
  rw [hs, h]
  exact Writes.pure ⟨rfl, rfl⟩

namespace Takes

variable {β : Type} {f : Unit → Compile β} {t : Token} {more : List Token} {d : Draft} {Q : β → List Token → Draft → Prop}

theorem skipSemicolons {m : Nat} (ht : t.Apart) (h : Takes (f ()) (t :: more) d Q) :
    Takes (Grammar.skipSemicolons m >>= f) (t :: more) d Q := by
  cases m with
  | zero => exact Takes.failNear
  | succ m => exact Takes.bind (Takes.testNext_stay ht.semi (Takes.pure h))

theorem atBlockEnd {f : Bool → Compile β} {withUntil : Bool} (h : Takes (f (t.endsBlock withUntil)) (t :: more) d Q) :
    Takes (Compile.atBlockEnd withUntil >>= f) (t :: more) d Q :=
  Takes.bind (Takes.token (Takes.pure h))

end Takes

end Compile

namespace Grammar

variable {names : List Bytes} {bound n m : Nat} {t : Token} {more : List Token} {d d1 : Draft} {list : List Nat}
  {c : Formula} {body : Program}

/-! ## 2. Conditions -/

theorem condition_takes (hc : c.Fits names) (ht : ∀ level, t.Ends level) (hd : d.Between list names) :
    Takes (ofLevels Compile.named bound n).condition (c.tokens ++ t :: more) d fun l ts d' =>
      ts = t :: more ∧ Tested (d.pending 0 ++ list) names d c false l d' := by
  refine (expr_computes hc ht hd.begins hd.knows).andThen fun e ts d1 h => ?_
  obtain ⟨rfl, h⟩ := h
  show Takes (goIfTrue e.asCondition) _ _ _
  exact Takes.ofWrites (Writes.goIfTrue_gates h.sits.asCondition h.roomy h.tight) fun l d' hg =>
    ⟨rfl, h.tested hd.roomy hg (.inr rfl)⟩

end Grammar

/-! ## 3. Blocks -/

def Structured.Program.Reads (body : Program) : Prop :=
  ∀ (names : List Bytes) (list : List Nat) (bound n m : Nat) (t : Token) (more : List Token) (d : Draft),
    body.Fits names → t.endsBlock true = true → d.Between list names →
    Takes ((Grammar.ofLevels Compile.named bound n).statementsFrom m) (body.tokens ++ t :: more) d fun _ ts d' =>
      ts = t :: more ∧ Performs list names (body.scoped names) (fun bound vs => body.run bound names vs) d d'

namespace Grammar

variable {names : List Bytes} {bound n m line : Nat} {t : Token} {more : List Token} {d d1 : Draft} {list : List Nat}
  {c : Formula} {body : Program}

theorem block_takes (hb : body.Reads) (hf : body.Fits names) (ht : t.endsBlock true = true) (hd : d.Between list names) :
    Takes (ofLevels Compile.named bound n).block (body.tokens ++ t :: more) d fun _ ts d' =>
      ts = t :: more ∧
        Performs list names names (fun bound vs => (body.run bound names vs).leaving vs.length) d d' := by
  refine Takes.write Writes.enterBlock_enters fun _ d1 h => ?_
  subst h
  refine (hb names list bound n _ t more _ hf ht (hd.enter false)).andThen fun _ ts d2 h => ?_
  obtain ⟨rfl, h⟩ := h
  exact Takes.ofWrites (h.scope_ends hd) fun _ d' h => ⟨rfl, h⟩

/-! ## 4. Branches -/

theorem branchEnd_takes {rest : Branches} {ts after : List Token} {leaving passing : JumpList}
    {yes : Nat → List Value → Trace} {d0 : Draft} (hafter : after = rest.tokens ++ more)
    (h : Takes (ofLevels Compile.named bound n).statements ts d fun _ ts' d1 => ts' = after ∧
      Writes leaveBlock d1 fun _ d' => Guarded (list ++ leaving) names c yes passing d0 d') :
    Takes ((ofLevels Compile.named bound n).branchEnd leaving passing) ts d fun leaving' ts' d' =>
      ts' = after ∧ Chooses list names (rest = .done) c yes leaving leaving' d0 d' := by
  subst hafter
  refine h.andThen fun _ ts' d1 h => ?_
  obtain ⟨rfl, h⟩ := h
  refine Takes.write h fun _ d2 hg => ?_
  have hb := hg.between
  have hlater : ∀ ts', Takes (do
      let leaving' ← joinJumps leaving (← jump)
      patchHere passing
      return leaving') ts' d2 fun leaving' ts'' d' =>
        ts'' = ts' ∧ Chooses list names (rest = .done) c yes leaving leaving' d0 d' := by
    intro ts'
    refine Takes.write (Writes.jump_departs hb.waits hb.roomy hb.calm) fun l d3 hj => ?_
    refine Takes.write (Writes.joinJumps leaving l) fun leaving' d4 h => ?_
    obtain ⟨rfl, rfl⟩ := h
    refine Takes.write Writes.patchHere_receives fun _ d' h => Takes.pure ⟨rfl, ?_⟩
    subst h
    exact hg.departs hj
  cases rest with
  | done =>
    refine Takes.token (Takes.bind (Takes.pure ?_))
    refine Takes.write Writes.patchHere_receives fun _ d' h => Takes.pure ⟨rfl, ?_⟩
    subst h
    exact hg.ends rfl
  | otherwise body => exact Takes.token (hlater _)
  | also c body rest => exact Takes.token (hlater _)

theorem branch_statements (bound n : Nat) {rest : Branches} {leaving : JumpList} {e : Expr} (hb : body.Reads)
    (hf : body.Fits names) (hd : d.Between (list ++ leaving) names)
    (hc : Computes (d.pending 0 ++ (list ++ leaving)) d (c.meaning names) e d1) :
    Takes (do
      let passing ← goIfTrue e
      enterBlock false
      (ofLevels Compile.named bound n).branchEnd leaving passing) (body.tokens ++ (rest.tokens ++ t :: more)) d1
      fun leaving' ts d' => ts = rest.tokens ++ t :: more ∧ Chooses list names (rest = .done) c
        (fun bound vs => (body.run bound names vs).leaving vs.length) leaving leaving' d d' := by
  refine Takes.write (Writes.goIfTrue_gates hc.sits hc.roomy hc.tight) fun passing d2 hg => ?_
  have htested := hc.tested hd.roomy hg (.inl rfl)
  have hd2 := htested.between hd
  refine Takes.write Writes.enterBlock_enters fun _ d3 h => branchEnd_takes rfl ?_
  subst h
  obtain ⟨w, ts, hw, hends, -⟩ := rest.tokens_first
  rw [hw, List.cons_append]
  refine (hb names _ bound n _ w _ _ hf hends (hd2.enter false)).imp fun _ ts d3 h => ⟨h.1, ?_⟩
  exact (h.2.scope_ends hd2).imp fun _ d4 h => .of_tested htested hd h

theorem branch_break {rest : Branches} {leaving : JumpList} {e : Expr} (hb : body.Reads) (hf : body.Fits names)
    (hd : d.Between (list ++ leaving) names)
    (hc : Computes (d.pending 0 ++ (list ++ leaving)) d (c.meaning names) e d1) :
    Takes (do
      let jumps ← goIfFalse e
      enterBlock false
      gotoStatement jumps
      skipSemicolons (ofLevels Compile.named bound n).bound
      if ← atBlockEnd false then
        leaveBlock
        return leaving
      else
        let passing ← jump
        (ofLevels Compile.named bound n).branchEnd leaving passing)
      (.keyword .break :: (body.tokens ++ (rest.tokens ++ t :: more))) d1
      fun leaving' ts d' => ts = rest.tokens ++ t :: more ∧ Chooses list names (rest = .done) c
        (fun _ vs => (Trace.stop (.broke vs)).leaving vs.length) leaving leaving' d d' := by
  refine Takes.write (Writes.goIfFalse_gates hc.sits hc.roomy hc.tight) fun l d2 hg => ?_
  have htested := hc.tested hd.roomy hg (.inl rfl)
  have hd2 := htested.between hd
  refine Takes.write Writes.enterBlock_enters fun _ d3 h => ?_
  subst h
  obtain ⟨w, ts, hw, hends, hend⟩ := rest.tokens_first
  have hafter : rest.tokens ++ t :: more = w :: (ts ++ t :: more) := by rw [hw, List.cons_append]
  rw [hafter]
  have hne : body.tokens ++ w :: ts.append (t :: more) ≠ [] := by simp
  refine (Takes.gotoStatement_breaks (hd2.enter false).labels hne).andThen fun _ ts' d4 h => ?_
  obtain ⟨rfl, line, rfl⟩ := h
  have hbroken : ((d2.enter false).breaks l line).Between (list ++ leaving) names := (hd2.enter false).breaks
  cases body with
  | nil =>
    refine Takes.skipSemicolons (.of_ends hends) (Takes.atBlockEnd ?_)
    rw [if_pos hend]
    exact Takes.write (Chooses.of_break htested hd) fun _ d' h => Takes.pure ⟨rfl, h⟩
  | cons s b =>
    obtain ⟨w', ts', hw', happart, hgoes, -⟩ := s.tokens_first
    have hread := fun (d : Draft) list =>
      hb names list bound n (ofLevels Compile.named bound n).bound w (ts ++ t :: more) d hf hends
    rw [Program.tokens, hw', List.cons_append, List.cons_append] at hread ⊢
    refine Takes.skipSemicolons happart (Takes.atBlockEnd ?_)
    rw [hgoes false, if_neg Bool.false_ne_true]
    refine Takes.write (Writes.jump_departs hbroken.waits hbroken.roomy hbroken.calm) fun passing d3 hj => ?_
    refine branchEnd_takes hafter.symm ?_
    have hd3 := hbroken.further hj.moves hj.waits hj.roomy hj.fresh.tight hj.free
    exact (hread d3 _ hd3).imp fun _ ts d4 h => ⟨h.1, Guarded.of_break htested hd hj h.2⟩

/-- **A branch is read**, with the first token of what follows it. -/
theorem branch_takes {rest : Branches} {leaving : JumpList} (w : Token) (hc : c.Fits names) (hb : body.Reads)
    (hbt : ∀ s b, body = .cons s b → b.Reads) (hf : body.Fits names) (hd : d.Between (list ++ leaving) names) :
    Takes ((ofLevels Compile.named bound n).branch leaving)
      (w :: (c.tokens ++ .keyword .then :: (body.tokens ++ (rest.tokens ++ t :: more)))) d fun leaving' ts d' =>
        ts = rest.tokens ++ t :: more ∧ Chooses list names (rest = .done) c
          (fun bound vs => (body.run bound names vs).leaving vs.length) leaving leaving' d d' := by
  refine Takes.next (by simp) ?_
  refine (expr_computes hc (show ∀ level, (Token.keyword .then).Ends level from fun _ => rfl) hd.begins hd.knows).andThen
    fun e ts d1 h => ?_
  obtain ⟨rfl, h⟩ := h
  refine Takes.checkNext (by simp) ?_
  have hplain : Takes _ (body.tokens ++ (rest.tokens ++ t :: more)) d1 _ := branch_statements bound n hb hf hd h
  cases body with
  | nil =>
    rw [Program.tokens, List.nil_append] at hplain ⊢
    cases rest <;> exact Takes.token hplain
  | cons s b =>
    cases s with
    | leave => exact Takes.token (branch_break (hbt _ _ rfl) hf.2 hd h)
    | _ => exact Takes.token hplain

/-! ## 5. Conditionals -/

def conclude (g : Grammar) (m line : Nat) (leaving : JumpList) : Compile Unit := do
  let leaving ← g.branchesFrom m leaving
  if ← testNext (.keyword .else) then g.block
  checkMatch (.keyword .end) (.keyword .if) line
  patchHere leaving

end Grammar

def Structured.Branches.Reads (rest : Branches) : Prop :=
  ∀ (names : List Bytes) (list : List Nat) (leaving : JumpList) (bound n m line : Nat) (t : Token) (more : List Token)
    (d : Draft), rest.Fits names → d.Between (list ++ leaving) names →
    Takes ((Grammar.ofLevels Compile.named bound n).conclude m line leaving) (rest.tokens ++ t :: more) d fun _ ts d' =>
      ts = t :: more ∧ Concludes list names (rest = .done) (fun bound vs => rest.run bound names vs) leaving d d'

namespace Grammar

variable {names : List Bytes} {bound n m line : Nat} {t : Token} {more : List Token} {d d1 : Draft} {list : List Nat}
  {c : Formula} {body : Program} {rest : Branches} {leaving : JumpList}

theorem branchesFrom_stop {Q : JumpList → List Token → Draft → Prop} (ht : t ≠ .keyword .elseif) (hq : Q leaving (t :: more) d) :
    Takes ((ofLevels Compile.named bound n).branchesFrom m leaving) (t :: more) d Q := by
  cases m with
  | zero => exact Takes.failNear
  | succ m =>
    refine Takes.token ?_
    rw [if_neg ht]
    exact Takes.pure hq

theorem reads_done : Branches.done.Reads := by
  intro names list leaving bound n m line t more d _ hd
  refine Takes.bind (branchesFrom_stop (by simp) ?_)
  refine Takes.testNext_stay (by simp) (Takes.checkMatch (by simp) ?_)
  refine Takes.ofWrites Writes.patchHere_receives fun _ d' h => ⟨rfl, ?_⟩
  subst h
  exact (Performs.nothing hd).concludes fun _ => rfl

theorem reads_otherwise (hb : body.Reads) : (Branches.otherwise body).Reads := by
  intro names list leaving bound n m line t more d hf hd
  rw [show (Branches.otherwise body).tokens ++ t :: more = .keyword .else :: (body.tokens ++ .keyword .end :: t :: more) by
    simp [Branches.tokens]]
  refine Takes.bind (branchesFrom_stop (by simp) ?_)
  refine Takes.testNext_pass (by simp) ?_
  rw [if_pos rfl]
  refine (block_takes hb hf rfl hd).andThen fun _ ts d1 h => ?_
  obtain ⟨rfl, h⟩ := h
  refine Takes.checkMatch (by simp) (Takes.ofWrites Writes.patchHere_receives fun _ d' hd' => ⟨rfl, ?_⟩)
  subst hd'
  exact h.concludes (by simp)

/-- **Another branch with a condition.** -/
theorem reads_also (hb : body.Reads) (hbt : ∀ s b, body = .cons s b → b.Reads) (hrest : rest.Reads) :
    (Branches.also c body rest).Reads := by
  intro names list leaving bound n m line t more d hf hd
  rw [show (Branches.also c body rest).tokens ++ t :: more =
    .keyword .elseif :: (c.tokens ++ .keyword .then :: (body.tokens ++ (rest.tokens ++ t :: more))) by simp [Branches.tokens]]
  cases m with
  | zero => exact Takes.bind Takes.failNear
  | succ m =>
    unfold conclude branchesFrom
    rw [bind_assoc]
    refine Takes.token ?_
    rw [if_pos rfl, bind_assoc]
    refine (branch_takes _ hf.1 hb hbt hf.2.1 hd).andThen fun leaving' ts d1 h => ?_
    obtain ⟨rfl, h⟩ := h
    refine (hrest names list leaving' bound n m line t more d1 hf.2.2 h.between).imp fun _ ts d' h' => ⟨h'.1, ?_⟩
    exact h.concludes h'.2 (by simp)

/-! ## 6. Statements -/

end Grammar

def Structured.Statement.Reads (s : Statement) : Prop :=
  ∀ (names : List Bytes) (list : List Nat) (bound n : Nat) (t : Token) (more : List Token) (d : Draft),
    s.Fits names → t.Apart → d.Between list names →
    Takes (Grammar.ofLevels Compile.named bound n).statementBody (s.tokens ++ t :: more) d fun _ ts d' =>
      ts = t :: more ∧ Performs list names (s.scoped names) (fun bound vs => s.run bound names vs) d d'

namespace Grammar

variable {c : Formula} {body : Program} {rest : Branches}

theorem reads_choose (hb : body.Reads) (hbt : ∀ s b, body = .cons s b → b.Reads) (hrest : rest.Reads) :
    (Statement.choose c body rest).Reads := by
  intro names list bound n t more d hf ht hd
  rw [show (Statement.choose c body rest).tokens ++ t :: more =
    .keyword .if :: (c.tokens ++ .keyword .then :: (body.tokens ++ (rest.tokens ++ t :: more))) by simp [Statement.tokens]]
  refine Takes.line fun line => Takes.token (Performs.read ?_)
  refine (branch_takes _ hf.1 hb hbt hf.2.1 hd.nil).andThen fun leaving ts d1 h => ?_
  obtain ⟨rfl, h⟩ := h
  refine (hrest names list leaving bound n _ line t more d1 hf.2.2 h.between).imp fun _ ts d' h' => ⟨h'.1, ?_⟩
  have hall : Concludes list names False _ [] d d' := h.concludes h'.2 id
  exact hall.performs

theorem reads_scope (hb : body.Reads) : (Statement.scope body).Reads := by
  intro names list bound n t more d hf ht hd
  rw [show (Statement.scope body).tokens ++ t :: more = .keyword .do :: (body.tokens ++ .keyword .end :: t :: more) by
    simp [Statement.tokens]]
  refine Takes.line fun line => Takes.token (Takes.next (by simp) ?_)
  refine (block_takes hb hf rfl hd).andThen fun _ ts d1 h => ?_
  obtain ⟨rfl, h⟩ := h
  exact Takes.checkMatch (by simp) (Takes.ofWrites h.ends fun _ d' h => ⟨rfl, h⟩)

theorem reads_leave : Statement.leave.Reads := by
  intro names list bound n t more d hf ht hd
  refine Takes.line fun line => Takes.token ?_
  refine Takes.write (Writes.jump_departs hd.waits hd.roomy hd.calm) fun l d1 hj => ?_
  have hlabels : d1.labels = [] := hj.moves.labels.trans hd.labels
  refine (Takes.gotoStatement_breaks hlabels (by simp)).andThen fun _ ts d2 h => ?_
  obtain ⟨rfl, line', rfl⟩ := h
  exact Takes.ofWrites (hj.performs hd line').ends fun _ d' h => ⟨rfl, h⟩

theorem reads_loop (hb : body.Reads) : (Statement.loop c body).Reads := by
  intro names list bound n t more d hf ht hd
  have hd0 : (d.receive []).Between list names := hd.nil.receive
  rw [show (Statement.loop c body).tokens ++ t :: more =
    .keyword .while :: (c.tokens ++ .keyword .do :: (body.tokens ++ .keyword .end :: t :: more)) by simp [Statement.tokens]]
  refine Takes.line fun line => Takes.token (Performs.read ?_)
  refine Takes.next (by simp) (Takes.write Writes.markTarget_receives fun start d0 h => ?_)
  obtain ⟨rfl, rfl⟩ := h
  refine (condition_takes hf.1 (show ∀ level, (Token.keyword .do).Ends level from fun _ => rfl) hd0).andThen fun l ts d1 h => ?_
  obtain ⟨rfl, htested⟩ := h
  have hd1 := htested.between hd0
  refine Takes.write Writes.enterBlock_enters fun _ d2 h => Takes.checkNext (by simp) ?_
  subst h
  refine (block_takes hb hf.2 rfl (hd1.enter true)).andThen fun _ ts d2 h => ?_
  obtain ⟨rfl, hbody⟩ := h
  have hd2 := hbody.between
  refine Takes.write (Writes.jump_departs hd2.waits hd2.roomy hd2.calm) fun back d3 hj => ?_
  have hd3 := hd2.further hj.moves hj.waits hj.roomy hj.fresh.tight hj.free
  have hpc : d.pc < d3.pc := by
    have h1 : d.pc ≤ d1.pc := htested.moves.grows
    have h2 : d1.pc ≤ d2.pc := hbody.onward.grows
    have h3 := hj.longer
    omega
  refine Takes.write (Writes.patchTo_backs hd3 fun h => absurd h (Nat.ne_of_lt hpc)) fun _ d4 hback => ?_
  have honward : (d1.enter true).Onward (list ++ l) d4 := (hbody.onward.trans (.of_moves hj.moves)).trans hback.onward
  refine Takes.checkMatch (by simp) (Takes.write (hd1.leavesLoop hback.between honward) fun _ d5 h => ?_)
  refine Takes.ofWrites Writes.patchHere_receives fun _ d' hd' => ⟨rfl, ?_⟩
  subst hd'
  exact Performs.while_ends hd htested hbody hj hback h.1 h.2

theorem reads_again (hb : body.Reads) : (Statement.again body c).Reads := by
  intro names list bound n t more d hf ht hd
  have hd0 : (d.receive []).Between list names := hd.nil.receive
  have hd1 : (((d.receive []).enter true).enter false).Between list names := (hd0.enter true).enter false
  rw [show (Statement.again body c).tokens ++ t :: more =
    .keyword .repeat :: (body.tokens ++ .keyword .until :: (c.tokens ++ t :: more)) by simp [Statement.tokens]]
  refine Takes.line fun line => Takes.token (Performs.read ?_)
  refine Takes.write Writes.markTarget_receives fun start d0 h => ?_
  obtain ⟨rfl, rfl⟩ := h
  refine Takes.write Writes.enterBlock_enters fun _ d1 h => Takes.write Writes.enterBlock_enters fun _ d2 h' => ?_
  subst h h'
  refine Takes.next (by simp) ?_
  refine (hb names list bound n _ _ _ _ hf.1 rfl hd1).andThen fun _ ts d2 h => ?_
  obtain ⟨rfl, hbody⟩ := h
  refine Takes.checkMatch (by simp) ?_
  refine (condition_takes hf.2 ht.ends hbody.between).andThen fun l ts d3 h => ?_
  obtain ⟨rfl, htested⟩ := h
  have hd3 := htested.between hbody.between
  have hblocks : d3.blocks = _ :: _ := htested.moves.blocks.trans hbody.onward.blocks
  refine Takes.write (Writes.innermostBlock_finds hblocks) fun a d3' h => ?_
  obtain ⟨rfl, rfl⟩ := h
  -- no local of the body is captured
  show Takes (if false = true then _ else _) _ _ _
  rw [if_neg Bool.false_ne_true]
  have honward : (((d.receive []).enter true).enter false).Onward list d3' := hbody.onward.trans (.of_moves htested.moves)
  refine Takes.write ((hd0.enter true).leaves hd3 honward hbody.scope) fun _ d4 h => ?_
  obtain ⟨b, hleft, hd4, honward4⟩ := h
  refine Takes.write (Writes.patchTo_backs hd4 fun hpc : d.pc = _ => ?_) fun _ d5 hback => ?_
  · -- no code at all: then no jump goes back
    have h2 : d.pc ≤ d2.pc := hbody.onward.grows
    have h3 := htested.moves.grows
    rw [hleft.pc] at hpc
    exact htested.quiet (by omega)
  refine Takes.ofWrites (hd0.leavesLoop hback.between (honward4.trans hback.onward)) fun _ d' h => ⟨rfl, ?_⟩
  exact Performs.until_ends hd hbody htested hleft hback h.1 h.2

/-! ## 7. Programs -/

theorem reads_nil : Program.nil.Reads := by
  intro names list bound n m t more d _ ht hd
  cases m with
  | zero => exact Takes.failNear
  | succ m =>
    refine Takes.atBlockEnd ?_
    rw [if_pos ht]
    exact Takes.pure ⟨rfl, .nothing hd⟩

/-- **A statement and those behind it.** -/
theorem reads_cons {s : Statement} (hs : s.Reads) (hb : body.Reads) : (Program.cons s body).Reads := by
  intro names list bound n m t more d hf ht hd
  obtain ⟨w, ts, hw, -, hgoes, hreturn⟩ := s.tokens_first
  obtain ⟨w', more', hw', happart⟩ := body.tokens_first more (.of_ends ht)
  have htokens : (Program.cons s body).tokens ++ t :: more = w :: (ts ++ w' :: more') := by
    rw [Program.tokens, hw, List.append_assoc, hw', List.cons_append]
  rw [htokens]
  cases m with
  | zero => exact Takes.failNear
  | succ m =>
    refine statementsFrom_step (hgoes true) ?_
    simp only [hreturn, if_false]
    cases n with
    | zero => exact Takes.failNear
    | succ n =>
      have hread := hs names list bound n w' more' d hf.1 happart hd
      rw [hw, List.cons_append] at hread
      refine hread.imp fun _ ts' d1 h => ?_
      obtain ⟨rfl, h⟩ := h
      rw [← hw']
      refine (hb _ list bound (n + 1) m t more d1 hf.2 ht h.between).imp fun _ ts'' d' h' => ⟨h'.1, ?_⟩
      exact h.andThen h'.2

end Grammar

open Grammar in
/-- **Any statements are read**, and do what their trace says. -/
theorem Structured.Program.reads (body : Program) : body.Reads := by
  -- where a branch begins with a break, what stands behind it is read without it
  suffices h : body.Reads ∧ ∀ s b, body = .cons s b → b.Reads from h.1
  refine @Program.rec (fun s => s.Reads) (fun b => b.Reads ∧ ∀ s b', b = .cons s b' → b'.Reads) (fun r => r.Reads)
    ?declare ?assign ?scope ?choose ?loop ?again ?leave ?nil ?cons ?done ?otherwise ?also body
  case declare => exact fun x xs es names list bound n t more d hf ht hd => declare_takes hf ht hd
  case assign => exact fun x a names list bound n t more d hf ht hd => assign_takes hf ht hd
  case scope => exact fun _ hb => reads_scope hb.1
  case choose => exact fun c _ _ hb hrest => reads_choose hb.1 hb.2 hrest
  case loop => exact fun c _ hb => reads_loop hb.1
  case again => exact fun _ c hb => reads_again hb.1
  case leave => exact reads_leave
  case nil => exact ⟨reads_nil, by simp⟩
  case cons =>
    refine fun s b hs hb => ⟨reads_cons hs hb.1, fun s' b' h => ?_⟩
    cases h
    exact hb.1
  case done => exact reads_done
  case otherwise => exact fun _ hb => reads_otherwise hb.1
  case also => exact fun c _ _ hb hrest => reads_also hb.1 hb.2 hrest

end LuaMachine
