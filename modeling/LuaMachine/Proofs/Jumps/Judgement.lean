/-
  WHAT A STEP OF THE COMPILATION DOES WITH LISTS OF JUMPS. A judgement says which lists it is given, which
  it gives back with its answer, and that the way from the ones to the others consists of steps of code and
  lists. Whatever other lists there are, they are there afterwards.
-/
import LuaMachine.Proofs.Jumps.Step

namespace LuaMachine

open Operand (noRegister)

def Draft.waiting (d : Draft) (lists : List JumpList) : Unaimed := ⟨d.code, d.here :: lists⟩

namespace Compile

variable {α β : Type}

/-- From this innermost draft, given some lists, the step fails or gives other lists with its answer, by steps of
    code and lists. Other lists stay, and so do the pending gotos. -/
def Moves (x : Compile α) (d : Draft) (lists : List JumpList) (give : α → List JumpList)
    (Q : α → Draft → Prop) : Prop :=
  Writes x d fun a d' => d'.gotos = d.gotos ∧
    (∀ more, (d.waiting (lists ++ more)).Steps (d'.waiting (give a ++ more))) ∧ Q a d'

def Still (x : Compile α) : Prop := ∀ d, Writes x d fun _ d' => d'.code = d.code ∧ d'.here = d.here ∧ d'.gotos = d.gotos

/-! ## 1. Steps that touch no code -/

namespace Still

variable {x : Compile α} {f : α → Compile β}

theorem bind (hx : Still x) (hf : ∀ a, Still (f a)) : Still (x >>= f) := by
  intro d
  refine (hx d).andThen fun a d1 h1 => (hf a d1).imp fun _ d2 h2 => ?_
  exact ⟨h2.1.trans h1.1, h2.2.1.trans h1.2.1, h2.2.2.trans h1.2.2⟩

theorem pure {a : α} : Still (Pure.pure a) := fun _ => Writes.pure ⟨rfl, rfl, rfl⟩

theorem get {f : Compiler → Compile β} (hf : ∀ s, Still (f s)) : Still (MonadState.get >>= f) := fun d =>
  Writes.get fun s _ => hf s d

theorem ofFn {g : Draft → α} : Still (Compile.ofFn g) := get fun _ => pure

theorem modifyFn {g : Draft → Draft} (hg : ∀ d, (g d).code = d.code ∧ (g d).here = d.here ∧ (g d).gotos = d.gotos) :
    Still (Compile.modifyFn g) := fun d => Writes.modifyFn (hg d)

theorem failNear {e : CompileFault} : Still (failNear e : Compile α) := fun _ => Writes.failNear

theorem failLimit {what : Limited} {n : Nat} : Still (failLimit what n : Compile α) := fun _ => Writes.failLimit

theorem demand {rule : RegisterRule} {keeps : Draft → Bool} : Still (demand rule keeps) := by
  refine get fun s => ?_
  split
  · exact failNear
  · exact pure

theorem discard (hx : Still x) : Still (discard x) := fun d => Writes.discard (hx d)

theorem markTarget : Still markTarget :=
  bind (modifyFn (g := fun d => { d with lastTarget := d.pc }) fun _ => ⟨rfl, rfl, rfl⟩) fun _ => ofFn

theorem fixLine {line : Nat} : Still (fixLine line) := modifyFn fun _ => ⟨rfl, rfl, rfl⟩

end Still

namespace Moves

variable {x : Compile α} {f : α → Compile β} {d : Draft} {lists lists' : List JumpList} {give : α → List JumpList}
  {Q : α → Draft → Prop} {R : β → List JumpList} {P : β → Draft → Prop}

/-! ## 2. Steps one after another -/

theorem imp {Q' : α → Draft → Prop} (h : Moves x d lists give Q) (hq : ∀ a d', Q a d' → Q' a d') :
    Moves x d lists give Q' :=
  Writes.imp h fun a d' hr => ⟨hr.1, hr.2.1, hq a d' hr.2.2⟩

theorem regroup {give' : α → List JumpList} (h : Moves x d lists give Q) (hl : SameLists lists' lists)
    (hg : ∀ a d', Q a d' → SameLists (give a) (give' a)) : Moves x d lists' give' Q := by
  refine Writes.imp h fun a d' hr => ⟨hr.1, fun more => ?_, hr.2.2⟩
  refine .head (.regroup ((hl.append_right more).cons d.here)) ((hr.2.1 more).tail ?_)
  exact .regroup (((hg a d' hr.2.2).append_right more).cons d'.here)

theorem taking (h : Moves x d lists give Q) (hl : SameLists lists' lists) : Moves x d lists' give Q :=
  h.regroup hl fun _ _ _ => .refl _

theorem frame (h : Moves x d lists give Q) (more : List JumpList) :
    Moves x d (lists ++ more) (fun a => give a ++ more) Q := by
  refine Writes.imp h fun a d' hr => ⟨hr.1, fun rest => ?_, hr.2.2⟩
  rw [List.append_assoc, List.append_assoc]
  exact hr.2.1 (more ++ rest)

theorem andThen {K taken : List JumpList} (h : Moves x d taken give Q) (hl : SameLists lists (taken ++ K))
    (hf : ∀ a d', Q a d' → Moves (f a) d' (give a ++ K) R P) : Moves (x >>= f) d lists R P := by
  refine Writes.andThen h fun a d1 hr1 => Writes.imp (hf a d1 hr1.2.2) fun b d2 hr2 => ?_
  refine ⟨hr2.1.trans hr1.1, fun more => ?_, hr2.2.2⟩
  have hfirst := hr1.2.1 (K ++ more)
  have hsecond := hr2.2.1 more
  rw [List.append_assoc] at hsecond
  refine .head (.regroup ?_) (hfirst.trans hsecond)
  rw [← List.append_assoc]
  exact (hl.append_right more).cons d.here

theorem next (h : Moves x d lists give Q) (hf : ∀ a d', Q a d' → Moves (f a) d' (give a) R P) :
    Moves (x >>= f) d lists R P :=
  h.andThen (K := []) (by rw [List.append_nil]; exact .refl _) fun a d' hq => by
    rw [List.append_nil]
    exact hf a d' hq

theorem beside (h : Moves x d [] give Q) (hf : ∀ a d', Q a d' → Moves (f a) d' (give a ++ lists) R P) :
    Moves (x >>= f) d lists R P :=
  h.andThen (.refl _) hf

theorem along (h : Moves x d [] (fun _ => []) Q) (hf : ∀ a d', Q a d' → Moves (f a) d' lists R P) :
    Moves (x >>= f) d lists R P :=
  h.beside hf

theorem pure {a : α} (hl : SameLists lists (give a)) (hq : Q a d) : Moves (Pure.pure a) d lists give Q :=
  Writes.pure ⟨rfl, fun more => .single (.regroup ((hl.append_right more).cons d.here)), hq⟩

theorem discard {give : Unit → List JumpList} {Q : Unit → Draft → Prop}
    (h : Moves x d lists (fun _ => give ()) fun _ d' => Q () d') : Moves (Functor.discard x) d lists give Q :=
  Writes.discard (Writes.imp h fun _ _ hr => hr)

theorem get {f : Compiler → Compile β} (h : ∀ s, s.fn = d → Moves (f s) d lists R P) :
    Moves (MonadState.get >>= f) d lists R P := Writes.get h

theorem ofFn {g : Draft → α} (h : Moves (f (g d)) d lists R P) : Moves (Compile.ofFn g >>= f) d lists R P :=
  Writes.andThen (P := fun a d' => a = g d ∧ d' = d) (Writes.ofFn ⟨rfl, rfl⟩) (by
    rintro _ _ ⟨rfl, rfl⟩
    exact h)

theorem failNear {e : CompileFault} : Moves (failNear e) d lists give Q := Writes.failNear

theorem failPlain {e : CompileFault} : Moves (failPlain e) d lists give Q := Writes.failPlain

theorem still (h : Still x) (hf : ∀ a d', d'.code = d.code → Moves (f a) d' lists R P) :
    Moves (x >>= f) d lists R P := by
  refine Writes.andThen (h d) fun a d1 h1 => Writes.imp (hf a d1 h1.1) fun b d2 hr2 => ?_
  refine ⟨hr2.1.trans h1.2.2, fun more => ?_, hr2.2.2⟩
  have hsteps := hr2.2.1 more
  rwa [Draft.waiting, h1.1, h1.2.1] at hsteps

theorem ofStill {x : Compile Unit} (h : Still x) : Moves x d [] (fun _ => []) fun _ _ => True := by
  refine (h d).imp fun _ d' hs => ⟨hs.2.2, fun more => ?_, trivial⟩
  rw [Draft.waiting, Draft.waiting, hs.1, hs.2.1]

theorem demanding {rule : RegisterRule} {keeps : Draft → Bool} {f : Unit → Compile β} (h : Moves (f ()) d lists R P) :
    Moves (Compile.demand rule keeps >>= f) d lists R P :=
  Writes.demanding fun _ => h

theorem recode {n : Draft → Nat} {g : Draft → Instr → Instr}
    (hg : ∀ i, d.code[n d]? = some i → i.Recoded (g d i)) :
    Moves (modifyFn fun d => d.mapInstr (n d) (g d)) d [] (fun _ => []) fun _ _ => True :=
  Writes.modifyFn ⟨rfl, fun _ => .single (.recode hg), trivial⟩

/-! ## 3. Jumps are aimed -/

theorem onlyCode_aimTest (node reg : Nat) :
    Writes (Compile.aimTest node reg) d fun _ d' => ∃ code, d' = d.withCode code := by
  refine Writes.get fun s hs => ?_
  subst hs
  split
  · exact Writes.bind (Writes.modifyFn (Writes.pure ⟨_, rfl⟩))
  · exact Writes.pure ⟨_, rfl⟩

theorem onlyCode_aimJumps (valueTarget reg plainTarget : Nat) (l : JumpList) :
    Writes (Compile.aimJumps valueTarget reg plainTarget l) d fun _ d' => ∃ code, d' = d.withCode code := by
  induction l generalizing d with
  | nil => exact Writes.pure ⟨_, rfl⟩
  | cons node rest ih =>
    have hfix : ∀ (d1 : Draft) (dest : Nat), (∃ code, d1 = d.withCode code) → Writes (do
        Compile.fixJump node dest
        Compile.aimJumps valueTarget reg plainTarget rest) d1 fun _ d' => ∃ code, d' = d.withCode code := by
      rintro d1 dest ⟨code, rfl⟩
      unfold Compile.fixJump
      split
      · refine Writes.bind (Writes.modifyFn (ih.imp ?_))
        rintro _ _ ⟨code', rfl⟩
        exact ⟨code', rfl⟩
      · exact Writes.bind Writes.failNear
    refine (onlyCode_aimTest node reg).andThen fun aims d1 h1 => ?_
    dsimp only
    split
    · exact hfix d1 _ h1
    · exact hfix d1 _ h1

theorem onlyCode_dropValues (l : JumpList) :
    Writes (Compile.dropValues l) d fun _ d' => ∃ code, d' = d.withCode code := by
  induction l generalizing d with
  | nil => exact Writes.pure ⟨_, rfl⟩
  | cons node rest ih =>
    refine Writes.bind (Writes.discard ((onlyCode_aimTest node noRegister).imp ?_))
    rintro _ _ ⟨code, rfl⟩
    refine ih.imp ?_
    rintro _ _ ⟨code', rfl⟩
    exact ⟨code', rfl⟩

theorem ofStep {x : Compile Unit} {lists lists' : List JumpList}
    (hcode : Writes x d fun _ d' => ∃ code, d' = d.withCode code)
    (hstep : ∀ s s' more, s.fn = d → x s = .ok ((), s') →
      Unaimed.Step ⟨s.fn.code, lists ++ more⟩ ⟨s'.fn.code, lists' ++ more⟩) :
    Moves x d lists (fun _ => lists') fun _ _ => True := by
  intro s a s' hs hrun
  obtain ⟨hs', code, hd'⟩ := hcode s a s' hs hrun
  refine ⟨hs', by rw [hd']; rfl, fun more => ?_, trivial⟩
  have hmove : ∀ (e : Draft) (ls : List JumpList), SameLists (e.here :: (ls ++ more)) (ls ++ e.here :: more) := by
    intro e ls
    grind
  have hhere : s'.fn.here = d.here := by rw [hd']; rfl
  refine .head (.regroup (hmove d lists)) (.tail (.single ?_) (.regroup (hmove s'.fn lists').symm))
  rw [hhere, ← hs]
  exact hstep s s' _ hs hrun

theorem aimJumps (valueTarget reg plainTarget : Nat) (l : JumpList) :
    Moves (Compile.aimJumps valueTarget reg plainTarget l) d [l] (fun _ => []) fun _ _ => True :=
  ofStep (onlyCode_aimJumps valueTarget reg plainTarget l) fun _ _ _ _ hrun => .aim hrun

theorem dropValues (l : JumpList) : Moves (Compile.dropValues l) d [l] (fun _ => [l]) fun _ _ => True :=
  ofStep (onlyCode_dropValues l) fun _ _ _ _ hrun => .dropValues hrun

theorem closeOnJump (l : JumpList) (level : Nat) :
    Moves (Compile.closeOnJump l level) d [l] (fun _ => [l]) fun _ _ => True := by
  refine ofStep (Writes.modifyFn ?_) fun _ _ _ _ hrun => .closeOnJump hrun
  induction l generalizing d with
  | nil => exact ⟨_, rfl⟩
  | cons node rest ih =>
    obtain ⟨code, hcode⟩ := @ih (d.mapInstr node (·.setA (level + 1)))
    exact ⟨code, hcode⟩

theorem setHere (l : JumpList) :
    Moves (modifyFn fun d => { d with here := l }) d [l] (fun _ => [d.here]) fun _ d' => d'.here = l :=
  Writes.modifyFn ⟨rfl, fun more => .single (.regroup (by grind)), rfl⟩

theorem aimHere : Moves Compile.aimHere d [] (fun _ => []) fun _ _ => True := by
  refine get fun s hs => ?_
  subst hs
  refine ((setHere []).taking (by grind)).next fun _ d1 _ => ?_
  exact aimJumps _ _ _ _

/-! ## 4. Code is written -/

theorem emitStep {i : Instr} {given : Nat → List JumpList}
    (hstep : ∀ code lists, Unaimed.Step ⟨code, lists⟩ ⟨code.push i, given code.size ++ lists⟩) :
    Moves (Compile.emit i) d [] given fun pc d' => d'.code[pc]? = some i := by
  refine aimHere.next fun _ d1 _ => get fun s hs => ?_
  subst hs
  refine Writes.bind (Writes.modifyFn (Writes.pure ⟨rfl, fun more => ?_, Array.getElem?_push_size⟩))
  exact .tail (.single (hstep _ _)) (.regroup (by grind [Draft.pc]))

/-- **An instruction is written** that does not jump. -/
theorem emit {i : Instr} (hi : i.opcode.layout ≠ .asbx) :
    Moves (Compile.emit i) d [] (fun _ => []) fun pc d' => d'.code[pc]? = some i :=
  emitStep fun _ _ => .write hi

theorem emitABC {op : Op} {a b c : Nat} (hop : op.layout ≠ .asbx) :
    Moves (Compile.emitABC op a b c) d [] (fun _ => []) fun pc d' => d'.code[pc]? = some (.ofABC op a b c) :=
  emit (by rwa [Instr.opcode_ofABC])

theorem emitABx {op : Op} {a bx : Nat} (hop : op.layout ≠ .asbx) :
    Moves (Compile.emitABx op a bx) d [] (fun _ => []) fun pc d' => d'.code[pc]? = some (.ofABx op a bx) :=
  emit (by rwa [Instr.opcode_ofABx])

theorem writeABC {op : Op} {a b c : Nat} (hop : op.layout ≠ .asbx) :
    Moves (Functor.discard (Compile.emitABC op a b c)) d [] (fun _ => []) fun _ _ => True :=
  discard (imp (emitABC hop) fun _ _ _ => trivial)

theorem writeABx {op : Op} {a bx : Nat} (hop : op.layout ≠ .asbx) :
    Moves (Functor.discard (Compile.emitABx op a bx)) d [] (fun _ => []) fun _ _ => True :=
  discard (imp (emitABx hop) fun _ _ _ => trivial)

theorem writeExtra {n : Nat} :
    Moves (Functor.discard (Compile.emit (Instr.ofAx .extraArg n))) d [] (fun _ => []) fun _ _ => True :=
  discard (imp (emit (by rw [Instr.opcode_ofAx]; decide)) fun _ _ _ => trivial)

/-- **A jump is written** that is a list of its own. -/
theorem emitJump {op : Op} {a : Nat} (hop : op.layout = .asbx) :
    Moves (Compile.emitAsBx op a (-1)) d [] (fun pc => [[pc]]) fun _ _ => True :=
  (emitStep fun _ _ => .writeJump hop).imp fun _ _ _ => trivial

theorem loadConstant (reg k : Nat) : Moves (Compile.loadConstant reg k) d [] (fun _ => []) fun _ _ => True := by
  unfold Compile.loadConstant
  split
  · exact writeABx (by decide)
  · exact along (writeABx (by decide)) fun _ _ _ => writeExtra

theorem loadNil (start n : Nat) : Moves (Compile.loadNil start n) d [] (fun _ => []) fun _ _ => True := by
  refine ofFn ?_
  extract_lets last prev prevStart prevLast
  split
  · next hmerge =>
    refine recode fun i hi => .inr ?_
    have hop : i.opcode = .loadNil := by
      rw [← Draft.instr_eq hi]
      exact hmerge.2.1
    rw [hop]
    exact ⟨by decide, .inl hop⟩
  · exact writeABC (by decide)

theorem emitReturn (first : Nat) (n : Option Nat) :
    Moves (Compile.emitReturn first n) d [] (fun _ => []) fun _ _ => True :=
  writeABC (by decide)

/-! ## 5. Lists -/

/-- **Two lists are joined.** -/
theorem joinJumps (l1 l2 : JumpList) : Moves (Compile.joinJumps l1 l2) d [l1, l2] (fun l => [l]) fun _ _ => True := by
  intro s l s' hs hrun
  obtain ⟨hs', -, hd'⟩ := Writes.joinJumps (d := d) l1 l2 s l s' hs hrun
  have hsame : s' = s := by
    rw [hs', hd', ← hs]
  subst hsame hs
  refine ⟨rfl, rfl, fun more => ?_, trivial⟩
  have hfirst : SameLists (s'.fn.here :: ([l1, l2] ++ more)) (l1 :: l2 :: s'.fn.here :: more) := by grind
  refine .head (.regroup hfirst) ?_
  exact .head (.join hrun) (.single (.regroup (by grind)))

theorem jump : Moves Compile.jump d [] (fun l => [l]) fun _ _ => True := by
  refine ofFn ?_
  refine ((setHere []).taking (by grind)).next fun _ d1 _ => ?_
  refine (emitJump rfl).beside fun pc d2 _ => ?_
  exact joinJumps _ _

theorem condJump {op : Op} {a b c : Nat} (hop : op.layout ≠ .asbx) :
    Moves (Compile.condJump op a b c) d [] (fun l => [l]) fun _ _ => True :=
  (writeABC hop).along fun _ _ _ => jump

/-- **A list is sent to the next instruction.** -/
theorem patchHere (l : JumpList) : Moves (Compile.patchHere l) d [l] (fun _ => []) fun _ _ => True := by
  refine still Still.markTarget.discard fun _ d1 _ => ofFn ?_
  intro s a s' hs hrun
  obtain ⟨joined, t, hjoin, hset⟩ := bind_ok hrun
  obtain ⟨ht, -, hd⟩ := Writes.joinJumps (d := d1) d1.here l s joined t hs hjoin
  have hsame : t = s := by
    rw [ht, hd, ← hs]
  subst hsame hs
  cases hset
  refine ⟨rfl, rfl, fun more => ?_, trivial⟩
  exact .head (.join hjoin) (.single (.regroup (.refl _)))

theorem patchTo (l : JumpList) (target : Nat) :
    Moves (Compile.patchTo l target) d [l] (fun _ => []) fun _ _ => True := by
  refine ofFn ?_
  split
  · exact patchHere l
  · exact aimJumps _ _ _ _

theorem dropLast {i : Instr} (hi : d.code[d.code.size - 1]? = some i) (hop : i.opcode = .not) :
    Moves Compile.dropLast d [] (fun _ => []) fun _ _ => True :=
  Writes.modifyFn ⟨rfl, fun _ => .single (.takeBack hi hop), trivial⟩

end Moves

end Compile

end LuaMachine
