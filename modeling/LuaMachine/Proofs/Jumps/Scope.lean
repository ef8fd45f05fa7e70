/-
  GOTOS HOLD LISTS OF JUMPS UNTIL THEIR LABELS ARE MET. They belong to the draft of their function and wait
  there across statements. What works on the innermost draft leaves what waits in the functions around.
-/
import LuaMachine.Proofs.Compiler.Block
import LuaMachine.Proofs.Jumps.Operator

namespace LuaMachine

def Unaimed.beside (u : Unaimed) (lists : List JumpList) : Unaimed := ⟨u.code, u.lists ++ lists⟩

def Draft.unaimed (d : Draft) : Unaimed := ⟨d.code, d.here :: d.gotos.map (·.jumps)⟩

theorem Unaimed.Steps.regroup {u : Unaimed} {lists lists' : List JumpList} (h : SameLists lists lists') :
    (u.beside lists).Steps (u.beside lists') := by
  refine .single (.regroup fun l hl => ?_)
  rw [List.count_append, List.count_append, h l hl]

namespace Compile

variable {α β : Type}

/-- From these drafts, given some lists, the step fails or gives other lists with its answer, by steps of code and
    lists on the innermost draft. Other lists stay, and so does what waits in the functions around. -/
def Courses (x : Compile α) (w : Drafts) (lists : List JumpList) (give : α → List JumpList)
    (Q : α → Draft → Prop) : Prop :=
  Leads x w fun a w' => w'.outer.map Draft.unaimed = w.outer.map Draft.unaimed ∧
    (∀ more, (w.fn.unaimed.beside (lists ++ more)).Steps (w'.fn.unaimed.beside (give a ++ more))) ∧ Q a w'.fn

abbrev Consumes (x : Compile α) (lists : List JumpList) : Prop := ∀ w, Courses x w lists (fun _ => []) fun _ _ => True

namespace Courses

variable {x : Compile α} {f : α → Compile β} {w : Drafts} {lists lists' : List JumpList} {give : α → List JumpList}
  {Q : α → Draft → Prop} {R : β → List JumpList} {P : β → Draft → Prop}

/-! ## 1. Steps one after another -/

theorem imp {Q' : α → Draft → Prop} (h : Courses x w lists give Q) (hq : ∀ a d', Q a d' → Q' a d') :
    Courses x w lists give Q' :=
  Leads.imp h fun a w' hr => ⟨hr.1, hr.2.1, hq a w'.fn hr.2.2⟩

theorem regroup {give' : α → List JumpList} (h : Courses x w lists give Q) (hl : SameLists lists' lists)
    (hg : ∀ a d', Q a d' → SameLists (give a) (give' a)) : Courses x w lists' give' Q := by
  refine Leads.imp h fun a w' hr => ⟨hr.1, fun more => ?_, hr.2.2⟩
  exact (Unaimed.Steps.regroup (hl.append_right more)).trans
    ((hr.2.1 more).trans (Unaimed.Steps.regroup ((hg a w'.fn hr.2.2).append_right more)))

theorem taking (h : Courses x w lists give Q) (hl : SameLists lists' lists) : Courses x w lists' give Q :=
  h.regroup hl fun _ _ _ => .refl _

theorem andThen {K taken : List JumpList} (h : Courses x w taken give Q) (hl : SameLists lists (taken ++ K))
    (hf : ∀ a w', Q a w'.fn → Courses (f a) w' (give a ++ K) R P) : Courses (x >>= f) w lists R P := by
  refine Leads.andThen h fun a w1 hr1 => Leads.imp (hf a w1 hr1.2.2) fun b w2 hr2 => ?_
  refine ⟨hr2.1.trans hr1.1, fun more => ?_, hr2.2.2⟩
  have hfirst := hr1.2.1 (K ++ more)
  have hsecond := hr2.2.1 more
  rw [List.append_assoc] at hsecond
  refine (Unaimed.Steps.regroup ?_).trans (hfirst.trans hsecond)
  rw [← List.append_assoc]
  exact hl.append_right more

theorem next (h : Courses x w lists give Q) (hf : ∀ a w', Q a w'.fn → Courses (f a) w' (give a) R P) :
    Courses (x >>= f) w lists R P :=
  h.andThen (K := []) (by rw [List.append_nil]; exact .refl _) fun a w' hq => by
    rw [List.append_nil]
    exact hf a w' hq

theorem beside (h : Courses x w [] give Q) (hf : ∀ a w', Q a w'.fn → Courses (f a) w' (give a ++ lists) R P) :
    Courses (x >>= f) w lists R P :=
  h.andThen (.refl _) hf

theorem along (h : Courses x w [] (fun _ => []) Q) (hf : ∀ a w', Q a w'.fn → Courses (f a) w' lists R P) :
    Courses (x >>= f) w lists R P :=
  h.beside hf

theorem pure {a : α} (hl : SameLists lists (give a)) (hq : Q a w.fn) : Courses (Pure.pure a) w lists give Q :=
  Leads.pure ⟨rfl, fun more => Unaimed.Steps.regroup (hl.append_right more), hq⟩

theorem discard {give : Unit → List JumpList} {Q : Unit → Draft → Prop}
    (h : Courses x w lists (fun _ => give ()) fun _ d' => Q () d') : Courses (Functor.discard x) w lists give Q :=
  Leads.discard h

theorem get {f : Compiler → Compile β} (h : ∀ s, s.drafts = w → Courses (f s) w lists R P) :
    Courses (MonadState.get >>= f) w lists R P := Leads.get h

theorem failNear {e : CompileFault} : Courses (failNear e) w lists give Q := Leads.failNear

theorem failPlain {e : CompileFault} : Courses (failPlain e) w lists give Q := Leads.failPlain

theorem failLimit {what : Limited} {n : Nat} : Courses (failLimit what n) w lists give Q := Leads.failLimit

theorem demanding {rule : RegisterRule} {keeps : Draft → Bool} {f : Unit → Compile β} (h : Courses (f ()) w lists R P) :
    Courses (Compile.demand rule keeps >>= f) w lists R P :=
  Leads.demanding fun _ => h

theorem read (h : Reads x) (hf : ∀ a, Courses (f a) w lists R P) : Courses (x >>= f) w lists R P := Leads.read h hf

theorem ofMoves (h : Moves x w.fn lists give Q) : Courses x w lists give Q := by
  refine Leads.ofWrites h fun a d' hr => ⟨rfl, fun more => ?_, hr.2.2⟩
  have hmove : ∀ (d : Draft) ls, SameLists ((d.here :: d.gotos.map (·.jumps)) ++ (ls ++ more))
      (d.here :: (ls ++ (d.gotos.map (·.jumps) ++ more))) := by
    intro d ls
    grind
  have hsteps := hr.2.1 (w.fn.gotos.map (·.jumps) ++ more)
  refine .head (.regroup (hmove w.fn lists)) (hsteps.tail (.regroup ?_))
  rw [← hr.1]
  exact (hmove d' (give a)).symm

theorem still (h : Still x) (hf : ∀ a w', w'.fn.code = w.fn.code → Courses (f a) w' lists R P) :
    Courses (x >>= f) w lists R P := by
  have hx : Courses x w [] (fun _ => []) fun _ d' => d'.code = w.fn.code := by
    refine ofMoves (Writes.imp (h w.fn) fun a d' hs => ⟨hs.2.2, fun more => ?_, hs.1⟩)
    rw [Draft.waiting, Draft.waiting, hs.1, hs.2.1]
  exact hx.along hf

theorem ofStill {x : Compile Unit} (h : Still x) : Courses x w [] (fun _ => []) fun _ _ => True :=
  ofMoves (Moves.ofStill h)

theorem modifyFn {g : Draft → Draft} {give : Unit → List JumpList} {Q : Unit → Draft → Prop}
    (hsteps : ∀ more, (w.fn.unaimed.beside (lists ++ more)).Steps ((g w.fn).unaimed.beside (give () ++ more)))
    (hq : Q () (g w.fn)) : Courses (Compile.modifyFn g) w lists give Q :=
  Leads.modifyFn ⟨rfl, hsteps, hq⟩

theorem calm (h : Courses x w lists give Q) :
    Courses x w lists give fun a d' => Q a d' ∧ ∀ pc, Calm w.fn.code pc → Calm d'.code pc :=
  Leads.imp h fun _ _ hr => ⟨hr.1, hr.2.1, hr.2.2, fun _ hpc => Calm.steps hpc (hr.2.1 [])⟩

end Courses

end Compile

/-! ## 2. Names -/

theorem resolve_unaimed {name : Bytes} {innermost : Bool} {ds ds' : List Draft} {v : Variable}
    (h : resolve name innermost ds = .ok (some (v, ds'))) : ds'.map Draft.unaimed = ds.map Draft.unaimed := by
  induction ds generalizing innermost v ds' with
  | nil => cases h
  | cons d outer ih =>
    unfold resolve at h
    split at h
    · cases h
      cases innermost <;> rfl
    · split at h
      · cases h
        rfl
      · split at h
        · cases h
        · cases h
        · next v' outer' hrec =>
          dsimp only at h
          split at h
          · cases h
          · cases h
            rw [List.map_cons, List.map_cons, ih hrec]
            rfl

theorem Variable.isVariable_place (v : Variable) : v.place.isVariable := by
  cases v <;> rfl

namespace Compile

namespace Courses

variable {w : Drafts}

theorem lookup (name : Bytes) :
    Courses (Compile.lookup name) w [] (fun _ => []) fun o _ => ∀ p, o = some p → p.isVariable ∧ p.jumps = [] := by
  refine get fun s hs => ?_
  subst hs
  split
  · exact failNear
  · next v fn outer hres =>
    have hsame := resolve_unaimed hres
    rw [List.map_cons, List.map_cons, List.cons.injEq] at hsame
    refine Leads.bind (Leads.set (Leads.pure ⟨hsame.2, fun more => ?_, fun p hp => ?_⟩))
    · show (s.fn.unaimed.beside _).Steps (fn.unaimed.beside _)
      rw [hsame.1]
    · cases hp
      exact ⟨v.isVariable_place, by cases v <;> rfl⟩
  · exact pure (.refl _) fun p hp => by cases hp

/-- **A name is a variable**, for which no jump waits. -/
theorem named (name : Bytes) :
    Courses (Compile.named name) w [] (fun _ => []) fun e _ => e.Bare ∧ e.place.isVariable := by
  refine (lookup name).along fun o w1 ho => ?_
  split
  · next p => exact pure (.refl _) ⟨Expr.bare_plain (ho p rfl).2, (ho p rfl).1⟩
  · refine (lookup environmentName).along fun env w2 henv => still Still.addConstant fun k w3 _ => ?_
    have htable : (Expr.plain (env.getD .void)).Bare := by
      cases env with
      | none => exact Expr.bare_plain rfl
      | some p => exact Expr.bare_plain (henv p rfl).2
    have hkey : (Expr.plain (.constant k)).Bare := Expr.bare_plain rfl
    have hindexed := Moves.indexed (Expr.apt_of_value (e := .plain (.constant k)) rfl w3.fn) htable
    exact ofMoves (hindexed.taking hkey.symm)

end Courses

/-! ## 3. Locals and blocks -/

namespace Still

theorem declare {name : Bytes} : Still (declare name) := by
  refine get fun s => ?_
  split
  · exact failLimit
  · exact modifyFn fun _ => ⟨rfl, rfl, rfl⟩

theorem beginLocal {reg : Nat} : Still (beginLocal reg) := by
  refine modifyFn fun d => ?_
  obtain ⟨ls, hls⟩ := mapLocal_eq d reg fun v => { v with start := d.pc }
  dsimp only
  rw [hls]
  exact ⟨rfl, rfl, rfl⟩

theorem activate (n : Nat) : Still (activate n) := by
  induction n with
  | zero => exact pure
  | succ n ih => exact get fun s => beginLocal.bind fun _ => bind (modifyFn fun _ => ⟨rfl, rfl, rfl⟩) fun _ => ih

theorem enterBlock {isLoop : Bool} : Still (enterBlock isLoop) :=
  bind (modifyFn fun _ => ⟨rfl, rfl, rfl⟩) fun _ => demand

theorem innermostBlock : Still innermostBlock := by
  refine get fun s => ?_
  split
  · exact pure
  · exact pure

theorem forgetLocals {b : Block} {around : List Block} : Still (Compile.modifyFn fun d =>
    let d := endLocals b.active { d with blocks := around }
    { d with free := d.active, labels := d.labels.take b.firstLabel }) := by
  refine modifyFn fun d => ?_
  obtain ⟨ls, ds, hend⟩ := endLocals_eq b.active { d with blocks := around }
  dsimp only
  rw [hend]
  exact ⟨rfl, rfl, rfl⟩

end Still

/-! ## 4. Gotos -/

namespace Moves

variable {d : Draft}

theorem closeGoto (g : PendingGoto) (label : Label) :
    Moves (Compile.closeGoto g label) d [g.jumps] (fun _ => []) fun _ _ => True := by
  unfold Compile.closeGoto
  split
  · exact get fun _ _ => failPlain
  · exact patchTo _ _

/-- **The gotos of a label are aimed**, the others go on waiting. -/
theorem closeMatching (label : Label) (gs : List PendingGoto) :
    Moves (Compile.closeMatching label gs) d (gs.map (·.jumps)) (fun rest => rest.map (·.jumps)) fun _ _ => True := by
  induction gs generalizing d with
  | nil => exact pure (.refl _) trivial
  | cons g rest ih =>
    unfold Compile.closeMatching
    split
    · exact (closeGoto g label).andThen (K := rest.map (·.jumps)) (.refl _) fun _ _ _ => ih
    · refine ih.andThen (K := [g.jumps]) (by grind) fun rest' _ _ => ?_
      exact pure (by grind) trivial

/-- **A goto is aimed at a label of its block** or goes on waiting. -/
theorem gotoLabel (g : PendingGoto) :
    Moves (Compile.gotoLabel g) d [g.jumps] (fun found => if found then [] else [g.jumps]) fun _ _ => True := by
  refine get fun s _ => ?_
  split
  · exact pure (.refl _) trivial
  · next label _ =>
    have hclose : ∀ d1, Moves (do
        Compile.closeGoto g label
        return true) d1 [g.jumps] (fun found => if found then [] else [g.jumps]) fun _ _ => True := fun d1 =>
      (closeGoto g label).next fun _ _ _ => pure (.refl _) trivial
    extract_lets rest
    split
    · exact (closeOnJump _ _).next fun _ d1 _ => hclose d1
    · exact hclose d

theorem moveOut (b : Block) (gs : List PendingGoto) :
    Moves (Compile.moveOut b gs) d (gs.map (·.jumps)) (fun rest => rest.map (·.jumps)) fun _ _ => True := by
  induction gs generalizing d with
  | nil => exact pure (.refl _) trivial
  | cons g rest ih =>
    unfold Compile.moveOut
    extract_lets moved next
    have hnext : ∀ d1, Moves (next ()) d1 ((g :: rest).map (·.jumps)) (fun rest => rest.map (·.jumps))
        fun _ _ => True := by
      intro d1
      refine (gotoLabel moved).andThen (K := rest.map (·.jumps)) (.refl _) fun found d2 _ => ?_
      cases found with
      | true => exact ih
      | false =>
        refine ih.andThen (K := [g.jumps]) (by grind) fun rest' _ _ => ?_
        exact pure (by grind) trivial
    split
    · exact (closeOnJump _ _).andThen (K := rest.map PendingGoto.jumps) (.refl _) fun _ d1 _ => hnext d1
    · exact hnext d

end Moves

namespace Courses

variable {w : Drafts}

theorem workOff {x : Compile (List PendingGoto)} {kept gs : List PendingGoto} (hgotos : w.fn.gotos = kept ++ gs)
    (h : Moves x w.fn (gs.map (·.jumps)) (fun rest => rest.map (·.jumps)) fun _ _ => True) :
    Courses (do
      let rest ← x
      Compile.modifyFn fun d => { d with gotos := kept ++ rest }) w [] (fun _ => []) fun _ _ => True := by
  have hwrites := Writes.andThen h fun rest d' hr => Writes.modifyFn (g := fun d => { d with gotos := kept ++ rest })
    (Q := fun _ d2 => ∀ more, (w.fn.unaimed.beside more).Steps (d2.unaimed.beside more)) fun more => by
      have hsteps := hr.2.1 (kept.map (·.jumps) ++ more)
      refine .head (.regroup ?_) (hsteps.tail (.regroup ?_))
      · simp only [Draft.unaimed, hgotos, List.map_append]
        grind
      · simp only [Draft.unaimed, List.map_append]
        grind
  exact Leads.ofWrites hwrites fun _ _ hsteps => ⟨rfl, hsteps, trivial⟩

theorem closeGotos (label : Label) : Consumes (Compile.closeGotos label) [] := by
  refine fun w => get fun s hs => ?_
  subst hs
  exact workOff (List.take_append_drop ..).symm (Moves.closeMatching label _)

theorem failGoto {α : Type} {give : α → List JumpList} {Q : α → Draft → Prop} {g : PendingGoto}
    {lists : List JumpList} :
    Courses (Compile.failGoto g) w lists give Q := by
  unfold Compile.failGoto
  split
  · exact failPlain
  · exact failPlain

/-- **A goto without a label waits in its function.** -/
theorem gotoStatement (jumps : JumpList) : Consumes (Compile.gotoStatement jumps) [jumps] := by
  refine fun w => read Reads.line fun line => read Reads.testNext fun isGoto => ?_
  extract_lets rest
  have hrest : ∀ name w1, Courses (rest name) w1 [jumps] (fun _ => []) fun _ _ => True := by
    refine fun name w1 => get fun s hs => ?_
    subst hs
    extract_lets g
    refine (ofMoves (Moves.gotoLabel g)).next fun found w2 _ => ?_
    cases found with
    | true => exact pure (.refl _) trivial
    | false =>
      rw [if_pos (show (!false) = true from rfl)]
      refine modifyFn (fun more => .single (.regroup ?_)) trivial
      have hjumps : g.jumps = jumps := rfl
      simp only [Draft.unaimed, List.map_append, hjumps]
      grind
  split
  · exact read Reads.checkName fun name => hrest name w
  · exact read Reads.next fun _ => hrest breakName w

theorem breakLabel : Consumes Compile.breakLabel [] := by
  refine fun w => still Still.markTarget fun pc w1 _ => get fun s _ => ?_
  exact still (Still.modifyFn fun _ => ⟨rfl, rfl, rfl⟩) fun _ w2 _ => closeGotos _ w2

/-- **A block ends**: its breaks arrive, its other gotos go on waiting. -/
theorem leaveBlock : Consumes Compile.leaveBlock [] := by
  refine fun w => get fun s hs => ?_
  split
  · exact pure (.refl _) trivial
  · next b around _ =>
    extract_lets finish rest
    have hfinish : Consumes (finish ()) [] := by
      refine fun w1 => still Still.forgetLocals fun _ w2 _ => demanding (get fun s hs => ?_)
      subst hs
      extract_lets gotos
      split
      · exact pure (.refl _) trivial
      · next g gs hleft =>
        split
        · exact failGoto
        · refine workOff ?_ (Moves.moveOut b (g :: gs))
          rw [← hleft]
          exact (List.take_append_drop ..).symm
    have hrest : Consumes (rest ()) [] := by
      intro w1
      show Courses (if b.isLoop then _ else _) _ _ _ _
      split
      · exact (breakLabel w1).along fun _ w2 _ => hfinish w2
      · exact hfinish w1
    split
    · refine (ofMoves Moves.jump).next fun j w1 _ => (ofMoves (Moves.closeOnJump j b.active)).next fun _ w2 _ => ?_
      exact (ofMoves (Moves.patchHere j)).next fun _ w3 _ => hrest w3
    · exact hrest w

end Courses

end Compile

end LuaMachine
