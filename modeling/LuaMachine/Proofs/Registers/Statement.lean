/-
  NO COMPILATION BREAKS A RULE ABOUT REGISTERS. After a statement only locals hold registers; within one,
  what is given back is on top.
-/
import LuaMachine.Proofs.Registers.Expression

namespace LuaMachine

namespace Grammar

open Compile.Orderly Registers

variable {g : Grammar} {d : Draft} {base : Nat} {e : Expr} {r : Registers}

/-! ## 1. Blocks, conditionals and loops -/

theorem Disciplined.block (hg : g.Disciplined) (h : r.Balanced d.registers) :
    Compile.Orderly g.block d fun _ d' => r.Balanced d'.registers :=
  (enterBlock false h).andThen fun _ _ h1 => (hg.statements h1.1).andThen fun _ _ h2 => leaveBlock h2

theorem Disciplined.exprAt (hg : g.Disciplined) (h : r.Balanced d.registers) :
    Compile.Orderly g.expr d fun e d' => r.Stays d'.registers ∧ e.place.Rests d' r.active := by
  refine (hg.expr h.sound (Nat.le_of_eq h.even.symm)).imp fun e d1 h1 => ⟨h.toStays.trans h1.1, ?_⟩
  have hfree : d.free = r.active := h.free
  rw [← hfree]
  exact h1.2

theorem balanced_test {x : Compile JumpList} (hs : r.Stays d.registers)
    (h : Compile.Orderly x d fun _ d' => d.registers.Stays d'.registers ∧ d'.free = r.active) :
    Compile.Orderly x d fun _ d' => r.Balanced d'.registers :=
  h.imp fun _ _ h1 => ⟨hs.trans h1.1, h1.2⟩

theorem Disciplined.condition (hg : g.Disciplined) (h : r.Balanced d.registers) :
    Compile.Orderly g.condition d fun _ d' => r.Balanced d'.registers := by
  refine (hg.exprAt h).andThen fun e d1 h1 => balanced_test h1.1 ?_
  have hb : d1.active ≤ r.active := Nat.le_of_eq h1.1.active
  refine goIfTrue h1.1.sound hb ?_
  split
  · next hp =>
    have hrests := h1.2
    rw [hp] at hrests
    exact hrests
  · exact h1.2

theorem Disciplined.branchEnd {leaving passing : JumpList} (hg : g.Disciplined) (h : r.Inside d.registers) :
    Compile.Orderly (g.branchEnd leaving passing) d fun _ d' => r.Balanced d'.registers := by
  refine (hg.statements h).andThen fun _ d1 h1 => (leaveBlock h1).andThen fun _ d2 h2 => read token fun t => ?_
  extract_lets arrive
  have harrive : ∀ js d3, r.Balanced d3.registers → Compile.Orderly (arrive js) d3 fun _ d' => r.Balanced d'.registers :=
    fun js d3 h3 => (patchHere _).andThen fun _ d4 h4 => pure (h4 ▸ h3)
  have hleave : Compile.Orderly (do arrive (← Compile.joinJumps leaving (← Compile.jump))) d2 fun _ d' =>
      r.Balanced d'.registers := by
    refine jump.andThen fun j d3 h3 => (joinJumps _ _).andThen ?_
    rintro js _ rfl
    exact harrive js _ (h3 ▸ h2)
  split
  · exact hleave
  · exact hleave
  · exact bind (pure (harrive _ d2 h2))

/-- **A branch** leaves only the locals from before it. -/
theorem Disciplined.branch {leaving : JumpList} (hg : g.Disciplined) (h : r.Balanced d.registers) :
    Compile.Orderly (g.branch leaving) d fun _ d' => r.Balanced d'.registers := by
  refine read next fun _ => (hg.exprAt h).andThen fun e d1 h1 => read checkNext fun _ => read token fun t => ?_
  have hb : d1.active ≤ r.active := Nat.le_of_eq h1.1.active
  have hfirst : Compile.Orderly (do
      let jumps ← Compile.goIfFalse e
      Compile.enterBlock false
      Compile.gotoStatement jumps
      skipSemicolons g.bound
      if ← Compile.atBlockEnd false then
        Compile.leaveBlock
        return leaving
      else
        let passing ← Compile.jump
        g.branchEnd leaving passing) d1 fun _ d' => r.Balanced d'.registers := by
    refine (balanced_test h1.1 (goIfFalse h1.1.sound hb h1.2)).andThen fun js d2 h2 => ?_
    refine (enterBlock false h2).andThen fun _ d3 h3 => (gotoStatement js).andThen fun _ d4 h4 => ?_
    have hinside := h4 ▸ h3.1
    refine read (Compile.Orderly.skipSemicolons _) fun _ => read atBlockEnd fun _ => ?_
    split
    · exact (leaveBlock hinside).andThen fun _ d5 h5 => pure h5
    · exact jump.andThen fun j d5 h5 => hg.branchEnd (h5 ▸ hinside)
  split
  · exact hfirst
  · exact hfirst
  · refine (balanced_test h1.1 (goIfTrue h1.1.sound hb h1.2)).andThen fun js d2 h2 => ?_
    exact (enterBlock false h2).andThen fun _ d3 h3 => hg.branchEnd h3.1

theorem Disciplined.branchesFrom {leaving : JumpList} (hg : g.Disciplined) (n : Nat) (h : r.Balanced d.registers) :
    Compile.Orderly (g.branchesFrom n leaving) d fun _ d' => r.Balanced d'.registers := by
  induction n generalizing d leaving with
  | zero => exact failNear rfl
  | succ n ih =>
    refine read token fun t => ?_
    split
    · exact (hg.branch h).andThen fun _ d1 h1 => ih h1
    · exact pure h

theorem Disciplined.ifStatement {line : Nat} (hg : g.Disciplined) (h : r.Balanced d.registers) :
    Compile.Orderly (g.ifStatement line) d fun _ d' => r.Balanced d'.registers := by
  refine (hg.branch h).andThen fun _ d1 h1 => (hg.branchesFrom _ h1).andThen fun leaving d2 h2 => ?_
  refine read testNext fun more => ?_
  extract_lets finish
  have hfinish : ∀ u d3, r.Balanced d3.registers → Compile.Orderly (finish u) d3 fun _ d' => r.Balanced d'.registers :=
    fun u d3 h3 => read checkMatch fun _ => (patchHere _).imp fun _ d4 h4 => h4 ▸ h3
  split
  · exact (hg.block h2).andThen hfinish
  · exact hfinish () d2 h2

theorem Disciplined.whileStatement {line : Nat} (hg : g.Disciplined) (h : r.Balanced d.registers) :
    Compile.Orderly (g.whileStatement line) d fun _ d' => r.Balanced d'.registers := by
  refine read next fun _ => markTarget.andThen fun start d1 h1 => (hg.condition (h1 ▸ h)).andThen fun leaving d2 h2 => ?_
  refine (enterBlock true h2).andThen fun _ d3 h3 => read checkNext fun _ => ?_
  have hinner : d3.registers.Balanced d3.registers := h3.1.sound.balanced h3.1.free
  refine (hg.block hinner).andThen fun _ d4 h4 => jump.andThen fun back d5 h5 => ?_
  refine (patchTo _ _).andThen fun _ d6 h6 => read checkMatch fun _ => ?_
  have hinside : r.Inside d6.registers := h3.1.balanced ((h6.trans h5) ▸ h4)
  exact (leaveBlock hinside).andThen fun _ d7 h7 => (patchHere _).imp fun _ d8 h8 => h8 ▸ h7

theorem Disciplined.repeatStatement {line : Nat} (hg : g.Disciplined) (h : r.Balanced d.registers) :
    Compile.Orderly (g.repeatStatement line) d fun _ d' => r.Balanced d'.registers := by
  refine markTarget.andThen fun start d1 h1 => (enterBlock true (h1 ▸ h)).andThen fun _ d2 h2 => ?_
  have hinner : d2.registers.Balanced d2.registers := h2.1.sound.balanced h2.1.free
  refine (enterBlock false hinner).andThen fun _ d3 h3 => read next fun _ => ?_
  refine (hg.statements h3.1).andThen fun _ d4 h4 => read checkMatch fun _ => ?_
  refine (hg.condition (h4.sound.balanced h4.free)).andThen fun again d5 h5 => read innermostBlock fun b => ?_
  have hinside := h4.balanced h5
  obtain ⟨captured, active⟩ := b
  extract_lets leave
  have hleave : ∀ u d6, d2.registers.Inside d6.registers → Compile.Orderly (leave u) d6 fun _ d' => r.Balanced d'.registers :=
    fun u d6 h6 => (leaveBlock h6).andThen fun _ d7 h7 => (patchTo _ _).andThen fun _ d8 h8 =>
      leaveBlock (h2.1.balanced (h8 ▸ h7))
  show Compile.Orderly (if captured = true then _ else _) d5 _
  split
  · exact (closeOnJump _ _).andThen fun u d6 h6 => hleave u d6 (by rw [h6]; exact hinside)
  · exact hleave () d5 hinside

/-! ## 2. For loops -/

/-- **The body of a `for` loop.** Its hidden locals have their registers; they become visible. -/
theorem Disciplined.forBody {line vars : Nat} {numeric : Bool} (hg : g.Disciplined) (hl : d.registers.levels = r.active :: r.levels)
    (hs : d.registers.Sound) (hle : r.active ≤ d.active) (hfree : d.free = d.active + 3) :
    Compile.Orderly (g.forBody base line vars numeric) d fun _ d' => r.Inside d'.registers := by
  refine (activate 3).andThen fun _ d1 h1 => read checkNext fun _ => ?_
  have hinside1 : r.Inside d1.registers := by
    rw [h1]
    exact ⟨hl, Nat.le_trans hle (Nat.le_add_right ..), ⟨hs.free, hs.high⟩, hfree⟩
  extract_lets body
  have hbody : ∀ entry d2, d2.registers = d1.registers → Compile.Orderly (body entry) d2 fun _ d' => r.Inside d'.registers := by
    intro entry d2 h2
    have hinside2 : r.Inside d2.registers := h2 ▸ hinside1
    refine (enterBlock false (hinside2.sound.balanced hinside2.free)).andThen fun _ d3 h3 => ?_
    refine (activate vars).andThen fun _ d4 h4 => ?_
    have hsound4 : d4.registers.Sound := by
      rw [h4]
      exact ⟨h3.1.sound.free, h3.1.sound.high⟩
    refine (reserve hsound4 vars).andThen fun _ d5 h5 => ?_
    have hinside5 : d2.registers.Inside d5.registers := by
      have hactive : d5.active = d3.active + vars := h5.1.active.trans (congrArg Registers.active h4)
      refine ⟨?_, ?_, h5.1.sound, ?_⟩
      · rw [h5.1.levels, h4]
        exact h3.1.levels
      · show d2.active ≤ d5.active
        rw [hactive, h3.2]
        exact Nat.le_add_right ..
      · show d5.free = d5.active
        have hfree3 : d3.free = d3.active := h3.1.free
        rw [hactive, h5.2.1, show d4.free = d3.free from congrArg Registers.free h4, hfree3]
    refine (hg.block (hinside5.sound.balanced hinside5.free)).andThen fun _ d6 h6 => ?_
    refine (leaveBlock (hinside5.balanced h6)).andThen fun _ d7 h7 => (patchHere _).andThen fun _ d8 h8 => ?_
    have hinside8 : r.Inside d8.registers := h8 ▸ hinside2.balanced h7
    extract_lets close
    have hclose : ∀ back d9, r.Inside d9.registers → Compile.Orderly (close back) d9 fun _ d' => r.Inside d'.registers :=
      fun back d9 h9 => (patchTo _ _).andThen fun _ d10 h10 => (fixLine _).imp fun _ d11 h11 => (h11.1.trans h10) ▸ h9
    split
    · exact (emit _).andThen fun back d9 h9 => hclose back d9 (h9.1 ▸ hinside8)
    · refine (emitABC _ _ _ _).dropThen fun _ d9 h9 => (fixLine _).andThen fun _ d10 h10 => ?_
      exact (emit _).andThen fun back d11 h11 => hclose back d11 ((h11.1.trans (h10.1.trans h9.1)) ▸ hinside8)
  split
  · exact (emit _).andThen fun entry d2 h2 => bind (pure (hbody [entry] d2 h2.1))
  · exact jump.andThen hbody

theorem Disciplined.exprToRegister (hg : g.Disciplined) (hs : d.registers.Sound) (hb : d.active ≤ d.free) :
    Compile.Orderly g.exprToRegister d fun _ d' => d.registers.Stays d'.registers ∧ d'.free = d.free + 1 := by
  refine (hg.expr hs hb).andThen fun e d1 h1 => discard ((toNextRegister h1.1.sound h1.2).imp fun _ d2 h2 => ?_)
  exact ⟨h1.1.trans h2.2.1, h2.2.2⟩

theorem Disciplined.forNumeric {name : Bytes} {line : Nat} (hg : g.Disciplined) (h : r.Inside d.registers) :
    Compile.Orderly (g.forNumeric name line) d fun _ d' => r.Inside d'.registers := by
  refine get fun s hfn => (declare _).andThen fun _ d1 h1 => (declare _).andThen fun _ d2 h2 => ?_
  refine (declare _).andThen fun _ d3 h3 => (declare _).andThen fun _ d4 h4 => read checkNext fun _ => ?_
  have hsame : d4.registers = d.registers := h4.trans (h3.trans (h2.trans h1))
  rw [← hsame] at h
  have hfree4 : d4.free = d4.active := h.free
  refine (hg.exprToRegister h.sound (Nat.le_of_eq hfree4.symm)).andThen fun _ d5 h5 => read checkNext fun _ => ?_
  have hactive5 : d5.active = d4.active := h5.1.active
  refine (hg.exprToRegister h5.1.sound (by omega)).andThen fun _ d6 h6 => read testNext fun more => ?_
  have hstays6 := h5.1.trans h6.1
  have hactive6 : d6.active = d4.active := hstays6.active
  extract_lets body
  have hbody : ∀ u d7, d4.registers.Stays d7.registers → d7.free = d6.free + 1 →
      Compile.Orderly (body u) d7 fun _ d' => r.Inside d'.registers := by
    intro u d7 hstays7 hfree7
    have hactive7 : d7.active = d4.active := hstays7.active
    refine hg.forBody (hstays7.levels.trans h.levels) hstays7.sound ?_ (by omega)
    rw [hactive7]
    exact h.active
  split
  · refine (hg.exprToRegister h6.1.sound (by omega)).andThen fun u d7 h7 => ?_
    exact hbody u d7 (hstays6.trans h7.1) h7.2
  · refine get fun t _ => (addConstant _).andThen fun k d7 h7 => (loadConstant _ _).andThen fun _ d8 h8 => ?_
    have hsame8 : d8.registers = d6.registers := h8.trans h7.1
    refine (reserve (hsame8 ▸ hstays6.sound) 1).andThen fun u d9 h9 => hbody u d9 ?_ ?_
    · exact hstays6.trans (hsame8 ▸ h9.1)
    · rw [h9.2.1, show d8.free = d6.free from congrArg Registers.free hsame8]

theorem namesFrom_orderly (n count : Nat) :
    Compile.Orderly (namesFrom n count) d fun _ d' => d'.registers = d.registers := by
  induction n generalizing d count with
  | zero => exact failNear rfl
  | succ n ih =>
    refine read testNext fun more => ?_
    split
    · refine read checkName fun name => (declare name).andThen fun _ d1 h1 => ?_
      exact (ih _).imp fun _ d2 h2 => h2.trans h1
    · exact pure rfl

/-- **As many values as variables.** The last of the values is not in a register yet; with no value at all
    there is none. -/
theorem adjust_orderly {vars exprs : Nat} (hs : d.registers.Sound)
    (he : (exprs = 0 ∧ e.place = .void ∧ d.free = base) ∨ (1 ≤ exprs ∧ e.place.Rests d (base + (exprs - 1)))) :
    Compile.Orderly (adjust vars exprs e) d fun _ d' => d.registers.Stays d'.registers ∧ d'.free = base + vars := by
  unfold adjust
  extract_lets drop wanted fill
  have hdrop : ∀ u d1, d.registers.Stays d1.registers → d1.free = base + max vars exprs → Compile.Orderly (drop u) d1
      fun _ d' => d.registers.Stays d'.registers ∧ d'.free = base + vars := by
    intro u d1 hstays1 hfree1
    show Compile.Orderly (if vars < exprs then _ else _) d1 _
    split
    · refine demanding (decide_eq_true (by omega)) (modifyFn rfl ⟨?_, ?_⟩)
      · exact hstays1.lower (n := d1.free - (exprs - vars)) rfl (Nat.sub_le ..)
      · show d1.free - (exprs - vars) = base + vars
        omega
    · exact pure ⟨hstays1, by omega⟩
  split
  · next hm =>
    have hrests : 1 ≤ exprs ∧ e.place.Rests d (base + (exprs - 1)) := by
      refine he.resolve_left fun h => ?_
      rw [h.2.1] at hm
      exact nomatch hm
    refine (setReturns hs hrests.2 hm).andThen fun _ d1 h1 => ?_
    split
    · refine (reserve h1.1.sound _).andThen fun u d2 h2 => hdrop u d2 (h1.1.trans h2.1) ?_
      omega
    · exact hdrop () d1 h1.1 (by omega)
  · have hfill : ∀ u d1, d.registers.Stays d1.registers → d1.free = base + exprs → Compile.Orderly (fill u) d1
        fun _ d' => d.registers.Stays d'.registers ∧ d'.free = base + vars := by
      intro u d1 hstays1 hfree1
      show Compile.Orderly (if exprs < vars then _ else _) d1 _
      split
      · refine get fun s _ => (reserve hstays1.sound _).andThen fun _ d2 h2 => (loadNil _ _).andThen fun u d3 h3 => ?_
        refine hdrop u d3 (h3 ▸ hstays1.trans h2.1) ?_
        rw [show d3.free = d2.free from congrArg Registers.free h3]
        omega
      · exact hdrop () d1 hstays1 (by omega)
    split
    · next hv =>
      have hrests := he.resolve_left fun h => hv h.2.1
      refine (toNextRegister hs hrests.2).dropThen fun _ d1 h1 => hfill () d1 h1.2.1 ?_
      omega
    · next hv =>
      have hv' : e.place = .void := by simpa using hv
      have hnone := he.resolve_right fun h => h.2.ne_void hv'
      exact hfill () d hs.stays (by omega)

theorem Disciplined.forGeneric {name : Bytes} (hg : g.Disciplined) (h : r.Inside d.registers) :
    Compile.Orderly (g.forGeneric name) d fun _ d' => r.Inside d'.registers := by
  refine get fun s hfn => (declare _).andThen fun _ d1 h1 => (declare _).andThen fun _ d2 h2 => ?_
  refine (declare _).andThen fun _ d3 h3 => (declare _).andThen fun _ d4 h4 => ?_
  refine (namesFrom_orderly _ _).andThen fun vars d5 h5 => read checkNext fun _ => read Compile.Orderly.line fun line => ?_
  have hsame : d5.registers = d.registers := h5.trans (h4.trans (h3.trans (h2.trans h1)))
  rw [← hsame] at h
  have hfree5 : d5.free = d5.active := h.free
  refine (hg.exprs h.sound (Nat.le_of_eq hfree5.symm)).andThen fun listed d6 h6 => ?_
  obtain ⟨count, e⟩ := listed
  refine (adjust_orderly h6.1.sound (.inr h6.2)).andThen fun _ d7 h7 => (checkStack h7.1.sound 3).andThen fun _ d8 h8 => ?_
  have hstays8 := h6.1.trans (h7.1.trans h8.1)
  have hactive8 : d8.active = d5.active := hstays8.active
  refine hg.forBody (hstays8.levels.trans h.levels) hstays8.sound ?_ ?_
  · rw [hactive8]
    exact h.active
  · rw [h8.2.1, h7.2, hactive8, hfree5]

theorem Disciplined.forStatement {line : Nat} (hg : g.Disciplined) (h : r.Balanced d.registers) :
    Compile.Orderly (g.forStatement line) d fun _ d' => r.Balanced d'.registers := by
  refine (enterBlock true h).andThen fun _ d1 h1 => read next fun _ => read checkName fun name => read token fun t => ?_
  extract_lets finish
  have hfinish : ∀ u d2, r.Inside d2.registers → Compile.Orderly (finish u) d2 fun _ d' => r.Balanced d'.registers :=
    fun u d2 h2 => read checkMatch fun _ => leaveBlock h2
  split
  · exact (hg.forNumeric h1.1).andThen hfinish
  · exact (hg.forGeneric h1.1).andThen hfinish
  · exact (hg.forGeneric h1.1).andThen hfinish
  · exact bind (failNear rfl)

/-! ## 3. Functions and locals -/

theorem fieldsFrom_orderly (n : Nat) (hs : d.registers.Sound) (hb : d.active ≤ base) (he : e.place.Rests d base)
    (hv : e.place.isVariable) :
    Compile.Orderly (fieldsFrom n e) d fun e' d' =>
      d.registers.Stays d'.registers ∧ e'.place.Rests d' base ∧ e'.place.isVariable := by
  induction n generalizing d e with
  | zero => exact failNear rfl
  | succ n ih =>
    refine read token fun t => ?_
    split
    · refine (field_orderly hs hb he).andThen fun e1 d1 h1 => ?_
      have hb1 : d1.active ≤ base := Nat.le_trans (Nat.le_of_eq h1.1.active) hb
      exact (ih h1.1.sound hb1 h1.2.1 h1.2.2).imp fun e2 d2 h2 => ⟨h1.1.trans h2.1, h2.2⟩
    · exact pure ⟨hs.stays, he, hv⟩

theorem Disciplined.functionStatement {line : Nat} (hg : g.Disciplined) (h : r.Balanced d.registers) :
    Compile.Orderly (g.functionStatement line) d fun _ d' => r.Follows d'.registers := by
  have hfree : d.free = r.active := h.free
  refine read next fun _ => read checkName fun name => ?_
  rw [hg.name]
  refine (named h.sound (Nat.le_of_eq h.even.symm)).andThen fun e1 d1 h1 => ?_
  have hstays1 := h.toStays.trans h1.1
  have hb1 : d1.active ≤ d.free := Nat.le_of_eq (hstays1.active.trans hfree.symm)
  refine (fieldsFrom_orderly _ hstays1.sound hb1 h1.2.1 h1.2.2).andThen fun e2 d2 h2 => read token fun t => ?_
  have hstays2 := hstays1.trans h2.1
  have hb2 : d2.active ≤ d.free := Nat.le_of_eq (hstays2.active.trans hfree.symm)
  extract_lets isMethod define
  have hdefine : ∀ e3 d3, r.Stays d3.registers → e3.place.Rests d3 d.free → e3.place.isVariable →
      Compile.Orderly (define e3) d3 fun _ d' => r.Follows d'.registers := by
    intro e3 d3 hstays3 hrests3 hv
    have hle3 := hrests3.le
    have hactive3 : d3.active = r.active := hstays3.active
    refine (hg.functionBody hstays3.sound).andThen ?_
    rintro reg d4 ⟨rfl, hstays4, hfree4⟩
    have hactive4 : d4.active = d3.active := hstays4.active
    have hfixed : (Expr.plain (.fixed d3.free)).place.Rests d4 d3.free := .inr ⟨rfl, hfree4, by omega⟩
    refine (storeVariable hstays4.sound (by omega) hfixed nofun hv).andThen fun _ d5 h5 => (fixLine _).imp fun _ d6 h6 => ?_
    rw [h6.1]
    refine (hstays3.trans (hstays4.trans h5.1)).follows ?_
    show r.active ≤ d5.free
    omega
  split
  · refine (field_orderly hstays2.sound hb2 h2.2.1).andThen fun e3 d3 h3 => ?_
    exact hdefine e3 d3 (hstays2.trans h3.1) h3.2.1 h3.2.2
  · exact bind (pure (hdefine e2 d2 hstays2 h2.2.1 h2.2.2))

/-- **A local function** is visible in its own body, before its register is taken. -/
theorem Disciplined.localFunction (hg : g.Disciplined) (h : r.Balanced d.registers) :
    Compile.Orderly g.localFunction d fun _ d' => r.Follows d'.registers := by
  refine get fun s _ => read checkName fun name => (declare name).andThen fun _ d1 h1 => (activate 1).andThen fun _ d2 h2 => ?_
  rw [h1] at h2
  have hsound2 : d2.registers.Sound := by
    rw [h2]
    exact ⟨h.sound.free, h.sound.high⟩
  refine read Compile.Orderly.line fun line => (hg.functionBody hsound2).dropThen fun _ d3 h3 => (beginLocal _).imp fun _ d4 h4 => ?_
  obtain ⟨-, hstays3, hfree3⟩ := h3
  have hactive : d3.active = d1.active + 1 := hstays3.active.trans (congrArg Registers.active h2)
  have hfree : d3.free = d.free + 1 := by rw [hfree3, show d2.free = d.free from congrArg Registers.free h2]
  have hsame : d1.active = d.active := congrArg Registers.active h1
  have hr : d.active = r.active := h.active
  have heven : d.free = d.active := h.even
  rw [h4]
  refine ⟨hstays3.levels.trans ?_, ?_, hstays3.sound, ?_⟩
  · rw [h2]
    exact h.levels
  · show r.active ≤ d3.active
    omega
  · show d3.active ≤ d3.free
    omega

theorem Disciplined.localStatement (hg : g.Disciplined) (h : r.Balanced d.registers) :
    Compile.Orderly g.localStatement d fun _ d' => r.Follows d'.registers := by
  refine read checkName fun name => (declare name).andThen fun _ d1 h1 => (namesFrom_orderly _ _).andThen fun vars d2 h2 => ?_
  have hbalanced : r.Balanced d2.registers := (h2.trans h1) ▸ h
  have hfree2 : d2.free = r.active := hbalanced.free
  refine read testNext fun assigned => ?_
  extract_lets fill
  have hfill : ∀ listed d3, r.Stays d3.registers →
      (listed.1 = 0 ∧ listed.2.place = .void ∧ d3.free = r.active) ∨
        (1 ≤ listed.1 ∧ listed.2.place.Rests d3 (r.active + (listed.1 - 1))) →
      Compile.Orderly (fill listed) d3 fun _ d' => r.Follows d'.registers := by
    rintro ⟨count, e⟩ d3 hstays3 he
    refine (adjust_orderly hstays3.sound he).andThen fun _ d4 h4 => (activate _).imp fun _ d5 h5 => ?_
    have hstays4 := hstays3.trans h4.1
    have hactive4 : d4.active = r.active := hstays4.active
    rw [h5]
    refine ⟨hstays4.levels, ?_, ⟨hstays4.sound.free, hstays4.sound.high⟩, ?_⟩
    · show r.active ≤ d4.active + vars
      omega
    · show d4.active + vars ≤ d4.free
      omega
  split
  · refine (hg.exprs hbalanced.sound (Nat.le_of_eq hbalanced.even.symm)).andThen fun listed d3 h3 => ?_
    rw [hfree2] at h3
    exact hfill listed d3 (hbalanced.toStays.trans h3.1) (.inr h3.2)
  · exact bind (pure (hfill (0, .plain .void) d2 hbalanced.toStays (.inl ⟨rfl, rfl, hfree2⟩)))

/-! ## 4. Assignments, labels and returns -/

theorem isVariable_avoidConflict {copy : Nat} {assigned : Place} {target : Expr} (h : target.place.isVariable) :
    (avoidConflict copy assigned target).1.place.isVariable := by
  unfold avoidConflict
  split
  · rfl
  · exact h

/-- **Conflicts are avoided** by a copy on top. -/
theorem checkConflict_orderly {assigned : Place} {targets : List Expr} (hs : d.registers.Sound)
    (ht : ∀ t ∈ targets, t.place.isVariable) :
    Compile.Orderly (checkConflict assigned targets) d fun ts d' =>
      d.registers.Stays d'.registers ∧ d.free ≤ d'.free ∧ ∀ t ∈ ts, t.place.isVariable := by
  refine get fun s _ => ?_
  extract_lets copy checked finish
  have hchecked : ∀ t ∈ checked.map (·.1), t.place.isVariable := by
    intro t hmem
    simp only [checked, List.map_map, List.mem_map, Function.comp_apply] at hmem
    obtain ⟨t', hmem', rfl⟩ := hmem
    exact isVariable_avoidConflict (ht t' hmem')
  have hcopied : ∀ {op a b c}, Compile.Orderly (do
      Functor.discard (Compile.emitABC op a b c)
      let u ← Compile.reserve 1
      finish u) d fun ts d' => d.registers.Stays d'.registers ∧ d.free ≤ d'.free ∧ ∀ t ∈ ts, t.place.isVariable := by
    intro op a b c
    refine (emitABC _ _ _ _).dropThen fun _ d1 h1 => ?_
    have hfree1 : d1.free = d.free := congrArg Registers.free h1.1
    refine (reserve (h1.1 ▸ hs) 1).andThen fun _ d2 h2 => pure ⟨h1.1 ▸ h2.1, by omega, hchecked⟩
  split
  · split
    · exact hcopied
    · exact hcopied
    · exact pure ⟨hs.stays, Nat.le_refl _, hchecked⟩
  · exact pure ⟨hs.stays, Nat.le_refl _, hchecked⟩

/-- **The targets of an assignment** are variables; what they hold is not given back before the end of the
    statement. -/
theorem Disciplined.targetsFrom {earlier : List Expr} (hg : g.Disciplined) (left : Nat) (hs : d.registers.Sound)
    (hb : d.active ≤ d.free) (ht : ∀ t ∈ earlier, t.place.isVariable) :
    Compile.Orderly (g.targetsFrom left e earlier) d fun ts d' =>
      d.registers.Stays d'.registers ∧ d.active ≤ d'.free ∧ ∀ t ∈ ts, t.place.isVariable := by
  induction left using Nat.strongRecOn generalizing d e earlier with
  | ind left ih =>
    unfold Grammar.targetsFrom
    split
    · next hv =>
      have htargets : ∀ t ∈ e :: earlier, t.place.isVariable := by
        rintro t (_ | ⟨_, hmem⟩)
        · exact hv
        · exact ht t hmem
      refine read testNext fun more => ?_
      split
      · refine (hg.suffixed hs hb).andThen fun e' d1 h1 => ?_
        have hle1 := h1.2.le
        extract_lets rest
        have hrest : ∀ ts d2, d.registers.Stays d2.registers → d.free ≤ d2.free → (∀ t ∈ ts, t.place.isVariable) →
            Compile.Orderly (rest ts) d2 fun ts d' =>
              d.registers.Stays d'.registers ∧ d.active ≤ d'.free ∧ ∀ t ∈ ts, t.place.isVariable := by
          intro ts d2 hstays2 hle2 hts
          have hactive2 : d2.active = d.active := hstays2.active
          cases left with
          | zero => exact failNear rfl
          | succ left =>
            refine (ih left (Nat.lt_succ_self _) hstays2.sound (by omega) hts).imp fun ts' d3 h3 => ?_
            exact ⟨hstays2.trans h3.1, by rw [← hactive2]; exact h3.2.1, h3.2.2⟩
        split
        · exact bind (pure (hrest _ d1 h1.1 hle1 htargets))
        · refine (checkConflict_orderly h1.1.sound htargets).andThen fun ts d2 h2 => ?_
          exact hrest ts d2 (h1.1.trans h2.1) (Nat.le_trans hle1 h2.2.1) h2.2.2
      · exact pure ⟨hs.stays, hb, htargets⟩
    · exact failNear rfl

/-- **Each of the values on top goes to its target**, the last one first. -/
theorem storeAll_orderly {targets : List Expr} (hs : d.registers.Sound) (hb : d.active ≤ base)
    (ht : ∀ t ∈ targets, t.place.isVariable) (hfree : d.free = base + targets.length) :
    Compile.Orderly (storeAll targets) d fun _ d' => d.registers.Stays d'.registers ∧ d'.free = base := by
  induction targets generalizing d with
  | nil => exact pure ⟨hs.stays, hfree⟩
  | cons t rest ih =>
    rw [List.length_cons] at hfree
    refine topRegister (by omega) ?_
    have htop : d.free - 1 = base + rest.length := by omega
    rw [htop]
    have hvalue : (Expr.plain (.fixed (base + rest.length))).place.Rests d (base + rest.length) :=
      .inr ⟨rfl, by omega, by omega⟩
    refine (storeVariable hs (by omega) hvalue nofun (ht t (List.mem_cons_self ..))).andThen fun _ d1 h1 => ?_
    have hb1 : d1.active ≤ base := Nat.le_trans (Nat.le_of_eq h1.1.active) hb
    refine (ih h1.1.sound hb1 (fun t' hmem => ht t' (List.mem_cons_of_mem _ hmem)) h1.2).imp fun _ d2 h2 => ?_
    exact ⟨h1.1.trans h2.1, h2.2⟩

/-- **An assignment** leaves nothing of its values. -/
theorem Disciplined.assignment (hg : g.Disciplined) (hs : d.registers.Sound) (hb : d.active ≤ d.free) :
    Compile.Orderly (g.assignment e) d fun _ d' => d.registers.Stays d'.registers ∧ d.active ≤ d'.free := by
  have hnone : ∀ t ∈ ([] : List Expr), t.place.isVariable := nofun
  refine (hg.targetsFrom _ hs hb hnone).andThen fun targets d1 h1 => read checkNext fun _ => ?_
  have hactive1 : d1.active = d.active := h1.1.active
  refine (hg.exprs h1.1.sound (by omega)).andThen fun listed d2 h2 => ?_
  obtain ⟨count, e2⟩ := listed
  have hactive2 : d2.active = d1.active := h2.1.active
  have hb2 : d2.active ≤ d1.free := by omega
  have hstored : ∀ {ts d3}, (∀ t ∈ ts, t.place.isVariable) → d2.registers.Stays d3.registers → d3.free = d1.free + ts.length →
      Compile.Orderly (storeAll ts) d3 fun _ d' => d.registers.Stays d'.registers ∧ d.active ≤ d'.free := by
    intro ts d3 hts hstays3 hfree3
    have hb3 : d3.active ≤ d1.free := Nat.le_trans (Nat.le_of_eq hstays3.active) hb2
    refine (storeAll_orderly hstays3.sound hb3 hts hfree3).imp fun _ d4 h4 => ?_
    exact ⟨h1.1.trans (h2.1.trans (hstays3.trans h4.1)), Nat.le_trans h1.2.1 (Nat.le_of_eq h4.2.symm)⟩
  dsimp only
  split
  · next hcount =>
    refine (setOneReturn h2.1.sound h2.2.2).andThen fun e3 d3 h3 => ?_
    split
    · refine pure ⟨h1.1.trans (h2.1.trans h3.1), ?_⟩
      have := h3.2.1.le
      omega
    · next t rest =>
      rw [List.length_cons] at hcount
      have hb3 : d3.active ≤ d1.free + (count - 1) := by
        have : d3.active = d2.active := h3.1.active
        omega
      refine (storeVariable h3.1.sound hb3 h3.2.1 h3.2.2 (h1.2.2 t (List.mem_cons_self ..))).andThen fun _ d4 h4 => ?_
      refine hstored (fun t' hmem => h1.2.2 t' (List.mem_cons_of_mem _ hmem)) (h3.1.trans h4.1) ?_
      omega
  · exact (adjust_orderly h2.1.sound (.inr h2.2)).andThen fun _ d3 h3 => hstored h1.2.2 h3.1 h3.2

theorem Disciplined.exprStatement (hg : g.Disciplined) (h : r.Balanced d.registers) :
    Compile.Orderly g.exprStatement d fun _ d' => r.Follows d'.registers := by
  refine (hg.suffixed h.sound (Nat.le_of_eq h.even.symm)).andThen fun e d1 h1 => read token fun t => ?_
  have hstays1 := h.toStays.trans h1.1
  have hactive1 : d1.active = r.active := hstays1.active
  have hfree : d.free = r.active := h.free
  have hle1 := h1.2.le
  have hassign : Compile.Orderly (g.assignment e) d1 fun _ d' => r.Follows d'.registers := by
    refine (hg.assignment hstays1.sound (by omega)).imp fun _ d2 h2 => (hstays1.trans h2.1).follows ?_
    rw [← hactive1]
    exact h2.2
  split
  · exact hassign
  · exact hassign
  · split
    · refine modifyFn rfl (hstays1.follows ?_)
      show r.active ≤ d1.free
      omega
    · exact failNear rfl

theorem Disciplined.skipNoOps (hg : g.Disciplined) (n : Nat) (h : r.Follows d.registers) (hfree : d.free = d.active) :
    Compile.Orderly (g.skipNoOps n) d fun _ d' => r.Follows d'.registers ∧ d'.free = d'.active := by
  induction n generalizing d with
  | zero => exact failNear rfl
  | succ n ih =>
    have hmore : Compile.Orderly (do g.statement; g.skipNoOps n) d fun _ d' =>
        r.Follows d'.registers ∧ d'.free = d'.active :=
      (hg.statement h.sound hfree).andThen fun _ d1 h1 => ih (h.trans h1.1) h1.2
    refine read token fun t => ?_
    split
    · exact hmore
    · exact hmore
    · exact pure ⟨h, hfree⟩

theorem Disciplined.labelStatement {name : Bytes} {line : Nat} (hg : g.Disciplined) (h : r.Balanced d.registers) :
    Compile.Orderly (g.labelStatement name line) d fun _ d' => r.Follows d'.registers := by
  refine get fun s _ => ?_
  split
  · exact failPlain rfl
  · refine read checkNext fun _ => markTarget.andThen fun pc d1 h1 => get fun s _ => bind (modifyFn rfl ?_)
    have hbalanced : r.Balanced d1.registers := h1 ▸ h
    refine (hg.skipNoOps g.bound (d := { d1 with labels := _ }) (r := r) ?_ ?_).andThen fun _ d2 h2 => ?_
    · exact hbalanced.follows
    · exact hbalanced.even
    refine read atBlockEnd fun atEnd => ?_
    extract_lets finish
    have hfinish : ∀ label, Compile.Orderly (finish label) d2 fun _ d' => r.Follows d'.registers :=
      fun label => bind (modifyFn rfl ((closeGotos _).imp fun _ d3 h3 => by rw [h3]; exact h2.1))
    split
    · refine read innermostBlock fun b => ?_
      exact bind (pure (hfinish _))
    · exact bind (pure (hfinish _))

/-- **What is returned** lies right above the locals. -/
theorem Disciplined.returnStatement (hg : g.Disciplined) (h : r.Balanced d.registers) :
    Compile.Orderly g.returnStatement d fun _ d' => r.Follows d'.registers := by
  have hfree : d.free = r.active := h.free
  refine read atBlockEnd fun atEnd => read token fun t => ?_
  extract_lets finish
  have hfinish : ∀ u d1, r.Follows d1.registers → Compile.Orderly (finish u) d1 fun _ d' => r.Follows d'.registers :=
    fun u d1 h1 => Compile.Orderly.discard ((testNext d1).imp fun _ d2 h2 => h2 ▸ h1)
  have hreturn : ∀ {first n d1}, r.Follows d1.registers → Compile.Orderly (do finish (← Compile.emitReturn first n)) d1
      fun _ d' => r.Follows d'.registers := fun h1 =>
    (emitReturn _ _).andThen fun u d2 h2 => hfinish u d2 (h2 ▸ h1)
  split
  · exact hreturn h.follows
  · refine (hg.exprs h.sound (Nat.le_of_eq h.even.symm)).andThen fun listed d1 h1 => ?_
    obtain ⟨count, e⟩ := listed
    rw [hfree] at h1
    obtain ⟨hstays, hcount, hrests⟩ := h1
    have hstays1 := h.toStays.trans hstays
    have hactive1 : d1.active = r.active := hstays1.active
    have hb : d1.active ≤ r.active + (count - 1) := by omega
    refine get fun s hfn => ?_
    rw [hfn]
    split
    · next hm =>
      refine (setReturns hstays1.sound hrests hm).andThen fun _ d2 h2 => ?_
      have hstays2 := hstays1.trans h2.1
      have hfollows2 : r.Follows d2.registers := hstays2.follows (by show r.active ≤ d2.free; omega)
      extract_lets close
      have hclose : ∀ u d3, r.Follows d3.registers → Compile.Orderly (close u) d3 fun _ d' => r.Follows d'.registers :=
        fun u d3 h3 => hreturn h3
      split
      · next pc hp =>
        refine Compile.Orderly.bind (modifyFn rfl ((demand (decide_eq_true ?_) hfollows2).andThen hclose))
        have ha : (d2.instr pc).a.val = r.active := h2.2.2 pc hp
        show ((Draft.mapInstr d2 pc _).instr pc).a.val = d1.active
        rw [Draft.instr_mapInstr, hactive1]
        split
        · rw [Instr.a_setOp]
          exact ha
        · exact ha
      · exact hclose () d2 hfollows2
    · split
      · refine (toAnyRegister hstays1.sound hb hrests).andThen fun reg d2 h2 => hreturn ?_
        refine (hstays1.trans h2.1).follows ?_
        have := h2.2.le
        show r.active ≤ d2.free
        omega
      · refine (toNextRegister hstays1.sound hrests).dropThen fun _ d2 h2 => ?_
        refine demanding (decide_eq_true ?_) (hreturn ((hstays1.trans h2.2.1).follows ?_))
        · omega
        · show r.active ≤ d2.free
          omega

/-! ## 5. The grammar -/

/-- **A statement**, if what is nested in it is read well: afterwards only locals hold registers. -/
theorem Disciplined.statementBody (hg : g.Disciplined) (hs : d.registers.Sound) (hfree : d.free = d.active) :
    Compile.Orderly g.statementBody d fun _ d' => d.registers.Follows d'.registers ∧ d'.free = d'.active := by
  have h : d.registers.Balanced d.registers := hs.balanced hfree
  refine read Compile.Orderly.line fun line => read token fun t => ?_
  extract_lets finish
  have hfinish : ∀ u d1, d.registers.Follows d1.registers → Compile.Orderly (finish u) d1 fun _ d' =>
      d.registers.Follows d'.registers ∧ d'.free = d'.active := by
    intro u d1 h1
    have hheld : d1.active ≤ d1.free := h1.held
    have hlow : d1.free ≤ d1.maxStack := h1.sound.free
    have hhigh : d1.maxStack ≤ 254 := h1.sound.high
    refine demanding ?_ (modifyFn rfl ⟨⟨h1.levels, h1.active, ⟨Nat.le_trans hheld hlow, hhigh⟩, Nat.le_refl _⟩, rfl⟩)
    simp only [Bool.and_eq_true, decide_eq_true_eq, Compile.maxRegisters]
    exact ⟨⟨hheld, hlow⟩, decide_eq_true (Nat.lt_succ_of_le hhigh)⟩
  have hbalanced : ∀ {x : Compile Unit}, Compile.Orderly x d (fun _ d' => d.registers.Balanced d'.registers) →
      Compile.Orderly (x >>= finish) d fun _ d' => d.registers.Follows d'.registers ∧ d'.free = d'.active := fun hx =>
    hx.andThen fun u d1 h1 => hfinish u d1 h1.follows
  have hgoto : Compile.Orderly (do finish (← Compile.gotoStatement (← Compile.jump))) d fun _ d' =>
      d.registers.Follows d'.registers ∧ d'.free = d'.active :=
    jump.andThen fun js d1 h1 => (gotoStatement js).andThen fun u d2 h2 =>
      hfinish u d2 ((h2.trans h1) ▸ h.follows)
  split
  · exact read next fun u => hfinish u d h.follows
  · exact hbalanced (hg.ifStatement h)
  · exact hbalanced (hg.whileStatement h)
  · exact read next fun _ => (hg.block h).andThen fun _ d1 h1 => read checkMatch fun u => hfinish u d1 h1.follows
  · exact hbalanced (hg.forStatement h)
  · exact hbalanced (hg.repeatStatement h)
  · exact (hg.functionStatement h).andThen hfinish
  · refine read next fun _ => read testNext fun isFunction => ?_
    split
    · exact (hg.localFunction h).andThen hfinish
    · exact (hg.localStatement h).andThen hfinish
  · exact read next fun _ => read checkName fun name => (hg.labelStatement h).andThen hfinish
  · exact read next fun _ => (hg.returnStatement h).andThen hfinish
  · exact hgoto
  · exact hgoto
  · exact (hg.exprStatement h).andThen hfinish

/-- **The grammar**, at every level of nesting. -/
theorem ofLevels_disciplined (bound n : Nat) : (ofLevels Compile.named bound n).Disciplined := by
  induction n with
  | zero => exact ⟨fun _ _ => failNear rfl, fun _ _ => failNear rfl, rfl⟩
  | succ n ih => exact ⟨fun hs hfree => ih.statementBody hs hfree, fun hs hb => ih.expressionBody hs hb, rfl⟩

/-- **The main function** breaks no rule. Its first block is there before its upvalue is. -/
theorem mainFunction_unbroken (bound n : Nat) {s : Compiler} {e : CompileError} (hfn : s.fn = Draft.new 0) (ho : s.outer = [])
    (h : (ofLevels Compile.named bound n).mainFunction s = .error e) : e.fault.isBroken = false := by
  have hg := ofLevels_disciplined bound n
  obtain ⟨current, ahead, fault, lastLine, chunk, source, fn, outer⟩ := s
  subst hfn
  subst ho
  have hbody : ∀ {d : Draft}, (Draft.new 0).registers.Inside d.registers → Compile.Orderly (do
      (ofLevels Compile.named bound n).statements
      Compile.check .eof
      closeBody) d fun _ _ => True := fun hinside =>
    (hg.statements hinside).andThen fun _ d1 h1 => read check fun _ =>
      (emitReturn _ _).andThen fun _ d2 h2 => (leaveBlock (h2 ▸ h1)).imp fun _ _ _ => trivial
  let d : Draft := { Draft.addUpvalue { Draft.new 0 with blocks := [⟨0, 0, 0, false, false⟩] }
    Compile.environmentName (.register 0) with isVararg := true }
  have hinside : (Draft.new 0).registers.Inside d.registers := ⟨rfl, Nat.le_refl 0, ⟨Nat.zero_le 2, Nat.le_add_right 2 252⟩, rfl⟩
  have hlinked : Linked [d] := ⟨⟨some Compile.environmentName, true, 0⟩, by simp [d, Draft.addUpvalue, Draft.new], rfl⟩
  have hrun := hbody hinside ⟨current, ahead, fault, lastLine, chunk, source, d, []⟩ rfl hlinked
  have hsame : (ofLevels Compile.named bound n).mainFunction ⟨current, ahead, fault, lastLine, chunk, source, Draft.new 0, []⟩ = (do
      (ofLevels Compile.named bound n).statements
      Compile.check .eof
      closeBody) ⟨current, ahead, fault, lastLine, chunk, source, d, []⟩ := rfl
  rw [← hsame, h] at hrun
  exact hrun

end Grammar

/-- **No rule about registers is broken**, whatever is compiled. -/
theorem compile_keeps_registers (source : Bytes) (chunkName : String) (rule : RegisterRule) {e : CompileError}
    (h : compile source chunkName = .error e) : e.fault ≠ .broken rule := by
  have hbroken : e.fault.isBroken = false := by
    unfold compile compileWith at h
    extract_lets chunk at h
    split at h
    · cases h
      rfl
    · cases h
      rfl
    · dsimp only at h
      split at h
      · exact nomatch h
      · next e' hrun =>
        cases h
        exact Grammar.mainFunction_unbroken _ _ rfl rfl hrun
  intro hfault
  rw [hfault] at hbroken
  cases hbroken

/-- A jump out of a function that holds a call, a concatenation and a method is an error, but no broken
    rule. -/
theorem compile_keeps_registers_goto :
    ∃ e, compile (Bytes.ofString "local a, b = f(1, ...) a.x, b = b .. 'y' .. a:m(), -a goto out") "t" = .error e ∧
      e.fault ≠ .broken .topmost ∧ e.fault ≠ .broken .concat := by
  have hfails : (match compile (Bytes.ofString "local a, b = f(1, ...) a.x, b = b .. 'y' .. a:m(), -a goto out") "t" with
      | .error _ => true
      | .ok _ => false) = true := by decide +kernel
  cases h : compile (Bytes.ofString "local a, b = f(1, ...) a.x, b = b .. 'y' .. a:m(), -a goto out") "t" with
  | ok p =>
    rw [h] at hfails
    cases hfails
  | error e => exact ⟨e, rfl, compile_keeps_registers _ _ _ h, compile_keeps_registers _ _ _ h⟩

end LuaMachine
