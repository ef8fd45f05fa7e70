/-
  CONDITIONS AND OPERATORS GO BY STEPS of the sketch. A NOT that has just been written is taken back where
  its value is tested only: nothing has been marked behind it.
-/
import LuaMachine.Proofs.Sketch.Value

namespace LuaMachine

open Operand (noRegister)

theorem Draft.opAt_instr {d : Draft} {pc : Nat} {op : Op} (h : (d.instr pc).opcode = op) (hop : op ≠ .extraArg) :
    d.OpAt pc op := by
  have hlt : pc < d.code.size := Draft.instr_lt (by rwa [h])
  have hi := Array.getElem?_eq_getElem hlt
  exact ⟨_, hi, by rw [← Draft.instr_eq hi, h]⟩

namespace Compile

theorem inert_of_fold {op : ArithOp} {e1 e2 r : Expr} (h : fold? op e1 e2 = some r) :
    ∃ p, r = .plain p ∧ p.isInert = true := by
  unfold fold? at h
  split at h
  · split at h
    · split at h
      · cases h
        exact ⟨_, rfl, rfl⟩
      · split at h
        · cases h
        · cases h
          exact ⟨_, rfl, rfl⟩
      · cases h
    · cases h
  · cases h

theorem inert_of_numeral {e : Expr} (h : e.numeral?.isSome) : e.place.isInert = true := by
  unfold Expr.numeral? at h
  split at h
  · cases h
  · split at h
    · next hp => rw [hp]; rfl
    · next hp => rw [hp]; rfl
    · cases h

namespace Goes

variable {scope : Bool} {u : Sketch} {e : Expr}

/-! ## 1. Conditions -/

theorem negate {jumps : JumpList} (hl : ∀ n ∈ jumps, u.draft.JumpAt n) :
    Goes scope (Compile.negate jumps) u fun _ u' => u.Recoded u' := by
  unfold Compile.negate
  split
  · exact pure (.refl u)
  · next node _ =>
    refine mapInstr (n := fun d => controlOf d node) fun i hi => .register fun hnil => ?_
    obtain ⟨j, hj, hlayout⟩ := hl node List.mem_cons_self
    have hinstr := Draft.instr_eq hi
    unfold controlOf at hi hinstr
    split at hi
    · next htest =>
      rw [if_pos htest] at hinstr
      have htest' := htest.2
      rw [hinstr, hnil] at htest'
      cases htest'
    · rw [hi] at hj
      cases hj
      rw [hnil] at hlayout
      cases hlayout

/-- **A value is tested.** -/
theorem jumpOn (he : e.Fit u) (cond : Bool) :
    Goes scope (Compile.jumpOn e cond) u fun l u' => ∀ n ∈ l, u'.draft.JumpAt n := by
  refine get fun s hs => ?_
  rw [hs]
  split
  · next r hlast =>
    obtain ⟨pc, hp, hop, hpc⟩ : ∃ pc, e.place = .pending pc ∧ (u.draft.instr pc).opcode = .not ∧ pc + 1 = u.draft.pc := by
      unfold lastNot? at hlast
      split at hlast
      · next pc hp =>
        dsimp only at hlast
        split at hlast
        · next hnot => exact ⟨pc, hp, hnot.1, hnot.2⟩
        · cases hlast
      · cases hlast
    have hnot : u.draft.OpAt pc .not := Draft.opAt_instr hop (by decide)
    have hquiet := he.place.quiet pc hp
    have hprev : u.draft.pc - 1 = pc := by omega
    refine (dropLast (hprev ▸ hnot) (fun t ht => ?_) fun k v hv => ?_).bind fun _ u1 _ _ =>
      condJump (by decide) (by decide)
    · have hle := hquiet.marks hnot t ht
      omega
    · have hle := hquiet.lives hnot k v hv
      omega
  · refine (settleAnywhere he).bind fun e1 u1 _ _ => idle Idle.freeExpr fun _ u2 _ => ?_
    exact condJump (by decide) (by decide)

theorem leave {out jumps arrive : JumpList} (hout : ∀ n ∈ out, u.draft.JumpAt n) (hjumps : ∀ n ∈ jumps, u.draft.JumpAt n)
    (harrive : ∀ n ∈ arrive, u.draft.JumpAt n) : Goes scope (do
      let all ← Compile.joinJumps out jumps
      Compile.patchHere arrive
      return all) u fun l u' => ∀ n ∈ l, u'.draft.JumpAt n := by
  refine (joinJumps out jumps).bind ?_
  rintro _ u1 - ⟨rfl, rfl⟩
  refine (patchHere harrive).bind fun _ u2 hsteps _ => pure fun n hn => hsteps.jumpAt ?_
  exact (List.mem_append.mp hn).elim (hout n) (hjumps n)

/-- **Control goes on when the value is true.** -/
theorem goIfTrue (he : e.Fit u) :
    Goes scope (Compile.goIfTrue e) u fun l u' => ∀ n ∈ l, u'.draft.JumpAt n := by
  refine (readVariable he).bind fun e1 u1 _ h1 => ?_
  have he1 := h1.1
  extract_lets next
  have hnext : ∀ js (u2 : Sketch), Sketch.Steps scope u1 u2 → (∀ n ∈ js, u2.draft.JumpAt n) →
      Goes scope (next js) u2 fun l u' => ∀ n ∈ l, u'.draft.JumpAt n := fun js u2 hsteps hjs =>
    leave (fun n hn => hsteps.jumpAt (he1.onFalse n hn)) hjs fun n hn => hsteps.jumpAt (he1.onTrue n hn)
  have hknown := hnext [] u1 .refl fun n hn => absurd hn List.not_mem_nil
  have htest : Goes scope (Compile.jumpOn e1 false >>= next) u1 fun l u' => ∀ n ∈ l, u'.draft.JumpAt n :=
    (jumpOn he1 false).bind fun js u2 hsteps hjs => hnext js u2 hsteps hjs
  cases hp : e1.place with
  | compare js =>
    have hjs : ∀ n ∈ js, u1.draft.JumpAt n := fun n hn => he1.place.jumps n (by rw [hp]; exact hn)
    exact (negate hjs).bind fun _ u2 hsteps _ => hnext js u2 hsteps fun n hn => hsteps.jumpAt (hjs n hn)
  | constant | float | int => exact hknown
  | bool b =>
    cases b with
    | true => exact hknown
    | false => exact htest
  | _ => exact htest

/-- **Control goes on when the value is false.** -/
theorem goIfFalse (he : e.Fit u) :
    Goes scope (Compile.goIfFalse e) u fun l u' => ∀ n ∈ l, u'.draft.JumpAt n := by
  refine (readVariable he).bind fun e1 u1 _ h1 => ?_
  have he1 := h1.1
  extract_lets next
  have hnext : ∀ js (u2 : Sketch), Sketch.Steps scope u1 u2 → (∀ n ∈ js, u2.draft.JumpAt n) →
      Goes scope (next js) u2 fun l u' => ∀ n ∈ l, u'.draft.JumpAt n := fun js u2 hsteps hjs =>
    leave (fun n hn => hsteps.jumpAt (he1.onTrue n hn)) hjs fun n hn => hsteps.jumpAt (he1.onFalse n hn)
  have hknown := hnext [] u1 .refl fun n hn => absurd hn List.not_mem_nil
  have htest : Goes scope (Compile.jumpOn e1 true >>= next) u1 fun l u' => ∀ n ∈ l, u'.draft.JumpAt n :=
    (jumpOn he1 true).bind fun js u2 hsteps hjs => hnext js u2 hsteps hjs
  cases hp : e1.place with
  | compare js =>
    exact hnext js u1 .refl fun n hn => he1.place.jumps n (by rw [hp]; exact hn)
  | nil => exact hknown
  | bool b =>
    cases b with
    | true => exact htest
    | false => exact hknown
  | _ => exact htest

/-- **The lists of a negated value change sides.** -/
theorem logicalNot (he : e.Fit u) : Goes scope (Compile.logicalNot e) u fun e' u' => e'.Fit u' := by
  refine (readVariable he).bind fun e1 u1 _ h1 => ?_
  have he1 := h1.1
  extract_lets next
  have hnext : ∀ place (u2 : Sketch), Sketch.Steps scope u1 u2 → place.Fit u2 →
      Goes scope (next place) u2 fun e' u' => e'.Fit u' := by
    intro place u2 hsteps hplace
    refine (dropValues e1.onTrue).bind fun _ u3 hsteps3 h3 => ?_
    refine (dropValues e1.onFalse).bind fun _ u4 hsteps4 h4 => pure ?_
    have hall := (hsteps.trans hsteps3).trans hsteps4
    exact ⟨(hplace.recoded hsteps3 h3).recoded hsteps4 h4, fun _ hn => Sketch.Steps.jumpAt hall (he1.onFalse _ hn),
      fun _ hn => Sketch.Steps.jumpAt hall (he1.onTrue _ hn)⟩
  have hknown : ∀ b, Goes scope (next (.bool b)) u1 fun e' u' => e'.Fit u' := fun b =>
    hnext (.bool b) u1 .refl (Place.fit_of_inert rfl u1)
  have hwritten : Goes scope (do
      let e ← Compile.settleAnywhere e1
      Compile.freeExpr e
      let pc ← Compile.emitABC .not 0 e.place.register 0
      next (.pending pc)) u1 fun e' u' => e'.Fit u' := by
    refine (settleAnywhere he1).bind fun e2 u2 hsteps2 _ => ?_
    refine (ofIdle Idle.freeExpr).bind fun _ u3 hsteps3 _ => sound fun hu3 => ?_
    refine (emitABC rfl).bind fun pc u4 hsteps4 h4 => ?_
    refine hnext (.pending pc) u4 ((hsteps2.trans hsteps3).trans hsteps4) (Place.fit_pending (.ofWritten hu3 h4 ?_))
    rw [Instr.opcode_ofABC]
    rfl
  have hother : Goes scope (next e1.place) u1 fun e' u' => e'.Fit u' := hnext e1.place u1 .refl he1.place
  cases hp : e1.place with
  | nil => exact hknown true
  | constant | float | int => exact hknown false
  | bool b => cases b <;> exact hknown _
  | compare js =>
    refine (negate fun n hn => he1.place.jumps n (by rw [hp]; exact hn)).bind fun _ u2 hsteps2 h2 => ?_
    exact hnext (.compare js) u2 hsteps2 (hp ▸ he1.place.recoded hsteps2 h2)
  | pending | fixed => exact hwritten
  | _ =>
    rw [hp] at hother
    exact hother

/-! ## 2. Operators -/

theorem emitResult {op : Op} {a b c line : Nat} (hop : op.isMild = true) : Goes scope (do
      let pc ← Compile.emitABC op a b c
      Compile.fixLine line
      return Expr.plain (.pending pc)) u fun e' u' => e'.Fit u' := by
  refine sound fun hu => (emitABC hop).bind fun pc u1 _ h1 => idle Idle.fixLine fun _ u2 h2 => pure ?_
  refine (Expr.fit_plain (Place.fit_pending (.ofWritten hu h1 ?_))).similar h2
  rwa [Instr.opcode_ofABC]

theorem emitUnary {op : Op} {line : Nat} (he : e.Fit u) (hop : op.isMild = true) :
    Goes scope (Compile.emitUnary op e line) u fun e' u' => e'.Fit u' :=
  (toAnyRegister he).bind fun _ _ _ _ => idle Idle.freeRegister fun _ _ _ => emitResult hop

theorem foldOrEmit (aop : ArithOp) {op : Op} (zero : Expr) (he : e.Fit u) (line : Nat) (hop : op.isMild = true) :
    Goes scope (match fold? aop e zero with
      | some r => Pure.pure r
      | none => Compile.emitUnary op e line) u fun e' u' => e'.Fit u' := by
  split
  · next r hr =>
    obtain ⟨p, rfl, hp⟩ := inert_of_fold hr
    exact pure (Expr.fit_inert hp u)
  · exact emitUnary he hop

theorem unary (op : UnOp) (he : e.Fit u) (line : Nat) :
    Goes scope (Compile.unary op e line) u fun e' u' => e'.Fit u' := by
  cases op with
  | minus => exact foldOrEmit .unm _ he line rfl
  | bnot => exact foldOrEmit .bnot _ he line rfl
  | len => exact emitUnary he rfl
  | not => exact logicalNot he

theorem emitBinary {op : Op} {e1 e2 : Expr} {line : Nat} (h1 : e1.Fit u) (hinert : e1.place.isInert = true)
    (h2 : e2.Fit u) (hop : op.isMild = true) :
    Goes scope (Compile.emitBinary op e1 e2 line) u fun e' u' => e'.Fit u' := by
  refine (toOperand h2).bind fun y u1 hsteps _ => ?_
  refine (toOperand (h1.steps hsteps (Place.ne_pending_of_inert hinert))).bind fun x u2 _ _ => ?_
  exact idle Idle.freeRegisters fun _ _ _ => emitResult hop

/-- **A comparison is written** with its jump. -/
theorem emitCompare (op : BinOp) (e1 : Expr) {e2 : Expr} (h2 : e2.Fit u) :
    Goes scope (Compile.emitCompare op e1 e2) u fun e' u' => e'.Fit u' := by
  unfold Compile.emitCompare
  extract_lets x
  refine (toOperand h2).bind fun y u1 _ _ => idle Idle.freeRegisters fun _ u2 _ => ?_
  have hjump : ∀ cop a b c, Op.layout cop ≠ .asbx → cop ≠ .loadNil → Goes scope (do
      let jumps ← Compile.condJump cop a b c
      return Expr.plain (.compare jumps)) u2 fun e' u' => e'.Fit u' := fun cop a b c hlayout hnil =>
    (condJump hlayout hnil).bind fun jumps _ _ hjumps => pure (Expr.fit_plain (Place.fit_compare hjumps))
  cases op <;> exact hjump _ _ _ _ (by decide) (by decide)

theorem inert_ofOperand (x : Nat) (u : Sketch) : (Expr.ofOperand x).Fit u ∧ (Expr.ofOperand x).place.isInert = true := by
  unfold Expr.ofOperand
  split
  · exact ⟨Expr.fit_inert rfl u, rfl⟩
  · exact ⟨Expr.fit_inert rfl u, rfl⟩

/-- **The left operand is prepared**: nothing waits for its register while the right one is read. -/
theorem beforeRight (op : BinOp) (he : e.Fit u) :
    Goes scope (Compile.beforeRight op e) u fun e' u' => e'.Fit u' ∧ e'.place.isInert = true := by
  have hoperand : Goes scope (do return Expr.ofOperand (← Compile.toOperand e)) u
      fun e' u' => e'.Fit u' ∧ e'.place.isInert = true :=
    (toOperand he).bind fun x u1 _ _ => pure (inert_ofOperand x u1)
  have hvoid : ∀ u', (Place.void).Fit u' := Place.fit_of_inert rfl
  cases op with
  | and =>
    exact (goIfTrue he).bind fun l u1 _ hl => pure ⟨⟨hvoid u1, fun _ hn => absurd hn List.not_mem_nil, hl⟩, rfl⟩
  | or =>
    exact (goIfFalse he).bind fun l u1 _ hl => pure ⟨⟨hvoid u1, hl, fun _ hn => absurd hn List.not_mem_nil⟩, rfl⟩
  | concat => exact (toNextRegister he).bind fun r u1 _ _ => pure ⟨Expr.fit_inert rfl u1, rfl⟩
  | arith aop =>
    unfold Compile.beforeRight
    dsimp only
    split
    · next hnumeral => exact pure ⟨he, inert_of_numeral hnumeral⟩
    · exact hoperand
  | _ => exact hoperand

/-- **The operator is applied.** -/
theorem afterRight {op : BinOp} {e1 e2 : Expr} {line : Nat} (h1 : e1.Fit u) (hinert : e1.place.isInert = true)
    (h2 : e2.Fit u) : Goes scope (Compile.afterRight op e1 e2 line) u fun e' u' => e'.Fit u' := by
  cases op with
  | and =>
    refine (readVariable h2).bind fun e u1 hsteps he => (joinJumps e.onFalse e1.onFalse).bind ?_
    rintro _ u2 - ⟨rfl, rfl⟩
    refine pure ⟨he.1.place, he.1.onTrue, fun n hn => ?_⟩
    exact (List.mem_append.mp hn).elim (he.1.onFalse n) fun hn => hsteps.jumpAt (h1.onFalse n hn)
  | or =>
    refine (readVariable h2).bind fun e u1 hsteps he => (joinJumps e.onTrue e1.onTrue).bind ?_
    rintro _ u2 - ⟨rfl, rfl⟩
    refine pure ⟨he.1.place, fun n hn => ?_, he.1.onFalse⟩
    exact (List.mem_append.mp hn).elim (he.1.onTrue n) fun hn => hsteps.jumpAt (h1.onTrue n hn)
  | concat =>
    refine (toValue h2).bind fun e u1 hsteps he => get fun s hs => ?_
    rw [hs]
    split
    · next pc hconcat =>
      obtain ⟨hp, hop⟩ := Moves.pending_of_concat hconcat
      have hfirm : u1.draft.HoldsAt pc Instr.Firm := by
        refine Draft.HoldsAt.imp (Draft.opAt_instr hop (by decide)) fun i hi => ?_
        unfold Instr.Firm
        rw [hi]
        decide
      refine demanding fun _ => (ofIdle Idle.freeExpr).bind fun _ u2 hsteps2 _ => ?_
      have hfirm2 := hsteps2.holdsAt Sketch.lasting_firm hfirm
      refine (setOperands (g := fun _ i => i.setB e1.place.register) hfirm2 fun _ _ => rfl).bind
        fun _ u3 hsteps3 _ => pure ?_
      exact Expr.fit_plain (Place.fit_pending (.ofFirm (hsteps3.holdsAt Sketch.lasting_firm hfirm2)))
    · refine (toNextRegister he).bind fun r u2 hsteps2 _ => ?_
      have h1' := h1.steps (hsteps.trans hsteps2) (Place.ne_pending_of_inert hinert)
      exact emitBinary h1' hinert (Expr.fit_inert rfl u2) rfl
  | arith aop =>
    unfold Compile.afterRight
    dsimp only
    split
    · next r hr =>
      obtain ⟨p, rfl, hp⟩ := inert_of_fold hr
      exact pure (Expr.fit_inert hp u)
    · exact emitBinary h1 hinert h2 (by cases aop <;> rfl)
  | eq | lt | le | ne | gt | ge =>
    unfold Compile.afterRight
    exact emitCompare _ e1 h2

/-- **Items are stored.** The number of their block stands in the instruction or in a word of its own behind it. -/
theorem setList (table items : Nat) (gathered : Option Nat) :
    Goes scope (Compile.setList table items gathered) u fun _ _ => True := by
  unfold Compile.setList
  extract_lets block n rest
  have hrest : ∀ u1, Goes scope (rest ()) u1 fun _ _ => True := fun u1 =>
    (ofIdle (Idle.modifyFn (g := fun d => { d with free := table + 1 }) fun _ => .rest rfl)).imp fun _ _ _ => trivial
  have hraw : ∀ c, (Instr.ofABC .setList table n c).Raw := fun c =>
    Instr.raw_of_ne (by rw [Instr.opcode_ofABC]; decide) (by rw [Instr.opcode_ofABC]; decide)
  split
  · next hblock =>
    have hskip : (Instr.ofABC .setList table n block).skipsNext = false := by
      have hpos : 0 < block := Nat.succ_pos _
      have hmod : block % 512 = block := Nat.mod_eq_of_lt (Nat.lt_succ_of_le hblock)
      simp [Instr.skipsNext, hmod]
    exact (discard (P := fun _ _ => True) ((emit (hraw block) hskip).imp fun _ _ _ => trivial)).bind
      fun _ u1 _ _ => hrest u1
  · split
    · have hextended : Goes scope _ u fun _ _ => True :=
        (writeExtended (n := block) (hraw 0)).bind fun _ u1 _ _ => hrest u1
      rwa [bind_assoc] at hextended
    · exact failNear

end Goes

end Compile

end LuaMachine
