/-
  NO RULE ABOUT REGISTERS IS BROKEN. A judgement says of a step of the compilation that it does not end with
  such a fault, whatever else it ends with, and what the registers are after it.
-/
import LuaMachine.Compiler.Statement
import LuaMachine.Proofs.Compiler.Scope

namespace LuaMachine

/-- What a draft says about its registers. -/
@[ext] structure Registers where
  /-- First free register. -/
  free : Nat
  /-- Registers of locals that are visible. -/
  active : Nat
  maxStack : Nat
  /-- For each open block, innermost first, the locals that are visible outside it. -/
  levels : List Nat

def Draft.registers (d : Draft) : Registers := ⟨d.free, d.active, d.maxStack, d.blocks.map (·.active)⟩

def CompileFault.isBroken : CompileFault → Bool
  | broken _ => true
  | _ => false

theorem Marked.levels {level : Nat} {bs bs' : List Block} (h : Marked level bs bs') :
    bs'.map (·.active) = bs.map (·.active) := by
  induction h with
  | nil => rfl
  | cons hb _ ih => rw [List.map_cons, List.map_cons, hb.active, ih]

theorem Draft.Captured.registers {d d' : Draft} (h : d.Captured d') : d'.registers = d.registers := by
  obtain ⟨blocks, upvalues, rfl, hmarked, -⟩ := h
  simp only [Draft.registers, hmarked.levels]

namespace Compile

variable {α β : Type}

/-- From this innermost draft the step does not break a rule about registers; if it leads to an answer,
    then to an innermost draft with `Q`, and the functions around have only been captured from. -/
def Orderly (x : Compile α) (d : Draft) (Q : α → Draft → Prop) : Prop :=
  ∀ s, s.fn = d → Linked (s.fn :: s.outer) → match x s with
    | .ok (a, s') => Q a s'.fn ∧ Linked (s'.fn :: s'.outer) ∧ CapturedAll s.outer s'.outer
    | .error e => e.fault.isBroken = false

namespace Orderly

variable {x : Compile α} {f : α → Compile β} {d : Draft}

/-! ## 1. Steps one after another -/

theorem imp {Q Q' : α → Draft → Prop} (h : Orderly x d Q) (hq : ∀ a d', Q a d' → Q' a d') : Orderly x d Q' := by
  intro s hs hl
  have hx := h s hs hl
  split at hx
  · exact ⟨hq _ _ hx.1, hx.2⟩
  · exact hx

theorem andThen {P : α → Draft → Prop} {Q : β → Draft → Prop} (h : Orderly x d P)
    (hf : ∀ a d', P a d' → Orderly (f a) d' Q) : Orderly (x >>= f) d Q := by
  intro s hs hl
  have hx := h s hs hl
  show match (x s >>= fun v => f v.1 v.2) with
    | .ok (b, s') => Q b s'.fn ∧ Linked (s'.fn :: s'.outer) ∧ CapturedAll s.outer s'.outer
    | .error e => e.fault.isBroken = false
  cases hr : x s with
  | error e =>
    rw [hr] at hx
    exact hx
  | ok v =>
    rw [hr] at hx
    obtain ⟨hp, hl', hc⟩ := hx
    have hy := hf v.1 v.2.fn hp v.2 rfl hl'
    show match f v.1 v.2 with
      | .ok (b, s') => Q b s'.fn ∧ Linked (s'.fn :: s'.outer) ∧ CapturedAll s.outer s'.outer
      | .error e => e.fault.isBroken = false
    split at hy
    · exact ⟨hy.1, hy.2.1, hc.trans hy.2.2⟩
    · exact hy

theorem bind {Q : β → Draft → Prop} (h : Orderly x d fun a d' => Orderly (f a) d' Q) : Orderly (x >>= f) d Q :=
  h.andThen fun _ _ => id

theorem pure {Q : α → Draft → Prop} {a : α} (h : Q a d) : Orderly (Pure.pure a) d Q := by
  intro s hs hl
  exact ⟨by rw [hs]; exact h, hl, .refl _⟩

theorem discard {Q : Unit → Draft → Prop} (h : Orderly x d fun _ d' => Q () d') : Orderly (Functor.discard x) d Q := by
  have hbind : Functor.discard x = x >>= fun _ => Pure.pure () := by
    unfold Functor.discard
    rw [map_const, Function.comp_apply, ← bind_pure_comp]
  rw [hbind]
  exact h.andThen fun _ _ hq => pure hq

theorem dropThen {f : Unit → Compile β} {P : α → Draft → Prop} {Q : β → Draft → Prop} (h : Orderly x d P)
    (hf : ∀ a d', P a d' → Orderly (f ()) d' Q) : Orderly (Functor.discard x >>= f) d Q :=
  bind (discard (h.imp hf))

theorem get {f : Compiler → Compile β} {Q : β → Draft → Prop} (h : ∀ s, s.fn = d → Orderly (f s) d Q) :
    Orderly (MonadState.get >>= f) d Q := fun s hs hl => h s hs s hs hl

theorem ofFn {g : Draft → α} {Q : β → Draft → Prop} (h : Orderly (f (g d)) d Q) :
    Orderly (Compile.ofFn g >>= f) d Q := by
  have hg : Orderly (Compile.ofFn g) d fun a d' => a = g d ∧ d' = d :=
    get fun s hs => pure ⟨by rw [hs], rfl⟩
  refine hg.andThen ?_
  rintro _ _ ⟨rfl, rfl⟩
  exact h

theorem modifyFn {g : Draft → Draft} {Q : Unit → Draft → Prop} (hu : (g d).upvalues = d.upvalues) (h : Q () (g d)) :
    Orderly (modifyFn g) d Q := by
  intro s hs hl
  subst hs
  exact ⟨h, hl.head hu, .refl _⟩

theorem failNear {Q : α → Draft → Prop} {e : CompileFault} (he : e.isBroken = false) : Orderly (failNear e) d Q :=
  fun _ _ _ => he

theorem failPlain {Q : α → Draft → Prop} {e : CompileFault} (he : e.isBroken = false) : Orderly (failPlain e) d Q :=
  fun _ _ _ => he

theorem failLimit {Q : α → Draft → Prop} {what : Limited} {n : Nat} : Orderly (failLimit what n) d Q :=
  get fun _ _ => failNear rfl

/-- **A rule that holds is not broken.** -/
theorem demand {rule : RegisterRule} {keeps : Draft → Bool} {Q : Unit → Draft → Prop} (hk : keeps d = true) (h : Q () d) :
    Orderly (Compile.demand rule keeps) d Q := by
  refine get fun s hs => ?_
  rw [hs, hk]
  exact pure h

theorem demanding {rule : RegisterRule} {keeps : Draft → Bool} {f : Unit → Compile β} {Q : β → Draft → Prop}
    (hk : keeps d = true) (h : Orderly (f ()) d Q) : Orderly (Compile.demand rule keeps >>= f) d Q :=
  bind (demand hk h)

/-! ## 2. Steps that read tokens -/

abbrev Reads (x : Compile α) : Prop := ∀ d, Orderly x d fun _ d' => d' = d

theorem read {Q : β → Draft → Prop} (h : Reads x) (hf : ∀ a, Orderly (f a) d Q) : Orderly (x >>= f) d Q := by
  refine (h d).andThen ?_
  rintro a _ rfl
  exact hf a

theorem token : Reads token := fun _ => get fun _ _ => pure rfl

theorem line : Reads line := fun _ => get fun _ _ => pure rfl

theorem next : Reads next := by
  intro d s hs hl
  simp only [Compile.next, Bind.bind, StateT.bind, MonadState.get, getThe, MonadStateOf.get, StateT.get,
    Pure.pure, Except.pure, Except.bind]
  cases s.ahead with
  | cons x rest => exact ⟨hs, hl, .refl _⟩
  | nil =>
    cases s.fault with
    | none => exact ⟨hs, hl, .refl _⟩
    | some e => exact rfl

theorem peek : Reads peek := by
  intro d
  refine get fun s _ => ?_
  split
  · exact pure rfl
  · split
    · exact fun _ _ _ => rfl
    · exact pure rfl

theorem check {t : Token} : Reads (check t) := by
  intro d
  refine read token fun _ => ?_
  split
  · exact failNear rfl
  · exact pure rfl

theorem checkNext {t : Token} : Reads (checkNext t) := fun _ => read check fun _ => next _

theorem testNext {t : Token} : Reads (testNext t) := by
  intro d
  refine read token fun _ => ?_
  split
  · exact read next fun _ => pure rfl
  · exact pure rfl

theorem checkMatch {what opener : Token} {n : Nat} : Reads (checkMatch what opener n) := by
  intro d
  refine read testNext fun _ => ?_
  split
  · refine read line fun _ => ?_
    split <;> exact failNear rfl
  · exact pure rfl

theorem checkName : Reads checkName := by
  intro d
  refine read token fun _ => ?_
  split
  · exact read next fun _ => pure rfl
  · exact failNear rfl

theorem atBlockEnd {b : Bool} : Reads (atBlockEnd b) := fun _ => read token fun _ => pure rfl

theorem skipSemicolons (n : Nat) : Reads (Grammar.skipSemicolons n) := by
  intro d
  induction n with
  | zero => exact failNear rfl
  | succ n ih =>
    refine read testNext fun _ => ?_
    split
    · exact ih
    · exact pure rfl

end Orderly

end Compile

/-! ## 3. Steps that write code -/

theorem Draft.instr_mapInstr (d : Draft) (pc n : Nat) (f : Instr → Instr) :
    (d.mapInstr pc f).instr n = if pc = n ∧ n < d.code.size then f (d.instr n) else d.instr n := by
  unfold Draft.instr Draft.mapInstr
  rw [Array.getElem?_modify]
  by_cases hpc : pc = n
  · subst hpc
    by_cases hlt : pc < d.code.size
    · rw [if_pos rfl, if_pos ⟨rfl, hlt⟩, Array.getElem?_eq_getElem hlt]
      rfl
    · rw [if_pos rfl, if_neg fun h => hlt h.2, Array.getElem?_eq_none (Nat.le_of_not_lt hlt)]
      rfl
  · rw [if_neg hpc, if_neg fun h => hpc h.1]

theorem Draft.instr_of_code {d d' : Draft} (h : d'.code = d.code) (pc : Nat) : d'.instr pc = d.instr pc := by
  unfold Draft.instr
  rw [h]

theorem Draft.instr_lt {d : Draft} {pc : Nat} (h : (d.instr pc).opcode ≠ .extraArg) : pc < d.code.size := by
  refine Nat.lt_of_not_le fun hle => h ?_
  unfold Draft.instr
  rw [Array.getElem?_eq_none hle]
  rfl

def Draft.NoConcat (d d' : Draft) : Prop := ∀ pc, (d.instr pc).opcode ≠ .concat → (d'.instr pc).opcode ≠ .concat

namespace Compile.Orderly

variable {d : Draft}

theorem aimTest (node reg : Nat) :
    Orderly (Compile.aimTest node reg) d fun _ d' => d'.registers = d.registers ∧ d.NoConcat d' := by
  refine get fun s hs => ?_
  subst hs
  split
  · next htest =>
    refine bind (modifyFn rfl (pure ⟨rfl, fun pc hpc => ?_⟩))
    rw [Draft.instr_mapInstr]
    split
    · next hat =>
      have hop : (s.fn.instr pc).opcode = .testSet := by
        rw [← hat.1]
        exact of_decide_eq_true htest
      split
      · rw [Instr.opcode_setA, hop]
        exact Op.noConfusion
      · rw [Instr.opcode_ofABC]
        exact Op.noConfusion
    · exact hpc
  · exact pure ⟨rfl, fun _ => id⟩

theorem fixJump (pc dest : Nat) : Orderly (Compile.fixJump pc dest) d fun _ d' => d'.registers = d.registers := by
  unfold Compile.fixJump
  split
  · exact modifyFn rfl rfl
  · exact failNear rfl

theorem joinJumps (l1 l2 : JumpList) : Orderly (Compile.joinJumps l1 l2) d fun _ d' => d' = d := by
  unfold Compile.joinJumps
  split
  · exact pure rfl
  · exact pure rfl
  · split
    · exact pure rfl
    · exact failNear rfl

theorem dropValues (list : JumpList) :
    Orderly (Compile.dropValues list) d fun _ d' => d'.registers = d.registers ∧ d.NoConcat d' := by
  induction list generalizing d with
  | nil => exact pure ⟨rfl, fun _ => id⟩
  | cons node rest ih =>
    refine (aimTest node _).dropThen fun _ d1 h1 => ?_
    exact ih.imp fun _ d2 h2 => ⟨h2.1.trans h1.1, fun pc hpc => h2.2 pc (h1.2 pc hpc)⟩

theorem aimJumps (value reg plain : Nat) (list : JumpList) :
    Orderly (Compile.aimJumps value reg plain list) d fun _ d' => d'.registers = d.registers := by
  induction list generalizing d with
  | nil => exact pure rfl
  | cons node rest ih =>
    have hfix : ∀ d1 dest, d1.registers = d.registers → Orderly (do
        Compile.fixJump node dest
        Compile.aimJumps value reg plain rest) d1 fun _ d' => d'.registers = d.registers := fun d1 dest h1 =>
      (fixJump node dest).andThen fun _ d2 h2 => ih.imp fun _ d3 h3 => h3.trans (h2.trans h1)
    refine (aimTest node reg).andThen fun aims d1 h1 => ?_
    split
    · exact hfix d1 _ h1.1
    · exact hfix d1 _ h1.1

theorem aimHere : Orderly Compile.aimHere d fun _ d' => d'.registers = d.registers := by
  refine get fun s hs => bind (modifyFn rfl ?_)
  exact (aimJumps _ _ _ _).imp fun _ d' h => h

/-- **An instruction is written.** -/
theorem emit (i : Instr) : Orderly (Compile.emit i) d fun pc d' => d'.registers = d.registers ∧ d'.instr pc = i := by
  refine aimHere.andThen fun _ d1 h1 => get fun s hs => ?_
  subst hs
  refine bind (modifyFn rfl (pure ⟨h1, ?_⟩))
  show (s.fn.code.push i)[s.fn.code.size]?.getD _ = i
  rw [Array.getElem?_push_size]
  rfl

theorem emitABC (op : Op) (a b c : Nat) :
    Orderly (Compile.emitABC op a b c) d fun pc d' => d'.registers = d.registers ∧ d'.instr pc = .ofABC op a b c := emit _

theorem emitABx (op : Op) (a bx : Nat) :
    Orderly (Compile.emitABx op a bx) d fun pc d' => d'.registers = d.registers ∧ d'.instr pc = .ofABx op a bx := emit _

theorem fixLine (line : Nat) :
    Orderly (Compile.fixLine line) d fun _ d' => d'.registers = d.registers ∧ d'.code = d.code := modifyFn rfl ⟨rfl, rfl⟩

theorem loadConstant (reg k : Nat) : Orderly (Compile.loadConstant reg k) d fun _ d' => d'.registers = d.registers := by
  unfold Compile.loadConstant
  split
  · exact discard ((emitABx _ _ _).imp fun _ _ h => h.1)
  · refine (emitABx _ _ _).dropThen fun _ d1 h1 => ?_
    exact discard ((emit _).imp fun _ _ h2 => h2.1.trans h1.1)

theorem loadNil (start n : Nat) : Orderly (Compile.loadNil start n) d fun _ d' => d'.registers = d.registers := by
  refine ofFn ?_
  extract_lets
  split
  · exact modifyFn rfl rfl
  · exact discard ((emitABC _ _ _ _).imp fun _ _ h => h.1)

theorem emitReturn (first : Nat) (n : Option Nat) :
    Orderly (Compile.emitReturn first n) d fun _ d' => d'.registers = d.registers :=
  discard ((emitABC _ _ _ _).imp fun _ _ h => h.1)

theorem markTarget : Orderly Compile.markTarget d fun _ d' => d'.registers = d.registers :=
  bind (modifyFn rfl (get fun _ _ => pure rfl))

theorem jump : Orderly Compile.jump d fun _ d' => d'.registers = d.registers := by
  refine ofFn (bind (modifyFn rfl ?_))
  refine (emit _).andThen fun pc d1 h1 => ?_
  refine (joinJumps _ _).imp ?_
  rintro _ _ rfl
  exact h1.1

theorem condJump (op : Op) (a b c : Nat) : Orderly (Compile.condJump op a b c) d fun _ d' => d'.registers = d.registers :=
  (emitABC op a b c).dropThen fun _ _ h1 => jump.imp fun _ _ h2 => h2.trans h1.1

theorem patchHere (list : JumpList) : Orderly (Compile.patchHere list) d fun _ d' => d'.registers = d.registers := by
  refine markTarget.dropThen fun _ d1 h1 => ofFn ?_
  refine (joinJumps _ _).andThen ?_
  rintro joined _ rfl
  exact modifyFn rfl h1

theorem patchTo (list : JumpList) (target : Nat) :
    Orderly (Compile.patchTo list target) d fun _ d' => d'.registers = d.registers := by
  refine ofFn ?_
  split
  · exact patchHere list
  · exact aimJumps _ _ _ _

theorem closeOnJump (list : JumpList) (level : Nat) :
    Orderly (Compile.closeOnJump list level) d fun _ d' => d'.registers = d.registers := by
  have hfold : ∀ d : Draft,
      (list.foldl (fun d node => d.mapInstr node (·.setA (level + 1))) d).registers = d.registers ∧
      (list.foldl (fun d node => d.mapInstr node (·.setA (level + 1))) d).upvalues = d.upvalues := by
    induction list with
    | nil => exact fun _ => ⟨rfl, rfl⟩
    | cons node rest ih => exact fun d => ih (d.mapInstr node _)
  exact modifyFn (hfold d).2 (hfold d).1

theorem addConstant (c : Constant) :
    Orderly (Compile.addConstant c) d fun _ d' => d'.registers = d.registers ∧ d'.code = d.code := by
  refine get fun s hs => ?_
  subst hs
  dsimp only
  split
  · exact pure ⟨rfl, rfl⟩
  · split
    · exact failLimit
    · exact bind (modifyFn rfl (pure ⟨rfl, rfl⟩))

end Compile.Orderly

end LuaMachine
