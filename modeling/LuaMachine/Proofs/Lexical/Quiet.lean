/-
  WRITING CODE CHANGES NO SCOPE. The steps that write code, take registers or aim jumps read no tokens and
  leave locals, upvalues, blocks and finished functions as they are.
-/
import LuaMachine.Compiler.Statement

namespace LuaMachine

/-- The same locals, blocks, upvalues and finished functions. -/
structure Draft.Alike (d d' : Draft) : Prop where
  declared : d'.declared = d.declared
  names : d'.locals.map (·.name) = d.locals.map (·.name)
  active : d'.active = d.active
  blocks : d'.blocks = d.blocks
  upvalues : d'.upvalues = d.upvalues
  protos : d'.protos = d.protos

namespace Draft.Alike

variable {d d' d'' : Draft}

theorem refl (d : Draft) : d.Alike d := ⟨rfl, rfl, rfl, rfl, rfl, rfl⟩

theorem trans (h : d.Alike d') (h' : d'.Alike d'') : d.Alike d'' :=
  ⟨h'.declared.trans h.declared, h'.names.trans h.names, h'.active.trans h.active, h'.blocks.trans h.blocks,
    h'.upvalues.trans h.upvalues, h'.protos.trans h.protos⟩

end Draft.Alike

namespace Lexical

open Compile Grammar

variable {α β : Type}

def Quiet (x : Compile α) : Prop :=
  ∀ s a s', x s = .ok (a, s') → ∃ d, s' = { s with fn := d } ∧ s.fn.Alike d

namespace Quiet

variable {x : Compile α} {f : α → Compile β}

/-! ## 1. Steps one after another -/

theorem bind (hx : Quiet x) (hf : ∀ a, Quiet (f a)) : Quiet (x >>= f) := by
  intro s b s' h
  have h : (x s >>= fun v => f v.1 v.2) = .ok (b, s') := h
  cases hr : x s with
  | error e =>
    rw [hr] at h
    cases h
  | ok v =>
    rw [hr] at h
    obtain ⟨d, hd, hsame⟩ := hx s v.1 v.2 hr
    obtain ⟨d', hd', hsame'⟩ := hf v.1 v.2 b s' h
    rw [hd] at hd' hsame'
    exact ⟨d', hd', hsame.trans hsame'⟩

theorem pure (a : α) : Quiet (Pure.pure a) := by
  intro s b s' h
  cases h
  exact ⟨s.fn, rfl, .refl _⟩

theorem fail (h : ∀ s, ∃ e, x s = .error e) : Quiet x := by
  intro s a s' hs
  obtain ⟨e, he⟩ := h s
  cases he.symm.trans hs

theorem failNear {e : CompileFault} : Quiet (failNear e : Compile α) := fail fun _ => ⟨_, rfl⟩

theorem failPlain {e : CompileFault} : Quiet (failPlain e : Compile α) := fail fun _ => ⟨_, rfl⟩

theorem failLimit {what : Limited} {n : Nat} : Quiet (failLimit what n : Compile α) := fail fun _ => ⟨_, rfl⟩

theorem get {f : Compiler → Compile β} (h : ∀ s, Quiet (f s)) : Quiet (MonadState.get >>= f) :=
  fun s => h s s

theorem ofFn (g : Draft → α) : Quiet (Compile.ofFn g) := get fun _ => pure _

theorem modifyFn {g : Draft → Draft} (h : ∀ d : Draft, d.Alike (g d)) : Quiet (Compile.modifyFn g) := by
  intro s a s' hs
  cases hs
  exact ⟨_, rfl, h s.fn⟩

theorem modifyThen {g : Draft → Draft} {f : Unit → Compile β} (h : ∀ d : Draft, d.Alike (g d)) (hf : Quiet (f ())) :
    Quiet (Compile.modifyFn g >>= f) := (modifyFn h).bind fun _ => hf

theorem discard (hx : Quiet x) : Quiet (Functor.discard x) := by
  have hbind : Functor.discard x = x >>= fun _ => Pure.pure () := by
    unfold Functor.discard
    rw [map_const, Function.comp_apply, ← bind_pure_comp]
  rw [hbind]
  exact hx.bind fun _ => pure _

theorem demand {rule : RegisterRule} {keeps : Draft → Bool} : Quiet (Compile.demand rule keeps) := by
  refine get fun s => ?_
  split
  · exact failNear
  · exact pure _

/-! ## 2. Code and jumps -/

theorem fixJump (pc dest : Nat) : Quiet (Compile.fixJump pc dest) := by
  unfold Compile.fixJump
  split
  · exact modifyFn fun _ => ⟨rfl, rfl, rfl, rfl, rfl, rfl⟩
  · exact failNear

theorem joinJumps (l1 l2 : JumpList) : Quiet (Compile.joinJumps l1 l2) := by
  unfold Compile.joinJumps
  split
  · exact pure _
  · exact pure _
  · split
    · exact pure _
    · exact failNear

theorem aimTest (node reg : Nat) : Quiet (Compile.aimTest node reg) := by
  refine get fun s => ?_
  split
  · exact modifyThen (fun _ => ⟨rfl, rfl, rfl, rfl, rfl, rfl⟩) <| pure _
  · exact pure _

theorem dropValues (list : JumpList) : Quiet (Compile.dropValues list) := by
  induction list with
  | nil => exact pure _
  | cons node rest ih => exact (aimTest node _).discard.bind fun _ => ih

theorem aimJumps (value reg plain : Nat) (list : JumpList) : Quiet (Compile.aimJumps value reg plain list) := by
  induction list with
  | nil => exact pure _
  | cons node rest ih =>
    refine (aimTest node reg).bind fun aims => ?_
    split
    · exact (fixJump _ _).bind fun _ => ih
    · exact (fixJump _ _).bind fun _ => ih

theorem aimHere : Quiet Compile.aimHere :=
  get fun _ => modifyThen (fun _ => ⟨rfl, rfl, rfl, rfl, rfl, rfl⟩) <| aimJumps _ _ _ _

theorem emit (i : Instr) : Quiet (Compile.emit i) :=
  aimHere.bind fun _ => get fun _ => modifyThen (fun _ => ⟨rfl, rfl, rfl, rfl, rfl, rfl⟩) <| pure _

theorem emitABC (op : Op) (a b c : Nat) : Quiet (Compile.emitABC op a b c) := emit _

theorem emitABx (op : Op) (a bx : Nat) : Quiet (Compile.emitABx op a bx) := emit _

theorem emitAsBx (op : Op) (a : Nat) (sbx : Int) : Quiet (Compile.emitAsBx op a sbx) := emit _

theorem dropLast : Quiet Compile.dropLast := modifyFn fun _ => ⟨rfl, rfl, rfl, rfl, rfl, rfl⟩

theorem fixLine (line : Nat) : Quiet (Compile.fixLine line) := modifyFn fun _ => ⟨rfl, rfl, rfl, rfl, rfl, rfl⟩

theorem loadConstant (reg k : Nat) : Quiet (Compile.loadConstant reg k) := by
  unfold Compile.loadConstant
  split
  · exact (emitABx _ _ _).discard
  · exact (emitABx _ _ _).discard.bind fun _ => (emit _).discard

theorem loadNil (start n : Nat) : Quiet (Compile.loadNil start n) := by
  refine (ofFn _).bind fun d => ?_
  dsimp only
  split
  · exact modifyFn fun _ => ⟨rfl, rfl, rfl, rfl, rfl, rfl⟩
  · exact (emitABC _ _ _ _).discard

theorem emitReturn (first : Nat) (n : Option Nat) : Quiet (Compile.emitReturn first n) := (emitABC _ _ _ _).discard

theorem markTarget : Quiet Compile.markTarget :=
  modifyThen (fun _ => ⟨rfl, rfl, rfl, rfl, rfl, rfl⟩) <| ofFn _

theorem jump : Quiet Compile.jump :=
  (ofFn _).bind fun _ => modifyThen (fun _ => ⟨rfl, rfl, rfl, rfl, rfl, rfl⟩) <|
    (emitAsBx _ _ _).bind fun _ => joinJumps _ _

theorem condJump (op : Op) (a b c : Nat) : Quiet (Compile.condJump op a b c) :=
  (emitABC _ _ _ _).discard.bind fun _ => jump

theorem patchHere (list : JumpList) : Quiet (Compile.patchHere list) :=
  markTarget.discard.bind fun _ => (ofFn _).bind fun _ => (joinJumps _ _).bind fun _ =>
    modifyFn fun _ => ⟨rfl, rfl, rfl, rfl, rfl, rfl⟩

theorem patchTo (list : JumpList) (target : Nat) : Quiet (Compile.patchTo list target) := by
  refine (ofFn _).bind fun pc => ?_
  split
  · exact patchHere _
  · exact aimJumps _ _ _ _

theorem closeOnJump (list : JumpList) (level : Nat) : Quiet (Compile.closeOnJump list level) := by
  refine modifyFn fun d => ?_
  induction list generalizing d with
  | nil => exact .refl d
  | cons node rest ih =>
    have hnode : d.Alike (d.mapInstr node (·.setA (level + 1))) := ⟨rfl, rfl, rfl, rfl, rfl, rfl⟩
    exact hnode.trans (ih _)

/-! ## 3. Registers and values -/

theorem checkStack (n : Nat) : Quiet (Compile.checkStack n) := by
  refine get fun s => ?_
  dsimp only
  split
  · split
    · exact failNear
    · exact modifyFn fun _ => ⟨rfl, rfl, rfl, rfl, rfl, rfl⟩
  · exact pure _

theorem reserve (n : Nat) : Quiet (Compile.reserve n) :=
  (checkStack n).bind fun _ => modifyFn fun _ => ⟨rfl, rfl, rfl, rfl, rfl, rfl⟩

theorem freeRegister (reg : Nat) : Quiet (Compile.freeRegister reg) := by
  refine get fun s => ?_
  split
  · exact demand.bind fun _ => modifyFn fun _ => ⟨rfl, rfl, rfl, rfl, rfl, rfl⟩
  · exact pure _

theorem topRegister : Quiet Compile.topRegister := demand.bind fun _ => get fun _ => pure _

theorem freeRegisters (r1 r2 : Nat) : Quiet (Compile.freeRegisters r1 r2) := by
  unfold Compile.freeRegisters
  split
  · exact (freeRegister _).bind fun _ => freeRegister _
  · exact (freeRegister _).bind fun _ => freeRegister _

theorem freeExpr (e : Expr) : Quiet (Compile.freeExpr e) := by
  unfold Compile.freeExpr
  split
  · exact freeRegister _
  · exact pure _

theorem addConstant (c : Constant) : Quiet (Compile.addConstant c) := by
  refine get fun s => ?_
  dsimp only
  split
  · exact pure _
  · split
    · exact failLimit
    · exact modifyThen (fun _ => ⟨rfl, rfl, rfl, rfl, rfl, rfl⟩) <| pure _

theorem setReturns (e : Expr) (n : Option Nat) : Quiet (Compile.setReturns e n) := by
  unfold Compile.setReturns
  split
  · exact modifyFn fun _ => ⟨rfl, rfl, rfl, rfl, rfl, rfl⟩
  · exact modifyThen (fun _ => ⟨rfl, rfl, rfl, rfl, rfl, rfl⟩) <| reserve 1
  · exact pure _

theorem setOneReturn (e : Expr) : Quiet (Compile.setOneReturn e) := by
  unfold Compile.setOneReturn
  split
  · exact get fun _ => pure _
  · exact modifyThen (fun _ => ⟨rfl, rfl, rfl, rfl, rfl, rfl⟩) <| pure _
  · exact pure _

theorem readVariable (e : Expr) : Quiet (Compile.readVariable e) := by
  unfold Compile.readVariable
  split
  · exact pure _
  · exact (emitABC _ _ _ _).bind fun _ => pure _
  · refine (freeRegister _).bind fun _ => ?_
    split
    · exact (freeRegister _).bind fun _ => (emitABC _ _ _ _).bind fun _ => pure _
    · exact (emitABC _ _ _ _).bind fun _ => pure _
  · exact setOneReturn e
  · exact setOneReturn e
  · exact pure _

theorem settle (e : Expr) (reg : Nat) : Quiet (Compile.settle e reg) := by
  refine (readVariable e).bind fun e => ?_
  obtain ⟨p, onTrue, onFalse⟩ := e
  cases p with
  | nil => exact (loadNil _ _).bind fun _ => pure _
  | bool b => exact (emitABC _ _ _ _).discard.bind fun _ => pure _
  | constant k => exact (loadConstant _ _).bind fun _ => pure _
  | float d => exact (addConstant _).bind fun _ => (loadConstant _ _).bind fun _ => pure _
  | int i => exact (addConstant _).bind fun _ => (loadConstant _ _).bind fun _ => pure _
  | pending pc => exact modifyThen (fun _ => ⟨rfl, rfl, rfl, rfl, rfl, rfl⟩) <| pure _
  | fixed r =>
    dsimp only
    split
    · exact (emitABC _ _ _ _).discard.bind fun _ => pure _
    · exact pure _
  | _ => exact pure _

theorem settleAnywhere (e : Expr) : Quiet (Compile.settleAnywhere e) := by
  unfold Compile.settleAnywhere
  split
  · exact pure _
  · exact (reserve 1).bind fun _ => topRegister.bind fun _ => settle _ _

theorem loadBooleans (falls : Bool) (reg : Nat) : Quiet (Compile.loadBooleans falls reg) := by
  have hload : ∀ passing, Quiet (do
      Functor.discard Compile.markTarget
      let f ← Compile.emitABC .loadBool reg 0 1
      Functor.discard Compile.markTarget
      let t ← Compile.emitABC .loadBool reg 1 0
      Compile.patchHere passing
      return (f, t)) := fun passing =>
    markTarget.discard.bind fun _ => (emitABC _ _ _ _).bind fun _ => markTarget.discard.bind fun _ =>
      (emitABC _ _ _ _).bind fun _ => (patchHere _).bind fun _ => pure _
  unfold Compile.loadBooleans
  split
  · exact jump.bind hload
  · exact (pure _).bind hload

theorem aimLists (e : Expr) (td : JumpList × Bool) (reg : Nat) :
    Quiet (if !(td.1.isEmpty && e.onFalse.isEmpty) then do
      let s ← MonadState.get
      let (f, t) ←
        if needsValue s.fn td.1 || needsValue s.fn e.onFalse then Compile.loadBooleans td.2 reg
        else Pure.pure (0, 0)
      let stop ← Compile.markTarget
      Compile.aimJumps stop reg f e.onFalse
      Compile.aimJumps stop reg t td.1
    else Pure.pure () : Compile Unit) := by
  have haim : ∀ onTrue onFalse, ∀ ft : Nat × Nat, Quiet (do
      let stop ← Compile.markTarget
      Compile.aimJumps stop reg ft.1 onFalse
      Compile.aimJumps stop reg ft.2 onTrue) := fun _ _ _ =>
    markTarget.bind fun _ => (aimJumps _ _ _ _).bind fun _ => aimJumps _ _ _ _
  split
  · refine get fun s => ?_
    dsimp only
    split
    · exact (loadBooleans _ _).bind fun _ => haim _ _ _
    · exact (pure _).bind fun _ => haim _ _ _
  · exact pure _

theorem toRegister (e : Expr) (reg : Nat) : Quiet (Compile.toRegister e reg) := by
  refine (settle e reg).bind fun e => ?_
  dsimp only
  split
  · exact (joinJumps _ _).bind fun _ => (pure _).bind fun td => aimLists e td reg
  · exact (pure _).bind fun td => aimLists e td reg

theorem toNextRegister (e : Expr) : Quiet (Compile.toNextRegister e) :=
  (readVariable e).bind fun _ => (freeExpr _).bind fun _ => (reserve 1).bind fun _ => topRegister.bind fun _ =>
    (toRegister _ _).bind fun _ => pure _

theorem toAnyRegister (e : Expr) : Quiet (Compile.toAnyRegister e) := by
  refine (readVariable e).bind fun e => ?_
  split
  · split
    · exact pure _
    · refine get fun s => ?_
      split
      · exact (toRegister _ _).bind fun _ => pure _
      · exact toNextRegister _
  · exact toNextRegister _

theorem toRegisterOrUpvalue (e : Expr) : Quiet (Compile.toRegisterOrUpvalue e) := by
  unfold Compile.toRegisterOrUpvalue
  split
  · exact pure _
  · exact (toAnyRegister e).bind fun _ => pure _

theorem toValue (e : Expr) : Quiet (Compile.toValue e) := by
  unfold Compile.toValue
  split
  · exact (toAnyRegister e).bind fun _ => pure _
  · exact readVariable e

theorem constantOperand (e : Expr) : Quiet (match e.place with
    | .constant k => if k ≤ Operand.maxConstant then Pure.pure (Operand.ofConstant k) else Compile.toAnyRegister e
    | _ => Compile.toAnyRegister e : Compile Nat) := by
  split
  · split
    · exact pure _
    · exact toAnyRegister e
  · exact toAnyRegister e

theorem toOperand (e : Expr) : Quiet (Compile.toOperand e) := by
  refine (toValue e).bind fun e => ?_
  dsimp only
  split
  · exact (addConstant _).bind fun _ => (pure _).bind fun e => constantOperand e
  · exact (pure _).bind fun e => constantOperand e

theorem storeVariable (target : Place) (e : Expr) : Quiet (Compile.storeVariable target e) := by
  unfold Compile.storeVariable
  split
  · exact (freeExpr _).bind fun _ => toRegister _ _
  · exact (toAnyRegister _).bind fun _ => (emitABC _ _ _ _).discard.bind fun _ => freeRegister _
  · exact (toOperand _).bind fun _ => (emitABC _ _ _ _).discard.bind fun _ => freeRegister _
  · exact freeExpr _

theorem indexed (table key : Expr) : Quiet (Compile.indexed table key) := (toOperand _).bind fun _ => pure _

theorem method (object key : Expr) : Quiet (Compile.method object key) :=
  (toAnyRegister _).bind fun _ => (freeRegister _).bind fun _ => get fun _ => (reserve 2).bind fun _ =>
    (toOperand _).bind fun _ => (emitABC _ _ _ _).discard.bind fun _ => (freeRegister _).bind fun _ => pure _

/-! ## 4. Conditions and operators -/

theorem negate (jumps : JumpList) : Quiet (Compile.negate jumps) := by
  unfold Compile.negate
  split
  · exact pure _
  · exact modifyFn fun _ => ⟨rfl, rfl, rfl, rfl, rfl, rfl⟩

theorem jumpOn (e : Expr) (cond : Bool) : Quiet (Compile.jumpOn e cond) := by
  refine get fun s => ?_
  split
  · exact dropLast.bind fun _ => condJump _ _ _ _
  · exact (settleAnywhere e).bind fun _ => (freeExpr _).bind fun _ => condJump _ _ _ _

theorem goIfTrue (e : Expr) : Quiet (Compile.goIfTrue e) := by
  have hjoin : ∀ (e : Expr) jumps, Quiet (do
      let onFalse ← Compile.joinJumps e.onFalse jumps
      Compile.patchHere e.onTrue
      return onFalse) := fun _ _ => (joinJumps _ _).bind fun _ => (patchHere _).bind fun _ => pure _
  refine (readVariable e).bind fun e => ?_
  obtain ⟨p, onTrue, onFalse⟩ := e
  cases p with
  | compare jumps => exact (negate _).bind fun _ => (pure _).bind fun _ => hjoin ⟨_, onTrue, onFalse⟩ _
  | bool b =>
    cases b with
    | true => exact (pure _).bind fun _ => hjoin ⟨_, onTrue, onFalse⟩ _
    | false => exact (jumpOn _ _).bind fun _ => hjoin ⟨_, onTrue, onFalse⟩ _
  | constant _ | float _ | int _ => exact (pure _).bind fun _ => hjoin ⟨_, onTrue, onFalse⟩ _
  | _ => exact (jumpOn _ _).bind fun _ => hjoin ⟨_, onTrue, onFalse⟩ _

theorem goIfFalse (e : Expr) : Quiet (Compile.goIfFalse e) := by
  have hjoin : ∀ (e : Expr) jumps, Quiet (do
      let onTrue ← Compile.joinJumps e.onTrue jumps
      Compile.patchHere e.onFalse
      return onTrue) := fun _ _ => (joinJumps _ _).bind fun _ => (patchHere _).bind fun _ => pure _
  refine (readVariable e).bind fun e => ?_
  obtain ⟨p, onTrue, onFalse⟩ := e
  cases p with
  | bool b =>
    cases b with
    | true => exact (jumpOn _ _).bind fun _ => hjoin ⟨_, onTrue, onFalse⟩ _
    | false => exact (pure _).bind fun _ => hjoin ⟨_, onTrue, onFalse⟩ _
  | compare _ | nil => exact (pure _).bind fun _ => hjoin ⟨_, onTrue, onFalse⟩ _
  | _ => exact (jumpOn _ _).bind fun _ => hjoin ⟨_, onTrue, onFalse⟩ _

theorem logicalNot (e : Expr) : Quiet (Compile.logicalNot e) := by
  have hdrop : ∀ (e : Expr) (place : Place), Quiet (do
      Compile.dropValues e.onTrue
      Compile.dropValues e.onFalse
      return (⟨place, e.onFalse, e.onTrue⟩ : Expr)) := fun _ _ =>
    (dropValues _).bind fun _ => (dropValues _).bind fun _ => pure _
  have hregister : ∀ e : Expr, Quiet (do
      let e' ← Compile.settleAnywhere e
      Compile.freeExpr e'
      let pc ← Compile.emitABC .not 0 e'.place.register 0
      let place ← (Pure.pure (.pending pc) : Compile Place)
      Compile.dropValues e.onTrue
      Compile.dropValues e.onFalse
      return (⟨place, e.onFalse, e.onTrue⟩ : Expr)) := fun e =>
    (settleAnywhere _).bind fun _ => (freeExpr _).bind fun _ => (emitABC _ _ _ _).bind fun _ =>
      (pure _).bind fun _ => hdrop e _
  refine (readVariable e).bind fun e => ?_
  obtain ⟨p, onTrue, onFalse⟩ := e
  cases p with
  | pending _ | fixed _ => exact hregister ⟨_, onTrue, onFalse⟩
  | compare jumps => exact (negate _).bind fun _ => (pure _).bind fun _ => hdrop ⟨_, onTrue, onFalse⟩ _
  | bool b => cases b <;> exact (pure _).bind fun _ => hdrop ⟨_, onTrue, onFalse⟩ _
  | _ => exact (pure _).bind fun _ => hdrop ⟨_, onTrue, onFalse⟩ _

theorem emitUnary (op : Op) (e : Expr) (line : Nat) : Quiet (Compile.emitUnary op e line) :=
  (toAnyRegister _).bind fun _ => (freeRegister _).bind fun _ => (emitABC _ _ _ _).bind fun _ =>
    (fixLine _).bind fun _ => pure _

theorem emitBinary (op : Op) (e1 e2 : Expr) (line : Nat) : Quiet (Compile.emitBinary op e1 e2 line) :=
  (toOperand _).bind fun _ => (toOperand _).bind fun _ => (freeRegisters _ _).bind fun _ => (emitABC _ _ _ _).bind fun _ =>
    (fixLine _).bind fun _ => pure _

theorem emitCompare (op : BinOp) (e1 e2 : Expr) : Quiet (Compile.emitCompare op e1 e2) := by
  refine (toOperand _).bind fun y => (freeRegisters _ _).bind fun _ => ?_
  cases op <;> exact (condJump _ _ _ _).bind fun _ => pure _

theorem foldUnary (a : ArithOp) (o : Op) (e : Expr) (line : Nat) :
    Quiet (match Compile.fold? a e (.plain (.int 0)) with
      | some r => Pure.pure r
      | none => Compile.emitUnary o e line : Compile Expr) := by
  split
  · exact pure _
  · exact emitUnary _ _ _

theorem unary (op : UnOp) (e : Expr) (line : Nat) : Quiet (Compile.unary op e line) := by
  cases op with
  | minus => exact foldUnary .unm .unm e line
  | bnot => exact foldUnary .bnot .bnot e line
  | len => exact emitUnary _ _ _
  | not => exact logicalNot _

theorem beforeRight (op : BinOp) (e : Expr) : Quiet (Compile.beforeRight op e) := by
  cases op with
  | and => exact (goIfTrue _).bind fun _ => pure _
  | or => exact (goIfFalse _).bind fun _ => pure _
  | concat => exact (toNextRegister _).bind fun _ => pure _
  | arith a =>
    unfold Compile.beforeRight
    dsimp only
    split
    · exact pure _
    · exact (toOperand _).bind fun _ => pure _
  | _ => exact (toOperand _).bind fun _ => pure _

theorem afterRight (op : BinOp) (e1 e2 : Expr) (line : Nat) : Quiet (Compile.afterRight op e1 e2 line) := by
  cases op with
  | and => exact (readVariable _).bind fun _ => (joinJumps _ _).bind fun _ => pure _
  | or => exact (readVariable _).bind fun _ => (joinJumps _ _).bind fun _ => pure _
  | concat =>
    refine (toValue _).bind fun e2 => get fun s => ?_
    dsimp only
    split
    · exact demand.bind fun _ => (freeExpr _).bind fun _ =>
        modifyThen (fun _ => ⟨rfl, rfl, rfl, rfl, rfl, rfl⟩) <| pure _
    · exact (toNextRegister _).bind fun _ => emitBinary _ _ _ _
  | arith a =>
    unfold Compile.afterRight
    dsimp only
    split
    · exact pure _
    · exact emitBinary _ _ _ _
  | _ =>
    unfold Compile.afterRight
    exact emitCompare _ _ _

theorem setList (table items : Nat) (gathered : Option Nat) : Quiet (Compile.setList table items gathered) := by
  have hfree : Quiet (Compile.modifyFn fun d => { d with free := table + 1 }) :=
    modifyFn fun _ => ⟨rfl, rfl, rfl, rfl, rfl, rfl⟩
  unfold Compile.setList
  dsimp only
  split
  · exact (emitABC _ _ _ _).discard.bind fun _ => hfree
  · split
    · exact (emitABC _ _ _ _).discard.bind fun _ => (emit _).discard.bind fun _ => hfree
    · exact failNear.bind fun _ => hfree

/-! ## 5. Gotos -/

theorem closeGoto (g : PendingGoto) (label : Label) : Quiet (Compile.closeGoto g label) := by
  unfold Compile.closeGoto
  split
  · exact get fun _ => failPlain
  · exact patchTo _ _

theorem closeMatching (label : Label) (gs : List PendingGoto) : Quiet (Compile.closeMatching label gs) := by
  induction gs with
  | nil => exact pure _
  | cons g rest ih =>
    unfold Compile.closeMatching
    split
    · exact (closeGoto _ _).bind fun _ => ih
    · exact ih.bind fun _ => pure _

theorem closeGotos (label : Label) : Quiet (Compile.closeGotos label) :=
  get fun _ => (closeMatching _ _).bind fun _ => modifyFn fun _ => ⟨rfl, rfl, rfl, rfl, rfl, rfl⟩

theorem gotoLabel (g : PendingGoto) : Quiet (Compile.gotoLabel g) := by
  refine get fun s => ?_
  split
  · exact pure _
  · dsimp only
    split
    · exact (closeOnJump _ _).bind fun _ => (closeGoto _ _).bind fun _ => pure _
    · exact (closeGoto _ _).bind fun _ => pure _

theorem moveOut (b : Block) (gs : List PendingGoto) : Quiet (Compile.moveOut b gs) := by
  induction gs with
  | nil => exact pure _
  | cons g rest ih =>
    have hmove : Quiet (do
        if ← Compile.gotoLabel { g with active := min g.active b.active } then Compile.moveOut b rest
        else return { g with active := min g.active b.active } :: (← Compile.moveOut b rest)) := by
      refine (gotoLabel _).bind fun found => ?_
      split
      · exact ih
      · exact ih.bind fun _ => pure _
    unfold Compile.moveOut
    split
    · exact (closeOnJump _ _).bind fun _ => hmove
    · exact hmove

theorem breakLabel : Quiet Compile.breakLabel :=
  markTarget.bind fun _ => get fun _ => modifyThen (fun _ => ⟨rfl, rfl, rfl, rfl, rfl, rfl⟩) <| closeGotos _

theorem innermostBlock : Quiet Compile.innermostBlock := by
  refine get fun s => ?_
  split
  · exact pure _
  · exact pure _

end Quiet

end Lexical

end LuaMachine
