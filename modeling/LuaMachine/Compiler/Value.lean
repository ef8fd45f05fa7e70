/-
  BRINGING VALUES WHERE THEY ARE WANTED. An expression is brought into a register, or made an operand of the
  next instruction, as late as possible. Registers are used as a stack.
-/
import LuaMachine.Compiler.Expr
import LuaMachine.Compiler.Jump

namespace LuaMachine.Compile

/-! ## 1. Registers and constants -/

def checkStack (n : Nat) : Compile Unit := do
  let s ← get
  let size := s.fn.free + n
  if s.fn.maxStack < size then
    if maxRegisters ≤ size then failNear .tooManyRegisters
    else modifyFn fun d => { d with maxStack := size }

def reserve (n : Nat) : Compile Unit := do
  checkStack n
  modifyFn fun d => { d with free := d.free + n }

/-- Give a register back, unless a local lives there. Operands that name constants are passed
    over. -/
def freeRegister (reg : Nat) : Compile Unit := do
  if !Operand.isConstant reg && (← get).fn.active ≤ reg then
    demand .topmost fun d => d.free = reg + 1
    modifyFn fun d => { d with free := d.free - 1 }

def topRegister : Compile Nat := do
  demand .taken fun d => 0 < d.free
  return (← get).fn.free - 1

/-- Give two registers back, the greater first. -/
def freeRegisters (r₁ r₂ : Nat) : Compile Unit := do
  if r₂ < r₁ then
    freeRegister r₁
    freeRegister r₂
  else
    freeRegister r₂
    freeRegister r₁

def freeExpr (e : Expr) : Compile Unit :=
  match e.place with
  | .fixed r => freeRegister r
  | _ => return

/-- The place of a literal in the pool, where each is entered once. -/
def addConstant (c : Constant) : Compile Nat := do
  let s ← get
  match s.fn.constants.idxOf? c with
  | some k => return k
  | none =>
    let k := s.fn.constants.size
    if Instr.maxAx < k then failLimit .constants Instr.maxAx
    else
      modifyFn fun d => { d with constants := d.constants.push c }
      return k

/-! ## 2. Reading -/

/-- Ask a number of values of a call or of the variable arguments. -/
def setReturns (e : Expr) (n : Option Nat) : Compile Unit := do
  match e.place with
  | .call pc => modifyFn fun d => d.mapInstr pc fun i => i.setC (Operand.ofCount n)
  | .varargs pc =>
    modifyFn fun d =>
      let free := d.free
      d.mapInstr pc fun i => (i.setB (Operand.ofCount n)).setA free
    reserve 1
  | _ => return

/-- Ask one value of a call or of the variable arguments. -/
def setOneReturn (e : Expr) : Compile Expr := do
  match e.place with
  | .call pc => return { e with place := .fixed ((← get).fn.instr pc).a.val }
  | .varargs pc =>
    modifyFn fun d => d.mapInstr pc fun i => i.setB 2
    return { e with place := .pending pc }
  | _ => return e

/-- Make a value of a variable. -/
def readVariable (e : Expr) : Compile Expr := do
  match e.place with
  | .localVar r => return { e with place := .fixed r }
  | .upvalue i => return { e with place := .pending (← emitABC .getUpval 0 i 0) }
  | .indexed table key base =>
    freeRegister key
    match base with
    | .register =>
      freeRegister table
      return { e with place := .pending (← emitABC .getTable 0 table key) }
    | .upvalue => return { e with place := .pending (← emitABC .getTabUp 0 table key) }
  | .call _ | .varargs _ => setOneReturn e
  | _ => return e

/-- Bring a value into a register, apart from what its jumps decide. -/
def settle (e : Expr) (reg : Nat) : Compile Expr := do
  let e ← readVariable e
  match e.place with
  | .nil => loadNil reg 1
  | .bool b => discard <| emitABC .loadBool reg b.toNat 0
  | .constant k => loadConstant reg k
  | .float d => loadConstant reg (← addConstant (.float d))
  | .int i => loadConstant reg (← addConstant (.int i))
  | .pending pc => modifyFn fun d => d.mapInstr pc fun i => i.setA reg
  | .fixed r => if r ≠ reg then discard <| emitABC .move reg r 0
  | _ => return e
  return { e with place := .fixed reg }

def settleAnywhere (e : Expr) : Compile Expr := do
  match e.place with
  | .fixed _ => return e
  | _ =>
    reserve 1
    settle e (← topRegister)

def needsValue (d : Draft) (list : JumpList) : Bool := list.any fun node => !controlledByTestSet d node

/-- Load false, then true; control falls into neither. Gives their places. -/
def loadBooleans (fallsThrough : Bool) (reg : Nat) : Compile (Nat × Nat) := do
  let passing ← if fallsThrough then jump else pure []
  discard markTarget
  let f ← emitABC .loadBool reg 0 1
  discard markTarget
  let t ← emitABC .loadBool reg 1 0
  patchHere passing
  return (f, t)

/-- Bring a value into a register, whichever way it is decided. -/
def toRegister (e : Expr) (reg : Nat) : Compile Unit := do
  let e ← settle e reg
  let (onTrue, decided) ←
    match e.place with
    | .compare jumps => do pure (← joinJumps e.onTrue jumps, false)
    | _ => pure (e.onTrue, true)
  if !(onTrue.isEmpty && e.onFalse.isEmpty) then
    let s ← get
    let (f, t) ←
      if needsValue s.fn onTrue || needsValue s.fn e.onFalse then loadBooleans decided reg
      else pure (0, 0)
    let stop ← markTarget
    aimJumps stop reg f e.onFalse
    aimJumps stop reg t onTrue

/-- Bring a value into the next free register. -/
def toNextRegister (e : Expr) : Compile Nat := do
  let e ← readVariable e
  freeExpr e
  reserve 1
  let reg ← topRegister
  toRegister e reg
  return reg

/-- Bring a value into some register. -/
def toAnyRegister (e : Expr) : Compile Nat := do
  let e ← readVariable e
  match e.place with
  | .fixed r =>
    if !e.hasJumps then return r
    else if (← get).fn.active ≤ r then
      toRegister e r
      return r
    else toNextRegister e
  | _ => toNextRegister e

def toRegisterOrUpvalue (e : Expr) : Compile Expr := do
  match e.place, e.hasJumps with
  | .upvalue _, false => return e
  | _, _ => return .plain (.fixed (← toAnyRegister e))

def toValue (e : Expr) : Compile Expr := do
  if e.hasJumps then return .plain (.fixed (← toAnyRegister e)) else readVariable e

def literal? : Place → Option Constant
  | .nil => some .nil
  | .bool b => some (.bool b)
  | .int i => some (.int i)
  | .float d => some (.float d)
  | _ => none

/-- A value as an operand: a constant whose index fits, else a register. -/
def toOperand (e : Expr) : Compile Nat := do
  let e ← toValue e
  let e ←
    match literal? e.place with
    | some c => do pure { e with place := .constant (← addConstant c) }
    | none => pure e
  match e.place with
  | .constant k => if k ≤ Operand.maxConstant then return Operand.ofConstant k else toAnyRegister e
  | _ => toAnyRegister e

/-! ## 3. Variables and fields -/

/-- Store a value into a variable. -/
def storeVariable (target : Place) (e : Expr) : Compile Unit := do
  match target with
  | .localVar reg =>
    freeExpr e
    toRegister e reg
  | .upvalue i =>
    let r ← toAnyRegister e
    discard <| emitABC .setUpval r i 0
    freeRegister r
  | .indexed table key base =>
    let x ← toOperand e
    discard <| emitABC (match base with | .register => .setTable | .upvalue => .setTabUp) table key x
    freeRegister x
  | _ => freeExpr e

def indexed (table key : Expr) : Compile Expr := do
  let (t, base) : Nat × TableBase :=
    match table.place with
    | .upvalue i => (i, .upvalue)
    | p => (p.register, .register)
  return { table with place := .indexed t (← toOperand key) base }

/-- The method of an object: it and the object in the next two registers. -/
def method (object key : Expr) : Compile Expr := do
  let r ← toAnyRegister object
  freeRegister r
  let base := (← get).fn.free
  reserve 2
  let k ← toOperand key
  discard <| emitABC .self base r k
  freeRegister k
  return .plain (.fixed base)

end LuaMachine.Compile
