/-
  CONDITIONS AND OPERATORS. A condition becomes jumps, not a value; operators on numerals are applied at
  once.
-/
import LuaMachine.Compiler.Value

namespace LuaMachine.Compile

/-! ## 1. Conditions -/

def negate (jumps : JumpList) : Compile Unit :=
  match jumps with
  | [] => return
  | node :: _ =>
    modifyFn fun d => d.mapInstr (controlOf d node) fun i => i.setA (if i.a.val = 0 then 1 else 0)

def lastNot? (d : Draft) : Place → Option Nat
  | .pending pc =>
    let i := d.instr pc
    if i.opcode = .not ∧ pc + 1 = d.pc then some i.b.val else none
  | _ => none

def pendingConcat? (d : Draft) : Place → Option Nat
  | .pending pc => if (d.instr pc).opcode = .concat then some pc else none
  | _ => none

/-- Test a value and jump when it is true (or false). A NOT just written is taken back, and its
    operand tested the other way round. -/
def jumpOn (e : Expr) (cond : Bool) : Compile JumpList := do
  let s ← get
  match lastNot? s.fn e.place with
  | some r =>
    dropLast
    condJump .test r 0 (!cond).toNat
  | none =>
    let e ← settleAnywhere e
    freeExpr e
    condJump .testSet Operand.noRegister e.place.register cond.toNat

/-- Go on when the value is true. Gives the jumps taken when it is false. -/
def goIfTrue (e : Expr) : Compile JumpList := do
  let e ← readVariable e
  let jumps ←
    match e.place with
    | .compare jumps => do
      negate jumps
      pure jumps
    | .constant _ | .float _ | .int _ | .bool true => pure []
    | _ => jumpOn e false
  let onFalse ← joinJumps e.onFalse jumps
  patchHere e.onTrue
  return onFalse

/-- Go on when the value is false. Gives the jumps taken when it is true. -/
def goIfFalse (e : Expr) : Compile JumpList := do
  let e ← readVariable e
  let jumps ←
    match e.place with
    | .compare jumps => pure jumps
    | .nil | .bool false => pure []
    | _ => jumpOn e true
  let onTrue ← joinJumps e.onTrue jumps
  patchHere e.onFalse
  return onTrue

/-- The negation of a value: its jumps change sides and bring no values any more. -/
def logicalNot (e : Expr) : Compile Expr := do
  let e ← readVariable e
  let place ←
    match e.place with
    | .nil | .bool false => pure (.bool true)
    | .constant _ | .float _ | .int _ | .bool true => pure (.bool false)
    | .compare jumps => do
      negate jumps
      pure e.place
    | .pending _ | .fixed _ => do
      let e ← settleAnywhere e
      freeExpr e
      pure (.pending (← emitABC .not 0 e.place.register 0))
    | p => pure p
  dropValues e.onTrue
  dropValues e.onFalse
  return ⟨place, e.onFalse, e.onTrue⟩

/-! ## 2. Folding -/

def isSafe (op : ArithOp) (a b : Number) : Bool :=
  if op.isBitwise then a.toInt64?.isSome && b.toInt64?.isSome
  else
    match op with
    | .div | .idiv | .mod => !b.toDouble.eqv Double.zero
    | _ => true

/-- The numeral that an operator on numerals gives. NaN and zero doubles are left to run time, for
    their signs. -/
def fold? (op : ArithOp) (e₁ e₂ : Expr) : Option Expr :=
  match e₁.numeral?, e₂.numeral? with
  | some a, some b =>
    if isSafe op a b then
      match Number.apply op a b with
      | .ok (.int i) => some (.plain (.int i))
      | .ok (.float d) => if d.isNaN || d.eqv Double.zero then none else some (.plain (.float d))
      | .error _ => none
    else none
  | _, _ => none

/-! ## 3. Operators -/

def emitUnary (op : Op) (e : Expr) (line : Nat) : Compile Expr := do
  let r ← toAnyRegister e
  freeRegister r
  let pc ← emitABC op 0 r 0
  fixLine line
  return .plain (.pending pc)

/-- Write a binary operation, on the line of its operator. The right operand is made ready first. -/
def emitBinary (op : Op) (e₁ e₂ : Expr) (line : Nat) : Compile Expr := do
  let y ← toOperand e₂
  let x ← toOperand e₁
  freeRegisters x y
  let pc ← emitABC op 0 x y
  fixLine line
  return .plain (.pending pc)

/-- Write a comparison and its jump; `>` and `>=` exchange their operands. -/
def emitCompare (op : BinOp) (e₁ e₂ : Expr) : Compile Expr := do
  let x :=
    match e₁.place with
    | .constant k => Operand.ofConstant k
    | p => p.register
  let y ← toOperand e₂
  freeRegisters x y
  let jumps ←
    match op with
    | .ne => condJump .eq 0 x y
    | .gt => condJump .lt 1 y x
    | .ge => condJump .le 1 y x
    | .eq => condJump .eq 1 x y
    | .lt => condJump .lt 1 x y
    | _ => condJump .le 1 x y
  return .plain (.compare jumps)

/-- Apply a unary operator. -/
def unary (op : UnOp) (e : Expr) (line : Nat) : Compile Expr := do
  let zero := Expr.plain (.int 0)
  match op with
  | .minus =>
    match fold? .unm e zero with
    | some r => return r
    | none => emitUnary .unm e line
  | .bnot =>
    match fold? .bnot e zero with
    | some r => return r
    | none => emitUnary .bnot e line
  | .len => emitUnary .len e line
  | .not => logicalNot e

/-- Prepare the left operand of a binary operator. Numerals stay numerals, to be folded. -/
def beforeRight (op : BinOp) (e : Expr) : Compile Expr := do
  match op with
  | .and => return ⟨.void, [], ← goIfTrue e⟩
  | .or => return ⟨.void, ← goIfFalse e, []⟩
  | .concat => return .plain (.fixed (← toNextRegister e))
  | .arith _ => if e.numeral?.isSome then return e else return .ofOperand (← toOperand e)
  | _ => return .ofOperand (← toOperand e)

/-- Apply a binary operator once both operands have been read. A concatenation takes in the one to
    its right. -/
def afterRight (op : BinOp) (e₁ e₂ : Expr) (line : Nat) : Compile Expr := do
  match op with
  | .and =>
    let e₂ ← readVariable e₂
    return { e₂ with onFalse := ← joinJumps e₂.onFalse e₁.onFalse }
  | .or =>
    let e₂ ← readVariable e₂
    return { e₂ with onTrue := ← joinJumps e₂.onTrue e₁.onTrue }
  | .concat =>
    let e₂ ← toValue e₂
    let s ← get
    match pendingConcat? s.fn e₂.place with
    | some pc =>
      let r := e₁.place.register
      demand .concat fun d => r + 1 = (d.instr pc).b.val
      freeExpr e₁
      modifyFn fun d => d.mapInstr pc fun i => i.setB r
      return .plain (.pending pc)
    | none =>
      let r ← toNextRegister e₂
      emitBinary .concat e₁ (.plain (.fixed r)) line
  | .arith a =>
    match fold? a e₁ e₂ with
    | some r => return r
    | none => emitBinary a.opcode e₁ e₂ line
  | _ => emitCompare op e₁ e₂

/-- Store the list items gathered in registers into their table, from the block of the last of
    `items` on. -/
def setList (table items : Nat) (gathered : Option Nat) : Compile Unit := do
  let block := (items - 1) / itemsPerFlush + 1
  let n := gathered.getD 0
  if block ≤ Instr.maxC then discard <| emitABC .setList table n block
  else if block ≤ Instr.maxAx then
    discard <| emitABC .setList table n 0
    discard <| emit (Instr.ofAx .extraArg block)
  else failNear .constructorTooLong
  modifyFn fun d => { d with free := table + 1 }

end LuaMachine.Compile
