/-
  READING EXPRESSIONS by recursive descent. Each construct is written for given ways to read the constructs
  nested in it, so that the nesting limit is the recursion's measure.
-/
import LuaMachine.Compiler.Operator
import LuaMachine.Compiler.Scope

namespace LuaMachine

/-- How what is nested is read. -/
structure Grammar where
  /-- Levels that may still be entered. -/
  left : Nat
  /-- A bound on the length of every list in the source. -/
  bound : Nat
  /-- Read a statement one level deeper. -/
  statement : Compile Unit
  /-- Read an expression one level deeper, of operators that bind more tightly than a priority;
      the operator after it is given back. -/
  subexpr : Nat → Compile (Expr × Option BinOp)
  /-- The expression of a name. -/
  name : Bytes → Compile Expr

namespace Grammar

open Compile

def expr (g : Grammar) : Compile Expr := do return (← g.subexpr 0).1

/-! ## 1. Lists -/

/-- Read statements up to the end of a block; `return` is the last one. -/
def statementsFrom (g : Grammar) : Nat → Compile Unit
  | 0 => failNear .endless
  | n + 1 => do
    if ← atBlockEnd true then return
    else
      let last := (← token) = .keyword .return
      g.statement
      if last then return else statementsFrom g n

def statements (g : Grammar) : Compile Unit := g.statementsFrom g.bound

/-- Read the rest of a list of expressions; all but the last value go to registers. -/
def exprsFrom (g : Grammar) : Nat → Nat → Expr → Compile (Nat × Expr)
  | 0, _, _ => failNear .endless
  | n + 1, count, e => do
    if ← testNext (.symbol .comma) then
      discard <| toNextRegister e
      exprsFrom g n (count + 1) (← g.expr)
    else return (count, e)

def exprs (g : Grammar) : Compile (Nat × Expr) := do g.exprsFrom g.bound 1 (← g.expr)

/-! ## 2. Fields and constructors -/

def nameConstant : Compile Expr := do
  let name ← checkName
  return .plain (.constant (← addConstant (.str name)))

def field (e : Expr) : Compile Expr := do
  let table ← toRegisterOrUpvalue e
  next
  indexed table (← nameConstant)

def bracketKey (g : Grammar) : Compile Expr := do
  next
  let e ← g.expr
  let e ← toValue e
  checkNext (.symbol .rbracket)
  return e

/-- A table constructor being read. -/
structure Items where
  /-- The last list item, if it has not been brought into a register. -/
  last : Expr
  /-- Register of the table. -/
  table : Nat
  /-- Keyed items. -/
  keyed : Nat
  /-- List items. -/
  listed : Nat
  /-- List items that have not been stored. -/
  gathered : Nat

/-- Read a keyed item and store it. -/
def keyedItem (g : Grammar) (x : Items) : Compile Items := do
  let free := (← get).fn.free
  let key ←
    match ← token with
    | .name _ => nameConstant
    | _ => g.bracketKey
  checkNext (.symbol .assign)
  let k ← toOperand key
  let v ← toOperand (← g.expr)
  discard <| emitABC .setTable x.table k v
  modifyFn fun d => { d with free := free }
  return { x with keyed := x.keyed + 1 }

def listItem (g : Grammar) (x : Items) : Compile Items := do
  let e ← g.expr
  return { x with last := e, listed := x.listed + 1, gathered := x.gathered + 1 }

/-- Bring the last list item into a register; a full set of items is stored. -/
def flushItem (x : Items) : Compile Items := do
  if x.last.place = .void then return x
  else
    discard <| toNextRegister x.last
    let x := { x with last := .plain .void }
    if x.gathered = itemsPerFlush then
      setList x.table x.listed (some x.gathered)
      return { x with gathered := 0 }
    else return x

/-- Store the list items that are left; the last may stand for any number of values, and is then
    not counted. -/
def flushLast (x : Items) : Compile Items := do
  if x.gathered = 0 then return x
  else if x.last.place.isMulti then
    setReturns x.last none
    setList x.table x.listed none
    return { x with listed := x.listed - 1 }
  else
    if x.last.place ≠ .void then discard <| toNextRegister x.last
    setList x.table x.listed (some x.gathered)
    return x

def item (g : Grammar) (x : Items) : Compile Items := do
  match ← token with
  | .name _ => if (← peek) = .symbol .assign then g.keyedItem x else g.listItem x
  | .symbol .lbracket => g.keyedItem x
  | _ => g.listItem x

/-- Read the items of a constructor. -/
def itemsFrom (g : Grammar) : Nat → Items → Compile Items
  | 0, _ => failNear .endless
  | n + 1, x => do
    if (← token) = .symbol .rbrace then return x
    else
      let x ← flushItem x
      let x ← g.item x
      if ← testNext (.symbol .comma) then itemsFrom g n x
      else if ← testNext (.symbol .semi) then itemsFrom g n x
      else return x

/-- Read a table constructor; the sizes are noted in the instruction that makes the table. -/
def constructor' (g : Grammar) : Compile Expr := do
  let line ← line
  let pc ← emitABC .newTable 0 0 0
  let table ← toNextRegister (.plain (.pending pc))
  checkNext (.symbol .lbrace)
  let x ← g.itemsFrom g.bound ⟨.plain .void, table, 0, 0, 0⟩
  checkMatch (.symbol .rbrace) (.symbol .lbrace) line
  let x ← flushLast x
  modifyFn fun d =>
    d.mapInstr pc fun i => (i.setB (SizeByte.ofNat x.listed)).setC (SizeByte.ofNat x.keyed)
  return .plain (.fixed table)

/-! ## 3. Functions -/

/-- Read parameters; gives their number. -/
def parametersFrom : Nat → Nat → Compile Nat
  | 0, _ => failNear .endless
  | n + 1, count => do
    match ← token with
    | .name _ =>
      declare (← checkName)
      if ← testNext (.symbol .comma) then parametersFrom n (count + 1) else return count + 1
    | .symbol .dots =>
      next
      modifyFn fun d => { d with isVararg := true }
      return count
    | _ => failNear .parameterExpected

def parameters (g : Grammar) : Compile Unit := do
  let count ← if (← token) = .symbol .rparen then pure 0 else parametersFrom g.bound 0
  activate count
  modifyFn fun d => { d with params := d.active }
  reserve (← get).fn.active

def openFunction (line : Nat) : Compile Unit := do
  modify fun s => { s with fn := Draft.new line, outer := s.fn :: s.outer }
  enterBlock false

def closeBody : Compile Unit := do
  emitReturn 0 (some 0)
  leaveBlock

/-- End the innermost function; the one around it makes a closure of it. -/
def closeFunction : Compile Nat := do
  closeBody
  let s ← get
  match s.outer with
  | [] => failNear .endless
  | parent :: outer =>
    let proto := s.fn.finish s.source
    set { s with fn := parent, outer := outer }
    let i := parent.protos.size
    if Instr.maxBx ≤ i then failLimit .functions Instr.maxBx
    else
      modifyFn fun d => { d with protos := d.protos.push proto }
      let pc ← emitABx .closure 0 i
      toNextRegister (.plain (.pending pc))

/-- Read a function from its parameters on; its closure goes to the next register. A method has a
    first parameter `self`. -/
def functionBody (g : Grammar) (isMethod : Bool) (line : Nat) : Compile Nat := do
  openFunction line
  checkNext (.symbol .lparen)
  if isMethod then
    declare (Bytes.ofString "self")
    activate 1
  g.parameters
  checkNext (.symbol .rparen)
  g.statements
  let last ← Compile.line
  modifyFn fun d => { d with lastLine := last }
  checkMatch (.keyword .end) (.keyword .function) line
  closeFunction

/-! ## 4. Calls -/

/-- Read the arguments of a call: the last one, or none. -/
def arguments (g : Grammar) (line : Nat) : Compile Expr := do
  match ← token with
  | .symbol .lparen =>
    next
    let args ←
      if (← token) = .symbol .rparen then pure (.plain .void)
      else do
        let (_, e) ← g.exprs
        setReturns e none
        pure e
    checkMatch (.symbol .rparen) (.symbol .lparen) line
    return args
  | .symbol .lbrace => g.constructor'
  | .str s =>
    let k ← addConstant (.str s)
    next
    return .plain (.constant k)
  | _ => failNear .argumentsExpected

/-- Read the arguments of the function in register `base` and call it. One register is left, for the
    first result. -/
def call (g : Grammar) (base line : Nat) : Compile Expr := do
  let args ← g.arguments line
  let count ←
    if args.place.isMulti then pure none
    else do
      if args.place ≠ .void then discard <| toNextRegister args
      demand .arguments fun d => base + 1 ≤ d.free
      pure (some ((← get).fn.free - (base + 1)))
  let pc ← emitABC .call base (Operand.ofCount count) 2
  fixLine line
  modifyFn fun d => { d with free := base + 1 }
  return .plain (.call pc)

/-! ## 5. Expressions -/

/-- Read a name or an expression in parentheses. -/
def primary (g : Grammar) : Compile Expr := do
  match ← token with
  | .name _ => g.name (← checkName)
  | .symbol .lparen =>
    let line ← line
    next
    let e ← g.expr
    checkMatch (.symbol .rparen) (.symbol .lparen) line
    readVariable e
  | _ => failNear .unexpectedSymbol

/-- Read what follows a primary expression: fields, keys, methods and calls. -/
def suffixesFrom (g : Grammar) (line : Nat) : Nat → Expr → Compile Expr
  | 0, _ => failNear .endless
  | n + 1, e => do
    match ← token with
    | .symbol .dot => suffixesFrom g line n (← field e)
    | .symbol .lbracket =>
      let table ← toRegisterOrUpvalue e
      let key ← g.bracketKey
      suffixesFrom g line n (← indexed table key)
    | .symbol .colon =>
      next
      let key ← nameConstant
      let f ← method e key
      suffixesFrom g line n (← g.call f.place.register line)
    | .symbol .lparen | .str _ | .symbol .lbrace =>
      let base ← toNextRegister e
      suffixesFrom g line n (← g.call base line)
    | _ => return e

def suffixed (g : Grammar) : Compile Expr := do
  let line ← line
  g.suffixesFrom line g.bound (← g.primary)

/-- Read an operand. -/
def simple (g : Grammar) : Compile Expr := do
  match ← token with
  | .float d => literal (.float d)
  | .int i => literal (.int i)
  | .str s =>
    let k ← addConstant (.str s)
    literal (.constant k)
  | .keyword .nil => literal .nil
  | .keyword .true => literal (.bool true)
  | .keyword .false => literal (.bool false)
  | .symbol .dots =>
    if (← get).fn.isVararg then
      let pc ← emitABC .vararg 0 1 0
      literal (.varargs pc)
    else failNear .dotsOutsideVararg
  | .symbol .lbrace => g.constructor'
  | .keyword .function =>
    next
    let line ← line
    return .plain (.fixed (← g.functionBody false line))
  | _ => g.suffixed
where
  literal (p : Place) : Compile Expr := do
    next
    return .plain p

/-- Go on reading operators that bind more tightly than `limit`. -/
def operatorsFrom (g : Grammar) (limit : Nat) :
    Nat → Expr → Option BinOp → Compile (Expr × Option BinOp)
  | 0, _, _ => failNear .endless
  | _ + 1, e, none => return (e, none)
  | n + 1, e, some op => do
    if op.priority.1 ≤ limit then return (e, some op)
    else
      let line ← line
      next
      let e₁ ← beforeRight op e
      let (e₂, following) ← g.subexpr op.priority.2
      let e ← afterRight op e₁ e₂ line
      operatorsFrom g limit n e following

/-- Read an expression of operators that bind more tightly than `limit`; give it and the operator
    after it. -/
def expressionBody (g : Grammar) (limit : Nat) : Compile (Expr × Option BinOp) := do
  let e ←
    match UnOp.ofToken? (← token) with
    | some op => do
      let line ← line
      next
      let (e, _) ← g.subexpr UnOp.priority
      unary op e line
    | none => g.simple
  g.operatorsFrom limit g.bound e (BinOp.ofToken? (← token))

end Grammar

end LuaMachine
