/-
  READING STATEMENTS, and the whole grammar tied together.
-/
import LuaMachine.Compiler.Expression
import LuaMachine.Text.ChunkName

namespace LuaMachine

namespace Grammar

open Compile

def block (g : Grammar) : Compile Unit := do
  enterBlock false
  g.statements
  leaveBlock

/-! ## 1. Conditionals and loops -/

def condition (g : Grammar) : Compile JumpList := do
  let e ← g.expr
  goIfTrue (if e.place = .nil then { e with place := .bool false } else e)

def skipSemicolons : Nat → Compile Unit
  | 0 => failNear .endless
  | n + 1 => do if ← testNext (.symbol .semi) then skipSemicolons n

/-- Read the statements of a branch and leave its block. Jumps that pass the branch arrive after it;
    if another branch follows, control leaves the statement, with the jumps in `leaving`. -/
def branchEnd (g : Grammar) (leaving passing : JumpList) : Compile JumpList := do
  g.statements
  leaveBlock
  let leaving ←
    match ← token with
    | .keyword .else | .keyword .elseif => do joinJumps leaving (← jump)
    | _ => pure leaving
  patchHere passing
  return leaving

/-- Read `if condition then` or `elseif condition then` with its statements. A branch that begins
    with a goto jumps right on its condition. -/
def branch (g : Grammar) (leaving : JumpList) : Compile JumpList := do
  next
  let e ← g.expr
  checkNext (.keyword .then)
  match ← token with
  | .keyword .goto | .keyword .break =>
    let jumps ← goIfFalse e
    enterBlock false
    gotoStatement jumps
    skipSemicolons g.bound
    if ← atBlockEnd false then
      leaveBlock
      return leaving
    else
      let passing ← jump
      g.branchEnd leaving passing
  | _ =>
    let passing ← goIfTrue e
    enterBlock false
    g.branchEnd leaving passing

def branchesFrom (g : Grammar) : Nat → JumpList → Compile JumpList
  | 0, _ => failNear .endless
  | n + 1, leaving => do
    if (← token) = .keyword .elseif then branchesFrom g n (← g.branch leaving) else return leaving

def ifStatement (g : Grammar) (line : Nat) : Compile Unit := do
  let leaving ← g.branch []
  let leaving ← g.branchesFrom g.bound leaving
  if ← testNext (.keyword .else) then g.block
  checkMatch (.keyword .end) (.keyword .if) line
  patchHere leaving

def whileStatement (g : Grammar) (line : Nat) : Compile Unit := do
  next
  let start ← markTarget
  let leaving ← g.condition
  enterBlock true
  checkNext (.keyword .do)
  g.block
  patchTo (← jump) start
  checkMatch (.keyword .end) (.keyword .while) line
  leaveBlock
  patchHere leaving

/-- Read a `repeat` loop: its condition sees the locals of its body. -/
def repeatStatement (g : Grammar) (line : Nat) : Compile Unit := do
  let start ← markTarget
  enterBlock true
  enterBlock false
  next
  g.statements
  checkMatch (.keyword .until) (.keyword .repeat) line
  let again ← g.condition
  let (captured, active) ← innermostBlock
  if captured then closeOnJump again active
  leaveBlock
  patchTo again start
  leaveBlock

/-- Read the body of a `for` loop whose three hidden locals are in registers from `base` on. -/
def forBody (g : Grammar) (base line vars : Nat) (numeric : Bool) : Compile Unit := do
  activate 3
  checkNext (.keyword .do)
  let entry ← if numeric then do pure [← emitAsBx .forPrep base (-1)] else jump
  enterBlock false
  activate vars
  reserve vars
  g.block
  leaveBlock
  patchHere entry
  let back ←
    if numeric then emitAsBx .forLoop base (-1)
    else do
      discard <| emitABC .tforCall base 0 vars
      fixLine line
      emitAsBx .tforLoop (base + 2) (-1)
  patchTo [back] (entry.headD 0 + 1)
  fixLine line

def exprToRegister (g : Grammar) : Compile Unit := do discard <| toNextRegister (← g.expr)

def forNumeric (g : Grammar) (name : Bytes) (line : Nat) : Compile Unit := do
  let base := (← get).fn.free
  declare (Bytes.ofString "(for index)")
  declare (Bytes.ofString "(for limit)")
  declare (Bytes.ofString "(for step)")
  declare name
  checkNext (.symbol .assign)
  g.exprToRegister
  checkNext (.symbol .comma)
  g.exprToRegister
  if ← testNext (.symbol .comma) then g.exprToRegister
  else
    let reg := (← get).fn.free
    loadConstant reg (← addConstant (.int 1))
    reserve 1
  g.forBody base line 1 true

/-- Declare the names of a list after its first; gives how many there are. -/
def namesFrom : Nat → Nat → Compile Nat
  | 0, _ => failNear .endless
  | n + 1, count => do
    if ← testNext (.symbol .comma) then
      declare (← checkName)
      namesFrom n (count + 1)
    else return count

/-- Make `exprs` values, the last of them `e`, fill the registers of `vars` variables. -/
def adjust (vars exprs : Nat) (e : Expr) : Compile Unit := do
  if e.place.isMulti then
    let wanted := vars + 1 - exprs
    setReturns e (some wanted)
    if 1 < wanted then reserve (wanted - 1)
  else
    if e.place ≠ .void then discard <| toNextRegister e
    if exprs < vars then
      let reg := (← get).fn.free
      reserve (vars - exprs)
      loadNil reg (vars - exprs)
  if vars < exprs then
    demand .surplus fun d => exprs - vars ≤ d.free
    modifyFn fun d => { d with free := d.free - (exprs - vars) }

def forGeneric (g : Grammar) (name : Bytes) : Compile Unit := do
  let base := (← get).fn.free
  declare (Bytes.ofString "(for generator)")
  declare (Bytes.ofString "(for state)")
  declare (Bytes.ofString "(for control)")
  declare name
  let vars ← namesFrom g.bound 1
  checkNext (.keyword .in)
  let line ← line
  let (count, e) ← g.exprs
  adjust 3 count e
  checkStack 3
  g.forBody base line vars false

def forStatement (g : Grammar) (line : Nat) : Compile Unit := do
  enterBlock true
  next
  let name ← checkName
  match ← token with
  | .symbol .assign => g.forNumeric name line
  | .symbol .comma | .keyword .in => g.forGeneric name
  | _ => failNear .loopFormExpected
  checkMatch (.keyword .end) (.keyword .for) line
  leaveBlock

/-! ## 2. Functions and locals -/

def fieldsFrom : Nat → Expr → Compile Expr
  | 0, _ => failNear .endless
  | n + 1, e => do
    if (← token) = .symbol .dot then fieldsFrom n (← field e) else return e

def functionStatement (g : Grammar) (line : Nat) : Compile Unit := do
  next
  let e ← g.name (← checkName)
  let e ← fieldsFrom g.bound e
  let isMethod := (← token) = .symbol .colon
  let e ← if isMethod then field e else pure e
  let reg ← g.functionBody isMethod line
  storeVariable e.place (.plain (.fixed reg))
  fixLine line

/-- Read a local function. It is visible in its own body; its life begins when it is there. -/
def localFunction (g : Grammar) : Compile Unit := do
  let reg := (← get).fn.active
  declare (← checkName)
  activate 1
  let line ← line
  discard <| g.functionBody false line
  beginLocal reg

def localStatement (g : Grammar) : Compile Unit := do
  declare (← checkName)
  let vars ← namesFrom g.bound 1
  let (count, e) ← if ← testNext (.symbol .assign) then g.exprs else pure (0, .plain .void)
  adjust vars count e
  activate vars

/-! ## 3. Assignments, labels and returns -/

/-- A target read earlier that takes its table or key from the variable assigned now: use the copy
    in register `copy`. -/
def avoidConflict (copy : Nat) (assigned : Place) (target : Expr) : Expr × Bool :=
  match target.place with
  | .indexed table key base =>
    let sameTable :=
      match assigned, base with
      | .localVar r, .register => table = r
      | .upvalue i, .upvalue => table = i
      | _, _ => false
    let sameKey :=
      match assigned with
      | .localVar r => key = r
      | _ => false
    ({ target with
        place := .indexed (if sameTable then copy else table) (if sameKey then copy else key)
          (if sameTable then .register else base) },
      sameTable || sameKey)
  | _ => (target, false)

/-- Copy the variable assigned now, if earlier targets use it. -/
def checkConflict (assigned : Place) (targets : List Expr) : Compile (List Expr) := do
  let copy := (← get).fn.free
  let checked := targets.map (avoidConflict copy assigned)
  if checked.any (·.2) then
    match assigned with
    | .localVar r =>
      discard <| emitABC .move copy r 0
      reserve 1
    | .upvalue i =>
      discard <| emitABC .getUpval copy i 0
      reserve 1
    | _ => return checked.map (·.1)
  return checked.map (·.1)

/-- Read the targets of an assignment after `e`, `left` of them at most. The last one read is the head
    of the answer. -/
def targetsFrom (g : Grammar) (left : Nat) (e : Expr) (earlier : List Expr) :
    Compile (List Expr) := do
  if e.place.isVariable then
    if ← testNext (.symbol .comma) then
      let e' ← g.suffixed
      let targets ←
        match e'.place with
        | .indexed .. => pure (e :: earlier)
        | p => checkConflict p (e :: earlier)
      match left with
      | 0 => failNear .tooDeep
      | left + 1 => targetsFrom g left e' targets
    else return e :: earlier
  else failNear .notAStatement

def storeAll : List Expr → Compile Unit
  | [] => return
  | e :: rest => do
    storeVariable e.place (.plain (.fixed (← topRegister)))
    storeAll rest

/-- Read an assignment from its first target on. With as many values as targets, the last value goes
    to its target without a register in between. -/
def assignment (g : Grammar) (e : Expr) : Compile Unit := do
  let targets ← g.targetsFrom g.left e []
  checkNext (.symbol .assign)
  let (count, e) ← g.exprs
  if count = targets.length then
    let e ← setOneReturn e
    match targets with
    | [] => return
    | t :: rest =>
      storeVariable t.place e
      storeAll rest
  else
    adjust targets.length count e
    storeAll targets

/-- Read a call or an assignment. -/
def exprStatement (g : Grammar) : Compile Unit := do
  let e ← g.suffixed
  match ← token with
  | .symbol .assign | .symbol .comma => g.assignment e
  | _ =>
    match e.place with
    | .call pc => modifyFn fun d => d.mapInstr pc fun i => i.setC 1
    | _ => failNear .notAStatement

/-- Read the statements without effect that follow a label. -/
def skipNoOps (g : Grammar) : Nat → Compile Unit
  | 0 => failNear .endless
  | n + 1 => do
    match ← token with
    | .symbol .semi | .symbol .doubleColon =>
      g.statement
      skipNoOps g n
    | _ => return

/-- Read a label from the end of its name on. At the end of a block it sees none of the block's
    locals. -/
def labelStatement (g : Grammar) (name : Bytes) (line : Nat) : Compile Unit := do
  let s ← get
  match findLabel? s.fn name with
  | some l => failPlain (.labelRepeated name l.line)
  | none =>
    checkNext (.symbol .doubleColon)
    let pc ← markTarget
    let s ← get
    let index := s.fn.labels.length
    let label : Label := ⟨name, pc, line, s.fn.active⟩
    modifyFn fun d => { d with labels := d.labels ++ [label] }
    g.skipNoOps g.bound
    let label ←
      if ← atBlockEnd false then do
        let (_, active) ← innermostBlock
        pure { label with active := active }
      else pure label
    modifyFn fun d => { d with labels := d.labels.set index label }
    closeGotos label

/-- Read what is returned. A call alone becomes a tail call. -/
def returnStatement (g : Grammar) : Compile Unit := do
  if (← atBlockEnd true) || (← token) = .symbol .semi then emitReturn 0 (some 0)
  else
    let (count, e) ← g.exprs
    let active := (← get).fn.active
    if e.place.isMulti then
      setReturns e none
      match e.place, count with
      | .call pc, 1 =>
        modifyFn fun d => d.mapInstr pc fun i => i.setOp .tailCall
        demand .tailCall fun d => (d.instr pc).a.val = active
      | _, _ => pure ()
      emitReturn active none
    else if count = 1 then emitReturn (← toAnyRegister e) (some 1)
    else
      discard <| toNextRegister e
      demand .returned fun d => d.free = active + count
      emitReturn active (some count)
  discard <| testNext (.symbol .semi)

/-! ## 4. The grammar -/

/-- Read a statement. Afterwards only locals hold registers. -/
def statementBody (g : Grammar) : Compile Unit := do
  let line ← line
  match ← token with
  | .symbol .semi => next
  | .keyword .if => g.ifStatement line
  | .keyword .while => g.whileStatement line
  | .keyword .do =>
    next
    g.block
    checkMatch (.keyword .end) (.keyword .do) line
  | .keyword .for => g.forStatement line
  | .keyword .repeat => g.repeatStatement line
  | .keyword .function => g.functionStatement line
  | .keyword .local =>
    next
    if ← testNext (.keyword .function) then g.localFunction else g.localStatement
  | .symbol .doubleColon =>
    next
    let name ← checkName
    g.labelStatement name line
  | .keyword .return =>
    next
    g.returnStatement
  | .keyword .break | .keyword .goto => gotoStatement (← jump)
  | _ => g.exprStatement
  demand .statementEnd fun d => d.active ≤ d.free && d.free ≤ d.maxStack && d.maxStack < maxRegisters
  modifyFn fun d => { d with free := d.active }

def ofLevels (name : Bytes → Compile Expr) (bound : Nat) : Nat → Grammar
  | 0 => ⟨0, bound, failNear .tooDeep, fun _ => failNear .tooDeep, name⟩
  | n + 1 =>
    let g := ofLevels name bound n
    ⟨n + 1, bound, g.statementBody, g.expressionBody, name⟩

/-- Read the main function: a function of any arguments with one upvalue, the environment. -/
def mainFunction (g : Grammar) : Compile Unit := do
  enterBlock false
  modifyFn fun d =>
    { d.addUpvalue environmentName (.register 0) with isVararg := true }
  g.statements
  check .eof
  closeBody

end Grammar

/-- Compile a source to its main function, for a given way to read names. The name of the chunk is kept
    in every function. -/
def compileWith (name : Bytes → Compile Expr) (source : Bytes) (chunkName : String) : Except CompileError Proto :=
  let chunk := ChunkName.display chunkName
  match Lexer.tokenize source with
  | ([], some e) => .error ⟨.lexical e.fault, chunk, e.line, some e.near⟩
  | ([], none) => .error ⟨.endless, chunk, 0, none⟩
  | (first :: rest, fault) =>
    let g := Grammar.ofLevels name (rest.length + 2) Compile.maxLevels
    let full := Bytes.ofString chunkName
    match g.mainFunction.run ⟨first, rest, fault, 1, chunk, full, Draft.new 0, []⟩ with
    | .ok (_, s) => .ok (s.fn.finish full)
    | .error e => .error e

def compile (source : Bytes) (chunkName : String) : Except CompileError Proto :=
  compileWith Compile.named source chunkName

end LuaMachine
