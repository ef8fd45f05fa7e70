/-
  NAMES AND BLOCKS. A name is a local of the function, a captured variable, or a field of the environment.
  Blocks bound the life of locals, labels and pending gotos.
-/
import LuaMachine.Compiler.Value

namespace LuaMachine

/-! ## 1. Resolving names -/

inductive Variable where
  | register (reg : Nat)
  | upvalue (index : Nat)
deriving DecidableEq

namespace Variable

def place : Variable → Place
  | register r => .localVar r
  | upvalue i => .upvalue i

end Variable

namespace Draft

/-- Name of the declared local in a register. -/
def localName (d : Draft) (reg : Nat) : Bytes :=
  match d.declared[reg]? with
  | some i =>
    match d.locals[i]? with
    | some v => v.name
    | none => []
  | none => []

def findBelow (d : Draft) (name : Bytes) : Nat → Option Nat
  | 0 => none
  | r + 1 => if d.localName r = name then some r else findBelow d name r

def findLocal? (d : Draft) (name : Bytes) : Option Nat := d.findBelow name d.active

def findUpvalue? (d : Draft) (name : Bytes) : Option Nat :=
  d.upvalues.findIdx? fun u => u.name == some name

def markBlock (reg : Nat) : List Block → List Block
  | [] => []
  | b :: rest => if b.active ≤ reg then { b with captured := true } :: rest else b :: markBlock reg rest

def markCaptured (d : Draft) (reg : Nat) : Draft := { d with blocks := markBlock reg d.blocks }

def addUpvalue (d : Draft) (name : Bytes) (v : Variable) : Draft :=
  let desc : UpvalueDesc :=
    match v with
    | .register r => ⟨some name, true, UInt8.ofNat r⟩
    | .upvalue i => ⟨some name, false, UInt8.ofNat i⟩
  { d with upvalues := d.upvalues.push desc }

end Draft

/-- What a name denotes in the first function of a list, each being inside the next: the innermost
    active local of the name. The functions between capture it. The answer has the functions so
    changed; it is `none` if no function has such a local, and an error (the line of the function)
    if one of them has no room for another upvalue. -/
def resolve (name : Bytes) (innermost : Bool) : List Draft → Except Nat (Option (Variable × List Draft))
  | [] => .ok none
  | d :: outer =>
    match d.findLocal? name with
    | some r => .ok (some (.register r, (if innermost then d else d.markCaptured r) :: outer))
    | none =>
      match d.findUpvalue? name with
      | some i => .ok (some (.upvalue i, d :: outer))
      | none =>
        match resolve name false outer with
        | .error line => .error line
        | .ok none => .ok none
        | .ok (some (v, outer')) =>
          let n := d.upvalues.size
          if Compile.maxUpvalues < n + 1 then .error d.lineDefined
          else .ok (some (.upvalue n, d.addUpvalue name v :: outer'))

namespace Compile

/-- What a name denotes in the innermost function; `none` for a field of the environment. -/
def lookup (name : Bytes) : Compile (Option Place) := do
  let s ← get
  match resolve name true (s.fn :: s.outer) with
  | .error line => failNear (.tooMany .upvalues maxUpvalues line)
  | .ok (some (v, fn :: outer)) =>
    set { s with fn := fn, outer := outer }
    return some v.place
  | .ok _ => return none

def environmentName : Bytes := Bytes.ofString "_ENV"

/-- The expression of a name. -/
def named (name : Bytes) : Compile Expr := do
  match ← lookup name with
  | some p => return .plain p
  | none =>
    let env ← lookup environmentName
    let k ← addConstant (.str name)
    indexed (.plain (env.getD .void)) (.plain (.constant k))

/-! ## 2. Locals -/

/-- Declare a local of the next register; it is not visible yet. -/
def declare (name : Bytes) : Compile Unit := do
  let s ← get
  if maxLocals < s.fn.declared.size + 1 then failLimit .locals maxLocals
  else
    modifyFn fun d =>
      { d with
        declared := d.declared.push d.locals.size
        locals := d.locals.push ⟨name, 0, 0⟩ }

def mapLocal (d : Draft) (reg : Nat) (f : DraftLocal → DraftLocal) : Draft :=
  match d.declared[reg]? with
  | some i => { d with locals := d.locals.modify i f }
  | none => d

def beginLocal (reg : Nat) : Compile Unit :=
  modifyFn fun d =>
    let pc := d.pc
    mapLocal d reg fun v => { v with start := pc }

def activate : Nat → Compile Unit
  | 0 => return
  | n + 1 => do
    beginLocal (← get).fn.active
    modifyFn fun d => { d with active := d.active + 1 }
    activate n

/-- End the life of the locals from register `level` on. -/
def endLocals (level : Nat) (d : Draft) : Draft :=
  let pc := d.pc
  let d := go pc (d.active - level) d
  { d with declared := d.declared.take level, active := min d.active level }
where
  go (pc : Nat) : Nat → Draft → Draft
    | 0, d => d
    | n + 1, d => go pc n (mapLocal d (level + n) fun v => { v with stop := pc })

/-! ## 3. Gotos -/

def breakName : Bytes := Bytes.ofString "break"

def closeGoto (g : PendingGoto) (label : Label) : Compile Unit := do
  if g.active < label.active then
    let s ← get
    failPlain (.jumpsIntoScope g.name g.line (s.fn.localName g.active))
  else patchTo g.jumps label.pc

/-- Aim those of the gotos that have the label's name; the others remain. -/
def closeMatching (label : Label) : List PendingGoto → Compile (List PendingGoto)
  | [] => return []
  | g :: rest => do
    if g.name = label.name then
      closeGoto g label
      closeMatching label rest
    else return g :: (← closeMatching label rest)

def closeGotos (label : Label) : Compile Unit := do
  let s ← get
  let first := match s.fn.blocks with | b :: _ => b.firstGoto | [] => 0
  let gotos := s.fn.gotos
  let rest ← closeMatching label (gotos.drop first)
  modifyFn fun d => { d with gotos := gotos.take first ++ rest }

def findLabel? (d : Draft) (name : Bytes) : Option Label :=
  match d.blocks with
  | [] => none
  | b :: _ => (d.labels.drop b.firstLabel).find? fun l => l.name = name

/-- Aim a goto at a label of the innermost block, if there is one of its name. It closes the captured
    locals that it leaves. -/
def gotoLabel (g : PendingGoto) : Compile Bool := do
  match findLabel? (← get).fn g.name with
  | none => return false
  | some label =>
    if label.active < g.active then closeOnJump g.jumps label.active
    closeGoto g label
    return true

def moveOut (b : Block) : List PendingGoto → Compile (List PendingGoto)
  | [] => return []
  | g :: rest => do
    if b.active < g.active ∧ b.captured then closeOnJump g.jumps b.active
    let g := { g with active := min g.active b.active }
    if ← gotoLabel g then moveOut b rest else return g :: (← moveOut b rest)

def failGoto {α : Type} (g : PendingGoto) : Compile α :=
  if g.name = breakName then failPlain (.breakOutsideLoop g.line)
  else failPlain (.noVisibleLabel g.name g.line)

/-- A goto or break whose jumps have been written. -/
def gotoStatement (jumps : JumpList) : Compile Unit := do
  let line ← line
  let name ←
    if ← testNext (.keyword .goto) then checkName
    else do
      next
      pure breakName
  let g : PendingGoto := ⟨name, jumps, line, (← get).fn.active⟩
  if !(← gotoLabel g) then modifyFn fun d => { d with gotos := d.gotos ++ [g] }

/-! ## 4. Blocks -/

def enterBlock (isLoop : Bool) : Compile Unit := do
  modifyFn fun d =>
    let b : Block := ⟨d.labels.length, d.gotos.length, d.active, false, isLoop⟩
    { d with blocks := b :: d.blocks }
  demand .blockEntry fun d => d.free = d.active

def breakLabel : Compile Unit := do
  let pc ← markTarget
  let label : Label := ⟨breakName, pc, 0, (← get).fn.active⟩
  modifyFn fun d => { d with labels := d.labels ++ [label] }
  closeGotos label

/-- End the innermost block: captured locals are closed, breaks of a loop arrive, locals and labels
    are forgotten, and pending gotos go to the block around. -/
def leaveBlock : Compile Unit := do
  match (← get).fn.blocks with
  | [] => return
  | b :: around =>
    if !around.isEmpty && b.captured then
      let j ← jump
      closeOnJump j b.active
      patchHere j
    if b.isLoop then breakLabel
    modifyFn fun d =>
      let d := endLocals b.active { d with blocks := around }
      { d with free := d.active, labels := d.labels.take b.firstLabel }
    demand .blockExit fun d => d.active = b.active
    let gotos := (← get).fn.gotos
    match gotos.drop b.firstGoto with
    | [] => return
    | g :: rest =>
      if around.isEmpty then failGoto g
      else
        let rest ← moveOut b (g :: rest)
        modifyFn fun d => { d with gotos := gotos.take b.firstGoto ++ rest }

def innermostBlock : Compile (Bool × Nat) := do
  match (← get).fn.blocks with
  | [] => return (false, 0)
  | b :: _ => return (b.captured, b.active)

end Compile

end LuaMachine
