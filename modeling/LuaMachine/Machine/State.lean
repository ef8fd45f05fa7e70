/-
  THE MACHINE. Values of all running functions are on one stack; a frame says which part of it a function
  uses and where in its code it is. Captured variables are cells that name a place on the stack while its
  function runs, and keep the value afterwards.
-/
import LuaMachine.Machine.Failure

namespace LuaMachine

inductive HostFn where
  | print | type | tostring | tonumber | ipairs | pairs | next | select | rawget | rawset | rawequal
  | rawlen | assert | error | pcall | unpack | load | collectgarbage
  /-- The iterator of `ipairs`. -/
  | ipairsStep
deriving DecidableEq, Repr

namespace HostFn

def name : HostFn → String
  | print => "print" | type => "type" | tostring => "tostring" | tonumber => "tonumber"
  | ipairs => "ipairs" | pairs => "pairs" | next => "next" | select => "select"
  | rawget => "rawget" | rawset => "rawset" | rawequal => "rawequal" | rawlen => "rawlen"
  | assert => "assert" | error => "error" | pcall => "pcall" | unpack => "unpack" | load => "load"
  | collectgarbage => "collectgarbage" | ipairsStep => "ipairs_step"

def globals : List HostFn :=
  [print, type, tostring, tonumber, ipairs, pairs, next, select, rawget, rawset, rawequal, rawlen,
   assert, error, pcall, unpack, load, collectgarbage]

end HostFn

inductive Cell where
  | live (slot : Nat)
  | closed (v : Value)
deriving DecidableEq, Inhabited

inductive Function where
  | script (proto : Proto) (cells : Array Nat)
  | host (h : HostFn)
deriving Inhabited

/-- A running function. -/
structure Frame where
  /-- Place of the function on the stack; its results go there. -/
  slot : Nat
  /-- Place of the next instruction. -/
  pc : Nat
  /-- Results that the caller wants; `none` for all. -/
  wanted : Option Nat
  proto : Proto
  cells : Array Nat
  /-- Arguments beyond the parameters. -/
  varargs : List Value
deriving Inhabited

namespace Frame

def base (f : Frame) : Nat := f.slot + 1

def top (f : Frame) : Nat := f.base + f.proto.maxStack.toNat

def line (f : Frame) : Nat := f.proto.lineAt (f.pc - 1)

end Frame

/-- Where the results of a library function go. -/
inductive HostReturn where
  /-- On the stack, as many as are wanted. -/
  | place (dest : Nat) (wanted : Option Nat)
  /-- To the caller of the running function, which ends; its registers begin at `base`. -/
  | tail (base : Nat)
  /-- To the innermost activation. -/
  | answer
deriving DecidableEq

/-- What the results of an activation are for. -/
inductive Purpose where
  /-- They are the results of the whole run. -/
  | outermost
  /-- A protected call, whose own results go to `ret`. -/
  | guarded (ret : HostReturn)
  /-- The next piece of a chunk for `load`, called with `args`; `pieces` are those before, last
      first. -/
  | reading (pieces : List Bytes) (args : List Value) (ret : HostReturn)
deriving DecidableEq

/-- A call made from outside a script or by a library function. -/
structure Activation where
  /-- Frames that were there before. -/
  depth : Nat
  /-- Place of the called function. -/
  slot : Nat
  /-- The top before the call. -/
  savedTop : Nat
  purpose : Purpose

/-- What bounds a run. -/
structure Limits where
  /-- Frames at a time. -/
  maxDepth : Nat
  /-- Instructions, if they are bounded. -/
  budget : Option Nat
  /-- The time is up. -/
  expired : Bool
deriving Inhabited

namespace Limits

def standard : Limits := ⟨255, none, false⟩

def clockInterval : Nat := 1024

def maxActivations : Nat := 100

end Limits

/-- The state of a machine. -/
structure Machine where
  stack : Array Value
  /-- Running functions, innermost first. -/
  frames : List Frame
  /-- Activations, innermost first. -/
  activations : List Activation
  /-- End of the values that the last open call or vararg gave. -/
  top : Nat
  /-- Places on the stack that are captured, greatest first, and their cells. -/
  openCells : List (Nat × Nat)
  cells : Array Cell
  tables : Array Table
  functions : Array Function
  limits : Limits
  /-- Instructions since the outermost call began. -/
  executed : Nat
  /-- The table of global variables. -/
  globals : Nat
  /-- Lines printed, last first. -/
  printed : List Bytes
  /-- Why nothing can be printed, if so. -/
  outputFault : Option String
deriving Inhabited

inductive Halt where
  | fault (f : Failure)
  | stuck

abbrev Exec := EStateM Halt Machine

/-- What a machine does next. -/
inductive Mode where
  /-- Run the next instruction. -/
  | run
  /-- Run a library function. -/
  | host (h : HostFn) (args : List Value) (ret : HostReturn)
  /-- End the innermost activation with results. -/
  | deliver (vs : List Value)
  /-- End the innermost activation with a failure. -/
  | raise (f : Failure)

namespace Machine

/-- The place of the running instruction of the `level`-th function from the innermost (1) on, as
    messages begin with it. -/
def position (m : Machine) (level : Nat) : String :=
  if level = 0 then ""
  else
    match m.frames[level - 1]? with
    | none => ""
    | some f =>
      if f.line = 0 then ""
      else
        let chunk :=
          match f.proto.source with
          | some s => ChunkName.display s.lossy
          | none => "?"
        chunk ++ ":" ++ toString f.line ++ ": "

def frameTop (m : Machine) : Nat :=
  match m.frames with
  | f :: _ => max f.top m.top
  | [] => m.top

end Machine

namespace Exec

/-! ## 1. Failing -/

def stuck {α : Type} : Exec α := throw .stuck

def failWith {α : Type} (f : Failure) : Exec α := throw (.fault f)

def fail {α : Type} (f : RuntimeFault) : Exec α := do
  let m ← get
  failWith (.runtime (m.position 1) f)

@[inline] def need {α : Type} : Option α → Exec α
  | some x => return x
  | none => stuck

/-! ## 2. The stack -/

def ensure (n : Nat) : Exec Unit := modify fun m =>
  if m.stack.size < n then
    { m with stack := m.stack ++ Array.replicate (n - m.stack.size) .nil }
  else m

@[inline] def read (i : Nat) : Exec Value := do
  let m ← get
  need m.stack[i]?

def write (i : Nat) (v : Value) : Exec Unit := fun m =>
  if h : i < m.stack.size then .ok () { m with stack := m.stack.set i v } else .error .stuck m

def readMany (start n : Nat) : Exec (List Value) := do
  let m ← get
  if start + n ≤ m.stack.size then return (m.stack.extract start (start + n)).toList else stuck

def writeMany (start : Nat) : List Value → Exec Unit
  | [] => return
  | v :: rest => do
    write start v
    writeMany (start + 1) rest

def clear (start : Nat) : Nat → Exec Unit
  | 0 => return
  | n + 1 => do
    write (start + n) .nil
    clear start n

def adjust (n : Nat) (vs : List Value) : List Value := vs.take n ++ List.replicate (n - vs.length) .nil

/-- Put results at a place, as many as are wanted; if all are, the top is behind them. -/
def place (dest : Nat) (vs : List Value) (wanted : Option Nat) : Exec Unit := do
  match wanted with
  | some n =>
    ensure (dest + n)
    writeMany dest (adjust n vs)
  | none =>
    ensure (dest + vs.length)
    writeMany dest vs
    modify fun m => { m with top := dest + vs.length }

/-! ## 3. Cells -/

def readCell (c : Nat) : Exec Value := do
  let m ← get
  match ← need m.cells[c]? with
  | .live slot => read slot
  | .closed v => return v

def writeCell (c : Nat) (v : Value) : Exec Unit := do
  let m ← get
  match ← need m.cells[c]? with
  | .live slot => write slot v
  | .closed _ => modify fun m => { m with cells := m.cells.modify c fun _ => .closed v }

def newCell (c : Cell) : Exec Nat := modifyGet fun m =>
  (m.cells.size, { m with cells := m.cells.push c })

def findOpen (slot : Nat) : List (Nat × Nat) → Option Nat
  | [] => none
  | (s, c) :: rest => if s = slot then some c else findOpen slot rest

def insertOpen (slot cell : Nat) : List (Nat × Nat) → List (Nat × Nat)
  | [] => [(slot, cell)]
  | (s, c) :: rest =>
    if s < slot then (slot, cell) :: (s, c) :: rest else (s, c) :: insertOpen slot cell rest

/-- Capture a place: all closures that capture it share one cell. -/
def capture (slot : Nat) : Exec Nat := do
  match findOpen slot (← get).openCells with
  | some c => return c
  | none =>
    let c ← newCell (.live slot)
    modify fun m => { m with openCells := insertOpen slot c m.openCells }
    return c

/-- Close the first of the captured places, as long as they are at or above `level`. -/
def closeFrom (level : Nat) : List (Nat × Nat) → Exec (List (Nat × Nat))
  | [] => return []
  | (slot, c) :: rest => do
    if slot < level then return (slot, c) :: rest
    else
      let v ← read slot
      modify fun m => { m with cells := m.cells.modify c fun _ => .closed v }
      closeFrom level rest

def close (level : Nat) : Exec Unit := do
  let cells ← closeFrom level (← get).openCells
  modify fun m => { m with openCells := cells }

/-! ## 4. Tables and functions -/

def newTable (t : Table) : Exec Value := modifyGet fun m =>
  (.table m.tables.size, { m with tables := m.tables.push t })

def newFunction (f : Function) : Exec Value := modifyGet fun m =>
  (.function m.functions.size, { m with functions := m.functions.push f })

def table (id : Nat) : Exec Table := do
  let m ← get
  need m.tables[id]?

def setKey (id : Nat) (key value : Value) : Exec Unit := do
  match Table.normalize key with
  | .error f => fail (.table f)
  | .ok (.int i) => modify fun m => { m with tables := m.tables.modify id fun t => t.setInt i value }
  | .ok k => modify fun m => { m with tables := m.tables.modify id fun t => t.setEntry k value }

def newCells (first : Value) (acc : Array Nat) : List UpvalueDesc → Exec (Array Nat)
  | [] => return acc
  | _ :: rest => do newCells .nil (acc.push (← newCell (.closed first))) rest

def ofMain (p : Proto) (env : Value) : Exec Value := do
  newFunction (.script p (← newCells env #[] p.upvalues))

/-! ## 5. Calling and returning -/

/-- Begin a script function whose arguments are on the stack behind it. -/
def pushFrame (slot nargs : Nat) (wanted : Option Nat) (p : Proto) (cells : Array Nat) :
    Exec Unit := do
  let base := slot + 1
  let top := base + p.maxStack.toNat
  let params := p.params.toNat
  ensure (max top (base + nargs))
  let varargs ←
    if p.isVararg ∧ params < nargs then readMany (base + params) (nargs - params) else pure []
  let start := base + min nargs params
  if top < start then stuck
  clear start (top - start)
  modify fun m => { m with frames := ⟨slot, 0, wanted, p, cells, varargs⟩ :: m.frames }

/-- Failing to call the value at a place. Its name is known if it is a register of the running
    function. -/
def failCall {α : Type} (slot : Nat) (v : Value) : Exec α := do
  let m ← get
  match m.frames with
  | f :: _ =>
    if f.base ≤ slot ∧ slot < f.top then
      fail (.call v.type (Naming.ofRegister? f.proto (f.pc - 1) (slot - f.base)))
    else failWith (.runtime "" (.call v.type none))
  | [] => failWith (.runtime "" (.call v.type none))

/-- Begin the call of the value at a place, its arguments behind it. -/
def beginCall (slot nargs : Nat) (wanted : Option Nat) (ret : HostReturn) : Exec Mode := do
  let v ← read slot
  match v with
  | .function id =>
    let m ← get
    match ← need m.functions[id]? with
    | .host h => return .host h (← readMany (slot + 1) nargs) ret
    | .script p cells =>
      if m.limits.maxDepth ≤ m.frames.length then failWith .stackOverflow
      else
        pushFrame slot nargs wanted p cells
        return .run
  | v => failCall slot v

/-- End the running function. The results go to its caller, or end the activation that began it. -/
def endCall (vs : List Value) : Exec Mode := do
  let m ← get
  match m.frames with
  | [] => return .deliver vs
  | f :: rest =>
    let depth := match m.activations with | a :: _ => a.depth | [] => 0
    set { m with frames := rest }
    if rest.length ≤ depth then return .deliver vs
    else
      place f.slot vs f.wanted
      return .run

/-- Give the results of a library function where they belong. -/
def finish (ret : HostReturn) (vs : List Value) : Exec Mode := do
  match ret with
  | .place dest wanted =>
    place dest vs wanted
    return .run
  | .tail base =>
    close base
    endCall vs
  | .answer => return .deliver vs

def settleFailure (purpose : Purpose) (f : Failure) : Exec Mode :=
  match purpose with
  | .guarded ret => if f.isCatchable then finish ret [.bool false, f.toValue] else failWith f
  | _ => failWith f

/-- Call a value from outside a script; its results are for `purpose`. -/
def activate (f : Value) (args : List Value) (purpose : Purpose) : Exec Mode := do
  let m ← get
  if Limits.maxActivations ≤ m.activations.length then settleFailure purpose .stackOverflow
  else
    let slot := m.frameTop
    let nargs := args.length
    ensure (slot + 1 + nargs)
    writeMany slot (f :: args)
    modify fun m =>
      { m with activations := ⟨m.frames.length, slot, m.top, purpose⟩ :: m.activations }
    beginCall slot nargs none .answer

end Exec

end LuaMachine
