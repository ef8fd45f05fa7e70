/-
  THE COMPILER'S STATE. A source is compiled in one pass: code is written as tokens are read, into a draft
  of the innermost function.
-/
import LuaMachine.Code.Proto
import LuaMachine.Compiler.Fault
import LuaMachine.Lexer.Stream

namespace LuaMachine

abbrev JumpList := List Nat

/-- A lexical block of a function. -/
structure Block where
  /-- Labels of the function when the block began. -/
  firstLabel : Nat
  /-- Pending gotos of the function when the block began. -/
  firstGoto : Nat
  /-- Active locals outside the block. -/
  active : Nat
  /-- Some local of the block is captured by a closure. -/
  captured : Bool
  isLoop : Bool
deriving DecidableEq, Repr

structure Label where
  name : Bytes
  pc : Nat
  line : Nat
  active : Nat
deriving DecidableEq

structure PendingGoto where
  name : Bytes
  jumps : JumpList
  line : Nat
  active : Nat
deriving DecidableEq

structure DraftLocal where
  name : Bytes
  start : Nat
  stop : Nat
deriving DecidableEq

/-- A function being written. -/
structure Draft where
  code : Array Instr
  lines : Array Nat
  constants : Array Constant
  protos : Array Proto
  upvalues : Array UpvalueDesc
  /-- Every local declared so far. -/
  locals : Array DraftLocal
  params : Nat
  isVararg : Bool
  maxStack : Nat
  lineDefined : Nat
  lastLine : Nat
  /-- Blocks that are open, innermost first. -/
  blocks : List Block
  /-- Declared locals by register, as places in `locals`. -/
  declared : Array Nat
  /-- How many of the declared locals are active. -/
  active : Nat
  /-- First free register. -/
  free : Nat
  /-- Jumps that go to the next instruction written. -/
  here : JumpList
  /-- The last place marked as a jump target. -/
  lastTarget : Nat
  labels : List Label
  gotos : List PendingGoto
deriving Inhabited

namespace Draft

/-- A function that begins on a line; 0 is the main function. Two registers are always there. -/
def new (line : Nat) : Draft where
  code := #[]
  lines := #[]
  constants := #[]
  protos := #[]
  upvalues := #[]
  locals := #[]
  params := 0
  isVararg := false
  maxStack := 2
  lineDefined := line
  lastLine := 0
  blocks := []
  declared := #[]
  active := 0
  free := 0
  here := []
  lastTarget := 0
  labels := []
  gotos := []

def pc (d : Draft) : Nat := d.code.size

/-- The finished function. -/
def finish (d : Draft) (source : Bytes) : Proto where
  code := d.code
  constants := d.constants
  protos := d.protos.toList
  upvalues := d.upvalues.toList
  params := UInt8.ofNat d.params
  isVararg := d.isVararg
  maxStack := UInt8.ofNat d.maxStack
  source := some source
  lineDefined := UInt32.ofNat d.lineDefined
  lastLine := UInt32.ofNat d.lastLine
  lines := d.lines.map UInt32.ofNat
  locals := d.locals.toList.map fun v => ⟨v.name, UInt32.ofNat v.start, UInt32.ofNat v.stop⟩

def instr (d : Draft) (pc : Nat) : Instr := d.code[pc]?.getD (Instr.ofABC .extraArg 0 0 0)

def mapInstr (d : Draft) (pc : Nat) (f : Instr → Instr) : Draft :=
  { d with code := d.code.modify pc f }

end Draft

/-- The state of a compilation. -/
structure Compiler where
  /-- The token that is read next. -/
  current : Lexeme
  /-- The tokens after it. -/
  ahead : List Lexeme
  /-- Why no token follows the last one, unless that is the end. -/
  fault : Option LexError
  /-- Line of the last token passed. -/
  lastLine : Nat
  /-- Name of the chunk in messages. -/
  chunk : String
  /-- Name of the chunk in full. -/
  source : Bytes
  /-- The innermost function. -/
  fn : Draft
  /-- The functions around it, innermost first. -/
  outer : List Draft

abbrev Compile := StateT Compiler (Except CompileError)

namespace Compile

def maxRegisters : Nat := 255

def maxLocals : Nat := 200

def maxUpvalues : Nat := 255

def maxLevels : Nat := 200

/-! ## 1. State and errors -/

@[inline] def modifyFn (f : Draft → Draft) : Compile Unit :=
  modify fun s => { s with fn := f s.fn }

@[inline] def ofFn {α : Type} (f : Draft → α) : Compile α := do return f (← get).fn

def failNear {α : Type} (f : CompileFault) : Compile α := do
  let s ← get
  throw ⟨f, s.chunk, s.current.line, some s.current.near⟩

def failPlain {α : Type} (f : CompileFault) : Compile α := do
  let s ← get
  throw ⟨f, s.chunk, s.current.line, none⟩

def failLexical {α : Type} (e : LexError) : Compile α := do
  let s ← get
  throw ⟨.lexical e.fault, s.chunk, e.line, some e.near⟩

def failLimit {α : Type} (what : Limited) (limit : Nat) : Compile α := do
  failNear (.tooMany what limit (← get).fn.lineDefined)

def demand (rule : RegisterRule) (keeps : Draft → Bool) : Compile Unit := do
  if !keeps (← get).fn then failNear (.broken rule)

/-! ## 2. Tokens -/

@[inline] def token : Compile Token := do return (← get).current.token

@[inline] def line : Compile Nat := do return (← get).current.line

/-- Pass the current token. At the end there is always another end. -/
def next : Compile Unit := do
  let s ← get
  match s.ahead with
  | x :: rest => set { s with current := x, ahead := rest, lastLine := s.current.line }
  | [] =>
    match s.fault with
    | some e => failLexical e
    | none => set { s with lastLine := s.current.line }

/-- The token after the current one. -/
def peek : Compile Token := do
  let s ← get
  match s.ahead with
  | x :: _ => return x.token
  | [] =>
    match s.fault with
    | some e => failLexical e
    | none => return .eof

def check (t : Token) : Compile Unit := do
  if (← token) ≠ t then failNear (.expected t)

def checkNext (t : Token) : Compile Unit := do
  check t
  next

def testNext (t : Token) : Compile Bool := do
  if (← token) = t then
    next
    return true
  else return false

def checkMatch (what opener : Token) (openLine : Nat) : Compile Unit := do
  if !(← testNext what) then
    if openLine = (← line) then failNear (.expected what)
    else failNear (.expectedToClose what opener openLine)

def checkName : Compile Bytes := do
  match ← token with
  | .name s =>
    next
    return s
  | _ => failNear (.expected (.name []))

def atBlockEnd (withUntil : Bool) : Compile Bool := do return (← token).endsBlock withUntil

end Compile

end LuaMachine
