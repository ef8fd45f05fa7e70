/-
  THE BASE LIBRARY: the functions that every script finds among its global variables.
-/
import LuaMachine.Chunk.Decode
import LuaMachine.Compiler.Statement
import LuaMachine.Machine.State

namespace LuaMachine.Exec

/-! ## 1. Arguments -/

def failArgument {α : Type} (h : HostFn) (i : Nat) (f : ArgumentFault) : Exec α :=
  fail (.argument (i + 1) h.name f)

def failType {α : Type} (h : HostFn) (args : List Value) (i : Nat) (wanted : ValueType) : Exec α :=
  failArgument h i (.wrongType wanted (args[i]?.map Value.type))

def argument (h : HostFn) (args : List Value) (i : Nat) : Exec Value :=
  match args[i]? with
  | some v => return v
  | none => failArgument h i .missing

def tableArgument (h : HostFn) (args : List Value) (i : Nat) : Exec Nat :=
  match args[i]? with
  | some (.table id) => return id
  | _ => failType h args i .table

/-- An integer, or what converts to one. -/
def intArgument (h : HostFn) (args : List Value) (i : Nat) : Exec Int64 :=
  match args[i]? with
  | some v =>
    match v.toInt64? with
    | some n => return n
    | none => if v.toNumber?.isSome then failArgument h i .noInteger else failType h args i .number
  | none => failType h args i .number

def isAbsent (args : List Value) (i : Nat) : Bool :=
  match args[i]? with
  | none | some .nil => true
  | _ => false

def intArgumentOr (h : HostFn) (args : List Value) (i : Nat) (otherwise : Int64) : Exec Int64 :=
  if isAbsent args i then return otherwise else intArgument h args i

def stringArgument (h : HostFn) (args : List Value) (i : Nat) : Exec Bytes :=
  match args[i]?.bind Value.concatBytes? with
  | some s => return s
  | none => failType h args i .string

def stringArgumentOr (h : HostFn) (args : List Value) (i : Nat) (otherwise : Bytes) : Exec Bytes :=
  if isAbsent args i then return otherwise else stringArgument h args i

/-! ## 2. Simple functions -/

def printLine (vs : List Value) : Exec Unit := do
  let line := List.intercalate [0x09] (vs.map Value.textBytes) ++ [0x0A]
  match (← get).outputFault with
  | some cause => fail (.cannotWrite cause)
  | none => modify fun m => { m with printed := line :: m.printed }

def toNumber (args : List Value) : Exec (List Value) := do
  if isAbsent args 1 then
    let v ← argument .tonumber args 0
    return [(v.toNumber?.map Value.ofNumber).getD .nil]
  else
    let base ← intArgument .tonumber args 1
    match args.head? with
    | some (.str s) =>
      if 2 ≤ base ∧ base ≤ 36 then
        return [((Numeral.readBase? s base.toInt.toNat).map Value.int).getD .nil]
      else failArgument .tonumber 1 .baseOutOfRange
    | _ => failType .tonumber args 0 .string

/-- The arguments from the first argument on, counted from the end if it is negative. -/
def selectFrom (args : List Value) : Exec (List Value) := do
  let count : Int := args.length
  if args.head? = some (Value.ofString "#") then return [.int (Int64.ofInt (count - 1))]
  else
    let n := (← intArgument .select args 0).toInt
    let n := if n < 0 then n + count else min n count
    if n < 1 then failArgument .select 0 .indexOutOfRange else return args.drop n.toNat

/-- Raise a value; a string gets the place `level` functions up in front. -/
def raiseValue {α : Type} (v : Value) (level : Int) : Exec α := do
  let m ← get
  match v with
  | .str s =>
    if 0 < level then
      failWith (.raised (.str (Bytes.ofString (m.position level.toNat) ++ s)))
    else failWith (.raised v)
  | v => failWith (.raised v)

def maxUnpacked : Int := 1000000

/-- Values of the integer keys from `first` to `last`. -/
def unpackFrom (args : List Value) : Exec (List Value) := do
  let t ← table (← tableArgument .unpack args 0)
  let first := (← intArgumentOr .unpack args 1 1).toInt
  let last ←
    if isAbsent args 2 then pure (t.length : Int) else do pure (← intArgument .unpack args 2).toInt
  if last < first then return []
  else if maxUnpacked < last - first + 1 then fail .tooManyResults
  else
    return (List.range (last - first + 1).toNat).map fun (i : Nat) => t.getInt (Int64.ofInt (first + i))

/-- Memory is no concern of scripts; only the questions have answers. -/
def collect (args : List Value) : Exec (List Value) := do
  let option ← stringArgumentOr .collectgarbage args 0 (Bytes.ofString "collect")
  match option.text? with
  | some "collect" | some "step" | some "incremental" | some "generational" | some "stop"
  | some "restart" | some "setpause" | some "setstepmul" => return [.int 0]
  | some "count" => return [.float Double.zero, .int 0]
  | some "isrunning" => return [.bool true]
  | _ => failArgument .collectgarbage 0 (.unknownOption option.lossy)

/-! ## 3. Loading -/

def isPrecompiled (chunk : Bytes) : Bool := ChunkName.signature.isPrefixOf chunk

def protoOf (chunk : Bytes) (name : String) : Except Failure Proto :=
  if isPrecompiled chunk then (Chunk.toProto chunk name).mapError .chunk
  else (compile chunk name).mapError .compile

def loadChunk (chunk : Bytes) (name : String) (env : Value) : Exec (Except Failure Value) := do
  match protoOf chunk name with
  | .ok p => return .ok (← ofMain p env)
  | .error e => return .error e

/-- The end of `load`, once the chunk is there. -/
def loadWith (chunk : Bytes) (defaultName : String) (args : List Value) : Exec (List Value) := do
  let name ← if isAbsent args 1 then pure defaultName else do pure (← stringArgument .load args 1).lossy
  let mode ← stringArgumentOr .load args 2 (Bytes.ofString "bt")
  let (kind, mark) : String × UInt8 :=
    if isPrecompiled chunk then ("binary", 0x62) else ("text", 0x74)
  if !mode.contains mark then
    return [.nil, .ofString ("attempt to load a " ++ kind ++ " chunk (mode is '" ++ mode.lossy ++ "')")]
  else
    let m ← get
    let env := if 4 ≤ args.length then args[3]?.getD .nil else .table m.globals
    match ← loadChunk chunk name env with
    | .ok f => return [f]
    | .error e => return [.nil, .ofString e.message]

def loadFrom (args : List Value) (ret : HostReturn) : Exec Mode := do
  match args.head? with
  | some (.str s) => finish ret (← loadWith s s.lossy args)
  | some (.function id) => activate (.function id) [] (.reading [] args ret)
  | _ => failType .load args 0 .string

/-- A piece of a chunk has been read. Nil or an empty string ends the chunk. -/
def pieceRead (pieces : List Bytes) (args : List Value) (ret : HostReturn) (vs : List Value) :
    Exec Mode := do
  let whole : Exec Mode := do finish ret (← loadWith pieces.reverse.flatten "=(load)" args)
  match vs.headD .nil with
  | .nil => whole
  | .str [] => whole
  | .str s => activate (args.headD .nil) [] (.reading (s :: pieces) args ret)
  | _ => finish ret [.nil, .ofString "reader function must return a string"]

def settleResults (purpose : Purpose) (vs : List Value) : Exec Mode :=
  match purpose with
  | .outermost => return .deliver vs
  | .guarded ret => finish ret (.bool true :: vs)
  | .reading pieces args ret => pieceRead pieces args ret vs

/-! ## 4. All functions -/

/-- What a function does that calls no other. -/
def simple (h : HostFn) (args : List Value) : Exec (List Value) := do
  match h with
  | .print =>
    printLine args
    return []
  | .type => return [.ofString (← argument h args 0).type.text]
  | .tostring => return [.str (← argument h args 0).textBytes]
  | .tonumber => toNumber args
  | .ipairs =>
    let t ← tableArgument h args 0
    return [← newFunction (.host .ipairsStep), .table t, .int 0]
  | .ipairsStep =>
    let t ← table (← tableArgument h args 0)
    let i := (← intArgument h args 1) + 1
    let v := t.getInt i
    if v.isNil then return [.nil] else return [.int i, v]
  | .pairs =>
    let t ← tableArgument h args 0
    return [← newFunction (.host .next), .table t, .nil]
  | .next =>
    let t ← table (← tableArgument h args 0)
    match t.next (args[1]?.getD .nil) with
    | .ok (some (k, v)) => return [k, v]
    | .ok none => return [.nil]
    | .error f => fail (.table f)
  | .select => selectFrom args
  | .rawget =>
    let id ← tableArgument h args 0
    let key ← argument h args 1
    return [(← table id).get key]
  | .rawset =>
    let id ← tableArgument h args 0
    let key ← argument h args 1
    let value ← argument h args 2
    setKey id key value
    return [.table id]
  | .rawequal =>
    let a ← argument h args 0
    let b ← argument h args 1
    return [.bool (a.rawEqual b)]
  | .rawlen =>
    match args.head? with
    | some (.table id) => return [.int (Int64.ofNat (← table id).length)]
    | some (.str s) => return [.int (Int64.ofNat s.length)]
    | _ => failArgument h 0 .tableOrStringWanted
  | .assert =>
    let v ← argument h args 0
    if v.isFalsy then raiseValue (args[1]?.getD (.ofString "assertion failed!")) 1 else return args
  | .error =>
    let level ← intArgumentOr h args 1 1
    raiseValue (args.headD .nil) level.toInt
  | .unpack => unpackFrom args
  | .collectgarbage => collect args
  | .pcall | .load => return []

/-- What a library function does. -/
def host (h : HostFn) (args : List Value) (ret : HostReturn) : Exec Mode := do
  match h with
  | .pcall =>
    let f ← argument h args 0
    activate f (args.drop 1) (.guarded ret)
  | .load => loadFrom args ret
  | h => finish ret (← simple h args)

/-! ## 5. Global variables -/

def setGlobal (name : String) (v : Value) : Exec Unit := modify fun m =>
  { m with tables := m.tables.modify m.globals fun t => t.setName name v }

def defineAll : List HostFn → Exec Unit
  | [] => return
  | h :: rest => do
    setGlobal h.name (← newFunction (.host h))
    defineAll rest

/-- Define the whole library. -/
def openLibrary : Exec Unit := do
  defineAll HostFn.globals
  let unpack ← newFunction (.host .unpack)
  setGlobal "table" (← newTable (Table.empty.setName "unpack" unpack))
  let m ← get
  setGlobal "_G" (.table m.globals)
  setGlobal "_VERSION" (.ofString "Lua 5.3")

end LuaMachine.Exec
