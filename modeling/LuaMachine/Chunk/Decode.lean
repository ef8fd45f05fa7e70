/-
  PRECOMPILED CHUNKS, READ. Bytes are read from the front; counts that the rest cannot hold are refused
  before anything is read for them.
-/
import LuaMachine.Chunk.Encode
import LuaMachine.Chunk.Verify

namespace LuaMachine.Chunk

abbrev Read := StateT Bytes (Except ChunkFault)

def atLeast : Nat → Bytes → Bool
  | 0, _ => true
  | _ + 1, [] => false
  | n + 1, _ :: rest => atLeast n rest

def readBytes (n : Nat) : Read Bytes := do
  let s ← get
  if atLeast n s then
    set (s.drop n)
    return s.take n
  else throw .truncated

def readByte : Read UInt8 := do
  match ← get with
  | [] => throw .truncated
  | b :: rest =>
    set rest
    return b

def readNat (width : Nat) : Read Nat := do return LittleEndian.decode (← readBytes width)

def readInt : Read UInt32 := do return UInt32.ofNat (← readNat 4)

def readBool : Read Bool := do return (← readByte) ≠ 0

def readCount (size : Nat) : Read Nat := do
  let n ← readNat 4
  if atLeast (n * size) (← get) then return n else throw .truncated

def readMany {α : Type} (r : Read α) : Nat → List α → Read (List α)
  | 0, acc => return acc.reverse
  | n + 1, acc => do
    let x ← r
    readMany r n (x :: acc)

def readList {α : Type} (size : Nat) (r : Read α) : Read (List α) := do
  readMany r (← readCount size) []

def readText : Read (Option Bytes) := do
  let b ← readByte
  if b = 0 then return none
  else
    let size ← if b = 255 then readNat 8 else pure b.toNat
    if size = 0 then throw .badData else return some (← readBytes (size - 1))

def readConstant : Read Constant := do
  let tag ← readByte
  match tag with
  | 0 => return .nil
  | 1 => return .bool (← readBool)
  | 3 => return .float ⟨UInt64.ofNat (← readNat 8)⟩
  | 19 => return .int (UInt64.ofNat (← readNat 8)).toInt64
  | 4 | 20 =>
    match ← readText with
    | some s => return .str s
    | none => throw .badData
  | _ => throw (.badConstantTag tag)

def readUpvalue : Read UpvalueDesc := do
  let inStack ← readBool
  return ⟨none, inStack, ← readByte⟩

def readLocal : Read LocalRange := do
  let name ← readText
  let start ← readInt
  let stop ← readInt
  return ⟨name.getD [], start, stop⟩

def readNames : Nat → List UpvalueDesc → Read (List UpvalueDesc)
  | n + 1, u :: rest => do
    let name ← readText
    return { u with name := name } :: (← readNames n rest)
  | _, us => return us

def maxNesting : Nat := 200

/-- Read a function, with at most `depth` levels of functions. A function without a source has that
    of the function around it. -/
def readFunction : Nat → Option Bytes → Read Proto
  | 0, _ => throw .badData
  | depth + 1, parent => do
    let source := (← readText).or parent
    let lineDefined ← readInt
    let lastLine ← readInt
    let params ← readByte
    let isVararg ← readBool
    let maxStack ← readByte
    let code ← readList 4 (do return Instr.ofWord (← readInt))
    let constants ← readList 1 readConstant
    let upvalues ← readList 2 readUpvalue
    let protos ← readList 1 (readFunction depth source)
    let lines ← readList 4 readInt
    let locals ← readList 9 readLocal
    let names ← readCount 1
    if upvalues.length < names then throw .badData
    else
      let upvalues ← readNames names upvalues
      return ⟨code.toArray, constants.toArray, protos, upvalues, params, isVararg, maxStack, source,
        lineDefined, lastLine, lines.toArray, locals⟩

def readHeader : List (Bytes × ChunkFault) → Read Unit
  | [] => return
  | (part, f) :: rest => do
    if (← readBytes part.length) = part then readHeader rest else throw f

def readMain : Read Proto := do
  readHeader header
  let n ← readByte
  let p ← readFunction (maxNesting + 1) none
  if p.upvalues.length = n.toNat ∧ (← get) = [] then return p else throw .badData

/-- The main function of a chunk. -/
def toProto (bytes : Bytes) (chunkName : String) : Except ChunkError Proto :=
  let fail (f : ChunkFault) : Except ChunkError Proto := .error ⟨f, ChunkName.plain chunkName⟩
  match readMain.run bytes with
  | .error f => fail f
  | .ok (p, _) =>
    match p.verify with
    | .error f => fail f
    | .ok _ => .ok p

end LuaMachine.Chunk
