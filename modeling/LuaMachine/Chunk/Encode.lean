/-
  PRECOMPILED CHUNKS, WRITTEN. A header that names the format, then the functions as a tree; numbers are
  little-endian.
-/
import LuaMachine.Chunk.Fault
import LuaMachine.Code.Proto
import LuaMachine.Text.Hash

namespace LuaMachine

namespace LittleEndian

def encode : Nat → Nat → Bytes
  | 0, _ => []
  | width + 1, n => UInt8.ofNat n :: encode width (n / 256)

def decode : Bytes → Nat
  | [] => 0
  | b :: rest => b.toNat + 256 * decode rest

end LittleEndian

namespace Chunk

/-- The parts of the header in order: the bytes, and the refusal if others stand there. The last two
    are an integer and a double that show their layout. -/
def header : List (Bytes × ChunkFault) :=
  [(ChunkName.signature, .badSignature),
   ([0x53], .badVersion),
   ([0x00], .badFormat),
   ([0x19, 0x93, 0x0D, 0x0A, 0x1A, 0x0A], .badData),
   ([4], .badSize "int"),
   ([8], .badSize "size_t"),
   ([4], .badSize "Instruction"),
   ([8], .badSize "lua_Integer"),
   ([8], .badSize "lua_Number"),
   (LittleEndian.encode 8 0x5678, .badCanary "endianness"),
   (LittleEndian.encode 8 0x4077280000000000, .badCanary "float format")]

def int (n : Nat) : Bytes := LittleEndian.encode 4 n

def bool (b : Bool) : Bytes := [if b then 1 else 0]

def text : Option Bytes → Bytes
  | none => [0]
  | some s =>
    let size := s.length + 1
    (if size < 255 then [UInt8.ofNat size] else 255 :: LittleEndian.encode 8 size) ++ s

def constant : Constant → Bytes
  | .nil => [0]
  | .bool b => 1 :: bool b
  | .float d => 3 :: LittleEndian.encode 8 d.bits.toNat
  | .int i => 19 :: LittleEndian.encode 8 i.toUInt64.toNat
  | .str s => (if s.isShort then 4 else 20) :: text (some s)

def list {α : Type} (f : α → Bytes) (xs : List α) : Bytes := int xs.length ++ xs.flatMap f

mutual

/-- A function. The source's name is left out if it is that of the function around. -/
def function (strip : Bool) (parent : Option Bytes) (p : Proto) : Bytes :=
  match p with
  | ⟨code, constants, protos, upvalues, params, isVararg, maxStack, source, lineDefined, lastLine,
      lines, locals⟩ =>
    text (if strip ∨ source = parent then none else source) ++
    int lineDefined.toNat ++ int lastLine.toNat ++
    [params] ++ bool isVararg ++ [maxStack] ++
    list (fun i => int i.word.toNat) code.toList ++
    list constant constants.toList ++
    list (fun u => bool u.inStack ++ [u.index]) upvalues ++
    (int protos.length ++ functions strip source protos) ++
    if strip then int 0 ++ int 0 ++ int 0
    else
      list (fun l => int l.toNat) lines.toList ++
      list (fun v => text (some v.name) ++ int v.start.toNat ++ int v.stop.toNat) locals ++
      list (fun u => text u.name) upvalues

def functions (strip : Bool) (parent : Option Bytes) : List Proto → Bytes
  | [] => []
  | p :: rest => function strip parent p ++ functions strip parent rest

end

def ofProto (p : Proto) (strip : Bool) : Bytes :=
  header.flatMap (·.1) ++ [UInt8.ofNat p.upvalues.length] ++ function strip none p

end Chunk

end LuaMachine
