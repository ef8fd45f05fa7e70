/-
  WHY A PRECOMPILED CHUNK IS REFUSED: each cause once, its wording in one place.
-/
import LuaMachine.Text.ChunkName

namespace LuaMachine

/-- What is wrong with the code of a function, at an instruction. -/
inductive CodeFault where
  | tooManyParameters
  | noReturnAtEnd
  | invalidOpcode (op pc : Nat)
  | noRegister (r pc : Nat)
  | noRegisterRange (pc : Nat)
  | noConstant (k pc : Nat)
  | noUpvalue (u pc : Nat)
  | noJumpTarget (pc : Nat)
  | noFollower (pc : Nat)
  | badConcat (pc : Nat)
  | noFunction (pc : Nat)
deriving DecidableEq, Repr

namespace CodeFault

def text : CodeFault → String
  | tooManyParameters => "more parameters than registers"
  | noReturnAtEnd => "function does not end with RETURN"
  | invalidOpcode op pc => "invalid opcode " ++ toString op ++ " at pc " ++ toString pc
  | noRegister r pc => "register " ++ toString r ++ " out of range at pc " ++ toString pc
  | noRegisterRange pc => "register range out of bounds at pc " ++ toString pc
  | noConstant k pc => "constant " ++ toString k ++ " out of range at pc " ++ toString pc
  | noUpvalue u pc => "upvalue " ++ toString u ++ " out of range at pc " ++ toString pc
  | noJumpTarget pc => "jump target out of range at pc " ++ toString pc
  | noFollower pc => "missing follow-up instruction at pc " ++ toString pc
  | badConcat pc => "bad CONCAT range at pc " ++ toString pc
  | noFunction pc => "function index out of range at pc " ++ toString pc

end CodeFault

/-- What is wrong with the bytes of a chunk. -/
inductive ChunkFault where
  | truncated
  | badSignature
  | badVersion
  | badFormat
  | badData
  | badSize (what : String)
  | badCanary (what : String)
  | badConstantTag (tag : UInt8)
  | badCode (f : CodeFault)
deriving DecidableEq, Repr

namespace ChunkFault

def text : ChunkFault → String
  | truncated => "truncated precompiled chunk"
  | badSignature => "not a precompiled chunk"
  | badVersion => "version mismatch in precompiled chunk"
  | badFormat => "format mismatch in precompiled chunk"
  | badData => "corrupted precompiled chunk"
  | badSize what => what ++ " size mismatch in precompiled chunk"
  | badCanary what => what ++ " mismatch in precompiled chunk"
  | badConstantTag tag => "bad constant tag " ++ toString tag.toNat ++ " in precompiled chunk"
  | badCode f => "bad code in precompiled chunk (" ++ f.text ++ ")"

end ChunkFault

structure ChunkError where
  fault : ChunkFault
  chunk : String
deriving DecidableEq

namespace ChunkError

def message (e : ChunkError) : String := e.chunk ++ ": " ++ e.fault.text

end ChunkError

end LuaMachine
