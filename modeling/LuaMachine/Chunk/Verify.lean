/-
  IS CODE FIT TO RUN? Each instruction makes demands on the function it stands in: registers, constants,
  upvalues, nested functions, jump targets, the instruction after it.
-/
import LuaMachine.Chunk.Fault
import LuaMachine.Code.Proto

namespace LuaMachine

/-- What an instruction asks of its function. -/
inductive Demand where
  | register (r : Nat)
  /-- Registers from `first` on, `n` of them. -/
  | registers (first n : Nat)
  | constant (k : Nat)
  | upvalue (u : Nat)
  /-- A jump from here stays in the code. -/
  | jump (distance : Int)
  /-- Another instruction follows. -/
  | follower
  /-- This opcode follows. -/
  | followedBy (op : Op)
  | ordered (first last : Nat)
  | function (index : Nat)
deriving DecidableEq

namespace Demand

def operand (x : Nat) : Demand :=
  if Operand.isConstant x then constant (Operand.constantIndex x) else register x

/-- Whether a function meets a demand of the instruction at `pc`. -/
def met (p : Proto) (pc : Nat) : Demand → Bool
  | register r => r < p.maxStack.toNat
  | registers first n => first + n ≤ p.maxStack.toNat
  | constant k => k < p.constants.size
  | upvalue u => u < p.upvalues.length
  | jump distance =>
    let dest : Int := pc + 1 + distance
    0 ≤ dest ∧ dest < p.code.size
  | follower => pc + 1 < p.code.size
  | followedBy op =>
    match p.code[pc + 1]? with
    | some i => i.opcode = op
    | none => false
  | ordered first last => first ≤ last
  | function index => index < p.protos.length

/-- The refusal if the instruction at `pc` makes the demand in vain. -/
def fault (pc : Nat) : Demand → CodeFault
  | register r => .noRegister r pc
  | registers .. => .noRegisterRange pc
  | constant k => .noConstant k pc
  | upvalue u => .noUpvalue u pc
  | jump _ => .noJumpTarget pc
  | follower | followedBy _ => .noFollower pc
  | ordered .. => .badConcat pc
  | function _ => .noFunction pc

def ofA (op : Op) (a : Nat) : List Demand :=
  match op with
  | .setTabUp => [upvalue a]
  | .jmp => if a = 0 then [] else [register (a - 1)]
  | .eq | .lt | .le | .ret | .extraArg => []
  | _ => [register a]

def ofUse (use : OperandUse) (x : Nat) : List Demand :=
  match use with
  | .constant => [operand x]
  | _ => []

def ofUpvalue (u : UpvalueDesc) : Demand :=
  if u.inStack then register u.index.toNat else upvalue u.index.toNat

/-- The other demands of an instruction. -/
def ofOp (p : Proto) (pc : Nat) (i : Instr) (op : Op) : List Demand :=
  let a := i.a.val
  let b := i.b.val
  let c := i.c.val
  match op with
  | .move | .unm | .bnot | .not | .len | .getTable => [register b]
  | .self => [register b, registers a 2]
  | .loadK => [constant i.bx]
  | .loadKx => [followedBy .extraArg, constant (p.code[pc + 1]?.getD i).ax]
  | .loadBool => if c = 0 then [] else [follower]
  | .loadNil => [registers a (b + 1)]
  | .getUpval | .setUpval | .getTabUp => [upvalue b]
  | .concat => [ordered b c, register c]
  | .jmp | .forLoop | .tforLoop => [jump i.sbx]
  | .forPrep => [jump i.sbx, registers a 4]
  | .eq | .lt | .le | .test => [followedBy .jmp]
  | .testSet => [register b, followedBy .jmp]
  | .call => (if b = 0 then [] else [registers a b]) ++ (if c ≤ 1 then [] else [registers a (c - 1)])
  | .tailCall => if b = 0 then [] else [registers a b]
  | .ret => if b = 0 then [] else [registers a (b - 1)]
  | .tforCall => [registers a (3 + max c 3), followedBy .tforLoop]
  | .setList => registers a (b + 1) :: (if c = 0 then [followedBy .extraArg] else [])
  | .closure =>
    function i.bx ::
      match p.protos[i.bx]? with
      | some child => child.upvalues.map ofUpvalue
      | none => []
  | .vararg => if b ≤ 1 then [] else [registers a (b - 1)]
  | _ => []

def ofInstr (p : Proto) (pc : Nat) (i : Instr) (op : Op) : List Demand :=
  ofA op i.a.val ++ ofUse op.useB i.b.val ++ ofUse op.useC i.c.val ++ ofOp p pc i op

end Demand

namespace Proto

/-- Check an instruction. -/
def verifyInstr (p : Proto) (pc : Nat) (i : Instr) : Except ChunkFault Unit :=
  match Op.ofNat? i.op.val with
  | none => .error (.badCode (.invalidOpcode i.op.val pc))
  | some op =>
    match (Demand.ofInstr p pc i op).find? fun d => !d.met p pc with
    | some d => .error (.badCode (d.fault pc))
    | none => .ok ()

def verifyCode (p : Proto) : Nat → List Instr → Except ChunkFault Unit
  | _, [] => .ok ()
  | pc, i :: rest =>
    match p.verifyInstr pc i with
    | .error f => .error f
    | .ok _ => verifyCode p (pc + 1) rest

def endsWithReturn (p : Proto) : Bool :=
  match p.code.back? with
  | some i => i.op.val = Op.ret.toNat
  | none => false

def verifyOne (p : Proto) : Except ChunkFault Unit :=
  if p.maxStack < p.params then .error (.badCode .tooManyParameters)
  else if p.lines.size ≠ 0 ∧ p.lines.size ≠ p.code.size then .error .badData
  else if !p.endsWithReturn then .error (.badCode .noReturnAtEnd)
  else p.verifyCode 0 p.code.toList

mutual

def verify : Proto → Except ChunkFault Unit
  | p@⟨_, _, protos, _, _, _, _, _, _, _, _, _⟩ =>
    match p.verifyOne with
    | .error f => .error f
    | .ok _ => verifyAll protos

def verifyAll : List Proto → Except ChunkFault Unit
  | [] => .ok ()
  | p :: rest =>
    match verify p with
    | .error f => .error f
    | .ok _ => verifyAll rest

end

end Proto

end LuaMachine
