/-
  INSTRUCTIONS. A word of 32 bits holds an opcode (6 bits), a register A (8 bits) and two operands C and B
  (9 bits each); B and C together are Bx, all three are Ax.
-/
namespace LuaMachine

/-- Opcodes, in order of their numbers. -/
inductive Op where
  | move | loadK | loadKx | loadBool | loadNil | getUpval | getTabUp | getTable
  | setTabUp | setUpval | setTable | newTable | self
  | add | sub | mul | mod | pow | div | idiv | band | bor | bxor | shl | shr
  | unm | bnot | not | len | concat
  | jmp | eq | lt | le | test | testSet | call | tailCall | ret
  | forLoop | forPrep | tforCall | tforLoop | setList | closure | vararg | extraArg
deriving DecidableEq, Repr, Inhabited

inductive Layout where
  | abc | abx | asbx | ax
deriving DecidableEq, Repr

/-- What an operand is: nothing, a plain number, a register or jump distance, a constant or
    register. -/
inductive OperandUse where
  | unused | number | register | constant
deriving DecidableEq, Repr

namespace Op

def all : Array Op :=
  #[move, loadK, loadKx, loadBool, loadNil, getUpval, getTabUp, getTable,
    setTabUp, setUpval, setTable, newTable, self,
    add, sub, mul, mod, pow, div, idiv, band, bor, bxor, shl, shr,
    unm, bnot, not, len, concat,
    jmp, eq, lt, le, test, testSet, call, tailCall, ret,
    forLoop, forPrep, tforCall, tforLoop, setList, closure, vararg, extraArg]

def toNat (op : Op) : Nat := op.ctorIdx

def ofNat? (n : Nat) : Option Op := all[n]?

def layout : Op → Layout
  | loadK | loadKx | closure => .abx
  | jmp | forLoop | forPrep | tforLoop => .asbx
  | extraArg => .ax
  | _ => .abc

def name : Op → String
  | move => "MOVE" | loadK => "LOADK" | loadKx => "LOADKX" | loadBool => "LOADBOOL"
  | loadNil => "LOADNIL" | getUpval => "GETUPVAL" | getTabUp => "GETTABUP"
  | getTable => "GETTABLE" | setTabUp => "SETTABUP" | setUpval => "SETUPVAL"
  | setTable => "SETTABLE" | newTable => "NEWTABLE" | self => "SELF"
  | add => "ADD" | sub => "SUB" | mul => "MUL" | mod => "MOD" | pow => "POW" | div => "DIV"
  | idiv => "IDIV" | band => "BAND" | bor => "BOR" | bxor => "BXOR" | shl => "SHL" | shr => "SHR"
  | unm => "UNM" | bnot => "BNOT" | not => "NOT" | len => "LEN" | concat => "CONCAT"
  | jmp => "JMP" | eq => "EQ" | lt => "LT" | le => "LE" | test => "TEST" | testSet => "TESTSET"
  | call => "CALL" | tailCall => "TAILCALL" | ret => "RETURN"
  | forLoop => "FORLOOP" | forPrep => "FORPREP" | tforCall => "TFORCALL" | tforLoop => "TFORLOOP"
  | setList => "SETLIST" | closure => "CLOSURE" | vararg => "VARARG" | extraArg => "EXTRAARG"

def isTest : Op → Bool
  | eq | lt | le | test | testSet => true
  | _ => false

def setsA : Op → Bool
  | setTabUp | setUpval | setTable | jmp | eq | lt | le | test | ret | tforCall | setList
  | extraArg => false
  | _ => true

/-- Use of operand B (or Bx). -/
def useB : Op → OperandUse
  | move | getTable | self | unm | bnot | not | len | concat | jmp | testSet | forLoop
  | forPrep | tforLoop => .register
  | loadK | setTabUp | setTable | add | sub | mul | mod | pow | div | idiv | band | bor
  | bxor | shl | shr | eq | lt | le => .constant
  | loadKx | test | tforCall => .unused
  | _ => .number

/-- Use of operand C. -/
def useC : Op → OperandUse
  | getTabUp | getTable | setTabUp | setTable | self | add | sub | mul | mod | pow | div
  | idiv | band | bor | bxor | shl | shr | eq | lt | le => .constant
  | concat => .register
  | loadBool | newTable | test | testSet | call | tailCall | tforCall | setList
  | extraArg => .number
  | _ => .unused

end Op

/-! ## 1. Fields -/

structure Instr where
  op : Fin 64
  a : Fin 256
  b : Fin 512
  c : Fin 512
deriving DecidableEq, Inhabited

namespace Instr

def maxBx : Nat := 0x3FFFF

def maxJump : Nat := 131071

def maxAx : Nat := 0x3FFFFFF

def maxC : Nat := 511

def word (i : Instr) : UInt32 :=
  UInt32.ofNat (i.op.val + 64 * (i.a.val + 256 * (i.c.val + 512 * i.b.val)))

def ofWord (w : UInt32) : Instr :=
  let n := w.toNat
  ⟨Fin.ofNat 64 n, Fin.ofNat 256 (n / 64), Fin.ofNat 512 (n / 0x800000), Fin.ofNat 512 (n / 0x4000)⟩

def opcode (i : Instr) : Op := (Op.ofNat? i.op.val).getD .extraArg

def bx (i : Instr) : Nat := i.b.val * 512 + i.c.val

def sbx (i : Instr) : Int := (i.bx : Int) - maxJump

def ax (i : Instr) : Nat := i.a.val + 256 * i.bx

def ofABC (op : Op) (a b c : Nat) : Instr :=
  ⟨Fin.ofNat 64 op.toNat, Fin.ofNat 256 a, Fin.ofNat 512 b, Fin.ofNat 512 c⟩

def ofABx (op : Op) (a bx : Nat) : Instr := ofABC op a (bx / 512) (bx % 512)

def ofAsBx (op : Op) (a : Nat) (sbx : Int) : Instr := ofABx op a (sbx + maxJump).toNat

def ofAx (op : Op) (ax : Nat) : Instr := ofABx op (ax % 256) (ax / 256)

def setOp (i : Instr) (op : Op) : Instr := { i with op := Fin.ofNat 64 op.toNat }

def setA (i : Instr) (a : Nat) : Instr := { i with a := Fin.ofNat 256 a }

def setB (i : Instr) (b : Nat) : Instr := { i with b := Fin.ofNat 512 b }

def setC (i : Instr) (c : Nat) : Instr := { i with c := Fin.ofNat 512 c }

def setSbx (i : Instr) (sbx : Int) : Instr :=
  let n := (sbx + maxJump).toNat
  { i with b := Fin.ofNat 512 (n / 512), c := Fin.ofNat 512 n }

/-- An instruction with its operands by name. -/
def text (i : Instr) : String :=
  let a := " A=" ++ toString i.a.val
  i.opcode.name ++
    match i.opcode.layout with
    | .abc => a ++ " B=" ++ toString i.b.val ++ " C=" ++ toString i.c.val
    | .abx => a ++ " Bx=" ++ toString i.bx
    | .asbx => a ++ " sBx=" ++ toString i.sbx
    | .ax => " Ax=" ++ toString i.ax

end Instr

/-! ## 2. Operands -/

namespace Operand

def constantBit : Nat := 256

def maxConstant : Nat := 255

def isConstant (x : Nat) : Bool := x / constantBit % 2 = 1

def constantIndex (x : Nat) : Nat := if isConstant x then x - constantBit else x

def ofConstant (k : Nat) : Nat := if isConstant k then k else k + constantBit

def noRegister : Nat := 255

def ofCount : Option Nat → Nat
  | some n => n + 1
  | none => 0

def toCount? : Nat → Option Nat
  | 0 => none
  | n + 1 => some n

end Operand

namespace SizeByte

def coarse : Nat → Nat → Nat → Nat × Nat
  | 0, x, e => (x, e)
  | n + 1, x, e => if 128 ≤ x then coarse n ((x + 15) / 16) (e + 4) else (x, e)

def fine : Nat → Nat → Nat → Nat × Nat
  | 0, x, e => (x, e)
  | n + 1, x, e => if 16 ≤ x then fine n ((x + 1) / 2) (e + 1) else (x, e)

def ofNat (x : Nat) : Nat :=
  if x < 8 then x
  else
    let (x, e) := coarse 8 x 0
    let (x, e) := fine 4 x e
    (e + 1) * 8 + (x - 8)

def toNat (x : Nat) : Nat :=
  if x < 8 then x else ((x % 8 + 8) <<< (x / 8 - 1)) % 0x100000000

end SizeByte

def itemsPerFlush : Nat := 50

end LuaMachine
