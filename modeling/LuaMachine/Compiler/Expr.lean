/-
  EXPRESSIONS WHILE THEIR CODE IS WRITTEN. No tree is built: an expression is where its value is now, or
  what is still to be written to get it, and the jumps that leave it early.
-/
import LuaMachine.Compiler.State

namespace LuaMachine

inductive TableBase where
  | register | upvalue
deriving DecidableEq, Repr

/-- Where the value of an expression is. -/
inductive Place where
  /-- No value. -/
  | void
  | nil
  | bool (b : Bool)
  /-- An entry of the constant pool. -/
  | constant (k : Nat)
  /-- Numerals that are not in the pool yet. -/
  | float (d : Double)
  | int (i : Int64)
  /-- A register that is not to be changed. -/
  | fixed (reg : Nat)
  | localVar (reg : Nat)
  | upvalue (index : Nat)
  /-- A field: its table in a register or upvalue, its key as an operand. -/
  | indexed (table key : Nat) (base : TableBase)
  /-- The outcome of a comparison, which takes these jumps; the comparison stands before the
      first. -/
  | compare (jumps : JumpList)
  /-- The instruction there gives the value, into a register still to be chosen. -/
  | pending (pc : Nat)
  /-- The call there. -/
  | call (pc : Nat)
  /-- The instruction there, which copies the variable arguments. -/
  | varargs (pc : Nat)
deriving DecidableEq

namespace Place

def isMulti : Place → Bool
  | call _ | varargs _ => true
  | _ => false

def isVariable : Place → Bool
  | localVar _ | upvalue _ | indexed .. => true
  | _ => false

def register : Place → Nat
  | fixed r | localVar r => r
  | _ => 0

end Place

/-- An expression while its code is written. -/
structure Expr where
  place : Place
  /-- Jumps taken with a true value. -/
  onTrue : JumpList
  /-- Jumps taken with a false value. -/
  onFalse : JumpList
deriving DecidableEq

namespace Expr

def plain (p : Place) : Expr := ⟨p, [], []⟩

def hasJumps (e : Expr) : Bool := !(e.onTrue.isEmpty && e.onFalse.isEmpty)

def ofOperand (x : Nat) : Expr :=
  plain (if Operand.isConstant x then .constant (Operand.constantIndex x) else .fixed x)

/-- The number that an expression is, if it is a numeral. -/
def numeral? (e : Expr) : Option Number :=
  if e.hasJumps then none
  else
    match e.place with
    | .int i => some (.int i)
    | .float d => some (.float d)
    | _ => none

end Expr

inductive BinOp where
  | arith (op : ArithOp)
  | concat
  | eq | lt | le | ne | gt | ge
  | and | or
deriving DecidableEq

namespace BinOp

def ofToken? : Token → Option BinOp
  | .symbol .plus => some (arith .add)
  | .symbol .minus => some (arith .sub)
  | .symbol .star => some (arith .mul)
  | .symbol .percent => some (arith .mod)
  | .symbol .caret => some (arith .pow)
  | .symbol .slash => some (arith .div)
  | .symbol .floorDiv => some (arith .idiv)
  | .symbol .ampersand => some (arith .band)
  | .symbol .pipe => some (arith .bor)
  | .symbol .tilde => some (arith .bxor)
  | .symbol .shiftLeft => some (arith .shl)
  | .symbol .shiftRight => some (arith .shr)
  | .symbol .dotDot => some concat
  | .symbol .equal => some eq
  | .symbol .less => some lt
  | .symbol .lessEq => some le
  | .symbol .notEqual => some ne
  | .symbol .greater => some gt
  | .symbol .greaterEq => some ge
  | .keyword .and => some and
  | .keyword .or => some or
  | _ => none

/-- Left and right priority; the greater one binds. -/
def priority : BinOp → Nat × Nat
  | or => (1, 1)
  | and => (2, 2)
  | eq | lt | le | ne | gt | ge => (3, 3)
  | concat => (9, 8)
  | arith op =>
    match op with
    | .bor => (4, 4)
    | .bxor => (5, 5)
    | .band => (6, 6)
    | .shl | .shr => (7, 7)
    | .add | .sub => (10, 10)
    | .mul | .div | .idiv | .mod => (11, 11)
    | .pow => (14, 13)
    | .unm | .bnot => (12, 12)

end BinOp

inductive UnOp where
  | minus | bnot | not | len
deriving DecidableEq

namespace UnOp

def ofToken? : Token → Option UnOp
  | .symbol .minus => some minus
  | .symbol .tilde => some bnot
  | .keyword .not => some not
  | .symbol .hash => some len
  | _ => none

def priority : Nat := 12

end UnOp

def ArithOp.opcode : ArithOp → Op
  | add => .add | sub => .sub | mul => .mul | mod => .mod | pow => .pow | div => .div
  | idiv => .idiv | band => .band | bor => .bor | bxor => .bxor | shl => .shl | shr => .shr
  | unm => .unm | bnot => .bnot

end LuaMachine
