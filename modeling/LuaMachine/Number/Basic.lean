/-
  NUMBERS AND THEIR OPERATORS. A number is a 64-bit integer or a double; integer arithmetic wraps, division
  and powers give doubles, bitwise operators want integers.
-/
import LuaMachine.Number.Double

namespace LuaMachine

inductive Number where
  | int (i : Int64)
  | float (d : Double)
deriving DecidableEq, Inhabited

inductive ArithOp where
  | add | sub | mul | mod | pow | div | idiv
  | band | bor | bxor | shl | shr
  | unm | bnot
deriving DecidableEq, Repr

inductive ArithFault where
  | modByZero
  | divByZero
  | noInteger
deriving DecidableEq, Repr

namespace ArithFault

def text : ArithFault → String
  | modByZero => "attempt to perform 'n%%0'"
  | divByZero => "attempt to perform 'n//0'"
  | noInteger => "number has no integer representation"

end ArithFault

namespace ArithOp

def isBitwise : ArithOp → Bool
  | band | bor | bxor | shl | shr | bnot => true
  | _ => false

def isUnary : ArithOp → Bool
  | unm | bnot => true
  | _ => false

end ArithOp

namespace Word

/-- The quotient rounded down. The processor's quotient is rounded toward zero, so it is one too
    great when it is inexact and the signs differ; the quotient by `-1` wraps. -/
def floorDiv (a b : Int64) : Except ArithFault Int64 :=
  if b = 0 then .error .divByZero
  else if b = -1 then .ok (-a)
  else
    let q := a / b
    .ok (if a % b ≠ 0 ∧ a ^^^ b < 0 then q - 1 else q)

def floorMod (a b : Int64) : Except ArithFault Int64 :=
  if b = 0 then .error .modByZero
  else if b = -1 then .ok 0
  else
    let r := a % b
    .ok (if r ≠ 0 ∧ r ^^^ b < 0 then r + b else r)

def shift (x n : Int64) : Int64 :=
  if n ≤ -64 ∨ 64 ≤ n then 0
  else if 0 ≤ n then (x.toUInt64 <<< n.toUInt64).toInt64
  else (x.toUInt64 >>> (-n).toUInt64).toInt64

/-- A bitwise operator on words; the arithmetic ones give their left operand back. -/
def bitwise (op : ArithOp) (a b : Int64) : Int64 :=
  match op with
  | .band => a &&& b
  | .bor => a ||| b
  | .bxor => a ^^^ b
  | .shl => shift a b
  | .shr => shift a (-b)
  | .bnot => ~~~a
  | _ => a

/-- An operator on two integers that gives an integer. -/
def apply (op : ArithOp) (a b : Int64) : Except ArithFault Int64 :=
  match op with
  | .add => .ok (a + b)
  | .sub => .ok (a - b)
  | .mul => .ok (a * b)
  | .mod => floorMod a b
  | .idiv => floorDiv a b
  | .unm => .ok (-a)
  | _ => .ok (bitwise op a b)

end Word

namespace Double

/-- An arithmetic operator on doubles; the bitwise ones give their left operand back. -/
def apply (op : ArithOp) (a b : Double) : Double :=
  match op with
  | .add => a.add b
  | .sub => a.sub b
  | .mul => a.mul b
  | .div => a.div b
  | .pow => a.pow b
  | .idiv => a.floorDiv b
  | .mod => a.floorMod b
  | .unm => a.neg
  | _ => a

end Double

namespace Number

def toDouble : Number → Double
  | int i => Double.ofInt64 i
  | float d => d

def toInt64? : Number → Option Int64
  | int i => some i
  | float d => d.toInt64?

def isFloat : Number → Bool
  | int _ => false
  | float _ => true

/-- An operator on two numbers. Bitwise operators ask an integer of both operands, also the unary
    one; division and power always give doubles; two integers otherwise give an integer. -/
def apply (op : ArithOp) (a b : Number) : Except ArithFault Number :=
  if op.isBitwise then
    match a.toInt64?, b.toInt64? with
    | some x, some y => .ok (int (Word.bitwise op x y))
    | _, _ => .error .noInteger
  else
    match op, a, b with
    | .div, _, _ => .ok (float (a.toDouble.div b.toDouble))
    | .pow, _, _ => .ok (float (a.toDouble.pow b.toDouble))
    | _, int x, int y => (Word.apply op x y).map int
    | _, _, _ => .ok (float (Double.apply op a.toDouble b.toDouble))

end Number

end LuaMachine
