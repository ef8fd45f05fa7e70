/-
  OPERATORS ON VALUES, and the limits of loops. Strings that spell numbers are taken for the numbers.
-/
import LuaMachine.Value.Basic

namespace LuaMachine

inductive OperandFault where
  | notNumber (operand : Nat) (bitwise : Bool)
  | noInteger (operand : Nat)
  | numeric (f : ArithFault)
deriving DecidableEq

namespace Value

def bitwise (op : ArithOp) (a b : Value) : Except OperandFault Value :=
  match a.toInt64?, b.toInt64? with
  | some x, some y => .ok (int (Word.bitwise op x y))
  | x, _ =>
    if a.toNumber?.isSome ∧ b.toNumber?.isSome then .error (.noInteger (if x.isNone then 0 else 1))
    else .error (.notNumber (if a.toNumber?.isNone then 0 else 1) true)

/-- An operator on two values; one with a single operand takes it twice. -/
def arith (op : ArithOp) (a b : Value) : Except OperandFault Value :=
  let b := if op.isUnary then a else b
  if op.isBitwise then bitwise op a b
  else
    match a.toNumber?, b.toNumber? with
    | some x, some y =>
      match Number.apply op x y with
      | .ok n => .ok (ofNumber n)
      | .error f => .error (.numeric f)
    | none, _ => .error (.notNumber 0 false)
    | some _, none => .error (.notNumber 1 false)

/-- The limit of a loop over integers with this step: the last integer that the limit admits, and
    whether it admits none at all. Limits beyond the integers are clipped. -/
def loopLimit? (limit : Value) (step : Int64) : Option (Int64 × Bool) :=
  match limit.toNumber? with
  | none => none
  | some (.int i) => some (i, false)
  | some (.float d) =>
    match if step < 0 then d.ceilInt64? else d.floorInt64? with
    | some i => some (i, false)
    | none =>
      if Double.zero.lt d then some (Int64.maxValue, step < 0) else some (Int64.minValue, 0 < step)

def isJoinable (v : Value) : Bool :=
  match v with
  | str _ | int _ | float _ => true
  | _ => false

/-- The places of the operands of a concatenation in the order in which they are looked at: joined
    from the right, the left one of each pair first. -/
def joinOrder (n : Nat) : List Nat :=
  match n with
  | 0 => []
  | 1 => [0]
  | n + 2 => n :: (n + 1) :: (List.range n).reverse

def concat (vs : List Value) : Except Nat Bytes :=
  match (joinOrder vs.length).find? fun i => !(vs[i]?.getD nil).isJoinable with
  | some i => .error i
  | none => .ok (vs.flatMap fun v => v.concatBytes?.getD [])

end Value

end LuaMachine
