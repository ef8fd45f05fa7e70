/-
  DOUBLES, as their 64 bits. The bits decide what a double is: sign, exponent field and fraction, hence its
  exact value, its order and its integer parts. Sums, products, quotients and powers are rounded by the
  hardware.
-/
namespace LuaMachine

structure Double where
  bits : UInt64
deriving DecidableEq, Inhabited

namespace Double

def ofFloat (f : Float) : Double := ⟨f.toBits⟩

def toFloat (d : Double) : Float := Float.ofBits d.bits

def signWeight : Nat := 0x8000000000000000

def exponentWeight : Nat := 0x10000000000000

def negative (d : Double) : Bool := signWeight ≤ d.bits.toNat

def magnitude (d : Double) : Nat := d.bits.toNat % signWeight

def exponentField (d : Double) : Nat := d.magnitude / exponentWeight

def fraction (d : Double) : Nat := d.magnitude % exponentWeight

def isNaN (d : Double) : Bool := d.exponentField = 2047 ∧ d.fraction ≠ 0

def isInfinite (d : Double) : Bool := d.exponentField = 2047 ∧ d.fraction = 0

def isFinite (d : Double) : Bool := d.exponentField < 2047

def ofSigned (neg : Bool) (magnitude : Nat) : Double :=
  ⟨UInt64.ofNat (if neg then signWeight + magnitude else magnitude)⟩

def zero : Double := ⟨0⟩

def nan : Double := ofSigned false (2047 * exponentWeight + exponentWeight / 2)

def infinity (neg : Bool) : Double := ofSigned neg (2047 * exponentWeight)

/-! ## 1. Exact values -/

def unitsPerOne : Nat := 1 <<< 1074

def units (d : Double) : Nat :=
  if d.exponentField = 0 then d.fraction
  else (exponentWeight + d.fraction) <<< (d.exponentField - 1)

def signedUnits (d : Double) : Int := if d.negative then -(d.units : Int) else d.units

def ofUnits (neg : Bool) (u : Nat) : Double :=
  if u < exponentWeight then ofSigned neg u
  else
    let shift := u.log2 - 52
    ofSigned neg ((shift + 1) * exponentWeight + (u >>> shift - exponentWeight))

def floor? (d : Double) : Option Int :=
  if d.isFinite then some (d.signedUnits.fdiv unitsPerOne) else none

def ceil? (d : Double) : Option Int :=
  if d.isFinite then some (-((-d.signedUnits).fdiv unitsPerOne)) else none

def inRange (i : Int) : Bool := -0x8000000000000000 ≤ i ∧ i < 0x8000000000000000

def toInt64? (d : Double) : Option Int64 :=
  match d.floor? with
  | some i => if i * unitsPerOne = d.signedUnits ∧ inRange i then some (Int64.ofInt i) else none
  | none => none

def floorInt64? (d : Double) : Option Int64 :=
  match d.floor? with
  | some i => if inRange i then some (Int64.ofInt i) else none
  | none => none

def ceilInt64? (d : Double) : Option Int64 :=
  match d.ceil? with
  | some i => if inRange i then some (Int64.ofInt i) else none
  | none => none

def castPart (d : Double) (part : Option Int) : Int64 :=
  match part with
  | some i =>
    if inRange i then Int64.ofInt i else if i < 0 then Int64.minValue else Int64.maxValue
  | none => if d.isNaN then 0 else if d.negative then Int64.minValue else Int64.maxValue

def floorWord (d : Double) : Int64 := d.castPart d.floor?

def ceilWord (d : Double) : Int64 := d.castPart d.ceil?

/-! ## 2. Order -/

def rank (d : Double) : Int := if d.negative then -(d.magnitude : Int) else d.magnitude

def lt (a b : Double) : Bool := !a.isNaN && !b.isNaN && a.rank < b.rank

def le (a b : Double) : Bool := !a.isNaN && !b.isNaN && a.rank ≤ b.rank

def eqv (a b : Double) : Bool := !a.isNaN && !b.isNaN && a.rank == b.rank

def wordsEnd : Double := ⟨0x43E0000000000000⟩

def wordsStart : Double := ⟨0xC3E0000000000000⟩

/-! ## 3. Arithmetic -/

def ofInt64 (i : Int64) : Double := ofFloat i.toFloat

def add (a b : Double) : Double := ofFloat (a.toFloat + b.toFloat)

def sub (a b : Double) : Double := ofFloat (a.toFloat - b.toFloat)

def mul (a b : Double) : Double := ofFloat (a.toFloat * b.toFloat)

def div (a b : Double) : Double := ofFloat (a.toFloat / b.toFloat)

def pow (a b : Double) : Double := ofFloat (Float.pow a.toFloat b.toFloat)

def neg (d : Double) : Double := ofSigned (!d.negative) d.magnitude

def floorDiv (a b : Double) : Double := ofFloat (Float.floor (a.toFloat / b.toFloat))

/-- The remainder of a division rounded toward zero. It is exact, and has the sign of the
    dividend; there is none of an infinity or by zero. -/
def remainder (a b : Double) : Double :=
  if a.isNaN ∨ b.isNaN ∨ a.isInfinite ∨ b.magnitude = 0 then nan
  else if b.isInfinite then a
  else ofUnits a.negative (a.units % b.units)

def floorMod (a b : Double) : Double :=
  let m := remainder a b
  if (m.mul b).lt zero then m.add b else m

def twoPow (e : Int) : Double :=
  if e < -1074 then zero
  else if 1023 < e then infinity false
  else ofUnits false (1 <<< (e + 1074).toNat)

end Double

end LuaMachine
