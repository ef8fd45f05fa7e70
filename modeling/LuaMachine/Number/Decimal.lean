/-
  NUMBERS AS TEXT. Integers in full; doubles rounded to fourteen significant digits.
-/
import LuaMachine.Number.Basic

namespace LuaMachine

namespace Decimal

def roundDiv (num den : Nat) : Nat :=
  let q := num / den
  let r := num % den
  if den < 2 * r ∨ (2 * r = den ∧ q % 2 = 1) then q + 1 else q

def leadingZeros : Nat → Nat → Nat → Nat
  | 0, _, _ => 1
  | n + 1, num, den => if den ≤ num * 10 then 1 else leadingZeros n (num * 10) den + 1

def magnitude (num den : Nat) : Int :=
  if den ≤ num then ((Nat.toDigits 10 (num / den)).length : Int) - 1
  else -(leadingZeros 400 num den : Int)

/-- The ratio rounded to `n` significant digits: those digits as a number, and the exponent of the
    first. Rounding may carry into a new first digit. -/
def significant (n : Nat) (num den : Nat) : Nat × Int :=
  let e := magnitude num den
  let shift : Int := n - 1 - e
  let d :=
    if 0 ≤ shift then roundDiv (num * Nat.pow 10 shift.toNat) den
    else roundDiv num (den * Nat.pow 10 (-shift).toNat)
  if Nat.pow 10 n ≤ d then (d / 10, e + 1) else (d, e)

def padded (n : Nat) (d : Nat) : List Char :=
  let ds := Nat.toDigits 10 d
  List.replicate (n - ds.length) '0' ++ ds

def trimZeros (cs : List Char) : List Char := (cs.reverse.dropWhile (· == '0')).reverse

def pointed (whole part : List Char) : List Char :=
  let kept := trimZeros part
  if kept.isEmpty then whole else whole ++ '.' :: kept

/-- Digits `d` (`n` of them) with the exponent `e` of the first: one digit before the point, and
    the exponent with a sign and at least two digits. -/
def scientific (n : Nat) (d : Nat) (e : Int) : List Char :=
  let ds := padded n d
  pointed (ds.take 1) (ds.drop 1) ++
    'e' :: (if e < 0 then '-' else '+') :: padded 2 e.natAbs

def positional (n : Nat) (d : Nat) (e : Int) : List Char :=
  let ds := padded n d
  if 0 ≤ e then pointed (ds.take (e.toNat + 1)) (ds.drop (e.toNat + 1))
  else pointed ['0'] (List.replicate (e.natAbs - 1) '0' ++ ds)

end Decimal

namespace Double

def precision : Nat := 14

def magnitudeText (d : Double) : List Char :=
  if d.magnitude = 0 then ['0']
  else
    let (digits, e) := Decimal.significant precision d.units unitsPerOne
    if e < -4 ∨ precision ≤ e then Decimal.scientific precision digits e
    else Decimal.positional precision digits e

/-- The text of a double. -/
def text (d : Double) : String :=
  let sign := if d.negative then ['-'] else []
  if d.isNaN then String.ofList (sign ++ ['n', 'a', 'n'])
  else if d.isInfinite then String.ofList (sign ++ ['i', 'n', 'f'])
  else
    let body := d.magnitudeText
    let tail := if body.all Char.isDigit then ['.', '0'] else []
    String.ofList (sign ++ body ++ tail)

end Double

namespace Number

def text : Number → String
  | int i => toString i.toInt
  | float d => d.text

end Number

end LuaMachine
