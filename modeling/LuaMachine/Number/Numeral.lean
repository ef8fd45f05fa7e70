/-
  NUMERALS, read from bytes: decimal and hexadecimal, integers and doubles, with a sign and surrounding
  blanks.
-/
import LuaMachine.Number.Basic
import LuaMachine.Text.Utf8

namespace LuaMachine.Numeral

/-! ## 1. Bytes -/

def isSpace (b : UInt8) : Bool := b == 0x20 || (0x09 ≤ b && b ≤ 0x0D)

def isDigit (b : UInt8) : Bool := 0x30 ≤ b && b ≤ 0x39

/-- The value of a digit or letter, if it is below `base`. -/
def digit? (base : Nat) (b : UInt8) : Option Nat :=
  let v? :=
    if isDigit b then some (b.toNat - 0x30)
    else if 0x61 ≤ b && b ≤ 0x7A then some (b.toNat - 0x61 + 10)
    else if 0x41 ≤ b && b ≤ 0x5A then some (b.toNat - 0x41 + 10)
    else none
  match v? with
  | some v => if v < base then some v else none
  | none => none

def isHexDigit (b : UInt8) : Bool := (digit? 16 b).isSome

def trimBy (p : UInt8 → Bool) (s : Bytes) : Bytes :=
  ((s.dropWhile p).reverse.dropWhile p).reverse

def splitSign : Bytes → Bool × Bytes
  | b :: rest => if b == 0x2D then (true, rest) else if b == 0x2B then (false, rest)
    else (false, b :: rest)
  | [] => (false, [])

def afterHexMark? : Bytes → Option Bytes
  | z :: x :: rest => if z == 0x30 && (x == 0x78 || x == 0x58) then some rest else none
  | _ => none

def foldDigits? {α : Type} (base : Nat) (step : α → Nat → α) (start : α) (s : Bytes) : Option α :=
  s.foldlM (fun acc b => (digit? base b).map (step acc)) start

def digitsValue? (base : Nat) (s : Bytes) : Option Nat :=
  foldDigits? base (fun acc d => acc * base + d) 0 s

/-! ## 2. Integers -/

def wordValue? (base : Nat) (s : Bytes) : Option UInt64 :=
  foldDigits? base (fun acc d => acc * UInt64.ofNat base + UInt64.ofNat d) 0 s

def checkedValue? (s : Bytes) : Option Nat :=
  s.foldlM (fun acc b => (digit? 10 b).bind fun d =>
    if acc * 10 + d < UInt64.size then some (acc * 10 + d) else none) 0

def signed (neg : Bool) (w : UInt64) : Int64 := if neg then -w.toInt64 else w.toInt64

def maxInt64 : Nat := 0x7FFFFFFFFFFFFFFF

/-- An integer numeral without blanks. -/
def int? (s : Bytes) : Option Int64 :=
  let (neg, body) := splitSign s
  match afterHexMark? body with
  | some hex => if hex.isEmpty then none else (wordValue? 16 hex).map (signed neg)
  | none =>
    if body.isEmpty then none
    else (checkedValue? body).bind fun n =>
      if maxInt64 + neg.toNat < n then none else some (signed neg (UInt64.ofNat n))

/-! ## 3. Doubles -/

/-- The double nearest to `m * 10^e`. Exponents far beyond the range of doubles are settled by the
    number of digits alone. -/
def decimal (m : Nat) (e : Int) : Double :=
  let digits : Int := (Nat.toDigits 10 m).length
  if m = 0 then Double.zero
  else if 310 < digits + e then Double.infinity false
  else if digits + e < -330 then Double.zero
  else Double.ofFloat (Float.ofScientific m (e < 0) e.natAbs)

/-- Significant digits that are read in full. No double, and no middle between two of them, has as
    many. -/
def digitLimit : Nat := 800

/-- Decimal digits as a number, and how many digits were cut from it. Of the digits behind
    `digitLimit` significant ones only a last 1 is kept, unless they are all zero: it tells that the
    number is above what the digits before denote. -/
def significand? (s : Bytes) : Option (Nat × Nat) :=
  let significant := s.dropWhile (· == 0x30)
  let cut := significant.drop digitLimit
  (digitsValue? 10 (significant.take digitLimit)).map fun m =>
    if cut.all (· == 0x30) then (m, cut.length) else (m * 10 + 1, cut.length - 1)

/-- The exponent after its mark: a sign and at least one decimal digit, to the end. The digits are
    taken in by `step`. -/
def exponent? (step : Nat → Nat → Nat) (s : Bytes) : Option Int :=
  let (neg, digits) := splitSign s
  if digits.isEmpty then none
  else (foldDigits? 10 step 0 digits).map fun (n : Nat) => if neg then -(n : Int) else n

def exponentCap : Nat := 0x10000

def decimalStep (e d : Nat) : Nat := if e < exponentCap then e * 10 + d else e

def binaryStep (e d : Nat) : Nat := min (e * 10 + d) maxInt64

def scaled? (small capital : UInt8) (step : Nat → Nat → Nat) (scale : Int → Double) : Bytes → Option Double
  | [] => some (scale 0)
  | b :: t => if b == small || b == capital then (exponent? step t).map scale else none

def decimalParts (s : Bytes) : Bytes × Bytes × Bytes :=
  let whole := s.takeWhile isDigit
  match s.dropWhile isDigit with
  | 0x2E :: t => (whole, t.takeWhile isDigit, t.dropWhile isDigit)
  | t => (whole, [], t)

/-- A decimal double: digits with at most one point and at least one digit, and perhaps an
    exponent after `e`. -/
def decimalFloat? (s : Bytes) : Option Double :=
  let (whole, part, rest) := decimalParts s
  if (whole ++ part).isEmpty then none
  else match significand? (whole ++ part) with
    | none => none
    | some (m, cut) => scaled? 0x65 0x45 decimalStep (fun e => decimal m (e + cut - part.length)) rest

/-- Take hexadecimal digits and one point: the mantissa (rounded digit by digit), the digits after
    the point, whether there was a digit, and what follows. A second point is refused. -/
def hexMantissa? : Bool → Double → Nat → Bool → Bytes → Option (Double × Nat × Bool × Bytes)
  | _, m, places, some?, [] => some (m, places, some?, [])
  | dot, m, places, some?, b :: rest =>
    if b == 0x2E then
      if dot then none else hexMantissa? true m places some? rest
    else match digit? 16 b with
      | some d =>
        hexMantissa? dot ((m.mul (Double.ofInt64 16)).add (Double.ofInt64 (Int64.ofNat d)))
          (if dot then places + 1 else places) true rest
      | none => some (m, places, some?, b :: rest)

def hexExponentLimit : Int := 2200

/-- A hexadecimal double after `0x`: digits with at most one point and at least one digit, and
    perhaps a binary exponent after `p`. -/
def hexFloat? (s : Bytes) : Option Double :=
  match hexMantissa? false Double.zero 0 false s with
  | none => none
  | some (_, _, false, _) => none
  | some (m, places, true, rest) =>
    scaled? 0x70 0x50 binaryStep
      (fun e => m.mul (Double.twoPow (max (-hexExponentLimit) (min hexExponentLimit (e - 4 * places))))) rest

/-- A double numeral without blanks. -/
def float? (s : Bytes) : Option Double :=
  let (neg, body) := splitSign s
  let v? :=
    match afterHexMark? body with
    | some hex => hexFloat? hex
    | none => decimalFloat? body
  v?.map fun v => if neg then v.neg else v

/-! ## 4. Numbers -/

def read? (s : Bytes) : Option Number :=
  let t := trimBy isSpace s
  if t.isEmpty then none
  else match int? t with
    | some i => some (.int i)
    | none => (float? t).map .float

def readInt64? (s : Bytes) : Option Int64 := (read? s).bind Number.toInt64?

def isBaseSpace (b : UInt8) : Bool := isSpace b && b != 0x0B

def readBase? (s : Bytes) (base : Nat) : Option Int64 :=
  let (neg, digits) := splitSign (trimBy isBaseSpace s)
  if digits.isEmpty then none
  else (wordValue? base digits).map (signed neg)

end LuaMachine.Numeral
