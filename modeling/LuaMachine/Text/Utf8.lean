/-
  BYTES AND CHARACTERS. Strings of the script language are byte sequences; messages, chunk names and
  listings are text.
-/
namespace LuaMachine

abbrev Bytes := List UInt8

namespace Utf8

/-- A character begun: how many continuation bytes it still owes, the least and the greatest
    value of the next one, and the code point so far. -/
structure Owed where
  need : Nat
  low : Nat
  high : Nat
  code : Nat
deriving DecidableEq, Repr

/-- The character that a lead byte begins, if it may begin one of several bytes. -/
def Owed.ofLead? (b : Nat) : Option Owed :=
  if 0xC2 ≤ b ∧ b ≤ 0xDF then some ⟨1, 0x80, 0xBF, b - 0xC0⟩
  else if b = 0xE0 then some ⟨2, 0xA0, 0xBF, 0⟩
  else if b = 0xED then some ⟨2, 0x80, 0x9F, 0xD⟩
  else if 0xE1 ≤ b ∧ b ≤ 0xEF then some ⟨2, 0x80, 0xBF, b - 0xE0⟩
  else if b = 0xF0 then some ⟨3, 0x90, 0xBF, 0⟩
  else if 0xF1 ≤ b ∧ b ≤ 0xF3 then some ⟨3, 0x80, 0xBF, b - 0xF0⟩
  else if b = 0xF4 then some ⟨3, 0x80, 0x8F, 4⟩
  else none

def openPiece (b : Nat) : Option (Option Char) × Option Owed :=
  if b < 0x80 then (some (some (Char.ofNat b)), none)
  else match Owed.ofLead? b with
    | some o => (none, some o)
    | none => (some none, none)

/-- Cut the rest of the bytes, given the character that is under way; `done` holds the pieces cut
    so far, newest first. -/
def cut : Option Owed → List (Option Char) → Bytes → List (Option Char)
  | none, done, [] => done.reverse
  | some _, done, [] => (none :: done).reverse
  | none, done, b :: rest =>
    match openPiece b.toNat with
    | (some p, st) => cut st (p :: done) rest
    | (none, st) => cut st done rest
  | some o, done, b :: rest =>
    if o.low ≤ b.toNat ∧ b.toNat ≤ o.high then
      let code := o.code * 64 + b.toNat % 64
      if o.need ≤ 1 then cut none (some (Char.ofNat code) :: done) rest
      else cut (some ⟨o.need - 1, 0x80, 0xBF, code⟩) done rest
    else
      match openPiece b.toNat with
      | (some p, st) => cut st (p :: none :: done) rest
      | (none, st) => cut st (none :: done) rest

def leadByte (room value : Nat) : UInt8 := UInt8.ofNat (254 - 2 * room + value)

/-- Move six bits at a time from `value` into continuation bytes until the lead has room for the
    rest; every continuation byte halves that room. -/
def spread : Nat → Nat → Nat → Bytes → Bytes
  | 0, value, room, tail => leadByte room value :: tail
  | n + 1, value, room, tail =>
    if value ≤ room then leadByte room value :: tail
    else spread n (value / 64) (room / 2) (UInt8.ofNat (0x80 + value % 64) :: tail)

/-- The shortest sequence for a code point up to `0x7FFFFFFF`: one byte below `0x80`, otherwise a
    lead byte that announces the length and the continuation bytes. -/
def extended (code : Nat) : Bytes :=
  if code < 0x80 then [UInt8.ofNat code] else spread 5 code 0x3F []

end Utf8

namespace Bytes

def ofString (s : String) : Bytes := s.toUTF8.toList

def pieces (s : Bytes) : List (Option Char) := Utf8.cut none [] s

def lossy (s : Bytes) : String :=
  String.ofList (s.pieces.map fun p => p.getD (Char.ofNat 0xFFFD))

def text? (s : Bytes) : Option String := (s.pieces.mapM id).map String.ofList

def less : Bytes → Bytes → Bool
  | _, [] => false
  | [], _ :: _ => true
  | a :: s, b :: t => a < b || (a == b && less s t)

end Bytes

namespace Text

def takeBytes : Nat → List Char → List Char
  | _, [] => []
  | n, c :: cs => if c.utf8Size ≤ n then c :: takeBytes (n - c.utf8Size) cs else []

def takeLastBytes (n : Nat) (cs : List Char) : List Char := (takeBytes n cs.reverse).reverse

def byteLength (cs : List Char) : Nat := cs.foldr (fun c n => c.utf8Size + n) 0

def hex (n : Nat) : String := String.ofList (Nat.toDigits 16 n)

end Text

end LuaMachine
