/-
  THE HASH OF A STRING, and which strings count as short.
-/
import LuaMachine.Text.Utf8

namespace LuaMachine.Bytes

def mixByte (h : UInt32) (b : UInt8) : UInt32 :=
  h ^^^ ((h <<< 5) + (h >>> 2) + UInt32.ofNat b.toNat)

/-- Mix the bytes, given from the last one down: the first, and then each that follows `step`
    bytes after; `left` counts the bytes still to come, and the walk ends once fewer than `step`
    are left. -/
def mixFrom (step : Nat) : Nat → Nat → Bytes → UInt32 → UInt32
  | _, _, [], h => h
  | left, 0, b :: rest, h =>
    if left < step then h else mixFrom step (left - 1) (step - 1) rest (mixByte h b)
  | left, skip + 1, _ :: rest, h => mixFrom step (left - 1) skip rest h

def hash32 (s : Bytes) : UInt32 :=
  mixFrom (s.length / 32 + 1) s.length 0 s.reverse (UInt32.ofNat s.length)

def shortLimit : Nat := 40

def isShort (s : Bytes) : Bool := s.length ≤ shortLimit

end LuaMachine.Bytes
