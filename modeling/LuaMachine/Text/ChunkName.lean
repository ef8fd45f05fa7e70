/-
  CHUNK NAMES. A chunk is named `=name`, `@file` or by its own text; messages show a short form of at most
  59 bytes.
-/
import LuaMachine.Text.Utf8

namespace LuaMachine.ChunkName

def room : Nat := 59

def textRoom : Nat := 45

/-- `=name` is cut at its end, `@file` keeps its end, and any other name is source text, of which
    the start of the first line is shown. -/
def display (name : String) : String :=
  match name.toList with
  | '=' :: rest => String.ofList (Text.takeBytes room rest)
  | '@' :: rest =>
    if Text.byteLength rest ≤ room then String.ofList rest
    else "..." ++ String.ofList (Text.takeLastBytes (room - 3) rest)
  | cs =>
    if Text.byteLength cs < textRoom ∧ '\n' ∉ cs then
      "[string \"" ++ String.ofList cs ++ "\"]"
    else
      "[string \"" ++ String.ofList (Text.takeBytes textRoom (cs.takeWhile (· ≠ '\n'))) ++ "...\"]"

def signature : Bytes := [0x1B, 0x4C, 0x75, 0x61]

/-- The name of a precompiled chunk in a refusal: without its mark, and `binary string` for a name
    that is itself a precompiled chunk. -/
def plain (name : String) : String :=
  match name.toList with
  | '=' :: rest => String.ofList rest
  | '@' :: rest => String.ofList rest
  | cs =>
    if cs.take 4 = [Char.ofNat 0x1B, 'L', 'u', 'a'] then "binary string" else String.ofList cs

end LuaMachine.ChunkName
