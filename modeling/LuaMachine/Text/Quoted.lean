/-
  QUOTED TEXT, as listings and descriptions of values show strings.
-/
import LuaMachine.Text.Hidden
import LuaMachine.Text.Utf8

namespace LuaMachine.Text

/-- One character inside a quoted text. -/
def quotedChar (c : Char) : String :=
  match c with
  | '"' => "\\\""
  | '\\' => "\\\\"
  | '\t' => "\\t"
  | '\r' => "\\r"
  | '\n' => "\\n"
  | _ =>
    if c.toNat = 0 then "\\0"
    else if isHidden c then "\\u\x7b" ++ hex c.toNat ++ "\x7d"
    else c.toString

def quoted (s : String) : String :=
  s.toList.foldl (fun out c => out ++ quotedChar c) "\"" ++ "\""

def describeBytes (s : Bytes) : String :=
  match s.text? with
  | some t => quoted t
  | none => "<binary string len=" ++ toString s.length ++ ">"

end LuaMachine.Text
