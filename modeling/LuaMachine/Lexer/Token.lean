/-
  TOKENS of the script language: keywords, symbols, literals, names and the end.
-/
import LuaMachine.Number.Decimal
import LuaMachine.Text.Utf8

namespace LuaMachine

inductive Keyword where
  | and | break | do | else | elseif | end | false | for | function | goto | if | in
  | local | nil | not | or | repeat | return | then | true | until | while
deriving DecidableEq, Repr

namespace Keyword

def all : List Keyword :=
  [.and, .break, .do, .else, .elseif, .end, .false, .for, .function, .goto, .if, .in,
   .local, .nil, .not, .or, .repeat, .return, .then, .true, .until, .while]

def text : Keyword → String
  | .and => "and" | .break => "break" | .do => "do" | .else => "else" | .elseif => "elseif"
  | .end => "end" | .false => "false" | .for => "for" | .function => "function" | .goto => "goto"
  | .if => "if" | .in => "in" | .local => "local" | .nil => "nil" | .not => "not" | .or => "or"
  | .repeat => "repeat" | .return => "return" | .then => "then" | .true => "true"
  | .until => "until" | .while => "while"

def spellings : List (Bytes × Keyword) := all.map fun k => (Bytes.ofString k.text, k)

def ofBytes? (w : Bytes) : Option Keyword := (spellings.find? fun e => e.1 == w).map (·.2)

end Keyword

/-- Operators and punctuation. -/
inductive Symbol where
  | plus | minus | star | slash | percent | caret | hash | ampersand | tilde | pipe
  | less | greater | assign | lparen | rparen | lbrace | rbrace | lbracket | rbracket
  | semi | colon | comma | dot
  | doubleColon | shiftLeft | shiftRight | floorDiv | equal | notEqual | lessEq | greaterEq
  | dotDot | dots
deriving DecidableEq, Repr

namespace Symbol

def text : Symbol → String
  | plus => "+" | minus => "-" | star => "*" | slash => "/" | percent => "%" | caret => "^"
  | hash => "#" | ampersand => "&" | tilde => "~" | pipe => "|" | less => "<" | greater => ">"
  | assign => "=" | lparen => "(" | rparen => ")" | lbrace => "\x7b" | rbrace => "\x7d"
  | lbracket => "[" | rbracket => "]" | semi => ";" | colon => ":" | comma => "," | dot => "."
  | doubleColon => "::" | shiftLeft => "<<" | shiftRight => ">>" | floorDiv => "//"
  | equal => "==" | notEqual => "~=" | lessEq => "<=" | greaterEq => ">=" | dotDot => ".."
  | dots => "..."

end Symbol

/-- What the lexer reads. -/
inductive Token where
  | keyword (k : Keyword)
  | symbol (s : Symbol)
  | int (i : Int64)
  | float (d : Double)
  | str (s : Bytes)
  | name (s : Bytes)
  | eof
deriving DecidableEq, Inhabited

namespace Token

/-- A token as written back: literals by their value, names and strings as they are. -/
def text : Token → String
  | keyword k => k.text
  | symbol s => s.text
  | int i => (Number.int i).text
  | float d => d.text
  | str s => s.lossy
  | name s => s.lossy
  | eof => "<eof>"

/-- A token in "expected" messages: literals by their kind. -/
def described : Token → String
  | name _ => "<name>"
  | str _ => "<string>"
  | int _ => "<integer>"
  | float _ => "<number>"
  | eof => "<eof>"
  | t => "'" ++ t.text ++ "'"

def endsBlock (withUntil : Bool) : Token → Bool
  | keyword .else | keyword .elseif | keyword .end | eof => true
  | keyword .until => withUntil
  | _ => false

end Token

structure Lexeme where
  token : Token
  line : Nat
  start : Nat
  raw : Bytes
deriving DecidableEq, Inhabited

namespace Lexeme

def stop (x : Lexeme) : Nat := x.start + x.raw.length

def quote (s : Bytes) : String := "'" ++ s.lossy ++ "'"

def near (x : Lexeme) : String :=
  match x.token with
  | .eof => "<eof>"
  | .name _ | .str _ | .int _ | .float _ => quote x.raw
  | t => "'" ++ t.text ++ "'"

end Lexeme

end LuaMachine
