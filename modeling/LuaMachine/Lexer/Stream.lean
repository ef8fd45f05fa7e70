/-
  THE TOKENS OF A SOURCE, one at a time with one token of lookahead, or all at once.
-/
import LuaMachine.Lexer.Scan

namespace LuaMachine

/-- A source being read: the current token, the token after it if it has been looked at, the place
    up to which has been read, and the line of the last token passed. -/
structure Lexer where
  cursor : Cursor
  current : Lexeme
  ahead : Option Lexeme
  lastLine : Nat
deriving Inhabited

namespace Lexer

def start (source : Bytes) : Except LexError Lexer :=
  match (Cursor.start source).scan with
  | (.ok x, c) => .ok ⟨c, x, none, 1⟩
  | (.error e, _) => .error e

/-- Pass the current token and give it back; its successor becomes the current one. -/
def next (l : Lexer) : Except LexError Lexeme × Lexer :=
  match l.ahead with
  | some x => (.ok l.current, ⟨l.cursor, x, none, l.current.line⟩)
  | none =>
    match l.cursor.scan with
    | (.ok x, c) => (.ok l.current, ⟨c, x, none, l.current.line⟩)
    | (.error e, c) => (.error e, ⟨c, l.current, none, l.current.line⟩)

/-- The token after the current one. -/
def peek (l : Lexer) : Except LexError Token × Lexer :=
  match l.ahead with
  | some x => (.ok x.token, l)
  | none =>
    match l.cursor.scan with
    | (.ok x, c) => (.ok x.token, { l with cursor := c, ahead := some x })
    | (.error e, c) => (.error e, { l with cursor := c })

/-- Tokens from a place on, given those before (last first) and a bound on their number. -/
def tokensFrom : Nat → Cursor → List Lexeme → List Lexeme × Option LexError
  | 0, _, acc => (acc.reverse, none)
  | n + 1, c, acc =>
    match c.scan with
    | (.error e, _) => (acc.reverse, some e)
    | (.ok x, c') =>
      if x.token = .eof then ((x :: acc).reverse, none) else tokensFrom n c' (x :: acc)

def tokenize (source : Bytes) : List Lexeme × Option LexError :=
  tokensFrom (source.length + 1) (Cursor.start source) []

end Lexer

end LuaMachine
