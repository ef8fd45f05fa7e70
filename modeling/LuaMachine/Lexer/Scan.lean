/-
  READING ONE TOKEN. Every part of a token is measured first (how many bytes, how many line breaks) and
  taken then, so all readers recurse on the bytes themselves.
-/
import LuaMachine.Lexer.Token
import LuaMachine.Number.Numeral

namespace LuaMachine

/-- Why no token can be read. -/
inductive LexFault where
  | unfinishedString
  | unfinishedLongString
  | unfinishedLongComment
  | badLongDelimiter
  | hexDigitExpected
  | missingOpenBrace
  | missingCloseBrace
  | codePointTooLarge
  | decimalEscapeTooLarge
  | badEscape
  | malformedNumber
  | unexpectedSymbol
deriving DecidableEq, Repr

namespace LexFault

def text : LexFault → String
  | unfinishedString => "unfinished string"
  | unfinishedLongString => "unfinished long string"
  | unfinishedLongComment => "unfinished long comment"
  | badLongDelimiter => "invalid long string delimiter"
  | hexDigitExpected => "hexadecimal digit expected"
  | missingOpenBrace => "missing '\x7b'"
  | missingCloseBrace => "missing '\x7d'"
  | codePointTooLarge => "UTF-8 value too large"
  | decimalEscapeTooLarge => "decimal escape too large"
  | badEscape => "invalid escape sequence"
  | malformedNumber => "malformed number"
  | unexpectedSymbol => "unexpected symbol"

end LexFault

structure LexError where
  fault : LexFault
  line : Nat
  near : String
deriving DecidableEq

namespace LexError

def message (e : LexError) : String := toString e.line ++ ": " ++ e.fault.text

end LexError

structure Extent where
  bytes : Nat
  lines : Nat
deriving DecidableEq, Repr

namespace Extent

def none : Extent := ⟨0, 0⟩

def more (e : Extent) (n : Nat) : Extent := ⟨e.bytes + n, e.lines⟩

def append (e f : Extent) : Extent := ⟨e.bytes + f.bytes, e.lines + f.lines⟩

end Extent

namespace Scan

/-! ## 1. Classes of bytes -/

def isBreak (b : UInt8) : Bool := b == 0x0A || b == 0x0D

def isBlank (b : UInt8) : Bool := b == 0x20 || b == 0x09 || b == 0x0B || b == 0x0C

def isNameStart (b : UInt8) : Bool :=
  (0x61 ≤ b && b ≤ 0x7A) || (0x41 ≤ b && b ≤ 0x5A) || b == 0x5F

def isNamePart (b : UInt8) : Bool := isNameStart b || Numeral.isDigit b

def breakLength : Bytes → Nat
  | a :: b :: _ => if isBreak a then (if isBreak b && a != b then 2 else 1) else 0
  | [a] => if isBreak a then 1 else 0
  | [] => 0

def oneIfAny (s : Bytes) : Nat := if s.isEmpty then 0 else 1

/-! ## 2. Long brackets -/

def longLevel? (s : Bytes) : Option Nat :=
  let signs := s.takeWhile (· == 0x3D)
  match s.drop signs.length with
  | b :: _ => if b == 0x5B then some signs.length else none
  | [] => none

def closes : Nat → Bytes → Bool
  | 0, b :: _ => b == 0x5D
  | n + 1, b :: rest => b == 0x3D && closes n rest
  | _, [] => false

/-- The text up to the closing bracket of `level`, each line break as `\n`: whether it was closed,
    the text (given the part so far, last byte first), and the extent, closing bracket included. -/
def longBody (level : Nat) : Bytes → Bytes → Extent → Bool × Bytes × Extent
  | [], acc, e => (false, acc.reverse, e)
  | b :: rest, acc, e =>
    if b == 0x5D && closes level rest then (true, acc.reverse, e.more (level + 2))
    else if isBreak b then
      match rest with
      | c :: rest' =>
        if isBreak c && c != b then longBody level rest' (0x0A :: acc) ⟨e.bytes + 2, e.lines + 1⟩
        else longBody level (c :: rest') (0x0A :: acc) ⟨e.bytes + 1, e.lines + 1⟩
      | [] => longBody level [] (0x0A :: acc) ⟨e.bytes + 1, e.lines + 1⟩
    else longBody level rest (b :: acc) (e.more 1)

def longText (level : Nat) (s : Bytes) : Bool × Bytes × Extent :=
  let n := breakLength s
  longBody level (s.drop n) [] ⟨n, if n = 0 then 0 else 1⟩

/-! ## 3. Quoted strings -/

/-- Blanks and line breaks at the front. -/
def whiteExtent : Bytes → Extent
  | [] => Extent.none
  | b :: rest =>
    if isBreak b then
      match rest with
      | c :: rest' =>
        if isBreak c && c != b then
          let e := whiteExtent rest'
          ⟨e.bytes + 2, e.lines + 1⟩
        else
          let e := whiteExtent (c :: rest')
          ⟨e.bytes + 1, e.lines + 1⟩
      | [] => ⟨1, 1⟩
    else if isBlank b then (whiteExtent rest).more 1
    else Extent.none

/-- The letter escapes. -/
def simpleEscape? (b : UInt8) : Option UInt8 :=
  match b.toNat with
  | 0x61 => some 0x07
  | 0x62 => some 0x08
  | 0x66 => some 0x0C
  | 0x6E => some 0x0A
  | 0x72 => some 0x0D
  | 0x74 => some 0x09
  | 0x76 => some 0x0B
  | 0x5C | 0x22 | 0x27 => some b
  | _ => none

def codeRoom : Nat := 0x7FFFFFF

def codeDigits : Nat → Nat → Bytes → Bool × Nat × Nat
  | code, n, b :: rest =>
    match Numeral.digit? 16 b with
    | some d => if codeRoom < code then (false, code, n + 1) else codeDigits (code * 16 + d) (n + 1) rest
    | none => (true, code, n)
  | code, n, [] => (true, code, n)

abbrev EscapeResult := Except (LexFault × Extent) (Bytes × Extent)

/-- Two hexadecimal digits, after `\x`. -/
def hexEscape (s : Bytes) : EscapeResult :=
  match s with
  | h :: t =>
    match Numeral.digit? 16 h with
    | none => .error (.hexDigitExpected, ⟨2, 0⟩)
    | some x =>
      match t with
      | l :: _ =>
        match Numeral.digit? 16 l with
        | none => .error (.hexDigitExpected, ⟨3, 0⟩)
        | some y => .ok ([UInt8.ofNat (x * 16 + y)], ⟨3, 0⟩)
      | [] => .error (.hexDigitExpected, ⟨2, 0⟩)
  | [] => .error (.hexDigitExpected, ⟨1, 0⟩)

/-- A code point in braces, after `\u`. -/
def codeEscape (s : Bytes) : EscapeResult :=
  match s with
  | o :: t =>
    if o == 0x7B then
      match codeDigits 0 0 t with
      | (false, _, n) => .error (.codePointTooLarge, ⟨2 + n, 0⟩)
      | (true, code, n) =>
        let rest := t.drop n
        if n = 0 then .error (.hexDigitExpected, ⟨2 + oneIfAny rest, 0⟩)
        else if rest.head? == some 0x7D then .ok (Utf8.extended code, ⟨3 + n, 0⟩)
        else .error (.missingCloseBrace, ⟨2 + n + oneIfAny rest, 0⟩)
    else .error (.missingOpenBrace, ⟨2, 0⟩)
  | [] => .error (.missingOpenBrace, ⟨1, 0⟩)

def decimalEscape (s : Bytes) : EscapeResult :=
  let digits := (s.take 3).takeWhile Numeral.isDigit
  let value := digits.foldl (fun acc b => acc * 10 + (b.toNat - 0x30)) 0
  if 255 < value then
    .error (.decimalEscapeTooLarge, ⟨digits.length + oneIfAny (s.drop digits.length), 0⟩)
  else .ok ([UInt8.ofNat value], ⟨digits.length, 0⟩)

/-- The escape after a backslash; the byte after the backslash is given with what follows it. -/
def escape (b : UInt8) (rest : Bytes) : EscapeResult :=
  match simpleEscape? b with
  | some out => .ok ([out], ⟨1, 0⟩)
  | none =>
    if isBreak b then .ok ([0x0A], ⟨breakLength (b :: rest), 1⟩)
    else if b == 0x78 then hexEscape rest
    else if b == 0x75 then codeEscape rest
    else if b == 0x7A then .ok ([], (whiteExtent rest).more 1)
    else if Numeral.isDigit b then decimalEscape (b :: rest)
    else .error (.badEscape, ⟨1, 0⟩)

/-- How a quoted string ends: closed, with its bytes; or with a fault, which points at the source
    text or at its end. -/
inductive ShortEnd where
  | closed (text : Bytes)
  | fault (f : LexFault) (atEnd : Bool)

/-- The string after its opening quote. `skip` counts the bytes that belong to the escape just
    read, `acc` holds the text so far, last byte first, and `e` what has been taken. -/
def shortBody (quote : UInt8) : Nat → Bytes → Bytes → Extent → ShortEnd × Extent
  | _, [], _, e => (.fault .unfinishedString true, e)
  | skip + 1, _ :: rest, acc, e => shortBody quote skip rest acc e
  | 0, b :: rest, acc, e =>
    if isBreak b then (.fault .unfinishedString false, e)
    else if b == quote then (.closed acc.reverse, e.more 1)
    else if b == 0x5C then
      match rest with
      | [] => (.fault .unfinishedString true, e.more 1)
      | c :: rest' =>
        match escape c rest' with
        | .ok (out, x) =>
          shortBody quote x.bytes (c :: rest') (out.reverse ++ acc) ((e.more 1).append x)
        | .error (f, x) => (.fault f false, (e.more 1).append x)
    else shortBody quote 0 rest (b :: acc) (e.more 1)

/-! ## 4. Between tokens -/

/-- A comment after `--`: whether it is complete, and its extent. -/
def comment (s : Bytes) : Bool × Extent :=
  match s with
  | b :: rest =>
    if b == 0x5B then
      match longLevel? rest with
      | some level =>
        let (closed, _, e) := longText level (rest.drop (level + 1))
        (closed, e.more (level + 2))
      | none => (true, ⟨(s.takeWhile (! isBreak ·)).length, 0⟩)
    else (true, ⟨(s.takeWhile (! isBreak ·)).length, 0⟩)
  | [] => (true, Extent.none)

/-- Blanks, line breaks and comments at the front: whether the last comment is complete, and the
    extent. `skip` counts the bytes of a comment or line break already measured. -/
def blanks : Nat → Bytes → Extent → Bool × Extent
  | _, [], e => (true, e)
  | skip + 1, _ :: rest, e => blanks skip rest e
  | 0, b :: rest, e =>
    if isBreak b then
      let n := breakLength (b :: rest)
      blanks (n - 1) rest ⟨e.bytes + n, e.lines + 1⟩
    else if isBlank b then blanks 0 rest (e.more 1)
    else if b == 0x2D then
      match rest with
      | c :: rest' =>
        if c == 0x2D then
          let (complete, x) := comment rest'
          if complete then blanks (x.bytes + 1) (c :: rest') ((e.more 2).append x)
          else (false, (e.more 2).append x)
        else (true, e)
      | [] => (true, e)
    else (true, e)

/-! ## 5. Numerals and symbols -/

/-- Bytes of a numeral, read greedily: hexadecimal digits, points, and exponent marks with a sign
    after them. -/
def numeralLength (isMark : UInt8 → Bool) : Bytes → Nat
  | [] => 0
  | b :: rest =>
    if isMark b then
      match rest with
      | s :: rest' =>
        if s == 0x2B || s == 0x2D then 2 + numeralLength isMark rest'
        else 1 + numeralLength isMark (s :: rest')
      | [] => 1
    else if Numeral.isHexDigit b || b == 0x2E then 1 + numeralLength isMark rest
    else 0

def numeral (s : Bytes) : Bytes :=
  match Numeral.afterHexMark? s with
  | some rest => s.take (2 + numeralLength (fun b => b == 0x70 || b == 0x50) rest)
  | none => s.take (numeralLength (fun b => b == 0x65 || b == 0x45) s)

/-- The symbol at the front and its length, for bytes that begin no other token; the longer symbol
    is taken. -/
def symbol? (b : UInt8) (next : Option UInt8) : Option (Symbol × Nat) :=
  match Char.ofNat b.toNat, next.map fun n => Char.ofNat n.toNat with
  | '=', some '=' => some (.equal, 2)
  | '<', some '=' => some (.lessEq, 2)
  | '<', some '<' => some (.shiftLeft, 2)
  | '>', some '=' => some (.greaterEq, 2)
  | '>', some '>' => some (.shiftRight, 2)
  | '/', some '/' => some (.floorDiv, 2)
  | '~', some '=' => some (.notEqual, 2)
  | ':', some ':' => some (.doubleColon, 2)
  | '=', _ => some (.assign, 1)
  | '<', _ => some (.less, 1)
  | '>', _ => some (.greater, 1)
  | '/', _ => some (.slash, 1)
  | '~', _ => some (.tilde, 1)
  | ':', _ => some (.colon, 1)
  | '+', _ => some (.plus, 1)
  | '-', _ => some (.minus, 1)
  | '*', _ => some (.star, 1)
  | '%', _ => some (.percent, 1)
  | '^', _ => some (.caret, 1)
  | '#', _ => some (.hash, 1)
  | '&', _ => some (.ampersand, 1)
  | '|', _ => some (.pipe, 1)
  | '(', _ => some (.lparen, 1)
  | ')', _ => some (.rparen, 1)
  | '\x7b', _ => some (.lbrace, 1)
  | '\x7d', _ => some (.rbrace, 1)
  | '[', _ => some (.lbracket, 1)
  | ']', _ => some (.rbracket, 1)
  | ';', _ => some (.semi, 1)
  | ',', _ => some (.comma, 1)
  | _, _ => none

def dotSymbol (rest : Bytes) : Symbol × Nat :=
  match rest with
  | b :: c :: _ => if b == 0x2E then (if c == 0x2E then (.dots, 3) else (.dotDot, 2)) else (.dot, 1)
  | [b] => if b == 0x2E then (.dotDot, 2) else (.dot, 1)
  | [] => (.dot, 1)

def strayByte (b : UInt8) : String :=
  if 0x21 ≤ b && b ≤ 0x7E then "'" ++ (Char.ofNat b.toNat).toString ++ "'"
  else "'<\\" ++ toString b.toNat ++ ">'"

end Scan

structure Cursor where
  rest : Bytes
  offset : Nat
  line : Nat
deriving DecidableEq, Inhabited

namespace Cursor

open Scan

def past (c : Cursor) (e : Extent) : Cursor :=
  ⟨c.rest.drop e.bytes, c.offset + e.bytes, c.line + e.lines⟩

def start (source : Bytes) : Cursor :=
  let c : Cursor := ⟨source, 0, 1⟩
  if source.head? == some 0x23 then c.past ⟨(source.takeWhile (! isBreak ·)).length, 0⟩ else c

def take (c : Cursor) (t : Token) (e : Extent) : Except LexError Lexeme × Cursor :=
  let after := c.past e
  (.ok ⟨t, after.line, c.offset, c.rest.take e.bytes⟩, after)

def failNear (c : Cursor) (f : LexFault) (e : Extent) : Except LexError Lexeme × Cursor :=
  let after := c.past e
  (.error ⟨f, after.line, Lexeme.quote (c.rest.take e.bytes)⟩, after)

def failAtEnd (c : Cursor) (f : LexFault) (e : Extent) : Except LexError Lexeme × Cursor :=
  let after := c.past e
  (.error ⟨f, after.line, "<eof>"⟩, after)

def takeSymbol (c : Cursor) (s : Symbol × Nat) : Except LexError Lexeme × Cursor :=
  c.take (.symbol s.1) ⟨s.2, 0⟩

def scanNumeral (c : Cursor) : Except LexError Lexeme × Cursor :=
  let text := numeral c.rest
  match Numeral.read? text with
  | some (.int i) => c.take (.int i) ⟨text.length, 0⟩
  | some (.float d) => c.take (.float d) ⟨text.length, 0⟩
  | none => c.failNear .malformedNumber ⟨text.length, 0⟩

/-- A long string, or the bracket alone; `rest` follows the `[`. -/
def scanBracket (c : Cursor) (rest : Bytes) : Except LexError Lexeme × Cursor :=
  match longLevel? rest with
  | some level =>
    let (closed, text, e) := longText level (rest.drop (level + 1))
    if closed then c.take (.str text) (e.more (level + 2))
    else c.failAtEnd .unfinishedLongString (e.more (level + 2))
  | none =>
    if rest.head? == some 0x3D then
      c.failNear .badLongDelimiter ⟨1 + (rest.takeWhile (· == 0x3D)).length, 0⟩
    else c.takeSymbol (.lbracket, 1)

def scanQuoted (c : Cursor) (quote : UInt8) (rest : Bytes) : Except LexError Lexeme × Cursor :=
  match shortBody quote 0 rest [] ⟨1, 0⟩ with
  | (.closed text, e) => c.take (.str text) e
  | (.fault f true, e) => c.failAtEnd f e
  | (.fault f false, e) => c.failNear f e

def scanWord (c : Cursor) : Except LexError Lexeme × Cursor :=
  let word := c.rest.takeWhile isNamePart
  match Keyword.ofBytes? word with
  | some k => c.take (.keyword k) ⟨word.length, 0⟩
  | none => c.take (.name word) ⟨word.length, 0⟩

/-- The token that begins here, or the end. -/
def scanHere (c : Cursor) : Except LexError Lexeme × Cursor :=
  match c.rest with
  | [] => c.take .eof Extent.none
  | b :: rest =>
    if b == 0x5B then c.scanBracket rest
    else if b == 0x22 || b == 0x27 then c.scanQuoted b rest
    else if b == 0x2E then
      if rest.head?.any Numeral.isDigit then c.scanNumeral else c.takeSymbol (dotSymbol rest)
    else if Numeral.isDigit b then c.scanNumeral
    else if isNameStart b then c.scanWord
    else match symbol? b rest.head? with
      | some s => c.takeSymbol s
      | none => (.error ⟨.unexpectedSymbol, c.line, strayByte b⟩, c)

def scan (c : Cursor) : Except LexError Lexeme × Cursor :=
  match blanks 0 c.rest Extent.none with
  | (true, e) => (c.past e).scanHere
  | (false, e) => c.failAtEnd .unfinishedLongComment e

end Cursor

end LuaMachine
