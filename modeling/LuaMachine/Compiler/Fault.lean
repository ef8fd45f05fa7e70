/-
  WHY A SOURCE DOES NOT COMPILE: each cause once, its wording in one place.
-/
import LuaMachine.Lexer.Scan

namespace LuaMachine

inductive Limited where
  | locals | upvalues | constants | functions
deriving DecidableEq, Repr

namespace Limited

def text : Limited → String
  | locals => "local variables"
  | upvalues => "upvalues"
  | constants => "constants"
  | functions => "functions"

end Limited

/-- What the code generator takes for granted about registers. It holds whatever the source is; the
    generator checks itself. -/
inductive RegisterRule where
  /-- A register that is given back is the topmost one taken. -/
  | topmost
  /-- A value that is on top of the registers is in one. -/
  | taken
  /-- Where a block begins, only locals hold registers. -/
  | blockEntry
  /-- Where a block ends, the locals from before it are those that remain. -/
  | blockExit
  /-- After a statement the locals hold registers, and those taken are within the frame, which is
      not too large. -/
  | statementEnd
  /-- Values that nobody wants are in registers. -/
  | surplus
  /-- Arguments are above their function. -/
  | arguments
  /-- The function of a tail call is in the register after the locals. -/
  | tailCall
  /-- Values that are returned fill the registers after the locals. -/
  | returned
  /-- The left operand of a concatenation is in the register before the others. -/
  | concat
deriving DecidableEq, Repr

namespace RegisterRule

def text : RegisterRule → String
  | topmost => "register given back out of order"
  | taken => "no register taken"
  | blockEntry => "temporaries at the begin of a block"
  | blockExit => "locals lost in a block"
  | statementEnd => "registers out of bounds after a statement"
  | surplus => "fewer values than counted"
  | arguments => "arguments below their function"
  | tailCall => "tail call not after the locals"
  | returned => "returned values not after the locals"
  | concat => "operands of a concatenation apart"

end RegisterRule

/-- Why a source does not compile. -/
inductive CompileFault where
  /-- No token can be read. -/
  | lexical (f : LexFault)
  /-- Another token than the wanted one. -/
  | expected (t : Token)
  /-- Something opened on another line is not closed. -/
  | expectedToClose (what opener : Token) (line : Nat)
  | parameterExpected
  | loopFormExpected
  | argumentsExpected
  /-- No expression begins with this token. -/
  | unexpectedSymbol
  /-- An expression that is neither a call nor assigned to. -/
  | notAStatement
  /-- Constructs nested too deeply. -/
  | tooDeep
  /-- More than a function may have; line 0 is the main function. -/
  | tooMany (what : Limited) (limit line : Nat)
  | tooManyRegisters
  | jumpTooLong
  | constructorTooLong
  | dotsOutsideVararg
  | jumpsIntoScope (label : Bytes) (line : Nat) (local' : Bytes)
  | labelRepeated (label : Bytes) (line : Nat)
  | noVisibleLabel (label : Bytes) (line : Nat)
  | breakOutsideLoop (line : Nat)
  | cannotOpen (path cause : String)
  /-- A list went on for longer than the source has tokens. -/
  | endless
  /-- The code generator found a rule of its own broken. -/
  | broken (rule : RegisterRule)
deriving DecidableEq

namespace CompileFault

def text : CompileFault → String
  | lexical f => f.text
  | expected t => t.described ++ " expected"
  | expectedToClose what opener line =>
    what.described ++ " expected (to close " ++ opener.described ++ " at line " ++
      toString line ++ ")"
  | parameterExpected => "<name> or '...' expected"
  | loopFormExpected => "'=' or 'in' expected"
  | argumentsExpected => "function arguments expected"
  | unexpectedSymbol => "unexpected symbol"
  | notAStatement => "syntax error"
  | tooDeep => "chunk has too many syntax levels"
  | tooMany what limit line =>
    "too many " ++ what.text ++ " (limit is " ++ toString limit ++ ") in " ++
      (if line = 0 then "main function" else "function at line " ++ toString line)
  | tooManyRegisters => "function or expression needs too many registers"
  | jumpTooLong => "control structure too long"
  | constructorTooLong => "constructor too long"
  | dotsOutsideVararg => "cannot use '...' outside a vararg function"
  | jumpsIntoScope label line name =>
    "<goto " ++ label.lossy ++ "> at line " ++ toString line ++
      " jumps into the scope of local '" ++ name.lossy ++ "'"
  | labelRepeated label line =>
    "label '" ++ label.lossy ++ "' already defined on line " ++ toString line
  | noVisibleLabel label line =>
    "no visible label '" ++ label.lossy ++ "' for goto at line " ++ toString line
  | breakOutsideLoop line => "break at line " ++ toString line ++ " not inside a loop"
  | cannotOpen path cause => "cannot open " ++ path ++ ": " ++ cause
  | endless => "endless list"
  | broken rule => rule.text

end CompileFault

structure CompileError where
  fault : CompileFault
  chunk : String
  line : Nat
  near : Option String
deriving DecidableEq

namespace CompileError

def message (e : CompileError) : String :=
  e.chunk ++ ":" ++ toString e.line ++ ": " ++ e.fault.text ++
    match e.near with
    | some n => " near " ++ n
    | none => ""

end CompileError

end LuaMachine
