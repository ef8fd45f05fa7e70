/-
  WHY A RUN FAILS: each cause once, its wording in one place.
-/
import LuaMachine.Chunk.Fault
import LuaMachine.Compiler.Fault
import LuaMachine.Machine.Naming
import LuaMachine.Value.Arith
import LuaMachine.Value.Table

namespace LuaMachine

/-- What is wrong with an argument. -/
inductive ArgumentFault where
  | missing
  /-- Another type than the wanted one; `none` if there is no argument. -/
  | wrongType (wanted : ValueType) (got : Option ValueType)
  | noInteger
  | indexOutOfRange
  | baseOutOfRange
  | tableOrStringWanted
  | unknownOption (name : String)
deriving DecidableEq

namespace ArgumentFault

def text : ArgumentFault → String
  | missing => "value expected"
  | wrongType wanted got =>
    wanted.text ++ " expected, got " ++
      match got with
      | some t => t.text
      | none => "no value"
  | noInteger => ArithFault.noInteger.text
  | indexOutOfRange => "index out of range"
  | baseOutOfRange => "base out of range"
  | tableOrStringWanted => "table or string expected"
  | unknownOption name => "invalid option '" ++ name ++ "'"

end ArgumentFault

/-- What goes wrong in a running script. Operations on values of a wrong type tell the type, and the
    name of the value if it is known. -/
inductive RuntimeFault where
  | ranPastEnd
  | loadWithoutIndex
  | storeWithoutIndex
  | noUpvalue (i : Nat)
  | noFunction
  | index (t : ValueType) (name : Option Naming)
  | call (t : ValueType) (name : Option Naming)
  | arithmetic (t : ValueType) (name : Option Naming)
  | bitwise (t : ValueType) (name : Option Naming)
  | noInteger (name : Option Naming)
  | numeric (f : ArithFault)
  | concat (t : ValueType) (name : Option Naming)
  | length (t : ValueType) (name : Option Naming)
  | compare (t₁ t₂ : ValueType)
  | loopLimit
  | loopStep
  | loopStart
  | table (f : TableFault)
  | argument (n : Nat) (function : String) (f : ArgumentFault)
  | tooManyResults
  | cannotWrite (cause : String)
deriving DecidableEq

namespace RuntimeFault

def attempt (what : String) (t : ValueType) (name : Option Naming) : String :=
  "attempt to " ++ what ++ " a " ++ t.text ++ " value" ++ Naming.textOf name

def text : RuntimeFault → String
  | ranPastEnd => "execution ran past the end of the function"
  | loadWithoutIndex => "LOADKX without EXTRAARG"
  | storeWithoutIndex => "SETLIST without EXTRAARG"
  | noUpvalue i => "invalid upvalue index " ++ toString i
  | noFunction => "invalid function index"
  | index t name => attempt "index" t name
  | call t name => attempt "call" t name
  | arithmetic t name => attempt "perform arithmetic on" t name
  | bitwise t name => attempt "perform bitwise operation on" t name
  | noInteger name => "number" ++ Naming.textOf name ++ " has no integer representation"
  | numeric f => f.text
  | concat t name => attempt "concatenate" t name
  | length t name => attempt "get length of" t name
  | compare t₁ t₂ =>
    if t₁ = t₂ then "attempt to compare two " ++ t₁.text ++ " values"
    else "attempt to compare " ++ t₁.text ++ " with " ++ t₂.text
  | loopLimit => "'for' limit must be a number"
  | loopStep => "'for' step must be a number"
  | loopStart => "'for' initial value must be a number"
  | table f => f.text
  | argument n function f =>
    "bad argument #" ++ toString n ++ " to '" ++ function ++ "' (" ++ f.text ++ ")"
  | tooManyResults => "too many results to unpack"
  | cannotWrite cause => "cannot write output: " ++ cause

end RuntimeFault

/-- How a call ends without results. -/
inductive Failure where
  /-- A fault of the script, with the place it happened at. -/
  | runtime (place : String) (f : RuntimeFault)
  /-- A value raised by the script. -/
  | raised (v : Value)
  | stackOverflow
  | interrupted
  | compile (e : CompileError)
  | chunk (e : ChunkError)
deriving DecidableEq

namespace Failure

def describe : Value → String
  | .str s => s.lossy
  | .int i => (Value.int i).text
  | .float d => (Value.float d).text
  | v => "(error object is a " ++ v.type.text ++ " value)"

def message : Failure → String
  | runtime place f => place ++ f.text
  | raised v => describe v
  | stackOverflow => "stack overflow"
  | interrupted => "execution interrupted"
  | compile e => e.message
  | chunk e => e.message

def toValue : Failure → Value
  | raised v => v
  | f => .ofString f.message

def isCatchable : Failure → Bool
  | interrupted => false
  | _ => true

end Failure

end LuaMachine
