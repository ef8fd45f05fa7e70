/-
  VALUES of the script language. Tables and functions are known by their number in a machine; everything
  else is what it is.
-/
import LuaMachine.Code.Proto
import LuaMachine.Number.Numeral

namespace LuaMachine

inductive ValueType where
  | nil | boolean | number | string | table | function
deriving DecidableEq, Repr

namespace ValueType

def text : ValueType → String
  | nil => "nil"
  | boolean => "boolean"
  | number => "number"
  | string => "string"
  | table => "table"
  | function => "function"

end ValueType

/-- A value. -/
inductive Value where
  | nil
  | bool (b : Bool)
  | int (i : Int64)
  | float (d : Double)
  | str (s : Bytes)
  | table (id : Nat)
  | function (id : Nat)
deriving DecidableEq, Inhabited

namespace Value

def ofString (s : String) : Value := str (Bytes.ofString s)

def ofNumber : Number → Value
  | .int i => int i
  | .float d => float d

def ofConstant : Constant → Value
  | .nil => nil
  | .bool b => bool b
  | .int i => int i
  | .float d => float d
  | .str s => str s

def type : Value → ValueType
  | nil => .nil
  | bool _ => .boolean
  | int _ | float _ => .number
  | str _ => .string
  | table _ => .table
  | function _ => .function

def isNil : Value → Bool
  | nil => true
  | _ => false

def isFalsy : Value → Bool
  | nil | bool false => true
  | _ => false

/-! ## 1. Conversions -/

def number? : Value → Option Number
  | int i => some (.int i)
  | float d => some (.float d)
  | _ => none

def toNumber? : Value → Option Number
  | str s => Numeral.read? s
  | v => v.number?

def toInt64? (v : Value) : Option Int64 := v.toNumber?.bind Number.toInt64?

def concatBytes? : Value → Option Bytes
  | str s => some s
  | v => v.number?.map fun n => Bytes.ofString n.text

/-- The text of a value. Tables and functions show their number. -/
def text : Value → String
  | nil => "nil"
  | bool b => if b then "true" else "false"
  | int i => (Number.int i).text
  | float d => d.text
  | str s => s.lossy
  | table id => "table: 0x" ++ Text.hex id
  | function id => "function: 0x" ++ Text.hex id

def textBytes : Value → Bytes
  | str s => s
  | v => Bytes.ofString v.text

def quotedText : Value → String
  | str s => Text.quoted s.lossy
  | v => v.text

/-! ## 2. Equality and order -/

def rawEqual : Value → Value → Bool
  | float a, float b => a.eqv b
  | int i, float d | float d, int i => d.toInt64? = some i
  | a, b => a = b

/-- How a word and a double compare, without rounding the word. NaN compares with nothing; a double
    above all words gives `above`, one below them the opposite, and one between them gives `inside`. -/
def mixed (d : Double) (above inside : Bool) : Bool :=
  if d.isNaN then false
  else if Double.wordsEnd.le d then above
  else if d.lt Double.wordsStart then !above
  else inside

def intLess (i : Int64) (d : Double) : Bool := mixed d true (i < d.ceilWord)

def intLessEq (i : Int64) (d : Double) : Bool := mixed d true (i ≤ d.floorWord)

def floatLess (d : Double) (i : Int64) : Bool := mixed d false (d.floorWord < i)

def floatLessEq (d : Double) (i : Int64) : Bool := mixed d false (d.ceilWord ≤ i)

/-- Whether a number or string comes before another; `none` if they have no order. -/
def less? : Value → Value → Option Bool
  | int a, int b => some (a < b)
  | float a, float b => some (a.lt b)
  | int a, float b => some (intLess a b)
  | float a, int b => some (floatLess a b)
  | str a, str b => some (a.less b)
  | _, _ => none

/-- Whether a number or string does not come after another; `none` if they have no order. -/
def lessEq? : Value → Value → Option Bool
  | int a, int b => some (a ≤ b)
  | float a, float b => some (a.le b)
  | int a, float b => some (intLessEq a b)
  | float a, int b => some (floatLessEq a b)
  | str a, str b => some (!b.less a)
  | _, _ => none

end Value

end LuaMachine
