/-
  COMPILED FUNCTIONS: code, constants, nested functions, and what is kept to explain errors (lines, names of
  locals and upvalues, the source's name).
-/
import LuaMachine.Code.Instr
import LuaMachine.Number.Decimal
import LuaMachine.Text.Quoted

namespace LuaMachine

/-- A literal in the pool of a function. -/
inductive Constant where
  | nil
  | bool (b : Bool)
  | int (i : Int64)
  | float (d : Double)
  | str (s : Bytes)
deriving DecidableEq, Inhabited

namespace Constant

def text : Constant → String
  | nil => "nil"
  | bool b => if b then "true" else "false"
  | int i => (Number.int i).text
  | float d => d.text
  | str s => Text.quoted s.lossy

end Constant

/-- Where a closure finds a captured variable when it is made: in a register of the function that
    makes it, or among that function's own captured variables. -/
structure UpvalueDesc where
  name : Option Bytes
  inStack : Bool
  index : UInt8
deriving DecidableEq

/-- A local variable and the instructions during which it lives: from `start` until before
    `stop`. -/
structure LocalRange where
  name : Bytes
  start : UInt32
  stop : UInt32
deriving DecidableEq

/-- A compiled function. -/
structure Proto where
  code : Array Instr
  constants : Array Constant
  protos : List Proto
  upvalues : List UpvalueDesc
  params : UInt8
  isVararg : Bool
  maxStack : UInt8
  source : Option Bytes
  lineDefined : UInt32
  lastLine : UInt32
  lines : Array UInt32
  locals : List LocalRange
deriving Inhabited

namespace Proto

def lineAt (p : Proto) (pc : Nat) : Nat := (p.lines[pc]?.getD 0).toNat

/-- The `n`-th local (from 1) of those that live at `pc`, in order of declaration. The ranges are
    sorted by their start, so the first that starts later ends the search. -/
def localName? (p : Proto) (n pc : Nat) : Option Bytes := go p.locals n
where
  go : List LocalRange → Nat → Option Bytes
    | [], _ => none
    | v :: rest, n =>
      if pc < v.start.toNat then none
      else if pc < v.stop.toNat then if n ≤ 1 then some v.name else go rest (n - 1)
      else go rest n

mutual

def strip (p : Proto) : Proto :=
  match p with
  | ⟨code, constants, protos, upvalues, params, isVararg, maxStack, _, lineDefined, lastLine, _, _⟩ =>
    ⟨code, constants, stripAll protos, upvalues.map fun u => { u with name := none }, params,
      isVararg, maxStack, none, lineDefined, lastLine, #[], []⟩

def stripAll : List Proto → List Proto
  | [] => []
  | p :: rest => strip p :: stripAll rest

end

mutual

def same (p q : Proto) : Bool :=
  match p, q with
  | ⟨code, ks, ps, us, n, v, m, s, l, e, li, lo⟩, ⟨code', ks', ps', us', n', v', m', s', l', e', li', lo'⟩ =>
    code == code' && ks == ks' && us == us' && n == n' && v == v' && m == m' && s == s' &&
      l == l' && e == e' && li == li' && lo == lo' && sameAll ps ps'

def sameAll : List Proto → List Proto → Bool
  | [], [] => true
  | p :: ps, q :: qs => same p q && sameAll ps qs
  | _, _ => false

end

structure Totals where
  functions : Nat
  code : Nat
  constants : Nat

mutual

def totals (p : Proto) : Totals :=
  match p with
  | ⟨code, constants, protos, _, _, _, _, _, _, _, _, _⟩ =>
    let t := totalsAll protos
    ⟨t.functions + 1, t.code + code.size, t.constants + constants.size⟩

def totalsAll : List Proto → Totals
  | [] => ⟨0, 0, 0⟩
  | p :: rest =>
    let t := totals p
    let u := totalsAll rest
    ⟨t.functions + u.functions, t.code + u.code, t.constants + u.constants⟩

end

end Proto

end LuaMachine
