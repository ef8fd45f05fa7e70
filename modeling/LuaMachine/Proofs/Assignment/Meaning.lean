/-
  MULTIPLE ASSIGNMENT, as it is written and as it is meant: all tables, keys and values are taken first, and
  then stored, the last target first. Said without code and machine.

  * `Assignment.perform` -- **the state after an assignment, and why it has ended early if so**.
-/
import LuaMachine.Compiler.Scope
import LuaMachine.Machine.State
import LuaMachine.Proofs.Meaning.Formula

namespace LuaMachine

/-! ## 1. Syntax -/

inductive Atom where
  | var (x : Bytes)
  | lit (c : Constant)
deriving DecidableEq

inductive Target where
  /-- A variable; the field of the environment if there is none of the name. -/
  | var (x : Bytes)
  | index (table key : Atom)
  | field (table : Atom) (name : Bytes)
deriving DecidableEq

structure Assignment where
  targets : List Target
  values : List Atom
  targeted : targets ≠ []
  valued : values ≠ []

def Token.commas : List (List Token) → List Token
  | [] => []
  | [ts] => ts
  | ts :: more => ts ++ .symbol .comma :: commas more

namespace Atom

def token : Atom → Token
  | var x => .name x
  | lit c => c.token

def tableTokens : Atom → List Token
  | var x => [.name x]
  | lit c => [.symbol .lparen, c.token, .symbol .rparen]

end Atom

namespace Target

def tokens : Target → List Token
  | var x => [.name x]
  | index t k => t.tableTokens ++ [.symbol .lbracket, k.token, .symbol .rbracket]
  | field t x => t.tableTokens ++ [.symbol .dot, .name x]

end Target

def Assignment.tokens (a : Assignment) : List Token :=
  Token.commas (a.targets.map Target.tokens) ++ .symbol .assign :: Token.commas (a.values.map fun e => [e.token])

/-! ## 2. Names -/

abbrev Names := Bytes → Option Variable

def Draft.variableOf? (d : Draft) : Names := fun x =>
  match d.findLocal? x with
  | some r => some (.register r)
  | none => (d.findUpvalue? x).map .upvalue

/-! ## 3. States -/

@[ext] structure Vars where
  regs : Nat → Value
  upvalues : Nat → Value
  tables : Array Table

inductive Refusal where
  /-- What should be a table is none. -/
  | notTable (t : ValueType)
  /-- No value can be stored under the key. -/
  | key (f : TableFault)
deriving DecidableEq

inductive Store where
  | var (v : Variable)
  | field (table key : Value)

namespace Vars

def value (V : Vars) : Variable → Value
  | .register r => V.regs r
  | .upvalue i => V.upvalues i

def setReg (V : Vars) (r : Nat) (v : Value) : Vars :=
  { V with regs := fun i => if i = r then v else V.regs i }

def setUpvalue (V : Vars) (u : Nat) (v : Value) : Vars :=
  { V with upvalues := fun i => if i = u then v else V.upvalues i }

def set (V : Vars) : Variable → Value → Vars
  | .register r => V.setReg r
  | .upvalue u => V.setUpvalue u

/-- A field of what should be a table is set. -/
def setField (V : Vars) (table key v : Value) : Except Refusal Vars :=
  match table with
  | .table id =>
    match (V.tables[id]?.getD .empty).set key v with
    | .error f => .error (.key f)
    | .ok t => .ok { V with tables := V.tables.modify id fun _ => t }
  | t => .error (.notTable t.type)

def store (V : Vars) : Store → Value → Except Refusal Vars
  | .var x, v => .ok (V.set x v)
  | .field t k, v => V.setField t k v

def storeAll : List (Store × Value) → Vars → Vars × Option Refusal
  | [], V => (V, none)
  | (s, v) :: rest, V =>
    match V.store s v with
    | .ok V' => storeAll rest V'
    | .error e => (V, some e)

end Vars

/-! ## 4. Meaning -/

def Atom.eval (N : Names) (V : Vars) : Atom → Value
  | var x => ((N x).map V.value).getD .nil
  | lit c => .ofConstant c

theorem Atom.eval_congr {N : Names} {V V' : Vars} (a : Atom)
    (hregs : ∀ (x : Bytes) (r : Nat), N x = some (.register r) → V'.regs r = V.regs r) (hup : V'.upvalues = V.upvalues) :
    a.eval N V' = a.eval N V := by
  cases a with
  | lit c => rfl
  | var x =>
    rw [Atom.eval, Atom.eval]
    cases hx : N x with
    | none => rfl
    | some v =>
      cases v with
      | register r => exact hregs x r hx
      | upvalue u => exact congrFun hup u

/-- Where a target is. -/
def Target.eval (N : Names) (V : Vars) : Target → Store
  | var x =>
    match N x with
    | some v => .var v
    | none => .field (Atom.eval N V (.var Compile.environmentName)) (.str x)
  | index t k => .field (t.eval N V) (k.eval N V)
  | field t x => .field (t.eval N V) (.str x)

/-- **A multiple assignment**: targets and values are taken in the state before it; there are as many values as
    targets, nil for those that are missing; the last target gets its value first. -/
def Assignment.perform (N : Names) (a : Assignment) (V : Vars) : Vars × Option Refusal :=
  let stores := a.targets.map (Target.eval N V)
  let values := Exec.adjust stores.length (a.values.map (Atom.eval N V))
  Vars.storeAll (stores.zip values).reverse V

end LuaMachine
