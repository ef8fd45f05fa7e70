/-
  FORMULAS: expressions of locals and literals with `and`, `or`, `not`, comparisons and parentheses. How
  they are written and what they mean, said without code and machine.
-/
import LuaMachine.Compiler.Expr
import LuaMachine.Value.Basic

namespace LuaMachine

/-! ## 1. Syntax -/

inductive Relation where
  | eq | ne | lt | le | gt | ge
deriving DecidableEq, Repr

namespace Relation

def token : Relation → Token
  | eq => .symbol .equal
  | ne => .symbol .notEqual
  | lt => .symbol .less
  | le => .symbol .lessEq
  | gt => .symbol .greater
  | ge => .symbol .greaterEq

def operator : Relation → BinOp
  | eq => .eq | ne => .ne | lt => .lt | le => .le | gt => .gt | ge => .ge

end Relation

def Constant.token : Constant → Token
  | nil => .keyword .nil
  | bool b => .keyword (if b then .true else .false)
  | int i => .int i
  | float d => .float d
  | str s => .str s

/-- An expression of locals and literals. -/
inductive Formula where
  | var (x : Bytes)
  | lit (k : Constant)
  | paren (e : Formula)
  | not (e : Formula)
  | rel (r : Relation) (a b : Formula)
  | and (a b : Formula)
  | or (a b : Formula)
deriving DecidableEq

namespace Formula

/-- The tokens of a formula, in order. -/
def tokens : Formula → List Token
  | var x => [.name x]
  | lit k => [k.token]
  | paren e => .symbol .lparen :: (e.tokens ++ [.symbol .rparen])
  | not e => .keyword .not :: e.tokens
  | rel r a b => a.tokens ++ r.token :: b.tokens
  | and a b => a.tokens ++ .keyword .and :: b.tokens
  | or a b => a.tokens ++ .keyword .or :: b.tokens

def level : Formula → Nat
  | or .. => 1
  | and .. => 2
  | rel .. => 3
  | _ => UnOp.priority

/-- An operand that binds less tightly than its operator stands in parentheses, also a right operand
    that binds no more tightly: every operator takes its operands from the left. -/
def Grouped : Formula → Prop
  | var _ | lit _ => True
  | paren e => e.Grouped
  | not e => UnOp.priority ≤ e.level ∧ e.Grouped
  | rel _ a b => (3 ≤ a.level ∧ 3 < b.level) ∧ a.Grouped ∧ b.Grouped
  | and a b => (2 ≤ a.level ∧ 2 < b.level) ∧ a.Grouped ∧ b.Grouped
  | or a b => 1 < b.level ∧ a.Grouped ∧ b.Grouped

def Over (names : List Bytes) : Formula → Prop
  | var x => x ∈ names
  | lit _ => True
  | paren e | not e => e.Over names
  | rel _ a b | and a b | or a b => a.Over names ∧ b.Over names

instance decidableGrouped : (e : Formula) → Decidable e.Grouped
  | var _ | lit _ => isTrue trivial
  | paren e => decidableGrouped e
  | not e =>
    have := decidableGrouped e
    inferInstanceAs (Decidable (UnOp.priority ≤ e.level ∧ e.Grouped))
  | rel _ a b =>
    have := decidableGrouped a
    have := decidableGrouped b
    inferInstanceAs (Decidable ((3 ≤ a.level ∧ 3 < b.level) ∧ a.Grouped ∧ b.Grouped))
  | and a b =>
    have := decidableGrouped a
    have := decidableGrouped b
    inferInstanceAs (Decidable ((2 ≤ a.level ∧ 2 < b.level) ∧ a.Grouped ∧ b.Grouped))
  | or a b =>
    have := decidableGrouped a
    have := decidableGrouped b
    inferInstanceAs (Decidable (1 < b.level ∧ a.Grouped ∧ b.Grouped))

instance decidableOver (names : List Bytes) : (e : Formula) → Decidable (e.Over names)
  | var x => inferInstanceAs (Decidable (x ∈ names))
  | lit _ => isTrue trivial
  | paren e | not e => decidableOver names e
  | rel _ a b | and a b | or a b =>
    have := decidableOver names a
    have := decidableOver names b
    inferInstanceAs (Decidable (a.Over names ∧ b.Over names))

end Formula

/-! ## 2. Meaning -/

abbrev Clash := ValueType × ValueType

def Value.ordered (order : Value → Value → Option Bool) (x y : Value) : Except Clash Value :=
  match order x y with
  | some b => .ok (.bool b)
  | none => .error (x.type, y.type)

/-- A comparison of two values. Greater is less the other way round. -/
def Relation.apply : Relation → Value → Value → Except Clash Value
  | eq, x, y => .ok (.bool (x.rawEqual y))
  | ne, x, y => .ok (.bool !(x.rawEqual y))
  | lt, x, y => Value.ordered Value.less? x y
  | le, x, y => Value.ordered Value.lessEq? x y
  | gt, x, y => Value.ordered Value.less? y x
  | ge, x, y => Value.ordered Value.lessEq? y x

/-- The value of a formula for given values of its variables. -/
def Formula.eval (vars : Bytes → Value) : Formula → Except Clash Value
  | var x => .ok (vars x)
  | lit k => .ok (.ofConstant k)
  | paren e => e.eval vars
  | not e => do
    let v ← e.eval vars
    return .bool v.isFalsy
  | rel r a b => do
    let x ← a.eval vars
    let y ← b.eval vars
    r.apply x y
  | and a b => do
    let v ← a.eval vars
    if v.isFalsy then return v else b.eval vars
  | or a b => do
    let v ← a.eval vars
    if v.isFalsy then b.eval vars else return v

/-! ## 3. Locals -/

namespace Scope

def slot? (x : Bytes) : List Bytes → Option Nat
  | [] => none
  | y :: rest =>
    match slot? x rest with
    | some i => some (i + 1)
    | none => if y = x then some 0 else none

def value (names : List Bytes) (vs : List Value) (x : Bytes) : Value :=
  match slot? x names with
  | some i => vs[i]?.getD .nil
  | none => .nil

theorem slot?_lt {x : Bytes} {names : List Bytes} {i : Nat} (h : slot? x names = some i) :
    i < names.length := by
  induction names generalizing i with
  | nil => cases h
  | cons y rest ih =>
    unfold slot? at h
    split at h
    · next k hk =>
      cases h
      exact Nat.succ_lt_succ (ih hk)
    · split at h
      · cases h
        exact Nat.succ_pos _
      · cases h

theorem slot?_of_mem {x : Bytes} {names : List Bytes} (h : x ∈ names) : ∃ i, slot? x names = some i := by
  induction names with
  | nil => cases h
  | cons y rest ih =>
    unfold slot?
    by_cases hx : x ∈ rest
    · obtain ⟨i, hi⟩ := ih hx
      exact ⟨i + 1, by rw [hi]⟩
    · have hy : y = x := ((List.mem_cons.mp h).resolve_right hx).symm
      split
      · exact ⟨_, rfl⟩
      · exact ⟨0, if_pos hy⟩

theorem slot?_append (x y : Bytes) (names : List Bytes) :
    slot? x (names ++ [y]) = if y = x then some names.length else slot? x names := by
  induction names with
  | nil => simp [slot?]
  | cons z rest ih =>
    simp only [List.cons_append, slot?, ih]
    by_cases hy : y = x
    · simp [hy]
    · simp [hy]

end Scope

end LuaMachine
