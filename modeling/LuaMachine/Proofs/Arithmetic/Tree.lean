/-
  ARITHMETIC: expressions of numerals and operators. How they are written and what they come to, said
  without code and machine; and what the compiler applies at once.

  * **`fold?_binary`**, **`fold?_unary`** -- what is applied at once is what would come out later.
-/
import LuaMachine.Compiler.Operator
import LuaMachine.Value.Arith

namespace LuaMachine

/-! ## 1. Syntax -/

inductive Binary where
  | add | sub | mul | mod | pow | div | idiv | band | bor | bxor | shl | shr
deriving DecidableEq, Repr

namespace Binary

def token : Binary → Token
  | add => .symbol .plus
  | sub => .symbol .minus
  | mul => .symbol .star
  | mod => .symbol .percent
  | pow => .symbol .caret
  | div => .symbol .slash
  | idiv => .symbol .floorDiv
  | band => .symbol .ampersand
  | bor => .symbol .pipe
  | bxor => .symbol .tilde
  | shl => .symbol .shiftLeft
  | shr => .symbol .shiftRight

def operator : Binary → ArithOp
  | add => .add | sub => .sub | mul => .mul | mod => .mod | pow => .pow | div => .div
  | idiv => .idiv | band => .band | bor => .bor | bxor => .bxor | shl => .shl | shr => .shr

def priority (op : Binary) : Nat × Nat := (BinOp.arith op.operator).priority

theorem ofToken (op : Binary) : BinOp.ofToken? op.token = some (.arith op.operator) := by
  cases op <;> rfl

theorem not_unary (op : Binary) : op.operator.isUnary = false := by
  cases op <;> rfl

end Binary

inductive Unary where
  | minus | bnot
deriving DecidableEq, Repr

namespace Unary

def token : Unary → Token
  | minus => .symbol .minus
  | bnot => .symbol .tilde

def operator : Unary → ArithOp
  | minus => .unm
  | bnot => .bnot

def unary : Unary → UnOp
  | minus => .minus
  | bnot => .bnot

theorem ofToken (op : Unary) : UnOp.ofToken? op.token = some op.unary := by
  cases op <;> rfl

theorem is_unary (op : Unary) : op.operator.isUnary = true := by
  cases op <;> rfl

end Unary

def Number.token : Number → Token
  | int i => .int i
  | float d => .float d

inductive Tree where
  | num (n : Number)
  | paren (e : Tree)
  | un (op : Unary) (e : Tree)
  | bin (op : Binary) (a b : Tree)
deriving DecidableEq

namespace Tree

def tokens : Tree → List Token
  | num n => [n.token]
  | paren e => .symbol .lparen :: (e.tokens ++ [.symbol .rparen])
  | un op e => op.token :: e.tokens
  | bin op a b => a.tokens ++ op.token :: b.tokens

def height : Tree → Nat
  | num _ => 1
  | paren e | un _ e => e.height + 1
  | bin _ a b => max a.height (b.height + 1)

def count : Tree → Nat
  | num _ => 1
  | paren e | un _ e => e.count
  | bin _ a b => a.count + b.count

def atomic : Nat := 15

/-- How tightly those operators bind their left operand that an operator before the tree could take it
    from. -/
def left : Tree → Nat
  | bin op a _ => min op.priority.1 a.left
  | _ => atomic

/-- How tightly those operators bind their right operand that an operator behind the tree could take it
    from. -/
def right : Tree → Nat
  | num _ | paren _ => atomic
  | un _ e => min UnOp.priority e.right
  | bin op _ b => min op.priority.2 b.right

def Grouped : Tree → Prop
  | num _ => True
  | paren e => e.Grouped
  | un _ e => UnOp.priority < e.left ∧ e.Grouped
  | bin op a b => (op.priority.1 ≤ a.right ∧ op.priority.2 < b.left) ∧ a.Grouped ∧ b.Grouped

instance decidableGrouped : (e : Tree) → Decidable e.Grouped
  | num _ => isTrue trivial
  | paren e => decidableGrouped e
  | un _ e =>
    have := decidableGrouped e
    inferInstanceAs (Decidable (UnOp.priority < e.left ∧ e.Grouped))
  | bin op a b =>
    have := decidableGrouped a
    have := decidableGrouped b
    inferInstanceAs (Decidable ((op.priority.1 ≤ a.right ∧ op.priority.2 < b.left) ∧ a.Grouped ∧ b.Grouped))

/-! ## 2. Meaning -/

/-- The value of a tree, or the first operator that has no result. -/
def eval : Tree → Except OperandFault Value
  | num n => .ok (.ofNumber n)
  | paren e => e.eval
  | un op e => do
    let v ← e.eval
    Value.arith op.operator v v
  | bin op a b => do
    let x ← a.eval
    let y ← b.eval
    Value.arith op.operator x y

theorem height_pos (e : Tree) : 0 < e.height := by
  cases e with
  | num => exact Nat.one_pos
  | paren | un => exact Nat.succ_pos _
  | bin op a b => exact Nat.lt_of_lt_of_le (Nat.succ_pos _) (Nat.le_max_right ..)

theorem count_pos (e : Tree) : 0 < e.count := by
  induction e with
  | num => exact Nat.one_pos
  | paren _ ih | un _ _ ih => exact ih
  | bin op a b iha _ => exact Nat.add_pos_left iha _

theorem left_pos (e : Tree) : 0 < e.left := by
  induction e with
  | num | paren | un => exact (by decide : 0 < atomic)
  | bin op a b iha _ => exact Nat.lt_min.mpr ⟨by cases op <;> decide, iha⟩

end Tree

/-! ## 3. What is applied at once -/

namespace Value

theorem toNumber?_ofNumber (n : Number) : (Value.ofNumber n).toNumber? = some n := by
  cases n <;> rfl

theorem arith_ofNumber {op : ArithOp} {a b c : Number} (h : Number.apply op a b = .ok c)
    (hb : op.isUnary = true → b = a) : arith op (.ofNumber a) (.ofNumber b) = .ok (.ofNumber c) := by
  have hoperand : (if op.isUnary then Value.ofNumber a else .ofNumber b) = .ofNumber b := by
    split
    · next hu => rw [hb hu]
    · rfl
  unfold arith
  rw [hoperand]
  dsimp only
  unfold Number.apply at h
  by_cases hw : op.isBitwise = true
  · rw [if_pos hw] at h ⊢
    unfold Value.bitwise Value.toInt64?
    rw [toNumber?_ofNumber, toNumber?_ofNumber, Option.bind_some, Option.bind_some]
    cases hx : a.toInt64? with
    | none =>
      rw [hx] at h
      cases h
    | some x =>
      cases hy : b.toInt64? with
      | none =>
        rw [hx, hy] at h
        cases h
      | some y =>
        rw [hx, hy] at h
        cases h
        rfl
  · have happly : Number.apply op a b = .ok c := by
      unfold Number.apply
      exact h
    rw [if_neg hw, toNumber?_ofNumber, toNumber?_ofNumber]
    dsimp only
    rw [happly]

end Value

theorem Number.apply_unary {op : ArithOp} {a : Number} (hu : op.isUnary = true) (i : Int64) {c : Number} (h : Number.apply op a (.int i) = .ok c) :
    Number.apply op a a = .ok c := by
  cases op <;> first | cases hu | skip
  · cases a <;> exact h
  · cases a with
    | int x => exact h
    | float d =>
      unfold Number.apply at h ⊢
      simp only [ArithOp.isBitwise, if_true, Number.toInt64?] at h ⊢
      cases hd : d.toInt64? with
      | none =>
        rw [hd] at h
        cases h
      | some x =>
        rw [hd] at h
        exact h

def Number.expr : Number → Expr
  | int i => .plain (.int i)
  | float d => .plain (.float d)

theorem Number.numeral?_expr (n : Number) : n.expr.numeral? = some n := by
  cases n <;> rfl

namespace Compile

variable {op : ArithOp} {a b : Number} {e : Expr}

theorem fold?_some (h : fold? op a.expr b.expr = some e) : ∃ c, Number.apply op a b = .ok c ∧ e = c.expr := by
  unfold fold? at h
  rw [Number.numeral?_expr, Number.numeral?_expr] at h
  dsimp only at h
  split at h
  · split at h
    · next i hi => exact ⟨.int i, hi, (Option.some.inj h).symm⟩
    · next d hd =>
      split at h
      · cases h
      · exact ⟨.float d, hd, (Option.some.inj h).symm⟩
    · cases h
  · cases h

/-- **Two numerals are joined as their values would be.** -/
theorem fold?_binary (hu : op.isUnary = false) (h : fold? op a.expr b.expr = some e) :
    ∃ c : Number, e = c.expr ∧ Value.arith op (.ofNumber a) (.ofNumber b) = .ok (.ofNumber c) := by
  obtain ⟨c, happly, he⟩ := fold?_some h
  exact ⟨c, he, Value.arith_ofNumber happly fun h => by rw [hu] at h; cases h⟩

/-- **A numeral is changed as its value would be.** -/
theorem fold?_unary (hu : op.isUnary = true) (h : fold? op a.expr (.plain (.int 0)) = some e) :
    ∃ c : Number, e = c.expr ∧ Value.arith op (.ofNumber a) (.ofNumber a) = .ok (.ofNumber c) := by
  obtain ⟨c, happly, he⟩ := fold?_some (b := .int 0) h
  exact ⟨c, he, Value.arith_ofNumber (Number.apply_unary hu 0 happly) fun _ => rfl⟩

theorem fold?_none {e1 e2 : Expr} (h : e1.numeral? = none ∨ e2.numeral? = none) : fold? op e1 e2 = none := by
  unfold fold?
  rcases h with h | h
  · rw [h]
  · rw [h]
    cases e1.numeral? <;> rfl

end Compile

end LuaMachine
