/-
  THE GRAMMAR OF OPERATORS, one nonterminal for each priority. Operands are not looked into: the grammar is
  about the operators and parentheses between them.

  * **`Item.Sequence.derives`** -- every sequence has a parse tree.  That it has no second one is in
    `Climbing`.
-/
import LuaMachine.Compiler.Expr

namespace LuaMachine

/-! ## 1. Sequences -/

inductive Item where
  | operand (tokens : List Token)
  | mark (t : Token)
deriving DecidableEq

namespace Item

abbrev opening : Item := .mark (.symbol .lparen)

abbrev closing : Item := .mark (.symbol .rparen)

/-- **Operands joined by binary operators**, with unary operators in front of operands, and with sequences in
    parentheses. Nothing is said about priorities. -/
inductive Sequence : List Item → Prop where
  | operand (u : List Token) : Sequence [.operand u]
  | group {items : List Item} (h : Sequence items) : Sequence (opening :: items ++ [closing])
  | unary {t : Token} {op : UnOp} {items : List Item} (ht : UnOp.ofToken? t = some op) (h : Sequence items) :
      Sequence (.mark t :: items)
  | join {t : Token} {op : BinOp} {left right : List Item} (ht : BinOp.ofToken? t = some op) (hl : Sequence left)
      (hr : Sequence right) : Sequence (left ++ .mark t :: right)

end Item

/-! ## 2. The stratified grammar -/

namespace BinOp

/-- The line of the operator table that an operator stands on, from the one that binds least; unary operators
    are on line 11. -/
def stratum : BinOp → Nat
  | or => 1
  | and => 2
  | lt | gt | le | ge | ne | eq => 3
  | arith .bor => 4
  | arith .bxor => 5
  | arith .band => 6
  | arith .shl | arith .shr => 7
  | concat => 8
  | arith .add | arith .sub => 9
  | arith .mul | arith .div | arith .idiv | arith .mod => 10
  | arith .unm | arith .bnot => 11
  | arith .pow => 12

end BinOp

inductive OpTree where
  | operand (tokens : List Token)
  | group (inner : OpTree)
  | unary (op : UnOp) (arg : OpTree)
  | binary (op : BinOp) (left right : OpTree)
deriving DecidableEq

open Item

/-- **The stratified grammar.** Each line of the table has a nonterminal; 13 is that of operands and parentheses, 1
    that of whole expressions. An operator that associates to the left has its own nonterminal on its left and the
    next one on its right. -/
inductive Derives : Nat → List Item → OpTree → Prop where
  | operand (u : List Token) : Derives 13 [.operand u] (.operand u)
  | group {items : List Item} {t : OpTree} (h : Derives 1 items t) :
      Derives 13 (opening :: items ++ [closing]) (.group t)
  /-- `^` associates to the right, and its right operand may begin with a unary operator. -/
  | power {mark : Token} {left right : List Item} {l r : OpTree} (hm : BinOp.ofToken? mark = some (.arith .pow))
      (hl : Derives 13 left l) (hr : Derives 11 right r) :
      Derives 12 (left ++ .mark mark :: right) (.binary (.arith .pow) l r)
  | unary {mark : Token} {op : UnOp} {items : List Item} {t : OpTree} (hm : UnOp.ofToken? mark = some op)
      (h : Derives 11 items t) : Derives 11 (.mark mark :: items) (.unary op t)
  /-- `..` associates to the right. -/
  | concat {mark : Token} {left right : List Item} {l r : OpTree} (hm : BinOp.ofToken? mark = some .concat)
      (hl : Derives 9 left l) (hr : Derives 8 right r) :
      Derives 8 (left ++ .mark mark :: right) (.binary .concat l r)
  /-- All other binary operators associate to the left. -/
  | left {mark : Token} {op : BinOp} {left right : List Item} {l r : OpTree} (hm : BinOp.ofToken? mark = some op)
      (hc : op ≠ .concat) (hp : op ≠ .arith .pow) (hl : Derives op.stratum left l)
      (hr : Derives (op.stratum + 1) right r) :
      Derives op.stratum (left ++ .mark mark :: right) (.binary op l r)
  | up {k : Nat} {items : List Item} {t : OpTree} (h : Derives (k + 1) items t) : Derives k items t

namespace Derives

variable {k : Nat} {items : List Item} {t : OpTree} {mark : Token}

theorem lower {j : Nat} (h : Derives k items t) (hj : j ≤ k) : Derives j items t := by
  induction hj with
  | refl => exact h
  | step _ ih => exact ih h.up

end Derives

/-! ## 3. Every sequence has a tree -/

namespace BinOp

theorem stratum_of_token {t : Token} {op : BinOp} (h : ofToken? t = some op) :
    op = .concat ∨ op = .arith .pow ∨ op ≠ .concat ∧ op ≠ .arith .pow ∧ op.stratum ≤ 10 ∧ op.stratum ≠ 8 := by
  unfold ofToken? at h
  split at h <;> cases h <;> decide

def rightStratum : BinOp → Nat
  | concat => 8
  | arith .pow => 11
  | op => op.stratum + 1

theorem rightStratum_eq {op : BinOp} (hc : op ≠ .concat) (hp : op ≠ .arith .pow) :
    op.rightStratum = op.stratum + 1 := by
  unfold rightStratum
  split
  · exact absurd rfl hc
  · exact absurd rfl hp
  · rfl

end BinOp

namespace Derives

variable {k : Nat} {items atom : List Item} {t a : OpTree} {mark : Token} {op : BinOp}

theorem joined (hm : BinOp.ofToken? mark = some op) (ha : Derives 13 atom a) (h : Derives k items t)
    (hk : op.rightStratum ≤ k) : Derives op.stratum (atom ++ .mark mark :: items) (.binary op a t) := by
  rcases BinOp.stratum_of_token hm with rfl | rfl | ⟨hc, hp, hle, -⟩
  · exact concat hm (ha.lower (by decide)) (h.lower hk)
  · exact power hm ha (h.lower hk)
  · rw [BinOp.rightStratum_eq hc hp] at hk
    exact left hm hc hp (ha.lower (by omega)) (h.lower hk)

/-- **An operand and an operator come in front**: the operator takes all of what follows, or goes into its leftmost
    operand. -/
theorem prepend (hm : BinOp.ofToken? mark = some op) (ha : Derives 13 atom a) (h : Derives k items t) :
    ∃ t', Derives (min k op.stratum) (atom ++ .mark mark :: items) t' := by
  have hdirect : ∀ {k items t}, Derives k items t → op.rightStratum ≤ k → ∃ t',
      Derives (min k op.stratum) (atom ++ .mark mark :: items) t' := fun h hk =>
    ⟨_, (joined hm ha h hk).lower (Nat.min_le_right _ _)⟩
  have hright : op.rightStratum ≤ 11 := by
    rcases BinOp.stratum_of_token hm with rfl | rfl | ⟨hc, hp, hle, -⟩
    · decide
    · decide
    · rw [BinOp.rightStratum_eq hc hp]
      omega
  induction h with
  | operand u => exact hdirect (.operand u) (by omega)
  | group h _ => exact hdirect (.group h) (by omega)
  | power hm' hl hr _ _ => exact hdirect (.power hm' hl hr) (by omega)
  | unary hm' h _ => exact hdirect (.unary hm' h) hright
  | @concat mark' il ir l r hm' hl hr ihl _ =>
    by_cases hk : op.rightStratum ≤ 8
    · exact hdirect (.concat hm' hl hr) hk
    · -- the operator binds more tightly than the concatenation, of whose left operand it becomes a part
      obtain ⟨l', hl'⟩ := ihl
      have h9 : 9 ≤ op.stratum := by
        rcases BinOp.stratum_of_token hm with rfl | rfl | ⟨hc, hp, -, h8⟩
        · exact absurd (by decide) hk
        · decide
        · rw [BinOp.rightStratum_eq hc hp] at hk
          omega
      rw [Nat.min_eq_left h9] at hl'
      have := concat hm' hl' hr
      rw [List.append_assoc, List.cons_append] at this
      exact ⟨_, this.lower (Nat.min_le_left _ _)⟩
  | @left mark' op' il ir l r hm' hc' hp' hl hr ihl _ =>
    obtain ⟨-, -, hle', hne'⟩ := ((BinOp.stratum_of_token hm').resolve_left hc').resolve_left hp'
    by_cases hk : op.rightStratum ≤ op'.stratum
    · exact hdirect (.left hm' hc' hp' hl hr) hk
    · obtain ⟨l', hl'⟩ := ihl
      have hle : op'.stratum ≤ op.stratum := by
        rcases BinOp.stratum_of_token hm with rfl | rfl | ⟨hc, hp, -, -⟩
        · simp only [BinOp.rightStratum, BinOp.stratum] at hk ⊢
          omega
        · exact Nat.le_trans hle' (by decide)
        · rw [BinOp.rightStratum_eq hc hp] at hk
          omega
      rw [Nat.min_eq_left hle] at hl'
      have := left hm' hc' hp' hl' hr
      rw [List.append_assoc, List.cons_append] at this
      exact ⟨_, this.lower (Nat.min_le_left _ _)⟩
  | up h ih =>
    obtain ⟨t', h'⟩ := ih
    exact ⟨t', h'.lower (by omega)⟩

/-- **A unary operator comes in front**: it takes all of what follows, or goes into its leftmost operand. -/
theorem negated {u : UnOp} (hm : UnOp.ofToken? mark = some u) (h : Derives k items t) :
    ∃ t', Derives (min k 11) (.mark mark :: items) t' := by
  have hdirect : ∀ {k items t}, Derives k items t → 11 ≤ k → ∃ t', Derives (min k 11) (.mark mark :: items) t' :=
    fun h hk => ⟨_, (unary hm (h.lower hk)).lower (Nat.min_le_right _ _)⟩
  induction h with
  | operand u => exact hdirect (.operand u) (by decide)
  | group h _ => exact hdirect (.group h) (by decide)
  | power hm' hl hr _ _ => exact hdirect (.power hm' hl hr) (by decide)
  | unary hm' h _ => exact hdirect (.unary hm' h) (by decide)
  | concat hm' hl hr ihl _ =>
    obtain ⟨l', hl'⟩ := ihl
    exact ⟨_, concat hm' hl' hr⟩
  | left hm' hc' hp' hl hr ihl _ =>
    obtain ⟨l', hl'⟩ := ihl
    obtain ⟨-, -, hle', -⟩ := ((BinOp.stratum_of_token hm').resolve_left hc').resolve_left hp'
    have hmin : min (BinOp.stratum _) 11 = BinOp.stratum _ := Nat.min_eq_left (Nat.le_trans hle' (by decide))
    rw [hmin] at hl' ⊢
    exact ⟨_, left hm' hc' hp' hl' hr⟩
  | up h ih =>
    obtain ⟨t', h'⟩ := ih
    exact ⟨t', h'.lower (by omega)⟩

end Derives

namespace Item

inductive Row : List Item → Prop where
  | atom {items : List Item} {t : OpTree} (h : Derives 13 items t) : Row items
  | unary {t : Token} {op : UnOp} {items : List Item} (ht : UnOp.ofToken? t = some op) (h : Row items) :
      Row (.mark t :: items)
  | link {t : Token} {op : BinOp} {atom items : List Item} {a : OpTree} (ht : BinOp.ofToken? t = some op)
      (ha : Derives 13 atom a) (h : Row items) : Row (atom ++ .mark t :: items)

namespace Row

theorem join {t : Token} {op : BinOp} {left right : List Item} (ht : BinOp.ofToken? t = some op) (hl : Row left)
    (hr : Row right) : Row (left ++ .mark t :: right) := by
  induction hl with
  | atom h => exact .link ht h hr
  | unary ht' _ ih => exact .unary ht' ih
  | link ht' ha _ ih =>
    rw [List.append_assoc, List.cons_append]
    exact .link ht' ha ih

theorem derives {items : List Item} (h : Row items) : ∃ t, Derives 1 items t := by
  induction h with
  | atom h => exact ⟨_, h.lower (by decide)⟩
  | unary ht _ ih =>
    obtain ⟨t, h⟩ := ih
    exact Derives.negated ht h
  | @link mark op atom items a ht ha _ ih =>
    obtain ⟨t, h⟩ := ih
    obtain ⟨t', h'⟩ := Derives.prepend ht ha h
    have hone : 1 ≤ op.stratum := by
      unfold BinOp.stratum
      split <;> decide
    rw [Nat.min_eq_left hone] at h'
    exact ⟨t', h'⟩

end Row

/-- **Every sequence has a parse tree.** -/
theorem Sequence.derives {items : List Item} (h : Sequence items) : ∃ t, Derives 1 items t := by
  suffices hrow : Row items from hrow.derives
  induction h with
  | operand u => exact .atom (.operand u)
  | group _ ih =>
    obtain ⟨t, h⟩ := ih.derives
    exact .atom (.group h)
  | unary ht _ ih => exact .unary ht ih
  | join ht _ _ ihl ihr => exact ihl.join ht ihr

end Item

end LuaMachine
