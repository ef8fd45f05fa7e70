/-
  ARITHMETIC IS READ AS IT IS WRITTEN. Whatever follows its tokens, an operator that binds no more tightly,
  a closing parenthesis or the end, the code that is written for them calculates the value of the tree; and
  a source that is not too large is read to its end.

  * **`Tree.parses`** -- by induction on the tree.
-/
import LuaMachine.Proofs.Arithmetic.Code

namespace LuaMachine

/-! ## 1. Left operands -/

namespace Prepared

variable {d d' : Draft} {f : Result} {k : Nat} {e : Expr}

theorem adds (hc : d.Clear) (h : Prepared d f k e d') :
    d.Adds d' ∧ d'.free ≤ d.free + 1 ∧ d'.constants.size ≤ d.constants.size + k := by
  cases h with
  | numeral => exact ⟨.refl hc, Nat.le_succ _, Nat.le_add_right ..⟩
  | register h =>
    have := Operand.cost_le d.active d.free
    have := h.free
    exact ⟨h.adds, by omega, h.pool⟩

end Prepared

theorem Calculated.readVariable {d d' : Draft} {f : Result} {k : Nat} {e : Expr} (h : Calculated d f k e d') :
    Compile.readVariable e = pure e := by
  cases h with
  | numeral n => cases n <;> rfl
  | pending => rfl

/-! ## 2. Trees -/

namespace Tree

open Compile

/-- Reading a tree leads to going on behind it, with code for its value. The bound is one for what is
    read after it, too. -/
def Parses (L : Prop) (e : Tree) : Prop :=
  ∀ (bound n limit : Nat) (t : Token) (more : List Token) (d : Draft)
    (Q : Expr × Option BinOp → List Token → Draft → Prop),
    d.Clear → d.Spare L e.height e.count → (n + 1 < e.height → L) → limit < e.left → t.Ends e.right →
    (e.tokens ++ t :: more).length ≤ bound →
    (∀ e' d' m, Calculated d e.eval e.count e' d' → (t :: more).length ≤ m →
      Passes L ((Grammar.ofLevels Compile.named bound n).operatorsFrom limit m e' (BinOp.ofToken? t)) (t :: more) d' Q) →
    Passes L ((Grammar.ofLevels Compile.named bound n).expressionBody limit) (e.tokens ++ t :: more) d Q

variable {L : Prop} {bound n limit m : Nat} {t : Token} {more : List Token} {d : Draft} {e : Tree} {e' : Expr}

theorem bound_ofLevels (bound n : Nat) : (Grammar.ofLevels Compile.named bound n).bound = bound := by
  cases n <;> rfl

theorem operators_end {g : Grammar} {Q : Expr × Option BinOp → List Token → Draft → Prop} (ht : t.Ends limit)
    (hm : (t :: more).length ≤ m) (hq : Q (e', BinOp.ofToken? t) (t :: more) d) :
    Passes L (g.operatorsFrom limit m e' (BinOp.ofToken? t)) (t :: more) d Q := by
  obtain ⟨m, rfl⟩ := Nat.exists_eq_add_of_le' (Nat.le_trans (Nat.succ_pos _) hm : 1 ≤ m)
  unfold Token.Ends at ht
  cases hop : BinOp.ofToken? t with
  | none =>
    rw [hop] at hq
    exact Passes.pure hq
  | some op =>
    rw [hop] at ht hq
    unfold Grammar.operatorsFrom
    rw [if_pos ht]
    exact Passes.pure hq

theorem Parses.operand (h : e.Parses L) (hd : d.Clear) (hs : d.Spare L e.height e.count) (hn : n < e.height → L)
    (hlimit : limit < e.left) (ht : t.Ends limit) (ht' : t.Ends e.right) (hb : (e.tokens ++ t :: more).length ≤ bound) :
    Passes L ((Grammar.ofLevels Compile.named bound n).subexpr limit) (e.tokens ++ t :: more) d fun a ts d' =>
      a.2 = BinOp.ofToken? t ∧ ts = t :: more ∧ Calculated d e.eval e.count a.1 d' := by
  cases n with
  | zero => exact Passes.failNear rfl (hn e.height_pos)
  | succ n =>
    refine h bound n limit t more d _ hd hs hn hlimit ht' hb fun e' d' m hc hm => ?_
    exact operators_end ht hm ⟨rfl, rfl, hc⟩

theorem parses_simple {first : Token} {others : List Token} (hfirst : e.tokens = first :: others)
    (hun : UnOp.ofToken? first = none)
    (h : ∀ (bound n : Nat) (t : Token) (more : List Token) (d : Draft), d.Clear → d.Spare L e.height e.count →
      (n + 1 < e.height → L) → t.Ends e.right → (e.tokens ++ t :: more).length ≤ bound →
      Passes L (Grammar.ofLevels Compile.named bound n).simple (e.tokens ++ t :: more) d fun e' ts d' =>
        ts = t :: more ∧ Calculated d e.eval e.count e' d') : e.Parses L := by
  intro bound n limit t more d Q hd hs hn _ ht hb hgo
  have hread := h bound n t more d hd hs hn ht hb
  have hlen : (t :: more).length ≤ bound := by
    rw [List.length_append] at hb
    omega
  rw [hfirst, List.cons_append] at hread ⊢
  refine Passes.token ?_
  rw [hun]
  refine hread.andThen ?_
  rintro e' _ d' ⟨rfl, hc⟩
  refine Passes.token (hgo e' d' _ hc ?_)
  rw [bound_ofLevels]
  exact hlen

theorem parses_num (x : Number) : (num x).Parses L := by
  have hun : UnOp.ofToken? x.token = none := by
    cases x <;> rfl
  refine parses_simple rfl hun fun bound n t more d hd hs hn ht hb => ?_
  have hliteral {q : Place} (hq : Calculated d (num x).eval 1 (.plain q) d) :
      Passes L (Grammar.simple.literal q) (x.token :: t :: more) d fun e' ts d' =>
        ts = t :: more ∧ Calculated d (num x).eval 1 e' d' :=
    Passes.next (List.cons_ne_nil _ _) (Passes.pure ⟨rfl, hq⟩)
  have hnumeral : Calculated d (num x).eval 1 x.expr d := .numeral x (Nat.le_refl _) rfl
  cases x with
  | int i => exact Passes.token (hliteral hnumeral)
  | float y => exact Passes.token (hliteral hnumeral)

theorem suffixes_end {g : Grammar} {line level : Nat} {Q : Expr → List Token → Draft → Prop} (ht : t.Ends level)
    (hm : 0 < m) (hq : Q e' (t :: more) d) : Passes L (g.suffixesFrom line m e') (t :: more) d Q := by
  obtain ⟨m, rfl⟩ := Nat.exists_eq_add_of_le' (hm : 1 ≤ m)
  refine Passes.token ?_
  unfold Token.Ends at ht
  split <;> try simp [BinOp.ofToken?, Token.isSuffix] at ht
  exact Passes.pure hq

theorem parses_paren (h : e.Parses L) : (paren e).Parses L := by
  refine parses_simple rfl rfl fun bound n t more d hd hs hn ht hb => ?_
  have htokens : (paren e).tokens ++ t :: more = .symbol .lparen :: (e.tokens ++ .symbol .rparen :: t :: more) := by
    simp [tokens]
  rw [htokens] at hb ⊢
  have hends : ∀ level, (Token.symbol .rparen).Ends level := fun _ => rfl
  refine Passes.token ?_
  refine Passes.line fun line => ?_
  refine Passes.bind (Passes.token ?_)
  refine Passes.line fun line' => Passes.next (by simp) ?_
  refine Passes.bind ?_
  refine (h.operand hd (hs.mono (Nat.le_succ _) (Nat.le_refl _)) (fun hlt => hn (Nat.succ_lt_succ hlt)) e.left_pos
    (hends _) (hends _) (Nat.le_of_succ_le hb)).andThen ?_
  rintro a _ d1 ⟨-, rfl, hc⟩
  refine Passes.pure (Passes.checkMatch (by simp) ?_)
  rw [hc.readVariable]
  refine Passes.pure (suffixes_end ht ?_ ⟨rfl, hc⟩)
  rw [bound_ofLevels]
  exact Nat.lt_of_lt_of_le (Nat.succ_pos _) hb

theorem parses_un {op : Unary} (h : e.Parses L) (hl : UnOp.priority < e.left) : (un op e).Parses L := by
  intro bound n limit t more d Q hd hs hn _ ht hb hgo
  have ht1 : t.Ends UnOp.priority := ht.mono (Nat.min_le_left ..)
  have ht2 : t.Ends e.right := ht.mono (Nat.min_le_right ..)
  have hlen : (e.tokens ++ t :: more).length + 1 ≤ bound := hb
  show Passes L _ (op.token :: (e.tokens ++ t :: more)) d Q
  refine Passes.token ?_
  rw [op.ofToken]
  dsimp only
  refine Passes.line fun line => Passes.next (by simp) ?_
  refine (h.operand hd (hs.mono (Nat.le_succ _) (Nat.le_refl _)) (fun hlt => hn (Nat.succ_lt_succ hlt)) hl ht1 ht2
    (Nat.le_of_succ_le hlen)).andThen ?_
  rintro a _ d1 ⟨-, rfl, hc⟩
  refine Passes.write (Makes.unary hd (hs.mono (Nat.add_le_add_left (height_pos _) _) (Nat.le_refl _)) hc) fun e' d' hc' => ?_
  refine Passes.token (hgo e' d' _ hc' ?_)
  rw [bound_ofLevels]
  rw [List.length_append] at hlen
  omega

theorem parses_bin {op : Binary} {a b : Tree} (ha : a.Parses L) (hb : b.Parses L) (hla : op.priority.1 ≤ a.right)
    (hlb : op.priority.2 < b.left) : (bin op a b).Parses L := by
  intro bound n limit t more d Q hd hs hn hlimit ht hbound hgo
  have hheight : a.height ≤ (bin op a b).height ∧ b.height + 1 ≤ (bin op a b).height :=
    ⟨Nat.le_max_left .., Nat.le_max_right ..⟩
  have hbpos := b.height_pos
  have hcount : (bin op a b).count = a.count + b.count := rfl
  have hends : op.token.Ends a.right := by
    unfold Token.Ends
    rw [op.ofToken]
    exact hla
  have ht1 : t.Ends op.priority.2 := ht.mono (Nat.min_le_left ..)
  have ht2 : t.Ends b.right := ht.mono (Nat.min_le_right ..)
  obtain ⟨hlop, hleft⟩ : limit < op.priority.1 ∧ limit < a.left := Nat.lt_min.mp hlimit
  have htokens : (bin op a b).tokens ++ t :: more = a.tokens ++ op.token :: (b.tokens ++ t :: more) := by simp [tokens]
  rw [htokens] at hbound ⊢
  -- the operator ends its left operand, and with it reading goes on
  refine ha bound n limit op.token _ d Q hd (hs.mono (by omega) (by omega)) (fun h => hn (by omega)) hleft hends hbound
    fun e1 d1 m hc hm => ?_
  rw [List.length_append, List.length_cons] at hbound
  rw [List.length_cons, List.length_append] at hm
  rw [op.ofToken]
  obtain ⟨m, rfl⟩ := Nat.exists_eq_add_of_le' (Nat.le_trans (Nat.succ_pos _) hm : 1 ≤ m)
  unfold Grammar.operatorsFrom
  rw [if_neg (Nat.not_le.mpr hlop : ¬(BinOp.arith op.operator).priority.1 ≤ limit)]
  refine Passes.line fun line => Passes.next (by simp) ?_
  refine Passes.write (Makes.beforeRight hd (hs.mono (by omega) (by omega)) hc) fun e1' d2 hp => ?_
  obtain ⟨hadds, hfree, hpool⟩ := hp.adds hd
  refine (hb.operand hadds.clear (hs.mono (by omega) (by omega)) (fun h => hn (by omega)) hlb ht1 ht2 (by omega)).andThen ?_
  rintro x _ d3 ⟨hx, rfl, hc2⟩
  refine Passes.write (Makes.afterRight hd (hs.mono (by omega) (by omega)) hp hc2) fun e' d' hc' => ?_
  rw [hx]
  exact hgo e' d' m hc' (by omega)

/-- **Code for a tree calculates its value**, whatever follows it. -/
theorem parses (e : Tree) (hg : e.Grouped) : e.Parses L := by
  induction e with
  | num x => exact parses_num x
  | paren e ih => exact parses_paren (ih hg)
  | un op e ih => exact parses_un (ih hg.2) hg.1
  | bin op a b iha ihb => exact parses_bin (iha hg.2.1) (ihb hg.2.2) hg.1.1 hg.1.2

end Tree

end LuaMachine
