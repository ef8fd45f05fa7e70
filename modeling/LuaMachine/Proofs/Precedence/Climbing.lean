/-
  PRECEDENCE CLIMBING FINDS THE PARSE TREE. An expression is read up to the first operator that does not
  bind more tightly than a limit; each operator has its own limit for its right operand.

  * **`Derives.climbs`** -- what the grammar derives is what climbing reads;
  * **`Derives.unique`** -- the grammar is unambiguous.
-/
import LuaMachine.Proofs.Precedence.Grammar

namespace LuaMachine

open Item

/-! ## 1. Climbing -/

def Item.StopsAt (limit : Nat) (i : Item) : Prop :=
  ∃ t, i = .mark t ∧ ∀ op, BinOp.ofToken? t = some op → op.priority.1 ≤ limit

/-- **Precedence climbing**: from the items, under a limit, a tree is read, and items are left. At first no tree has been
    read; afterwards the tree read so far is the left operand of the operators that follow. -/
inductive Climbs : Nat → Option OpTree → List Item → OpTree → List Item → Prop where
  | operand {limit : Nat} {u : List Token} {items rest : List Item} {t : OpTree}
      (h : Climbs limit (some (.operand u)) items t rest) : Climbs limit none (.operand u :: items) t rest
  | group {limit : Nat} {items others rest : List Item} {inner t : OpTree}
      (hin : Climbs 0 none items inner (closing :: others))
      (h : Climbs limit (some (.group inner)) others t rest) : Climbs limit none (opening :: items) t rest
  | unary {limit : Nat} {mark : Token} {op : UnOp} {items others rest : List Item} {arg t : OpTree}
      (hm : UnOp.ofToken? mark = some op) (harg : Climbs UnOp.priority none items arg others)
      (h : Climbs limit (some (.unary op arg)) others t rest) : Climbs limit none (.mark mark :: items) t rest
  | binary {limit : Nat} {mark : Token} {op : BinOp} {items others rest : List Item} {l r t : OpTree}
      (hm : BinOp.ofToken? mark = some op) (hop : limit < op.priority.1)
      (hr : Climbs op.priority.2 none items r others)
      (h : Climbs limit (some (.binary op l r)) others t rest) : Climbs limit (some l) (.mark mark :: items) t rest
  | stop {limit : Nat} {l : OpTree} {i : Item} {rest : List Item} (h : i.StopsAt limit) :
      Climbs limit (some l) (i :: rest) l (i :: rest)

namespace Climbs

variable {limit : Nat} {acc : Option OpTree} {items rest rest' : List Item} {t t' : OpTree}

theorem suffix (h : Climbs limit acc items t rest) : rest <:+ items := by
  induction h with
  | operand _ ih => exact ih.trans (List.suffix_cons _ _)
  | group _ _ ihin ih => exact ih.trans ((List.suffix_cons _ _).trans (ihin.trans (List.suffix_cons _ _)))
  | unary _ _ _ iharg ih => exact ih.trans (iharg.trans (List.suffix_cons _ _))
  | binary _ _ _ _ ihr ih => exact ih.trans (ihr.trans (List.suffix_cons _ _))
  | stop _ => exact List.suffix_refl _

/-- **Climbing is deterministic.** -/
theorem unique (h : Climbs limit acc items t rest) (h' : Climbs limit acc items t' rest') : t = t' ∧ rest = rest' := by
  induction h generalizing t' rest' with
  | operand _ ih =>
    cases h' with
    | operand h' => exact ih h'
  | group _ _ ihin ih =>
    cases h' with
    | group hin' h' =>
      obtain ⟨rfl, hrest⟩ := ihin hin'
      obtain ⟨-, rfl⟩ := List.cons.inj hrest
      exact ih h'
    | unary hm' _ _ => exact nomatch hm'
  | unary hm _ _ iharg ih =>
    cases h' with
    | group _ _ => exact nomatch hm
    | unary hm' harg' h' =>
      obtain rfl := Option.some.inj (hm.symm.trans hm')
      obtain ⟨rfl, rfl⟩ := iharg harg'
      exact ih h'
  | binary hm hop _ _ ihr ih =>
    cases h' with
    | binary hm' _ hr' h' =>
      obtain rfl := Option.some.inj (hm.symm.trans hm')
      obtain ⟨rfl, rfl⟩ := ihr hr'
      exact ih h'
    | stop h' =>
      obtain ⟨_, hi, hstop⟩ := h'
      cases hi
      exact absurd (hstop _ hm) (by omega)
  | stop h =>
    cases h' with
    | binary hm hop _ _ =>
      obtain ⟨_, hi, hstop⟩ := h
      cases hi
      exact absurd (hstop _ hm) (by omega)
    | stop _ => exact ⟨rfl, rfl⟩

end Climbs

/-! ## 2. Limits and nonterminals -/

namespace Stratum

def floor (k : Nat) : Nat := if k ≤ 7 then k else if k ≤ 10 then k + 1 else 14

def ceiling (k : Nat) : Nat := if k ≤ 8 then k else if k ≤ 10 then k + 1 else if k ≤ 12 then 12 else 14

theorem floor_mono {j k : Nat} (h : j ≤ k) : floor j ≤ floor k := by
  unfold floor
  grind

theorem ceiling_mono {j k : Nat} (h : j ≤ k) : ceiling j ≤ ceiling k := by
  unfold ceiling
  grind

end Stratum

namespace BinOp

/-- The priorities of an operator that associates to the left, by its line in the table: it is read under smaller limits,
    leaves what its own nonterminal gives as it is, and gives its right operand a limit under which the next nonterminal is
    read. -/
theorem priority_left {t : Token} {op : BinOp} (h : ofToken? t = some op) (hc : op ≠ .concat) (hp : op ≠ .arith .pow) :
    op.priority.1 = Stratum.floor op.stratum ∧ op.priority.1 ≤ Stratum.ceiling op.stratum ∧
      op.priority.2 = Stratum.ceiling op.stratum ∧ op.priority.2 < Stratum.floor (op.stratum + 1) := by
  unfold ofToken? at h
  split at h <;> cases h <;> first | decide | exact absurd rfl ‹_ ≠ _›

end BinOp

theorem Item.StopsAt.mono {j k : Nat} {i : Item} (h : i.StopsAt j) (hjk : j ≤ k) : i.StopsAt k := by
  obtain ⟨t, rfl, h⟩ := h
  exact ⟨t, rfl, fun op hop => Nat.le_trans (h op hop) hjk⟩

theorem stopsAt_of_ofToken? {mark : Token} {op : BinOp} {k : Nat} (hm : BinOp.ofToken? mark = some op)
    (hk : op.priority.1 ≤ k) : (Item.mark mark).StopsAt k := by
  refine ⟨mark, rfl, fun op' hop' => ?_⟩
  obtain rfl := Option.some.inj (hm.symm.trans hop')
  exact hk

theorem closing_stopsAt (k : Nat) : closing.StopsAt k := ⟨_, rfl, fun _ h => nomatch h⟩

/-! ## 3. What is derived is read -/

/-- **What the grammar derives is read by climbing**, under every limit below the operators of its nonterminal, whatever item
    follows that leaves it as it is; then the climbing goes on from its tree. -/
theorem Derives.climbs {k limit : Nat} {items rest others : List Item} {t t' : OpTree} {i : Item} (h : Derives k items t)
    (hlimit : limit < Stratum.floor k) (hi : i.StopsAt (Stratum.ceiling k))
    (hgo : Climbs limit (some t) (i :: rest) t' others) :
    Climbs limit none (items ++ i :: rest) t' others := by
  induction h generalizing limit t' i rest others with
  | operand u => exact .operand hgo
  | @group inside t h ih =>
    have hin : Climbs 0 none (inside ++ closing :: i :: rest) t (closing :: i :: rest) :=
      ih (by decide) (closing_stopsAt _) (.stop (closing_stopsAt 0))
    rw [List.cons_append, List.cons_append, List.append_assoc]
    exact .group hin hgo
  | @power mark left right l r hm hl hr ihl ihr =>
    have hright : Climbs 13 none (right ++ i :: rest) r (i :: rest) := ihr (by decide) hi (.stop (hi.mono (by decide)))
    rw [List.append_assoc, List.cons_append]
    refine ihl ?_ (stopsAt_of_ofToken? hm (by decide)) (.binary hm ?_ hright hgo)
    · exact Nat.lt_of_lt_of_le hlimit (Stratum.floor_mono (by decide))
    · exact hlimit
  | @unary mark op items t hm h ih =>
    have harg : Climbs UnOp.priority none (items ++ i :: rest) t (i :: rest) := ih (by decide) hi (.stop (hi.mono (by decide)))
    exact .unary hm harg hgo
  | @concat mark left right l r hm hl hr ihl ihr =>
    have hright : Climbs 8 none (right ++ i :: rest) r (i :: rest) := ihr (by decide) hi (.stop hi)
    rw [List.append_assoc, List.cons_append]
    refine ihl ?_ (stopsAt_of_ofToken? hm (by decide)) (.binary hm hlimit hright hgo)
    exact Nat.lt_of_lt_of_le hlimit (Stratum.floor_mono (by decide))
  | @left mark op left right l r hm hc hp hl hr ihl ihr =>
    obtain ⟨hfloor, hceiling, hpriority, hnext⟩ := BinOp.priority_left hm hc hp
    have hright : Climbs op.priority.2 none (right ++ i :: rest) r (i :: rest) :=
      ihr hnext (hi.mono (Stratum.ceiling_mono (by omega))) (.stop (hi.mono (Nat.le_of_eq hpriority.symm)))
    rw [List.append_assoc, List.cons_append]
    exact ihl hlimit (stopsAt_of_ofToken? hm hceiling) (.binary hm (hfloor ▸ hlimit) hright hgo)
  | @up k _ _ h ih =>
    exact ih (Nat.lt_of_lt_of_le hlimit (Stratum.floor_mono (by omega))) (hi.mono (Stratum.ceiling_mono (by omega))) hgo

/-- **A whole expression is read by climbing** under no limit, up to an item that is no binary operator. -/
theorem Derives.climbs_all {items : List Item} {t : OpTree} {mark : Token} (h : Derives 1 items t) (rest : List Item)
    (hm : BinOp.ofToken? mark = none) : Climbs 0 none (items ++ .mark mark :: rest) t (.mark mark :: rest) := by
  have hstop : ∀ k, (Item.mark mark).StopsAt k := fun k => ⟨mark, rfl, fun op hop => nomatch hm.symm.trans hop⟩
  exact h.climbs (by decide) (hstop _) (.stop (hstop 0))

/-- **The grammar is unambiguous.** -/
theorem Derives.unique {items : List Item} {t t' : OpTree} (h : Derives 1 items t) (h' : Derives 1 items t') : t = t' := by
  have hread : ∀ {t}, Derives 1 items t → Climbs 0 none (items ++ [.mark .eof]) t [.mark .eof] :=
    fun h => h.climbs_all [] rfl
  exact ((hread h).unique (hread h')).1

/-- **A sequence is continued by a binary operator, and by nothing else.** -/
theorem Item.Sequence.continues_iff {items : List Item} {mark : Token} (h : Sequence items) :
    (∃ others, Sequence (items ++ .mark mark :: others)) ↔ ∃ op, BinOp.ofToken? mark = some op := by
  refine ⟨fun ⟨others, hlong⟩ => ?_, fun ⟨op, hop⟩ => ⟨_, .join hop h (.operand [])⟩⟩
  cases hop : BinOp.ofToken? mark with
  | some op => exact ⟨op, rfl⟩
  | none =>
    -- climbing would stop both in front of the mark and at the end of the longer sequence
    obtain ⟨t, ht⟩ := h.derives
    obtain ⟨t', ht'⟩ := hlong.derives
    have hshort := ht.climbs_all (others ++ [.mark .eof]) hop
    have hwhole : Climbs 0 none (items ++ .mark mark :: others ++ [.mark .eof]) t' [.mark .eof] := ht'.climbs_all [] rfl
    rw [List.append_assoc, List.cons_append] at hwhole
    have hlength := congrArg List.length (hshort.unique hwhole).2
    simp at hlength

end LuaMachine
