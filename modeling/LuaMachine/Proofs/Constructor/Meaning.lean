/-
  TABLE CONSTRUCTORS, as they are written and as they are meant. Their items are values of a list and fields
  under strings; the last item may stand for any number of values. What acts make of a table that is being
  filled is said without code and machine.

  * `Act.Fills` -- **acts that fill a table**.
-/
import LuaMachine.Proofs.Assignment.Storing

namespace LuaMachine

/-! ## 1. Syntax -/

inductive TableItem where
  /-- A value of the list. -/
  | value (a : Atom)
  /-- A field: `x = a`, or `["x"] = a`. -/
  | field (quoted : Bool) (x : Bytes) (a : Atom)
deriving DecidableEq

namespace TableItem

def tokens : TableItem → List Token
  | value a => [a.token]
  | field false x a => [.name x, .symbol .assign, a.token]
  | field true x a => [.symbol .lbracket, .str x, .symbol .rbracket, .symbol .assign, a.token]

def IsSeparator (t : Token) : Prop := t = .symbol .comma ∨ t = .symbol .semi

/-- The tokens of items, and of an open item behind them if there is one. A separator may follow the last item. -/
inductive Spells : List TableItem → Option (List Token) → List Token → Prop where
  | nothing : Spells [] none []
  | last (i : TableItem) : Spells [i] none i.tokens
  | opens (us : List Token) : Spells [] (some us) us
  | opensSeparated (us : List Token) {t : Token} (ht : IsSeparator t) : Spells [] (some us) (us ++ [t])
  | more (i : TableItem) {is : List TableItem} {o : Option (List Token)} {t : Token} {ts : List Token} (ht : IsSeparator t)
    (h : Spells is o ts) : Spells (i :: is) o (i.tokens ++ t :: ts)

def values : List TableItem → List Atom
  | [] => []
  | value a :: is => a :: values is
  | field .. :: is => values is

def fields : List TableItem → List (Bytes × Atom)
  | [] => []
  | value _ :: is => fields is
  | field _ x a :: is => (x, a) :: fields is

def atom : TableItem → Atom
  | value a | field _ _ a => a

end TableItem

/-! ## 2. A table is filled -/

def Vars.newTable (V : Vars) (r : Nat) : Vars :=
  { V.setReg r (.table V.tables.size) with tables := V.tables.push .empty }

structure Vars.Fills (t id : Nat) (V V' : Vars) (T : Table) : Prop where
  regs : ∀ r ≤ t, V'.regs r = V.regs r
  upvalues : V'.upvalues = V.upvalues
  tables : V'.tables = V.tables.modify id fun _ => T

def Act.Fills (as : List Act) (t : Nat) (R : Vars → Table → Vars → Table → Prop) : Prop :=
  ∀ (V : Vars) (id : Nat) (T : Table), V.regs t = .table id → V.tables[id]? = some T →
    ∃ V' T', V.run as = (V', none) ∧ Vars.Fills t id V V' T' ∧ R V T V' T'

section

variable {t id n : Nat} {V V' V'' : Vars} {T T' : Table} {as bs : List Act} {R R' R'' : Vars → Table → Vars → Table → Prop}

theorem modify_same {ts : Array Table} (h : ts[id]? = some T) : (ts.modify id fun _ => T) = ts := by
  refine Array.ext (by simp) fun i hi _ => ?_
  rw [Array.getElem_modify]
  split
  · next heq =>
    subst heq
    obtain ⟨_, hval⟩ := Array.getElem?_eq_some_iff.mp h
    exact hval.symm
  · rfl

theorem modify_push (ts : Array Table) : ((ts.push T).modify ts.size fun _ => T') = ts.push T' := by
  refine Array.ext (by simp) fun i hi _ => ?_
  rw [Array.getElem_modify, Array.getElem_push, Array.getElem_push]
  have hlt : i < ts.size + 1 := by simpa using hi
  split
  · next heq =>
    rw [dif_neg (by omega)]
  · next hne =>
    have hin : i < ts.size := by omega
    rw [dif_pos hin, dif_pos hin]

namespace Vars.Fills

theorem getElem (h : Vars.Fills t id V V' T') (hT : V.tables[id]? = some T) : V'.tables[id]? = some T' := by
  rw [h.tables, Array.getElem?_modify, if_pos rfl, hT]
  rfl

theorem trans (h : Vars.Fills t id V V' T) (h' : Vars.Fills t id V' V'' T') : Vars.Fills t id V V'' T' where
  regs r hr := (h'.regs r hr).trans (h.regs r hr)
  upvalues := h'.upvalues.trans h.upvalues
  tables := by
    rw [h'.tables, h.tables]
    refine Array.ext (by simp) fun i _ _ => ?_
    simp only [Array.getElem_modify]
    split <;> rfl

theorem of_agrees (h : V.Agrees (t + 1) V') (hT : V.tables[id]? = some T) : Vars.Fills t id V V' T :=
  ⟨fun r hr => h.regs r (by omega), h.upvalues, by rw [h.tables, modify_same hT]⟩

theorem eval (h : Vars.Fills t id V V' T) {a : Atom} {N : Names} (hlow : ∀ x r, N x = some (.register r) → r ≤ t) :
    a.eval N V' = a.eval N V := a.eval_congr (fun x r hx => h.regs r (hlow x r hx)) h.upvalues

end Vars.Fills

namespace Act.Fills

theorem of_prepares {P : Vars → Vars → Prop} (h : Act.Prepares as n P) (hn : t + 1 ≤ n) :
    Act.Fills as t fun V T V' T' => V.Agrees n V' ∧ P V V' ∧ T' = T := by
  intro V id T _ hT
  obtain ⟨V', hrun, hagrees, hP⟩ := h V
  exact ⟨V', T, hrun, .of_agrees (hagrees.mono hn) hT, hagrees, hP, rfl⟩

theorem imp (h : Act.Fills as t R) (hR : ∀ id V T V' T', Vars.Fills t id V V' T' → R V T V' T' → R' V T V' T') :
    Act.Fills as t R' := by
  intro V id T ht hT
  obtain ⟨V', T', hrun, hf, hr⟩ := h V id T ht hT
  exact ⟨V', T', hrun, hf, hR id V T V' T' hf hr⟩

theorem append (h : Act.Fills as t R) (h' : Act.Fills bs t R')
    (hR : ∀ id V T V' T' V'' T'', Vars.Fills t id V V' T' → R V T V' T' → Vars.Fills t id V' V'' T'' → R' V' T' V'' T'' →
      R'' V T V'' T'') : Act.Fills (as ++ bs) t R'' := by
  intro V id T ht hT
  obtain ⟨V', T', hrun, hf, hr⟩ := h V id T ht hT
  obtain ⟨V'', T'', hrun', hf', hr'⟩ := h' V' id T' ((hf.regs t (Nat.le_refl _)).trans ht) (hf.getElem hT)
  exact ⟨V'', T'', by rw [Vars.run_append hrun, hrun'], hf.trans hf', hR id V T V' T' V'' T'' hf hr hf' hr'⟩

theorem setItems {block : Nat} : Act.Fills [.setItems t n block] t fun V T V' T' =>
    V'.regs = V.regs ∧ T' = T.setInts (((block : Int) - 1) * itemsPerFlush) (V.span (t + 1) n) := by
  intro V id T ht hT
  refine ⟨{ V with tables := V.tables.modify id fun _ => _ }, _, ?_, ⟨fun _ _ => rfl, rfl, rfl⟩, rfl, rfl⟩
  refine Vars.run_cons_ok ?_
  show V.setInts (V.regs t) _ _ = _
  rw [ht, Vars.setInts, hT, Option.getD_some]

end Act.Fills

end

end LuaMachine
