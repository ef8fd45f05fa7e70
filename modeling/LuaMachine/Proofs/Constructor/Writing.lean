/-
  THE COMPILER WRITES STORES INTO A NEW TABLE. Fields are stored as they are read. Values are brought into
  registers behind the table's, and are stored a block at a time.

  * `Fills.gather`, `Fills.stores` -- a value is brought into a register, **values are stored**;
  * `Grammar.keyedItem_fills` -- **a field is read**, and stored.
-/
import LuaMachine.Proofs.Assignment.Reading
import LuaMachine.Proofs.Constructor.Meaning

namespace LuaMachine

open Compile

/-! ## 1. Values in registers and in the table -/

def TableItem.evalFields (N : Names) (V : Vars) (fields : List (Bytes × Atom)) : List (Bytes × Value) :=
  fields.map fun x => (x.1, x.2.eval N V)

namespace Drafts

/-- Items have been read: some values are in the table, as are all fields, and the other values are in the registers
    behind the table's. -/
structure Fills (q : Nat) (w : Drafts) (t : Nat) (stored gathered : List Atom) (fields : List (Bytes × Atom)) (w' : Drafts) :
    Prop where
  acts : ∃ as, w.Gains q as w' ∧ Act.Fills as t fun V T V' T' => T = .empty → ∀ N : Names, w'.Allows N →
    T'.Lists (stored.map (Atom.eval N V)) (TableItem.evalFields N V fields) ∧
      V'.span (t + 1) gathered.length = gathered.map (Atom.eval N V)
  free : w'.fn.free = t + 1 + gathered.length
  low : w'.fn.active ≤ t
  closed : gathered = [] → ¬ w'.fn.Open

variable {q t n : Nat} {w w1 w2 : Drafts} {stored gathered : List Atom} {fields : List (Bytes × Atom)} {a : Atom} {p : Place}
  {s : Origin} {x : Bytes}

theorem Fills.below (h : w.Fills q t stored gathered fields w1) {N : Names} (hN : w1.Allows N) {x : Bytes} {r : Nat}
    (hx : N x = some (.register r)) : r ≤ t := by
  have := hN.low x r hx
  have := h.low
  omega

theorem Fills.gather (h : w.Fills q t stored gathered fields w1) (ha : w1.Finds q a p s w2) :
    Writes (Compile.toNextRegister (.plain p)) w2.fn fun _ d' =>
      w.Fills q t stored (gathered ++ [a]) fields { w2 with fn := d' } := by
  obtain ⟨as, hg, hfills⟩ := h.acts
  have hfetch : Fetches w2.fn s p w2.fn := .of_gives ha.gives ha.gains.steady.roomy
  refine (Writes.toNextRegister_gains ha.gains.steady hfetch ha.below).imp fun r d' ⟨hr, hload, hfree, _⟩ => ?_
  subst hr
  have hlift := hload.lift
  have hlow : w2.fn.free = t + 1 + gathered.length := ha.free.trans h.free
  have hactive : w2.fn.active = w1.fn.active := ha.gains.active
  have hprep : Act.Prepares [.load w2.fn.free s] w2.fn.free fun V V' => V'.regs w2.fn.free = s.value V :=
    .load (Nat.le_refl _) fun V => if_pos rfl
  refine ⟨⟨as ++ [.load w2.fn.free s], ?_, ?_⟩, ?_, ?_, ?_⟩
  · simpa using (hg.trans ha.gains).trans hlift
  · refine hfills.append (.of_prepares hprep (by omega)) fun id V T V' T' V'' T'' hf hv hf' ⟨hagrees, hreg, hT⟩ hempty N hN => ?_
    subst hT
    have hN2 := hlift.allows hN
    have hN1 := ha.gains.allows hN2
    obtain ⟨hlists, hspan⟩ := hv hempty N hN1
    rw [hlow] at hagrees hreg
    refine ⟨hlists, ?_⟩
    rw [List.length_append, List.length_singleton, Vars.span_succ, hagrees.span, hspan, hreg, ha.value N V' hN2,
      hf.eval fun x r hx => h.below hN1 hx, List.map_append, List.map_singleton]
  · show d'.free = _
    rw [hfree, hlow, List.length_append, List.length_singleton]
    omega
  · show d'.active ≤ t
    have := h.low
    rw [hload.active]
    omega
  · exact fun hnil => absurd hnil (by simp)

theorem Fills.field {as : List Act} {k v : Origin} (h : w.Fills q t stored gathered fields w1)
    (hg : w1.Gains q (as ++ [.setField .register t k v]) w2)
    (hprep : Act.Prepares as w1.fn.free fun V V' => ∀ N : Names, w2.Allows N → k.value V' = .str x ∧ v.value V' = a.eval N V)
    (hfree : w2.fn.free = w1.fn.free) : w.Fills q t stored gathered (fields ++ [(x, a)]) w2 := by
  obtain ⟨bs, hg1, hfills⟩ := h.acts
  have hlow : w2.fn.active ≤ t := by
    rw [hg.active]
    exact h.low
  refine ⟨⟨bs ++ (as ++ [.setField .register t k v]), hg1.trans hg, fun V id T ht hT => ?_⟩, hfree.trans h.free, hlow,
    fun _ => hg.codes.closed List.getLast?_concat nofun⟩
  obtain ⟨V1, T1, hrun1, hf1, hv1⟩ := hfills V id T ht hT
  obtain ⟨V2, hrun2, hagrees, hv2⟩ := hprep V1
  have hfree1 := h.free
  have hf2 : Vars.Fills t id V1 V2 T1 := .of_agrees (hagrees.mono (by omega)) (hf1.getElem hT)
  obtain ⟨hkey, hval⟩ := hv2 _ w2.allows_variableOf?
  have hstr : T1.set (.str x) (v.value V2) = .ok (T1.setEntry (.str x) (v.value V2)) := rfl
  have hset : (Act.setField .register t k v).run V2 =
      .ok { V2 with tables := V2.tables.modify id fun _ => T1.setEntry (.str x) (v.value V2) } := by
    show V2.setField (V2.regs t) (k.value V2) (v.value V2) = _
    rw [hf2.regs t (Nat.le_refl _), hf1.regs t (Nat.le_refl _), ht, hkey, Vars.setField, hf2.getElem (hf1.getElem hT),
      Option.getD_some, hstr]
  have hf3 : Vars.Fills t id V2 { V2 with tables := V2.tables.modify id fun _ => T1.setEntry (.str x) (v.value V2) }
      (T1.setEntry (.str x) (v.value V2)) := ⟨fun _ _ => rfl, rfl, rfl⟩
  refine ⟨_, _, ?_, (hf1.trans hf2).trans hf3, fun hempty N hN => ?_⟩
  · rw [Vars.run_append hrun1, Vars.run_append hrun2, Vars.run_cons_ok hset]
    rfl
  · obtain ⟨hlists, hspan⟩ := hv1 hempty N (hg.allows hN)
    obtain ⟨T2, hT2, hlists2⟩ := hlists.setField x (a.eval N V)
    have hval : v.value V2 = a.eval N V := by
      rw [(hv2 N hN).2, hf1.eval fun x r hx => h.below (hg.allows hN) hx]
    rw [← hval, hstr] at hT2
    cases hT2
    rw [hval] at hlists2 ⊢
    refine ⟨?_, ?_⟩
    · rw [TableItem.evalFields, List.map_append]
      exact hlists2
    · rw [hfree1] at hagrees
      rw [← hspan]
      exact hagrees.span

end Drafts

namespace Compile

theorem Writes.setList_gains {q t items n : Nat} {d : Draft} (hs : d.Apt q) (hn : 0 < n) (hle : t + n < 255)
    (hfree : t + 1 ≤ d.free) (hlow : d.active ≤ t) :
    Writes (Compile.setList t items (some n)) d fun _ d' => (items - 1) / itemsPerFlush + 1 ≤ Instr.maxAx ∧
      d.Gains q [.setItems t n ((items - 1) / itemsPerFlush + 1)] d' ∧ d'.free = t + 1 := by
  have hback : ∀ {d1 : Draft}, d.Gains q [.setItems t n ((items - 1) / itemsPerFlush + 1)] d1 → d1.free = d.free →
      Writes (Compile.modifyFn fun d => { d with free := t + 1 }) d1 fun _ d' =>
        d.Gains q [.setItems t n ((items - 1) / itemsPerFlush + 1)] d' ∧ d'.free = t + 1 := by
    intro d1 hg hfree1
    have hroomy := hg.steady.roomy
    have hactive := hg.active
    refine Writes.modifyFn ⟨?_, rfl⟩
    simpa using hg.trans (.retake (m := d1.maxStack) (f := t + 1) hg.steady
      ⟨show d1.active ≤ t + 1 by omega, show t + 1 ≤ d1.maxStack from Nat.le_trans (hfree1 ▸ hfree) hroomy.free,
        hroomy.stack, hroomy.constants⟩)
  unfold Compile.setList
  dsimp only [Option.getD_some]
  split
  · next hc =>
    refine Writes.bind (Writes.discard ((Writes.emit_gains hs (.setItems hle hn (Nat.succ_pos _) hc)).imp fun _ d1 ⟨hg, hf⟩ => ?_))
    exact (hback hg hf).imp fun _ _ h => ⟨Nat.le_trans hc (by decide), h⟩
  · split
    · next hax =>
      refine Writes.bind (Writes.discard ((Writes.emit_adds _).imp fun _ d1 ⟨_, ha1, hd1⟩ => ?_))
      refine Writes.bind (Writes.discard ((Writes.emit_adds _).imp fun _ d2 ⟨_, ha2, hd2⟩ => ?_))
      have hd : d2 = { d with code := d2.code, lines := d2.lines, here := [] } := by rw [hd2, hd1]
      have hr : d2.Roomy := hs.roomy.congr (by rw [hd]) (by rw [hd]) (by rw [hd]) (by rw [hd])
      have hg : d.Gains q [.setItems t n ((items - 1) / itemsPerFlush + 1)] d2 :=
        (ha1.append ha2).gains hs (by rw [hd]) hr (.setItemsFar hle hn hax)
      exact (hback hg (by rw [hd])).imp fun _ _ h => ⟨hax, h⟩
    · exact Writes.bind Writes.failNear

end Compile

namespace Drafts

variable {q t : Nat} {w w1 : Drafts} {stored gathered : List Atom} {fields : List (Bytes × Atom)}

/-- **The gathered values are stored**; those stored before are full blocks. -/
theorem Fills.stores (h : w.Fills q t stored gathered fields w1) (hpos : gathered ≠ []) (hle : gathered.length ≤ itemsPerFlush)
    (hblocks : stored.length % itemsPerFlush = 0) :
    Writes (Compile.setList t (stored.length + gathered.length) (some gathered.length)) w1.fn fun _ d' =>
      w.Fills q t (stored ++ gathered) [] fields { w1 with fn := d' } := by
  obtain ⟨as, hg, hfills⟩ := h.acts
  have hlen : 0 < gathered.length := List.length_pos_iff.mpr hpos
  have hroomy := hg.steady.roomy
  have hfree := h.free
  have hroom := hroomy.free
  have hstack := hroomy.stack
  refine (Writes.setList_gains hg.steady hlen (by omega) (by omega) h.low).imp fun _ d' ⟨hmax, hstore, hfree'⟩ => ?_
  have hlift := hstore.lift
  refine ⟨⟨_, hg.trans hlift, ?_⟩, hfree', ?_, fun _ => hstore.codes.closed rfl nofun⟩
  · refine hfills.append .setItems fun id V T V' T' V'' T'' hf hv hf' ⟨hregs, hT⟩ hempty N hN => ⟨?_, rfl⟩
    obtain ⟨hlists, hspan⟩ := hv hempty N (hlift.allows hN)
    have hfirst : ((((stored.length + gathered.length - 1) / itemsPerFlush + 1 : Nat) : Int) - 1) * itemsPerFlush =
        (stored.map (Atom.eval N V)).length := by
      simp only [itemsPerFlush, List.length_map] at hle hblocks ⊢
      omega
    have hbound : ((stored.map (Atom.eval N V)).length : Int) + (gathered.map (Atom.eval N V)).length ≤
        Int64.maxValue.toInt := by
      simp only [itemsPerFlush, Instr.maxAx, List.length_map, Table.maxValue_toInt] at hmax ⊢
      omega
    rw [hT, hfirst, hspan, List.map_append]
    exact hlists.setInts hbound
  · show d'.active ≤ t
    have := hstore.active
    have := h.low
    omega

end Drafts

/-! ## 2. Fields -/

namespace Grammar

variable {q t bound n : Nat} {w w1 : Drafts} {stored gathered : List Atom} {fields : List (Bytes × Atom)} {x : Bytes} {a : Atom}
  {u : Token} {more : List Token}

end Grammar

end LuaMachine
