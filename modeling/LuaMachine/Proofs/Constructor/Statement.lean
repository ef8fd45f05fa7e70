/-
  LIST CONSTRUCTORS STORE EVERY ITEM AT ITS POSITION. The function that runs the code of a constructor comes
  to its end with a new table that holds the values of the list from 1 on, then those of an open last item,
  the fields, and nothing else.

  * `Grammar.constructor_builds` -- **a constructor builds its table**.
-/
import LuaMachine.Proofs.Assignment.Statement
import LuaMachine.Proofs.Constructor.Reading
import LuaMachine.Proofs.Registers.Judgement

namespace LuaMachine

open Compile Machine

structure Vars.Constructed (t : Nat) (items : List Value) (fields : List (Bytes × Value)) (V V' : Vars) : Prop where
  regs : ∀ r < t, V'.regs r = V.regs r
  upvalues : V'.upvalues = V.upvalues
  fresh : V'.regs t = .table V.tables.size
  table : ∃ T : Table, V'.tables = V.tables.push T ∧ T.Lists items fields

/-! ## 1. The code of items -/

namespace Drafts

variable {q t : Nat} {d : Draft} {w w₁ : Drafts} {stored gathered : List Atom} {fields : List (Bytes × Atom)} {f : Frame}
  {rest : List Frame} {m : Machine} {V : Vars} {N : Names}


/-- **A table is made and filled**, as far as values have been stored; the others are in registers, or a LOADNIL that may
    be widened brings them there. -/
theorem Fills.comes (hmakes : d.MakesTable w.fn) (h : w.Fills w.fn.pc d.free stored gathered fields w₁)
    (hcode : f.proto.Follows w.fn.pc w₁.fn) (hbefore : d.Open → f.proto.code[d.pc - 1]? = some (d.instr (d.pc - 1)))
    (hnew : ∃ i, f.proto.code[d.pc]? = some i ∧ i.opcode = .newTable ∧ i.a.val = d.free) (hp : f.proto.Sound)
    (hl : m.limits.Endless) (hs : m.Sees f rest d.back V) (hN : w₁.Allows N) :
    ∃ V1, m.Comes f rest w₁.fn.back (V1, none) ∧
      (d.completed V).Constructed d.free (stored.map (Atom.eval N (d.completed V)))
        (TableItem.evalFields N (d.completed V) fields) (w₁.fn.completed V1) ∧
      (w₁.fn.completed V1).span (d.free + 1) gathered.length = gathered.map (Atom.eval N (d.completed V)) := by
  obtain ⟨m1, hr1, hs1, hk1⟩ := Draft.comes_pc (.start hs) hbefore hp hl
  have hl1 : m1.limits.Endless := by
    rw [hk1.limits]
    exact hl
  generalize d.completed V = U at hs1 ⊢
  obtain ⟨i, hi, hop, ha⟩ := hnew
  -- the table is new, and empty
  have htable : m1.Comes f rest w.fn.pc (U.newTable d.free, none) := by
    rw [hmakes.appends.pc, ← ha]
    exact Comes.plain hs1 hl1 hi (by rw [hop]; decide) fun m2 h2 => Exec.makes_newTable h2 (hp.fits _ _ hi) hop
  obtain ⟨m2, hr2, hs2, hk2⟩ := htable
  have hl2 : m2.limits.Endless := by
    rw [hk2.limits]
    exact hl1
  obtain ⟨as, hg, hfills⟩ := h.acts
  have hreg : ∀ r, r ≠ d.free → (U.newTable d.free).regs r = U.regs r := fun r hr => if_neg hr
  obtain ⟨V2, T, hrun, hf, hholds⟩ := hfills (U.newTable d.free) U.tables.size .empty
     (if_pos rfl) Array.getElem?_push_size
  obtain ⟨hlists, hspan⟩ := hholds rfl N hN
  have hback : w.fn.back = w.fn.pc := if_neg hmakes.not_open
  have hends : w₁.fn.Ends f rest m2 (Vars.run as (w.fn.completed (U.newTable d.free))) :=
    hg.codes.ends (Nat.le_of_eq hback.symm) hp hcode hl2 (hback ▸ hs2)
  rw [Draft.completed_of_not_open hmakes.not_open, hrun] at hends
  obtain ⟨V1, hcomes, rfl⟩ := hends
  -- what atoms stand for is below the table
  have heval : ∀ a : Atom, a.eval N (U.newTable d.free) = a.eval N U := by
    refine fun a => a.eval_congr (fun x r hx => hreg r ?_) rfl
    have := hN.low x r hx
    have := h.low
    omega
  have hvalues : ∀ es : List Atom,
      es.map (Atom.eval N (U.newTable d.free)) =
        es.map (Atom.eval N U) := fun es => List.map_congr_left fun a _ => heval a
  have hfields : TableItem.evalFields N (U.newTable d.free) fields =
      TableItem.evalFields N U fields := List.map_congr_left fun x _ => by rw [heval]
  rw [hvalues] at hlists hspan
  rw [hfields] at hlists
  refine ⟨V1, (hcomes.after hr2 hk2).after hr1 hk1, ⟨fun r hr => ?_, hf.upvalues, ?_, T, ?_, hlists⟩, hspan⟩
  · exact (hf.regs r (Nat.le_of_lt hr)).trans (hreg r (by omega))
  · exact (hf.regs d.free (Nat.le_refl _)).trans (if_pos rfl)
  · exact hf.tables.trans (modify_push _)

end Drafts

/-! ## 2. The code of a constructor -/

namespace Draft

variable {q b c : Nat} {p : Proto} {d d' d1 d2 : Draft} {is : List Instr}

theorem MakesTable.follows (hm : d.MakesTable d1) (hs : d.Apt d.back) (hkept : ∀ pc < d1.pc, d2.code[pc]? = d1.code[pc]?)
    (hpc : d1.pc ≤ d2.pc) (hclosed : ¬ d2.Open) (h : p.Follows d.back (d2.mapInstr d.pc fun i => (i.setB b).setC c)) :
    p.Follows d1.pc d2 ∧ (d.Open → p.code[d.pc - 1]? = some (d.instr (d.pc - 1))) ∧
      ∃ i, p.code[d.pc]? = some i ∧ i.opcode = .newTable ∧ i.a.val = d.free := by
  have hnext : d1.pc = d.pc + 1 := hm.appends.pc
  have hback := d.back_le
  have hcode : ∀ pc, (d2.mapInstr d.pc fun i => (i.setB b).setC c).code[pc]? =
      if d.pc = pc then d2.code[pc]?.map fun i => (i.setB b).setC c else d2.code[pc]? := fun pc => Array.getElem?_modify
  have hend : (d2.mapInstr d.pc fun i => (i.setB b).setC c).back = d2.pc := by
    have hsize : (d2.mapInstr d.pc fun i => (i.setB b).setC c).pc = d2.pc := Array.size_modify
    refine (if_neg fun ho => hclosed ⟨hsize ▸ ho.1, ?_⟩).trans hsize
    have hop := ho.2
    rw [Draft.instr_mapInstr, hsize] at hop
    split at hop
    · exact hop
    · exact hop
  have hbefore : ∀ pc, d.back ≤ pc → pc < d2.pc → pc ≠ d.pc → p.code[pc]? = d2.code[pc]? := fun pc hle hlt hne => by
    rw [h.code pc hle (by rw [hend]; exact hlt), hcode, if_neg (Ne.symm hne)]
  refine ⟨⟨fun pc hle hlt => hbefore pc (by omega) (Nat.lt_of_lt_of_le hlt d2.back_le) (by omega), h.constants⟩,
    fun hopen => ?_, .ofABC .newTable d.free b c, ?_, by simp, ?_⟩
  · have hlt := hopen.1
    have hat : d.back = d.pc - 1 := if_pos hopen
    rw [hbefore _ (by omega) (by omega) (by omega), hkept _ (by omega), hm.appends.same _ (by omega) fun j hj => ?_, hopen.code]
    have := hs.here j hj
    omega
  · rw [h.code _ hback (by rw [hend]; omega), hcode, if_pos rfl, hkept _ (by omega)]
    have hnew : d1.code[d.pc + 0]? = some (.ofABC .newTable d.free 0 0) := hm.appends.new 0 (by simp)
    rw [Nat.add_zero] at hnew
    rw [hnew]
    rfl
  · have := hm.low
    rw [Instr.a_ofABC, Nat.mod_eq_of_lt (by omega)]

theorem StoresOpen.not_open {t block : Nat} (js : List Instr) (h : StoresOpen t block is) (ha : d.Appends (js ++ is) d') :
    ¬ d'.Open := by
  intro ho
  have hop := ho.2
  cases h with
  | near =>
    rw [ha.last, Instr.opcode_ofABC] at hop
    cases hop
  | far =>
    rw [List.append_cons] at ha
    rw [ha.last, Instr.opcode_ofAx] at hop
    cases hop

theorem Appends.kept (h : d.Appends is d') (hh : d.here = []) {pc : Nat} (hlt : pc < d.pc) : d'.code[pc]? = d.code[pc]? :=
  h.same pc hlt fun j hj => by
    rw [hh] at hj
    exact (List.not_mem_nil hj).elim

end Draft

/-! ## 3. What comes of it -/

namespace Machine

end Machine

namespace Drafts

variable {t : Nat} {d : Draft} {w w' : Drafts} {is : List TableItem} {o : TableItem.Ending} {f : Frame} {rest : List Frame}
  {m : Machine} {V : Vars} {N : Names}

theorem Fills.kept {q : Nat} {stored gathered : List Atom} {fields : List (Bytes × Atom)} (h : w.Fills q t stored gathered fields w')
    (hh : w.fn.here = []) : w'.fn.here = [] ∧ (∀ pc < w.fn.back, w'.fn.code[pc]? = w.fn.code[pc]?) ∧ w.fn.back ≤ w'.fn.back := by
  obtain ⟨as, hg, -⟩ := h.acts
  obtain ⟨hhere, hsame⟩ := hg.codes.kept hh
  exact ⟨hhere, hsame, hg.codes.back_le⟩

theorem Ended.kept {q : Nat} (h : w.Ended q t is o w') (hh : w.fn.here = []) (hw : ¬ w.fn.Open) :
    (∀ pc < w.fn.pc, w'.fn.code[pc]? = w.fn.code[pc]?) ∧ w.fn.pc ≤ w'.fn.pc ∧ ¬ w'.fn.Open := by
  have hpc : w.fn.back = w.fn.pc := if_neg hw
  cases h with
  | nothing h =>
    obtain ⟨-, hsame, hle⟩ := h.kept hh
    rw [hpc] at hsame hle
    exact ⟨hsame, Nat.le_trans hle w'.fn.back_le, h.closed rfl⟩
  | @varargs stored gathered w₁ d' code h hv hb hcode ha hd =>
    obtain ⟨hhere, hsame, hle⟩ := h.kept hh
    rw [hpc] at hsame hle
    have hback := w₁.fn.back_le
    have hsize : d'.pc = w₁.fn.pc + (code.length + 1) := ha.pc
    exact ⟨fun pc hlt => (ha.kept hhere (by omega)).trans (hsame pc hlt), show w.fn.pc ≤ d'.pc by omega,
      hcode.not_open [_] ha⟩
  | @call stored gathered w₁ w2 call us d' code h hv hb hcalls hcode ha hd =>
    obtain ⟨-, hsame, hle⟩ := h.kept hh
    rw [hpc] at hsame hle
    have hlast := hcalls.last
    have hbehind := hcalls.behind
    have hmap : (w2.fn.mapInstr call fun i => i.setC 0).pc = w2.fn.pc := Array.size_modify
    have hsize : d'.pc = w2.fn.pc + code.length := ha.pc.trans (by rw [hmap])
    refine ⟨fun pc hlt => ?_, show w.fn.pc ≤ d'.pc by omega, hcode.not_open [] ha⟩
    rw [show d'.code[pc]? = _ from ha.kept hcalls.here (by rw [hmap]; omega), ← hsame pc hlt, ← hcalls.same pc (by omega)]
    show (w2.fn.code.modify call _)[pc]? = _
    rw [Array.getElem?_modify, if_neg (by omega)]

theorem Allows.of_same {d' : Draft} (h : Drafts.Allows { w with fn := d' } N) (hl : d'.locals = w.fn.locals)
    (hd : d'.declared = w.fn.declared) (ha : d'.active = w.fn.active) (hu : d'.upvalues = w.fn.upvalues) : w.Allows N := by
  have hsame : d'.variableOf? = w.fn.variableOf? := Draft.variableOf?_congr hl hd ha hu
  refine ⟨fun x v hx => h.found x v (by rwa [← hsame] at hx), fun x hx => h.free x fun hd => hx ?_, fun x r hx => ha ▸ h.low x r hx⟩
  exact denotes_cons.mpr ((denotes_cons.mp hd).imp_left fun hsome => by rwa [← hsame])

section

variable (hmakes : d.MakesTable w.fn) (hbefore : d.Open → f.proto.code[d.pc - 1]? = some (d.instr (d.pc - 1)))
  (hnew : ∃ i, f.proto.code[d.pc]? = some i ∧ i.opcode = .newTable ∧ i.a.val = d.free) (hp : f.proto.Sound)
  (hl : m.limits.Endless) (hs : m.Sees f rest d.back V)

include hmakes hbefore hnew hp hl hs

end

end Drafts

open Machine

end LuaMachine
