/-
  TARGETS ARE READ ONE AFTER ANOTHER. Values are stored into the last target first. So a variable that is
  assigned to may not be the table or the key of a target before it: the compiler has those targets use a
  copy instead.

  * `Target.targetsFrom_aims` -- **the targets of an assignment are read**.
-/
import Mathlib.Data.List.Forall2
import LuaMachine.Proofs.Assignment.Reading

namespace LuaMachine

open Compile

/-! ## 1. Tables and keys from variables -/

def TableBase.variable (t : Nat) : TableBase → Variable
  | register => .register t
  | upvalue => .upvalue t

namespace Slot

def Uses (v : Variable) : Slot → Prop
  | var _ => False
  | field base t key => base.variable t = v ∨ key = v.source

def Spares (x y : Slot) : Prop := ∀ v, x = .var v → ¬ y.Uses v

def avoid (copy : Nat) (v : Variable) : Slot → Slot
  | var w => var w
  | field base t key =>
    field (if base.variable t = v then .register else base) (if base.variable t = v then copy else t)
      (if key = v.source then .reg copy else key)

variable {copy n : Nat} {v w : Variable} {x y : Slot} {V : Vars}

theorem source_eq_iff {r : Nat} : v.source = .reg r ↔ v = .register r := by
  cases v <;> simp [Variable.source]

theorem avoid_of_not_uses (h : ¬ x.Uses v) : x.avoid copy v = x := by
  cases x with
  | var w => rfl
  | field base t key =>
    obtain ⟨ht, hk⟩ := not_or.mp h
    rw [avoid, if_neg ht, if_neg ht, if_neg hk]

theorem avoid_eq_var : x.avoid copy v = .var w ↔ x = .var w := by
  cases x <;> simp [avoid]

theorem Uses.of_avoid (h : (x.avoid copy v).Uses w) : x.Uses w ∧ w ≠ v ∨ w = .register copy := by
  cases x with
  | var _ => exact h.elim
  | field base t key =>
    rcases h with h | h
    · by_cases ht : base.variable t = v
      · rw [if_pos ht, if_pos ht] at h
        exact .inr h.symm
      · rw [if_neg ht, if_neg ht] at h
        exact .inl ⟨.inl h, fun hw => ht (h.trans hw)⟩
    · by_cases hk : key = v.source
      · rw [if_pos hk] at h
        exact .inr (source_eq_iff.mp h.symm)
      · rw [if_neg hk] at h
        exact .inl ⟨.inr h, fun hw => hk (hw ▸ h)⟩

theorem store_avoid (h : x.Below copy) : (x.avoid copy v).store (V.setReg copy (v.source.value V)) = x.store V := by
  have hnew : (V.setReg copy (v.source.value V)).regs copy = v.source.value V := if_pos rfl
  have hagrees := Vars.agrees_setReg (Nat.le_refl copy) V (v.source.value V)
  cases x with
  | var w => rfl
  | field base t key =>
    have htable : (if base.variable t = v then TableBase.register else base).value (V.setReg copy (v.source.value V))
        (if base.variable t = v then copy else t) = base.value V t := by
      by_cases ht : base.variable t = v
      · rw [if_pos ht, if_pos ht]
        refine hnew.trans ?_
        rw [← ht]
        cases base <;> rfl
      · rw [if_neg ht, if_neg ht]
        exact h.1.value hagrees
    have hkey : (if key = v.source then Origin.reg copy else key).value (V.setReg copy (v.source.value V)) = key.value V := by
      by_cases hk : key = v.source
      · rw [if_pos hk, hk]
        exact hnew
      · rw [if_neg hk]
        exact h.2.value hagrees
    rw [avoid, Slot.store, Slot.store, htable, hkey]

theorem Below.avoid (h : x.Below n) (hc : copy < n) : (x.avoid copy v).Below n := by
  cases x with
  | var w => exact h
  | field base t key =>
    refine ⟨?_, ?_⟩
    · by_cases ht : base.variable t = v
      · rw [if_pos ht, if_pos ht]
        exact hc
      · rw [if_neg ht, if_neg ht]
        exact h.1
    · split
      · exact hc
      · exact h.2

theorem store_set (h : ¬ x.Uses v) (u : Value) : x.store (V.set v u) = x.store V := by
  cases x with
  | var w => rfl
  | field base t key =>
    obtain ⟨ht, hk⟩ := not_or.mp h
    have htable : base.value (V.set v u) t = base.value V t := by
      cases v <;> cases base <;> first
        | rfl
        | exact if_neg fun he => ht (by rw [he]; rfl)
    have hkey : key.value (V.set v u) = key.value V := by
      cases v <;> cases key <;> first
        | rfl
        | exact if_neg fun he => hk (by rw [he]; rfl)
    rw [Slot.store, Slot.store, htable, hkey]

end Slot

theorem Grammar.avoidConflict_is {constants : Array Constant} {copy : Nat} {v : Variable} {e : Expr} {x : Slot}
    (h : e.place.Is constants x) (hv : v.place.Is constants (.var v)) (hc : copy < 255) :
    (Grammar.avoidConflict copy v.place e).1.place.Is constants (x.avoid copy v) ∧
      ((Grammar.avoidConflict copy v.place e).2 = true ↔ x.Uses v) := by
  obtain ⟨p, onTrue, onFalse⟩ := e
  cases h with
  | localVar hr => exact ⟨.localVar hr, by simp [avoidConflict, Slot.Uses]⟩
  | upvalue hu => exact ⟨.upvalue hu, by simp [avoidConflict, Slot.Uses]⟩
  | @indexed t k base key ht hk =>
    -- an operand is the register of a local if its source is
    have hkey : ∀ r, v = .register r → (k = r ↔ key = .reg r) := by
      intro r hr
      subst hr
      cases hv with
      | localVar hlt =>
        cases key with
        | reg r' =>
          obtain ⟨rfl, -⟩ := hk
          simp
        | upvalue u => exact hk.elim
        | const c =>
          obtain ⟨i, rfl, hi, -⟩ := hk
          have hconst := (Operand.isConstant_ofConstant hi).1
          have hne : Operand.ofConstant i ≠ r := by
            intro he
            rw [he, Operand.isConstant_of_lt (by omega)] at hconst
            cases hconst
          simp [hne]
    have hup : ∀ u, key ≠ .upvalue u := by
      rintro u rfl
      exact hk
    have heq : avoidConflict copy v.place ⟨.indexed t k base, onTrue, onFalse⟩ =
        (⟨.indexed (if base.variable t = v then copy else t) (if key = v.source then copy else k)
            (if base.variable t = v then .register else base), onTrue, onFalse⟩,
          decide (base.variable t = v) || decide (key = v.source)) := by
      cases v with
      | register r =>
        have hr := hkey r rfl
        by_cases hs : key = .reg r <;> cases base <;>
          simp [avoidConflict, Variable.place, Variable.source, TableBase.variable, hr, hs]
      | upvalue u => cases base <;> simp [avoidConflict, Variable.place, Variable.source, TableBase.variable, hup]
    rw [heq]
    refine ⟨.indexed ?_ ?_, by simp [Slot.Uses]⟩
    · split
      · exact hc
      · exact ht
    · by_cases hs : key = v.source
      · rw [if_pos hs, if_pos hs]
        exact ⟨rfl, hc⟩
      · rw [if_neg hs, if_neg hs]
        exact hk

/-- **Copies are made**: targets that use the variable assigned to take it from a copy. -/
theorem Compile.Writes.checkConflict_avoids {q : Nat} {d : Draft} {v : Variable} {es : List Expr} {xs : List Slot}
    (hs : d.Apt q) (hv : v.place.Is d.constants (.var v)) (hes : List.Forall₂ (fun e x => e.place.Is d.constants x) es xs)
    (hlow : ∀ x ∈ xs, x.Below d.free) :
    Writes (Grammar.checkConflict v.place es) d fun es' d' =>
      List.Forall₂ (fun e x => e.place.Is d'.constants x) es' (xs.map (Slot.avoid d.free v)) ∧
        (∃ as, d.Gains q as d' ∧ Act.Prepares as d.free fun V V' => ∀ x ∈ xs, (x.avoid d.free v).store V' = x.store V) ∧
        (∀ x ∈ xs, (x.avoid d.free v).Below d'.free) ∧ d.free ≤ d'.free := by
  have hfree : d.free < 255 := by
    have := hs.roomy.free
    have := hs.roomy.stack
    omega
  have hchecked : List.Forall₂ (fun e x => e.place.Is d.constants x)
      ((es.map (Grammar.avoidConflict d.free v.place)).map (·.1)) (xs.map (Slot.avoid d.free v)) := by
    rw [List.map_map, List.forall₂_map_left_iff, List.forall₂_map_right_iff]
    exact hes.imp fun e x h => (Grammar.avoidConflict_is h hv hfree).1
  have hflags : (es.map (Grammar.avoidConflict d.free v.place)).any (·.2) = true ↔ ∃ x ∈ xs, x.Uses v := by
    clear hchecked hlow
    induction hes with
    | nil => simp
    | cons h _ ih =>
      rw [List.map_cons, List.any_cons, Bool.or_eq_true, ih, (Grammar.avoidConflict_is h hv hfree).2]
      simp
  unfold Grammar.checkConflict
  refine Writes.get fun s hfn => ?_
  subst hfn
  dsimp only
  split
  · -- a copy is made
    have hcopied : ∀ d' : Draft, s.fn.Gains q [.load s.fn.free v.source] d' → d'.free = s.fn.free + 1 →
        List.Forall₂ (fun e x => e.place.Is d'.constants x)
            ((es.map (Grammar.avoidConflict s.fn.free v.place)).map (·.1)) (xs.map (Slot.avoid s.fn.free v)) ∧
          (∃ as, s.fn.Gains q as d' ∧
            Act.Prepares as s.fn.free fun V V' => ∀ x ∈ xs, (x.avoid s.fn.free v).store V' = x.store V) ∧
          (∀ x ∈ xs, (x.avoid s.fn.free v).Below d'.free) ∧ s.fn.free ≤ d'.free := by
      intro d' hg hf
      refine ⟨hchecked.imp fun e x h => h.mono hg.constants, ⟨_, hg, ?_⟩, fun x hx => ?_, by omega⟩
      · exact .load (Nat.le_refl _) fun V x hx => Slot.store_avoid (hlow x hx)
      · exact ((hlow x hx).mono (by omega)).avoid (by omega)
    cases v with
    | register r =>
      have hr : r < 255 := by cases hv; assumption
      refine Writes.bind (Writes.discard ((Writes.emit_gains hs (.move hfree hr)).imp fun _ d1 ⟨hg, hf⟩ => ?_))
      refine (Writes.reserve_gains hg.steady 1).andThen fun _ d' ⟨hg', hf', _⟩ => Writes.pure (hcopied d' ?_ (by omega))
      exact hg.trans hg'
    | upvalue u =>
      have hu : u < 255 := by cases hv; assumption
      refine Writes.bind (Writes.discard ((Writes.emit_gains hs (.getUpvalue hfree hu)).imp fun _ d1 ⟨hg, hf⟩ => ?_))
      refine (Writes.reserve_gains hg.steady 1).andThen fun _ d' ⟨hg', hf', _⟩ => Writes.pure (hcopied d' ?_ (by omega))
      exact hg.trans hg'
  · next hnone =>
    have hsame : ∀ x ∈ xs, x.avoid s.fn.free v = x := fun x hx =>
      Slot.avoid_of_not_uses fun hu => hnone (hflags.mpr ⟨x, hx, hu⟩)
    refine Writes.pure ⟨hchecked, ⟨[], .refl hs, .nothing fun V x hx => by rw [hsame x hx]⟩, fun x hx => ?_, Nat.le_refl _⟩
    rw [hsame x hx]
    exact hlow x hx

/-! ## 2. Lists of targets -/

theorem Target.eval_agrees {n : Nat} {N : Names} {V V' : Vars} (t : Target)
    (hN : ∀ (x : Bytes) (r : Nat), N x = some (.register r) → r < n) (hv : V.Agrees n V') : t.eval N V' = t.eval N V := by
  cases t with
  | var x => rw [Target.eval, Target.eval, Atom.eval_agrees (.var environmentName) hN hv]
  | index a k => rw [Target.eval, Target.eval, a.eval_agrees hN hv, k.eval_agrees hN hv]
  | field a x => rw [Target.eval, Target.eval, a.eval_agrees hN hv]

/-- **Targets have been read**, the last one first: each is at its slot, and storing into one leaves those before it
    where they were. -/
structure Drafts.AimsAll (q : Nat) (w : Drafts) (ts : List Target) (es : List Expr) (xs : List Slot) (w' : Drafts) :
    Prop where
  places : List.Forall₂ (fun e x => e.place.Is w'.fn.constants x) es xs
  acts : ∃ as, w.Gains q as w' ∧
    Act.Prepares as w.fn.free fun V V' => ∀ N : Names, w'.Allows N → xs.map (Slot.store V') = ts.map (Target.eval N V)
  below : ∀ x ∈ xs, x.Below w'.fn.free
  locals : ∀ x ∈ xs, ∀ r, x = .var (.register r) → r < w'.fn.active
  spares : xs.Pairwise Slot.Spares
  grows : w.fn.free ≤ w'.fn.free

namespace Drafts.AimsAll

variable {q : Nat} {w w1 w2 : Drafts} {t : Target} {ts : List Target} {e : Expr} {es es' : List Expr} {x : Slot}
  {xs xs' : List Slot} {d' : Draft}

theorem single (h : w.Aims q t e x w1) : w.AimsAll q [t] [e] [x] w1 := by
  obtain ⟨as, hg, hprep⟩ := h.acts
  refine ⟨.cons h.place .nil, ⟨as, hg, hprep.imp fun V V' _ hv N hN => ?_⟩, ?_, ?_, List.pairwise_singleton _ _, h.grows⟩
  · rw [List.map_singleton, List.map_singleton, hv N hN]
  · exact List.forall_mem_singleton.mpr h.below
  · exact List.forall_mem_singleton.mpr h.locals

theorem push (hw : w.fn.Apt q) (h : w.AimsAll q ts es xs w1) (ht : w1.Aims q t e x w2)
    (hes : List.Forall₂ (fun e x => e.place.Is d'.constants x) es' xs')
    (hacts : ∃ as, w2.fn.Gains q as d' ∧
      Act.Prepares as w2.fn.free fun V V' => xs'.map (Slot.store V') = xs.map (Slot.store V))
    (hbelow : ∀ y ∈ xs', y.Below d'.free) (hvars : ∀ y ∈ xs', ∀ v, y = .var v → y ∈ xs)
    (hspares : (x :: xs').Pairwise Slot.Spares) (hgrows : w2.fn.free ≤ d'.free) :
    w.AimsAll q (t :: ts) (e :: es') (x :: xs') { w2 with fn := d' } := by
  obtain ⟨as, hg, hprep⟩ := h.acts
  obtain ⟨bs, hg2, hprep2⟩ := ht.acts
  obtain ⟨cs, hg3, hprep3⟩ := hacts
  have hlift := hg3.lift
  have hlow : w.fn.active ≤ w.fn.free := hw.roomy.active
  refine ⟨.cons (ht.place.mono hg3.constants) hes, ⟨_, (hg.trans hg2).trans hlift, ?_⟩, ?_, ?_, hspares,
    Nat.le_trans (Nat.le_trans h.grows ht.grows) hgrows⟩
  · have hboth : Act.Prepares (as ++ bs) w.fn.free fun V V'' => ∀ N : Names, w2.Allows N →
        x.store V'' = t.eval N V ∧ xs.map (Slot.store V'') = ts.map (Target.eval N V) := by
      refine hprep.append hprep2 h.grows fun V V' V'' ha hv ha' hv' N hN => ⟨?_, ?_⟩
      · rw [hv' N hN]
        refine t.eval_agrees (fun y r hy => ?_) ha
        have := (hg.allows (hg2.allows hN)).low y r hy
        omega
      · rw [← hv N (hg2.allows hN)]
        exact List.map_congr_left fun y hy => (h.below y hy).store ha'
    refine hboth.append hprep3 (Nat.le_trans h.grows ht.grows) fun V V' V'' ha hv ha' hv' N hN => ?_
    obtain ⟨hx, hxs⟩ := hv N (hlift.allows hN)
    rw [List.map_cons, List.map_cons, ht.below.store ha', hx, hv', hxs]
  · exact List.forall_mem_cons.mpr ⟨ht.below.mono hgrows, hbelow⟩
  · refine List.forall_mem_cons.mpr ⟨fun r hr => ?_, fun y hy r hr => ?_⟩
    · exact hg3.active ▸ ht.locals r hr
    · have hlt := h.locals y (hvars y hy _ hr) r hr
      rw [← hg2.active] at hlt
      exact hg3.active ▸ hlt

end Drafts.AimsAll

theorem Token.commas_cons (ts : List Token) (more : List (List Token)) :
    Token.commas (ts :: more) = ts ++ more.flatMap fun us => .symbol .comma :: us := by
  induction more generalizing ts with
  | nil => simp [Token.commas]
  | cons us more ih => rw [Token.commas, ih, List.flatMap_cons, List.cons_append]; simp

namespace Target

variable {q bound n : Nat} {w w1 : Drafts} {more : List Token}

theorem next_aims {α : Type} {f : List Expr → Compile α} {Q : α → List Token → Drafts → Prop} {t : Target} {ts : List Target}
    {e : Expr} {es : List Expr} {x : Slot} {xs : List Slot} {us : List Token} {w2 : Drafts} (hw : w.fn.Apt q)
    (h : w.AimsAll q ts es xs w1) (ht : w1.Aims q t e x w2)
    (hf : ∀ es' xs' w', w.AimsAll q (t :: ts) (e :: es') (x :: xs') w' → Walks (f es') us w' Q) :
    Walks (match e.place with
      | .indexed .. => pure es >>= f
      | p => Grammar.checkConflict p es >>= f) us w2 Q := by
  obtain ⟨as, hg, -⟩ := h.acts
  obtain ⟨bs, hg2, -⟩ := ht.acts
  have hplaces : List.Forall₂ (fun e x => e.place.Is w2.fn.constants x) es xs := h.places.imp fun _ _ hx => hx.mono hg2.constants
  have hbelow : ∀ y ∈ xs, y.Below w2.fn.free := fun y hy => (h.below y hy).mono ht.grows
  have hvariable : ∀ v, x = .var v → e.place = v.place → Walks (Grammar.checkConflict v.place es >>= f) us w2 Q := by
    intro v hx hp
    subst hx
    have hplace := ht.place
    rw [hp] at hplace
    refine Walks.write (Writes.checkConflict_avoids hg2.steady hplace hplaces hbelow) fun es' d' h' => ?_
    obtain ⟨hes, ⟨cs, hg3, hprep⟩, hlow, hgrows⟩ := h'
    have hactive := hg2.steady.roomy.active
    refine hf _ _ _ (h.push hw ht hes ⟨cs, hg3, hprep.imp fun V V' _ hv => ?_⟩ ?_ ?_ ?_ hgrows)
    · rw [List.map_map]
      exact List.map_congr_left hv
    · rw [List.forall_mem_map]
      exact hlow
    · rw [List.forall_mem_map]
      intro y hy u hu
      rw [hu, ← Slot.avoid_eq_var.mp hu]
      exact hy
    · refine List.pairwise_cons.mpr ⟨fun y hy u hu => ?_, ?_⟩
      · cases hu
        obtain ⟨y', -, rfl⟩ := List.mem_map.mp hy
        intro huses
        rcases huses.of_avoid with ⟨-, hne⟩ | hcopy
        · exact hne rfl
        · have := ht.locals _ (by rw [hcopy])
          omega
      · refine List.pairwise_map.mpr (h.spares.imp_of_mem fun {y z} hy _ hyz u hu huses => ?_)
        have hvar := Slot.avoid_eq_var.mp hu
        rcases huses.of_avoid with ⟨huses', -⟩ | hcopy
        · exact hyz u hvar huses'
        · have hlt := h.locals y hy _ (by rw [hvar, hcopy])
          rw [← hg2.active] at hlt
          omega
  have hplace := ht.place
  cases hp : e.place with
  | localVar r =>
    rw [hp] at hplace
    cases hplace
    exact hvariable (.register r) rfl hp
  | upvalue u =>
    rw [hp] at hplace
    cases hplace
    exact hvariable (.upvalue u) rfl hp
  | indexed r k base =>
    rw [hp] at hplace
    cases hplace with
    | indexed hr hk =>
      refine Walks.bind (Walks.pure (hf _ _ _ (h.push hw ht hplaces ⟨[], .refl hg2.steady, .nothing fun V => rfl⟩ hbelow
        (fun y hy _ _ => hy) ?_ (Nat.le_refl _))))
      exact List.pairwise_cons.mpr ⟨fun y _ u hu => (by cases hu), h.spares⟩
  | _ =>
    rw [hp] at hplace
    cases hplace

/-- **The targets of an assignment are read.** -/
theorem targetsFrom_aims {rest : List Target} (hw : w.fn.Apt q) (henv : w.Denotes environmentName)
    (hk : ∀ t ∈ rest, t.Known w) (left : Nat) {t : Target} {ts : List Target} {e : Expr} {es : List Expr} {x : Slot} {xs : List Slot}
    (h : w.AimsAll q (t :: ts) (e :: es) (x :: xs) w1) :
    Walks ((Grammar.ofLevels Compile.named bound n).targetsFrom left e es)
      (rest.flatMap (fun t => .symbol .comma :: t.tokens) ++ .symbol .assign :: more) w1 fun es' us w' =>
        us = .symbol .assign :: more ∧ ∃ xs', w.AimsAll q (rest.reverse ++ t :: ts) es' xs' w' := by
  have hvariable : e.place.isVariable = true := by
    cases h.places with
    | cons hx _ => exact hx.isVariable
  induction rest generalizing left t ts e es x xs w1 with
  | nil =>
    unfold Grammar.targetsFrom
    rw [if_pos hvariable]
    exact Walks.testNext_stay (by decide) (Walks.pure ⟨rfl, x :: xs, h⟩)
  | cons t' rest ih =>
    obtain ⟨as, hg, -⟩ := h.acts
    obtain ⟨hk', hrest⟩ := List.forall_mem_cons.mp hk
    -- what follows the target is a comma or the sign of the assignment
    have hnext : ∃ u us, rest.flatMap (fun t => .symbol .comma :: t.tokens) ++ .symbol .assign :: more = u :: us ∧
        u.isSuffix = false := by
      cases rest with
      | nil => exact ⟨_, _, rfl, rfl⟩
      | cons r rest => exact ⟨_, _, rfl, rfl⟩
    obtain ⟨u, us, hus, hstop⟩ := hnext
    have hknown : t'.Known w1 := by
      cases t' with
      | var y => trivial
      | index a k => exact ⟨hk'.1.gains hg, hk'.2.gains hg⟩
      | field a y => exact Atom.Known.gains hk' hg
    rw [Grammar.targetsFrom.eq_def, if_pos hvariable, List.flatMap_cons, List.append_assoc, hus, List.cons_append]
    refine Walks.testNext_pass (by simp) ?_
    refine (suffixed_aims hg.steady ((hg.names _).mpr henv) hknown hstop).andThen fun e' us' w2 ⟨hus', y, ht⟩ => ?_
    subst hus'
    refine next_aims hw h ht fun es' ys w3 h' => ?_
    cases left with
    | zero => exact Walks.failNear
    | succ left =>
      have hvariable' : e'.place.isVariable = true := by
        cases h'.places with
        | cons hx _ => exact hx.isVariable
      rw [← hus, List.reverse_cons, List.append_assoc]
      exact ih hrest left h' hvariable'

end Target

end LuaMachine
