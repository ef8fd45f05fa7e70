/-
  MULTIPLE ASSIGNMENT IS SIMULTANEOUS. All tables, keys and values are taken first; values beyond the
  targets are dropped, and nil stands for missing ones; then the values are stored, the last target first.

  * `Assignment.statement_performs` -- **the function that runs this code performs the assignment**.
-/
import LuaMachine.Proofs.Assignment.Run
import LuaMachine.Proofs.Assignment.Unwinding

namespace LuaMachine

open Compile

/-! ## 1. Values in registers -/

namespace Vars

variable {low n k : Nat} {V V' : Vars}

theorem span_take (V : Vars) (low : Nat) (h : n ≤ k) : (V.span low k).take n = V.span low n := by
  rw [span, span, ← List.map_take, List.take_range, Nat.min_eq_left h]

theorem span_clear (V : Vars) (low n k : Nat) : (V.clear (low + n) k).span low (n + k) = V.span low n ++ List.replicate k .nil := by
  induction k with
  | zero =>
    rw [List.replicate_zero, List.append_nil]
    refine List.map_congr_left fun i hi => if_neg ?_
    omega
  | succ k ih =>
    have hlow : (V.clear (low + n) (k + 1)).span low (n + k) = (V.clear (low + n) k).span low (n + k) := by
      refine List.map_congr_left fun i hi => ?_
      have hlt := List.mem_range.mp hi
      exact ite_congr (propext ⟨fun h => ⟨h.1, by omega⟩, fun h => ⟨h.1, by omega⟩⟩) (fun _ => rfl) fun _ => rfl
    have hlast : (V.clear (low + n) (k + 1)).regs (low + (n + k)) = .nil := if_pos (by omega)
    rw [← Nat.add_assoc, span_succ, hlow, ih, hlast, List.replicate_succ', List.append_assoc]

end Vars

namespace Slot

theorem takes_zip (low : Nat) (V : Vars) (xs : List Slot) :
    takes low V xs = ((xs.map (Slot.store V)).reverse.zip (V.span low xs.length)).reverse := by
  induction xs with
  | nil => rfl
  | cons y ys ih =>
    rw [takes, ih, List.length_cons, Vars.span_succ, List.map_cons, List.reverse_cons,
      List.zip_append (by simp [Vars.length_span]), List.reverse_append]
    rfl

theorem takes_cons_zip (low : Nat) (V : Vars) (x : Slot) (v : Value) (rest : List Slot) :
    (x.store V, v) :: takes low V rest =
      (((x :: rest).map (Slot.store V)).reverse.zip (V.span low rest.length ++ [v])).reverse := by
  rw [takes_zip, List.map_cons, List.reverse_cons, List.zip_append (by simp [Vars.length_span]), List.reverse_append]
  rfl

end Slot

/-! ## 2. Values -/

namespace Drafts

/-- The values of a list have been read: all but the last are in registers. -/
structure Lists (q : Nat) (w : Drafts) (done : List Atom) (last : Atom) (p : Place) (s : Origin) (w' : Drafts) : Prop where
  gives : p.Gives w'.fn.constants s
  source : s.Below w'.fn.active
  cost : p.cost w'.fn.active = s.cost w'.fn.active
  acts : ∃ as, w.Gains q as w' ∧ Act.Prepares as w.fn.free fun V V' => ∀ N : Names, w'.Allows N →
    V'.span w.fn.free done.length = done.map (Atom.eval N V) ∧ s.value V' = last.eval N V
  free : w'.fn.free = w.fn.free + done.length

structure Gathers (q : Nat) (w : Drafts) (n : Nat) (es : List Atom) (w' : Drafts) : Prop where
  acts : ∃ as, w.Gains q as w' ∧ Act.Prepares as w.fn.free fun V V' => ∀ N : Names, w'.Allows N →
    V'.span w.fn.free n = Exec.adjust n (es.map (Atom.eval N V))
  free : w'.fn.free = w.fn.free + n

variable {q n : Nat} {w w1 w2 : Drafts} {done : List Atom} {last a : Atom} {p p' : Place} {s s' : Origin} {d' : Draft}

theorem Lists.first (h : w.Finds q a p s w1) : w.Lists q [] a p s w1 :=
  ⟨h.gives, h.below, h.cost, ⟨[], h.gains, .nothing fun V N hN => ⟨rfl, h.value N V hN⟩⟩, h.free⟩

theorem Lists.settled (h : w.Lists q done last p s w1) :
    Writes (Compile.toNextRegister (.plain p)) w1.fn fun _ d' => d'.free = w.fn.free + (done.length + 1) ∧
      ∃ as, w.Gains q as { w1 with fn := d' } ∧ Act.Prepares as w.fn.free fun V V' => ∀ N : Names,
        Allows { w1 with fn := d' } N →
          V'.span w.fn.free (done.length + 1) = (done ++ [last]).map (Atom.eval N V) := by
  obtain ⟨as, hg, hprep⟩ := h.acts
  have hfetch : Fetches w1.fn s p w1.fn := .of_gives h.gives hg.steady.roomy
  refine (Writes.toNextRegister_gains hg.steady hfetch h.source).imp fun r d' ⟨hr, hload, hfree, _⟩ => ?_
  subst hr
  have hlift := hload.lift
  have hlow := h.free
  refine ⟨by omega, _, hg.trans hlift, ?_⟩
  have hnext : Act.Prepares [.load w1.fn.free s] w1.fn.free fun V V' => V'.regs w1.fn.free = s.value V :=
    .load (Nat.le_refl _) fun V => if_pos rfl
  refine hprep.append hnext (by omega) fun V V' V'' ha hv ha' hv' N hN => ?_
  obtain ⟨hspan, hlast⟩ := hv N (hlift.allows hN)
  rw [hlow] at ha' hv'
  rw [Vars.span_succ, ha'.span, hspan, hv', hlast, List.map_append, List.map_singleton]

theorem Lists.more (hw : w.fn.Apt q) {as : List Act} (hg : w.Gains q as w1)
    (hprep : Act.Prepares as w.fn.free fun V V' => ∀ N : Names, w1.Allows N →
      V'.span w.fn.free n = done.map (Atom.eval N V)) (hlen : done.length = n) (hfree : w1.fn.free = w.fn.free + n)
    (h : w1.Finds q a p s w2) : w.Lists q done a p s w2 := by
  subst hlen
  refine ⟨h.gives, h.below, h.cost, ⟨as, by simpa using hg.trans h.gains, hprep.imp fun V V' ha hv N hN => ⟨?_, ?_⟩⟩, ?_⟩
  · exact hv N (h.gains.allows hN)
  · have hN1 := h.gains.allows hN
    rw [h.value N V' hN]
    refine a.eval_agrees (fun y r hy => ?_) ha
    have := (hg.allows hN1).low y r hy
    have := hw.roomy.active
    omega
  · rw [h.free, hfree]

end Drafts

structure Assignment.Ends (a : Assignment) (t : Token) : Prop where
  comma : t ≠ .symbol .comma
  stops : ∀ e ∈ a.values.getLast?, e.Stops t

namespace Atom

variable {q bound n m : Nat} {w w1 : Drafts} {t : Token} {more : List Token} {rest : List Atom}

theorem stops_comma (a : Atom) : a.Stops (.symbol .comma) := by
  cases a <;> first | exact ⟨rfl, rfl⟩ | exact rfl

theorem follower (a : Atom) (rest : List Atom) (t : Token) (more : List Token) (hstop : ∀ e ∈ (a :: rest).getLast?, e.Stops t) :
    ∃ u us, rest.flatMap (fun e => [.symbol .comma, e.token]) ++ t :: more = u :: us ∧ a.Stops u := by
  cases rest with
  | nil => exact ⟨t, more, rfl, hstop a rfl⟩
  | cons b rest => exact ⟨_, _, rfl, a.stops_comma⟩

/-- **The values of an assignment are read**, all but the last into registers. -/
theorem exprsFrom_lists (hw : w.fn.Apt q) (hk : ∀ e ∈ rest, e.Known w) (hcomma : t ≠ .symbol .comma) {last : Atom}
    (hstop : ∀ e ∈ (last :: rest).getLast?, e.Stops t) {done : List Atom} {p : Place} {s : Origin}
    (h : w.Lists q done last p s w1) :
    Walks ((Grammar.ofLevels Compile.named bound n).exprsFrom m (done.length + 1) (.plain p))
      (rest.flatMap (fun e => [.symbol .comma, e.token]) ++ t :: more) w1 fun r us w' => us = t :: more ∧
        ∃ done' last' p' s', r = (done'.length + 1, .plain p') ∧ done' ++ [last'] = done ++ last :: rest ∧
          w.Lists q done' last' p' s' w' := by
  induction rest generalizing m done last p s w1 with
  | nil =>
    cases m with
    | zero => exact Walks.failNear
    | succ m => exact Walks.testNext_stay hcomma (Walks.pure ⟨rfl, done, last, p, s, rfl, rfl, h⟩)
  | cons e rest ih =>
    cases m with
    | zero => exact Walks.failNear
    | succ m =>
      obtain ⟨hke, hrest⟩ := List.forall_mem_cons.mp hk
      have hstop' : ∀ e' ∈ (e :: rest).getLast?, e'.Stops t := by
        rwa [List.getLast?_cons_cons] at hstop
      obtain ⟨u, us, hus, hu⟩ := follower e rest t more hstop'
      rw [List.flatMap_cons, List.append_assoc, hus]
      refine Walks.testNext_pass (by simp) ?_
      refine Walks.bind (Walks.discard (Walks.ofWrites h.settled fun r d' ⟨hfree, as, hg, hprep⟩ => ?_))
      refine (expr_finds hg.steady (hke.gains hg) hu).andThen fun e' us' w2 ⟨hus', p', s', he', hf⟩ => ?_
      subst hus' he'
      rw [← hus]
      have hlists : w.Lists q (done ++ [last]) e p' s' w2 :=
        .more hw hg hprep (by simp) hfree hf
      have hih := ih hrest hstop' (m := m) hlists
      rw [List.length_append, List.length_singleton, List.append_assoc] at hih
      exact hih

end Atom

/-- **Values beyond the targets are dropped, missing ones are filled up with nil.** -/
theorem Grammar.adjust_gathers {q : Nat} {w w1 : Drafts} {done : List Atom} {last : Atom} {p : Place} {s : Origin} (n : Nat)
    (hw : w.fn.Apt q) (h : w.Lists q done last p s w1) :
    Writes (Grammar.adjust n (done.length + 1) (.plain p)) w1.fn fun _ d' =>
      w.Gathers q n (done ++ [last]) { w1 with fn := d' } := by
  have hmulti : (Expr.plain p).place.isMulti = false := by
    cases h.gives <;> rfl
  have hvoid : (Expr.plain p).place ≠ .void := by
    cases h.gives <;> exact Place.noConfusion
  unfold Grammar.adjust
  rw [hmulti]
  simp only [Bool.false_eq_true, if_false, if_pos hvoid]
  refine Writes.bind (Writes.discard (h.settled.imp fun r d1 ⟨hfree, as, hg, hprep⟩ => ?_))
  have hlength : ∀ (N : Names) (V : Vars), ((done ++ [last]).map (Atom.eval N V)).length = done.length + 1 := by simp
  split
  · next hlt =>
    refine Writes.get fun c hc => ?_
    rw [hc]
    refine (Writes.reserve_gains hg.steady (n - (done.length + 1))).andThen fun _ d2 ⟨hg2, hfree2, hroom⟩ => ?_
    have hsum : d1.free + (n - (done.length + 1)) ≤ 254 := hroom
    refine (Writes.loadNil_gains hg2.steady (by omega) (by omega)).andThen fun _ d3 ⟨hg3, hfree3⟩ => ?_
    rw [if_neg (by omega)]
    have hlift := (hg2.trans hg3).lift
    refine Writes.pure ⟨⟨_, hg.trans hlift, ?_⟩, ?_⟩
    · have hnils : Act.Prepares (Act.nils d1.free (n - (done.length + 1))) d1.free fun V V' =>
          V' = V.clear d1.free (n - (done.length + 1)) := fun V =>
        ⟨_, Vars.run_nils V _ _, ⟨fun r hr => if_neg (by omega), rfl, rfl⟩, rfl⟩
      refine hprep.append hnils (by omega) fun V V' V'' ha hv _ hv' N hN => ?_
      have hn : n = done.length + 1 + (n - (done.length + 1)) := by omega
      rw [hv', hfree]
      conv_lhs => rw [hn]
      rw [Nat.add_sub_cancel_left, Vars.span_clear, hv N (hlift.allows hN), Exec.adjust, hlength,
        List.take_of_length_le (by rw [hlength]; omega)]
    · show d3.free = w.fn.free + n
      have : d2.free = d1.free + (n - (done.length + 1)) := hfree2
      omega
  · next hge =>
    have hspan : ∀ (N : Names) (V V' : Vars), V'.span w.fn.free (done.length + 1) = (done ++ [last]).map (Atom.eval N V) →
        V'.span w.fn.free n = Exec.adjust n ((done ++ [last]).map (Atom.eval N V)) := by
      intro N V V' hv
      rw [Exec.adjust, hlength, ← hv, Vars.span_take _ _ (by omega), Nat.sub_eq_zero_of_le (by omega), List.replicate_zero,
        List.append_nil]
    split
    · next hlt =>
      refine Writes.demanding fun _ => Writes.modifyFn ?_
      have hactive := hw.roomy.active
      have hsame := hg.active
      have hroom := hg.steady.roomy.free
      have hroomy : { d1 with maxStack := d1.maxStack, free := d1.free - (done.length + 1 - n) }.Roomy := by
        refine ⟨?_, ?_, hg.steady.roomy.stack, hg.steady.roomy.constants⟩
        · show d1.active ≤ d1.free - (done.length + 1 - n)
          have : d1.active = w.fn.active := hsame
          omega
        · exact Nat.le_trans (Nat.sub_le _ _) hroom
      have hlift := (Draft.Gains.retake hg.steady hroomy).lift
      refine ⟨⟨_, hg.trans hlift, ?_⟩, ?_⟩
      · rw [List.append_nil]
        exact hprep.imp fun V V' _ hv N hN => hspan N V V' (hv N (hlift.allows hN))
      · show d1.free - (done.length + 1 - n) = w.fn.free + n
        omega
    · next hle =>
      refine Writes.pure ⟨⟨_, hg, hprep.imp fun V V' _ hv N hN => hspan N V V' (hv N hN)⟩, ?_⟩
      show d1.free = w.fn.free + n
      omega

/-! ## 3. Assignments -/

namespace Grammar

variable {q bound n : Nat} {w w1 w2 : Drafts} {es : List Expr} {xs : List Slot} {ts : List Target} {values done : List Atom}
  {last : Atom} {p : Place} {s : Origin}

/-- **The targets have got their values**, all of them taken in one state. -/
def Performs (q : Nat) (w : Drafts) (ts : List Target) (values : List Atom) (w' : Drafts) : Prop :=
  ∃ as, w.Gains q as w' ∧ ∀ N : Names, w'.Allows N → ∀ V : Vars,
    Vars.Matches w.fn.active
      (Vars.storeAll ((ts.map (Target.eval N V)).zip (Exec.adjust ts.length (values.map (Atom.eval N V)))).reverse V) (V.run as)

theorem performs_of_stores {d' : Draft} (hw : w.fn.Apt q) {as bs : List Act} {low : Nat} (hlow : w.fn.active ≤ low)
    (hg : w.Gains q as w1) (hg' : w1.fn.Gains q bs d') (V : Vars → List (Store × Value))
    (hbs : ∀ U : Vars, Vars.Matches low (Vars.storeAll (V U) U) (U.run bs))
    (has : Act.Prepares as w.fn.free fun U U' => ∀ N : Names, w1.Allows N →
      V U' = ((ts.map (Target.eval N U)).zip (Exec.adjust ts.length (values.map (Atom.eval N U)))).reverse) :
    Performs q w ts values { w1 with fn := d' } := by
  have hlift := hg'.lift
  refine ⟨_, hg.trans hlift, fun N hN U => ?_⟩
  obtain ⟨U', hrun, hagrees, hlist⟩ := has U
  rw [Vars.run_append hrun, ← hlist N (hlift.allows hN)]
  exact ((hagrees.mono hw.roomy.active).storeAll _).trans ((hbs U').mono hlow)

theorem prepares_values {bs : List Act} {R : Vars → Vars → Prop} (hw : w.fn.Apt q) (h : w.AimsAll q ts es xs w1)
    (hg : w1.Gains q bs w2) (hprep : Act.Prepares bs w1.fn.free R) :
    ∃ as, w.Gains q as w2 ∧ Act.Prepares as w.fn.free fun V V' => ∃ U, R U V' ∧ ∀ N : Names, w2.Allows N →
      xs.map (Slot.store V') = ts.map (Target.eval N V) ∧ ∀ a : Atom, a.eval N U = a.eval N V := by
  obtain ⟨as, hg1, hprep1⟩ := h.acts
  refine ⟨_, hg1.trans hg, hprep1.append hprep h.grows fun V V' V'' ha hv ha' hv' => ⟨V', hv', fun N hN => ⟨?_, fun a => ?_⟩⟩⟩
  · rw [← hv N (hg.allows hN)]
    exact List.map_congr_left fun y hy => (h.below y hy).store ha'
  · refine a.eval_agrees (fun y r hy => ?_) ha
    have := (hg1.allows (hg.allows hN)).low y r hy
    have := hw.roomy.active
    omega

theorem places_gains {bs : List Act} (h : w.AimsAll q ts es xs w1) (hg : w1.Gains q bs w2) :
    List.Forall₂ (fun e x => e.place.Is w2.fn.constants x) es xs ∧ (∀ x ∈ xs, ∀ r, x = .var (.register r) → r < w2.fn.active) ∧
      xs.length = ts.length ∧ w2.fn.active = w.fn.active := by
  obtain ⟨as, hg1, hprep⟩ := h.acts
  refine ⟨h.places.imp fun _ _ hx => hx.mono hg.constants, fun x hx r hr => ?_, ?_, hg.active.trans hg1.active⟩
  · rw [hg.active]
    exact h.locals x hx r hr
  · obtain ⟨V', -, -, hmap⟩ := hprep ⟨fun _ => .nil, fun _ => .nil, #[]⟩
    simpa using congrArg List.length (hmap _ w1.allows_variableOf?)

theorem storeAll_performs (hw : w.fn.Apt q) (h : w.AimsAll q ts.reverse es xs w1) (hv : w1.Gathers q ts.length values w2) :
    Writes (storeAll es) w2.fn fun _ d' => Performs q w ts values { w2 with fn := d' } := by
  obtain ⟨as, hg, hprep⟩ := hv.acts
  obtain ⟨hplaces, hlocals, hlength, hactive⟩ := places_gains h hg
  obtain ⟨bs, hg', hprep'⟩ := prepares_values hw h hg hprep
  have hlow : w.fn.active ≤ w1.fn.free := Nat.le_trans hw.roomy.active h.grows
  have hfree := hv.free
  rw [List.length_reverse] at hlength
  refine (Writes.storeAll_stores hg.steady hplaces h.below (fun x hx r hr => ?_) h.spares (by omega)
    (by omega)).imp fun _ d' ⟨cs, hstore, hmatch⟩ => ?_
  · have := hlocals x hx r hr
    omega
  · refine performs_of_stores hw hlow hg' hstore (fun V => Slot.takes w1.fn.free V xs) hmatch ?_
    refine hprep'.imp fun V V' _ ⟨U, hspan, hrest⟩ N hN => ?_
    obtain ⟨hmap, heval⟩ := hrest N hN
    rw [Slot.takes_zip, hmap, hlength, hspan N hN, ← List.map_reverse, List.reverse_reverse]
    rw [List.map_congr_left fun a _ => heval a]

theorem storeLast_performs (hw : w.fn.Apt q) (h : w.AimsAll q ts.reverse es xs w1) (hv : w1.Lists q done last p s w2)
    (hlen : done.length + 1 = ts.length) :
    Writes (match es with
      | [] => return
      | e :: rest => do
        storeVariable e.place (.plain p)
        storeAll rest) w2.fn fun _ d' => Performs q w ts (done ++ [last]) { w2 with fn := d' } := by
  obtain ⟨as, hg, hprep⟩ := hv.acts
  obtain ⟨hplaces, hlocals, hlength, hactive⟩ := places_gains h hg
  obtain ⟨bs, hg', hprep'⟩ := prepares_values hw h hg hprep
  have hlow : w.fn.active ≤ w1.fn.free := Nat.le_trans hw.roomy.active h.grows
  have hfree := hv.free
  rw [List.length_reverse] at hlength
  have hregs : ∀ x ∈ xs, ∀ r, x = .var (.register r) → r < w1.fn.free := fun x hx r hr => by
    have := hlocals x hx r hr
    omega
  cases hplaces with
  | nil =>
    rw [List.length_nil] at hlength
    omega
  | @cons e x es xs hx hplaces =>
    obtain ⟨hbelow1, hbelow⟩ := List.forall_mem_cons.mp h.below
    obtain ⟨hregs1, hregs⟩ := List.forall_mem_cons.mp hregs
    obtain ⟨hspares1, hspares⟩ := List.pairwise_cons.mp h.spares
    rw [List.length_cons] at hlength
    have hstore := Writes.storeVariable_stores hg.steady hx (hbelow1.mono (by omega)) hv.gives hv.cost
    refine hstore.andThen fun _ d1 ⟨⟨cs, hg1, hfirst⟩, hfree1⟩ => ?_
    have hcost : s.cost w2.fn.active = 0 := by
      have hsource := hv.source
      cases s with
      | reg r => exact Operand.cost_lt hsource
      | _ => rfl
    have hsame := hg1.active
    refine (Writes.storeAll_stores hg1.steady (hplaces.imp fun _ _ h => h.mono hg1.constants) hbelow hregs
      hspares (by omega) (by omega)).imp fun _ d' ⟨cs', hg2, hrest⟩ => ?_
    refine performs_of_stores hw hlow hg' (hg1.trans hg2)
      (fun V => (x.store V, s.value V) :: Slot.takes w1.fn.free V xs) ?_ ?_
    · exact Slot.Stores.chain (n := w2.fn.free) hfirst hrest hregs1 hspares1 (fun y hy => (hbelow y hy).mono (by omega))
        (by omega) (by omega)
    · refine hprep'.imp fun V V' _ ⟨U, hvalues, hrest⟩ N hN => ?_
      obtain ⟨hmap, heval⟩ := hrest N hN
      obtain ⟨hspan, hlast⟩ := hvalues N hN
      have hcount : xs.length = done.length := by omega
      have hall : (done ++ [last]).map (Atom.eval N V) = V'.span w1.fn.free xs.length ++ [s.value V'] := by
        rw [hcount, hspan, hlast, ← List.map_singleton, ← List.map_append]
        exact List.map_congr_left fun a _ => (heval a).symm
      rw [Slot.takes_cons_zip, hmap, ← List.map_reverse, List.reverse_reverse, ← hall, Exec.adjust,
        List.take_of_length_le (by simp; omega), Nat.sub_eq_zero_of_le (by simp; omega), List.replicate_zero, List.append_nil]

end Grammar

structure Assignment.Known (w : Drafts) (a : Assignment) : Prop where
  targets : ∀ t ∈ a.targets, t.Known w
  values : ∀ e ∈ a.values, e.Known w

namespace Grammar

variable {q bound n : Nat} {w : Drafts} {a : Assignment} {t : Token} {more : List Token}

theorem values_perform {w1 : Drafts} {e : Atom} {rest : List Atom} {es : List Expr} {xs : List Slot} {ts : List Target}
    (hw : w.fn.Apt q) (h : w.AimsAll q ts.reverse es xs w1) (hk : ∀ a ∈ e :: rest, a.Known w1) (hcomma : t ≠ .symbol .comma)
    (hstop : ∀ a ∈ (e :: rest).getLast?, a.Stops t) :
    Walks (do
        let (count, e) ← (ofLevels Compile.named bound n).exprs
        if count = es.length then
          let e ← setOneReturn e
          match es with
          | [] => return
          | t :: rest =>
            storeVariable t.place e
            storeAll rest
        else
          adjust es.length count e
          storeAll es) (e.token :: rest.flatMap (fun a => [.symbol .comma, a.token]) ++ t :: more) w1 fun _ us w' =>
      us = t :: more ∧ Performs q w ts (e :: rest) w' := by
  obtain ⟨as, hg, -⟩ := h.acts
  obtain ⟨hke, hrest⟩ := List.forall_mem_cons.mp hk
  obtain ⟨u, us, hus, hu⟩ := Atom.follower e rest t more hstop
  rw [List.cons_append, hus]
  unfold Grammar.exprs
  refine Walks.bind ((Atom.expr_finds hg.steady hke hu).andThen fun e' us' w2 ⟨hus', p, s, he, hf⟩ => ?_)
  subst hus' he
  rw [← hus]
  refine (Atom.exprsFrom_lists hg.steady hrest hcomma hstop (Drafts.Lists.first hf)).imp fun r us' w3 hr => ?_
  obtain ⟨hus', done, last, p', s', hr, hvalues, hlists⟩ := hr
  subst hus' hr
  have hlength : es.length = ts.length := by
    obtain ⟨hplaces, -, hlen, -⟩ := places_gains h (.refl hg.steady)
    rw [hplaces.length_eq, hlen, List.length_reverse]
  rw [List.nil_append] at hvalues
  rw [← hvalues]
  dsimp only
  split
  · next hcount =>
    have hone : setOneReturn (.plain p') = pure (.plain p') := by
      obtain ⟨as, hg', -⟩ := hlists.acts
      cases hlists.gives <;> rfl
    rw [hone]
    exact Walks.bind (Walks.pure (Walks.ofWrites (storeLast_performs hw h hlists (by omega)) fun _ d' h' => ⟨rfl, h'⟩))
  · rw [hlength]
    refine Walks.write (adjust_gathers ts.length hg.steady hlists) fun _ d' hgathers => ?_
    exact Walks.ofWrites (storeAll_performs hw h hgathers) fun _ d'' h' => ⟨rfl, h'⟩

theorem assignment_performs {target : Target} {targets : List Target} {e : Atom} {rest : List Atom} {e1 : Expr} {x : Slot}
    {w1 : Drafts} (hw : w.fn.Apt q) (henv : w.Denotes environmentName) (h : w.Aims q target e1 x w1) (hkt : ∀ t ∈ targets, t.Known w)
    (hk : ∀ a ∈ e :: rest, a.Known w) (hcomma : t ≠ .symbol .comma) (hstop : ∀ a ∈ (e :: rest).getLast?, a.Stops t) :
    Walks ((ofLevels Compile.named bound n).assignment e1)
      (targets.flatMap (fun t => .symbol .comma :: t.tokens) ++ .symbol .assign ::
        (e.token :: rest.flatMap (fun a => [.symbol .comma, a.token]) ++ t :: more)) w1 fun _ us w' =>
      us = t :: more ∧ Performs q w (target :: targets) (e :: rest) w' := by
  unfold Grammar.assignment
  refine (Target.targetsFrom_aims hw henv hkt _ (Drafts.AimsAll.single h)).andThen fun es us w2 ⟨hus, xs, hall⟩ => ?_
  subst hus
  refine Walks.checkNext (by simp) ?_
  obtain ⟨as, hg, -⟩ := hall.acts
  rw [← List.reverse_cons] at hall
  exact values_perform hw hall (fun a ha => (hk a ha).gains hg) hcomma hstop

/-- **An assignment is read**, and code for it is written. -/
theorem exprStatement_performs (hw : w.fn.Apt q) (henv : w.Denotes environmentName) (hk : a.Known w) (ht : a.Ends t) :
    Walks (ofLevels Compile.named bound n).exprStatement (a.tokens ++ t :: more) w fun _ us w' =>
      us = t :: more ∧ Performs q w a.targets a.values w' := by
  obtain ⟨targets, values, htargets, hvalues⟩ := a
  obtain ⟨target, targets, rfl⟩ := List.exists_cons_of_ne_nil htargets
  obtain ⟨e, values, rfl⟩ := List.exists_cons_of_ne_nil hvalues
  obtain ⟨hkt, hkts⟩ := List.forall_mem_cons.mp hk.targets
  have htokens : Assignment.tokens ⟨target :: targets, e :: values, htargets, hvalues⟩ ++ t :: more =
      target.tokens ++ (targets.flatMap (fun t => .symbol .comma :: t.tokens) ++ .symbol .assign ::
        (e.token :: values.flatMap (fun a => [.symbol .comma, a.token]) ++ t :: more)) := by
    simp only [Assignment.tokens, List.map_cons, Token.commas_cons, List.flatMap_map, List.append_assoc, List.cons_append,
      List.nil_append]
  rw [htokens]
  unfold Grammar.exprStatement
  have hassign : ∀ {e1 : Expr} {x : Slot} {w1 : Drafts}, w.Aims q target e1 x w1 →
      Walks ((ofLevels Compile.named bound n).assignment e1)
        (targets.flatMap (fun t => .symbol .comma :: t.tokens) ++ .symbol .assign ::
          (e.token :: values.flatMap (fun a => [.symbol .comma, a.token]) ++ t :: more)) w1 fun _ us w' =>
        us = t :: more ∧ Performs q w (target :: targets) (e :: values) w' := fun h =>
    assignment_performs hw henv h hkts hk.values ht.comma ht.stops
  cases targets with
  | nil =>
    refine (Target.suffixed_aims hw henv hkt (by rfl)).andThen fun e1 us w1 ⟨hus, x, h⟩ => ?_
    subst hus
    exact Walks.token (hassign h)
  | cons t1 ts =>
    rw [List.flatMap_cons, List.append_assoc, List.cons_append] at hassign ⊢
    refine (Target.suffixed_aims hw henv hkt (by rfl)).andThen fun e1 us w1 ⟨hus, x, h⟩ => ?_
    subst hus
    exact Walks.token (hassign h)

/-- **An assignment statement is read**, and code for it is written. -/
theorem statementBody_performs (hw : w.fn.Apt q) (henv : w.Denotes environmentName) (hk : a.Known w) (ht : a.Ends t) :
    Walks (ofLevels Compile.named bound n).statementBody (a.tokens ++ t :: more) w fun _ us w' =>
      us = t :: more ∧ Performs q w a.targets a.values w' := by
  have hfirst : ∃ u us, a.tokens ++ t :: more = u :: us ∧ ((∃ x, u = .name x) ∨ u = .symbol .lparen) := by
    obtain ⟨targets, values, htargets, hvalues⟩ := a
    obtain ⟨target, targets, rfl⟩ := List.exists_cons_of_ne_nil htargets
    have htable : ∀ (e : Atom) (us : List Token), ∃ u us', e.tableTokens ++ us = u :: us' ∧
        ((∃ x, u = .name x) ∨ u = .symbol .lparen) := by
      intro e us
      cases e with
      | var x => exact ⟨_, _, rfl, .inl ⟨x, rfl⟩⟩
      | lit c => exact ⟨_, _, rfl, .inr rfl⟩
    rw [Assignment.tokens, List.map_cons, Token.commas_cons, List.append_assoc, List.append_assoc]
    cases target with
    | var x => exact ⟨_, _, rfl, .inl ⟨x, rfl⟩⟩
    | index e k =>
      rw [Target.tokens, List.append_assoc]
      exact htable e _
    | field e x =>
      rw [Target.tokens, List.append_assoc]
      exact htable e _
  have hrest : Walks (do
      (ofLevels Compile.named bound n).exprStatement
      Compile.demand .statementEnd fun d => d.active ≤ d.free && d.free ≤ d.maxStack && d.maxStack < maxRegisters
      modifyFn fun d => { d with free := d.active }) (a.tokens ++ t :: more) w fun _ us w' =>
        us = t :: more ∧ Performs q w a.targets a.values w' := by
    refine (exprStatement_performs hw henv hk ht).andThen ?_
    rintro _ us w1 ⟨hus, as, hg, hmatch⟩
    subst hus
    refine Walks.ofWrites (Writes.demanding (Q := fun _ d' => d' = { w1.fn with free := w1.fn.active }) fun _ =>
      Writes.modifyFn rfl) fun _ d' hd => ⟨rfl, ?_⟩
    subst hd
    have hroomy := hg.steady.roomy
    have hlift := (Draft.Gains.retake (m := w1.fn.maxStack) (f := w1.fn.active) hg.steady
      ⟨Nat.le_refl _, Nat.le_trans hroomy.active hroomy.free, hroomy.stack, hroomy.constants⟩).lift
    refine ⟨_, hg.trans hlift, fun N hN V => ?_⟩
    rw [List.append_nil]
    exact hmatch N (hlift.allows hN) V
  obtain ⟨u, us, hus, hu⟩ := hfirst
  rw [hus] at hrest ⊢
  refine Walks.line fun line => Walks.token ?_
  rcases hu with ⟨x, rfl⟩ | rfl <;> exact hrest

end Grammar

/-! ## 4. The function that runs the code -/

theorem Draft.Good.apt {d : Draft} {source : Bytes} {depth : Nat} {waiting : Nat → Prop} (h : d.Good source depth waiting)
    (hlevel : d.active ≤ d.free) : d.Apt d.back where
  here j hj := by
    obtain ⟨i, hi, ho⟩ := h.here j hj
    have hlt : j < d.pc := (Array.getElem?_eq_some_iff.mp hi).1
    unfold Draft.back
    split
    · next hopen =>
      -- what waits is a jump, and the last instruction is none
      have hne : j ≠ d.pc - 1 := by
        rintro rfl
        rw [← Draft.instr_eq hi, hopen.2] at ho
        cases ho
      omega
    · exact hlt
  tight hopen := by
    have hlt : d.pc - 1 < d.pc := Nat.sub_one_lt (Nat.ne_zero_of_lt hopen.1)
    have hi : d.code[d.pc - 1]? = some (d.instr (d.pc - 1)) := by
      rw [Array.getElem?_eq_getElem hlt, Draft.instr_eq (Array.getElem?_eq_getElem hlt)]
    have hstack := h.stocked.high
    rcases (h.written.instr _ _ hi).fits with hfit | ⟨ho, -⟩
    · unfold Instr.Fits at hfit
      rw [hopen.2] at hfit
      have : _ < d.maxStack := hfit
      omega
    · rw [hopen.2] at ho
      cases ho
  roomy := ⟨hlevel, h.stocked.free, h.stocked.high, h.stocked.constants⟩
  upvalues := h.stocked.upvalues

theorem Drafts.At.apt {w : Drafts} {depth : Nat} {waiting : Nat → Prop} (h : w.At depth waiting) : w.fn.Apt w.fn.back :=
  Draft.Good.apt h.settled.ready.good h.level

open Machine

/-- **Multiple assignment is simultaneous.** Where the compiler is between two statements, it reads one that assigns
    values to targets; these are variables, fields of the environment, and fields of tables that are in variables or
    literals, as are the keys and values. The function whose code is written runs to the end of the statement's code,
    unless a store is refused, and then registers of locals, upvalues and tables are as after the assignment in which
    all tables, keys and values are taken first. -/
theorem Assignment.statement_performs {bound n depth : Nat} {waiting : Nat → Prop} {a : Assignment} {t : Token}
    {more : List Token} {s s' : Compiler} {f : Frame} {rest : List Frame} {m : Machine} {V : Vars}
    (hat : s.drafts.At depth waiting) (hread : (Grammar.ofLevels Compile.named bound n).statementBody s = .ok ((), s'))
    (htokens : s.tokens = a.tokens ++ t :: more) (hends : a.Ends t) (hknown : a.Known s.drafts)
    (hsound : f.proto.Sound) (hcode : f.proto.Follows s.fn.back s'.fn) (hlimits : m.limits.Endless)
    (hsees : m.Sees f rest s.fn.back V) :
    s'.tokens = t :: more ∧ ∃ r, Vars.Matches s.fn.active (a.perform s'.fn.variableOf? (s.fn.completed V)) r ∧
      s'.fn.Ends f rest m r := by
  obtain ⟨hrest, as, hg, hmatch⟩ :=
    Grammar.statementBody_performs (w := s.drafts) hat.apt hat.linked.denotes hknown hends s () s' htokens rfl hread
  have hperform := hmatch s'.fn.variableOf? s'.drafts.allows_variableOf? (s.fn.completed V)
  refine ⟨hrest, _, ?_, hg.codes.ends (Nat.le_refl _) hsound hcode hlimits hsees⟩
  simp only [Assignment.perform, List.length_map]
  exact hperform

def environmentSwap : Assignment where
  targets := [.field (.var environmentName) (Bytes.ofString "x"), .var environmentName]
  values := [.lit (.int 1), .lit (.int 2)]
  targeted := List.cons_ne_nil _ _
  valued := List.cons_ne_nil _ _

/-- The compiler before this statement, the first one of a source. -/
def beforeSwap : Compiler where
  current := ⟨.name environmentName, 1, 0, []⟩
  ahead := (environmentSwap.tokens.tail ++ [Token.eof]).map fun t => ⟨t, 1, 0, []⟩
  fault := none
  lastLine := 1
  chunk := ""
  source := []
  fn := Grammar.mainDraft
  outer := []

def mainVars : Vars := ⟨fun _ => .nil, fun u => if u = 0 then .table 0 else .nil, #[.empty]⟩

def beforeMain (p : Proto) : Machine :=
  { bare .standard with
    stack := Array.replicate (1 + p.maxStack.toNat) .nil
    frames := [⟨0, 0, none, p, #[0], []⟩]
    cells := #[.closed (.table 0)] }

theorem beforeMain_sees {p : Proto} (h : p.upvalues.length = 1) :
    (beforeMain p).Sees ⟨0, 0, none, p, #[0], []⟩ [] 0 mainVars := by
  have hzero : ∀ u c : Nat, #[0][u]? = some c → u = 0 ∧ c = 0 := fun u c hc => by
    cases u with
    | zero => exact ⟨rfl, (Option.some.inj hc).symm⟩
    | succ u => cases hc
  have hclosed : ∀ u c slot : Nat, #[0][u]? = some c → (beforeMain p).cells[c]? ≠ some (.live slot) := by
    intro u c slot hc hs
    rw [(hzero u c hc).2] at hs
    cases hs
  refine ⟨⟨rfl, Nat.le_of_eq (Array.size_replicate ..).symm, funext fun r => ?_⟩, funext fun u => ?_, rfl, ⟨?_, ?_, ?_⟩, ?_⟩
  · show ((Array.replicate _ Value.nil)[_]?).getD Value.nil = Value.nil
    rw [Array.getElem?_replicate]
    split <;> rfl
  · cases u <;> rfl
  · exact fun u u' c hc hc' => (hzero u c hc).1.trans (hzero u' c hc').1.symm
  · exact fun u u' c c' slot hc _ hs => absurd hs (hclosed u c slot hc)
  · exact fun u c slot hc hs => absurd hs (hclosed u c slot hc)
  · intro u hu
    have hroom : u < p.upvalues.length := hu
    obtain rfl : u = 0 := by omega
    exact ⟨0, rfl, Nat.one_pos⟩

theorem environmentSwap_compiled : ∃ p s', compile (Bytes.ofString "_ENV.x, _ENV = 1, 2") "" = .ok p ∧
    (Grammar.ofLevels Compile.named 9 3).statementBody beforeSwap = .ok ((), s') ∧ p.upvalues.length = 1 ∧
    p.Follows 0 s'.fn ∧ s'.fn.variableOf? environmentName = some (.upvalue 0) := by
  have hcheck : (compile (Bytes.ofString "_ENV.x, _ENV = 1, 2") "").toOption.any (fun p =>
      ((Grammar.ofLevels Compile.named 9 3).statementBody beforeSwap).toOption.any fun r =>
        decide (p.upvalues.length = 1 ∧ p.Follows 0 r.2.fn ∧ r.2.fn.variableOf? environmentName = some (.upvalue 0))) = true := by
    decide +kernel
  cases hp : compile (Bytes.ofString "_ENV.x, _ENV = 1, 2") "" with
  | error e =>
    rw [hp] at hcheck
    cases hcheck
  | ok p =>
    cases hs : (Grammar.ofLevels Compile.named 9 3).statementBody beforeSwap with
    | error e =>
      rw [hp, hs] at hcheck
      cases hcheck
    | ok r =>
      rw [hp, hs] at hcheck
      exact ⟨p, r.2, rfl, rfl, of_decide_eq_true hcheck⟩

theorem environmentSwap_perform {N : Names} (h : N environmentName = some (.upvalue 0)) :
    environmentSwap.perform N mainVars =
      Vars.storeAll [(.var (.upvalue 0), .int 2), (.field (.table 0) (.str (Bytes.ofString "x")), .int 1)] mainVars := by
  have htable : Target.eval N mainVars (.field (.var environmentName) (Bytes.ofString "x")) =
      .field (.table 0) (.str (Bytes.ofString "x")) := by
    simp [Target.eval, Atom.eval, h, Vars.value, mainVars]
  have hvar : Target.eval N mainVars (.var environmentName) = .var (.upvalue 0) := by
    simp [Target.eval, h]
  unfold Assignment.perform environmentSwap
  simp only [List.map_cons, List.map_nil, htable, hvar]
  rfl

theorem Assignment.statement_performs_environment : ∃ p s' r,
    (Grammar.ofLevels Compile.named 9 3).statementBody beforeSwap = .ok ((), s') ∧
    s'.fn.Ends ⟨0, 0, none, p, #[0], []⟩ [] (beforeMain p) r ∧ r.2 = none ∧ r.1.upvalues 0 = .int 2 ∧
    (r.1.tables[0]?.getD Table.empty).get (.str (Bytes.ofString "x")) = .int 1 := by
  obtain ⟨p, s', hp, hread, hup, hfollows, hname⟩ := environmentSwap_compiled
  have hknown : environmentSwap.Known beforeSwap.drafts := by
    refine ⟨?_, ?_⟩ <;> simp [environmentSwap, Target.Known, Atom.Known]
    exact (Grammar.mainDraft_at (n := 3) []).linked.denotes
  have hstops : ∀ e ∈ environmentSwap.values.getLast?, e.Stops .eof := fun e he => by
    cases Option.some.inj he
    exact rfl
  have htokens : beforeSwap.tokens = environmentSwap.tokens ++ [Token.eof] := by decide +kernel
  obtain ⟨-, r, ⟨hagrees, hnone⟩, hends⟩ := Assignment.statement_performs (Grammar.mainDraft_at (n := 3) []) hread htokens
    ⟨by decide, hstops⟩ hknown (compile_made hp).1.here.toSound hfollows ⟨rfl, rfl⟩ (beforeMain_sees hup)
  rw [Draft.completed_of_not_open (by decide), environmentSwap_perform hname] at hagrees hnone
  refine ⟨p, s', r, hread, hends, hnone.trans (by decide), ?_, ?_⟩
  · rw [hagrees.upvalues]
    decide
  · rw [hagrees.tables]
    decide +kernel

end LuaMachine
