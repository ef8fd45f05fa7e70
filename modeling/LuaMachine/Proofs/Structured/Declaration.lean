/-
  DECLARATIONS ARE READ. The values of the formulas go into the next registers, one after another, and nil
  where they are too few; then the names come into scope.

  * **`Grammar.declare_takes`** -- a declaration does what its trace says.
-/
import LuaMachine.Proofs.Structured.Assignment

namespace LuaMachine

open Structured Compile

/-! ## 1. Registers of new locals -/

/-- The registers of `vars` new locals have been filled, those behind the first `given` with the values of these
    formulas as far as there are any. -/
structure Filled (list : List Nat) (names : List Bytes) (vars given : Nat) (es : List Formula) (d d' : Draft) : Prop where
  moves : d.Moves list d'
  roomy : d'.Roomy
  tight : d'.Tight
  waits : d'.Waits list d'.pc
  free : d'.free = names.length + vars
  runs : ∀ p : Proto, CompletesAbove 0 p d' list d'.pc → CompletesAbove 0 p d list d.pc ∧
    ∀ (bound : Nat) (B : List Value → Spot → Prop) (vs : List Value) (s : Spot),
      d.Done p (names.length + min given vars) vs s →
        p.Traces bound (d'.Done p (names.length + vars)) B vs s (Formula.give names (vars - given) vs es)

section

variable {list : List Nat} {names : List Bytes} {vars given : Nat} {e : Formula} {es : List Formula} {d d1 d' : Draft}
  {p : Proto}

/-- **A formula more.** -/
theorem Given.fills (h : Given list names d e d1) (h' : Filled list names vars (given + 1) es d1 d')
    (hfree : d.free = names.length + given) : Filled list names vars given (e :: es) d d' := by
  refine ⟨h.moves.trans h'.moves, h'.roomy, h'.tight, h'.waits, h'.free, fun p hp => ?_⟩
  obtain ⟨hp1, hruns'⟩ := h'.runs p hp
  obtain ⟨hp0, hruns⟩ := h.runs p hp1
  refine ⟨hp0, fun bound B vs s hs => ?_⟩
  have hlen := hs.1
  obtain ⟨n, s', hen, hcomes⟩ := hruns vs s (by omega) (by omega) hs.2
  unfold Formula.give
  cases hv : e.eval (Scope.value names vs) with
  | error c =>
    rw [hv] at hcomes
    exact ⟨n, vs, s', hen, hcomes⟩
  | ok v =>
    rw [hv] at hcomes
    obtain ⟨hst, hreg⟩ := hcomes
    dsimp only
    by_cases hmore : given < vars
    · -- another local has got its first value
      obtain ⟨k, hk⟩ : ∃ k, vars - given = k + 1 := ⟨vars - given - 1, by omega⟩
      have hnext : vars - (given + 1) = k := by omega
      have hplace : vs.length = d.free := by omega
      have hst' : d1.Stands p (vs ++ [v]) s' := by
        refine ⟨hst.entered, fun i w hw => ?_⟩
        rw [List.getElem?_append] at hw
        split at hw
        · exact hst.holds i w hw
        · rw [List.getElem?_singleton] at hw
          split at hw
          · cases hw
            have hi : i = d.free := by omega
            rw [hi]
            exact .inl hreg
          · cases hw
      have hone : p.Enacts n vs s [.declared v] (vs ++ [v]) s' :=
        hen.noted (e := .declared v) (show s'.regs vs.length = v from hplace ▸ hreg)
      have hgo := hruns' bound B (vs ++ [v]) s' ⟨by rw [List.length_append, List.length_singleton]; omega, hst'⟩
      rw [hnext] at hgo
      rw [hk]
      exact (Proto.Traces.after hone hgo).bound (Nat.le_add_left bound n)
    · have hgo := hruns' bound B vs s' ⟨by omega, hst⟩
      rw [show vars - given = 0 by omega]
      rw [show vars - (given + 1) = 0 by omega] at hgo
      exact hgo.from_enacts hen

theorem Filled.of_enough (hd : d.Begins list) (ha : d.active = names.length) (hfree : d.free = names.length + given)
    (hle : vars ≤ given) :
    Filled list names vars given [] d { d with free := names.length + vars } := by
  have hroomy := hd.roomy
  refine ⟨.quiet rfl (.of_rest rfl) fun _ _ => id, ⟨?_, ?_, hroomy.stack, hroomy.constants⟩, hd.tight,
    ⟨hd.waits.le, hd.waits.jumps, hd.waits.nodup, hd.waits.target⟩, rfl, fun p hp => ?_⟩
  · show d.active ≤ names.length + vars
    omega
  · show names.length + vars ≤ d.maxStack
    have := hroomy.free
    omega
  · refine ⟨hp.stock rfl rfl rfl fun _ _ => id, fun bound B vs s hs => ?_⟩
    rw [show vars - given = 0 by omega]
    have hlen := hs.1
    unfold Formula.give
    rw [List.replicate_zero, List.append_nil]
    exact .stop ⟨by omega, hs.2.stock rfl rfl rfl⟩

theorem Filled.of_cleared {n : Nat} (h : d1.Cleared d.free n d') (ht : d.Retakes d1) (hr : d1.Roomy) (hd : d.Begins list)
    (hfree : d.free = names.length + given) (hfree1 : d1.free = d.free + n) (hn : 0 < n) (hvars : vars = given + n) :
    Filled list names vars given [] d d' := by
  have hw1 : d1.Waits list d1.pc := by
    rw [ht.pc]
    exact ht.waits hd.waits
  have hlt : d.free + n ≤ 255 := by
    have := hr.free
    have := hr.stack
    omega
  refine ⟨ht.moves.trans (h.moves hw1), h.roomy hr, h.tight (ht.tight hd.tight) hn hlt, h.waits hw1, ?_, fun p hp => ?_⟩
  · rw [h.free, hfree1]
    omega
  · obtain ⟨hp1, hruns⟩ := h.runs hw1 hn hlt hp
    refine ⟨?_, fun bound B vs s hs => ?_⟩
    · rw [ht.pc] at hp1
      exact ht.completes hp1
    · have hlen := hs.1
      have hst1 : d1.Stands p vs s := by
        obtain ⟨m, f, rfl⟩ := ht
        exact hs.2.stock rfl rfl rfl
      obtain ⟨k, s', hen, hin, hnil, hkeep⟩ := hruns vs s hst1
      have hplace : vs.length = d.free := by omega
      have hnew : p.Enacts 0 vs s' ((List.replicate n .nil).map .declared) (vs ++ List.replicate n .nil) s' := by
        refine Proto.Enacts.declared _ fun i v hv => ?_
        rw [List.getElem?_replicate] at hv
        split at hv
        · next hi =>
          cases hv
          exact hnil _ (by omega) (by omega)
        · cases hv
      unfold Formula.give
      rw [show vars - given = n by omega]
      refine ⟨k + 0, _, s', hen.trans hnew, rfl, ?_, hin, fun i v hv => ?_⟩
      · rw [List.length_append, List.length_replicate]
        omega
      · rw [List.getElem?_append] at hv
        split at hv
        · exact hkeep i v hv (by omega)
        · rw [List.getElem?_replicate] at hv
          split at hv
          · cases hv
            exact .inl (hnil i (by omega) (by omega))
          · cases hv

end

/-! ## 2. Formulas -/

namespace Compile

variable {list : List Nat} {names : List Bytes} {vars given : Nat} {d d1 : Draft}

/-- Registers for which there are too few formulas are set to nil; those of formulas that are too many are given
    back. -/
theorem Writes.adjust_rest (hd : d.Begins list) (ha : d.active = names.length)
    (hfree : d.free = names.length + given) :
    Writes (do
      if given < vars then
        let reg := (← MonadState.get).fn.free
        Compile.reserve (vars - given)
        Compile.loadNil reg (vars - given)
      if vars < given then
        Compile.demand .surplus fun d => given - vars ≤ d.free
        Compile.modifyFn fun d => { d with free := d.free - (given - vars) }) d fun _ d' =>
          Filled list names vars given [] d d' := by
  rcases Nat.lt_trichotomy given vars with hlt | heq | hgt
  · rw [if_pos hlt]
    refine Writes.get fun s hs => ?_
    subst hs
    refine (Writes.reserve hd.roomy.stack).andThen fun _ d1 h => ?_
    obtain ⟨hle, hd1⟩ := h
    have hroomy := hd.roomy
    have ht : s.fn.Retakes d1 := ⟨_, _, hd1⟩
    have hw1 : d1.Waits list d1.pc := by
      rw [ht.pc]
      exact ht.waits hd.waits
    have hr1 : d1.Roomy := by
      subst hd1
      exact ⟨Nat.le_trans hroomy.active (Nat.le_add_right _ _), Nat.le_max_right _ _, hle, hroomy.constants⟩
    refine (Writes.loadNil_clears hw1 (ht.tight hd.tight) (by omega) (by omega)).andThen fun _ d' h => ?_
    rw [if_neg (by omega)]
    exact Writes.pure (.of_cleared h ht hr1 hd hfree (by rw [hd1]) (by omega) (by omega))
  · rw [if_neg (by omega), if_neg (by omega)]
    have hsame : { d with free := names.length + vars } = d := by
      rw [← heq, ← hfree]
    refine Writes.pure ?_
    have h : Filled list names vars given [] d { d with free := names.length + vars } := .of_enough hd ha hfree (by omega)
    rwa [hsame] at h
  · rw [if_neg (by omega), if_pos hgt]
    refine Writes.demanding fun _ => Writes.modifyFn ?_
    rw [show d.free - (given - vars) = names.length + vars by omega]
    exact .of_enough hd ha hfree (by omega)

theorem Writes.adjust_nothing (hd : d.Begins list) (ha : d.active = names.length) (hfree : d.free = names.length) :
    Writes (Grammar.adjust vars 0 (.plain .void)) d fun _ d' => Filled list names vars 0 [] d d' := by
  unfold Grammar.adjust
  rw [if_neg (by decide), if_neg (fun h => h rfl)]
  exact Writes.adjust_rest hd ha hfree

theorem Writes.adjust_fills {e : Formula} {e' : Expr} (hd : d.Begins list) (ha : d.active = names.length)
    (hfree : d.free = names.length + given) (hc : Computes list d (e.meaning names) e' d1) :
    Writes (Grammar.adjust vars (given + 1) e') d1 fun _ d' => Filled list names vars given [e] d d' := by
  have hvoid : e'.place ≠ .void := fun h => by
    have := hc.sits.place
    rw [h] at this
    exact this
  unfold Grammar.adjust
  rw [hc.sits.place.isMulti, if_neg Bool.false_ne_true, if_pos hvoid]
  refine Writes.bind (Writes.discard ((Writes.toNextRegister_gives hd hc).imp fun _ d2 hg => ?_))
  have hfree2 : d2.free = names.length + (given + 1) := by
    rw [hg.free, hfree, Nat.add_assoc]
  exact (Writes.adjust_rest ⟨hg.waits, hg.roomy, hg.tight⟩ (hg.moves.active.trans ha) hfree2).imp fun _ d' h =>
    hg.fills h hfree

end Compile

namespace Grammar

variable {names : List Bytes} {bound n m given : Nat} {t : Token} {more : List Token} {d d1 : Draft} {list : List Nat}

theorem expr_computes {e : Formula} (hf : e.Fits names) (ht : ∀ level, t.Ends level) (hd : d.Begins list)
    (hk : d.Knows names) :
    Takes (ofLevels Compile.named bound n).expr (e.tokens ++ t :: more) d fun e' ts d' =>
      ts = t :: more ∧ Computes list d (e.meaning names) e' d' := by
  refine Takes.bind (((e.parses hf.1 hf.2).operand hd hk (.inl e.level_pos) (ht _) (ht _)).imp fun a ts d' h => ?_)
  obtain ⟨-, rfl, hc⟩ := h
  exact Takes.pure ⟨rfl, hc⟩

theorem listTokens_cons (first : Token) (e : Formula) (es : List Formula) (ts : List Token) :
    Formula.listTokens first (e :: es) ++ ts = first :: (e.tokens ++ (Formula.listTokens (.symbol .comma) es ++ ts)) := by
  simp [Formula.listTokens]

theorem listTokens_first (es : List Formula) (more : List Token) (ht : t.Apart) :
    ∃ t' more', Formula.listTokens (.symbol .comma) es ++ t :: more = t' :: more' ∧ ∀ level, t'.Ends level := by
  cases es with
  | nil => exact ⟨t, more, rfl, ht.ends⟩
  | cons e es => exact ⟨_, _, rfl, fun _ => rfl⟩

/-- **The values of a list of formulas go into registers**, one after another; the first formula has been read. -/
theorem exprsFrom_fills (vars : Nat) {e : Formula} {es : List Formula} {e' : Expr} (ht : t.Apart) (hes : ∀ f ∈ es, f.Fits names)
    (hd : d.Begins list) (hk : d.Knows names) (hfree : d.free = names.length + given)
    (hc : Computes list d (e.meaning names) e' d1) :
    Takes ((ofLevels Compile.named bound n).exprsFrom m (given + 1) e')
      (Formula.listTokens (.symbol .comma) es ++ t :: more) d1 fun c ts d2 =>
        ts = t :: more ∧ Writes (adjust vars c.1 c.2) d2 fun _ d' => Filled list names vars given (e :: es) d d' := by
  induction es generalizing e e' d d1 given m with
  | nil =>
    exact exprsFrom_stop ht.comma ⟨rfl, Writes.adjust_fills hd hk.active hfree hc⟩
  | cons f es ih =>
    cases m with
    | zero => exact Takes.failNear
    | succ m =>
      rw [listTokens_cons]
      refine Takes.testNext_pass (by simp) ?_
      refine Takes.bind (Takes.discard (Takes.ofWrites (Writes.toNextRegister_gives hd hc) fun _ d2 hg => ?_))
      have hk2 : d2.Knows names := hk.moves hg.moves
      have hd2 : d2.Begins list := ⟨hg.waits, hg.roomy, hg.tight⟩
      have hfree2 : d2.free = names.length + (given + 1) := by
        rw [hg.free, hfree, Nat.add_assoc]
      obtain ⟨t', more', htokens, hends⟩ := listTokens_first es more ht
      rw [htokens]
      refine Takes.bind ((expr_computes (hes f (List.mem_cons_self ..)) hends hd2 hk2).imp fun e2 ts d3 h => ?_)
      obtain ⟨rfl, hc3⟩ := h
      rw [← htokens]
      refine (ih (fun g hg => hes g (List.mem_cons_of_mem _ hg)) hd2 hk2 hfree2 hc3).imp fun c ts d4 h => ?_
      exact ⟨h.1, h.2.imp fun _ d' h => hg.fills h hfree⟩

end Grammar

/-! ## 3. Names -/

structure Draft.Declaring (names ys : List Bytes) (d d' : Draft) : Prop where
  lists : d'.Lists (names ++ ys)
  rest : d' = { d with locals := d'.locals, declared := d'.declared }

section

variable {list : List Nat} {names ys : List Bytes} {x : Bytes} {vars : Nat} {es : List Formula} {d d1 d2 : Draft}

theorem Draft.Declaring.declare (h : d.Declaring names ys d1) (y : Bytes) :
    Writes (Compile.declare y) d1 fun _ d' => d.Declaring names (ys ++ [y]) d' := by
  refine (Writes.declare_lists h.lists).imp fun _ d' hdeclare => ?_
  obtain ⟨hlists, ls, ds, rfl⟩ := hdeclare
  refine ⟨by rw [← List.append_assoc]; exact hlists, ?_⟩
  rw [h.rest]

theorem Draft.Declaring.knows (h : d.Declaring names ys d1) (ha : d.active = names.length) : d1.Knows names := by
  have hactive : d1.active = names.length := by
    rw [h.rest]
    exact ha
  refine ⟨hactive, fun y => ?_⟩
  have htake : (names ++ ys).take names.length = names := List.take_left
  rw [Draft.findLocal?, hactive, h.lists.findBelow y (by rw [List.length_append]; omega), htake]

theorem Draft.Declaring.begins (h : d.Declaring names ys d1) (hd : d.Begins list) : d1.Begins list := by
  rw [h.rest]
  exact ⟨⟨hd.waits.le, hd.waits.jumps, hd.waits.nodup, hd.waits.target⟩, hd.roomy.congr rfl rfl rfl rfl, hd.tight⟩

/-- **Locals whose registers have been filled come into scope.** -/
theorem Filled.performs (h : Filled (d.pending 0 ++ list) names vars 0 es d1 d2) (hd : d.Between list names)
    (hdecl : d.Declaring names ys d1) (hvars : vars = ys.length) :
    Writes (activate vars) d2 fun _ d' =>
      Performs list names (names ++ ys) (fun _ vs => Formula.give names vars vs es) d d' := by
  have hlists : d2.Lists (names ++ ys) := hdecl.lists.congr h.moves.declared h.moves.locals
  refine (Writes.activate_lists hlists).imp fun _ d' hactivate => ?_
  obtain ⟨hlists', ls, hd'⟩ := hactivate
  have hrest := hdecl.rest
  have hactive : d2.active = names.length := by
    rw [h.moves.active, hrest]
    exact hd.active
  have hgotos : d2.gotos = d.gotos := by
    rw [h.moves.gotos, hrest]
  have hlen : (names ++ ys).length = names.length + vars := by rw [List.length_append, hvars]
  have hpending : d'.pending 0 = d.pending 0 := by
    rw [Draft.pending, hd', Draft.pending]
    simp only [hgotos]
  have htests : d.SameTests (d.pending 0 ++ list) d1 := .of_code fun _ _ => by rw [hrest]
  have hbetween : d'.Between list (names ++ ys) := {
    lists := hlists'
    active := by rw [hd', hlen, ← hactive]
    labels := by
      rw [hd', h.moves.labels, hrest]
      exact hd.labels
    allBreaks := by
      rw [hd', hgotos]
      exact hd.allBreaks
    waits := by
      rw [hpending, hd']
      exact ⟨h.waits.le, h.waits.jumps, h.waits.nodup, h.waits.target⟩
    roomy := by
      have hr := h.roomy
      rw [hd']
      exact ⟨Nat.le_of_eq (by rw [hactive, h.free]), hr.free, hr.stack, hr.constants⟩
    tight := by
      rw [hd']
      exact h.tight
    calm := by
      have hcalm : d1.Calm := by
        rw [hrest]
        exact hd.calm
      rw [hd']
      exact h.moves.calm hcalm
    free := by
      rw [hd', h.free, hactive]
    inside := by
      rw [hd', h.moves.blocks, hrest]
      exact hd.inside }
  have honward : d.Onward list d' := by
    refine ⟨(htests.trans h.moves.tests).trans (.of_code fun _ _ => by rw [hd']), ?_, ?_, ?_, ?_, ?_⟩
    · have hpc : d1.pc = d.pc := by rw [hrest, Draft.pc, Draft.pc]
      have hpc' : d'.pc = d2.pc := by rw [hd', Draft.pc, Draft.pc]
      rw [hpc', ← hpc]
      exact h.moves.grows
    · have hsame : d'.gotos = d.gotos := by rw [hd', hgotos]
      exact hsame ▸ List.prefix_rfl
    · rw [hd', h.moves.blocks, hrest]
    · rw [hd', h.moves.vararg, hrest]
    · rw [hd', h.moves.params, hrest]
  refine ⟨hbetween, honward, List.prefix_append _ _, fun p hp => ?_⟩
  have hp2 : CompletesAbove 0 p d2 (d.pending 0 ++ list) d2.pc := by
    rw [hpending, show d'.pc = d2.pc by rw [hd', Draft.pc, Draft.pc]] at hp
    exact hp.stock (by rw [hd']) (by rw [hd']) (by rw [hd']) fun k c hk => by rwa [hd']
  obtain ⟨hp1, hruns⟩ := h.runs p hp2
  refine ⟨?_, fun bound vs s hs => ?_⟩
  · rw [show d1.pc = d.pc by rw [hrest, Draft.pc, Draft.pc]] at hp1
    exact hp1.stock (by rw [hrest]) (by rw [hrest]) (by rw [hrest]) fun k c hk => by rwa [hrest]
  · have hst : d1.Stands p vs s := hs.2.stock (by rw [hrest]) (by rw [hrest]) (by rw [hrest])
    refine (hruns bound _ vs s ⟨by rw [hs.1, Nat.zero_min, Nat.add_zero], hst⟩).imp (fun ws s' hdone => ?_) fun _ _ => id
    exact ⟨hdone.1.trans hlen.symm, hdone.2.stock (by rw [hd']) (by rw [hd']) (by rw [hd'])⟩

end

namespace Grammar

variable {names : List Bytes} {bound n m : Nat} {t : Token} {more : List Token} {d d1 : Draft} {list : List Nat}

theorem namesFrom_declares {xs ys : List Bytes} {count : Nat} (h : d.Declaring names ys d1) (ht : t ≠ .symbol .comma) :
    Takes (namesFrom m count) (xs.flatMap (fun y => [.symbol .comma, .name y]) ++ t :: more) d1 fun c ts d' =>
      c = count + xs.length ∧ ts = t :: more ∧ d.Declaring names (ys ++ xs) d' := by
  induction xs generalizing m count ys d1 with
  | nil =>
    cases m with
    | zero => exact Takes.failNear
    | succ m =>
      refine Takes.testNext_stay ht (Takes.pure ⟨rfl, rfl, ?_⟩)
      rw [List.append_nil]
      exact h
  | cons x xs ih =>
    cases m with
    | zero => exact Takes.failNear
    | succ m =>
      refine Takes.testNext_pass (by simp) (Takes.checkName (by simp) ?_)
      refine Takes.write (h.declare x) fun _ d2 h2 => (ih h2).imp fun c ts d' h => ?_
      obtain ⟨hc, hts, h'⟩ := h
      refine ⟨?_, hts, ?_⟩
      · rw [hc, List.length_cons]
        omega
      · rw [List.append_assoc] at h'
        exact h'

theorem localStatement_takes {x : Bytes} {xs : List Bytes} {es : List Formula} (hes : ∀ f ∈ es, f.Fits names)
    (ht : t.Apart) (hd : d.Between list names) :
    Takes (ofLevels Compile.named bound n).localStatement
      (.name x :: (xs.flatMap (fun y => [.symbol .comma, .name y]) ++ (Formula.listTokens (.symbol .assign) es ++ t :: more)))
      d fun _ ts d' => ts = t :: more ∧
        Performs list names (names ++ x :: xs) (fun _ vs => Formula.give names (x :: xs).length vs es) d d' := by
  -- what is done when the formulas have been read
  have hend : ∀ (c : Nat × Expr) (d1 d2 : Draft), d.Declaring names (x :: xs) d1 →
      Writes (adjust (x :: xs).length c.1 c.2) d2 (fun _ d' =>
        Filled (d.pending 0 ++ list) names (x :: xs).length 0 es d1 d') →
      Takes (do
        adjust (x :: xs).length c.1 c.2
        activate (x :: xs).length) (t :: more) d2 fun _ ts d' => ts = t :: more ∧
          Performs list names (names ++ x :: xs) (fun _ vs => Formula.give names (x :: xs).length vs es) d d' :=
    fun c d1 d2 hdecl hfill => Takes.write hfill fun _ d3 h3 =>
      Takes.ofWrites (h3.performs hd hdecl rfl) fun _ d' h => ⟨rfl, h⟩
  have hnone : d.Declaring names [] d := ⟨by rw [List.append_nil]; exact hd.lists, rfl⟩
  refine Takes.checkName (by simp) (Takes.write (hnone.declare x) fun _ d1 h1 => ?_)
  cases es with
  | nil =>
    refine (namesFrom_declares h1 ht.comma).andThen fun vars ts d2 h => ?_
    obtain ⟨rfl, rfl, h2⟩ := h
    rw [Nat.add_comm 1 xs.length]
    refine Takes.testNext_stay ht.assign (Takes.bind (Takes.pure (hend (0, .plain .void) d2 d2 h2 ?_)))
    exact Writes.adjust_nothing (h2.begins hd.begins) (h2.knows hd.active).active (by rw [h2.rest]; exact hd.free.trans hd.active)
  | cons e es =>
    rw [listTokens_cons]
    refine (namesFrom_declares h1 (by simp)).andThen fun vars ts d2 h => ?_
    obtain ⟨rfl, rfl, h2⟩ := h
    rw [Nat.add_comm 1 xs.length]
    refine Takes.testNext_pass (by simp) ?_
    have hknows := h2.knows hd.active
    have hfree : d2.free = names.length + 0 := by
      rw [h2.rest]
      exact hd.free.trans hd.active
    obtain ⟨t', more', htokens, hends⟩ := listTokens_first es more ht
    rw [htokens]
    refine Takes.bind (Takes.bind ((expr_computes (hes e (List.mem_cons_self ..)) hends (h2.begins hd.begins) hknows).imp
      fun e' ts d3 h => ?_))
    obtain ⟨rfl, hc⟩ := h
    rw [← htokens]
    have hes' : ∀ f ∈ es, f.Fits names := fun f hf => hes f (List.mem_cons_of_mem _ hf)
    refine (exprsFrom_fills (x :: xs).length ht hes' (h2.begins hd.begins) hknows hfree hc).imp fun c ts d4 h => ?_
    obtain ⟨rfl, hfill⟩ := h
    exact hend c d2 d4 h2 hfill

/-- **A declaration is read.** -/
theorem declare_takes {x : Bytes} {xs : List Bytes} {es : List Formula} (hf : (Statement.declare x xs es).Fits names)
    (ht : t.Apart) (hd : d.Between list names) :
    Takes (ofLevels Compile.named bound n).statementBody ((Statement.declare x xs es).tokens ++ t :: more) d fun _ ts d' =>
      ts = t :: more ∧ Performs list names (names ++ x :: xs)
        (fun bound vs => (Statement.declare x xs es).run bound names vs) d d' := by
  have htokens : (Statement.declare x xs es).tokens ++ t :: more = .keyword .local :: .name x ::
      (xs.flatMap (fun y => [.symbol .comma, .name y]) ++ (Formula.listTokens (.symbol .assign) es ++ t :: more)) := by
    simp [Statement.tokens]
  rw [htokens]
  refine Takes.line fun line => Takes.token (Takes.next (by simp) ?_)
  exact Takes.testNext_stay (by simp) (Performs.read (localStatement_takes hf ht hd))

end Grammar

end LuaMachine
