/-
  A CHUNK THAT RETURNS A FORMULA OF ITS ARGUMENTS: `local x, y = ... return e`. Its code spreads the
  arguments over the registers of the locals, computes the formula and returns the register where its value
  is.

  * `Proto.Delivers` -- what the finished function does; **`compile_delivers`**.
-/
import LuaMachine.Proofs.Compiler.Block
import LuaMachine.Proofs.Meaning.Locals

namespace LuaMachine

def Formula.chunk (e : Formula) (names : List Bytes) : List Token :=
  .keyword .local :: ((names.map Token.name).intersperse (.symbol .comma) ++
    .symbol .assign :: .symbol .dots :: .keyword .return :: (e.tokens ++ [.eof]))

/-! ## 1. The declaration -/

namespace Draft

/-- A main function whose first locals are being declared. -/
structure Opening (names : List Bytes) (d : Draft) : Prop where
  code : d.code = #[]
  constants : d.constants = #[]
  here : d.here = []
  active : d.active = 0
  free : d.free = 0
  stack : d.maxStack = 2
  vararg : d.isVararg = true
  params : d.params = 0
  block : ∃ b, d.blocks = [b] ∧ b.isLoop = false
  lists : d.Lists names

/-- A main function that has spread its arguments over its locals. -/
structure Opened (names : List Bytes) (d : Draft) : Prop where
  code : ∃ i, d.code = #[i] ∧ i.opcode = .vararg ∧ i.a.val = 0 ∧ i.b.val = names.length + 1
  begins : d.Begins []
  here : d.here = []
  knows : d.Knows names
  vararg : d.isVararg = true
  params : d.params = 0
  block : ∃ b, d.blocks = [b] ∧ b.isLoop = false

variable {names : List Bytes} {d d' : Draft}

theorem Opened.fresh (h : d.Opened names) : d.Fresh := by
  obtain ⟨i, hcode, ho, -⟩ := h.code
  refine .inr ?_
  have hi : d.code[d.pc - 1]? = some i := by simp [Draft.pc, hcode]
  rw [instr_eq hi, ho]
  decide

theorem Opening.declare {y : Bytes} (h : d.Opening names) :
    Compile.Writes (Compile.declare y) d fun _ d' => d'.Opening (names ++ [y]) := by
  refine Compile.Writes.get fun s hs => ?_
  split
  · exact Compile.Writes.failLimit
  · exact Compile.Writes.modifyFn ⟨h.code, h.constants, h.here, h.active, h.free, h.stack, h.vararg, h.params,
      h.block, h.lists.declare rfl⟩

end Draft

namespace Grammar

open Compile Draft

variable {names : List Bytes} {d : Draft} {bound n m : Nat} {t : Token} {more : List Token}

theorem namesFrom_takes {xs : List Bytes} {count : Nat} (h : d.Opening names) (ht : t ≠ .symbol .comma) :
    Takes (namesFrom m count) (xs.flatMap (fun y => [.symbol .comma, .name y]) ++ t :: more) d fun c ts d' =>
      c = count + xs.length ∧ ts = t :: more ∧ d'.Opening (names ++ xs) := by
  induction xs generalizing m count names d with
  | nil =>
    cases m with
    | zero => exact Takes.failNear
    | succ m =>
      refine Takes.testNext_stay ht (Takes.pure ⟨rfl, rfl, ?_⟩)
      rw [List.append_nil]
      exact h
  | cons y ys ih =>
    cases m with
    | zero => exact Takes.failNear
    | succ m =>
      refine Takes.testNext_pass (by simp) (Takes.checkName (by simp) ?_)
      refine Takes.write h.declare fun _ d1 h₁ => (ih h₁).imp fun c ts d' ⟨hc, hts, h'⟩ => ?_
      refine ⟨?_, hts, ?_⟩
      · rw [hc, List.length_cons]
        omega
      · rw [List.append_assoc] at h'
        exact h'

theorem intersperse_eq (x : Token) (xs : List Token) (sep : Token) :
    (x :: xs).intersperse sep = x :: xs.flatMap fun y => [sep, y] := by
  induction xs generalizing x with
  | nil => rfl
  | cons y ys ih => simp [List.intersperse, ih]

theorem dots_takes (h : d.Opening names) :
    Takes ((ofLevels Compile.named bound n).subexpr 0) (.symbol .dots :: .keyword .return :: more) d fun a ts d' =>
      a = (.plain (.varargs 0), none) ∧ ts = .keyword .return :: more ∧
        ∃ line, d' = d.push (Instr.ofABC .vararg 0 1 0) line := by
  cases n with
  | zero => exact Takes.failNear
  | succ n =>
    refine Takes.token ?_
    refine Takes.bind (Takes.token ?_)
    refine Takes.get fun s _ hs => ?_
    rw [hs, h.vararg]
    refine Takes.write (Writes.emit_nil h.here) fun pc d1 ⟨hpc, line, hd1⟩ => ?_
    have hzero : pc = 0 := by rw [hpc, h.code]; rfl
    subst hzero
    refine Formula.literal_takes (by simp) (Takes.token ?_)
    cases hb : (ofLevels Compile.named bound n).bound with
    | zero => exact Takes.failNear
    | succ m => exact Takes.pure ⟨rfl, rfl, line, hd1⟩

theorem adjust_writes_varargs {line : Nat} (h : d.Opening names) (hne : 1 ≤ names.length) :
    Writes (adjust names.length 1 (.plain (.varargs 0))) (d.push (Instr.ofABC .vararg 0 1 0) line) fun _ d' =>
      ∃ i lines high, d' = { d with code := #[i], lines := lines, maxStack := high, free := names.length } ∧
        i.opcode = .vararg ∧ i.a.val = 0 ∧ i.b.val = names.length + 1 ∧ names.length ≤ high ∧ high ≤ 254 := by
  unfold adjust setReturns
  refine Writes.bind (Writes.bind (Writes.modifyFn ?_))
  let i := ((Instr.ofABC .vararg 0 1 0).setB (names.length + 1)).setA 0
  have hmap : ((d.push (Instr.ofABC .vararg 0 1 0) line).mapInstr 0 fun i =>
      (i.setB (Operand.ofCount (some (names.length + 1 - 1)))).setA (d.push (Instr.ofABC .vararg 0 1 0) line).free) =
      { d with code := #[i], lines := d.lines.push line } := by
    simp only [Draft.push, mapInstr, h.code, h.free, Operand.ofCount, Nat.add_sub_cancel]
    rfl
  -- whatever the number of registers
  have hend : ∀ high, names.length ≤ high → high ≤ 254 →
      ∃ j lines high', { d with code := #[i], lines := d.lines.push line, maxStack := high, free := names.length } =
        { d with code := #[j], lines := lines, maxStack := high', free := names.length } ∧
        j.opcode = .vararg ∧ j.a.val = 0 ∧ j.b.val = names.length + 1 ∧ names.length ≤ high' ∧ high' ≤ 254 := by
    intro high h1 h2
    refine ⟨i, _, high, rfl, rfl, ?_, ?_, h1, h2⟩
    · simp [i]
    · simp only [i, Instr.b_setA, Instr.b_setB]
      omega
  dsimp only
  rw [hmap]
  simp only [Nat.add_sub_cancel]
  have hstack : { d with code := #[i], lines := d.lines.push line }.maxStack ≤ 254 := by
    show d.maxStack ≤ 254
    rw [h.stack]
    decide
  refine (Writes.reserve hstack).imp ?_
  rintro _ d1 ⟨hle, hd1⟩
  simp only [h.free] at hd1 hle
  rw [if_neg (Nat.not_lt.mpr hne)]
  split
  · next hlt =>
    subst hd1
    refine (Writes.reserve hle).andThen ?_
    rintro _ d2 ⟨hle2, hd2⟩
    refine Writes.pure ?_
    have hfree : 0 + 1 + (names.length - 1) = names.length := by omega
    simp only [hfree] at hd2 hle2
    subst hd2
    exact hend _ (Nat.le_max_right _ _) hle2
  · next hlt =>
    have hone : names.length = 0 + 1 := by omega
    rw [← hone] at hd1 hle
    subst hd1
    exact Writes.pure (hend _ (Nat.le_max_right _ _) hle)

theorem exprsFrom_stop {g : Grammar} {count : Nat} {e : Expr} {Q : Nat × Expr → List Token → Draft → Prop}
    (ht : t ≠ .symbol .comma) (hq : Q (count, e) (t :: more) d) :
    Takes (g.exprsFrom m count e) (t :: more) d Q := by
  cases m with
  | zero => exact Takes.failNear
  | succ m => exact Takes.testNext_stay ht (Takes.pure hq)

theorem opened_of_opening {i : Instr} {lines : Array Nat} {high : Nat} {ls : Array DraftLocal} (h : d.Opening names)
    (ho : i.opcode = .vararg) (ha : i.a.val = 0) (hb : i.b.val = names.length + 1) (hlow : names.length ≤ high)
    (hhigh : high ≤ 254) (hl : { d with locals := ls }.Lists names) :
    { d with
      code := #[i], lines := lines, maxStack := high, locals := ls, active := d.active + names.length,
      free := d.active + names.length }.Opened names := by
  have hactive : d.active + names.length = names.length := by rw [h.active, Nat.zero_add]
  refine ⟨⟨i, rfl, ho, ha, hb⟩, ⟨⟨Nat.le_refl _, ?_, ?_, fun hn => absurd h.here hn⟩,
    ⟨Nat.le_refl _, ?_, hhigh, ?_⟩, Fresh.tight (.inr ?_)⟩, h.here,
    Lists.knows ?_ hactive, h.vararg, h.params, h.block⟩
  · simp [h.here]
  · simp [h.here]
  · show d.active + names.length ≤ high
    omega
  · show d.constants.size ≤ _
    rw [h.constants]
    exact Nat.zero_le _
  · show i.opcode ≠ .loadNil
    rw [ho]
    decide
  · exact hl.congr rfl rfl

/-- **The declaration is read**: the arguments are spread over the locals. -/
theorem local_takes {y : Bytes} {ys : List Bytes} (h : d.Opening []) :
    Takes (ofLevels Compile.named bound n).statementBody
      (.keyword .local :: (((y :: ys).map Token.name).intersperse (.symbol .comma) ++
        .symbol .assign :: .symbol .dots :: .keyword .return :: more)) d fun _ ts d' =>
      ts = .keyword .return :: more ∧ d'.Opened (y :: ys) := by
  have htokens : (((y :: ys).map Token.name).intersperse (.symbol .comma) ++
      .symbol .assign :: .symbol .dots :: .keyword .return :: more) =
      .name y :: (ys.flatMap (fun z => [.symbol .comma, .name z]) ++
        .symbol .assign :: .symbol .dots :: .keyword .return :: more) := by
    rw [List.map_cons, intersperse_eq, List.flatMap_map]
    rfl
  rw [htokens]
  refine Takes.line fun line => Takes.token (Takes.next (by simp) ?_)
  refine Takes.testNext_stay (by simp) ?_
  refine Takes.bind (Takes.checkName (by simp) ?_)
  refine Takes.write h.declare fun _ d1 h₁ => ?_
  refine (namesFrom_takes h₁ (by simp)).andThen fun vars ts d2 ⟨hvars, hts, h₂⟩ => ?_
  subst hts
  have hlen : vars = (y :: ys).length := by
    rw [hvars, List.length_cons, Nat.add_comm]
  subst hlen
  refine Takes.testNext_pass (by simp) ?_
  refine Takes.bind (Takes.bind ((dots_takes h₂).andThen fun a ts d3 ⟨ha, hts, line', hd3⟩ => Takes.pure ?_))
  subst ha hts hd3
  refine exprsFrom_stop (by simp) ?_
  refine Takes.write (adjust_writes_varargs h₂ (by simp)) fun _ d4 ⟨i, lines, high, hd4, ho, ha, hb, hlow, hhigh⟩ => ?_
  have hl4 : d4.Lists (y :: ys) := by
    rw [hd4]
    exact h₂.lists.congr rfl rfl
  refine Takes.ofWrites (Writes.activate_lists hl4) fun _ d5 ⟨hl5, ls, hd5⟩ => ?_
  have hfree : Writes (modifyFn fun d => { d with free := d.active }) d5 fun _ d' =>
      d' = { d5 with free := d5.active } := Writes.modifyFn rfl
  refine Takes.ofWrites (Writes.demanding fun _ => hfree) fun _ d' hd' => ⟨rfl, ?_⟩
  subst hd' hd5 hd4
  exact opened_of_opening h₂ ho ha hb hlow hhigh (hl5.congr rfl rfl)

end Grammar

/-! ## 2. What is returned -/

theorem Formula.tokens_first (e : Formula) :
    ∃ t ts, e.tokens = t :: ts ∧ t.endsBlock true = false ∧ t ≠ .symbol .semi := by
  induction e with
  | var x => exact ⟨_, _, rfl, rfl, nofun⟩
  | lit c =>
    refine ⟨_, _, rfl, ?_⟩
    cases c with
    | bool b => cases b <;> exact ⟨rfl, nofun⟩
    | _ => exact ⟨rfl, nofun⟩
  | paren e _ => exact ⟨_, _, rfl, rfl, nofun⟩
  | not e _ => exact ⟨_, _, rfl, rfl, nofun⟩
  | rel r a b iha _ | and a b iha _ | or a b iha _ =>
    obtain ⟨t, ts, ht, hends, hsemi⟩ := iha
    exact ⟨t, _, by rw [tokens, ht, List.cons_append], hends, hsemi⟩

/-- What is left of a function that returns a formula of its locals: its code from `pc` on computes the
    value and returns the register where it is. -/
structure Draft.Returned (names : List Bytes) (e : Formula) (d d' : Draft) : Prop where
  here : d'.here = []
  vararg : d'.isVararg = d.isVararg
  params : d'.params = d.params
  blocks : d'.blocks = d.blocks
  runs : ∀ (p : Proto) (k : Nat), CompletesAbove k p d' [] d'.pc → Completes p d [] d.pc ∧
    ∃ stop i, p.code[stop]? = some i ∧ i.opcode = .ret ∧ i.b.val = 2 ∧
      ∀ regs, Arrives p d.active ⟨d.pc, regs⟩ stop i.a.val (e.meaning names regs)

theorem Draft.Returned.release {names : List Bytes} {e : Formula} {d d' : Draft} (h : d.Returned names e d')
    (free : Nat) : d.Returned names e { d' with free := free } :=
  ⟨h.here, h.vararg, h.params, h.blocks, fun p k hp => h.runs p k (hp.stock rfl rfl rfl fun _ _ => id)⟩

namespace Grammar

open Compile Draft

variable {names : List Bytes} {e : Formula} {d : Draft} {bound n : Nat}

theorem emitReturn_returns {e' : Expr} {d1 d2 : Draft} {r : Nat} (hd : d.Begins []) (hf : d.Fresh) (hr : r < 254)
    (hc : Computes [] d (e.meaning names) e' d1) (hb : Brought [] d1 e' d1.free r d2) :
    Writes (emitReturn r (some 1)) d2 fun _ d' => d.Returned names e d' := by
  refine Writes.discard ((Writes.emit_extends hb.waits).imp fun _ d3 ⟨_, hx⟩ => ?_)
  have hpc : d3.pc = d2.pc + 1 := hx.pc
  have hscope : d.SameScope d3 := (hc.moves.trans (hb.moves.trans (hx.moves hb.waits ⟨_, rfl, by simp⟩))).toSameScope
  refine ⟨hx.here, hscope.vararg, hscope.params, hscope.blocks, fun p k hp => ?_⟩
  · obtain ⟨hp2, hlands, hcode⟩ := hp.extended hx (by simp) hb.waits (by omega) (by simp) (by simp)
    obtain ⟨hp1, hbring⟩ := hb.runs p hp2
    obtain ⟨hp0, hruns⟩ := hc.runs p hp1
    have hi : p.code[d2.pc]? = some (Instr.ofABC .ret r 2 0) := by
      refine hcode 0 _ rfl (by omega) ?_ (by simp)
      rintro (hm | ⟨hm, -⟩) <;> cases hm
    refine ⟨hp0, d2.pc, _, hi, by simp, by simp, fun regs => ?_⟩
    have hle := hd.roomy.active
    rw [Instr.a_ofABC, Nat.mod_eq_of_lt (by omega)]
    have hbrings := hbring _ _ _ (by rw [hc.free]; exact hle)
      (hruns d.active regs ⟨d.pc, regs⟩ (Nat.le_refl _) hle (.direct hf.primed) fun _ _ => rfl)
    exact hbrings.arrives hlands

theorem return_takes (hg : e.Grouped) (ho : e.Over names) (h : d.Opened names) :
    Takes (ofLevels Compile.named bound n).statementBody (.keyword .return :: (e.tokens ++ [.eof])) d fun _ ts d' =>
      ts = [.eof] ∧ d.Returned names e d' := by
  obtain ⟨t, more, ht, hends, hsemi⟩ := e.tokens_first
  refine Takes.line fun line => Takes.token (Takes.next (by simp) ?_)
  refine Takes.bind ?_
  have hread : Takes (ofLevels Compile.named bound n).exprs (e.tokens ++ [.eof]) d fun a ts d1 =>
      a.1 = 1 ∧ ts = [.eof] ∧ Computes [] d (e.meaning names) a.2 d1 := by
    refine Takes.bind (Takes.bind ?_)
    have hstop : ∀ level, Token.eof.Ends level := fun _ => rfl
    refine ((e.parses hg ho).operand h.begins h.knows (.inl e.level_pos) (hstop _) (hstop _)).imp
      fun a ts d1 ⟨_, hts, hc⟩ => ?_
    subst hts
    exact Takes.pure (exprsFrom_stop (by simp) ⟨rfl, rfl, hc⟩)
  rw [ht, List.cons_append] at hread ⊢
  -- something is returned
  refine Takes.bind (Takes.token (Takes.pure ?_))
  rw [hends]
  refine Takes.bind (Takes.token (Takes.pure ?_))
  rw [show (false || decide (t = Token.symbol .semi)) = false from decide_eq_false hsemi, if_neg Bool.false_ne_true]
  refine hread.andThen fun a ts d1 ⟨hcount, hts, hc⟩ => ?_
  obtain ⟨count, e'⟩ := a
  subst hcount hts
  refine Takes.get fun s _ _ => ?_
  rw [hc.sits.place.isMulti, if_neg Bool.false_ne_true, if_pos rfl]
  refine Takes.write (Writes.toAnyRegister_brings hc.sits.place hc.sits.waits hc.roomy hc.tight)
    fun r d2 ⟨hr, _, hb, _⟩ => ?_
  refine Takes.write (emitReturn_returns h.begins h.fresh hr hc hb) fun _ d3 hd3 => ?_
  refine Takes.discard (Takes.testNext_stays (by simp) ?_)
  exact Takes.ofWrites (Writes.demanding fun _ => Writes.modifyFn (hd3.release _)) fun _ d' hd' => ⟨rfl, hd'⟩

theorem statementsFrom_step {g : Grammar} {m : Nat} {t : Token} {more : List Token} {Q : Unit → List Token → Draft → Prop}
    (ht : t.endsBlock true = false)
    (h : Takes g.statement (t :: more) d fun _ ts d' =>
      if t = .keyword .return then Q () ts d' else Takes (g.statementsFrom m) ts d' Q) :
    Takes (g.statementsFrom (m + 1)) (t :: more) d Q := by
  refine Takes.bind (Takes.token (Takes.pure ?_))
  rw [ht, if_neg Bool.false_ne_true]
  refine Takes.token (h.andThen fun _ ts d' hq => ?_)
  by_cases hr : t = .keyword .return
  · simp only [hr, if_true] at hq ⊢
    exact Takes.pure hq
  · simp only [hr, if_false] at hq ⊢
    exact hq

theorem statements_take {y : Bytes} {ys : List Bytes} (hg : e.Grouped) (ho : e.Over (y :: ys)) (h : d.Opening []) :
    Takes (ofLevels Compile.named bound n).statements (e.chunk (y :: ys)) d fun _ ts d' =>
      ts = [.eof] ∧ ∃ d1 : Draft, d1.Opened (y :: ys) ∧ d1.Returned (y :: ys) e d' := by
  unfold statements
  cases (ofLevels Compile.named bound n).bound with
  | zero => exact Takes.failNear
  | succ m =>
    cases n with
    | zero => exact statementsFrom_step rfl Takes.failNear
    | succ n =>
      refine statementsFrom_step rfl ((local_takes h).imp fun _ ts d1 ⟨hts, h₁⟩ => ?_)
      subst hts
      rw [if_neg (by simp)]
      cases m with
      | zero => exact Takes.failNear
      | succ m =>
        refine statementsFrom_step rfl ((return_takes hg ho h₁).imp fun _ ts d2 ⟨hts, h₂⟩ => ?_)
        rw [if_pos rfl]
        exact ⟨hts, d1, h₁, h₂⟩

end Grammar

/-! ## 3. The function -/

/-- A function that spreads its arguments over registers, computes a formula of them and returns its
    value. -/
structure Proto.Delivers (names : List Bytes) (e : Formula) (p : Proto) : Prop where
  vararg : p.isVararg = true
  params : p.params = 0
  spreads : ∃ i, p.code[0]? = some i ∧ i.opcode = .vararg ∧ i.a.val = 0 ∧ i.b.val = names.length + 1
  returns : ∃ stop i, p.code[stop]? = some i ∧ i.opcode = .ret ∧ i.b.val = 2 ∧
    ∀ regs, Arrives p names.length ⟨1, regs⟩ stop i.a.val (e.meaning names regs)

namespace Draft

variable {names : List Bytes} {e : Formula} {d d1 d2 : Draft}

theorem completes_finish (source : Bytes) (hh : d.here = []) : Completes (d.finish source) d [] d.pc :=
  ⟨fun _ _ hi _ _ _ => hi, by simp [hh], fun ho _ => ⟨_, ho.code, ho.2, fun _ => id, fun _ _ => id⟩, fun _ _ => id⟩

theorem Returned.closeBody (source : Bytes) (h₁ : d1.Opened names) (h : d1.Returned names e d2) :
    Compile.Writes Grammar.closeBody d2 fun _ d' => (d'.finish source).Delivers names e := by
  obtain ⟨b, hb, hl⟩ := h₁.block
  have hw : d2.Waits [] d2.pc := by
    refine ⟨Nat.le_refl _, ?_, ?_, fun hn => absurd h.here hn⟩
    · simp [h.here]
    · simp [h.here]
  have hret : Compile.Writes (Compile.emitReturn 0 (some 0)) d2 fun _ d3 =>
      d2.Extended [Instr.ofABC .ret 0 1 0] d3 :=
    Compile.Writes.discard ((Compile.Writes.emit_extends hw).imp fun _ _ h => h.2)
  refine hret.andThen fun _ d3 hx => ?_
  have hscope := (hx.moves hw ⟨_, rfl, by simp⟩).toSameScope
  refine (leaveBody (hscope.blocks.trans (h.blocks.trans hb)) hl).imp fun _ d' ⟨_, ls, ds, a, labels, hd'⟩ => ?_
  have hp' : Completes (d'.finish source) d' [] d'.pc := completes_finish source (by rw [hd']; exact hx.here)
  have hp3 : CompletesAbove d'.free (d'.finish source) d3 [] d3.pc := by
    subst hd'
    exact hp'.stock rfl rfl rfl fun _ _ => id
  obtain ⟨hp2, -⟩ := hp3.extended (m := 0) hx (by simp) hw (by rw [hx.pc]; omega) (by simp) (by simp)
  obtain ⟨hp1, hruns⟩ := h.runs _ _ hp2
  obtain ⟨i, hcode, ho, ha, hb⟩ := h₁.code
  have hone : d1.pc = 1 := by simp [Draft.pc, hcode]
  rw [hone, h₁.knows.active] at hruns
  have hfirst : d1.code[0]? = some i := by simp [hcode]
  refine ⟨?_, ?_, ⟨i, hp1.same hfirst (by rw [hone]; exact Nat.one_pos) ?_ (by rw [ho]; decide), ho, ha, hb⟩, hruns⟩
  · show d'.isVararg = true
    rw [hd']
    exact hscope.vararg.trans (h.vararg.trans h₁.vararg)
  · show UInt8.ofNat d'.params = 0
    rw [hd', show d3.params = 0 from hscope.params.trans (h.params.trans h₁.params)]
    rfl
  · rw [h₁.here]
    simp [Loose]

end Draft

namespace Grammar

open Compile Draft

theorem mainFunction_takes {y : Bytes} {ys : List Bytes} {e : Formula} {bound n line : Nat} (source : Bytes)
    (hg : e.Grouped) (ho : e.Over (y :: ys)) :
    Takes (ofLevels Compile.named bound n).mainFunction (e.chunk (y :: ys)) (Draft.new line) fun _ _ d' =>
      (d'.finish source).Delivers (y :: ys) e := by
  refine Takes.write Writes.enterBlock fun _ d1 hd1 => ?_
  obtain ⟨-, hd1⟩ := hd1
  refine Takes.write (Writes.modifyFn (Q := fun _ d' => d'.Opening []) ?_) fun _ d2 h₂ => ?_
  · subst hd1
    exact ⟨rfl, rfl, rfl, rfl, rfl, rfl, rfl, rfl, ⟨_, rfl, rfl⟩, rfl, nofun⟩
  refine (statements_take hg ho h₂).andThen fun _ ts d3 ⟨hts, d', h', h3⟩ => ?_
  subst hts
  refine Takes.bind (Takes.token ?_)
  rw [if_neg (fun h => h rfl)]
  exact Takes.pure (Takes.ofWrites (h3.closeBody source h') fun _ _ => id)

end Grammar

/-- **A compiled chunk computes its formula**: its code spreads the arguments over the registers of the
    locals, computes the formula of them and returns the value. -/
theorem compile_delivers {source : Bytes} {chunkName : String} {p : Proto} {names : List Bytes} {e : Formula}
    (h : compile source chunkName = .ok p) (ht : (Lexer.tokenize source).1.map (·.token) = e.chunk names)
    (hne : names ≠ []) (hg : e.Grouped) (ho : e.Over names) : p.Delivers names e := by
  obtain ⟨y, ys, rfl⟩ := List.exists_cons_of_ne_nil hne
  unfold compile compileWith at h
  extract_lets chunk at h
  split at h
  · exact nomatch h
  · exact nomatch h
  · next first rest fault hlex =>
    rw [hlex] at ht
    dsimp only at h
    split at h
    · next s hs =>
      cases h
      exact Grammar.mainFunction_takes _ hg ho
        ⟨first, rest, fault, 1, chunk, Bytes.ofString chunkName, Draft.new 0, []⟩ _ s ht rfl hs
    · exact nomatch h

end LuaMachine
