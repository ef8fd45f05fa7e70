/-
  RUNNING A CHUNK THAT RETURNS ARITHMETIC. A function compiled from `return e` has the outcome that
  evaluating the tree has, whatever part of it was joined while it was compiled.

  * `Proto.Calculates` -- what the finished function does; **`compile_calculates`**;
  * **`compiled_arithmetic_call`** -- what a call of the function comes to.
-/
import LuaMachine.Proofs.Arithmetic.Reading
import LuaMachine.Proofs.Meaning.Evaluation
import LuaMachine.Proofs.Registers.Statement

namespace LuaMachine

namespace Tree

def chunk (e : Tree) : List Token := .keyword .return :: (e.tokens ++ [.eof])

def Large (e : Tree) : Prop := Compile.maxLevels ≤ e.height ∨ Instr.maxAx + 1 < e.count

theorem tokens_first (e : Tree) : ∃ t ts, e.tokens = t :: ts ∧ t.endsBlock true = false ∧ t ≠ .symbol .semi := by
  induction e with
  | num x => cases x <;> exact ⟨_, _, rfl, rfl, nofun⟩
  | paren e _ => exact ⟨_, _, rfl, rfl, nofun⟩
  | un op e _ => cases op <;> exact ⟨_, _, rfl, rfl, nofun⟩
  | bin op a b iha _ =>
    obtain ⟨t, ts, ht, hends, hsemi⟩ := iha
    exact ⟨t, _, by rw [tokens, ht, List.cons_append], hends, hsemi⟩

end Tree

/-! ## 1. The function -/

structure Proto.Calculates (e : Tree) (p : Proto) : Prop where
  vararg : p.isVararg = true
  params : p.params = 0
  returns : ∃ stop i, p.code[stop]? = some i ∧ i.opcode = .ret ∧ i.b.val = 2 ∧
    ∀ regs, p.Comes 0 ⟨0, regs⟩ stop (fun regs v => regs i.a.val = v) e.eval

namespace Draft

/-- A main function of which nothing has been read. -/
structure Opens (d : Draft) : Prop where
  code : d.code = #[]
  constants : d.constants = #[]
  here : d.here = []
  active : d.active = 0
  free : d.free = 0
  stack : d.maxStack = 2
  vararg : d.isVararg = true
  params : d.params = 0
  gotos : d.gotos = []
  block : ∃ b, d.blocks = [b] ∧ b.isLoop = false

structure Ended (e : Tree) (d d' : Draft) : Prop where
  adds : d.Adds d'
  returns : ∀ p : Proto, p.Holds d' d'.pc → ∃ stop i, p.code[stop]? = some i ∧ i.opcode = .ret ∧ i.b.val = 2 ∧
    ∀ regs, p.Comes d.free ⟨d.pc, regs⟩ stop (fun regs v => regs i.a.val = v) e.eval

theorem Ended.calculates {e : Tree} {d d1 d2 : Draft} {p : Proto} (hd : d.Opens) (h : d.Ended e d1)
    (hadds : { d1 with free := d1.active }.Adds d2) (hcode : p.code = d2.code) (hconst : p.constants = d2.constants)
    (hvararg : p.isVararg = true) (hparams : p.params = 0) : p.Calculates e := by
  have hholds : p.Holds d2 d2.pc := by
    refine ⟨fun k _ i hi => ?_, fun k c hc => ?_⟩
    · rw [hcode]
      exact hi
    · rw [hconst]
      exact hc
  have hheld := hholds.mono hadds hadds.pc_le
  obtain ⟨stop, i, hi, ho, hb, hruns⟩ := h.returns p ⟨hheld.code, hheld.constants⟩
  refine ⟨hvararg, hparams, stop, i, hi, ho, hb, fun regs => ?_⟩
  have hpc : d.pc = 0 := by
    rw [Draft.pc, hd.code]
    rfl
  have hend := hruns regs
  rw [hd.free, hpc] at hend
  exact hend

theorem Opens.clear {d : Draft} (h : d.Opens) : d.Clear := by
  refine ⟨⟨?_, ?_, ?_, ?_⟩, h.here⟩
  · rw [h.active]
    exact Nat.zero_le _
  · rw [h.free]
    exact Nat.zero_le _
  · rw [h.stack]
    decide
  · rw [h.constants]
    exact Nat.zero_le _

theorem Opens.spare {d : Draft} {e : Tree} (h : d.Opens) : d.Spare e.Large e.height e.count := by
  refine ⟨fun hlt => .inl ?_, fun hlt => .inr ?_⟩
  · rw [h.free, Nat.zero_add] at hlt
    exact Nat.le_trans (by decide) (Nat.le_of_lt hlt)
  · rw [h.constants] at hlt
    simpa using hlt

end Draft

namespace Compile

variable {L : Prop} {d : Draft}

theorem Makes.leaveBody {b : Block} (hb : d.blocks = [b]) (hl : b.isLoop = false) (hg : d.gotos = []) :
    Makes L Compile.leaveBlock d fun _ d' => ∃ ls ds a labels, d' = { d with
      blocks := [], locals := ls, declared := ds, active := min d.active a, free := min d.active a,
      labels := labels } := by
  refine Makes.get fun s hs => ?_
  subst hs
  rw [hb]
  show Makes L (if b.isLoop = true then _ else _) s.fn _
  rw [hl]
  obtain ⟨ls, ds, hd⟩ := endLocals_eq b.active { s.fn with blocks := [] }
  refine (Makes.modifyFn rfl : Makes L (Compile.modifyFn _) s.fn fun _ d' => d' = _).andThen ?_
  rintro _ _ rfl
  simp only [hd]
  refine Makes.demanding (Makes.get fun t ht => ?_)
  rw [ht]
  simp only [hg, List.drop_nil]
  exact Makes.pure ⟨ls, ds, b.active, _, rfl⟩

end Compile

namespace Grammar

open Compile Draft

variable {e : Tree} {d : Draft} {bound n : Nat}

theorem exprsFrom_end {L : Prop} {g : Grammar} {m count : Nat} {t : Token} {more : List Token} {e : Expr}
    {Q : Nat × Expr → List Token → Draft → Prop} (ht : t ≠ .symbol .comma) (hm : 0 < m) (hq : Q (count, e) (t :: more) d) :
    Passes L (g.exprsFrom m count e) (t :: more) d Q := by
  obtain ⟨m, rfl⟩ := Nat.exists_eq_add_of_le' (hm : 1 ≤ m)
  exact Passes.testNext_stay ht (Passes.pure hq)

theorem emitReturn_ends {d2 : Draft} (hd : d.Opens) (hr : Delivered d e.eval e.count d.free d2) :
    Makes e.Large (emitReturn d.free (some 1)) d2 fun _ d' => d.Ended e d' := by
  refine Makes.discard ((Makes.emit hr.adds.clear.here).imp ?_)
  rintro _ _ ⟨rfl, line, rfl⟩
  have ha : d2.Adds (d2.push (Instr.ofABC .ret d.free 2 0) line) := .push hr.adds.clear _ _
  refine ⟨hr.adds.trans ha, fun p hp => ?_⟩
  have hi := hp.code d2.pc (by simp [Draft.push, Draft.pc]) _ (d2.code_push _ _)
  refine ⟨d2.pc, _, hi, by simp, by simp [Operand.ofCount], fun regs => ?_⟩
  refine (hr.runs p regs (hp.mono ha ha.pc_le)).imp fun regs' v hv => ?_
  rw [hd.free] at hv ⊢
  rw [Instr.a_ofABC]
  exact Option.some.inj ((Proto.value?_register (by decide)).symm.trans hv)

theorem return_passes (hg : e.Grouped) (hd : d.Opens) (hb : e.chunk.length ≤ bound) :
    Passes e.Large (ofLevels Compile.named bound 199).statementBody e.chunk d fun _ ts d' =>
      ts = [.eof] ∧ ∃ d1, d.Ended e d1 ∧ d' = { d1 with free := d1.active } := by
  have hlen : (e.tokens ++ [Token.eof]).length + 1 ≤ bound := hb
  refine Passes.line fun line => Passes.token (Passes.next (by simp) ?_)
  refine Passes.bind ?_
  have hread : Passes e.Large (ofLevels Compile.named bound 199).exprs (e.tokens ++ [.eof]) d fun a ts d1 =>
      a.1 = 1 ∧ ts = [.eof] ∧ Calculated d e.eval e.count a.2 d1 := by
    have hstop : ∀ level, Token.eof.Ends level := fun _ => rfl
    refine Passes.bind (Passes.bind ?_)
    refine ((e.parses hg).operand hd.clear hd.spare .inl e.left_pos (hstop _) (hstop _) (Nat.le_of_succ_le hlen)).imp ?_
    rintro a _ d1 ⟨-, rfl, hc⟩
    refine Passes.pure (exprsFrom_end (by simp) ?_ ⟨rfl, rfl, hc⟩)
    rw [Tree.bound_ofLevels]
    omega
  obtain ⟨t, more, ht, hends, hsemi⟩ := e.tokens_first
  rw [ht, List.cons_append] at hread ⊢
  -- something is returned
  refine Passes.bind (Passes.token (Passes.pure ?_))
  rw [hends]
  refine Passes.bind (Passes.token (Passes.pure ?_))
  rw [show (false || decide (t = Token.symbol .semi)) = false from decide_eq_false hsemi, if_neg Bool.false_ne_true]
  refine hread.andThen ?_
  rintro ⟨count, e'⟩ _ d1 ⟨rfl, rfl, hc⟩
  refine Passes.get fun s _ _ => ?_
  have hmulti : e'.place.isMulti = false := by
    cases hc with
    | numeral x => cases x <;> rfl
    | pending => rfl
  rw [hmulti, if_neg Bool.false_ne_true, if_pos rfl]
  have hspare : d.Spare e.Large 1 e.count := hd.spare.mono (Nat.add_le_add_left e.height_pos _) (Nat.le_refl _)
  refine Passes.write (Makes.toAnyRegister hd.clear hspare hc) ?_
  rintro _ d2 ⟨rfl, hr⟩
  refine Passes.write (emitReturn_ends hd hr) fun _ d3 hd3 => ?_
  refine Passes.discard (Passes.testNext_stays (by simp) ?_)
  have hfree : Makes e.Large (modifyFn fun d => { d with free := d.active }) d3 fun _ d' =>
      d' = { d3 with free := d3.active } := Makes.modifyFn rfl
  exact Passes.ofMakes (Makes.demanding hfree) fun _ d' hd' => ⟨rfl, d3, hd3, hd'⟩

theorem closeBody_calculates {d1 : Draft} (source : Bytes) (hd : d.Opens) (h : d.Ended e d1) :
    Makes e.Large Grammar.closeBody { d1 with free := d1.active } fun _ d' => (d'.finish source).Calculates e := by
  obtain ⟨b, hblocks, hl⟩ := hd.block
  obtain ⟨_, _, _, _, _, hd1⟩ := h.adds.rest
  have hlow : d.Adds { d1 with free := d1.active } := h.adds.lower h.adds.clear.active (Nat.le_of_eq h.adds.active.symm)
  have hret : Makes e.Large (emitReturn 0 (some 0)) { d1 with free := d1.active } fun _ d' =>
      ∃ line, d' = { d1 with free := d1.active }.push (Instr.ofABC .ret 0 1 0) line :=
    Makes.discard ((Makes.emit hlow.clear.here).imp fun _ _ h => h.2)
  refine hret.andThen ?_
  rintro _ _ ⟨line, rfl⟩
  have hpush := Draft.Adds.push hlow.clear (Instr.ofABC .ret 0 1 0) line
  refine (Makes.leaveBody (b := b) ?_ hl ?_).imp ?_
  · rw [hd1]
    exact hblocks
  · rw [hd1]
    exact hd.gotos
  rintro _ _ ⟨ls, ds, a, labels, rfl⟩
  refine Draft.Ended.calculates hd h hpush ?_ ?_ ?_ ?_
  · rfl
  · rfl
  · show d1.isVararg = true
    rw [hd1]
    exact hd.vararg
  · show UInt8.ofNat d1.params = 0
    rw [hd1, show d.params = 0 from hd.params]
    rfl

theorem mainFunction_passes {line : Nat} (source : Bytes) (hg : e.Grouped) (hb : e.chunk.length ≤ bound) :
    Passes e.Large (ofLevels Compile.named bound maxLevels).mainFunction e.chunk (Draft.new line) fun _ _ d' =>
      (d'.finish source).Calculates e := by
  have henter : Makes e.Large (enterBlock false) (Draft.new line) fun _ d' =>
      d' = { Draft.new line with blocks := [⟨0, 0, 0, false, false⟩] } := by
    refine (Makes.modifyFn rfl : Makes e.Large (modifyFn _) (Draft.new line) fun _ d' => d' = _).andThen ?_
    rintro _ _ rfl
    exact Makes.demand rfl
  refine Passes.write henter ?_
  rintro _ _ rfl
  refine Passes.write (Makes.modifyFn (Q := fun _ d' => d'.Opens) ?_) fun _ d hd => ?_
  · exact ⟨rfl, rfl, rfl, rfl, rfl, rfl, rfl, rfl, rfl, _, rfl, rfl⟩
  refine Passes.andThen (P := fun _ ts d' => ts = [.eof] ∧ ∃ d1, d.Ended e d1 ∧ d' = { d1 with free := d1.active }) ?_ ?_
  · -- the return is the only statement
    have hread := return_passes hg hd hb
    unfold statements
    rw [Tree.bound_ofLevels]
    obtain ⟨m, rfl⟩ := Nat.exists_eq_add_of_le' (Nat.le_trans (Nat.succ_pos _) hb : 1 ≤ bound)
    refine Passes.bind (Passes.token (Passes.pure ?_))
    refine Passes.token (hread.andThen fun _ ts d' h => ?_)
    exact Passes.pure h
  · rintro _ _ _ ⟨rfl, d1, h, rfl⟩
    refine Passes.bind (Passes.token ?_)
    rw [if_neg (fun h => h rfl)]
    exact Passes.pure (Passes.ofMakes (closeBody_calculates source hd h) fun _ _ => id)

end Grammar

/-- **A compiled chunk calculates its tree**, unless the tree is too large and a limit is met. -/
theorem compile_calculates {source : Bytes} {e : Tree} (chunkName : String)
    (ht : (Lexer.tokenize source).1.map (·.token) = e.chunk) (hg : e.Grouped) :
    (∃ p, compile source chunkName = .ok p ∧ p.Calculates e) ∨
      ∃ err, compile source chunkName = .error err ∧ err.fault.isLimit = true ∧ e.Large := by
  obtain ⟨first, rest, fault, hlex⟩ : ∃ first rest fault, Lexer.tokenize source = (first :: rest, fault) := by
    cases hlex : Lexer.tokenize source with
    | mk lexemes fault =>
      cases lexemes with
      | nil =>
        rw [hlex] at ht
        cases ht
      | cons first rest => exact ⟨first, rest, fault, rfl⟩
  rw [hlex] at ht
  have hlen : e.chunk.length ≤ rest.length + 2 := by
    rw [← ht, List.length_map, List.length_cons]
    exact Nat.le_succ _
  have hmain := Grammar.mainFunction_passes (Bytes.ofString chunkName) hg hlen
    ⟨first, rest, fault, 1, ChunkName.display chunkName, Bytes.ofString chunkName, Draft.new 0, []⟩ ht rfl
  unfold compile compileWith
  rw [hlex]
  dsimp only [StateT.run]
  split at hmain
  · next s hrun =>
    rw [hrun]
    exact .inl ⟨_, rfl, hmain⟩
  · next err hrun =>
    rw [hrun]
    refine .inr ⟨_, rfl, hmain.resolve_right ?_⟩
    rintro ⟨rule, hbroken⟩
    have hunbroken := Grammar.mainFunction_unbroken _ _ rfl rfl hrun
    rw [hbroken] at hunbroken
    cases hunbroken

/-! ## 2. The call -/

def Outcome.Shows (o : Outcome) : Result → Prop
  | .ok v => o = .results [v]
  | .error f => ∃ place fault, f.Reported fault ∧ o = .failed (.runtime place fault)

open Machine in
/-- **A way to the value that is returned is a run that ends with it**, a way to an operator without a result
    one that fails. -/
theorem Proto.Comes.ends {m0 m : Machine} {f : Frame} {rest : List Frame} {s : Spot} {low stop : Nat} {i : Instr}
    {r : Result} {a : Activation} {as : List Activation}
    (hc : f.proto.Comes low s stop (fun regs v => regs i.a.val = v) r) (h : On m0 f rest s m) (hl : m0.limits.Endless)
    (hp : f.proto.Sound) (hi : f.proto.code[stop]? = some i) (ho : i.opcode = .ret) (hb : i.b.val = 2)
    (hact : m0.activations = a :: as) (hdepth : rest.length ≤ a.depth) (hpurpose : a.purpose = .outermost) :
    ∃ m' mode' m'' o, Goes (fun _ _ => True) m .run m' mode' ∧ m'.step mode' = .done m'' o ∧ o.Shows r := by
  cases r with
  | ok v =>
    obtain ⟨regs, hcourse, hreg⟩ := hc
    obtain ⟨m1, h1, hgoes⟩ := hcourse.goes hl hp h
    obtain ⟨m', hstep, hact'⟩ := h1.returns hl hp hi ho hb hact hdepth
    obtain ⟨m'', hend⟩ := step_deliver [regs i.a.val] hact' hpurpose
    exact ⟨m', _, m'', _, hgoes.snoc hstep trivial, hend, by rw [hreg]; rfl⟩
  | error e =>
    obtain ⟨m', place, fault, hreported, hready, hsame, hgoes⟩ := Proto.Stops.goes hl hp hc h
    have hact' : m'.activations = a :: as := by
      rw [hsame]
      exact hact
    obtain ⟨m'', hend⟩ := step_raise hready hact' hpurpose
    exact ⟨m', _, m'', _, hgoes, hend, place, fault, hreported, rfl⟩

open Machine in
theorem Proto.Calculates.call {e : Tree} {p : Proto} {m : Machine} {id : Nat} {cells : Array Nat} {args : List Value}
    (h : p.Calculates e) (hp : p.Sound) (hm : m.Steady) (hid : m.functions[id]? = some (.script p cells))
    (hargs : ∀ v ∈ args, v.Known m.sizes) (hfree : m.Unhindered) :
    ∃ n o, o.Shows e.eval ∧ ∀ fuel, n ≤ fuel → (m.call fuel (.function id) args none).2 = o := by
  obtain ⟨m1, regs, hstart, h1, hlimits, hact⟩ := hfree.begins hm hid hargs h.vararg h.params
  have hl : m1.limits.Endless := by
    rw [hlimits]
    exact hfree.endless
  obtain ⟨stop, i, hi, ho, hb, hcomes⟩ := h.returns
  obtain ⟨m', mode', m'', o, hgoes, hend, hshows⟩ :=
    (hcomes regs).ends h1 hl hp hi ho hb hact (Nat.le_refl _) rfl
  obtain ⟨⟨n, hn⟩, -⟩ := hgoes.ends hend
  exact ⟨n, o, hshows, fun fuel hle => call_of_runFor hstart (hn fuel hle)⟩

/-- **What is joined while arithmetic is compiled makes no difference.** A source `return e`, whatever tree of
    numerals and operators `e` is, compiles to a function; a call of the function, whatever its arguments,
    ends with the value of the tree, its operands taken first and the left one before the right one, or
    with the fault of the first operator that has no result. Only a tree that is nested too deep, or has
    too many numerals, may be given up at a limit of the compiler instead. -/
theorem compiled_arithmetic_call {source : Bytes} {e : Tree} (chunkName : String)
    (ht : (Lexer.tokenize source).1.map (·.token) = e.chunk) (hg : e.Grouped) :
    (∃ p, compile source chunkName = .ok p ∧
      ∀ (m : Machine) (id : Nat) (cells : Array Nat) (args : List Value), m.Built →
        m.functions[id]? = some (.script p cells) → (∀ v ∈ args, v.Known m.sizes) → m.Unhindered →
        ∃ n o, o.Shows e.eval ∧ ∀ fuel, n ≤ fuel → (m.call fuel (.function id) args none).2 = o) ∨
    ∃ err, compile source chunkName = .error err ∧ err.fault.isLimit = true ∧ e.Large := by
  rcases compile_calculates chunkName ht hg with ⟨p, hc, hp⟩ | hlimit
  · refine .inl ⟨p, hc, fun m id cells args hm hid hargs hfree => ?_⟩
    exact hp.call (compile_made hc).1.here.toSound hm.steady hid hargs hfree
  · exact .inr hlimit

theorem compiled_arithmetic_call_by_zero :
    ∃ m id, (Machine.new .standard).load (Bytes.ofString "return 2 * 3 + -7 // (4 - 2 * 2)") "t" none =
        (m, .ok (.function id)) ∧
      ∃ n place, ∀ fuel, n ≤ fuel →
        (m.call fuel (.function id) [] none).2 = .failed (.runtime place (.numeric .divByZero)) := by
  let source := Bytes.ofString "return 2 * 3 + -7 // (4 - 2 * 2)"
  let int (i : Int64) : Tree := .num (.int i)
  let e : Tree := .bin .add (.bin .mul (int 2) (int 3))
    (.bin .idiv (.un .minus (int 7)) (.paren (.bin .sub (int 4) (.bin .mul (int 2) (int 2)))))
  have ht : (Lexer.tokenize source).1.map (·.token) = e.chunk := by decide +kernel
  have hsmall : ¬ e.Large := by
    unfold Tree.Large
    decide
  rcases compiled_arithmetic_call "t" ht (by decide) with ⟨p, hc, hcall⟩ | ⟨_, _, _, hlarge⟩
  · have hs : Exec.isPrecompiled source = false := by decide +kernel
    obtain ⟨m, id, cells, hload, hid⟩ := (Machine.new .standard).load_compiled none hs hc
    have henv : ∀ v ∈ (none : Option Value), v.Known (Machine.new .standard).sizes := by simp
    have hbuilt := (Machine.Built.new .standard).load source "t" henv
    have hnew : (Machine.new .standard).Unhindered :=
      ⟨⟨by decide +kernel, by decide +kernel⟩, by decide +kernel, by decide +kernel⟩
    have hfree := hnew.load none hs hc
    rw [hload] at hbuilt hfree
    obtain ⟨n, o, hshows, hrun⟩ := hcall m id cells [] hbuilt hid nofun hfree
    have hval : e.eval = .error (.numeric .divByZero) := rfl
    rw [hval] at hshows
    obtain ⟨place, fault, hreported, ho⟩ := hshows
    rw [show fault = .numeric .divByZero from hreported] at ho
    exact ⟨m, id, hload, n, place, fun fuel hle => (hrun fuel hle).trans ho⟩
  · exact absurd hlarge hsmall

theorem compiled_arithmetic_too_deep :
    let source := Bytes.ofString "return " ++ List.replicate 250 0x28 ++ Bytes.ofString "1" ++ List.replicate 250 0x29
    let e : Tree := (List.replicate 250 ()).foldr (fun _ e => .paren e) (.num (.int 1))
    (Lexer.tokenize source).1.map (·.token) = e.chunk ∧ e.Grouped ∧ e.eval = .ok (.int 1) ∧
      ∃ err, compile source "t" = .error err ∧ err.fault = .tooDeep := by
  intro source e
  have herr : (match compile source "t" with | .ok _ => false | .error err => decide (err.fault = .tooDeep)) = true := by
    decide +kernel
  refine ⟨by decide +kernel, by decide +kernel, rfl, ?_⟩
  split at herr
  · cases herr
  · next err hc => exact ⟨err, hc, of_decide_eq_true herr⟩

end LuaMachine
