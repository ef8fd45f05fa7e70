/-
  CALLS AS LAST ITEMS. A call of a variable, with variables and literals as arguments, is read as an item
  that is a call: its function goes to the next register, and what was written before stays.

  * `Grammar.variableCall_reads` -- **a call of a variable is read as an item**.
-/
import LuaMachine.Proofs.Assignment.Statement
import LuaMachine.Proofs.Constructor.Reading

namespace LuaMachine

open Compile

def Token.variableCall (f : Bytes) (args : List Atom) : List Token :=
  .name f :: .symbol .lparen :: (Token.commas (args.map fun a => [a.token]) ++ [.symbol .rparen])

namespace Grammar

variable {q bound n m line : Nat} {w w₁ : Drafts} {a : Atom} {args : List Atom} {u : Token} {more : List Token} {f : Bytes}

def HasRead (q : Nat) (w : Drafts) (e : Expr) (w' : Drafts) : Prop :=
  (e = .plain .void ∧ ∃ as, w.Gains q as w') ∨ ∃ done last p s, e = .plain p ∧ w.Lists q done last p s w'

theorem exprs_lists {rest : List Atom} (hw : w.fn.Apt q) (hk : ∀ e ∈ a :: rest, e.Known w) (hcomma : u ≠ .symbol .comma)
    (hstop : ∀ e ∈ (a :: rest).getLast?, e.Stops u) :
    Walks (ofLevels Compile.named bound n).exprs
      (a.token :: (rest.flatMap (fun e => [.symbol .comma, e.token]) ++ u :: more)) w fun r us w' => us = u :: more ∧
        ∃ done last p s, r = (done.length + 1, .plain p) ∧ w.Lists q done last p s w' := by
  obtain ⟨hka, hrest⟩ := List.forall_mem_cons.mp hk
  obtain ⟨v, vs, hvs, hv⟩ := Atom.follower a rest u more hstop
  rw [hvs]
  unfold Grammar.exprs
  refine (Atom.expr_finds hw hka hv).andThen fun e us w₁ ⟨hus, p, s, he, hf⟩ => ?_
  subst hus he
  rw [← hvs]
  refine (Atom.exprsFrom_lists hw hrest hcomma hstop (Drafts.Lists.first hf)).imp fun r us w2 hr => ?_
  obtain ⟨hus, done, last, p, s, hr, -, hlists⟩ := hr
  exact ⟨hus, done, last, p, s, hr, hlists⟩

theorem arguments_read (hw : w.fn.Apt q) (hk : ∀ a ∈ args, a.Known w) (hne : more ≠ []) :
    Walks ((ofLevels Compile.named bound n).arguments line)
      (.symbol .lparen :: (Token.commas (args.map fun a => [a.token]) ++ .symbol .rparen :: more)) w fun e ts w' =>
        ts = more ∧ HasRead q w e w' := by
  refine Walks.token (Walks.next (by simp) ?_)
  cases args with
  | nil =>
    refine Walks.token ?_
    rw [if_pos rfl]
    exact Walks.bind (Walks.pure (Walks.checkMatch hne (Walks.pure ⟨rfl, .inl ⟨rfl, _, .refl hw⟩⟩)))
  | cons a rest =>
    have hstop : ∀ e ∈ (a :: rest).getLast?, e.Stops (.symbol .rparen) := fun e _ => by
      cases e <;> first | exact ⟨rfl, rfl⟩ | exact rfl
    have hfirst : a.token ≠ .symbol .rparen := by
      cases a with
      | var x => exact Token.noConfusion
      | lit c =>
        cases c with
        | bool b => cases b <;> exact Token.noConfusion
        | _ => exact Token.noConfusion
    rw [List.map_cons, Token.commas_cons, List.flatMap_map, List.append_assoc, List.singleton_append]
    refine Walks.token ?_
    rw [if_neg hfirst]
    refine (exprs_lists hw hk (by simp) hstop).andThen fun r us w₁ ⟨hus, hr⟩ => ?_
    obtain ⟨done, last, p, s, hr, hlists⟩ := hr
    subst hus hr
    have hset : setReturns (.plain p) none = pure () := by cases hlists.gives <;> rfl
    dsimp only
    rw [hset]
    exact Walks.bind (Walks.pure (Walks.bind (Walks.pure (Walks.checkMatch hne (Walks.pure
      ⟨rfl, .inr ⟨done, last, p, s, rfl, hlists⟩⟩)))))

def CallsAt (q : Nat) (w : Drafts) (base : Nat) (e : Expr) (w' : Drafts) : Prop :=
  ∃ (w₁ : Drafts) (as : List Act) (b : Nat) (d : Draft), w.Gains q as w₁ ∧ e = .plain (.call w₁.fn.pc) ∧
    w₁.fn.Appends [.ofABC .call base b 2] d ∧
    w' = { w₁ with fn := { w₁.fn with code := d.code, lines := w'.fn.lines, here := [], free := base + 1 } }

theorem emitCall_calls {base : Nat} {as : List Act} {count : Option Nat} {ts : List Token} (hg : w.Gains q as w₁) :
    Walks (do
      let pc ← emitABC .call base (Operand.ofCount count) 2
      fixLine line
      modifyFn fun d => { d with free := base + 1 }
      return Expr.plain (.call pc)) ts w₁ fun e us w' => us = ts ∧ CallsAt q w base e w' := by
  refine Walks.write (Writes.emit_adds _) fun pc d ⟨hpc, ha, hd⟩ => ?_
  subst hpc
  refine Walks.write (R := fun _ d' => d' = { d with lines := d'.lines }) (Writes.modifyFn rfl) fun _ d1 hd1 => ?_
  refine Walks.write (R := fun _ d' => d' = { d1 with free := base + 1 }) (Writes.modifyFn rfl) fun _ d2 hd2 => ?_
  refine Walks.pure ⟨rfl, w₁, as, _, d, hg, rfl, ha, ?_⟩
  dsimp only
  rw [hd2, hd1, hd]

/-- **A function in a register is called.** -/
theorem call_calls {base : Nat} (hw : w.fn.Apt q) (hk : ∀ a ∈ args, a.Known w) (hne : more ≠ []) :
    Walks ((ofLevels Compile.named bound n).call base line)
      (.symbol .lparen :: (Token.commas (args.map fun a => [a.token]) ++ .symbol .rparen :: more)) w fun e ts w' =>
        ts = more ∧ CallsAt q w base e w' := by
  unfold Grammar.call
  refine (arguments_read hw hk hne).andThen fun e ts w₁ ⟨hts, he⟩ => ?_
  subst hts
  extract_lets next count
  have hcount : ∀ u w2, (∃ as, w.Gains q as w2) → Walks (count u) ts w2 fun e us w' => us = ts ∧ CallsAt q w base e w' := by
    intro u w2 ⟨as, hg⟩
    refine Walks.write (R := fun _ d' => d' = w2.fn) (Writes.demand.imp fun _ _ h => h.1) fun _ d' hd' => ?_
    subst hd'
    exact Walks.get fun s _ _ => Walks.bind (Walks.pure (emitCall_calls hg))
  rcases he with ⟨rfl, hg⟩ | ⟨done, last, p, s, rfl, hlists⟩
  · exact hcount () _ hg
  · have hmulti : (Expr.plain p).place.isMulti = false := not_multi hlists.gives
    have hvoid : (Expr.plain p).place ≠ .void := not_void hlists.gives
    rw [hmulti, if_pos hvoid]
    exact Walks.write (R := fun _ d' => ∃ as, w.Gains q as { w₁ with fn := d' })
      (Writes.discard (hlists.settled.imp fun _ d' ⟨_, as, hg, _⟩ => ⟨as, hg⟩)) fun _ d' hg => hcount () _ hg

theorem suffixed_calls (hw : w.fn.Apt q) (hf : w.Denotes f) (hk : ∀ a ∈ args, a.Known w) (hu : u.isSuffix = false) :
    Walks (ofLevels Compile.named bound n).suffixed (Token.variableCall f args ++ u :: more) w fun e ts w' =>
      ts = u :: more ∧ CallsAt q w w.fn.free e w' := by
  have htokens : Token.variableCall f args ++ u :: more =
      .name f :: .symbol .lparen :: (Token.commas (args.map fun a => [a.token]) ++ .symbol .rparen :: u :: more) := by
    rw [Token.variableCall, List.cons_append, List.cons_append, List.append_assoc, List.singleton_append]
  rw [htokens]
  refine Walks.line fun line => Walks.bind (Walks.token (Walks.checkName (by simp) ?_))
  rw [Formula.name_ofLevels]
  refine (Atom.named_finds hw hf).imp fun e ts w₁ ⟨hts, p, s, he, hfinds⟩ => ?_
  subst hts he
  generalize (ofLevels Compile.named bound n).bound = m
  cases m with
  | zero => exact Walks.failNear
  | succ m =>
    refine Walks.token ?_
    have hfetch : Fetches w₁.fn s p w₁.fn := .of_gives hfinds.gives hfinds.gains.steady.roomy
    refine Walks.write (Writes.toNextRegister_gains hfinds.gains.steady hfetch hfinds.below) fun r d ⟨hr, hload, _, _⟩ => ?_
    subst hr
    have hg := hfinds.gains.trans hload.lift
    refine (call_calls hg.steady (fun a ha => (hk a ha).gains hg) (by simp)).andThen fun e ts w2 ⟨hts, hcalls⟩ => ?_
    subst hts
    obtain ⟨w3, as, b, d', hg', he, ha, hw2⟩ := hcalls
    refine Atom.suffixes_stop hu ⟨rfl, w3, _, b, d', hg.trans hg', he, ?_, ?_⟩
    · rw [← hfinds.free]
      exact ha
    · rw [← hfinds.free]
      exact hw2

theorem CallsAt.calls {e : Expr} {w' : Drafts} (h : CallsAt q w w.fn.free e w') (hw : w.fn.Roomy) (hh : w.fn.here = []) :
    ∃ pc, e = .plain (.call pc) ∧ w.Calls pc w' := by
  obtain ⟨w₁, as, b, d, hg, he, ha, hw'⟩ := h
  obtain ⟨hhere, hsame⟩ := hg.codes.kept hh
  have hback := hg.codes.back_le
  have hle := w₁.fn.back_le
  have hcode : w'.fn.code = d.code := by rw [hw']
  have hsize : d.pc = w₁.fn.pc + 1 := ha.pc
  have hnew : d.code[w₁.fn.pc + 0]? = some (.ofABC .call w.fn.free b 2) := ha.new 0 (by simp)
  rw [Nat.add_zero] at hnew
  have hfree := hw.free
  have hstack := hw.stack
  have hnames : w'.fn.variableOf? = w₁.fn.variableOf? :=
    Draft.variableOf?_congr (by rw [hw']) (by rw [hw']) (by rw [hw']) (by rw [hw'])
  refine ⟨_, he, ?_, Nat.le_trans hback hle, ⟨_, by rw [hcode]; exact hnew, Instr.opcode_ofABC .., ?_⟩, by rw [hw'],
    fun p hp => ?_, fun k c hc => ?_, ?_, fun x v hx => ?_, fun x => ?_⟩
  · show _ = w'.fn.code.size
    rw [hcode]
    exact hsize.symm
  · rw [Instr.a_ofABC, Nat.mod_eq_of_lt (by omega)]
  · rw [hcode, ha.same p (by omega) fun j hj => ?_, hsame p hp]
    rw [hhere] at hj
    exact (List.not_mem_nil hj).elim
  · rw [hw']
    exact hg.constants k c hc
  · rw [hw']
    exact hg.active
  · rw [hnames]
    exact hg.kept x v hx
  · rw [← hg.names]
    unfold Drafts.Denotes
    rw [denotes_cons, denotes_cons, hnames, hw']

/-- **A call of a variable is read as an item that is a call.** -/
theorem variableCall_reads (hf : w.Denotes f) (hk : ∀ a ∈ args, a.Known w) :
    ReadsCall (ofLevels Compile.named bound n) w.Denotes (Token.variableCall f args) where
  starts := ⟨_, _, rfl, Token.noConfusion⟩
  reads x w₁ u more hs hh hnames hu := by
    have hf1 : w₁.Denotes f := (hnames f).mpr hf
    have hk1 : ∀ a ∈ args, a.Known w₁ := fun a ha => by
      have := hk a ha
      cases a with
      | lit c => trivial
      | var y => exact (hnames y).mpr this
    have hop : BinOp.ofToken? u = none := (hu.stops (.lit .nil)).operator
    have hsuffix : u.isSuffix = false := (hu.stops (.var f)).2
    have hexpr : Walks (ofLevels Compile.named bound n).expr (Token.variableCall f args ++ u :: more) w₁ fun e ts w' =>
        ts = u :: more ∧ CallsAt w₁.fn.back w₁ w₁.fn.free e w' := by
      unfold Grammar.expr
      cases n with
      | zero => exact Walks.bind Walks.failNear
      | succ n =>
        refine Walks.bind (Walks.token ?_)
        refine (Walks.token (suffixed_calls hs hf1 hk1 hsuffix)).andThen fun e ts w2 ⟨hts, hcalls⟩ => ?_
        subst hts
        refine Walks.token ?_
        rw [hop]
        exact Atom.operators_stop (Walks.pure ⟨rfl, hcalls⟩)
    refine Walks.token (Walks.peek ?_)
    rw [if_neg (by simp)]
    refine hexpr.andThen fun e ts w2 ⟨hts, hcalls⟩ => Walks.pure ⟨hts, ?_⟩
    obtain ⟨pc, rfl, hwritten⟩ := hcalls.calls hs.roomy hh
    exact ⟨pc, rfl, hwritten⟩

end Grammar

end LuaMachine
