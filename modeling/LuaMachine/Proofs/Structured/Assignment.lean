/-
  ASSIGNMENTS ARE READ. A local or a literal on the right is read without code, and its value is put into
  the register of the local on the left.

  * **`Grammar.assign_takes`** -- an assignment does what its trace says.
-/
import LuaMachine.Proofs.Meaning.Chunk
import LuaMachine.Proofs.Structured.Judgement

namespace LuaMachine

open Structured

/-! ## 1. Between two statements -/

/-- No expression, list of names or list of expressions goes on with this token, and it is no empty
    statement. -/
structure Token.Apart (t : Token) : Prop where
  operator : BinOp.ofToken? t = none
  suffix : t.isSuffix = false
  comma : t ≠ .symbol .comma
  assign : t ≠ .symbol .assign
  semi : t ≠ .symbol .semi

theorem Token.Apart.ends {t : Token} (h : t.Apart) (level : Nat) : t.Ends level := by
  unfold Token.Ends
  rw [h.operator]
  exact h.suffix

theorem Performs.ends {list : List Nat} {names names' : List Bytes} {run : Nat → List Value → Trace} {d d' : Draft}
    {keeps : Draft → Bool} (h : Performs list names names' run d d') :
    Compile.Writes (do
      Compile.demand .statementEnd keeps
      Compile.modifyFn fun d => { d with free := d.active }) d' fun _ d'' => Performs list names names' run d d'' := by
  refine Compile.Writes.demanding fun _ => Compile.Writes.modifyFn ?_
  have hfree : { d' with free := d'.active } = d' := congrArg (fun n => { d' with free := n }) h.between.free.symm
  rw [hfree]
  exact h

theorem Performs.read {list : List Nat} {names names' : List Bytes} {run : Nat → List Value → Trace} {d d0 : Draft}
    {ts rest : List Token} {keeps : Draft → Bool} {x : Compile Unit}
    (h : Compile.Takes x ts d0 fun _ ts' d' => ts' = rest ∧ Performs list names names' run d d') :
    Compile.Takes (do
      x
      Compile.demand .statementEnd keeps
      Compile.modifyFn fun d => { d with free := d.active }) ts d0 fun _ ts' d' =>
        ts' = rest ∧ Performs list names names' run d d' := by
  refine h.andThen fun _ ts' d' hread => ?_
  obtain ⟨rfl, hperforms⟩ := hread
  exact Compile.Takes.ofWrites hperforms.ends fun _ d'' h => ⟨rfl, h⟩

namespace Compile.Takes

variable {α β : Type} {x : Compile α} {f : α → Compile β} {t : Token} {rest : List Token} {d : Draft}

theorem checkNext {f : Unit → Compile β} {Q : β → List Token → Draft → Prop} (hne : rest ≠ [])
    (h : Takes (f ()) rest d Q) : Takes (Compile.checkNext t >>= f) (t :: rest) d Q := by
  unfold Compile.checkNext
  rw [bind_assoc]
  refine bind (token ?_)
  rw [if_neg fun h => h rfl]
  exact pure (next hne h)

end Compile.Takes

/-! ## 2. Locals and literals -/

open Compile

theorem Formula.Reads.operand {names : List Bytes} {e : Formula} (h : e.Reads names) :
    ∃ g, e.meaning names = (fun vals => .ok (g vals)) ∧
      ∀ (bound n limit : Nat) (t : Token) (more : List Token) (d : Draft), d.Roomy → d.Knows names → t.Ends limit →
        Takes ((Grammar.ofLevels Compile.named bound n).subexpr limit) (e.tokens ++ t :: more) d fun a ts d' =>
          ts = t :: more ∧ Denoted d g a.1 d' := by
  obtain ⟨first, g, htokens, hun, hval, htakes⟩ := h
  refine ⟨g, hval, fun bound n limit t more d hr hk ht => ?_⟩
  rw [htokens]
  cases n with
  | zero => exact Takes.failNear
  | succ n =>
    refine Takes.token ?_
    rw [hun]
    refine (htakes bound n limit t more d hr hk ht).andThen fun e' ts d' h => ?_
    obtain ⟨rfl, hden⟩ := h
    exact Takes.token (Formula.operators_stop ht ⟨rfl, hden⟩)

theorem Structured.Simple.reads {names : List Bytes} {a : Simple} (h : a.formula.Fits names) : a.formula.Reads names := by
  cases a with
  | var y => exact Formula.reads_var h.2
  | lit c => exact Formula.reads_lit c

theorem Structured.Simple.value_eq (a : Simple) (vars : Bytes → Value) : a.formula.eval vars = .ok (a.value vars) := by
  cases a <;> rfl

theorem Structured.Simple.value_of_shows {names : List Bytes} {a : Simple} {g : (Nat → Value) → Value} {vs : List Value}
    {regs : Nat → Value} (hg : a.formula.meaning names = fun vals => .ok (g vals)) (hl : vs.length = names.length)
    (hs : Shows vs regs) : g regs = a.value (Scope.value names vs) := by
  have hmeaning : a.formula.meaning names regs = a.formula.eval (Scope.value names vs) :=
    Formula.meaning_of_registers fun r hr => by
      have hget : vs[r]? = some vs[r] := List.getElem?_eq_getElem (hl ▸ hr)
      rw [hget]
      exact hs r _ hget
  rw [hg, a.value_eq] at hmeaning
  exact Except.ok.inj hmeaning

/-! ## 3. Assignments -/

theorem Stored.performs {list : List Nat} {names : List Bytes} {d d' : Draft} {x : Bytes} {a : Simple} {r : Nat}
    {g : (Nat → Value) → Value} (h : Stored (d.pending 0 ++ list) d r g d') (hd : d.Between list names)
    (hr : Scope.slot? x names = some r) (hg : a.formula.meaning names = fun vals => .ok (g vals)) :
    Performs list names names (fun bound vs => (Statement.assign x a).run bound names vs) d d' := by
  have hbetween : d'.Between list names := hd.of_moves h.moves h.waits h.roomy h.tight h.free
  refine ⟨hbetween, .of_moves h.moves, List.prefix_rfl, fun p hp => ?_⟩
  rw [h.moves.toSameScope.pending] at hp
  obtain ⟨hp0, hruns⟩ := h.runs p hp
  refine ⟨hp0, fun bound vs s hs => ?_⟩
  obtain ⟨n, s', hen, hst⟩ := hruns vs s _ (hs.1 ▸ Scope.slot?_lt hr)
    (fun regs hshow => Structured.Simple.value_of_shows hg hs.1 hshow) hs.2
  unfold Statement.run
  dsimp only
  rw [hr]
  exact ⟨n, _, s', hen, rfl, by rw [List.length_set]; exact hs.1, hst⟩

namespace Grammar

variable {names : List Bytes} {bound n : Nat} {t : Token} {more : List Token} {d : Draft} {list : List Nat}

theorem exprs_denotes {e : Formula} {g : (Nat → Value) → Value}
    (h : Takes ((ofLevels Compile.named bound n).subexpr 0) (e.tokens ++ t :: more) d fun a ts d' =>
      ts = t :: more ∧ Denoted d g a.1 d') (ht : t ≠ .symbol .comma) :
    Takes (ofLevels Compile.named bound n).exprs (e.tokens ++ t :: more) d fun a ts d' =>
      a.1 = 1 ∧ ts = t :: more ∧ Denoted d g a.2 d' := by
  refine Takes.bind (Takes.bind (h.imp fun a ts d' hden => ?_))
  obtain ⟨rfl, hden⟩ := hden
  exact Takes.pure (exprsFrom_stop ht ⟨rfl, rfl, hden⟩)

/-- **An assignment of a local or a literal is read.** -/
theorem assign_takes {x : Bytes} {a : Simple} (hf : (Statement.assign x a).Fits names) (ht : t.Apart)
    (hd : d.Between list names) :
    Takes (ofLevels Compile.named bound n).statementBody ((Statement.assign x a).tokens ++ t :: more) d fun _ ts d' =>
      ts = t :: more ∧ Performs list names names (fun bound vs => (Statement.assign x a).run bound names vs) d d' := by
  obtain ⟨hx, ha⟩ := hf
  obtain ⟨r, hr⟩ := Scope.slot?_of_mem hx
  obtain ⟨g, hg, htakes⟩ := (Structured.Simple.reads ha).operand
  have hlocal : d.findLocal? x = some r := (hd.knows.slot x).trans hr
  refine Takes.line fun line => Takes.token (Takes.bind ?_)
  refine Takes.bind (Formula.suffixed_local (Formula.name_ofLevels ..) hlocal (show (Token.symbol .assign).Ends 0 from rfl) ?_)
  refine Takes.token (Takes.bind ?_)
  unfold targetsFrom
  rw [if_pos (by rfl)]
  refine Takes.testNext_stay (by simp) (Takes.pure ?_)
  refine Takes.checkNext (by simp) ?_
  refine (exprs_denotes (htakes bound n 0 t more d hd.roomy hd.knows (ht.ends 0)) ht.comma).andThen fun c ts d1 h => ?_
  obtain ⟨count, e'⟩ := c
  obtain ⟨rfl, rfl, hden⟩ := h
  obtain ⟨⟨q, rfl, hq, -⟩, hrest, hpre, hsize⟩ := hden
  generalize d1.constants = ks at hrest hpre hsize
  subst hrest
  dsimp only
  rw [if_pos (by rfl)]
  have hone : setOneReturn (.plain q) = Pure.pure (.plain q) := by cases hq <;> rfl
  have hnone : Compile.freeExpr (.plain q) = Pure.pure () := by cases hq <;> rfl
  rw [hone]
  refine Takes.bind (Takes.pure ?_)
  -- the value goes right into the register of the local
  have hstore : Writes (storeVariable (.localVar r) (.plain q)) { d with constants := ks } fun _ d' =>
      Stored (d.pending 0 ++ list) { d with constants := ks } r g d' := by
    unfold storeVariable
    dsimp only
    rw [hnone]
    refine Writes.bind (Writes.pure (Writes.toRegister_stores ?_ ?_ hq))
    · exact ⟨⟨Nat.le_refl _, hd.waits.jumps, hd.waits.nodup, hd.waits.target⟩,
        ⟨hd.roomy.active, hd.roomy.free, hd.roomy.stack, hsize⟩, hd.tight⟩
    · show r < d.active
      rw [hd.active]
      exact Scope.slot?_lt hr
  refine Takes.write hstore fun _ d' h => Takes.pure ?_
  exact Takes.ofWrites ((h.quiet hpre).performs hd hr hg).ends fun _ d'' h => ⟨rfl, h⟩

end Grammar

end LuaMachine
