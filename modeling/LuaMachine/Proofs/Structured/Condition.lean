/-
  CONDITIONS. Control goes on behind a condition or takes a jump of its list, by the truth of the formula.

  * **`Computes.tested`** -- a formula is a condition.
-/
import LuaMachine.Proofs.Structured.Storing

namespace LuaMachine

open Structured

/-- A condition has been read. Where the formula is true (false), as `cond` says, control takes a jump of the
    list, else it goes on. -/
structure Tested (list : List Nat) (names : List Bytes) (d : Draft) (c : Formula) (cond : Bool) (l : JumpList)
    (d' : Draft) : Prop where
  moves : d.Moves list d'
  roomy : d'.Roomy
  free : d'.free = d.free
  fresh : d'.Fresh
  waits : d'.Waits (list ++ l) d'.pc
  quiet : d'.pc = d.pc → l = []
  runs : ∀ (p : Proto) (k : Nat), CompletesAbove k p d' (list ++ l) d'.pc → CompletesAbove 0 p d list d.pc ∧
    ∀ (bound : Nat) (D B : List Value → Spot → Prop) (vs : List Value) (s : Spot) (yes no : Trace),
      names.length ≤ vs.length → vs.length ≤ d.free → d.Stands p vs s →
      (∀ s', d'.Stands p vs s' → Shows vs s'.regs → p.Traces bound D B vs s' (if cond then no else yes)) →
      (∀ s', d'.Jumping l s' → Shows vs s'.regs → p.Traces bound D B vs s' (if cond then yes else no)) →
      p.Traces bound D B vs s (c.test names vs yes no)

def Expr.asCondition (e : Expr) : Expr := if e.place = .nil then { e with place := .bool false } else e

theorem Expr.exits_asCondition (e : Expr) : e.asCondition.exits = e.exits := by
  unfold asCondition
  split <;> rfl

theorem Expr.back_asCondition (e : Expr) : e.asCondition.place.back = e.place.back := by
  unfold asCondition
  split
  · next h =>
    rw [h]
    rfl
  · rfl

theorem Expr.Sits.asCondition {list : List Nat} {d : Draft} {e : Expr} (h : e.Sits list d) :
    e.asCondition.Sits list d := by
  unfold Expr.asCondition
  split
  · next hn =>
    refine ⟨trivial, ?_, by simp⟩
    have := h.waits
    rw [Expr.top, hn] at this
    exact this
  · exact h

theorem Yields.asCondition {p : Proto} {d : Draft} {low : Nat} {s : Spot} {e : Expr} {r : Except Clash Value}
    (h : Yields p d low s e r) :
    ∃ r', Yields p d low s e.asCondition r' ∧ r'.map Value.isFalsy = r.map Value.isFalsy := by
  unfold Expr.asCondition
  split
  · next hn =>
    cases h with
    | falls hp ht hv =>
      rw [Expr.top, hn] at ht
      rw [hn] at hv
      have hr : r = .ok .nil := hv
      subst hr
      exact ⟨.ok (.bool false), .falls hp ht rfl, rfl⟩
    | onTrue hj hd => exact ⟨_, .onTrue hj hd, rfl⟩
    | onFalse hj hd => exact ⟨_, .onFalse hj hd, rfl⟩
    | fails hf => exact ⟨_, .fails hf, rfl⟩
  · exact ⟨r, h, rfl⟩

/-- **At a fork a run goes on by the truth of the value.** -/
theorem Forks.test {p : Proto} {d : Draft} {low bound : Nat} {s : Spot} {cond : Bool} {l : JumpList}
    {r : Except Clash Value} {c : Formula} {names : List Bytes} {vs : List Value} {yes no : Trace}
    {D B : List Value → Spot → Prop} (h : Forks p d low s cond l r)
    (hr : r.map Value.isFalsy = (c.eval (Scope.value names vs)).map Value.isFalsy) (hs : Shows vs s.regs)
    (hl : vs.length ≤ low)
    (hpass : ∀ s', d.Stands p vs s' → Shows vs s'.regs → p.Traces bound D B vs s' (if cond then no else yes))
    (htake : ∀ s', d.Jumping l s' → Shows vs s'.regs → p.Traces bound D B vs s' (if cond then yes else no)) :
    p.Traces bound D B vs s (c.test names vs yes no) := by
  unfold Formula.test
  cases hv : c.eval (Scope.value names vs) with
  | error clash =>
    rw [hv] at hr
    cases h with
    | fails hf =>
      cases hr
      exact .clash hf hs hl
    | pass | take => cases hr
  | ok v =>
    rw [hv] at hr
    cases h with
    | @pass w s' hw hpath hin =>
      have hvw : w.isFalsy = v.isFalsy := Except.ok.inj hr
      have hshow := hpath.shows hs hl
      have := hpass s' (hin.stands hshow) hshow
      rw [← hw, hvw] at this
      exact this.from_path hpath hs hl
    | @take w j hj hd =>
      obtain ⟨hw, s', hpath, hpoised⟩ := hd
      have hvw : w.isFalsy = v.isFalsy := Except.ok.inj hr
      have hshow := hpath.shows hs hl
      have := htake s' ⟨j, hj, cond, w, hw, hpoised⟩ hshow
      have hcond : cond = !v.isFalsy := by rw [← hvw, hw, Bool.not_not]
      rw [hcond] at this
      refine Proto.Traces.from_path hpath hs hl ?_
      dsimp only
      cases hv : v.isFalsy <;> rw [hv] at this <;> exact this
    | fails => cases hr

/-- **A formula is a condition.** -/
theorem Computes.tested {list : List Nat} {names : List Bytes} {d d1 d' : Draft} {c : Formula} {e e' : Expr}
    {cond : Bool} {l : JumpList} (hc : Computes list d (c.meaning names) e d1) (hr : d.Roomy)
    (hg : Gated list d1 e' cond l d') (he : e' = e ∨ e' = e.asCondition) : Tested list names d c cond l d' := by
  have hexits : e'.exits = e.exits := by
    rcases he with rfl | rfl
    · rfl
    · exact e.exits_asCondition
  have hback : e'.place.back = e.place.back := by
    rcases he with rfl | rfl
    · rfl
    · exact e.back_asCondition
  have hgrows := hc.moves.grows
  have hgrows' := hg.moves.grows
  refine ⟨hc.moves.trans hg.moves, hg.roomy, hg.free.trans hc.free, hg.fresh, hg.waits, fun h => ?_, fun p k hp => ?_⟩
  · obtain ⟨hj, hb⟩ := hc.quiet (by omega)
    exact hg.quiet (by omega) (hexits.trans hj) (hback.trans hb)
  · obtain ⟨hp1, hgate⟩ := hg.runs p (hp.of_fresh hg.fresh)
    rw [hexits, Expr.top, hback] at hp1
    obtain ⟨hp0, hruns⟩ := hc.stands hr hp1
    refine ⟨hp0, fun bound D B vs s yes no hlen hfree hst hpass htake => ?_⟩
    obtain ⟨hshow, hy⟩ := hruns vs s hlen hfree hst
    obtain ⟨r', hy', hr'⟩ : ∃ r', Yields p d1 d.free s e' r' ∧
        r'.map Value.isFalsy = (c.eval (Scope.value names vs)).map Value.isFalsy := by
      rcases he with rfl | rfl
      · exact ⟨_, hy, rfl⟩
      · exact hy.asCondition
    exact (hgate d.free s r' (Nat.le_of_eq hc.free.symm) hy').test hr' hshow hfree hpass htake

end LuaMachine
