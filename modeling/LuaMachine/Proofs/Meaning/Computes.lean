/-
  CODE FOR A FORMULA COMPUTES ITS VALUE. Whatever may become of the code written for a formula, control that
  enters it with the locals in their registers comes to the value of the formula, in one of the ways that
  the expression left behind says.

  * one theorem for each way to build a formula: `Computes.of_denoted`, `Computes.read`, `Computes.not`,
    **`Computes.shortCircuit`**, **`Computes.compare`**.
-/
import LuaMachine.Proofs.Meaning.Operator

namespace LuaMachine

abbrev Meaning := (Nat → Value) → Except Clash Value

structure Draft.Begins (list : List Nat) (d : Draft) : Prop where
  waits : d.Waits list d.pc
  roomy : d.Roomy
  tight : d.Tight

/-- From `d` to `d'` code has been written that computes `f` of the locals, as `e` says. Without code, no jump
    leaves it; nil stands for itself where a LOADNIL may be widened. -/
structure Computes (list : List Nat) (d : Draft) (f : Meaning) (e : Expr) (d' : Draft) : Prop where
  moves : d.Moves list d'
  roomy : d'.Roomy
  free : d'.free = d.free
  tight : d'.Tight
  sits : e.Sits list d'
  quiet : d'.pc = d.pc → e.exits = [] ∧ e.place.back = 0
  bare : e.place = .nil → d'.Fresh ∨ d' = d ∧ e.exits = [] ∧ ∀ vals, f vals = .ok .nil
  runs : ∀ p : Proto, Completes p d' (list ++ e.exits) (e.top d') → Completes p d list d.pc ∧
    ∀ (low : Nat) (vals : Nat → Value) (s : Spot), d.active ≤ low → low ≤ d.free → d.Entered p d.pc s →
      (∀ i < d.active, s.regs i = vals i) → Yields p d' low s e (f vals)

/-- The value of the locals that a place stands for by itself, be it one of them or a literal. -/
inductive Place.Denotes (d : Draft) : Place → ((Nat → Value) → Value) → Prop where
  | localVar {r : Nat} (h : r < d.active) : Denotes d (.localVar r) fun vals => vals r
  | nil : Denotes d .nil fun _ => .nil
  | bool (b : Bool) : Denotes d (.bool b) fun _ => .bool b
  | int (i : Int64) : Denotes d (.int i) fun _ => .ofConstant (.int i)
  | float (x : Double) : Denotes d (.float x) fun _ => .ofConstant (.float x)
  | str {k : Nat} {b : Bytes} (h : d.constants[k]? = some (.str b)) : Denotes d (.constant k) fun _ => .ofConstant (.str b)

namespace Place.Denotes

variable {p : Proto} {d : Draft} {q : Place} {g : (Nat → Value) → Value}

theorem sits (h : q.Denotes d g) : q.Sits d := by
  cases h with
  | localVar h => exact h
  | str h => exact ⟨_, h⟩
  | _ => trivial

theorem back (h : q.Denotes d g) : q.back = 0 := by
  cases h <;> rfl

theorem string {k : Nat} (h : q.Denotes d g) (hk : q = .constant k) : ∃ t, d.constants[k]? = some (.str t) := by
  cases h with
  | str h =>
    cases hk
    exact ⟨_, h⟩
  | _ => cases hk

theorem of_nil (h : q.Denotes d g) (hq : q = .nil) (vals : Nat → Value) : g vals = .nil := by
  cases h with
  | nil => rfl
  | _ => cases hq

theorem holds {regs vals : Nat → Value} (h : q.Denotes d g)
    (hc : ∀ (k : Nat) (c : Constant), d.constants[k]? = some c → p.constants[k]? = some c)
    (hv : ∀ i < d.active, regs i = vals i) : q.Holds p d regs (.ok (g vals)) := by
  cases h with
  | localVar h =>
    show Except.ok (vals _) = .ok (regs _)
    rw [hv _ h]
  | str h => exact ⟨_, hc _ _ h, rfl⟩
  | _ => rfl

end Place.Denotes

structure Denoted (d : Draft) (f : (Nat → Value) → Value) (e : Expr) (d' : Draft) : Prop where
  place : ∃ q : Place, e = .plain q ∧ q.Denotes d' f ∧ (q = .nil → d' = d)
  rest : d' = { d with constants := d'.constants }
  constants : ∀ (k : Nat) (c : Constant), d.constants[k]? = some c → d'.constants[k]? = some c
  size : d'.constants.size ≤ Instr.maxAx + 1

namespace Computes

variable {list : List Nat} {d d1 d2 d3 d4 d' : Draft} {f h : Meaning} {e e1 e2 e' : Expr}

/-! ## 1. Variables and literals -/

/-- **A local or a literal computes itself.** -/
theorem of_denoted {g : (Nat → Value) → Value} (h : Denoted d g e d') (hd : d.Begins list) :
    Computes list d (fun vals => .ok (g vals)) e d' := by
  obtain ⟨q, rfl, hq, hn⟩ := h.place
  have hrest := h.rest
  have hpre := h.constants
  have hsize := h.size
  generalize d'.constants = ks at hrest hpre hsize
  subst hrest
  have hw := hd.waits
  have hr := hd.roomy
  have htop : Expr.top { d with constants := ks } (.plain q) = d.pc := by
    show d.pc - q.back = d.pc
    rw [hq.back]
    rfl
  have hexits : list ++ (Expr.plain q).exits = list := List.append_nil list
  refine ⟨.quiet rfl (.of_rest rfl) hpre, ⟨hr.active, hr.free, hr.stack, hsize⟩, rfl, hd.tight,
    ⟨hq.sits, ?_, fun k => hq.string⟩, fun _ => ⟨rfl, hq.back⟩, fun h => .inr ⟨hn h, rfl, fun vals => ?_⟩,
    fun p hp => ?_⟩
  · rw [htop, hexits]
    exact ⟨hw.le, hw.jumps, hw.nodup, hw.target⟩
  · exact congrArg Except.ok (hq.of_nil h vals)
  · rw [htop, hexits] at hp
    refine ⟨hp.stock rfl rfl rfl hpre, fun low vals s _ _ hs hv => ?_⟩
    have ht : { d with constants := ks }.Entered p (Expr.top { d with constants := ks } (.plain q)) s := by
      rw [htop]
      exact ⟨hs.near, hs.primed⟩
    exact .falls (.refl _) ht (hq.holds hp.constants hv)

theorem read (hc : Computes list d f e d') : Computes list d f { e with place := e.place.read } d' := by
  refine ⟨hc.moves, hc.roomy, hc.free, hc.tight, hc.sits.read, fun h => ?_, fun h => hc.bare (Place.read_eq_nil h),
    fun p hp => ?_⟩
  · exact ⟨(hc.quiet h).1, (Place.back_read _).trans (hc.quiet h).2⟩
  rw [Expr.top, Place.back_read] at hp
  obtain ⟨hp0, hruns⟩ := hc.runs p hp
  exact ⟨hp0, fun low vals s hl hf hs hv => (hruns low vals s hl hf hs hv).read⟩

/-! ## 2. Operators -/

theorem not (hc : Computes list d f e d1) (hn : Negated list d1 e e' d') :
    Computes list d (fun vals => (f vals).map Value.opposite) e' d' := by
  have hgrows := hc.moves.grows
  have hgrows' := hn.moves.grows
  refine ⟨hc.moves.trans hn.moves, hn.roomy, hn.free.trans hc.free, hn.tight, hn.sits, fun h => ?_,
    fun h => absurd h hn.place, fun p hp => ?_⟩
  · obtain ⟨hj, hb⟩ := hc.quiet (by omega)
    exact hn.quiet (by omega) hj hb
  obtain ⟨hp1, hneg⟩ := hn.runs p hp
  obtain ⟨hp0, hruns⟩ := hc.runs p hp1
  refine ⟨hp0, fun low vals s hl hf hs hv => hneg low _ _ ?_ (hruns low vals s hl hf hs hv)⟩
  rw [hc.free]
  exact hf

def stop (cond : Bool) (f h : Meaning) : Meaning := fun vals =>
  match f vals with
  | .ok v => if v.isFalsy = cond then h vals else .ok v
  | .error c => .error c

end Computes

def Expr.join (e : Expr) (b : Bool) (l : JumpList) : Expr :=
  if b then { e with onTrue := e.onTrue ++ l } else { e with onFalse := e.onFalse ++ l }

namespace Expr

variable {p : Proto} {d : Draft} {low : Nat} {s : Spot} {e : Expr} {b : Bool} {l : JumpList}
  {r : Except Clash Value}

theorem place_join (e : Expr) (b : Bool) (l : JumpList) : (e.join b l).place = e.place := by
  cases b <;> rfl

theorem exits_join (e : Expr) (b : Bool) (l list : JumpList) :
    (list ++ (e.join b l).exits).Perm (list ++ l ++ e.exits) := by
  rw [List.perm_iff_count]
  intro j
  cases b <;> simp only [join, exits, List.count_append, if_true, Bool.false_eq_true, if_false] <;> omega

theorem yields_join (h : Yields p d low s e r) : Yields p d low s (e.join b l) r := by
  cases h with
  | @falls s' _ hp ht hv =>
    have ht' : d.Entered p ((e.join b l).top d) s' := by
      rw [top, place_join]
      exact ht
    refine .falls hp ht' ?_
    rw [place_join]
    exact hv
  | onTrue hj hd =>
    refine .onTrue ?_ hd
    cases b
    · exact hj
    · exact List.mem_append_left _ hj
  | onFalse hj hd =>
    refine .onFalse ?_ hd
    cases b
    · exact List.mem_append_left _ hj
    · exact hj
  | fails hf => exact .fails hf

theorem yields_joined {j : Nat} {v : Value} (hj : j ∈ l) (hd : Decides p d low s j b v) :
    Yields p d low s (e.join b l) (.ok v) := by
  cases b with
  | true => exact .onTrue (List.mem_append_right _ hj) hd
  | false => exact .onFalse (List.mem_append_right _ hj) hd

end Expr

namespace Computes

variable {list l : List Nat} {d d1 d2 d3 d4 d5 d' : Draft} {f h : Meaning} {e e1 e2 e' : Expr} {cond : Bool}

/-- **`and` and `or`**: the left operand is a fork, and its jumps join those of the right one. -/
theorem shortCircuit (hl : Computes list d f e1 d1) (hg : Gated list d1 e1 cond l d2)
    (hr : Computes (list ++ l) d2 h e2 d3) : Computes list d (stop cond f h) (e2.join cond l) d3 := by
  have hfree : d2.free = d.free := hg.free.trans hl.free
  have hactive : d2.active = d.active := hg.moves.active.trans hl.moves.active
  have hperm := e2.exits_join cond l list
  have hgrows := hl.moves.grows
  have hgrows2 := hg.moves.grows
  have hgrows3 := hr.moves.grows
  refine ⟨hl.moves.trans (hg.moves.trans hr.moves.left), hr.roomy, hr.free.trans hfree, hr.tight, ⟨?_, ?_, ?_⟩,
    fun h => ?_, fun h => .inl ?_, fun p hp => ?_⟩
  · rw [Expr.place_join]
    exact hr.sits.place
  · rw [Expr.top, Expr.place_join]
    exact hr.sits.waits.perm hperm.symm
  · intro k hk
    rw [Expr.place_join] at hk
    exact hr.sits.literal k hk
  · obtain ⟨hj1, hb1⟩ := hl.quiet (by omega)
    obtain ⟨hj2, hb2⟩ := hr.quiet (by omega)
    have hl' : l = [] := hg.quiet (by omega) hj1 hb1
    refine ⟨?_, by rw [Expr.place_join]; exact hb2⟩
    have hnil := List.append_eq_nil_iff.mp hj2
    cases cond <;> simp [Expr.join, Expr.exits, hl', hnil.1, hnil.2]
  · -- behind a fork no LOADNIL is widened
    rw [Expr.place_join] at h
    rcases hr.bare h with hf | ⟨hd, -⟩
    · exact hf
    · rw [hd]
      exact hg.fresh
  · rw [Expr.top, Expr.place_join] at hp
    obtain ⟨hp2, hright⟩ := hr.runs p (hp.congr fun j => hperm.mem_iff)
    obtain ⟨hp1, hgate⟩ := hg.runs p hp2
    obtain ⟨hp0, hleft⟩ := hl.runs p hp1
    refine ⟨hp0, fun low vals s hlow hlf hs hv => ?_⟩
    have hfork := hgate low _ _ (by rw [hl.free]; exact hlf) (hleft low vals s hlow hlf hs hv)
    unfold stop
    generalize f vals = x at hfork
    cases hfork with
    | @pass v s' hfalsy hpath ht =>
      -- the locals are where they were
      have hv' : ∀ i < d2.active, s'.regs i = vals i := by
        intro i hi
        rw [hactive] at hi
        exact (hpath.keeps i (by omega)).trans (hv i hi)
      have hy := hright low vals s' (by omega) (by omega) ht hv'
      simp only [if_pos hfalsy]
      exact .after hpath (Expr.yields_join hy)
    | @take v j hj hd =>
      have hne : ¬ v.isFalsy = cond := by
        rw [hd.1]
        cases cond <;> decide
      simp only [if_neg hne]
      exact Expr.yields_joined hj (hd.congr hr.moves.tests (List.mem_append_right _ hj))
    | fails hf => exact .fails hf

def compared (rel : Relation) (f h : Meaning) : Meaning := fun vals => do
  let x ← f vals
  let y ← h vals
  rel.apply x y

/-- **Comparisons**: the left operand is an operand before the right one is read. -/
theorem compare {rel : Relation} {x y : Nat} (hl : Computes list d f e1 d1) (hx : Named list d1 e1 x d2)
    (hr : Computes list d2 h e2 d3) (hy : Named list d3 e2 y d4) (hc : Compared list d4 rel x y e' d5) :
    Computes list d (compared rel f h) e' d5 := by
  have ha1 : d1.active = d.active := hl.moves.active
  have ha2 : d2.active = d.active := hx.moves.active.trans ha1
  have ha3 : d3.active = d.active := hr.moves.active.trans ha2
  have ha4 : d4.active = d.active := hy.moves.active.trans ha3
  have hf2 : d2.free = d.free + Operand.cost d.active x := by rw [hx.free, hl.free, ha1]
  have hf4 : d4.free = d2.free + Operand.cost d.active y := by rw [hy.free, hr.free, ha3]
  have hgrows := (hl.moves.trans (hx.moves.trans (hr.moves.trans hy.moves))).grows
  have hlonger := hc.longer
  refine ⟨hl.moves.trans (hx.moves.trans (hr.moves.trans (hy.moves.trans hc.moves))), hc.roomy, ?_, hc.fresh.tight,
    hc.sits, by omega, fun _ => .inl hc.fresh, fun p hp => ?_⟩
  · rw [hc.free, ha4, hf4, hf2]
    omega
  · obtain ⟨hp4, hcompare⟩ := hc.runs p hp
    obtain ⟨hp3, hnameRight⟩ := hy.runs p hp4
    obtain ⟨hp2, hright⟩ := hr.runs p hp3
    obtain ⟨hp1, hnameLeft⟩ := hx.runs p hp2
    obtain ⟨hp0, hleft⟩ := hl.runs p hp1
    refine ⟨hp0, fun low vals s hlow hlf hs hv => ?_⟩
    have hoffer := hnameLeft low _ _ (by rw [hl.free]; exact hlf) (hleft low vals s hlow hlf hs hv)
    unfold compared
    cases hu : f vals with
    | error c =>
      rw [hu] at hoffer
      exact .fails hoffer
    | ok u =>
      rw [hu] at hoffer
      obtain ⟨s1, hpath1, hs1, hux⟩ := hoffer
      have hv1 : ∀ i < d2.active, s1.regs i = vals i := by
        intro i hi
        rw [ha2] at hi
        exact (hpath1.keeps i (by omega)).trans (hv i hi)
      -- while the right operand is computed, the register of the left one is taken
      have hoffer' := hnameRight d2.free _ _ (Nat.le_of_eq (by rw [hr.free]))
        (hright d2.free vals s1 (by omega) (Nat.le_refl _) hs1 hv1)
      cases hw : h vals with
      | error c =>
        rw [hw] at hoffer'
        exact .fails (.after hpath1 (hoffer'.mono (by omega)))
      | ok v =>
        rw [hw] at hoffer'
        obtain ⟨s2, hpath2, hs2, hvy⟩ := hoffer'
        have hux' : p.value? s2.regs x = some u := by
          rw [← hux]
          unfold Proto.value?
          split
          · rfl
          · next hconst =>
            exact congrArg some (hpath2.keeps x (hx.register (Bool.eq_false_iff.mpr hconst)))
        exact hcompare low _ s2 u v (hpath1.trans (hpath2.mono (by omega))) hs2 hux' hvy

end Computes

end LuaMachine
