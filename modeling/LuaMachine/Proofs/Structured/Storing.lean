/-
  LOCALS GET VALUES. A new local gets the value of a formula in the next register, or nil; a local in scope
  gets the value of a literal or of another local, and no other register changes. Registers that are set to
  nil may be so by a LOADNIL that sets others, too.

  * `Draft.Cleared` -- registers have been set to nil; **`Draft.Cleared.runs`**.
-/
import LuaMachine.Proofs.Structured.Standing

namespace LuaMachine

open Structured

/-! ## 1. Nil -/

def Draft.Cleared (d : Draft) (start n : Nat) (d' : Draft) : Prop :=
  d.Widens start n d' ∨ d.Extended [.ofABC .loadNil start (n - 1) 0] d'

namespace Draft.Cleared

variable {d d' : Draft} {start n : Nat} {list : List Nat} {p : Proto}

theorem moves (h : d.Cleared start n d') (hw : d.Waits list d.pc) : d.Moves list d' :=
  h.elim (fun h => h.moves hw) fun h => h.moves hw ⟨_, rfl, by simp⟩

theorem roomy (h : d.Cleared start n d') (hr : d.Roomy) : d'.Roomy :=
  h.elim (fun h => h.roomy hr) fun h => h.roomy hr

theorem free (h : d.Cleared start n d') : d'.free = d.free :=
  h.elim (fun h => by rw [h.rest]) fun h => h.free

theorem waits (h : d.Cleared start n d') (hw : d.Waits list d.pc) : d'.Waits list d'.pc :=
  h.elim (fun h => h.waits hw) fun h => h.waits hw (by rw [h.pc]; omega) (Nat.le_refl _)

theorem tight (h : d.Cleared start n d') (ht : d.Tight) (hn : 0 < n) (hs : start + n ≤ 255) : d'.Tight :=
  h.elim (fun h => h.tight ht hs) fun h => h.tight_loadNil hn hs

/-- **The registers hold nil**, and the locals what they held, as far as no LOADNIL still to be widened has
    cleared them in advance. -/
theorem runs (h : d.Cleared start n d') (hw : d.Waits list d.pc) (hn : 0 < n) (hs : start + n ≤ 255)
    (hp : CompletesAbove 0 p d' list d'.pc) :
    CompletesAbove 0 p d list d.pc ∧ ∀ (vs : List Value) (s : Spot), d.Stands p vs s →
      ∃ m s', p.Enacts m vs s [] vs s' ∧ d'.Entered p d'.pc s' ∧
        (∀ r, start ≤ r → r < start + n → s'.regs r = .nil) ∧
        ∀ (i : Nat) (v : Value), vs[i]? = some v → ¬ (start ≤ i ∧ i < start + n) → s'.regs i = v ∨ d'.Ahead p i := by
  rcases h with h | h
  · have hpc : d'.pc = d.pc := h.pc_eq
    have hp' := hp
    rw [hpc] at hp'
    refine ⟨hp'.widened h (Nat.zero_le _), fun vs s hst => ?_⟩
    obtain ⟨hin, hnil⟩ := h.entered hw hp hst.entered
    refine ⟨0, s, .refl vs s, hin, fun r h1 h2 => hnil r ((h.clears r).mpr (.inr ⟨h1, h2⟩)), fun i v hv hi => ?_⟩
    refine (hst.holds i v hv).imp_right fun ha => ?_
    obtain ⟨_, x, hx, hc, hnot⟩ := ha
    refine ⟨h.stays_open, x, ?_, hc, ?_⟩
    · rw [hpc]
      exact hx
    · rw [hpc]
      exact fun hcl => ((h.clears i).mp hcl).elim hnot hi
  · have hpc : d'.pc = d.pc + 1 := h.pc
    have hext := fun m => hp.extended (m := m) h (by simp) hw (by omega) (fun j hj => .inl hj) fun _ => id
    refine ⟨(hext 0).1, fun vs s hst => ?_⟩
    have hshow := hst.shows (hext vs.length).1 (Nat.le_refl _) (Nat.le_refl _)
    have hpath : p.Path vs.length s ⟨d.pc, s.regs⟩ := hst.entered.path (hext 0).2.1
    obtain ⟨m, hm⟩ := hpath.enacts hshow (Nat.le_refl _)
    obtain ⟨i, hi, ho, hall, -⟩ := h.loadNil hw hn hs hp
    obtain ⟨regs', he, hregs⟩ := Proto.effect_clears s.regs hi ho
    have hone : p.Enacts 1 vs ⟨d.pc, s.regs⟩ [] vs ⟨d.pc + 1, regs'⟩ := .step hshow he (.refl _ _)
    refine ⟨m + 1, ⟨d.pc + 1, regs'⟩, hm.trans hone, ⟨.inl hpc.symm, fun _ x hx r hc => ?_⟩,
      fun r h1 h2 => (hregs r).1 (hall r h1 h2), fun r v hv hr => ?_⟩
    · rw [hpc, Nat.add_sub_cancel, hi] at hx
      cases hx
      exact (hregs r).1 hc
    · by_cases hc : i.Clears r
      · -- the LOADNIL that it has become clears more
        refine .inr ⟨Classical.byContradiction fun hopen => ?_, i, by rw [hpc, Nat.add_sub_cancel]; exact hi, hc, ?_⟩
        · have hp' : CompletesAbove (r + 1) p d' list d'.pc :=
            ⟨hp.code, hp.tests, fun ho => absurd ho hopen, hp.constants⟩
          obtain ⟨y, hy, -, -, hlow⟩ := h.loadNil hw hn hs hp'
          rw [hi] at hy
          cases hy
          exact hr (hlow r (Nat.lt_succ_self r) hc)
        · have hlast : d'.instr (d'.pc - 1) = .ofABC .loadNil start (n - 1) 0 :=
            Draft.Extended.last (by rw [List.nil_append]; exact h)
          rw [hlast]
          exact fun hcl => hr ((Compile.clears_loadNil hn hs r).mp hcl)
      · exact .inl (((hregs r).2 hc).trans (hshow r v hv))

end Draft.Cleared

/-! ## 2. First values -/

def Proto.Gives (p : Proto) (vs : List Value) (s : Spot) (Q : Value → Prop) : Except Clash Value → Prop
  | .ok v => Q v
  | .error c => Shows vs s.regs ∧ p.effect? s = some (.error c)

/-- Code has been written that brings the value of a formula of the locals into the next register. -/
structure Given (list : List Nat) (names : List Bytes) (d : Draft) (e : Formula) (d' : Draft) : Prop where
  moves : d.Moves list d'
  roomy : d'.Roomy
  tight : d'.Tight
  waits : d'.Waits list d'.pc
  free : d'.free = d.free + 1
  runs : ∀ p : Proto, CompletesAbove 0 p d' list d'.pc → CompletesAbove 0 p d list d.pc ∧
    ∀ (vs : List Value) (s : Spot), names.length ≤ vs.length → vs.length ≤ d.free → d.Stands p vs s →
      ∃ n s', p.Enacts n vs s [] vs s' ∧
        p.Gives vs s' (fun v => d'.Stands p vs s' ∧ s'.regs d.free = v) (e.eval (Scope.value names vs))

theorem Computes.stands {list : List Nat} {names : List Bytes} {d d' : Draft} {e : Formula} {e' : Expr} {p : Proto}
    (hc : Computes list d (e.meaning names) e' d') (hr : d.Roomy)
    (hp : Completes p d' (list ++ e'.exits) (e'.top d')) : CompletesAbove 0 p d list d.pc ∧
      ∀ (vs : List Value) (s : Spot), names.length ≤ vs.length → vs.length ≤ d.free → d.Stands p vs s →
        Shows vs s.regs ∧ Yields p d' d.free s e' (e.eval (Scope.value names vs)) := by
  obtain ⟨hp0, hruns⟩ := hc.runs p hp
  refine ⟨hp0.mono (Nat.zero_le _), fun vs s hlen hfree hst => ?_⟩
  have hshow := hst.shows hp0 (Nat.le_refl _) hfree
  have hval : e.meaning names s.regs = e.eval (Scope.value names vs) := by
    refine Formula.meaning_of_registers fun r hlt => ?_
    have hget : vs[r]? = some vs[r] := List.getElem?_eq_getElem (by omega)
    rw [hget]
    exact hshow r _ hget
  rw [← hval]
  exact ⟨hshow, hruns d.free s.regs s hr.active (Nat.le_refl _) hst.entered fun _ _ => rfl⟩

theorem Computes.stands_nil {list : List Nat} {names : List Bytes} {d d1 : Draft} {e : Formula} {e' : Expr} {p : Proto}
    (hc : Computes list d (e.meaning names) e' d1) (hd : d.Begins list) (hn : e'.place = .nil) (hj : e'.exits = [])
    (hp1 : CompletesAbove 0 p d1 list d1.pc) : CompletesAbove 0 p d list d.pc ∧
      ∀ (vs : List Value) (s : Spot), names.length ≤ vs.length → vs.length ≤ d.free → d.Stands p vs s →
        ∃ n s', p.Enacts n vs s [] vs s' ∧
          p.Gives vs s' (fun v => v = .nil ∧ d1.Stands p vs s') (e.eval (Scope.value names vs)) := by
  have htop : e'.top d1 = d1.pc := by
    rw [Expr.top, hn]
    rfl
  rcases hc.bare hn with hf | ⟨rfl, -, hnil⟩
  · have hp1' : Completes p d1 (list ++ e'.exits) (e'.top d1) := by
      rw [hj, List.append_nil, htop]
      exact hp1.of_fresh hf
    obtain ⟨hp0, hruns⟩ := hc.stands hd.roomy hp1'
    refine ⟨hp0, fun vs s hlen hfree hst => ?_⟩
    obtain ⟨hshow, hy⟩ := hruns vs s hlen hfree hst
    generalize e.eval (Scope.value names vs) = r at hy
    cases hy with
    | @falls s' _ hpath hin hv =>
      rw [hn] at hv
      have hr : r = .ok .nil := hv
      subst hr
      obtain ⟨n, hen⟩ := hpath.enacts hshow hfree
      rw [htop] at hin
      exact ⟨n, s', hen, rfl, hin.stands (hpath.shows hshow hfree)⟩
    | onTrue hm =>
      rw [(List.append_eq_nil_iff.mp hj).1] at hm
      cases hm
    | onFalse hm =>
      rw [(List.append_eq_nil_iff.mp hj).2] at hm
      cases hm
    | fails hf =>
      obtain ⟨s', hpath, he⟩ := hf
      obtain ⟨n, hen⟩ := hpath.enacts hshow hfree
      exact ⟨n, s', hen, hpath.shows hshow hfree, he⟩
  · refine ⟨hp1, fun vs s hlen hfree hst => ⟨0, s, .refl vs s, ?_⟩⟩
    have hval : e.eval (Scope.value names vs) = .ok .nil := by
      have := hnil fun r => vs[r]?.getD .nil
      rwa [Formula.meaning_of_registers fun _ _ => rfl] at this
    rw [hval]
    exact ⟨rfl, hst⟩

namespace Compile

variable {list : List Nat} {names : List Bytes} {d d1 : Draft} {e : Formula} {e' : Expr} {f : Meaning}

theorem Writes.toNextRegister_clears (hn : e'.place = .nil) (hj : e'.exits = []) (hw : d.Waits list d.pc)
    (hr : d.Roomy) (ht : d.Tight) :
    Writes (Compile.toNextRegister e') d fun _ d' => d.free < 254 ∧ ∃ d1 : Draft, d.Retakes d1 ∧ d1.Roomy ∧
      d1.free = d.free + 1 ∧ d1.Cleared d.free 1 d' := by
  have hnil := List.append_eq_nil_iff.mp hj
  have hs : e'.place.Sits d := by rw [hn]; trivial
  have he : { e' with place := e'.place.read } = e' := by
    cases e'
    simp only at hn
    rw [hn]
    rfl
  refine (Writes.readVariable_reads hs).andThen fun e1 d1 hread => ?_
  obtain ⟨he1, hd1⟩ := hread
  rw [he] at he1
  subst hd1 he1
  have hfree : Compile.freeExpr e1 = Pure.pure () := by
    unfold Compile.freeExpr
    rw [hn]
  rw [hfree]
  refine Writes.bind (Writes.pure ?_)
  refine (Writes.reserve_takes hr).andThen fun _ d2 hreserve => ?_
  obtain ⟨htake, hr2, hf2, hlt⟩ := hreserve
  refine Writes.topRegister ?_
  rw [show d2.free - 1 = d1.free by rw [hf2, Nat.add_sub_cancel]]
  refine Writes.bind ?_
  have hw2 : d2.Waits list d2.pc := by
    rw [htake.pc]
    exact htake.waits hw
  unfold Compile.toRegister Compile.settle
  have hread : Compile.readVariable e1 = Pure.pure e1 := by
    unfold Compile.readVariable
    rw [hn]
  rw [hread]
  refine Writes.bind (Writes.bind (Writes.pure ?_))
  rw [hn]
  refine (Writes.loadNil_clears hw2 (htake.tight ht) Nat.one_pos (by omega)).andThen fun _ d3 h3 => ?_
  refine Writes.pure (Writes.bind (Writes.pure ?_))
  simp only [hnil.1, hnil.2, List.isEmpty_nil, Bool.and_self, Bool.not_true, Bool.false_eq_true, if_false]
  exact Writes.pure (Writes.pure ⟨hlt, d2, htake, hr2, hf2, h3⟩)

/-- **The next register gets the value of a formula.** -/
theorem Writes.toNextRegister_gives (hd : d.Begins list) (hc : Computes list d (e.meaning names) e' d1) :
    Writes (Compile.toNextRegister e') d1 fun _ d' => Given list names d e d' := by
  by_cases hbare : e'.place = .nil ∧ e'.exits = []
  · obtain ⟨hn, hj⟩ := hbare
    have htop : e'.top d1 = d1.pc := by
      rw [Expr.top, hn]
      rfl
    have hw1 : d1.Waits list d1.pc := by
      have := hc.sits.waits
      rwa [hj, List.append_nil, htop] at this
    refine (Writes.toNextRegister_clears hn hj hw1 hc.roomy hc.tight).imp fun _ d' hclears => ?_
    obtain ⟨hlt, d2, ht, hr2, hf2, hcl⟩ := hclears
    have hw2 : d2.Waits list d2.pc := by
      rw [ht.pc]
      exact ht.waits hw1
    refine ⟨hc.moves.trans (ht.moves.trans (hcl.moves hw2)), hcl.roomy hr2,
      hcl.tight (ht.tight hc.tight) Nat.one_pos (by omega), hcl.waits hw2, by rw [hcl.free, hf2, hc.free], fun p hp => ?_⟩
    obtain ⟨hp2, hclear⟩ := hcl.runs hw2 Nat.one_pos (by omega) hp
    have hp1 : CompletesAbove 0 p d1 list d1.pc := by
      rw [ht.pc] at hp2
      exact ht.completes hp2
    obtain ⟨hp0, hrun⟩ := hc.stands_nil hd hn hj hp1
    refine ⟨hp0, fun vs s hlen hfree hst => ?_⟩
    obtain ⟨n, s', hen, hval⟩ := hrun vs s hlen hfree hst
    cases hv : e.eval (Scope.value names vs) with
    | error c =>
      rw [hv] at hval
      exact ⟨n, s', hen, hval⟩
    | ok v =>
      rw [hv] at hval
      obtain ⟨rfl, hst1⟩ := hval
      have hst2 : d2.Stands p vs s' := by
        obtain ⟨m, f, rfl⟩ := ht
        exact hst1.stock rfl rfl rfl
      obtain ⟨m, s'', hen', hin, hnil, hkeep⟩ := hclear vs s' hst2
      rw [hc.free] at hnil hkeep
      refine ⟨n + m, s'', hen.trans hen', ⟨hin, fun i w hw => hkeep i w hw ?_⟩,
        hnil d.free (Nat.le_refl _) (Nat.lt_succ_self _)⟩
      have := (List.getElem?_eq_some_iff.mp hw).1
      omega
  · have hsome : e'.place ≠ .nil ∨ e'.exits ≠ [] := by
      by_cases hn : e'.place = .nil
      · exact .inr fun hj => hbare ⟨hn, hj⟩
      · exact .inl hn
    refine (Writes.toNextRegister_brings hc.sits.place hc.sits.waits hc.roomy fun _ => hc.tight).imp
      fun r d' hbrings => ?_
    obtain ⟨_, _, hb, hf, htight, hfresh⟩ := hbrings
    refine ⟨hc.moves.trans hb.moves, hb.roomy, htight, hb.waits, by rw [hf, hc.free], fun p hp => ?_⟩
    obtain ⟨hp1, hbring⟩ := hb.runs p (hp.of_fresh (hfresh hsome))
    obtain ⟨hp0, hruns⟩ := hc.stands hd.roomy hp1
    refine ⟨hp0, fun vs s hlen hfree hst => ?_⟩
    obtain ⟨hshow, hy⟩ := hruns vs s hlen hfree hst
    have hbr := hbring d.free s _ (Nat.le_of_eq hc.free.symm) hy
    cases hv : e.eval (Scope.value names vs) with
    | error c =>
      rw [hv] at hbr
      obtain ⟨s', hpath, he⟩ := hbr
      obtain ⟨n, hen⟩ := hpath.enacts hshow hfree
      exact ⟨n, s', hen, hpath.shows hshow hfree, he⟩
    | ok v =>
      rw [hv] at hbr
      obtain ⟨s', hpath, hin, hreg⟩ := hbr
      obtain ⟨n, hen⟩ := hpath.enacts hshow hfree
      rw [hc.free] at hreg
      exact ⟨n, s', hen, hin.stands (hpath.shows hshow hfree), hreg⟩

end Compile

/-! ## 3. Assigned values -/

/-- Code has been written that puts a value of the locals into the register of one of them. -/
structure Stored (list : List Nat) (d : Draft) (r : Nat) (g : (Nat → Value) → Value) (d' : Draft) : Prop where
  moves : d.Moves list d'
  roomy : d'.Roomy
  tight : d'.Tight
  waits : d'.Waits list d'.pc
  free : d'.free = d.free
  runs : ∀ p : Proto, CompletesAbove 0 p d' list d'.pc → CompletesAbove 0 p d list d.pc ∧
    ∀ (vs : List Value) (s : Spot) (v : Value), r < vs.length → (∀ regs, Shows vs regs → g regs = v) → d.Stands p vs s →
      ∃ n s', p.Enacts n vs s [.assigned r v] (vs.set r v) s' ∧ d'.Stands p (vs.set r v) s'

theorem getElem?_assigned {vs : List Value} {r i : Nat} {v w : Value} (h : (vs.set r v)[i]? = some w) :
    i = r ∧ w = v ∨ i ≠ r ∧ vs[i]? = some w := by
  rw [List.getElem?_set] at h
  split at h
  · next hri =>
    split at h
    · cases h
      exact .inl ⟨hri.symm, rfl⟩
    · cases h
  · next hri => exact .inr ⟨Ne.symm hri, h⟩

theorem shows_getD (vs : List Value) : Shows vs fun i => vs[i]?.getD .nil := fun i v hv => by simp [hv]

namespace Stored

variable {list : List Nat} {d d' : Draft} {r : Nat} {g : (Nat → Value) → Value}

theorem kept (hd : d.Begins list) : Stored list d r (fun regs => regs r) d := by
  refine ⟨.refl _ _, hd.roomy, hd.tight, hd.waits, rfl, fun p hp => ⟨hp, fun vs s v hr hg hst => ?_⟩⟩
  have hv : vs[r] = v := by
    have := hg _ (shows_getD vs)
    rwa [List.getElem?_eq_getElem hr, Option.getD_some] at this
  have hset : vs.set r v = vs := by
    rw [← hv, List.set_getElem_self]
  rw [hset]
  refine ⟨0, s, .event ⟨hr, .inl (by rw [List.getElem?_eq_getElem hr, hv])⟩ ?_, hst⟩
  show p.Enacts 0 (vs.set r v) s [] vs s
  rw [hset]
  exact .refl vs s

theorem of_cleared (h : d.Cleared r 1 d') (hd : d.Begins list) (hr : r < 255) :
    Stored list d r (fun _ => .nil) d' := by
  refine ⟨h.moves hd.waits, h.roomy hd.roomy, h.tight hd.tight Nat.one_pos hr, h.waits hd.waits, h.free, fun p hp => ?_⟩
  obtain ⟨hp0, hruns⟩ := h.runs hd.waits Nat.one_pos hr hp
  refine ⟨hp0, fun vs s v hlt hg hst => ?_⟩
  have hv : Value.nil = v := hg _ (shows_getD vs)
  subst hv
  obtain ⟨n, s', hen, hin, hnil, hkeep⟩ := hruns vs s hst
  have hreg : s'.regs r = .nil := hnil r (Nat.le_refl r) (Nat.lt_succ_self r)
  refine ⟨n, s', hen.noted (e := .assigned r .nil) ⟨hlt, .inr hreg⟩, hin, fun i v hv => ?_⟩
  rcases getElem?_assigned hv with ⟨rfl, rfl⟩ | ⟨hne, hv⟩
  · exact .inl hreg
  · exact hkeep i v hv (by omega)

theorem of_loads {ks : Array Constant} (h : { d with constants := ks }.Loads r g d') (hd : d.Begins list)
    (hpre : ∀ (k : Nat) (c : Constant), d.constants[k]? = some c → ks[k]? = some c)
    (hsize : ks.size ≤ Instr.maxAx + 1) : Stored list d r g d' := by
  obtain ⟨is, i, hx, hlast, hnil, heffect⟩ := h
  have hw : { d with constants := ks }.Waits list d.pc :=
    ⟨Nat.le_refl _, hd.waits.jumps, hd.waits.nodup, hd.waits.target⟩
  have hr : { d with constants := ks }.Roomy := ⟨hd.roomy.active, hd.roomy.free, hd.roomy.stack, hsize⟩
  have hm : d.Moves list { d with constants := ks } := .quiet rfl (.of_rest rfl) hpre
  have hfresh : d'.Fresh := hx.fresh is (hnil i (by simp))
  have hpc : d'.pc = d.pc + (is.length + 1) := by
    rw [hx.pc, List.length_append, List.length_singleton]
    rfl
  refine ⟨hm.trans (hx.moves hw ⟨i, by simp, hlast⟩), hx.roomy hr, hfresh.tight,
    hx.waits hw (by omega) (Nat.le_refl _), hx.free, fun p hp => ?_⟩
  have hp0 : ∀ m, CompletesAbove m p d list d.pc := fun m =>
    (hp.written (m := m) hx (by simp) hw hnil).1.stock rfl rfl rfl hpre
  obtain ⟨hp', hlands, hnew⟩ := hp.written (m := 0) hx (by simp) hw hnil
  refine ⟨hp0 0, fun vs s v hlt hg hst => ?_⟩
  have hshow := hst.shows (hp0 vs.length) (Nat.le_refl _) (Nat.le_refl _)
  have hpath : p.Path vs.length s ⟨d.pc, s.regs⟩ := hst.entered.path hlands
  obtain ⟨m, hm⟩ := hpath.enacts hshow (Nat.le_refl _)
  have he := heffect p hnew hp'.constants s.regs
  rw [hg s.regs hshow] at he
  let s' : Spot := (Spot.put ⟨d.pc, s.regs⟩ r v).past is.length
  have hreg : s'.regs r = v := if_pos rfl
  have hone : p.Enacts 1 vs ⟨d.pc, s.regs⟩ [] vs s' := .step hshow he (.refl _ _)
  refine ⟨m + 1, s', (hm.trans hone).noted (e := .assigned r v) ⟨hlt, .inr hreg⟩, Draft.Entered.stands ⟨.inl ?_, hfresh.primed⟩
    fun i w hw => ?_⟩
  · show d.pc + 1 + is.length = d'.pc
    omega
  · rcases getElem?_assigned hw with ⟨rfl, rfl⟩ | ⟨hne, hw⟩
    · exact hreg
    · exact (if_neg hne).trans (hshow i w hw)

theorem quiet {ks : Array Constant} (h : Stored list { d with constants := ks } r g d')
    (hpre : ∀ (k : Nat) (c : Constant), d.constants[k]? = some c → ks[k]? = some c) : Stored list d r g d' := by
  have hm : d.Moves list { d with constants := ks } := .quiet rfl (.of_rest rfl) hpre
  refine ⟨hm.trans h.moves, h.roomy, h.tight, h.waits, h.free, fun p hp => ?_⟩
  obtain ⟨hp0, hruns⟩ := h.runs p hp
  exact ⟨hp0.stock rfl rfl rfl hpre, fun vs s v hlt hg hst => hruns vs s v hlt hg (hst.stock rfl rfl rfl)⟩

end Stored

namespace Compile

variable {list : List Nat} {d : Draft} {r : Nat} {q : Place} {g : (Nat → Value) → Value}

theorem Writes.loadNumeral_stores (c : Constant) (hd : d.Begins list) (hr : r < 255) :
    Writes (Compile.addConstant c >>= Compile.loadConstant r) d fun _ d' => Stored list d r (fun _ => .ofConstant c) d' := by
  refine (Writes.addConstant_finds c hd.roomy).andThen fun k d1 hfound => ?_
  obtain ⟨ks, hd1, hk, hpre, hsize⟩ := hfound
  subst hd1
  have hw : { d with constants := ks }.Waits list { d with constants := ks }.pc :=
    ⟨Nat.le_refl _, hd.waits.jumps, hd.waits.nodup, hd.waits.target⟩
  have hroomy : { d with constants := ks }.Roomy := ⟨hd.roomy.active, hd.roomy.free, hd.roomy.stack, hsize⟩
  exact (Writes.loadConstant_loads hw hroomy hr hk).imp fun _ d' h => .of_loads h hd hpre hsize

theorem Writes.settle_stores (hd : d.Begins list) (hr : r < d.active) (hq : q.Denotes d g) :
    Writes (Compile.settle (.plain q) r) d fun e' d' => e' = .plain (.fixed r) ∧ Stored list d r g d' := by
  have hlt := hd.roomy.lt hr
  have hloads : ∀ d', d.Loads r g d' → Stored list d r g d' := fun d' h =>
    .of_loads (show { d with constants := d.constants }.Loads r g d' from h) hd (fun _ _ => id) hd.roomy.constants
  unfold Compile.settle
  refine (Writes.readVariable_reads (e := .plain q) hq.sits).andThen fun e' d1 hsame => ?_
  obtain ⟨he', hd1⟩ := hsame
  subst he' hd1
  cases hq with
  | @localVar r' h =>
    simp only [Place.read, Expr.plain]
    split
    · have hlt' := hd.roomy.lt h
      refine .bind (.discard ((Writes.emit_moves hd.waits (by omega) (by omega)).imp fun _ d' h => ?_))
      exact .pure ⟨rfl, hloads d' h⟩
    · next hne =>
      obtain rfl : r' = r := Decidable.not_not.mp hne
      exact .bind (.pure (.pure ⟨rfl, .kept hd⟩))
  | nil =>
    simp only [Place.read, Expr.plain]
    refine (Writes.loadNil_clears hd.waits hd.tight Nat.one_pos (by omega)).andThen fun _ d' h => ?_
    exact .pure ⟨rfl, .of_cleared h hd (by omega)⟩
  | bool b =>
    simp only [Place.read, Expr.plain]
    refine .bind (.discard ((Writes.emit_loadBool hd.waits (by omega)).imp fun _ d' h => ?_))
    exact .pure ⟨rfl, hloads d' h⟩
  | int i =>
    simp only [Place.read, Expr.plain, ← bind_assoc]
    exact (Writes.loadNumeral_stores (.int i) hd (by omega)).andThen fun _ d' h => .pure ⟨rfl, h⟩
  | float x =>
    simp only [Place.read, Expr.plain, ← bind_assoc]
    exact (Writes.loadNumeral_stores (.float x) hd (by omega)).andThen fun _ d' h => .pure ⟨rfl, h⟩
  | @str k b hk =>
    simp only [Place.read, Expr.plain]
    refine (Writes.loadConstant_loads hd.waits hd.roomy (by omega) hk).andThen fun _ d' h => ?_
    exact .pure ⟨rfl, hloads d' h⟩

/-- **A local or a literal is put into the register of a local.** -/
theorem Writes.toRegister_stores (hd : d.Begins list) (hr : r < d.active) (hq : q.Denotes d g) :
    Writes (Compile.toRegister (.plain q) r) d fun _ d' => Stored list d r g d' := by
  unfold Compile.toRegister
  refine (Writes.settle_stores hd hr hq).andThen fun e' d' h => ?_
  obtain ⟨rfl, h⟩ := h
  -- no jump leaves it
  exact .bind (.pure (.pure h))

end Compile

end LuaMachine
