/-
  READING EXPRESSIONS KEEPS ALL DRAFTS GOOD. What is nested is read one level deeper, so each construct is
  taken with the promise that what is nested in it keeps the drafts good.

  * `Ok.functionBody` -- **a nested function is fit to run**, and its closure can be made.
-/
import LuaMachine.Proofs.Compiler.Block

namespace LuaMachine

open Compile

/-- What is nested keeps the drafts good, and the functions in it are of at most `n` levels. -/
structure Grammar.Ok (n : Nat) (g : Grammar) : Prop where
  statement : ∀ {depth : Nat} {waiting : Nat → Prop} {w : Drafts}, n ≤ depth →
    w.At depth waiting → Leads g.statement w fun _ w' => w'.At depth waiting ∧ w.Follows w'
  subexpr : ∀ {depth : Nat} {waiting : Nat → Prop} {w : Drafts} (limit : Nat), n ≤ depth →
    w.Fit depth waiting →
    Leads (g.subexpr limit) w fun r w' => Drafts.Yields depth waiting w r.1 w' ∧
      ∀ op, r.2 = some op → op.isBinary
  name : g.name = Compile.named

namespace Drafts

structure Turned (depth : Nat) (waiting : Nat → Prop) (w : Drafts) (e : Expr) (w' : Drafts)
    (e' : Expr) : Prop where
  fit : w'.Fit depth fun n => waiting n ∨ n ∈ e'.jumps
  steps : w.Steps w'
  ok : e'.Ok w'.fn
  above : ∀ f, e.place.Above w.fn f → e'.place.Above w'.fn f

/-- What reading a list of expressions leads to: all but the last value are in registers. -/
structure Listed (depth : Nat) (waiting : Nat → Prop) (w : Drafts) (count : Nat) (e : Expr)
    (w' : Drafts) : Prop where
  fit : w'.Fit depth fun n => waiting n ∨ n ∈ e.jumps
  steps : w.Steps w'
  ok : e.Ok w'.fn
  above : e.place.Above w'.fn (w.fn.free + count - 1)
  count : 1 ≤ count

variable {w w' w'' : Drafts} {d d' : Draft} {e e' : Expr} {depth : Nat} {waiting : Nat → Prop}

theorem Yields.turned (h : Yields depth waiting w e w') (ht : Turned depth waiting w' e w'' e') :
    Yields depth waiting w e' w'' :=
  ⟨ht.fit, h.steps.trans ht.steps, ht.ok, ht.above _ h.above⟩

theorem Fit.turned {x : Compile Expr} (h : w.Fit depth fun n => waiting n ∨ n ∈ e.jumps)
    (hx : Writes x w.fn fun e' d' => Turns w.source depth waiting w.fn e d' e') :
    Leads x w fun e' w' => Turned depth waiting w e w' e' :=
  Leads.ofWrites hx fun _ _ ht => ⟨h.write ht.ext ht.ready, .write ht.ext, ht.ok, ht.above⟩

theorem Steps.table {p : Place} (h : w.Steps w') (hp : (∃ r, p = .fixed r) ∨ ∃ i, p = .upvalue i)
    (ho : p.Ok w.fn) : p.Ok w'.fn := by
  rcases hp with ⟨r, rfl⟩ | ⟨i, rfl⟩
  · exact Nat.lt_of_lt_of_le ho h.fn.maxStack
  · exact Nat.lt_of_lt_of_le ho h.fn.upvalues

end Drafts

namespace Grammar

open Drafts

variable {g : Grammar} {n depth : Nat} {waiting : Nat → Prop} {w w₀ : Drafts}

/-! ## 1. Lists -/

theorem Ok.expr (hg : g.Ok n) (hn : n ≤ depth) (h : w.Fit depth waiting) :
    Leads g.expr w fun e w' => Yields depth waiting w e w' :=
  (hg.subexpr 0 hn h).andThen fun _ _ ⟨hy, _⟩ => Leads.pure hy

theorem Ok.statements (hg : g.Ok n) (hn : n ≤ depth) (h : w.At depth waiting) :
    Leads g.statements w fun _ w' => w'.At depth waiting ∧ w.Follows w' := by
  unfold Grammar.statements
  generalize g.bound = m
  induction m generalizing w with
  | zero => exact Leads.failNear
  | succ m ih =>
    unfold statementsFrom
    refine Leads.read Reads.atBlockEnd fun b => ?_
    split
    · exact Leads.pure ⟨h, .refl w⟩
    · refine Leads.read Reads.token fun t => ?_
      refine (hg.statement hn h).andThen fun _ w1 ⟨h₁, hs1⟩ => ?_
      split
      · exact Leads.pure ⟨h₁, hs1⟩
      · exact (ih h₁).imp fun _ w2 ⟨h₂, hs2⟩ => ⟨h₂, hs1.trans hs2⟩

theorem Ok.exprsFrom (hg : g.Ok n) (hn : n ≤ depth) {m count : Nat} {e : Expr}
    (h : Listed depth waiting w₀ count e w) :
    Leads (g.exprsFrom m count e) w fun r w' => Listed depth waiting w₀ r.1 r.2 w' := by
  induction m generalizing w count e with
  | zero => exact Leads.failNear
  | succ m ih =>
    unfold Grammar.exprsFrom
    refine Leads.read Reads.testNext fun b => ?_
    split
    · refine Leads.bind (Leads.discard ?_)
      refine Leads.ofWrites (h.fit.ready.toNextRegister h.ok) fun reg d ⟨hr, hx, hreg, hab⟩ => ?_
      have hle := hab _ h.above
      refine (hg.expr hn (h.fit.write hx hr)).andThen fun e' w2 hy => ih ?_
      refine ⟨hy.fit, (h.steps.trans (.write hx)).trans hy.steps, hy.ok, hy.above.mono ?_, by omega⟩
      show w₀.fn.free + (count + 1) - 1 ≤ d.free
      omega
    · exact Leads.pure h

/-- **A list of expressions.** -/
theorem Ok.exprs (hg : g.Ok n) (hn : n ≤ depth) (h : w.Fit depth waiting) :
    Leads g.exprs w fun r w' => Listed depth waiting w r.1 r.2 w' :=
  (hg.expr hn h).andThen fun _ _ hy =>
    hg.exprsFrom hn ⟨hy.fit, hy.steps, hy.ok, hy.above, Nat.le_refl 1⟩

/-! ## 2. Fields and constructors -/

theorem nameConstant_leads (h : w.Fit depth waiting) :
    Leads nameConstant w fun e w' => ∃ d k, w' = { w with fn := d } ∧ e = .plain (.constant k) ∧
      d.Ready w.source depth waiting ∧ w.fn.Extends d ∧ d.free = w.fn.free ∧
      k < d.constants.size ∧ d.code = w.fn.code := by
  refine Leads.read Reads.checkName fun name => ?_
  refine Leads.write (h.ready.addConstant _) fun k d ⟨hr, hx, hk, ks, hd⟩ => Leads.pure ?_
  exact ⟨d, k, rfl, rfl, hr, hx, by rw [hd], hk, by rw [hd]⟩

theorem ok_of_code {d d' : Draft} {e : Expr} (he : e.Ok d) (hx : d.Extends d') (hc : d'.code = d.code)
    (hf : d'.free = d.free) : e.Ok d' ∧ ∀ f, e.place.Above d f → e.place.Above d' f := by
  have hop : ∀ m op, d.OpAt m op → d'.OpAt m op := fun m op ⟨i, hi, ho⟩ => ⟨i, by rw [hc]; exact hi, ho⟩
  refine ⟨⟨?_, fun m hm => hop m _ (he.jumps m hm), he.whole⟩, fun f h => ⟨?_, ?_, ?_⟩⟩
  · cases hv : e.place.isValue with
    | true => exact (Draft.value_ext he hv hx hc).place
    | false =>
      cases hvar : e.place.isVariable with
      | true => exact Draft.variable_ext he.place hvar hx
      | false =>
        have hp := he.place
        cases hplace : e.place with
        | call pc =>
          rw [hplace] at hp
          obtain ⟨i, hi, ho, ha⟩ := hp
          exact ⟨i, by rw [hc]; exact hi, ho, by rw [hf]; exact ha⟩
        | varargs pc =>
          rw [hplace] at hp
          exact hop _ _ hp
        | void =>
          rw [hplace] at hp
          exact hp.elim
        | _ => simp [hplace, Place.isValue, Place.isVariable] at hv hvar
  · rw [hx.active, hf]
    exact h.cost
  · rw [hc]
    exact h.concat
  · rw [hc]
    exact h.call

theorem yields_constant {k : Nat} {d : Draft} (h : w.Fit depth waiting)
    (hr : d.Ready w.source depth waiting) (hx : w.fn.Extends d) (hf : d.free = w.fn.free)
    (hk : k < d.constants.size) :
    Yields depth waiting w (.plain (.constant k)) { w with fn := d } :=
  ⟨h.write hx (hr.wait fun _ => .inl), .write hx, ⟨hk, nofun, nofun⟩,
    ⟨Nat.le_of_eq hf.symm, nofun, nofun⟩⟩

theorem field_leads {e : Expr} (h : w.Fit depth fun n => waiting n ∨ n ∈ e.jumps) (he : e.Ok w.fn) :
    Leads (field e) w fun e' w' => Turned depth waiting w e w' e' ∧ e'.place.isVariable := by
  refine Leads.write (h.ready.toRegisterOrUpvalue he) ?_
  rintro t d ⟨ht, hj, hp⟩
  have h₁ : Drafts.Fit depth waiting { w with fn := d } :=
    h.write ht.ext (ht.ready.wait fun m hm => by simpa [hj] using hm)
  refine Leads.read Reads.next fun _ => ?_
  refine (nameConstant_leads h₁).andThen ?_
  rintro key w2 ⟨d2, k, hw2, hkey, hr2, hx2, hf2, hk, _⟩
  subst hw2
  subst hkey
  have hok : t.place.Ok d2 := (Steps.write hx2 : Drafts.Steps { w with fn := d } _).table hp ht.ok.place
  refine Leads.ofWrites (Draft.Ready.indexed (hr2.wait fun _ => .inl) ⟨hk, by rintro _ ⟨⟩, by rintro ⟨⟩⟩
    hok ?_ ?_) ?_
  · simp only [Expr.jumps, List.append_eq_nil_iff] at hj
    exact hj.1
  · exact hp.imp_right .inr
  · rintro e' d3 ⟨hr3, hx3, hok3, hj3, hv3, hab3⟩
    have hx := (ht.ext.trans hx2).trans hx3
    refine ⟨⟨h.write hx (hr3.wait fun _ => .inl), .write hx, hok3, fun f hf => hab3 f ⟨?_, by rintro _ _ ⟨⟩, by rintro _ _ ⟨⟩⟩⟩, hv3⟩
    have := (ht.above f hf).cost
    rw [hx2.active, hf2]
    exact this

theorem Ok.bracketKey (hg : g.Ok n) (hn : n ≤ depth) (h : w.Fit depth waiting) :
    Leads g.bracketKey w fun e w' => Yields depth waiting w e w' := by
  refine Leads.read Reads.next fun _ => ?_
  refine (hg.expr hn h).andThen fun e w1 hy => ?_
  refine ((hy.fit.turned ((hy.fit.ready.toValue hy.ok).imp fun _ _ h => h.1)).imp
    fun _ _ => hy.turned).andThen fun e' w2 hy' => ?_
  exact Leads.read Reads.checkNext fun _ => Leads.pure hy'

/-- A table constructor being read: its table is in a register, and the list items that have not been
    stored lie above it. -/
structure Gathers (depth : Nat) (waiting : Nat → Prop) (w₀ : Drafts) (x : Items) (w : Drafts) :
    Prop where
  fit : w.Fit depth fun n => waiting n ∨ n ∈ x.last.jumps
  steps : w₀.Steps w
  table : x.table < w.fn.maxStack
  last : (x.last = .plain .void ∧ x.table + 1 + x.gathered ≤ w.fn.free) ∨
    (x.last.Ok w.fn ∧ 1 ≤ x.gathered ∧ x.last.place.Above w.fn (x.table + x.gathered))

def Items.Flushed (x : Items) : Prop := x.last = .plain .void

theorem Gathers.free {x : Items} (h : Gathers depth waiting w₀ x w) (hx : x.Flushed) :
    x.table + 1 + x.gathered ≤ w.fn.free := by
  rcases h.last with ⟨-, hl⟩ | ⟨hl, -⟩
  · exact hl
  · rw [hx] at hl
    exact hl.place.elim

theorem Gathers.plain {x : Items} (h : Gathers depth waiting w₀ x w) (hx : x.Flushed) :
    w.Fit depth waiting :=
  h.fit.wait fun m hm => by
    rw [hx] at hm
    simpa [Expr.jumps_plain, Place.jumps] using hm

theorem Gathers.waits {x : Items} (h : Gathers depth waiting w₀ x w) (hv : x.last.place ≠ .void) :
    x.last.Ok w.fn ∧ 1 ≤ x.gathered ∧ x.last.place.Above w.fn (x.table + x.gathered) := by
  rcases h.last with ⟨hl, -⟩ | hl
  · rw [hl] at hv
    exact absurd rfl hv
  · exact hl

theorem Gathers.flushed {x : Items} (h : Gathers depth waiting w₀ x w) (hv : x.last.place = .void) :
    x.Flushed := by
  rcases h.last with ⟨hl, -⟩ | ⟨hl, -⟩
  · exact hl
  · have := hl.place
    rw [hv] at this
    exact this.elim

theorem Ok.keyedItem (hg : g.Ok n) (hn : n ≤ depth) {x : Items}
    (h : Gathers depth waiting w₀ x w) (hx : x.Flushed) :
    Leads (g.keyedItem x) w fun y w' => Gathers depth waiting w₀ y w' ∧ y.table = x.table := by
  have h₀ := h.plain hx
  refine Leads.get fun s hs => ?_
  have hfree : s.fn.free = w.fn.free := by rw [← hs]; rfl
  extract_lets free next
  -- the key has been read
  have hnext : ∀ key w1, Yields depth waiting w key w1 → Leads (next key) w1 fun y w' =>
      Gathers depth waiting w₀ y w' ∧ y.table = x.table := by
    intro key w1 hy
    refine Leads.read Reads.checkNext fun _ => ?_
    refine Leads.write (hy.fit.ready.toOperand hy.ok) ?_
    rintro k d2 ⟨hr2, hx2, hk, hab2⟩
    refine (hg.expr hn (hy.fit.write hx2 hr2)).andThen fun v w3 hy3 => ?_
    refine Leads.write (hy3.fit.ready.toOperand hy3.ok) ?_
    rintro v d4 ⟨hr4, hx4, hv, hab4⟩
    have hx3 := hy3.steps.fn
    have hgrows := (hy.steps.fn.trans hx2.grows).trans (hx3.trans hx4.grows)
    have htable : x.table < d4.maxStack := Nat.lt_of_lt_of_le h.table hgrows.maxStack
    have hk4 : d4.HasOperand k := hk.mono (Nat.le_trans hx3.maxStack hx4.maxStack)
      (Nat.le_trans hx3.constants hx4.constants)
    refine Leads.bind (Leads.discard ?_)
    refine Leads.ofWrites (hr4.good.emit (Instr.plain_ofABC rfl ..) ?_) ?_
    · simp only [Instr.Fits, Instr.opcode_ofABC, Instr.a_ofABC, Instr.b_ofABC, Instr.c_ofABC]
      exact ⟨Nat.lt_of_le_of_lt (Nat.mod_le ..) htable, hk4.field (Nat.le_refl _),
        hv.field (Nat.le_refl _)⟩
    rintro _ d5 ⟨_, hg5, he5⟩
    have hle : w.fn.free ≤ d5.free := by
      have h1 := hab2 _ hy.above
      have h2 : d2.free + _ ≤ _ := hab4 _ hy3.above
      have h3 := he5.free_eq
      omega
    have hr5 := (hr4.steady he5.toSteady hg5).lower (n := free) (by omega)
    have hext := (hx4.trans he5.toExtends).trans (.lower d5 free)
    have hsteps := (h.steps.trans (hy.steps.trans (.write hx2))).trans (hy3.steps.trans (.write hext))
    refine Leads.bind (Leads.modifyFn (Leads.pure ⟨⟨?_, hsteps, ?_, .inl ⟨hx, ?_⟩⟩, rfl⟩))
    · exact (hy3.fit.write hext hr5).wait fun _ => .inl
    · show x.table < d5.maxStack
      rw [he5.maxStack_eq]
      exact htable
    · show x.table + 1 + x.gathered ≤ free
      have := h.free hx
      omega
  refine Leads.read Reads.token fun t => ?_
  split
  · refine (nameConstant_leads h₀).andThen ?_
    rintro key w1 ⟨d1, k, hw1, hkey, hr1, hx1, hf1, hk, _⟩
    subst hw1
    subst hkey
    exact hnext _ _ (yields_constant h₀ hr1 hx1 hf1 hk)
  · exact (hg.bracketKey hn h₀).andThen hnext

theorem Ok.listItem (hg : g.Ok n) (hn : n ≤ depth) {x : Items}
    (h : Gathers depth waiting w₀ x w) (hx : x.Flushed) :
    Leads (g.listItem x) w fun y w' => Gathers depth waiting w₀ y w' ∧ y.table = x.table := by
  refine (hg.expr hn (h.plain hx)).andThen fun e w1 hy => Leads.pure ⟨⟨hy.fit, h.steps.trans hy.steps,
    Nat.lt_of_lt_of_le h.table hy.steps.fn.maxStack, .inr ⟨hy.ok, by simp, hy.above.mono ?_⟩⟩, rfl⟩
  have := h.free hx
  show x.table + (x.gathered + 1) ≤ w.fn.free
  omega

theorem Ok.item (hg : g.Ok n) (hn : n ≤ depth) {x : Items}
    (h : Gathers depth waiting w₀ x w) (hx : x.Flushed) :
    Leads (g.item x) w fun y w' => Gathers depth waiting w₀ y w' ∧ y.table = x.table := by
  refine Leads.read Reads.token fun t => ?_
  split
  · refine Leads.read Reads.peek fun t => ?_
    split
    · exact hg.keyedItem hn h hx
    · exact hg.listItem hn h hx
  · exact hg.keyedItem hn h hx
  · exact hg.listItem hn h hx

theorem Gathers.flushItem {x : Items} (h : Gathers depth waiting w₀ x w) :
    Leads (flushItem x) w fun y w' => Gathers depth waiting w₀ y w' ∧ y.Flushed ∧
      y.table = x.table := by
  unfold Grammar.flushItem
  split
  · next hv => exact Leads.pure ⟨h, h.flushed hv, rfl⟩
  · next hv =>
    obtain ⟨hok, hcount, hab⟩ := h.waits hv
    refine Leads.bind (Leads.discard ?_)
    refine Leads.ofWrites (h.fit.ready.toNextRegister hok) fun reg d ⟨hr, hx, hreg, hle⟩ => ?_
    have hle := hle _ hab
    have hfree : x.table + 1 + x.gathered ≤ d.free := by omega
    have hmax := hr.good.stocked.free
    dsimp only
    split
    · refine Leads.write (hr.setList (some x.gathered) (by simp only [Option.getD]; omega))
        fun _ d' ⟨hr', hx', hf'⟩ => Leads.pure ⟨⟨?_, h.steps.trans (.write (hx.trans hx')), ?_, ?_⟩, rfl, rfl⟩
      · exact (h.fit.write (hx.trans hx') hr').wait fun _ => .inl
      · show x.table < d'.maxStack
        have := hr'.good.stocked.free
        omega
      · exact .inl ⟨rfl, by simp [hf']⟩
    · refine Leads.pure ⟨⟨?_, h.steps.trans (.write hx), ?_, .inl ⟨rfl, hfree⟩⟩, rfl, rfl⟩
      · exact (h.fit.write hx hr).wait fun _ => .inl
      · show x.table < d.maxStack
        omega

theorem Gathers.flushLast {x : Items} (h : Gathers depth waiting w₀ x w) :
    Leads (flushLast x) w fun _ w' => w'.Fit depth waiting ∧ w₀.Steps w' ∧
      x.table + 1 ≤ w'.fn.free := by
  unfold Grammar.flushLast
  split
  · next h0 =>
    have hx : x.Flushed := by
      refine h.flushed (Decidable.byContradiction fun hv => ?_)
      have := (h.waits hv).2.1
      omega
    refine Leads.pure ⟨h.plain hx, h.steps, ?_⟩
    have := h.free hx
    omega
  · split
    · next hm =>
      obtain ⟨hok, -, hab⟩ := h.waits (by rintro hv; rw [hv] at hm; exact nomatch hm)
      refine Leads.write (h.fit.ready.setReturns hok hm) fun _ d ⟨hgood, hx, _, hle, _⟩ => ?_
      have hmax := hgood.stocked.free
      have hr : d.Ready w.source depth waiting := by
        refine ⟨hgood.mono ?_, ?_⟩
        · simp only [Option.getD]
          omega
        · rw [hx.active]
          exact Nat.le_trans h.fit.ready.active hx.maxStack
      have htable := Nat.lt_of_lt_of_le h.table hx.maxStack
      refine Leads.write (hr.setList none htable) fun _ d' ⟨hr', hx', hf'⟩ =>
        Leads.pure ⟨h.fit.write (hx.trans hx') hr', h.steps.trans (.write (hx.trans hx')), ?_⟩
      exact Nat.le_of_eq hf'.symm
    · extract_lets next
      have hnext : ∀ d u, w.fn.Extends d → d.Ready w.source depth waiting →
          x.table + 1 + x.gathered ≤ d.free → Leads (next u) { w with fn := d } fun _ w' =>
            w'.Fit depth waiting ∧ w₀.Steps w' ∧ x.table + 1 ≤ w'.fn.free := by
        intro d u hx hr hle
        have := hr.good.stocked.free
        refine Leads.write (hr.setList (some x.gathered) (by simp only [Option.getD]; omega))
          fun _ d' ⟨hr', hx', hf'⟩ =>
            Leads.pure ⟨h.fit.write (hx.trans hx') hr', h.steps.trans (.write (hx.trans hx')), ?_⟩
        exact Nat.le_of_eq hf'.symm
      split
      · next hv =>
        obtain ⟨hok, hcount, hab⟩ := h.waits hv
        refine Leads.bind (Leads.discard ?_)
        refine Leads.ofWrites (h.fit.ready.toNextRegister hok) fun reg d ⟨hr, hx, hreg, hle⟩ => ?_
        have := hle _ hab
        exact hnext d () hx hr (by omega)
      · next hv =>
        have hx := h.flushed (Decidable.not_not.mp hv)
        exact hnext w.fn () (.refl _) (h.plain hx).ready (h.free hx)

theorem Ok.itemsFrom (hg : g.Ok n) (hn : n ≤ depth) {m : Nat} {x : Items}
    (h : Gathers depth waiting w₀ x w) :
    Leads (g.itemsFrom m x) w fun y w' => Gathers depth waiting w₀ y w' ∧ y.table = x.table := by
  induction m generalizing w x with
  | zero => exact Leads.failNear
  | succ m ih =>
    unfold Grammar.itemsFrom
    refine Leads.read Reads.token fun t => ?_
    split
    · exact Leads.pure ⟨h, rfl⟩
    · refine h.flushItem.andThen fun y w1 ⟨h₁, hy, ht1⟩ => ?_
      refine (hg.item hn h₁ hy).andThen fun z w2 ⟨h₂, ht2⟩ => ?_
      have hrest : Leads (g.itemsFrom m z) w2 fun y w' => Gathers depth waiting w₀ y w' ∧
          y.table = x.table :=
        (ih h₂).imp fun _ _ ⟨h₃, ht3⟩ => ⟨h₃, ht3.trans (ht2.trans ht1)⟩
      refine Leads.read Reads.testNext fun b => ?_
      split
      · exact hrest
      · refine Leads.read Reads.testNext fun b => ?_
        split
        · exact hrest
        · exact Leads.pure ⟨h₂, ht2.trans ht1⟩

/-- **A table constructor.** The sizes of its table are noted at the end. -/
theorem Ok.constructor' (hg : g.Ok n) (hn : n ≤ depth) (h : w.Fit depth waiting) :
    Leads g.constructor' w fun e w' => Yields depth waiting w e w' := by
  refine Leads.read Reads.line fun line => ?_
  have hplain : (Instr.ofABC .newTable 0 0 0).Plain := Instr.plain_ofABC rfl ..
  have hfits : (Instr.ofABC .newTable 0 0 0).Fits (w.fn.room w.fn.maxStack) := by
    have := h.ready.good.stocked.low
    simp only [Instr.Fits, Instr.opcode_ofABC, Instr.a_ofABC, Draft.room]
    omega
  refine Leads.write (h.ready.good.emit hplain hfits) ?_
  rintro pc d1 ⟨hpc, hg1, he1⟩
  have hr1 : d1.Ready w.source depth waiting := h.ready.steady he1.toSteady hg1
  have hop : d1.OpAt pc .newTable := ⟨_, by rw [hpc]; exact he1.last, by simp⟩
  have hok : (Expr.plain (.pending pc)).Ok d1 :=
    ⟨⟨_, by rw [hpc]; exact he1.last, by rw [Instr.Movable, Instr.opcode_ofABC]; exact .inl rfl⟩, by rintro _ ⟨⟩, by rintro ⟨⟩⟩
  have habove : (Place.pending pc).Above d1 w.fn.free := by
    refine ⟨Nat.le_of_eq he1.free_eq.symm, ?_, by simp⟩
    rintro _ i ⟨⟩ hi ho
    rw [hpc, he1.last] at hi
    cases hi
    simp at ho
  refine Leads.write (Draft.Ready.toNextRegister (hr1.wait fun _ => .inl) hok)
    ?_
  rintro table d2 ⟨hr2, hx2, hfree, hab⟩
  have htable := hab _ habove
  have hx := he1.toExtends.trans hx2
  refine Leads.read Reads.checkNext fun _ => ?_
  have h₂ : Drafts.Fit depth waiting { w with fn := d2 } := h.write hx hr2
  have hlt : table < d2.maxStack := by
    have := hr2.good.stocked.free
    omega
  have hstart : Gathers depth waiting { w with fn := d2 } ⟨.plain .void, table, 0, 0, 0⟩
      { w with fn := d2 } :=
    ⟨h₂.wait fun _ => .inl, .refl _, hlt, .inl ⟨rfl, Nat.le_of_eq hfree⟩⟩
  refine (hg.itemsFrom hn hstart).andThen ?_
  rintro x w3 ⟨h₃, ht3⟩
  refine Leads.read Reads.checkMatch fun _ => ?_
  refine h₃.flushLast.andThen ?_
  rintro y w4 ⟨h4, hs4, hf4⟩
  have hop4 : w4.fn.OpAt pc .newTable :=
    hop.kept (hx2.kept.trans hs4.fn.kept) (by decide) (by decide) (by decide)
  obtain ⟨i, hi, ho⟩ := hop4
  have hchange := h4.ready.good.mapInstr (Nat.le_refl _) pc
    (fun i => (i.setB (SizeByte.ofNat y.listed)).setC (SizeByte.ofNat y.keyed)) fun j hj => by
      rw [hi] at hj
      cases hj
      have hold := h4.ready.good.written.instr pc i hi
      have hfit := hold.fits.resolve_right fun h => by simp [ho] at h
      refine ⟨⟨hold.known, .inl ?_, ?_, ?_⟩, .of_opcode rfl (by simp [ho]) (by simp [ho]), .inl rfl⟩
      · simp only [Instr.Fits, ho, Instr.opcode_setC, Instr.opcode_setB, Instr.a_setC,
          Instr.a_setB] at hfit ⊢
        exact hfit
      · simp [Instr.Jumps, ho, Op.layout]
      · simp [Instr.Skips, ho]
  refine Leads.bind (Leads.modifyFn (Leads.pure ?_))
  have hr5 := h4.ready.steady hchange.2 hchange.1
  refine ⟨(h4.write hchange.2.toExtends hr5).wait fun _ => .inl,
    (Steps.write hx).trans (hs4.trans (.write hchange.2.toExtends)), ⟨?_, by rintro _ ⟨⟩, by rintro ⟨⟩⟩, ⟨?_, by rintro _ _ ⟨⟩, by rintro _ _ ⟨⟩⟩⟩
  · show table < w4.fn.maxStack
    exact Nat.lt_of_lt_of_le hlt hs4.fn.maxStack
  · show w.fn.free + Operand.cost _ table ≤ w4.fn.free
    have := Operand.cost_le w4.fn.active table
    have ht : x.table = table := ht3
    have hf : table + 1 ≤ w4.fn.free := by omega
    exact Nat.le_trans (Nat.add_le_add htable this) hf

/-! ## 3. Functions -/

/-- A draft of which nothing has been written yet. -/
structure Blank (d : Draft) : Prop where
  code : d.code = #[]
  lines : d.lines = #[]
  constants : d.constants = #[]
  protos : d.protos = #[]
  maxStack : d.maxStack = 2
  free : d.free = 0
  here : d.here = []
  labels : d.labels = []
  gotos : d.gotos = []
  blocks : d.blocks = [⟨0, 0, 0, false, false⟩]

theorem Blank.settled {d : Draft} (h : Blank d) {m f : Nat} (hl : 2 ≤ m) (hm : m ≤ 254) (hf : f ≤ m)
    (ha : d.active ≤ m) (hu : d.upvalues.size ≤ 255) (source : Bytes) (depth : Nat)
    (waiting : Nat → Prop) : { d with maxStack := m, free := f }.Settled source depth waiting := by
  refine ⟨⟨⟨⟨?_, ?_, ?_⟩, ⟨hl, hm, hf, ?_, hu, ?_, ?_, ?_⟩, ?_⟩, ha⟩, ?_, ?_⟩ <;>
    simp [h.code, h.lines, h.constants, h.protos, h.here, h.labels, h.gotos, h.blocks]

theorem Writes.declareBlank {name : Bytes} {d : Draft} (h : Blank d) :
    Writes (declare name) d fun _ d' => Blank d' ∧ d'.active = d.active ∧ d'.upvalues = d.upvalues := by
  refine Writes.declare.imp fun _ d' ⟨ls, ds, hd⟩ => ?_
  subst hd
  exact ⟨⟨h.code, h.lines, h.constants, h.protos, h.maxStack, h.free, h.here, h.labels, h.gotos,
    h.blocks⟩, rfl, rfl⟩

theorem parametersFrom_leads {m count : Nat} {d : Draft} (h : Blank d) (hw : w.fn = d) :
    Leads (parametersFrom m count) w fun _ w' => ∃ d', w' = { w with fn := d' } ∧ Blank d' ∧
      d'.active = d.active ∧ d'.upvalues = d.upvalues := by
  induction m generalizing w d count with
  | zero => exact Leads.failNear
  | succ m ih =>
    subst hw
    unfold parametersFrom
    refine Leads.read Reads.token fun t => ?_
    split
    · refine Leads.read Reads.checkName fun name => ?_
      refine Leads.write (Writes.declareBlank h) fun _ d1 ⟨h₁, ha1, hu1⟩ => ?_
      refine Leads.read Reads.testNext fun b => ?_
      split
      · refine (ih h₁ rfl).imp fun _ w' ⟨d', hw', h', ha', hu'⟩ => ?_
        exact ⟨d', hw', h', ha'.trans ha1, hu'.trans hu1⟩
      · exact Leads.pure ⟨d1, rfl, h₁, ha1, hu1⟩
    · refine Leads.read Reads.next fun _ => Leads.bind (Leads.modifyFn (Leads.pure ⟨_, rfl, ?_, rfl, rfl⟩))
      exact ⟨h.code, h.lines, h.constants, h.protos, h.maxStack, h.free, h.here, h.labels, h.gotos,
        h.blocks⟩
    · exact Leads.failNear

theorem parameters_leads (source : Bytes) (depth : Nat) (waiting : Nat → Prop) {d : Draft}
    (h : Blank d) (hw : w.fn = d) (hu : d.upvalues = #[]) :
    Leads g.parameters w fun _ w' => ∃ d', w' = { w with fn := d' } ∧
      d'.Settled source depth waiting ∧ d'.upvalues = #[] ∧ d'.params ≤ d'.maxStack ∧
      d'.free = d'.active ∧ d'.blocks = [⟨0, 0, 0, false, false⟩] := by
  subst hw
  have hend : ∀ count d1, Blank d1 → d1.upvalues = #[] → Leads (do
      activate count
      modifyFn fun d => { d with params := d.active }
      reserve (← get).fn.active) { w with fn := d1 } fun _ w' => ∃ d', w' = { w with fn := d' } ∧
        d'.Settled source depth waiting ∧ d'.upvalues = #[] ∧ d'.params ≤ d'.maxStack ∧
        d'.free = d'.active ∧ d'.blocks = [⟨0, 0, 0, false, false⟩] := by
    intro count d1 h₁ hu1
    refine Leads.write Writes.activate fun _ d2 ⟨ls, hd2⟩ => ?_
    refine Leads.bind (Leads.modifyFn (Leads.get fun s hs => ?_))
    have hactive : s.fn.active = d2.active := by rw [show s.fn = _ from congrArg Drafts.fn hs]
    rw [hactive]
    have hmax : d2.maxStack = 2 := by rw [hd2]; exact h₁.maxStack
    have hfree : d2.free = 0 := by rw [hd2]; exact h₁.free
    refine Leads.ofWrites (Writes.reserve (by show d2.maxStack ≤ 254; omega)) fun _ d3 ⟨hle, hd3⟩ => ?_
    dsimp only at hle hd3
    have hblank : Blank { d2 with params := d2.active } := by
      rw [hd2]
      exact ⟨h₁.code, h₁.lines, h₁.constants, h₁.protos, h₁.maxStack, h₁.free, h₁.here, h₁.labels,
        h₁.gotos, h₁.blocks⟩
    have hu2 : d2.upvalues = #[] := by rw [hd2]; exact hu1
    subst hd3
    refine ⟨_, rfl, hblank.settled ?_ hle ?_ ?_ ?_ .., hu2, ?_, ?_, hblank.blocks⟩
    · omega
    · omega
    · show d2.active ≤ _
      omega
    · simp [hu2]
    · show d2.active ≤ max d2.maxStack (d2.free + d2.active)
      omega
    · show d2.free + d2.active = d2.active
      omega
  unfold parameters
  refine Leads.read Reads.token fun t => ?_
  extract_lets next
  split
  · exact hend 0 w.fn h hu
  · refine (parametersFrom_leads h rfl).andThen fun count w1 ⟨d1, hw1, h₁, _, hu1⟩ => ?_
    rw [hw1]
    exact hend count d1 h₁ (hu1.trans hu)

/-- The closure of a nested function goes to the next register. The register of a local that has its
    name already is that one. -/
theorem closure_writes {d : Draft} {p : Proto} {source : Bytes} (h : d.Good source depth waiting)
    (ha : d.active ≤ max d.maxStack (d.free + 1)) (hlimit : d.protos.size < Instr.maxBx)
    (hp : p.All (Proto.Made source) ∧ p.Within depth) (hu : ∀ u ∈ p.upvalues, d.Gives u) :
    Writes (do
      modifyFn fun d => { d with protos := d.protos.push p }
      let pc ← emitABx .closure 0 d.protos.size
      toNextRegister (.plain (.pending pc))) d fun reg d' => d'.Ready source depth waiting ∧
        d.Grows d' ∧ d'.upvalues = d.upvalues ∧ reg + 1 = d'.free ∧ d.free ≤ reg := by
  have hs := h.stocked
  let d1 : Draft := { d with protos := d.protos.push p }
  let registers := max d.maxStack (d.free + 1)
  have hroom : (d.room d.maxStack).Le (d1.room registers) :=
    ⟨Nat.le_max_left .., Nat.le_refl _, Nat.le_refl _, by simp [d1, Draft.room]⟩
  have h₁ : d1.GoodFor registers source depth waiting := by
    refine ⟨h.written.transport rfl rfl hroom (Nat.le_refl _) fun _ => id, ?_, h.here⟩
    refine ⟨hs.low, hs.high, hs.free, hs.constants, hs.upvalues, ?_, ?_, hs.captured⟩
    · simp only [d1, Array.size_push]
      omega
    · intro q hq
      rcases Array.mem_push.mp hq with hq | rfl
      · exact hs.protos q hq
      · exact hp
  have hg1 : d.Grows d1 :=
    ⟨.refl d, Nat.le_refl _, Nat.le_refl _, Nat.le_refl _, rfl, rfl, rfl, rfl, .refl _ _⟩
  have hbx : (Instr.ofABx .closure 0 d.protos.size).bx = d.protos.size := by
    simp only [Instr.bx, Instr.ofABx, Instr.b_ofABC, Instr.c_ofABC]
    simp only [Instr.maxBx] at hlimit
    omega
  have hfits : (Instr.ofABx .closure 0 d.protos.size).Fits (d1.room registers) := by
    simp only [Instr.Fits, Instr.opcode_ofABx, Instr.a_ofABx, hbx]
    refine ⟨?_, p, by simp [d1, Draft.room], fun u hm => ?_⟩
    · have := hs.low
      simp only [registers, Draft.room]
      omega
    · have := hu u hm
      unfold Draft.Gives at this
      unfold Room.Gives
      simp only [d1, Draft.room, registers]
      split
      · next hst =>
        rw [if_pos hst] at this
        omega
      · next hst =>
        rw [if_neg hst] at this
        exact this
  refine Writes.bind (Writes.modifyFn ?_)
  refine (h₁.emit (Instr.plain_ofABx rfl ..) hfits).andThen ?_
  rintro pc d2 ⟨hpc, hg2, he2⟩
  have hok : (Expr.plain (.pending pc)).Ok d2 :=
    ⟨⟨_, by rw [hpc]; exact he2.last, by rw [Instr.Movable, Instr.opcode_ofABx]; exact .inl rfl⟩, by rintro _ ⟨⟩, by rintro ⟨⟩⟩
  -- nothing is read and nothing set free
  refine Writes.bind (Writes.pure ?_)
  refine (Writes.freeExpr rfl).andThen fun _ d3 hd3 => ?_
  have hd3 : d3 = d2 := hd3
  subst hd3
  refine (hg2.reserve (n := 1) ?_).andThen ?_
  · exact Nat.le_of_eq (by rw [he2.maxStack_eq, he2.free_eq])
  rintro _ d4 ⟨hg4, hx4, hd4⟩
  have hm4 : d4.maxStack = registers := by
    rw [hd4]
    show max d3.maxStack (d3.free + 1) = _
    rw [he2.maxStack_eq, he2.free_eq]
  have hfree : d4.free = d.free + 1 := by
    rw [hd4]
    show d3.free + 1 = _
    rw [he2.free_eq]
  have hactive : d4.active = d.active := hx4.active.trans he2.active
  have h4 : d4.Ready source depth fun m => waiting m ∨ m ∈ (Expr.plain (.pending pc)).jumps :=
    ⟨hg4.wait fun _ => .inl, by omega⟩
  refine Writes.topRegister ?_
  refine (h4.toRegister (Draft.value_ext hok rfl hx4 (by rw [hd4])) (by omega)).andThen
    ?_
  rintro _ d5 ⟨h5, hx5, hf5⟩
  refine Writes.pure ?_
  refine ⟨h5, hg1.trans (he2.toExtends.trans (hx4.trans hx5)).grows,
    (he2.toExtends.trans (hx4.trans hx5)).upvalues, ?_, ?_⟩
  · rw [hf5 rfl]
    omega
  · omega

theorem openFunction_leads {line : Nat} :
    Leads (openFunction line) w fun _ w' => ∃ d, w' = ⟨d, w.fn :: w.outer, w.source⟩ ∧ Blank d ∧
      d.active = 0 ∧ d.upvalues = #[] := by
  refine Leads.bind (Leads.modify fun s hs => ?_)
  subst hs
  refine Leads.ofWrites Writes.enterBlock fun _ d hd => ?_
  obtain ⟨-, rfl⟩ := hd
  exact ⟨_, rfl, ⟨rfl, rfl, rfl, rfl, rfl, rfl, rfl, rfl, rfl, rfl⟩, rfl, rfl⟩

theorem CapturedAll.cons_inv {d : Draft} {ds ds' : List Draft} (h : CapturedAll (d :: ds) ds') :
    ∃ d' es, ds' = d' :: es ∧ d.Captured d' ∧ CapturedAll ds es := by
  cases h with
  | cons hd ht => exact ⟨_, _, rfl, hd, ht⟩

theorem closeFunction_leads {d parent : Draft} {outer : List Draft} {source : Bytes} {b : Block}
    (hd : d.Settled source n fun _ => False) (hb : d.blocks = [b]) (hloop : b.isLoop = false)
    (hgoto : b.firstGoto = 0) (hparams : d.params ≤ d.maxStack)
    (hl : Linked (d :: parent :: outer)) (hn : n < depth)
    (hp : parent.Good source depth waiting)
    (ha : parent.active ≤ max parent.maxStack (parent.free + 1)) :
    Leads closeFunction ⟨d, parent :: outer, source⟩ fun reg w' =>
      w'.Fit depth waiting ∧ Drafts.Steps ⟨parent, outer, source⟩ w' ∧ reg + 1 = w'.fn.free ∧
        parent.free ≤ reg := by
  refine Leads.write (hd.closeBody hb hloop hgoto hparams) ?_
  rintro _ d1 ⟨hmade, hdepth, hu⟩
  refine Leads.get fun s hs => ?_
  have hfn : s.fn = d1 := congrArg Drafts.fn hs
  have houter : s.outer = parent :: outer := congrArg Drafts.outer hs
  have hsource : s.source = source := congrArg Drafts.source hs
  split
  · exact Leads.failNear
  next p o ho =>
  rw [houter] at ho
  cases ho
  refine Leads.bind (Leads.set ?_)
  dsimp only
  split
  · exact Leads.failLimit
  next hlimit =>
  have hup : ∀ u ∈ (s.fn.finish s.source).upvalues, parent.Gives u := by
    intro u hm
    rw [hfn] at hm
    refine hl.1 u ?_
    rw [← hu]
    simpa [Draft.finish] using hm
  have hwrites := closure_writes (p := s.fn.finish s.source) hp ha (by omega)
    (by rw [hfn, hsource]; exact ⟨hmade, hdepth.mono hn⟩) hup
  refine Leads.ofWrites (w := ⟨parent, outer, s.source⟩) hwrites ?_
  rintro reg d' ⟨hr, hgrows, hu', hreg, hle⟩
  rw [hsource]
  exact ⟨⟨hr, hl.tail.head hu'⟩, ⟨hgrows, .refl _, rfl⟩, hreg, hle⟩

/-- **A nested function is fit to run, and its closure is made.** The functions around it have at most
    been captured from. -/
theorem Ok.functionBody (hg : g.Ok n) (hn : n < depth) {isMethod : Bool} {line : Nat}
    (h : w.fn.Good w.source depth waiting)
    (ha : w.fn.active ≤ max w.fn.maxStack (w.fn.free + 1)) (hl : Linked (w.fn :: w.outer)) :
    Leads (g.functionBody isMethod line) w fun reg w' => w'.Fit depth waiting ∧ w.Steps w' ∧
      reg + 1 = w'.fn.free ∧ w.fn.free ≤ reg := by
  refine openFunction_leads.andThen fun _ w1 ⟨d1, hw1, h₁, ha1, hu1⟩ => ?_
  subst hw1
  refine Leads.read Reads.checkNext fun _ => ?_
  extract_lets next
  -- from the parameters on
  have hnext : ∀ d2 u, Blank d2 → d2.upvalues = #[] →
      Leads (next u) ⟨d2, w.fn :: w.outer, w.source⟩ fun reg w' => w'.Fit depth waiting ∧ w.Steps w' ∧
        reg + 1 = w'.fn.free ∧ w.fn.free ≤ reg := by
    intro d2 u h₂ hu2
    refine (parameters_leads w.source n (fun _ => False) h₂ rfl hu2).andThen fun _ w3 ⟨d3, hw3, h₃, hu3, hp3, hf3, hb3⟩ => ?_
    subst hw3
    have hat : Drafts.At n (fun _ => False) ⟨d3, w.fn :: w.outer, w.source⟩ :=
      ⟨⟨h₃, by simp [hu3], hl⟩, Nat.le_of_eq hf3.symm⟩
    refine Leads.read Reads.checkNext fun _ => ?_
    refine (hg.statements (Nat.le_refl n) hat).andThen fun _ w4 ⟨h4, hfol⟩ => ?_
    refine Leads.read Reads.line fun last => Leads.bind (Leads.modifyFn ?_)
    refine Leads.read Reads.checkMatch fun _ => ?_
    obtain ⟨parent, outer, houter, hcap, hcaps⟩ := CapturedAll.cons_inv hfol.outer
    obtain ⟨d4, o4, s4⟩ := w4
    have hsource : s4 = w.source := hfol.source
    have houter : o4 = parent :: outer := houter
    subst hsource
    subst houter
    obtain ⟨b, hb, hloop, hgoto⟩ : ∃ b : Block, d4.blocks = [b] ∧ b.isLoop = false ∧
        b.firstGoto = 0 := by
      obtain ⟨level, hm⟩ := hfol.fn.blocks
      rw [hb3] at hm
      generalize d4.blocks = bs at hm
      cases hm with
      | cons hb ht =>
        cases ht with
        | nil => exact ⟨_, rfl, hb.isLoop, hb.firstGoto⟩
    have hparams : d4.params ≤ d4.maxStack := by
      have h1 : d4.params = d3.params := hfol.fn.params
      have h2 : d3.maxStack ≤ d4.maxStack := hfol.fn.maxStack
      omega
    have hsteady : d4.Steady { d4 with lastLine := last } :=
      .of_code rfl rfl rfl rfl rfl rfl rfl rfl rfl rfl rfl
    have hparent : parent.Good w.source depth waiting ∧
        parent.active ≤ max parent.maxStack (parent.free + 1) := by
      have hgood := hcap.goodFor h
      obtain ⟨bs, us, rfl, -⟩ := hcap
      exact ⟨hgood, ha⟩
    refine (closeFunction_leads (h4.settled.steady hsteady rfl rfl rfl) hb hloop hgoto hparams
      (h4.linked.head rfl) hn hparent.1 hparent.2).imp fun reg w' ⟨hf', hs', hreg, hle⟩ => ?_
    refine ⟨hf', ⟨hcap.grows.trans hs'.fn, hcaps.trans hs'.outer, hs'.source⟩, hreg, ?_⟩
    obtain ⟨bs, us, rfl, -⟩ := hcap
    exact hle
  split
  · refine Leads.write (Writes.declareBlank h₁) fun _ d2 ⟨h₂, _, hu2⟩ => ?_
    refine Leads.write Writes.activate fun u d3 ⟨ls, hd3⟩ => hnext d3 u ?_ ?_
    · subst hd3
      exact ⟨h₂.code, h₂.lines, h₂.constants, h₂.protos, h₂.maxStack, h₂.free, h₂.here, h₂.labels,
        h₂.gotos, h₂.blocks⟩
    · subst hd3
      exact hu2.trans hu1
  · exact hnext d1 () h₁ hu1

/-! ## 4. Calls -/

def Passed (depth : Nat) (waiting : Nat → Prop) (w : Drafts) (e : Expr) (w' : Drafts) : Prop :=
  (e.place.isMulti ∨ e.place = .void) ∧ w'.Fit depth waiting ∧ w.Steps w' ∧ w.fn.free ≤ w'.fn.free ∨
    Yields depth waiting w e w'

theorem Passed.fit {w' : Drafts} {e : Expr} (h : Passed depth waiting w e w')
    (he : e.place.isMulti ∨ e.place = .void) :
    w'.Fit depth waiting ∧ w.Steps w' ∧ w.fn.free ≤ w'.fn.free := by
  rcases h with ⟨-, h⟩ | hy
  · exact h
  · refine ⟨hy.fit.wait fun m hm => ?_, hy.steps, hy.above.free⟩
    rcases he with he | he
    · rw [hy.ok.jumps_eq_nil (Place.not_value_of_multi he)] at hm
      simpa using hm
    · have := hy.ok.place
      rw [he] at this
      exact this.elim

theorem Ok.arguments (hg : g.Ok n) (hn : n ≤ depth) {line : Nat} (h : w.Fit depth waiting) :
    Leads (g.arguments line) w fun e w' => Passed depth waiting w e w' := by
  refine Leads.read Reads.token fun t => ?_
  split
  · refine Leads.read Reads.next fun _ => Leads.read Reads.token fun t => ?_
    extract_lets next
    have hnext : ∀ e w1, Passed depth waiting w e w1 → Leads (next e) w1 fun e w' =>
        Passed depth waiting w e w' :=
      fun e w1 hp => Leads.read Reads.checkMatch fun _ => Leads.pure hp
    split
    · exact hnext _ w (.inl ⟨.inr rfl, h, .refl w, Nat.le_refl _⟩)
    · refine (hg.exprs hn h).andThen ?_
      rintro ⟨count, e⟩ w1 hl
      cases hm : e.place.isMulti with
      | true =>
        refine Leads.write (hl.fit.ready.setReturns hl.ok hm) ?_
        rintro _ d ⟨hgood, hx, hle, _, _⟩
        have hr : d.Ready w1.source depth waiting := by
          have := hgood.stocked.free
          refine ⟨hgood.mono (by simp only [Option.getD]; omega), ?_⟩
          rw [hx.active]
          exact Nat.le_trans hl.fit.ready.active hx.maxStack
        refine hnext _ _ (.inl ⟨.inl hm, hl.fit.write hx hr, hl.steps.trans (.write hx), ?_⟩)
        have h1 : w.fn.free + count - 1 ≤ w1.fn.free := hl.above.free
        have h2 : 1 ≤ count := hl.count
        show w.fn.free ≤ d.free
        omega
      | false =>
        have hskip : setReturns e none = pure () := by
          unfold setReturns
          cases hp : e.place <;> first | rfl | simp [hp, Place.isMulti] at hm
        dsimp only
        rw [hskip]
        refine Leads.bind (Leads.pure (hnext _ _ (.inr ⟨hl.fit, hl.steps, hl.ok, hl.above.mono ?_⟩)))
        have : 1 ≤ count := hl.count
        show w.fn.free ≤ w.fn.free + count - 1
        omega
  · exact (hg.constructor' hn h).imp fun _ _ => .inr
  · refine Leads.write (h.ready.addConstant _) ?_
    rintro k d ⟨hr, hx, hk, ks, hd⟩
    refine Leads.read Reads.next fun _ => Leads.pure (.inr ?_)
    exact yields_constant h hr hx (by rw [hd]) hk
  · exact Leads.failNear

theorem emitCall {w' : Drafts} {base line : Nat} {count : Option Nat} (h : w'.Fit depth waiting)
    (hs : w.Steps w') (hb : base < w.fn.free) (hf : w.fn.free ≤ w'.fn.free)
    (hc : base + 1 + count.getD 0 ≤ w'.fn.free) :
    Leads (do
      let pc ← emitABC .call base (Operand.ofCount count) 2
      fixLine line
      modifyFn fun d => { d with free := base + 1 }
      return Expr.plain (.call pc)) w' fun e w'' => w''.Fit depth (fun m => waiting m ∨ m ∈ e.jumps) ∧
        w.Steps w'' ∧ e.Ok w''.fn ∧ e.place.Above w''.fn base := by
  have hmax := h.ready.good.stocked.free
  have hhigh := h.ready.good.stocked.high
  have hfits : (Instr.ofABC .call base (Operand.ofCount count) 2).Fits (w'.fn.room w'.fn.maxStack) := by
    simp only [Instr.Fits, Instr.opcode_ofABC, Instr.a_ofABC, Instr.b_ofABC, Instr.c_ofABC, Draft.room]
    have h1 := Nat.mod_le base 256
    have h2 := Nat.mod_le (Operand.ofCount count) 512
    have h3 : base + Operand.ofCount count ≤ w'.fn.maxStack := by
      cases count with
      | none => simp only [Operand.ofCount]; omega
      | some k => simp only [Operand.ofCount, Option.getD] at hc ⊢; omega
    omega
  refine Leads.write (h.ready.good.emit (Instr.plain_ofABC rfl ..) hfits) ?_
  rintro pc d1 ⟨hpc, hg1, he1⟩
  refine Leads.write hg1.fixLine ?_
  rintro _ d2 ⟨hg2, hs2, hcode, _⟩
  have hs12 := he1.toSteady.trans hs2
  have hle : base + 1 ≤ d2.free := by
    rw [hs12.free_eq]
    omega
  have hr := (h.ready.steady hs12 hg2).lower hle
  have hx := hs12.toExtends.trans (.lower d2 (base + 1))
  have hlast : d2.code[pc]? = some (Instr.ofABC .call base (Operand.ofCount count) 2) := by
    rw [hcode, hpc]
    exact he1.last
  have ha : base % 256 = base := by omega
  refine Leads.bind (Leads.modifyFn (Leads.pure ⟨(h.write hx hr).wait fun _ => .inl,
    hs.trans (.write hx), ⟨⟨_, hlast, by simp, ?_⟩, by rintro _ ⟨⟩, fun _ => ⟨rfl, rfl⟩⟩, ⟨Nat.le_refl _, by rintro _ _ ⟨⟩, ?_⟩⟩))
  · rw [Instr.a_ofABC, ha]
    exact Nat.lt_succ_self base
  · rintro _ i ⟨⟩ hi
    rw [hlast] at hi
    cases hi
    exact Nat.le_of_eq (by rw [Instr.a_ofABC, ha])

/-- **A call.** One register is left, for its first result. -/
theorem Ok.call (hg : g.Ok n) (hn : n ≤ depth) {base line : Nat} (h : w.Fit depth waiting)
    (hb : base < w.fn.free) :
    Leads (g.call base line) w fun e w' => w'.Fit depth (fun m => waiting m ∨ m ∈ e.jumps) ∧
      w.Steps w' ∧ e.Ok w'.fn ∧ e.place.Above w'.fn base := by
  refine (hg.arguments hn h).andThen fun args w1 hp => ?_
  extract_lets next count
  have hnext : ∀ count w2, w2.Fit depth waiting → w.Steps w2 → w.fn.free ≤ w2.fn.free →
      base + 1 + count.getD 0 ≤ w2.fn.free → Leads (next count) w2 fun e w' =>
        w'.Fit depth (fun m => waiting m ∨ m ∈ e.jumps) ∧ w.Steps w' ∧ e.Ok w'.fn ∧
        e.place.Above w'.fn base :=
    fun count w2 h₂ hs hf hc => emitCall h₂ hs hb hf hc
  split
  · next hm =>
    obtain ⟨h₁, hs1, hf1⟩ := hp.fit (.inl hm)
    exact hnext none w1 h₁ hs1 hf1 (by simp only [Option.getD]; omega)
  · have hcount : ∀ u w2, w2.Fit depth waiting → w.Steps w2 → w.fn.free ≤ w2.fn.free →
        Leads (count u) w2 fun e w' => w'.Fit depth (fun m => waiting m ∨ m ∈ e.jumps) ∧ w.Steps w' ∧
          e.Ok w'.fn ∧ e.place.Above w'.fn base := by
      intro u w2 h₂ hs hf
      refine Leads.demanding fun _ => Leads.get fun s hst => ?_
      refine Leads.bind (Leads.pure (hnext _ w2 h₂ hs hf ?_))
      have : s.fn = w2.fn := congrArg Drafts.fn hst
      rw [this]
      simp only [Option.getD]
      omega
    split
    · next hv =>
      have hy : Yields depth waiting w args w1 := by
        rcases hp with ⟨h1, -⟩ | hy
        · exact absurd h1 (by simp_all)
        · exact hy
      refine Leads.bind (Leads.discard ?_)
      refine Leads.ofWrites (hy.fit.ready.toNextRegister hy.ok) fun reg d ⟨hr, hx, hreg, hab⟩ => ?_
      refine hcount () _ (hy.fit.write hx hr) (hy.steps.trans (.write hx)) ?_
      have := hab _ hy.above
      show w.fn.free ≤ d.free
      omega
    · next hv =>
      obtain ⟨h₁, hs1, hf1⟩ := hp.fit (.inr (Decidable.not_not.mp hv))
      exact hcount () w1 h₁ hs1 hf1

/-! ## 5. Expressions -/

theorem Ok.primary (hg : g.Ok n) (hn : n ≤ depth) (h : w.Fit depth waiting) :
    Leads g.primary w fun e w' => Yields depth waiting w e w' := by
  refine Leads.read Reads.token fun t => ?_
  split
  · refine Leads.read Reads.checkName fun name => ?_
    rw [hg.name]
    exact h.named.imp fun _ _ hy => hy.1
  · refine Leads.read Reads.line fun line => Leads.read Reads.next fun _ => ?_
    refine (hg.expr hn h).andThen fun e w1 hy => ?_
    refine Leads.read Reads.checkMatch fun _ => ?_
    exact (hy.fit.turned ((hy.fit.ready.readVariable hy.ok).imp fun _ _ h => h.1)).imp
      fun _ _ => hy.turned
  · exact Leads.failNear

theorem Ok.callOf (hg : g.Ok n) (hn : n ≤ depth) {base line : Nat} (hs : w₀.Steps w)
    (h : w.Fit depth waiting) (hb : base < w.fn.free) (hf : w₀.fn.free ≤ base) :
    Leads (g.call base line) w fun e w' => Yields depth waiting w₀ e w' :=
  (hg.call hn h hb).imp fun _ _ ⟨h', hs', hok, hab⟩ => ⟨h', hs.trans hs', hok, hab.mono hf⟩

theorem Ok.suffixesFrom (hg : g.Ok n) (hn : n ≤ depth) {line m : Nat} {e : Expr}
    (h : Yields depth waiting w₀ e w) :
    Leads (g.suffixesFrom line m e) w fun e' w' => Yields depth waiting w₀ e' w' := by
  induction m generalizing w e with
  | zero => exact Leads.failNear
  | succ m ih =>
    unfold Grammar.suffixesFrom
    have hcall : Leads (do
        let base ← toNextRegister e
        suffixesFrom g line m (← g.call base line)) w fun e' w' => Yields depth waiting w₀ e' w' := by
      refine Leads.write (h.fit.ready.toNextRegister h.ok) ?_
      rintro base d ⟨hr, hx, hreg, hab⟩
      have hle := hab _ h.above
      exact (hg.callOf hn (h.steps.trans (.write hx)) (h.fit.write hx hr)
        (by show base < d.free; omega) hle).andThen fun e' w2 hy => ih hy
    refine Leads.read Reads.token fun t => ?_
    split
    · exact (field_leads h.fit h.ok).andThen fun e' w1 ht => ih (h.turned ht.1)
    · refine Leads.write (h.fit.ready.toRegisterOrUpvalue h.ok) ?_
      rintro table d ⟨ht, hj, hp⟩
      have h₁ : Drafts.Fit depth waiting { w with fn := d } :=
        h.fit.write ht.ext (ht.ready.wait fun m hm => by simpa [hj] using hm)
      refine (hg.bracketKey hn h₁).andThen fun key w2 hy => ?_
      have hok : table.place.Ok w2.fn := hy.steps.table hp ht.ok.place
      have hnil : table.onTrue = [] ∧ table.onFalse = [] := by
        simp only [Expr.jumps, List.append_eq_nil_iff] at hj
        exact hj.1
      refine Leads.write (Draft.Ready.indexed hy.fit.ready hy.ok hok hnil (hp.imp_right .inr)) ?_
      rintro e' d3 ⟨hr3, hx3, hok3, hj3, _, hab3⟩
      refine ih ?_
      have hsteps := ((h.steps.trans (.write ht.ext)).trans hy.steps).trans (.write hx3)
      refine ⟨hy.fit.write hx3 (hr3.wait fun _ => .inl), hsteps, hok3, hab3 _ (hy.above.mono ?_)⟩
      have hcost := (ht.above _ h.above).cost
      rw [hy.steps.fn.active]
      exact hcost
    · refine Leads.read Reads.next fun _ => ?_
      refine (nameConstant_leads h.fit).andThen ?_
      rintro key w1 ⟨d1, k, hw1, hkey, hr1, hx1, hf1, hk, hc1⟩
      subst hw1
      subst hkey
      obtain ⟨hok1, hab1⟩ := ok_of_code h.ok hx1 hc1 hf1
      refine Leads.write (hr1.method hok1 hk) ?_
      rintro f d2 ⟨hr2, hx2, base, hf, hfree, hab2⟩
      subst hf
      have hx := hx1.trans hx2
      have hle := hab2 _ (hab1 _ h.above)
      refine (hg.callOf hn (h.steps.trans (.write hx)) (h.fit.write hx hr2)
        (by show base < d2.free; omega) hle).andThen fun e' w2 hy => ih hy
    · exact hcall
    · exact hcall
    · exact hcall
    · exact Leads.pure h

theorem Ok.suffixed (hg : g.Ok n) (hn : n ≤ depth) (h : w.Fit depth waiting) :
    Leads g.suffixed w fun e w' => Yields depth waiting w e w' :=
  Leads.read Reads.line fun _ => (hg.primary hn h).andThen fun _ _ hy => hg.suffixesFrom hn hy

theorem literal_leads {p : Place} (h : Yields depth waiting w₀ (.plain p) w) :
    Leads (simple.literal p) w fun e w' => Yields depth waiting w₀ e w' :=
  Leads.read Reads.next fun _ => Leads.pure h

theorem yields_literal {p : Place} (h : w.Fit depth waiting)
    (hp : p = .nil ∨ (∃ b, p = .bool b) ∨ (∃ i, p = .int i) ∨ ∃ x, p = .float x) :
    Yields depth waiting w (.plain p) w := by
  rcases hp with rfl | ⟨b, rfl⟩ | ⟨i, rfl⟩ | ⟨x, rfl⟩ <;>
    exact ⟨h.wait fun _ => .inl, .refl w, ⟨trivial, nofun, nofun⟩, ⟨Nat.le_refl _, nofun, nofun⟩⟩

theorem dots_leads (h : w.Fit depth waiting) :
    Leads (do
      if (← get).fn.isVararg then
        let pc ← Compile.emitABC .vararg 0 1 0
        simple.literal (.varargs pc)
      else Compile.failNear .dotsOutsideVararg) w fun e w' => Yields depth waiting w e w' := by
  refine Leads.get fun s _ => ?_
  split
  · have hfits : (Instr.ofABC .vararg 0 1 0).Fits (w.fn.room w.fn.maxStack) := by
      have := h.ready.good.stocked.low
      simp only [Instr.Fits, Instr.opcode_ofABC, Instr.a_ofABC, Instr.b_ofABC, Draft.room]
      omega
    refine Leads.write (h.ready.good.emit (Instr.plain_ofABC rfl ..) hfits) ?_
    rintro pc d ⟨hpc, hg1, he⟩
    refine literal_leads ?_
    have hr := h.ready.steady he.toSteady hg1
    refine ⟨h.write he.toExtends (hr.wait fun _ => .inl), .write he.toExtends,
      ⟨⟨_, by rw [hpc]; exact he.last, by simp⟩, by rintro _ ⟨⟩, fun _ => ⟨rfl, rfl⟩⟩,
      ⟨Nat.le_of_eq he.free_eq.symm, by rintro _ _ ⟨⟩, by rintro _ _ ⟨⟩⟩⟩
  · exact Leads.failNear

theorem Ok.lambda (hg : g.Ok n) (hn : n < depth) (h : w.Fit depth waiting) :
    Leads (do
      Compile.next
      let line ← Compile.line
      return .plain (.fixed (← g.functionBody false line))) w fun e w' => Yields depth waiting w e w' := by
  refine Leads.read Reads.next fun _ => Leads.read Reads.line fun line => ?_
  have ha : w.fn.active ≤ max w.fn.maxStack (w.fn.free + 1) :=
    Nat.le_trans h.ready.active (Nat.le_max_left ..)
  refine (hg.functionBody hn h.ready.good ha h.linked).andThen fun reg w1 ⟨h₁, hs1, hreg, hle⟩ =>
    Leads.pure ⟨h₁.wait fun _ => .inl, hs1, ⟨?_, nofun, nofun⟩, ⟨?_, nofun, nofun⟩⟩
  · show reg < w1.fn.maxStack
    have := h₁.ready.good.stocked.free
    omega
  · show w.fn.free + Operand.cost _ reg ≤ w1.fn.free
    have := Operand.cost_le w1.fn.active reg
    omega

/-- **An operand keeps the drafts good.** -/
theorem Ok.simple (hg : g.Ok n) (hn : n < depth) (h : w.Fit depth waiting) :
    Leads g.simple w fun e w' => Yields depth waiting w e w' := by
  refine Leads.read Reads.token fun t => ?_
  have hsuffixed := hg.suffixed (Nat.le_of_lt hn) h
  cases t with
  | float x => exact literal_leads (yields_literal h (.inr (.inr (.inr ⟨_, rfl⟩))))
  | int i => exact literal_leads (yields_literal h (.inr (.inr (.inl ⟨_, rfl⟩))))
  | str s =>
    refine Leads.write (h.ready.addConstant _) fun k d ⟨hr, hx, hk, ks, hd⟩ => ?_
    exact literal_leads (yields_constant h hr hx (by rw [hd]) hk)
  | keyword word =>
    cases word with
    | nil => exact literal_leads (yields_literal h (.inl rfl))
    | true => exact literal_leads (yields_literal h (.inr (.inl ⟨_, rfl⟩)))
    | false => exact literal_leads (yields_literal h (.inr (.inl ⟨_, rfl⟩)))
    | function => exact hg.lambda hn h
    | _ => exact hsuffixed
  | symbol mark =>
    cases mark with
    | dots => exact dots_leads h
    | lbrace => exact hg.constructor' (Nat.le_of_lt hn) h
    | _ => exact hsuffixed
  | _ => exact hsuffixed

theorem Ok.operatorsFrom (hg : g.Ok n) (hn : n ≤ depth) {limit m : Nat} {e : Expr} {op : Option BinOp}
    (h : Yields depth waiting w₀ e w) (hop : ∀ o, op = some o → o.isBinary) :
    Leads (g.operatorsFrom limit m e op) w fun r w' => Yields depth waiting w₀ r.1 w' ∧
      ∀ o, r.2 = some o → o.isBinary := by
  induction m generalizing w e op with
  | zero =>
    unfold Grammar.operatorsFrom
    exact Leads.failNear
  | succ m ih =>
    cases op with
    | none => exact Leads.pure ⟨h, nofun⟩
    | some op =>
      unfold Grammar.operatorsFrom
      split
      · exact Leads.pure ⟨h, hop⟩
      · refine Leads.read Reads.line fun line => Leads.read Reads.next fun _ => ?_
        refine Leads.write (h.fit.ready.beforeRight h.ok) fun e1 d1 ⟨hr1, hx1, hleft, hcost, hcat⟩ => ?_
        have h₁ := h.fit.write hx1 hr1
        refine (hg.subexpr op.priority.2 hn h₁).andThen fun ⟨e2, following⟩ w2 ⟨hy, hfol⟩ => ?_
        have hleft2 := hleft.mono hy.steps.fn.kept hy.steps.fn.maxStack hy.steps.fn.constants
        refine Leads.write (hy.fit.ready.afterRight hleft2 hy.ok hy.above (hop op rfl) hcat)
          fun e' d3 ⟨hr3, hx3, hok3, hab3⟩ => ih ?_ hfol
        have hsteps := (h.steps.trans (.write hx1)).trans (hy.steps.trans (.write hx3))
        refine ⟨hy.fit.write hx3 hr3, hsteps, hok3, hab3 _ ?_⟩
        rw [hy.steps.fn.active]
        exact hcost _ h.above

/-- **Any expression keeps the drafts good.** -/
theorem Ok.expressionBody (hg : g.Ok n) (hn : n < depth) {limit : Nat} (h : w.Fit depth waiting) :
    Leads (g.expressionBody limit) w fun r w' => Yields depth waiting w r.1 w' ∧
      ∀ op, r.2 = some op → op.isBinary := by
  refine Leads.read Reads.token fun t => ?_
  extract_lets next
  have hnext : ∀ e w1, Yields depth waiting w e w1 → Leads (next e) w1 fun r w' =>
      Yields depth waiting w r.1 w' ∧ ∀ op, r.2 = some op → op.isBinary :=
    fun e w1 hy => Leads.read Reads.token fun t =>
      hg.operatorsFrom (Nat.le_of_lt hn) hy fun op ho => BinOp.isBinary_ofToken ho
  split
  · refine Leads.read Reads.line fun line => Leads.read Reads.next fun _ => ?_
    refine (hg.subexpr _ (Nat.le_of_lt hn) h).andThen fun ⟨e, _⟩ w1 ⟨hy, _⟩ => ?_
    exact ((hy.fit.turned (hy.fit.ready.unary hy.ok)).imp fun _ _ => hy.turned).andThen hnext
  · exact (hg.simple hn h).andThen hnext

end Grammar

end LuaMachine
