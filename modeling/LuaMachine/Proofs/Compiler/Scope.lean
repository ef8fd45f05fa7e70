/-
  NAMES, AND WHAT A NESTED FUNCTION DOES TO THOSE AROUND IT. Resolving a name may mark blocks and add
  upvalues in every function on the way; nothing else of them changes.
-/
import LuaMachine.Compiler.Scope
import LuaMachine.Proofs.Compiler.Operator

namespace LuaMachine

/-! ## 1. Captures -/

/-- The same block, which may have been marked for a register below `level`. -/
structure Block.Marks (level : Nat) (b b' : Block) : Prop where
  firstLabel : b'.firstLabel = b.firstLabel
  firstGoto : b'.firstGoto = b.firstGoto
  active : b'.active = b.active
  isLoop : b'.isLoop = b.isLoop
  captured : b'.captured → b.captured ∨ b.active < level
  kept : b.captured → b'.captured

inductive Marked (active : Nat) : List Block → List Block → Prop where
  | nil : Marked active [] []
  | cons {b b' : Block} {bs bs' : List Block} (head : b.Marks active b') (tail : Marked active bs bs') :
      Marked active (b :: bs) (b' :: bs')

namespace Marked

variable {active : Nat} {bs bs' bs'' : List Block}

theorem refl (active : Nat) : ∀ bs, Marked active bs bs
  | [] => nil
  | _ :: bs => cons ⟨rfl, rfl, rfl, rfl, .inl, id⟩ (refl active bs)

theorem trans (h : Marked active bs bs') (h' : Marked active bs' bs'') : Marked active bs bs'' := by
  induction h generalizing bs'' with
  | nil => exact h'
  | cons hb _ ih =>
    cases h' with
    | cons hb' ht =>
      refine cons ⟨hb'.firstLabel.trans hb.firstLabel, hb'.firstGoto.trans hb.firstGoto,
        hb'.active.trans hb.active, hb'.isLoop.trans hb.isLoop, fun hc => ?_,
        fun hc => hb'.kept (hb.kept hc)⟩ (ih ht)
      rcases hb'.captured hc with hc | hc
      · exact hb.captured hc
      · exact .inr (hb.active ▸ hc)

theorem mono {active' : Nat} (h : Marked active bs bs') (ha : active ≤ active') :
    Marked active' bs bs' := by
  induction h with
  | nil => exact nil
  | cons hb _ ih =>
    refine cons ⟨hb.firstLabel, hb.firstGoto, hb.active, hb.isLoop, fun hc => ?_, hb.kept⟩ ih
    exact (hb.captured hc).imp_right fun h => by omega

theorem of_mem (h : Marked active bs bs') {b' : Block} (hm : b' ∈ bs') :
    ∃ b ∈ bs, b.Marks active b' := by
  induction h with
  | nil => exact nomatch hm
  | @cons b c bs cs hb _ ih =>
    rcases List.mem_cons.mp hm with rfl | hm
    · exact ⟨b, by simp, hb⟩
    · obtain ⟨b, hb, hm⟩ := ih hm
      exact ⟨b, by simp [hb], hm⟩

theorem markBlock {reg : Nat} (h : reg < active) (bs : List Block) :
    Marked active bs (Draft.markBlock reg bs) := by
  induction bs with
  | nil => exact nil
  | cons b rest ih =>
    unfold Draft.markBlock
    split
    · exact cons ⟨rfl, rfl, rfl, rfl, fun _ => .inr (by omega), fun _ => rfl⟩ (refl active rest)
    · exact cons ⟨rfl, rfl, rfl, rfl, .inl, id⟩ ih

end Marked

namespace Draft

def Captured (d d' : Draft) : Prop :=
  ∃ blocks upvalues, d' = { d with blocks := blocks, upvalues := upvalues } ∧
    Marked d.active d.blocks blocks ∧ d.upvalues.toList <+: upvalues.toList ∧
    (d.upvalues.size ≤ 255 → upvalues.size ≤ 255)

variable {d d' : Draft}

theorem Captured.refl (d : Draft) : d.Captured d :=
  ⟨d.blocks, d.upvalues, rfl, .refl _ _, List.prefix_refl _, id⟩

theorem Captured.trans {d'' : Draft} (h : d.Captured d') (h' : d'.Captured d'') : d.Captured d'' := by
  obtain ⟨b, u, rfl, hb, hu, hn⟩ := h
  obtain ⟨b', u', rfl, hb', hu', hn'⟩ := h'
  exact ⟨b', u', rfl, hb.trans hb', hu.trans hu', fun h => hn' (hn h)⟩

theorem Captured.upvalues_le (h : d.Captured d') : d.upvalues.size ≤ d'.upvalues.size := by
  obtain ⟨b, u, rfl, -, hu, -⟩ := h
  simpa using hu.length_le

theorem Captured.room (h : d.Captured d') (registers : Nat) :
    (d.room registers).Le (d'.room registers) := by
  have hle := h.upvalues_le
  obtain ⟨b, u, rfl, -⟩ := h
  exact ⟨Nat.le_refl _, Nat.le_refl _, hle, List.prefix_refl _⟩

theorem Captured.goodFor {registers : Nat} {source : Bytes} {depth : Nat} {waiting : Nat → Prop}
    (h : d.GoodFor registers source depth waiting) (hc : d.Captured d') :
    d'.GoodFor registers source depth waiting := by
  have hroom := hc.room registers
  obtain ⟨b, u, rfl, hb, -, hn⟩ := hc
  have hs := h.stocked
  refine ⟨h.written.transport rfl rfl hroom (Nat.le_refl _) fun _ => id, ?_, h.here⟩
  refine ⟨hs.low, hs.high, hs.free, hs.constants, hn hs.upvalues, hs.count, hs.protos, fun c hc h => ?_⟩
  obtain ⟨b, hb, hm⟩ := hb.of_mem hc
  rw [hm.active]
  rcases hm.captured h with h | h
  · exact hs.captured b hb h
  · exact Nat.lt_of_lt_of_le h (Nat.le_max_right ..)

end Draft

inductive CapturedAll : List Draft → List Draft → Prop where
  | nil : CapturedAll [] []
  | cons {d d' : Draft} {ds ds' : List Draft} (head : d.Captured d') (tail : CapturedAll ds ds') :
      CapturedAll (d :: ds) (d' :: ds')

namespace CapturedAll

theorem refl : ∀ ds, CapturedAll ds ds
  | [] => nil
  | d :: ds => cons (.refl d) (refl ds)

theorem trans {ds ds' ds'' : List Draft} (h : CapturedAll ds ds') (h' : CapturedAll ds' ds'') :
    CapturedAll ds ds'' := by
  induction h generalizing ds'' with
  | nil => exact h'
  | cons hd _ ih =>
    cases h' with
    | cons hd' ht => exact cons (hd.trans hd') (ih ht)

end CapturedAll

/-! ## 2. Upvalues and the functions around -/

def Draft.Gives (d : Draft) (u : UpvalueDesc) : Prop :=
  if u.inStack then u.index.toNat < d.active else u.index.toNat < d.upvalues.size

/-- Each upvalue of a function is found in the function around it, and the outermost function has
    the environment. -/
def Linked : List Draft → Prop
  | [] => True
  | [d] => ∃ u ∈ d.upvalues, u.name = some Compile.environmentName
  | d :: p :: rest => (∀ u ∈ d.upvalues, p.Gives u) ∧ Linked (p :: rest)

theorem Draft.Gives.captured {d d' : Draft} {u : UpvalueDesc} (h : d.Gives u) (hc : d.Captured d') :
    d'.Gives u := by
  have hle := hc.upvalues_le
  obtain ⟨b, us, rfl, -⟩ := hc
  unfold Draft.Gives at *
  split
  · next hs =>
    rw [if_pos hs] at h
    exact h
  · next hs =>
    rw [if_neg hs] at h
    exact Nat.lt_of_lt_of_le h hle

theorem Linked.head {d d' : Draft} {outer : List Draft} (h : Linked (d :: outer))
    (hu : d'.upvalues = d.upvalues) : Linked (d' :: outer) := by
  cases outer with
  | nil =>
    unfold Linked at *
    rw [hu]
    exact h
  | cons p rest =>
    unfold Linked at *
    rw [hu]
    exact h

theorem Linked.tail {d : Draft} {outer : List Draft} (h : Linked (d :: outer)) : Linked outer := by
  cases outer with
  | nil => trivial
  | cons p rest => exact h.2

def Variable.In (d : Draft) : Variable → Prop
  | register r => r < d.active
  | upvalue i => i < d.upvalues.size

namespace Draft

variable {d : Draft} {name : Bytes}

theorem findLocal_lt {r : Nat} (h : d.findLocal? name = some r) : r < d.active := by
  have hbelow : ∀ n, d.findBelow name n = some r → r < n := by
    intro n
    induction n with
    | zero => exact nofun
    | succ n ih =>
      intro h
      unfold findBelow at h
      split at h
      · cases h
        exact Nat.lt_succ_self _
      · exact Nat.lt_succ_of_lt (ih h)
  exact hbelow _ h

theorem findUpvalue_lt {i : Nat} (h : d.findUpvalue? name = some i) : i < d.upvalues.size :=
  (Array.findIdx?_eq_some_iff_getElem.mp h).1

theorem captured_addUpvalue (v : Variable) (h : d.upvalues.size + 1 ≤ 255) :
    d.Captured (d.addUpvalue name v) :=
  ⟨d.blocks, _, rfl, .refl _ _, by simp, fun _ => by simpa using h⟩

theorem gives_addUpvalue {p : Draft} {v : Variable} (hp : v.In p) (hd : ∀ u ∈ d.upvalues, p.Gives u) :
    ∀ u ∈ (d.addUpvalue name v).upvalues, p.Gives u := by
  intro u hu
  simp only [addUpvalue, Array.mem_push] at hu
  rcases hu with hu | rfl
  · exact hd u hu
  · cases v with
    | register r =>
      simp only [Gives, if_true, UInt8.toNat_ofNat']
      exact Nat.lt_of_le_of_lt (Nat.mod_le ..) hp
    | upvalue i =>
      simp only [Gives, Bool.false_eq_true, if_false, UInt8.toNat_ofNat']
      exact Nat.lt_of_le_of_lt (Nat.mod_le ..) hp

end Draft

/-- **A resolved name is a variable of the innermost function; the functions around only capture.** -/
theorem resolve_linked {name : Bytes} {innermost : Bool} {ds ds' : List Draft} {v : Variable}
    (h : resolve name innermost ds = .ok (some (v, ds'))) (hl : Linked ds) :
    ∃ d outer d' outer', ds = d :: outer ∧ ds' = d' :: outer' ∧ d.Captured d' ∧
      CapturedAll outer outer' ∧ Linked ds' ∧ v.In d' ∧ (innermost → d'.blocks = d.blocks) := by
  induction ds generalizing innermost v ds' with
  | nil => exact nomatch h
  | cons d outer ih =>
    unfold resolve at h
    split at h
    · next r hr =>
      have hlt := Draft.findLocal_lt hr
      simp only [Except.ok.injEq, Option.some.injEq, Prod.mk.injEq] at h
      obtain ⟨rfl, rfl⟩ := h
      cases innermost with
      | true => exact ⟨d, outer, d, outer, rfl, rfl, .refl d, .refl outer, hl, hlt, fun _ => rfl⟩
      | false =>
        refine ⟨d, outer, _, outer, rfl, rfl, ?_, .refl outer, hl.head rfl, hlt, nofun⟩
        exact ⟨_, d.upvalues, rfl, .markBlock hlt _, List.prefix_refl _, id⟩
    · split at h
      · next i hi =>
        simp only [Except.ok.injEq, Option.some.injEq, Prod.mk.injEq] at h
        obtain ⟨rfl, rfl⟩ := h
        exact ⟨d, outer, d, outer, rfl, rfl, .refl d, .refl outer, hl, Draft.findUpvalue_lt hi,
          fun _ => rfl⟩
      · split at h
        · exact nomatch h
        · exact nomatch h
        · next v' outer' hrec =>
          dsimp only at h
          split at h
          · exact nomatch h
          · next hlimit =>
            simp only [Except.ok.injEq, Option.some.injEq, Prod.mk.injEq] at h
            obtain ⟨rfl, rfl⟩ := h
            obtain ⟨p, rest, p', rest', rfl, rfl, hp, hrest, hl', hv, -⟩ := ih hrec hl.tail
            simp only [Compile.maxUpvalues] at hlimit
            refine ⟨d, p :: rest, _, p' :: rest', rfl, rfl, Draft.captured_addUpvalue v' (by omega),
              .cons hp hrest, ⟨?_, hl'⟩, by simp [Variable.In, Draft.addUpvalue], fun _ => rfl⟩
            exact Draft.gives_addUpvalue hv fun u hu => (hl.1 u hu).captured hp

/-- **The environment is found from everywhere.** -/
theorem resolve_environment {innermost : Bool} {d : Draft} {outer : List Draft}
    (hl : Linked (d :: outer)) :
    resolve Compile.environmentName innermost (d :: outer) ≠ .ok none := by
  induction outer generalizing innermost d with
  | nil =>
    intro h
    unfold resolve at h
    split at h
    · exact nomatch h
    · split at h
      · exact nomatch h
      · next hnone =>
        obtain ⟨u, hu, hname⟩ := hl
        unfold Draft.findUpvalue? at hnone
        rw [Array.findIdx?_eq_none_iff] at hnone
        simp at hnone
        exact hnone u hu hname
  | cons p rest ih =>
    intro h
    unfold resolve at h
    split at h
    · exact nomatch h
    · split at h
      · exact nomatch h
      · split at h
        · exact nomatch h
        · next hrec => exact ih hl.2 hrec
        · dsimp only at h
          split at h <;> exact nomatch h

/-! ## 3. Steps on all drafts -/

/-- What reading an expression leaves alone in the innermost draft. -/
structure Draft.Grows (d d' : Draft) : Prop where
  kept : d.Kept d'
  maxStack : d.maxStack ≤ d'.maxStack
  constants : d.constants.size ≤ d'.constants.size
  upvalues : d.upvalues.size ≤ d'.upvalues.size
  params : d'.params = d.params
  active : d'.active = d.active
  labels : d'.labels = d.labels
  gotos : d'.gotos = d.gotos
  blocks : Marked d.active d.blocks d'.blocks

namespace Draft

variable {d d' : Draft}

theorem Extends.grows (h : d.Extends d') : d.Grows d' where
  kept := h.kept
  maxStack := h.maxStack
  constants := h.constants
  upvalues := Nat.le_of_eq (by rw [h.upvalues])
  params := h.params
  active := h.active
  labels := h.labels
  gotos := h.gotos
  blocks := by rw [h.blocks]; exact .refl _ _

theorem Captured.grows (h : d.Captured d') : d.Grows d' := by
  have hle := h.upvalues_le
  obtain ⟨b, u, rfl, hb, -⟩ := h
  exact ⟨.refl d, Nat.le_refl _, Nat.le_refl _, hle, rfl, rfl, rfl, rfl, hb⟩

theorem Grows.refl (d : Draft) : d.Grows d := (Extends.refl d).grows

theorem Grows.trans {d'' : Draft} (h : d.Grows d') (h' : d'.Grows d'') : d.Grows d'' where
  kept := h.kept.trans h'.kept
  maxStack := Nat.le_trans h.maxStack h'.maxStack
  constants := Nat.le_trans h.constants h'.constants
  upvalues := Nat.le_trans h.upvalues h'.upvalues
  params := h'.params.trans h.params
  active := h'.active.trans h.active
  labels := h'.labels.trans h.labels
  gotos := h'.gotos.trans h.gotos
  blocks := h.blocks.trans (h.active ▸ h'.blocks)

theorem Grows.variable {p : Place} (h : d.Grows d') (hp : p.Ok d) (hv : p.isVariable) : p.Ok d' :=
  variable_mono hp hv h.maxStack h.constants h.upvalues (Nat.le_of_eq h.active.symm)

end Draft

structure Drafts.Fit (depth : Nat) (waiting : Nat → Prop) (w : Drafts) : Prop where
  ready : w.fn.Ready w.source depth waiting
  linked : Linked (w.fn :: w.outer)

structure Drafts.Steps (w w' : Drafts) : Prop where
  fn : w.fn.Grows w'.fn
  outer : CapturedAll w.outer w'.outer
  source : w'.source = w.source

namespace Drafts

open Compile

variable {w w' : Drafts} {depth : Nat} {waiting waiting' : Nat → Prop}

theorem Steps.refl (w : Drafts) : w.Steps w := ⟨.refl _, .refl _, rfl⟩

theorem Steps.trans {w'' : Drafts} (h : w.Steps w') (h' : w'.Steps w'') : w.Steps w'' :=
  ⟨h.fn.trans h'.fn, h.outer.trans h'.outer, h'.source.trans h.source⟩

theorem Steps.write {d : Draft} (h : w.fn.Extends d) : w.Steps { w with fn := d } :=
  ⟨h.grows, .refl _, rfl⟩

theorem Fit.wait (h : w.Fit depth waiting) (hw : ∀ n, waiting n → waiting' n) :
    w.Fit depth waiting' :=
  ⟨h.ready.wait hw, h.linked⟩

theorem Fit.write {d : Draft} (h : w.Fit depth waiting) (hx : w.fn.Extends d)
    (hr : d.Ready w.source depth waiting') : Drafts.Fit depth waiting' { w with fn := d } :=
  ⟨hr, h.linked.head hx.upvalues⟩

/-- **What a name denotes.** The environment is always found. -/
theorem Fit.lookup {name : Bytes} (h : w.Fit depth waiting) :
    Leads (lookup name) w fun o w' => w'.Fit depth waiting ∧ w.Steps w' ∧
      w'.fn.free = w.fn.free ∧ (∀ p, o = some p → p.Ok w'.fn ∧
        ((∃ r, p = .localVar r) ∨ ∃ i, p = .upvalue i)) ∧
      (name = environmentName → o ≠ none) := by
  refine Leads.get fun s hs => ?_
  have hl : Linked (s.fn :: s.outer) := by
    rw [← hs] at h
    exact h.linked
  split
  · exact Leads.failNear
  · next v fn outer hres =>
    obtain ⟨d, o, d', o', hds, hds', hc, hco, hl', hv, -⟩ := resolve_linked hres hl
    cases hds
    cases hds'
    refine Leads.bind (Leads.set (Leads.pure ?_))
    subst hs
    have hfree : fn.free = s.fn.free := by
      obtain ⟨b, u, rfl, -⟩ := hc
      rfl
    have hready : fn.Ready s.source depth waiting := by
      refine ⟨?_, ?_⟩
      · have hm : fn.maxStack = s.fn.maxStack := by
          obtain ⟨b, u, rfl, -⟩ := hc
          rfl
        unfold Draft.Good
        rw [hm]
        exact hc.goodFor h.ready.good
      · have := h.ready.active
        obtain ⟨b, u, rfl, -⟩ := hc
        exact this
    refine ⟨⟨hready, hl'⟩, ⟨hc.grows, hco, rfl⟩, hfree, ?_, nofun⟩
    rintro p ⟨⟩
    cases v with
    | register r => exact ⟨hv, .inl ⟨r, rfl⟩⟩
    | upvalue i => exact ⟨hv, .inr ⟨i, rfl⟩⟩
  · next o hnot hres =>
    refine Leads.pure ⟨h, .refl w, rfl, nofun, ?_⟩
    rintro rfl
    cases o with
    | none => exact absurd hres (resolve_environment hl)
    | some x =>
      obtain ⟨v, ds'⟩ := x
      obtain ⟨d, o, d', o', -, rfl, -⟩ := resolve_linked hres hl
      exact absurd rfl (hnot v d' o')

/-- What reading an expression leads to: it is there, and what it holds lies above the registers that
    were taken before. -/
structure Yields (depth : Nat) (waiting : Nat → Prop) (w : Drafts) (e : Expr) (w' : Drafts) : Prop where
  fit : w'.Fit depth fun n => waiting n ∨ n ∈ e.jumps
  steps : w.Steps w'
  ok : e.Ok w'.fn
  above : e.place.Above w'.fn w.fn.free

/-- **The expression of a name**: a variable, or a field of the environment. -/
theorem Fit.named {name : Bytes} (h : w.Fit depth waiting) :
    Leads (named name) w fun e w' => Yields depth waiting w e w' ∧ e.place.isVariable := by
  refine h.lookup.andThen fun o w1 ⟨h1, hs1, hf1, ho, _⟩ => ?_
  split
  · obtain ⟨hok, hp⟩ := ho _ rfl
    refine Leads.pure ⟨⟨h1.wait fun _ => .inl, hs1, ⟨hok, ?_, fun _ => ⟨rfl, rfl⟩⟩, ?_⟩, ?_⟩
    · rcases hp with ⟨r, rfl⟩ | ⟨i, rfl⟩ <;> exact nofun
    · rcases hp with ⟨r, rfl⟩ | ⟨i, rfl⟩ <;>
        exact ⟨by show w.fn.free + 0 ≤ w1.fn.free; omega, nofun, nofun⟩
    · rcases hp with ⟨r, rfl⟩ | ⟨i, rfl⟩ <;> rfl
  · refine h1.lookup.andThen fun o w2 ⟨h2, hs2, hf2, ho2, henv⟩ => ?_
    refine Leads.write (h2.ready.addConstant _) fun k d ⟨h3, hx3, hk, ks, hd⟩ => ?_
    obtain ⟨p, hp⟩ : ∃ p, o = some p := by
      cases o with
      | none => exact absurd rfl (henv rfl)
      | some p => exact ⟨p, rfl⟩
    subst hp
    obtain ⟨hok, hp⟩ := ho2 p rfl
    have hvar : p.isVariable := by rcases hp with ⟨r, rfl⟩ | ⟨i, rfl⟩ <;> rfl
    have hcost : p.cost d.active = 0 := by rcases hp with ⟨r, rfl⟩ | ⟨i, rfl⟩ <;> rfl
    have hkey : (Expr.plain (.constant k)).Ok d := ⟨hk, nofun, nofun⟩
    have hfree : d.free = w.fn.free := by
      rw [hd]
      exact hf2.trans hf1
    refine Leads.ofWrites (Draft.Ready.indexed (h3.wait fun _ => .inl) hkey
      (Draft.variable_ext hok hvar hx3) ⟨rfl, rfl⟩ (.inr hp)) fun e d' ⟨h4, hx4, hok4, hj, hv, hab⟩ => ?_
    have hx := hx3.trans hx4
    have hw := h2.write hx h4
    refine ⟨⟨hw.wait fun _ => .inl, (hs1.trans hs2).trans (.write hx), hok4, ?_⟩, hv⟩
    refine hab _ ⟨?_, nofun, nofun⟩
    show w.fn.free + p.cost d.active + 0 ≤ d.free
    omega

end Drafts

end LuaMachine
