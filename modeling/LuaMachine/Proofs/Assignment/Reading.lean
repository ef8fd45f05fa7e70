/-
  VARIABLES, LITERALS AND TARGETS ARE READ. What stands for their values afterwards: an atom is at some
  place, and no code is written for it yet; a target is noted down with its table and key in registers,
  upvalues and constants, so that it can be found again as long as these do not change.

  * `Atom.expr_finds` -- **an atom is read**, `Target.suffixed_aims` -- **a target is read**.
-/
import LuaMachine.Proofs.Assignment.Names

namespace LuaMachine

open Compile

/-! ## 1. What is read -/

def Atom.Known (w : Drafts) : Atom → Prop
  | var x => w.Denotes x
  | lit _ => True

def Target.Known (w : Drafts) : Target → Prop
  | var _ => True
  | index t k => t.Known w ∧ k.Known w
  | field t _ => t.Known w

def Atom.Stops (t : Token) : Atom → Prop
  | var _ => BinOp.ofToken? t = none ∧ t.isSuffix = false
  | lit _ => BinOp.ofToken? t = none

namespace Drafts

/-- An atom has been read: its value is that of a source. -/
structure Finds (q : Nat) (w : Drafts) (a : Atom) (p : Place) (s : Origin) (w' : Drafts) : Prop where
  gains : w.Gains q [] w'
  free : w'.fn.free = w.fn.free
  gives : p.Gives w'.fn.constants s
  below : s.Below w'.fn.active
  cost : p.cost w'.fn.active = s.cost w'.fn.active
  literal : ∀ c, a = .lit c → s = .const c
  value : ∀ (N : Names) (V : Vars), w'.Allows N → s.value V = a.eval N V

/-- A target has been read: it is at a slot. -/
structure Aims (q : Nat) (w : Drafts) (t : Target) (e : Expr) (x : Slot) (w' : Drafts) : Prop where
  plain : e = .plain e.place
  place : e.place.Is w'.fn.constants x
  acts : ∃ as, w.Gains q as w' ∧
    Act.Prepares as w.fn.free fun V V' => ∀ N : Names, w'.Allows N → x.store V' = t.eval N V
  below : x.Below w'.fn.free
  locals : ∀ r, x = .var (.register r) → r < w'.fn.active
  grows : w.fn.free ≤ w'.fn.free

end Drafts

variable {q bound n : Nat} {a : Atom} {t : Token} {ts more : List Token} {w w' : Drafts} {x : Bytes} {g : Grammar}

theorem Atom.Known.gains {as : List Act} (h : a.Known w) (hg : w.Gains q as w') : a.Known w' := by
  cases a with
  | var x => exact (hg.names x).mpr h
  | lit c => trivial

/-! ## 2. Atoms -/

namespace Atom

theorem named_finds (hs : w.fn.Apt q) (hx : w.Denotes x) :
    Walks (Compile.named x) ts w fun e ts' w' => ts' = ts ∧ ∃ p s, e = .plain p ∧ w.Finds q (.var x) p s w' := by
  refine (Walks.lookup_finds hs).andThen fun o ts' w' ⟨hts, ho⟩ => ?_
  subst hts
  obtain ⟨-, v, rfl, hv, hg, hfree⟩ := ho.resolve_left fun ⟨_, _, hn⟩ => hn hx
  obtain ⟨hgives, hbelow, hcost, -⟩ := Variable.gives hv hg.steady
  refine Walks.pure ⟨rfl, v.place, v.source, rfl, hg, hfree, hgives, hbelow, hcost, nofun, fun N V hN => ?_⟩
  rw [Variable.value_source, Atom.eval, hN.found x v hv]
  rfl

theorem simple_lit {c : Constant} (hs : w.fn.Apt q) :
    Walks g.simple (c.token :: t :: more) w fun e ts' w' =>
      ts' = t :: more ∧ ∃ p s, e = .plain p ∧ w.Finds q (.lit c) p s w' := by
  refine Walks.token ?_
  -- a literal that is not entered in the pool, or has been
  have hplain : ∀ (p : Place) (w' : Drafts), w.Gains q [] w' → w'.fn.free = w.fn.free → p.Gives w'.fn.constants (.const c) →
      p.cost w'.fn.active = 0 → Walks (Grammar.simple.literal p) (c.token :: t :: more) w' fun e ts' w' =>
        ts' = t :: more ∧ ∃ p s, e = .plain p ∧ w.Finds q (.lit c) p s w' := fun p w' hg hfree hp hcost =>
    Walks.next (by simp) (Walks.pure ⟨rfl, p, .const c, rfl, hg, hfree, hp, trivial, hcost, fun _ h => by cases h; rfl, fun _ _ _ => rfl⟩)
  cases c with
  | nil => exact hplain _ w (.refl hs) rfl .nil rfl
  | bool b => cases b <;> exact hplain _ w (.refl hs) rfl (.bool _) rfl
  | int i => exact hplain _ w (.refl hs) rfl (.int i) rfl
  | float x => exact hplain _ w (.refl hs) rfl (.float x) rfl
  | str b =>
    refine Walks.write (Writes.addConstant_gains hs (.str b)) fun k d' ⟨hg, hfree, hk⟩ => ?_
    exact hplain _ _ hg.lift hfree (.constant hk) rfl

theorem suffixes_stop {line m : Nat} {e : Expr} {Q : Expr → List Token → Drafts → Prop} (ht : t.isSuffix = false)
    (hq : Q e (t :: more) w) : Walks (g.suffixesFrom line m e) (t :: more) w Q := by
  cases m with
  | zero => exact Walks.failNear
  | succ m =>
    refine Walks.token ?_
    split <;> try simp [Token.isSuffix] at ht
    exact Walks.pure hq

theorem operators_stop {limit m : Nat} {e : Expr} {Q : Expr × Option BinOp → List Token → Drafts → Prop}
    (hq : Q (e, none) ts w) : Walks (g.operatorsFrom limit m e none) ts w Q := by
  cases m with
  | zero => exact Walks.failNear
  | succ m => exact Walks.pure hq

theorem simple_finds (hs : w.fn.Apt q) (hk : a.Known w) (ht : a.Stops t) :
    Walks (Grammar.ofLevels Compile.named bound n).simple (a.token :: t :: more) w fun e ts' w' =>
      ts' = t :: more ∧ ∃ p s, e = .plain p ∧ w.Finds q a p s w' := by
  cases a with
  | lit c => exact simple_lit hs
  | var x =>
    refine Walks.token (Walks.line fun line => Walks.bind (Walks.token (Walks.checkName (by simp) ?_)))
    rw [Formula.name_ofLevels]
    refine (named_finds hs hk).imp fun e ts' w' ⟨hts, hf⟩ => ?_
    subst hts
    exact suffixes_stop ht.2 ⟨rfl, hf⟩

theorem Stops.operator (h : a.Stops t) : BinOp.ofToken? t = none := by
  cases a with
  | var x => exact h.1
  | lit c => exact h

theorem token_operator (a : Atom) : UnOp.ofToken? a.token = none := by
  cases a with
  | var x => rfl
  | lit c =>
    cases c with
    | bool b => cases b <;> rfl
    | _ => rfl

/-- **An atom is read.** -/
theorem expr_finds (hs : w.fn.Apt q) (hk : a.Known w) (ht : a.Stops t) :
    Walks (Grammar.ofLevels Compile.named bound n).expr (a.token :: t :: more) w fun e ts' w' =>
      ts' = t :: more ∧ ∃ p s, e = .plain p ∧ w.Finds q a p s w' := by
  unfold Grammar.expr
  cases n with
  | zero => exact Walks.bind Walks.failNear
  | succ n =>
    refine Walks.bind (Walks.token ?_)
    rw [a.token_operator]
    refine (simple_finds hs hk ht).andThen fun e ts' w' ⟨hts, hf⟩ => ?_
    subst hts
    refine Walks.token ?_
    rw [ht.operator]
    exact operators_stop (Walks.pure ⟨rfl, hf⟩)

end Atom

/-! ## 3. Tables -/

structure Drafts.Tables (q : Nat) (w : Drafts) (a : Atom) (base : TableBase) (r : Nat) (w' : Drafts) : Prop where
  bound : r < 255
  acts : ∃ as, w.Gains q as w' ∧
    Act.Prepares as w.fn.free fun V V' => ∀ N : Names, w'.Allows N → base.value V' r = a.eval N V
  below : base.Below w'.fn.free r
  grows : w.fn.free ≤ w'.fn.free

theorem Compile.Writes.readVariable_const {d : Draft} {p : Place} {c : Constant} (h : p.Gives d.constants (.const c)) :
    Writes (Compile.readVariable (.plain p)) d fun e d' => e = .plain p ∧ d' = d := by
  unfold Compile.readVariable
  cases h <;> exact Writes.pure ⟨rfl, rfl⟩

namespace Atom

theorem primary_finds {rest : List Token} (hs : w.fn.Apt q) (hk : a.Known w) (hne : rest ≠ []) :
    Walks (Grammar.ofLevels Compile.named bound n).primary (a.tableTokens ++ rest) w fun e ts' w' =>
      ts' = rest ∧ ∃ p s, e = .plain p ∧ w.Finds q a p s w' := by
  cases a with
  | var x =>
    refine Walks.token (Walks.checkName hne ?_)
    rw [Formula.name_ofLevels]
    exact named_finds hs hk
  | lit c =>
    refine Walks.token (Walks.line fun line => Walks.next (by simp) ?_)
    have hstops : Stops (.symbol .rparen) (.lit c) := rfl
    refine (expr_finds hs hk hstops).andThen fun e ts' w' ⟨hts, p, s, he, hf⟩ => ?_
    subst hts he
    refine Walks.checkMatch hne ?_
    have hconst := hf.literal c rfl
    subst hconst
    refine Walks.ofWrites (Writes.readVariable_const hf.gives) fun e d' ⟨he, hd⟩ => ?_
    subst he hd
    exact ⟨rfl, p, _, rfl, hf⟩

theorem table_ready {p : Place} {s : Origin} (hf : w.Finds q a p s w') :
    Walks (Compile.toRegisterOrUpvalue (.plain p)) ts w' fun e ts' w'' => ts' = ts ∧
      ∃ (base : TableBase) (r : Nat), e = .plain (base.place r) ∧ w.Tables q a base r w'' := by
  refine Walks.ofWrites (Writes.toRegisterOrUpvalue_puts hf.gains.steady hf.gives) fun e d' h => ?_
  obtain ⟨base, r, he, hr, ⟨as, hg, hprep⟩, hbelow, hgrows⟩ := h
  have hlift := hg.lift
  rw [hf.free] at hprep hgrows hbelow
  refine ⟨rfl, base, r, he, hr, ⟨as, hf.gains.trans hlift, hprep.imp fun V V' _ hv N hN => ?_⟩, hbelow ?_, hgrows⟩
  · rw [hv, hf.value N V (hlift.allows hN)]
  · refine hf.below.mono ?_
    have := hf.gains.steady.roomy.active
    have := hf.free
    omega

end Atom

/-! ## 4. Targets -/

theorem Drafts.Tables.aims {w1 w2 : Drafts} {target : Target} {base : TableBase} {r k : Nat} {s s' : Origin} {d' : Draft}
    (hw : w.fn.Apt q) (h : w.Tables q a base r w1) (hg : w1.Gains q [] w2) (hfree : w2.fn.free = w1.fn.free)
    (hs : s.Below w2.fn.active) (hp : w2.fn.Puts q s w2.fn.free k s' d')
    (heval : ∀ (N : Names) (V : Vars), w2.Allows N → target.eval N V = .field (a.eval N V) (s.value V)) :
    w.Aims q target (.plain (.indexed r k base)) (.field base r s') { w2 with fn := d' } := by
  obtain ⟨as, hgains, hprep⟩ := h.acts
  obtain ⟨bs, hgains', hprep'⟩ := hp.acts
  have hlift := hgains'.lift
  have hlow : s.Below w.fn.free := by
    refine hs.mono ?_
    have hactive := hw.roomy.active
    rw [hg.active, hgains.active]
    exact hactive
  have hle : w.fn.free ≤ w2.fn.free := by
    rw [hfree]
    exact h.grows
  refine ⟨rfl, .indexed h.bound hp.names, ⟨_, hgains.trans (hg.trans hlift), ?_⟩, ⟨?_, ?_⟩, nofun, Nat.le_trans hle hp.grows⟩
  · refine hprep.append hprep' hle fun V V' V'' ha hv ha' hv' N hN => ?_
    have htable : base.value V'' r = a.eval N V := by
      have hbelow := h.below
      rw [← hfree] at hbelow
      rw [hbelow.value ha', hv N ((hg.trans hlift).allows hN)]
    rw [heval N V (hlift.allows hN), Slot.store, htable, hv', hlow.value ha]
  · refine h.below.mono ?_
    rw [← hfree]
    exact hp.grows
  · exact hp.below (hlow.mono hle)

namespace Target

theorem index_aims {key : Atom} {base : TableBase} {r line m : Nat} (hw : w.fn.Apt q) (h : w.Tables q a base r w')
    (hs : w'.fn.Apt q) (hk : key.Known w') (ht : t.isSuffix = false) :
    Walks (do
        let k ← (Grammar.ofLevels Compile.named bound n).bracketKey
        (Grammar.ofLevels Compile.named bound n).suffixesFrom line m (← indexed (.plain (base.place r)) k))
      (.symbol .lbracket :: key.token :: .symbol .rbracket :: t :: more) w' fun e ts' w'' =>
        ts' = t :: more ∧ ∃ x, w.Aims q (.index a key) e x w'' := by
  unfold Grammar.bracketKey
  refine Walks.bind (Walks.next (by simp) ?_)
  have hstops : key.Stops (.symbol .rbracket) := by cases key <;> first | exact ⟨rfl, rfl⟩ | exact rfl
  refine (Atom.expr_finds hs hk hstops).andThen ?_
  rintro e ts' w2 ⟨hts, p, s, he, hf⟩
  subst hts he
  have hfetch : Fetches w2.fn s p w2.fn := .of_gives hf.gives hf.gains.steady.roomy
  refine Walks.write (x := Compile.toValue (.plain p)) hfetch ?_
  rintro e d3 ⟨p', d1, he, ho, hret, hr, hfree⟩
  subst he
  refine Walks.checkNext (by simp) (Walks.pure ?_)
  have hfetch' : Fetches w2.fn s p' d3 := .of_offers ho hret hr
  refine Walks.write (Writes.indexed_puts hf.gains.steady hfetch' (base_of_place base r)) ?_
  rintro e d' ⟨k, s', he, hp⟩
  subst he
  rw [hfree] at hp
  have haims : w.Aims q (.index a key) (.plain (.indexed r k base)) (.field base r s') { w2 with fn := d' } :=
    h.aims hw hf.gains hf.free hf.below hp fun N V hN => by rw [Target.eval, hf.value N V hN]
  exact Atom.suffixes_stop ht ⟨rfl, _, haims⟩

theorem field_aims {base : TableBase} {r k : Nat} {d1 : Draft} {target : Target} {p : Place} (hw : w.fn.Apt q)
    (h : w.Tables q a base r w') (hg : w'.fn.Gains q [] d1) (hfree : d1.free = w'.fn.free)
    (hk : d1.constants[k]? = some (.str x))
    (heval : ∀ (N : Names) (V : Vars), w'.Allows N → target.eval N V = .field (a.eval N V) (.str x))
    (hbase : (match p with | .upvalue i => (i, TableBase.upvalue) | p => (p.register, .register)) = (r, base)) :
    Walks (indexed (.plain p) (.plain (.constant k))) ts { w' with fn := d1 } fun e ts' w'' =>
      ts' = ts ∧ ∃ x, w.Aims q target e x w'' := by
  have hfetch : Fetches d1 (.const (.str x)) (.constant k) d1 := .of_gives (.constant hk) hg.steady.roomy
  refine Walks.ofWrites (Writes.indexed_puts hg.steady hfetch hbase) fun e d' ⟨k', s', he, hp⟩ => ?_
  subst he
  have hlift := hg.lift
  exact ⟨rfl, _, h.aims (s := .const (.str x)) hw hlift hfree trivial hp fun N V hN => heval N V (hlift.allows hN)⟩

theorem named_aims (hs : w.fn.Apt q) (henv : w.Denotes environmentName) :
    Walks (Compile.named x) ts w fun e ts' w' => ts' = ts ∧ ∃ y, w.Aims q (.var x) e y w' := by
  refine (Walks.lookup_finds hs).andThen ?_
  rintro o ts' w' ⟨hts, ho⟩
  subst hts
  rcases ho with ⟨rfl, rfl, hfree⟩ | ⟨-, v, rfl, hv, hg, hfree⟩
  · -- a field of the environment
    refine (Walks.lookup_finds hs).andThen ?_
    rintro o ts' w1 ⟨hts, ho⟩
    subst hts
    obtain ⟨-, v, rfl, hv, hg, hsame⟩ := ho.resolve_left fun hn => hn.2.2 henv
    obtain ⟨hgives, hbelow, -, -⟩ := Variable.gives hv hg.steady
    have hvalue : ∀ (N : Names) (V : Vars), w1.Allows N → v.source.value V = Atom.eval N V (.var environmentName) := by
      intro N V hN
      rw [Variable.value_source, Atom.eval, hN.found _ v hv]
      rfl
    refine Walks.write (Writes.addConstant_gains hg.steady (.str x)) ?_
    rintro k d1 ⟨hg1, hfree1, hk1⟩
    have heval : ∀ (N : Names) (V : Vars), w1.Allows N →
        (var x).eval N V = .field (Atom.eval N V (.var environmentName)) (.str x) := by
      intro N V hN
      rw [Target.eval, hN.free x fun hd => hfree ((hg.names x).mp hd)]
    have htables : ∀ (base : TableBase) (r : Nat), r < 255 → (∀ V : Vars, base.value V r = v.source.value V) →
        base.Below w1.fn.free r → w'.Tables q (.var environmentName) base r w1 := fun base r hr hsrc hlow =>
      ⟨hr, ⟨[], hg, .nothing fun V N hN => (hsrc V).trans (hvalue N V hN)⟩, hlow, Nat.le_of_eq hsame.symm⟩
    cases v with
    | register r =>
      have hr : r < w1.fn.active := hbelow
      have hlt := hg.steady.roomy.lt hr
      have hactive := hg.steady.roomy.active
      have hlow : r < w1.fn.free := by omega
      exact field_aims hs (htables .register r (by omega) (fun _ => rfl) hlow) hg1 hfree1 hk1 heval rfl
    | upvalue u =>
      cases hgives with
      | upvalue hu => exact field_aims hs (htables .upvalue u hu (fun _ => rfl) trivial) hg1 hfree1 hk1 heval rfl
  · obtain ⟨-, hbelow, -, hplace⟩ := Variable.gives hv hg.steady
    have hactive := hg.steady.roomy.active
    refine Walks.pure ⟨rfl, .var v, rfl, hplace, ⟨[], hg, .nothing fun V N hN => ?_⟩, ?_, ?_, Nat.le_of_eq hfree.symm⟩
    · rw [Target.eval, hN.found x v hv]
      rfl
    · cases v with
      | register r => exact Nat.lt_of_lt_of_le hbelow hactive
      | upvalue u => trivial
    · intro r hr
      cases hr
      exact hbelow

/-- **A target is read.** -/
theorem suffixed_aims {target : Target} (hs : w.fn.Apt q) (henv : w.Denotes environmentName) (hk : target.Known w)
    (ht : t.isSuffix = false) :
    Walks (Grammar.ofLevels Compile.named bound n).suffixed (target.tokens ++ t :: more) w fun e ts' w' =>
      ts' = t :: more ∧ ∃ x, w.Aims q target e x w' := by
  unfold Grammar.suffixed
  refine Walks.line fun line => ?_
  cases target with
  | var x =>
    refine Walks.bind (Walks.token (Walks.checkName (by simp) ?_))
    rw [Formula.name_ofLevels]
    refine (named_aims hs henv).imp fun e ts' w' ⟨hts, h⟩ => ?_
    subst hts
    exact Atom.suffixes_stop ht ⟨rfl, h⟩
  | index a key =>
    rw [tokens, List.append_assoc]
    refine (Atom.primary_finds hs hk.1 (by simp)).andThen fun e ts' w1 ⟨hts, p, s, he, hf⟩ => ?_
    subst hts he
    unfold Grammar.suffixesFrom
    split
    · exact Walks.failNear
    · refine Walks.token ?_
      refine (Atom.table_ready hf).andThen fun e ts' w2 ⟨hts, base, r, he, htable⟩ => ?_
      subst hts he
      obtain ⟨as, hg, -⟩ := htable.acts
      exact index_aims hs htable hg.steady (hk.2.gains hg) ht
  | field a x =>
    rw [tokens, List.append_assoc]
    refine (Atom.primary_finds hs hk (by simp)).andThen fun e ts' w1 ⟨hts, p, s, he, hf⟩ => ?_
    subst hts he
    unfold Grammar.suffixesFrom
    split
    · exact Walks.failNear
    · refine Walks.token (Walks.bind ?_)
      refine (Atom.table_ready hf).andThen fun e ts' w2 ⟨hts, base, r, he, htable⟩ => ?_
      subst hts he
      obtain ⟨as, hg, -⟩ := htable.acts
      refine Walks.next (by simp) (Walks.bind (Walks.checkName (by simp) ?_))
      refine Walks.write (Writes.addConstant_gains hg.steady (.str x)) fun k d1 ⟨hg1, hfree1, hk1⟩ => Walks.pure ?_
      have hbase : (match base.place r with | .upvalue i => (i, TableBase.upvalue) | p => (p.register, .register)) =
          (r, base) := by
        cases base <;> rfl
      have heval : ∀ (N : Names) (V : Vars), w2.Allows N → (Target.field a x).eval N V = .field (a.eval N V) (.str x) :=
        fun _ _ _ => rfl
      refine (field_aims hs htable hg1 hfree1 hk1 heval hbase).imp fun e ts' w' ⟨hts, h⟩ => ?_
      subst hts
      exact Atom.suffixes_stop ht ⟨rfl, h⟩

end Target

end LuaMachine
