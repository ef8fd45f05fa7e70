/-
  VALUES ARE MADE OPERANDS AND STORED. What that comes to is said for the registers below the free ones:
  operands may be brought into registers above, and nothing else changes.

  * `Compile.Writes.indexed_puts` -- a target is noted down, `Compile.Writes.storeVariable_stores` -- **a
    value is stored**.
-/
import LuaMachine.Proofs.Assignment.Writing

namespace LuaMachine

/-! ## 1. States that differ in the upper registers -/

namespace Vars

variable {n n' k : Nat} {V V' V'' : Vars} {v : Value}

structure Agrees (n : Nat) (V V' : Vars) : Prop where
  regs : ∀ r < n, V'.regs r = V.regs r
  upvalues : V'.upvalues = V.upvalues
  tables : V'.tables = V.tables

theorem Agrees.refl (n : Nat) (V : Vars) : V.Agrees n V := ⟨fun _ _ => rfl, rfl, rfl⟩

theorem Agrees.trans (h : V.Agrees n V') (h' : V'.Agrees n V'') : V.Agrees n V'' :=
  ⟨fun r hr => (h'.regs r hr).trans (h.regs r hr), h'.upvalues.trans h.upvalues, h'.tables.trans h.tables⟩

theorem Agrees.mono (h : V.Agrees n' V') (hn : n ≤ n') : V.Agrees n V' :=
  ⟨fun r hr => h.regs r (Nat.lt_of_lt_of_le hr hn), h.upvalues, h.tables⟩

theorem Agrees.span (h : V.Agrees (n + k) V') : V'.span n k = V.span n k := by
  refine List.map_congr_left fun i hi => h.regs _ ?_
  have := List.mem_range.mp hi
  omega

theorem agrees_setReg {r : Nat} (hr : n ≤ r) (V : Vars) (v : Value) : V.Agrees n (V.setReg r v) :=
  ⟨fun _ hi => if_neg (by omega), rfl, rfl⟩

theorem Agrees.setReg (h : V.Agrees n V') (r : Nat) (v : Value) : (V.setReg r v).Agrees n (V'.setReg r v) := by
  refine ⟨fun i hi => ?_, h.upvalues, h.tables⟩
  exact ite_congr rfl (fun _ => rfl) fun _ => h.regs i hi

theorem Agrees.setUpvalue (h : V.Agrees n V') (u : Nat) (v : Value) : (V.setUpvalue u v).Agrees n (V'.setUpvalue u v) := by
  refine ⟨h.regs, funext fun i => ?_, h.tables⟩
  exact ite_congr rfl (fun _ => rfl) fun _ => congrFun h.upvalues i

theorem Agrees.set (h : V.Agrees n V') (x : Variable) (v : Value) : (V.set x v).Agrees n (V'.set x v) := by
  cases x with
  | register r => exact h.setReg r v
  | upvalue u => exact h.setUpvalue u v

def Matches (n : Nat) (r r' : Vars × Option Refusal) : Prop := r.1.Agrees n r'.1 ∧ r'.2 = r.2

theorem Agrees.store (h : V.Agrees n V') (s : Store) (v : Value) :
    Matches n (storeAll [(s, v)] V) (storeAll [(s, v)] V') := by
  cases s with
  | var x => exact ⟨h.set x v, rfl⟩
  | field t k =>
    cases t with
    | table id =>
      cases hset : (V.tables[id]?.getD .empty).set k v with
      | error f =>
        simp only [storeAll, Vars.store, Vars.setField, h.tables, hset]
        exact ⟨h, rfl⟩
      | ok t =>
        simp only [storeAll, Vars.store, Vars.setField, h.tables, hset]
        exact ⟨⟨h.regs, h.upvalues, rfl⟩, rfl⟩
    | _ => exact ⟨h, rfl⟩

theorem storeAll_cons (x : Store × Value) (rest : List (Store × Value)) (V : Vars) :
    storeAll (x :: rest) V = match storeAll [x] V with
      | (V', none) => storeAll rest V'
      | (V', some e) => (V', some e) := by
  obtain ⟨s, v⟩ := x
  simp only [storeAll]
  cases V.store s v <;> rfl

end Vars

theorem Atom.eval_agrees {n : Nat} {N : Names} {V V' : Vars} (a : Atom)
    (hN : ∀ (x : Bytes) (r : Nat), N x = some (.register r) → r < n) (hv : V.Agrees n V') : a.eval N V' = a.eval N V :=
  a.eval_congr (fun x r hx => hv.regs r (hN x r hx)) hv.upvalues

namespace Origin

variable {n n' : Nat} {V V' : Vars} {s : Origin}

def Below (n : Nat) : Origin → Prop
  | reg r => r < n
  | _ => True

theorem Below.mono (h : s.Below n) (hn : n ≤ n') : s.Below n' := by
  cases s with
  | reg r => exact Nat.lt_of_lt_of_le h hn
  | _ => trivial

theorem Below.value (h : s.Below n) (hv : V.Agrees n V') : s.value V' = s.value V := by
  cases s with
  | reg r => exact hv.regs r h
  | upvalue u => exact congrFun hv.upvalues u
  | const c => rfl

def cost (active : Nat) : Origin → Nat
  | reg r => Operand.cost active r
  | _ => 0

end Origin

/-! ## 2. Operands -/

def Act.Prepares (as : List Act) (n : Nat) (R : Vars → Vars → Prop) : Prop :=
  ∀ V : Vars, ∃ V', V.run as = (V', none) ∧ V.Agrees n V' ∧ R V V'

namespace Act.Prepares

variable {as bs : List Act} {n n' : Nat} {R R' : Vars → Vars → Prop}

theorem nothing (h : ∀ V, R V V) : Act.Prepares [] n R := fun V => ⟨V, rfl, .refl n V, h V⟩

theorem load {r : Nat} {s : Origin} (hr : n ≤ r) (h : ∀ V : Vars, R V (V.setReg r (s.value V))) :
    Act.Prepares [.load r s] n R := fun V => ⟨_, rfl, Vars.agrees_setReg hr V _, h V⟩

theorem imp (h : Act.Prepares as n R) (hR : ∀ V V' : Vars, V.Agrees n V' → R V V' → R' V V') : Act.Prepares as n R' := by
  intro V
  obtain ⟨V', hrun, ha, hr⟩ := h V
  exact ⟨V', hrun, ha, hR V V' ha hr⟩

theorem append {R'' : Vars → Vars → Prop} (h : Act.Prepares as n R) (h' : Act.Prepares bs n' R') (hn : n ≤ n')
    (hR : ∀ V V' V'' : Vars, V.Agrees n V' → R V V' → V'.Agrees n' V'' → R' V' V'' → R'' V V'') :
    Act.Prepares (as ++ bs) n R'' := by
  intro V
  obtain ⟨V', hrun, ha, hr⟩ := h V
  obtain ⟨V'', hrun', ha', hr'⟩ := h' V'
  exact ⟨V'', by rw [Vars.run_append hrun, hrun'], ha.trans (ha'.mono hn), hR V V' V'' ha hr ha' hr'⟩

end Act.Prepares

structure Draft.Puts (q : Nat) (d : Draft) (s : Origin) (free x : Nat) (s' : Origin) (d' : Draft) : Prop where
  names : Operand.Names d'.constants x s'
  acts : ∃ as, d.Gains q as d' ∧ Act.Prepares as free fun V V' => s'.value V' = s.value V
  below : s.Below free → s'.Below d'.free
  cost : d'.free + s.cost d.active = free + Operand.cost d.active x
  grows : free ≤ d'.free

namespace Compile

open Draft

variable {q : Nat} {d d1 d2 d' : Draft} {reg : Nat} {s : Origin} {p : Place}

/-- **A value is brought into the next register.** It is in no upper one. -/
theorem Writes.toNextRegister_gains (hs : d.Apt q) (h : Fetches d s p d2) (hlow : s.Below d.active) :
    Writes (Compile.toNextRegister (.plain p)) d2 fun r d' =>
      r = d2.free ∧ d.Gains q [.load r s] d' ∧ d'.free = d2.free + 1 ∧ d2.free < 254 := by
  unfold Compile.toNextRegister
  refine h.andThen fun e d3 ⟨p', d1, he, ho, ht, hr, hfree⟩ => ?_
  subst he
  rw [← hfree]
  have hkeep : Writes (Compile.freeExpr (.plain p')) d3 fun _ d' => d3.Retakes d' ∧ d'.Roomy ∧ d'.free = d3.free := by
    cases ho with
    | pending => exact Writes.pure ⟨⟨_, _, rfl⟩, hr, rfl⟩
    | read hg hv =>
      cases hg with
      | @fixed r hlt =>
        refine (Writes.freeRegister_retakes hr r).imp fun _ d' ⟨ht', hr', hfree'⟩ => ⟨ht', hr', ?_⟩
        have hact : d3.active = d.active := ht.active
        have hlow' : r < d.active := hlow
        rw [Operand.cost_lt (by omega)] at hfree'
        exact hfree'
      | localVar _ | upvalue _ => cases hv
      | _ => exact Writes.pure ⟨⟨_, _, rfl⟩, hr, rfl⟩
  refine hkeep.andThen fun _ d4 ⟨ht4, hr4, hfree4⟩ => ?_
  refine (Writes.reserve_takes hr4).andThen fun _ d5 ⟨ht5, hr5, hfree5, hlt⟩ => ?_
  refine Writes.topRegister ?_
  have hreg : d5.free - 1 = d3.free := by omega
  rw [hreg]
  have hfetch : Fetches d s p' d5 := .of_offers ho ((ht.trans ht4).trans ht5) hr5
  refine (Writes.toRegister_gains hs hfetch (by omega)).andThen fun _ d' ⟨hg, hfree'⟩ => Writes.pure ?_
  exact ⟨rfl, hg, by omega, by omega⟩

end Compile

namespace Draft.Puts

variable {q free x : Nat} {d d1 d' : Draft} {s s' : Origin}

theorem same (hg : d.Gains q [] d') (hx : Operand.Names d'.constants x s) (hf : d'.free = free)
    (hc : s.cost d.active = Operand.cost d.active x) : d.Puts q s free x s d' :=
  ⟨hx, ⟨[], hg, .nothing fun _ => rfl⟩, fun h => h.mono (Nat.le_of_eq hf.symm), by rw [hf, hc], Nat.le_of_eq hf.symm⟩

theorem loaded (hg : d.Gains q [.load free s] d') (hf : d'.free = free + 1) (hlt : free < 254) (hle : d.active ≤ free)
    (hc : s.cost d.active = 0) : d.Puts q s free free (.reg free) d' := by
  refine ⟨⟨rfl, by omega⟩, ⟨[.load free s], hg, .load (Nat.le_refl _) fun V => if_pos rfl⟩, fun _ => ?_, ?_, by omega⟩
  · show free < d'.free
    omega
  · rw [hc, hf, Compile.cost_free (by omega) hle]

theorem after (hg : d.Gains q [] d1) (h : d1.Puts q s free x s' d') : d.Puts q s free x s' d' := by
  obtain ⟨as, hgains, hprep⟩ := h.acts
  refine ⟨h.names, ⟨as, hg.trans hgains, hprep⟩, h.below, ?_, h.grows⟩
  rw [← hg.active]
  exact h.cost

end Draft.Puts

namespace Compile

open Draft

variable {q : Nat} {d d1 d2 d' : Draft} {reg : Nat} {s : Origin} {p : Place}

theorem Writes.toAnyRegister_puts (hs : d.Apt q) (h : Fetches d s p d2) :
    Writes (Compile.toAnyRegister (.plain p)) d2 fun r d' => d.Puts q s d2.free r (.reg r) d' := by
  unfold Compile.toAnyRegister
  refine h.andThen fun e d3 ⟨p', d1, he, ho, ht, hr, hfree⟩ => ?_
  subst he
  rw [← hfree]
  have hact : d3.active = d.active := ht.active.trans ho.active
  have hnext : s.Below 0 → s.cost d.active = 0 →
      Writes (Compile.toNextRegister (.plain p')) d3 fun r d' => d.Puts q s d3.free r (.reg r) d' := by
    intro hlow hc
    have hfetch : Fetches d s p' d3 := .of_offers ho ht hr
    refine (Writes.toNextRegister_gains hs hfetch (hlow.mono (Nat.zero_le _))).imp fun r d' ⟨hr', hg, hfree', hlt⟩ => ?_
    subst hr'
    exact .loaded hg hfree' hlt (hact ▸ hr.active) hc
  cases ho with
  | pending hsrc =>
    subst hsrc
    exact hnext trivial rfl
  | read hg hv =>
    cases hg with
    | localVar _ | upvalue _ => cases hv
    | fixed hlt =>
      obtain ⟨m, f, rfl⟩ := ht
      exact Writes.pure (.same (.retake hs hr) ⟨rfl, hlt⟩ rfl rfl)
    | _ => exact hnext trivial rfl

theorem Writes.constant_puts {k : Nat} {c : Constant} (hs : d.Apt q) (hk : d.constants[k]? = some c) :
    Writes (if k ≤ Operand.maxConstant then return Operand.ofConstant k else Compile.toAnyRegister (.plain (.constant k))) d
      fun x d' => ∃ s', d.Puts q (.const c) d.free x s' d' := by
  split
  · next hle => exact Writes.pure ⟨_, .same (.refl hs) ⟨k, rfl, hle, hk⟩ rfl (Operand.cost_ofConstant hle).symm⟩
  · exact (Writes.toAnyRegister_puts hs (.of_gives (.constant hk) hs.roomy)).imp fun x d' h => ⟨_, h⟩

/-- **A value becomes an operand.** -/
theorem Writes.toOperand_puts (hs : d.Apt q) (h : Fetches d s p d2) :
    Writes (Compile.toOperand (.plain p)) d2 fun x d' => ∃ s', d.Puts q s d2.free x s' d' := by
  unfold Compile.toOperand Compile.toValue
  refine h.andThen fun e d3 ⟨p', d1, he, ho, ht, hr, hfree⟩ => ?_
  subst he
  rw [← hfree]
  have hany : Writes (Compile.toAnyRegister (.plain p')) d3 fun x d' => ∃ s', d.Puts q s d3.free x s' d' :=
    (Writes.toAnyRegister_puts hs (.of_offers ho ht hr)).imp fun x d' h => ⟨_, h⟩
  cases ho with
  | pending => exact Writes.bind (Writes.pure hany)
  | read hg hv =>
    obtain ⟨m, f, rfl⟩ := ht
    have hback : d.Gains q [] { d with maxStack := m, free := f } := .retake hs hr
    generalize hd3 : { d with maxStack := m, free := f } = d3 at hback hany
    have hconst : d3.constants = d.constants := by rw [← hd3]
    have hconstant : ∀ {k c} {d4 : Draft}, s = .const c → d.Gains q [] d4 → d4.constants[k]? = some c → d4.free = d3.free →
        Writes (if k ≤ Operand.maxConstant then return Operand.ofConstant k else Compile.toAnyRegister (.plain (.constant k)))
          d4 fun x d' => ∃ s', d.Puts q s d3.free x s' d' := by
      intro k c d4 hsrc hgain hk hfree'
      subst hsrc
      refine (Writes.constant_puts hgain.steady hk).imp fun x d' ⟨s', h⟩ => ⟨s', ?_⟩
      rw [hfree'] at h
      exact h.after hgain
    have hliteral : ∀ c, s = .const c → Writes (do
        let k ← Compile.addConstant c
        if k ≤ Operand.maxConstant then return Operand.ofConstant k else Compile.toAnyRegister (.plain (.constant k))) d3
          fun x d' => ∃ s', d.Puts q s d3.free x s' d' := by
      intro c hsrc
      refine (Writes.addConstant_gains hback.steady c).andThen fun k d4 ⟨hg, hfree', hk⟩ => ?_
      exact hconstant hsrc (hback.trans hg) hk hfree'
    cases hg with
    | localVar _ | upvalue _ => cases hv
    | fixed _ => exact Writes.bind (Writes.pure hany)
    | constant hk => exact Writes.bind (Writes.pure (hconstant rfl hback (hconst ▸ hk) rfl))
    | nil => exact hliteral .nil rfl
    | bool b => exact hliteral (.bool b) rfl
    | int i => exact hliteral (.int i) rfl
    | float x => exact hliteral (.float x) rfl

end Compile

/-! ## 3. Targets -/

namespace TableBase

def Below (n t : Nat) : TableBase → Prop
  | register => t < n
  | upvalue => True

def place (t : Nat) : TableBase → Place
  | register => .fixed t
  | upvalue => .upvalue t

variable {n n' t : Nat} {base : TableBase} {V V' : Vars}

theorem Below.mono (h : base.Below n t) (hn : n ≤ n') : base.Below n' t := by
  cases base with
  | register => exact Nat.lt_of_lt_of_le h hn
  | upvalue => trivial

theorem Below.value (h : base.Below n t) (hv : V.Agrees n V') : base.value V' t = base.value V t := by
  cases base with
  | register => exact hv.regs t h
  | upvalue => exact congrFun hv.upvalues t

end TableBase

inductive Slot where
  | var (v : Variable)
  | field (base : TableBase) (t : Nat) (key : Origin)

namespace Slot

def store (V : Vars) : Slot → Store
  | var v => .var v
  | field base t key => .field (base.value V t) (key.value V)

def Below (n : Nat) : Slot → Prop
  | var (.register r) => r < n
  | var (.upvalue _) => True
  | field base t key => base.Below n t ∧ key.Below n

variable {n n' : Nat} {x : Slot} {V V' : Vars}

theorem Below.mono (h : x.Below n) (hn : n ≤ n') : x.Below n' := by
  match x, h with
  | var (.register _), h => exact Nat.lt_of_lt_of_le h hn
  | var (.upvalue _), _ => trivial
  | field .., h => exact ⟨h.1.mono hn, h.2.mono hn⟩

theorem Below.store (h : x.Below n) (hv : V.Agrees n V') : x.store V' = x.store V := by
  match x, h with
  | var _, _ => rfl
  | field .., h =>
    rw [Slot.store, Slot.store, h.1.value hv, h.2.value hv]

end Slot

inductive Place.Is (constants : Array Constant) : Place → Slot → Prop where
  | localVar {r : Nat} (h : r < 255) : Is constants (.localVar r) (.var (.register r))
  | upvalue {u : Nat} (h : u < 255) : Is constants (.upvalue u) (.var (.upvalue u))
  | indexed {t k : Nat} {base : TableBase} {key : Origin} (ht : t < 255) (hk : Operand.Names constants k key) :
    Is constants (.indexed t k base) (.field base t key)

theorem Place.Is.mono {constants constants' : Array Constant} {p : Place} {x : Slot} (h : p.Is constants x)
    (hk : ∀ (k : Nat) (c : Constant), constants[k]? = some c → constants'[k]? = some c) : p.Is constants' x := by
  cases h with
  | localVar h => exact .localVar h
  | upvalue h => exact .upvalue h
  | indexed ht hx => exact .indexed ht (hx.mono hk)

theorem Place.Is.isVariable {constants : Array Constant} {p : Place} {x : Slot} (h : p.Is constants x) :
    p.isVariable = true := by
  cases h <;> rfl

theorem Place.Gives.mono {constants constants' : Array Constant} {p : Place} {s : Origin} (h : p.Gives constants s)
    (hk : ∀ (k : Nat) (c : Constant), constants[k]? = some c → constants'[k]? = some c) : p.Gives constants' s := by
  cases h with
  | constant hc => exact .constant (hk _ _ hc)
  | nil => exact .nil
  | bool b => exact .bool b
  | int i => exact .int i
  | float x => exact .float x
  | fixed h => exact .fixed h
  | localVar h => exact .localVar h
  | upvalue h => exact .upvalue h

namespace Compile

open Draft

variable {q : Nat} {d d1 d2 d' : Draft} {reg : Nat} {s : Origin} {p p' : Place}

theorem Writes.toRegisterOrUpvalue_puts (hs : d.Apt q) (hg : p.Gives d.constants s) :
    Writes (Compile.toRegisterOrUpvalue (.plain p)) d fun e d' => ∃ (base : TableBase) (t : Nat), e = .plain (base.place t) ∧ t < 255 ∧
      (∃ as, d.Gains q as d' ∧ Act.Prepares as d.free fun V V' => base.value V' t = s.value V) ∧
      (s.Below d.free → base.Below d'.free t) ∧ d.free ≤ d'.free := by
  have hreg : Writes (do return Expr.plain (.fixed (← Compile.toAnyRegister (.plain p)))) d fun e d' =>
      ∃ (base : TableBase) (t : Nat), e = .plain (base.place t) ∧ t < 255 ∧
        (∃ as, d.Gains q as d' ∧ Act.Prepares as d.free fun V V' => base.value V' t = s.value V) ∧
        (s.Below d.free → base.Below d'.free t) ∧ d.free ≤ d'.free := by
    refine (Writes.toAnyRegister_puts hs (.of_gives hg hs.roomy)).andThen fun r d' h => Writes.pure ?_
    exact ⟨.register, r, rfl, h.names.2, h.acts, h.below, h.grows⟩
  unfold Compile.toRegisterOrUpvalue
  cases hg with
  | @upvalue u hu =>
    exact Writes.pure ⟨.upvalue, u, rfl, hu, ⟨[], .refl hs, .nothing fun _ => rfl⟩, fun _ => trivial, Nat.le_refl _⟩
  | _ => exact hreg

theorem base_of_place (base : TableBase) (r : Nat) :
    (match base.place r with | .upvalue i => (i, TableBase.upvalue) | p => (p.register, .register)) = (r, base) := by
  cases base <;> rfl

theorem Writes.indexed_puts {t : Nat} {base : TableBase} (hs : d.Apt q) (h : Fetches d s p d2)
    (hbase : (match p' with | .upvalue i => (i, TableBase.upvalue) | p => (p.register, .register)) = (t, base)) :
    Writes (Compile.indexed (.plain p') (.plain p)) d2 fun e d' =>
      ∃ x s', e = .plain (.indexed t x base) ∧ d.Puts q s d2.free x s' d' := by
  have hrest : Writes (do return { Expr.plain p' with place := .indexed t (← Compile.toOperand (.plain p)) base }) d2
      fun e d' => ∃ x s', e = .plain (.indexed t x base) ∧ d.Puts q s d2.free x s' d' :=
    (Writes.toOperand_puts hs h).andThen fun x d' ⟨s', hp⟩ => Writes.pure ⟨x, s', rfl, hp⟩
  unfold Compile.indexed
  cases p' <;> cases hbase <;> exact hrest

/-- **A value is stored.** Upper registers may be loaded for that. -/
theorem Writes.storeVariable_stores {x : Slot} (hs : d.Apt q) (hx : p.Is d.constants x) (hlow : x.Below d.free)
    (hg : p'.Gives d.constants s) (hcost : p'.cost d.active = s.cost d.active) :
    Writes (Compile.storeVariable p (.plain p')) d fun _ d' =>
      (∃ as, d.Gains q as d' ∧ ∀ V : Vars, Vars.Matches d.free (Vars.storeAll [(x.store V, s.value V)] V) (V.run as)) ∧
      d'.free + s.cost d.active = d.free := by
  have hfetch : Fetches d s p' d := .of_gives hg hs.roomy
  unfold Compile.storeVariable
  cases hx with
  | @localVar r hr =>
    have hfree : Writes (Compile.freeExpr (.plain p')) d fun _ d' => d.Retakes d' ∧ d'.Roomy ∧
        d'.free + p'.cost d.active = d.free := by
      cases hg <;> exact Writes.freeExpr_retakes hs.roomy nofun rfl
    refine hfree.andThen fun _ d1 ⟨ht, hr1, hf1⟩ => ?_
    obtain ⟨m, f, rfl⟩ := ht
    have hback : d.Gains q [] { d with maxStack := m, free := f } := .retake hs hr1
    refine (Writes.toRegister_gains hback.steady (.of_gives (p := p') hg hr1) hr).imp fun _ d' ⟨hload, hf'⟩ => ?_
    refine ⟨⟨_, hback.trans hload, fun V => ⟨.refl _ _, rfl⟩⟩, ?_⟩
    rw [hf', ← hcost]
    exact hf1
  | @upvalue u hu =>
    refine (Writes.toAnyRegister_puts hs hfetch).andThen fun r d1 hput => ?_
    obtain ⟨as, hgain, hprep⟩ := hput.acts
    refine Writes.bind (Writes.discard ((Writes.emit_gains hgain.steady (.setUpvalue hput.names.2 hu)).imp
      fun _ d2 ⟨hset, hf2⟩ => ?_))
    refine (Writes.freeRegister_retakes hset.steady.roomy r).imp fun _ d' ⟨ht, hr', hf'⟩ => ?_
    obtain ⟨m, f, rfl⟩ := ht
    refine ⟨⟨_, (hgain.trans hset).trans (.retake hset.steady hr'), fun V => ?_⟩, ?_⟩
    · obtain ⟨V', hrun, hagrees, hvalue⟩ := hprep V
      rw [List.append_nil, Vars.run_append hrun]
      refine ⟨?_, rfl⟩
      have hv : V'.regs r = s.value V := hvalue
      show (V.setUpvalue u (s.value V)).Agrees d.free (V'.setUpvalue u (V'.regs r))
      rw [hv]
      exact hagrees.setUpvalue u _
    · have hc := hput.cost
      have hact : Operand.cost d2.active r = Operand.cost d.active r := by rw [hset.active, hgain.active]
      have hf : f + Operand.cost d2.active r = d2.free := hf'
      show f + s.cost d.active = d.free
      omega
  | @indexed t k base key ht hk =>
    refine (Writes.toOperand_puts hs hfetch).andThen fun y d1 ⟨s', hput⟩ => ?_
    obtain ⟨as, hgain, hprep⟩ := hput.acts
    have hrest : Writes (do
        Functor.discard (Compile.emitABC base.setter t k y)
        Compile.freeRegister y) d1 fun _ d' =>
          (∃ as, d.Gains q as d' ∧ ∀ V : Vars,
            Vars.Matches d.free (Vars.storeAll [((Slot.field base t key).store V, s.value V)] V) (V.run as)) ∧
          d'.free + s.cost d.active = d.free := by
      refine Writes.bind (Writes.discard ((Writes.emit_gains hgain.steady
        (.setField ht (hk.mono hgain.constants) hput.names)).imp fun _ d2 ⟨hset, hf2⟩ => ?_))
      refine (Writes.freeRegister_retakes hset.steady.roomy y).imp fun _ d' ⟨ht', hr', hf'⟩ => ?_
      obtain ⟨m, f, rfl⟩ := ht'
      refine ⟨⟨_, (hgain.trans hset).trans (.retake hset.steady hr'), fun V => ?_⟩, ?_⟩
      · obtain ⟨V', hrun, hagrees, hvalue⟩ := hprep V
        rw [List.append_nil, Vars.run_append hrun, ← hlow.store hagrees, ← hvalue]
        have hstore := hagrees.store ((Slot.field base t key).store V') (s'.value V')
        have hact : Vars.storeAll [((Slot.field base t key).store V', s'.value V')] V' =
            V'.run [.setField base t key s'] := rfl
        rwa [hact] at hstore
      · have hc := hput.cost
        have hact : Operand.cost d2.active y = Operand.cost d.active y := by rw [hset.active, hgain.active]
        have hf : f + Operand.cost d2.active y = d2.free := hf'
        show f + s.cost d.active = d.free
        omega
    cases base <;> exact hrest

end Compile

end LuaMachine
