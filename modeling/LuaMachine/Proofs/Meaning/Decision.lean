/-
  WHAT AN EXPRESSION COMES TO WHILE ITS CODE IS WRITTEN. Its value is where its place says when control
  falls through, or it has been decided by a jump that waits: one behind a TESTSET brings the value, any
  other stands for true or false.

  * `Yields` -- **all ways an expression can go for a value, or for values without an order**.
-/
import LuaMachine.Proofs.Meaning.Completion

namespace LuaMachine

open Operand (noRegister)

/-! ## 1. Values of half-written expressions -/

def Instr.Compares (i : Instr) (p : Proto) (regs : Nat → Value) (r : Except Clash Value) : Prop :=
  ∃ order x y, i.opcode.order? = some order ∧ p.value? regs i.b.val = some x ∧
    p.value? regs i.c.val = some y ∧
    r = match order x y with
      | some outcome => .ok (.bool (outcome = (i.a.val ≠ 0 : Bool)))
      | none => .error (x.type, y.type)

namespace Place

/-- Instructions at the end of the code that may still change: a NOT may be taken back, a comparison
    turned round. -/
def back : Place → Nat
  | pending _ => 1
  | compare _ => 2
  | _ => 0

def read : Place → Place
  | localVar r => fixed r
  | p => p

/-- What a place stands for when control is before the instructions that may still change. -/
def Holds (p : Proto) (d : Draft) (regs : Nat → Value) (r : Except Clash Value) : Place → Prop
  | nil => r = .ok .nil
  | bool b => r = .ok (.bool b)
  | constant k => ∃ c, p.constants[k]? = some c ∧ r = .ok (.ofConstant c)
  | float x => r = .ok (.float x)
  | int i => r = .ok (.int i)
  | fixed reg | localVar reg => r = .ok (regs reg)
  | pending pc => r = .ok (.bool (regs (d.instr pc).b.val).isFalsy)
  | compare _ => (d.instr (d.pc - 2)).Compares p regs r
  | _ => False

/-- Places met while a formula is read. What may still change stands at the end, and no jump goes
    behind it. -/
def Sits (d : Draft) : Place → Prop
  | nil | bool _ | float _ | int _ => True
  | constant k => ∃ c, d.constants[k]? = some c
  | fixed r | localVar r => r < d.active
  | pending pc => pc + 1 = d.pc ∧ d.here = [] ∧ (d.instr pc).opcode = .not ∧ (d.instr pc).b.val < 256
  | compare js => ∃ j, js = [j] ∧ j + 1 = d.pc ∧ 1 ≤ j ∧ d.here = [] ∧ d.Jmp j ∧
      ∃ order, (d.instr (j - 1)).opcode.order? = some order
  | _ => False

end Place

namespace Expr

def top (d : Draft) (e : Expr) : Nat := d.pc - e.place.back

def exits (e : Expr) : List Nat := e.onTrue ++ e.onFalse

structure Sits (list : List Nat) (d : Draft) (e : Expr) : Prop where
  place : e.place.Sits d
  waits : d.Waits (list ++ e.exits) (e.top d)
  literal : ∀ k, e.place = .constant k → ∃ t, d.constants[k]? = some (.str t)

end Expr

def Draft.Poised (d : Draft) (j : Nat) (b : Bool) (v : Value) (s : Spot) : Prop :=
  if d.Sets j then s.pc = j - 1 ∧ s.regs (d.instr (j - 1)).b.val = v ∧
    (d.instr (j - 1)).b.val < 256 ∧ (d.instr (j - 1)).c.val = b.toNat
  else s.pc = j ∧ v = .bool b

def Decides (p : Proto) (d : Draft) (low : Nat) (s : Spot) (j : Nat) (b : Bool) (v : Value) : Prop :=
  v.isFalsy = !b ∧ ∃ s', p.Path low s s' ∧ d.Poised j b v s'

def Draft.Primed (d : Draft) (p : Proto) (regs : Nat → Value) : Prop :=
  d.Open → ∀ i, p.code[d.pc - 1]? = some i → ∀ r, i.Clears r → regs r = .nil

structure Draft.Entered (d : Draft) (p : Proto) (pc : Nat) (s : Spot) : Prop where
  near : s.pc = pc ∨ ∃ j ∈ d.here, ∃ b v, v.isFalsy = !b ∧ d.Poised j b v s
  primed : d.Primed p s.regs

/-- What an expression comes to from `s`. -/
inductive Yields (p : Proto) (d : Draft) (low : Nat) (s : Spot) (e : Expr) : Except Clash Value → Prop where
  | falls {s' : Spot} {r : Except Clash Value} (h : p.Path low s s') (ht : d.Entered p (e.top d) s')
      (hv : e.place.Holds p d s'.regs r) : Yields p d low s e r
  | onTrue {j : Nat} {v : Value} (hj : j ∈ e.onTrue) (h : Decides p d low s j true v) :
      Yields p d low s e (.ok v)
  | onFalse {j : Nat} {v : Value} (hj : j ∈ e.onFalse) (h : Decides p d low s j false v) :
      Yields p d low s e (.ok v)
  | fails {c : Clash} (h : p.Fails low s c) : Yields p d low s e (.error c)

def Arrives (p : Proto) (low : Nat) (s : Spot) (pc reg : Nat) : Except Clash Value → Prop
  | .ok v => ∃ regs, p.Path low s ⟨pc, regs⟩ ∧ regs reg = v
  | .error c => p.Fails low s c

def Brings (p : Proto) (d : Draft) (low : Nat) (s : Spot) (reg : Nat) : Except Clash Value → Prop
  | .ok v => ∃ s', p.Path low s s' ∧ d.Entered p d.pc s' ∧ s'.regs reg = v
  | .error c => p.Fails low s c

variable {p : Proto} {d d' : Draft} {low low' : Nat} {s s' : Spot} {j : Nat} {b : Bool} {v : Value}
  {e : Expr} {r : Except Clash Value} {list : List Nat}

namespace Decides

theorem after (h : p.Path low s s') (h' : Decides p d low s' j b v) : Decides p d low s j b v := by
  obtain ⟨hv, s'', hp, hr⟩ := h'
  exact ⟨hv, s'', h.trans hp, hr⟩

end Decides

theorem Draft.Poised.congr (h : d.Poised j b v s) (ht : d.SameTests list d') (hj : j ∈ list) :
    d'.Poised j b v s := by
  obtain ⟨hiff, hinstr⟩ := ht j hj
  unfold Poised at h ⊢
  by_cases hs : d.Sets j
  · rw [if_pos hs] at h
    rw [if_pos (hiff.mpr hs), hinstr hs]
    exact h
  · rw [if_neg hs] at h
    rw [if_neg fun h => hs (hiff.mp h)]
    exact h

theorem Decides.congr (h : Decides p d low s j b v) (ht : d.SameTests list d') (hj : j ∈ list) :
    Decides p d' low s j b v := by
  obtain ⟨hv, s', hp, hr⟩ := h
  exact ⟨hv, s', hp, hr.congr ht hj⟩

theorem Sends.path {dest : Nat} {regs : Nat → Value} (h : Sends p.code j dest) :
    p.Path low ⟨j, regs⟩ ⟨dest, regs⟩ := by
  obtain ⟨i, hi, ho, ha, hd⟩ := h
  exact .jump (Proto.effect_jmp (s := ⟨j, regs⟩) hi ho ha hd) rfl

theorem Draft.Lands.congr {code : Array Instr} {vt reg pt : Nat} (h : d'.Lands code vt reg pt j)
    (ht : d.SameTests list d') (hj : j ∈ list) : d.Lands code vt reg pt j := by
  obtain ⟨hiff, hinstr⟩ := ht j hj
  unfold Lands at h ⊢
  by_cases hs : d.Sets j
  · rw [if_pos (hiff.mpr hs), hinstr hs] at h
    rw [if_pos hs]
    exact h
  · rw [if_neg fun h => hs (hiff.mp h)] at h
    rw [if_neg hs]
    exact h

theorem Instr.Compares.step {i : Instr} {pc : Nat} {regs : Nat → Value} (h : i.Compares p regs r)
    (hi : p.code[pc]? = some i) (low : Nat) :
    r = .ok (.bool true) ∧ p.Path low ⟨pc, regs⟩ ⟨pc + 1, regs⟩ ∨
    r = .ok (.bool false) ∧ p.Path low ⟨pc, regs⟩ ⟨pc + 2, regs⟩ ∨
    ∃ c, r = .error c ∧ p.Fails low ⟨pc, regs⟩ c := by
  obtain ⟨order, x, y, ho, hx, hy, hr⟩ := h
  have he := Proto.effect_compare (s := ⟨pc, regs⟩) hi ho
  simp only [Proto.compare?, hx, hy] at he
  cases hxy : order x y with
  | none =>
    rw [hxy] at hr he
    exact .inr (.inr ⟨_, hr, _, .refl _, he⟩)
  | some outcome =>
    rw [hxy] at hr he
    by_cases hout : outcome = (i.a.val ≠ 0 : Bool)
    · refine .inl ⟨?_, ?_⟩
      · simp only [decide_eq_true hout] at hr
        exact hr
      · simp only [if_pos hout] at he
        exact .jump he rfl
    · refine .inr (.inl ⟨?_, ?_⟩)
      · simp only [decide_eq_false hout] at hr
        exact hr
      · simp only [if_neg hout] at he
        exact .jump he rfl

theorem Instr.Compares.negate {i : Instr} {regs : Nat → Value} (h : i.Compares p regs r) :
    (i.setA (if i.a.val = 0 then 1 else 0)).Compares p regs
      (r.map fun v => .bool v.isFalsy) := by
  obtain ⟨order, x, y, ho, hx, hy, hr⟩ := h
  refine ⟨order, x, y, ho, hx, hy, ?_⟩
  subst hr
  cases order x y with
  | none => rfl
  | some outcome =>
    simp only [Except.map, a_setA]
    by_cases ha : i.a.val = 0 <;> cases outcome <;> simp [ha, Value.isFalsy]

theorem Draft.Poised.goes {pc : Nat} (h : d.Poised j b v s) (hv : v.isFalsy = !b)
    (hl : d.Lands p.code pc noRegister pc j) :
    ∃ s', p.effect? s = some (.ok s') ∧ s'.regs = s.regs ∧ ∀ low, p.Path low s' ⟨pc, s.regs⟩ := by
  obtain ⟨pc0, regs⟩ := s
  unfold Poised at h
  unfold Lands at hl
  by_cases hs : d.Sets j
  · rw [if_pos hs] at h hl
    obtain ⟨rfl, hval, hb, hc⟩ := h
    obtain ⟨hsend, hcode⟩ := hl
    have hpos : j - 1 + 1 = j := Nat.sub_add_cancel hs.1
    have hne : ¬ v.isFalsy = b := by
      rw [hv]
      cases b <;> decide
    have ha : (d.instr (j - 1)).b.val % 256 = (d.instr (j - 1)).b.val := Nat.mod_eq_of_lt hb
    have hc' : (Instr.ofABC .test (d.instr (j - 1)).b.val 0 (d.instr (j - 1)).c.val).c.val = b.toNat := by
      rw [Instr.c_ofABC, hc]
      cases b <;> rfl
    simp only [Instr.retarget, ne_eq, not_true_eq_false, false_and, if_false] at hcode
    have he := Proto.effect_test (s := ⟨j - 1, regs⟩) hcode (by simp) hc'
    simp only [Instr.a_ofABC, ha, show regs (d.instr (j - 1)).b.val = v from hval, if_neg hne, Spot.past, hpos] at he
    exact ⟨_, he, rfl, fun _ => hsend.path⟩
  · rw [if_neg hs] at h hl
    obtain ⟨rfl, -⟩ := h
    obtain ⟨i, hi, ho, ha, hd⟩ := hl
    exact ⟨_, Proto.effect_jmp (s := ⟨pc0, regs⟩) hi ho ha hd, rfl, fun _ => .refl _⟩

theorem Draft.Poised.here {pc : Nat} (h : d.Poised j b v s) (hv : v.isFalsy = !b)
    (hl : d.Lands p.code pc noRegister pc j) : p.Path low s ⟨pc, s.regs⟩ := by
  obtain ⟨s', he, hr, hpath⟩ := h.goes hv hl
  exact .step he (fun r _ => by rw [hr]) (hpath low)

/-- **What a jump brings once it is aimed**: a value where it brings one, else true or false. -/
theorem Decides.lands {vt reg pt : Nat} (h : Decides p d low s j b v) (hl : d.Lands p.code vt reg pt j)
    (hr : low ≤ reg ∧ reg < 255) :
    ∃ regs, (d.Sets j ∧ p.Path low s ⟨vt, regs⟩ ∧ regs reg = v) ∨
      ¬ d.Sets j ∧ p.Path low s ⟨pt, regs⟩ ∧ v = .bool b := by
  obtain ⟨hv, ⟨pc0, regs⟩, hpath, hd⟩ := h
  unfold Draft.Poised at hd
  unfold Draft.Lands at hl
  by_cases hs : d.Sets j
  · rw [if_pos hs] at hd hl
    obtain ⟨rfl, hval, hb, hc⟩ := hd
    obtain ⟨hsend, hcode⟩ := hl
    obtain ⟨hlow, hlt⟩ := hr
    have hval : regs (d.instr (j - 1)).b.val = v := hval
    have hpos : j - 1 + 1 = j := Nat.sub_add_cancel hs.1
    have hne : ¬ v.isFalsy = b := by
      rw [hv]
      cases b <;> decide
    unfold Instr.retarget at hcode
    split at hcode
    · next hset =>
      -- the TESTSET takes the value along
      have hreg : reg % 256 = reg := Nat.mod_eq_of_lt (by omega)
      have he := Proto.effect_testSet (s := ⟨j - 1, regs⟩) hcode hs.2 hc
      simp only [Instr.b_setA, Instr.a_setA, hval, if_neg hne, hreg] at he
      have hstep : p.Path low ⟨j - 1, regs⟩ ⟨j, fun i => if i = reg then v else regs i⟩ := by
        have := Proto.Path.write (n := 0) he hlow
        simpa only [Spot.put, Spot.past, hpos, Nat.add_zero] using this
      exact ⟨_, .inl ⟨hs, hpath.trans (hstep.trans hsend.path), if_pos rfl⟩⟩
    · next hset =>
      -- the value is in its register
      have ha : (d.instr (j - 1)).b.val % 256 = (d.instr (j - 1)).b.val := Nat.mod_eq_of_lt hb
      have hc' : (Instr.ofABC .test (d.instr (j - 1)).b.val 0 (d.instr (j - 1)).c.val).c.val = b.toNat := by
        rw [Instr.c_ofABC, hc]
        cases b <;> rfl
      have he := Proto.effect_test (s := ⟨j - 1, regs⟩) hcode (by simp) hc'
      simp only [Instr.a_ofABC, ha, hval, if_neg hne, Spot.past, hpos] at he
      have hreg : reg = (d.instr (j - 1)).b.val := by
        by_cases hb : reg = (d.instr (j - 1)).b.val
        · exact hb
        · exact absurd ⟨by simp only [noRegister]; omega, hb⟩ hset
      exact ⟨regs, .inl ⟨hs, hpath.trans ((Proto.Path.jump he rfl).trans hsend.path), by rw [hreg]; exact hval⟩⟩
  · rw [if_neg hs] at hd hl
    obtain ⟨rfl, hb⟩ := hd
    exact ⟨regs, .inr ⟨hs, hpath.trans hl.path, hb⟩⟩

namespace Draft

theorem Fresh.primed {regs : Nat → Value} (h : d.Fresh) : d.Primed p regs := fun ho => absurd ho h.not_open

namespace Entered

variable {pc : Nat} {regs : Nat → Value}

theorem direct (hp : d.Primed p regs) : d.Entered p pc ⟨pc, regs⟩ := ⟨.inl rfl, hp⟩

/-- **Once an instruction is written there**, control comes to it, and nothing has changed. -/
theorem path (h : d.Entered p pc s) (hl : ∀ j ∈ d.here, d.Lands p.code pc noRegister pc j) :
    p.Path low s ⟨pc, s.regs⟩ := by
  rcases h.near with rfl | ⟨j, hj, b, v, hv, hpoised⟩
  · exact .refl _
  · exact hpoised.here hv (hl j hj)

theorem pc_eq (h : d.Entered p pc s) (hh : d.here = []) : s.pc = pc := by
  rcases h.near with hs | ⟨j, hj, -⟩
  · exact hs
  · rw [hh] at hj
    cases hj

theorem patched {target : Nat} {l : JumpList} (h : d.Entered p pc s) (ht : d.pc ≤ target) :
    { d with lastTarget := target, here := d.here ++ l }.Entered p pc s := by
  refine ⟨h.near.imp_right fun ⟨j, hj, hrest⟩ => ⟨j, List.mem_append_left _ hj, hrest⟩, fun ho => ?_⟩
  exact absurd ho.1 (Nat.not_lt.mpr ht)

theorem of_poised {target : Nat} {l : JumpList} (hj : j ∈ l) (hv : v.isFalsy = !b) (h : d.Poised j b v s)
    (ht : d.pc ≤ target) : { d with lastTarget := target, here := d.here ++ l }.Entered p pc s :=
  ⟨.inr ⟨j, List.mem_append_right _ hj, b, v, hv, h⟩, fun ho => absurd ho.1 (Nat.not_lt.mpr ht)⟩

end Entered

end Draft

theorem Decides.dropped (h : Decides p d low s j b v) (hn : ¬ d'.Sets j)
    (ht : d.Sets j → p.code[j - 1]? = some ((d.instr (j - 1)).retarget noRegister)) :
    Decides p d' low s j (!b) (.bool v.isFalsy) := by
  obtain ⟨hv, ⟨pc0, regs⟩, hpath, hd⟩ := h
  have hval : Value.bool v.isFalsy = .bool !b := by rw [hv]
  refine ⟨by rw [hval]; cases b <;> rfl, ⟨j, regs⟩, ?_, ?_⟩
  · unfold Draft.Poised at hd
    by_cases hs : d.Sets j
    · rw [if_pos hs] at hd
      obtain ⟨rfl, hreg, hb, hc⟩ := hd
      have hreg : regs (d.instr (j - 1)).b.val = v := hreg
      have hcode := ht hs
      have hpos : j - 1 + 1 = j := Nat.sub_add_cancel hs.1
      have ha : (d.instr (j - 1)).b.val % 256 = (d.instr (j - 1)).b.val := Nat.mod_eq_of_lt hb
      have hc' : (Instr.ofABC .test (d.instr (j - 1)).b.val 0 (d.instr (j - 1)).c.val).c.val = b.toNat := by
        rw [Instr.c_ofABC, hc]
        cases b <;> rfl
      have hne : ¬ v.isFalsy = b := by
        rw [hv]
        cases b <;> decide
      simp only [Instr.retarget, ne_eq, not_true_eq_false, false_and, if_false] at hcode
      have he := Proto.effect_test (s := ⟨j - 1, regs⟩) hcode (by simp) hc'
      simp only [Instr.a_ofABC, ha, hreg, if_neg hne, Spot.past, hpos] at he
      exact hpath.trans (.jump he rfl)
    · rw [if_neg hs] at hd
      obtain ⟨rfl, -⟩ := hd
      exact hpath
  · unfold Draft.Poised
    rw [if_neg hn]
    exact ⟨rfl, hval⟩

namespace Yields

theorem after (h : p.Path low s s') (h' : Yields p d low s' e r) : Yields p d low s e r := by
  cases h' with
  | falls hp ht hv => exact .falls (h.trans hp) ht hv
  | onTrue hj hd => exact .onTrue hj (hd.after h)
  | onFalse hj hd => exact .onFalse hj (hd.after h)
  | fails hf => exact .fails (.after h hf)

end Yields

theorem Arrives.after {pc reg : Nat} (h : p.Path low s s') (h' : Arrives p low s' pc reg r) :
    Arrives p low s pc reg r := by
  cases r with
  | ok v =>
    obtain ⟨regs, hp, hv⟩ := h'
    exact ⟨regs, h.trans hp, hv⟩
  | error c => exact .after h h'

theorem Brings.after {reg : Nat} (h : p.Path low s s') (h' : Brings p d low s' reg r) : Brings p d low s reg r := by
  cases r with
  | ok v =>
    obtain ⟨s'', hp, hv⟩ := h'
    exact ⟨s'', h.trans hp, hv⟩
  | error c => exact .after h h'

theorem Arrives.brings {reg : Nat} (h : Arrives p low s d.pc reg r) (hp : ∀ regs, d.Primed p regs) :
    Brings p d low s reg r := by
  cases r with
  | ok v =>
    obtain ⟨regs, hpath, hv⟩ := h
    exact ⟨_, hpath, .direct (hp regs), hv⟩
  | error c => exact h

theorem Brings.arrives {reg : Nat} (h : Brings p d low s reg r)
    (hl : ∀ j ∈ d.here, d.Lands p.code d.pc noRegister d.pc j) : Arrives p low s d.pc reg r := by
  cases r with
  | ok v =>
    obtain ⟨s', hp, ht, hv⟩ := h
    exact ⟨s'.regs, hp.trans (ht.path hl), hv⟩
  | error c => exact h

/-! ## 2. Drafts while a formula is read -/

namespace Draft

structure Roomy (d : Draft) : Prop where
  active : d.active ≤ d.free
  free : d.free ≤ d.maxStack
  stack : d.maxStack ≤ 254
  constants : d.constants.size ≤ Instr.maxAx + 1

/-- The same locals are in scope, of the same function, and the same gotos wait. -/
structure SameScope (d d' : Draft) : Prop where
  locals : d'.locals = d.locals
  declared : d'.declared = d.declared
  active : d'.active = d.active
  blocks : d'.blocks = d.blocks
  vararg : d'.isVararg = d.isVararg
  params : d'.params = d.params
  labels : d'.labels = d.labels
  gotos : d'.gotos = d.gotos

def Calm (d : Draft) : Prop := (d.instr (d.pc - 1)).opcode ≠ .testSet

/-- What reading a formula keeps of a draft: scopes, constants, and the tests of the jumps that wait
    elsewhere. The code grows no shorter. -/
structure Moves (list : List Nat) (d d' : Draft) : Prop extends d.SameScope d' where
  constants : ∀ (k : Nat) (c : Constant), d.constants[k]? = some c → d'.constants[k]? = some c
  tests : d.SameTests list d'
  grows : d.pc ≤ d'.pc
  calm : d.Calm → d'.Calm

variable {d d' d'' : Draft} {list list' : List Nat}

theorem SameScope.of_rest {code : Array Instr} {lines : Array Nat} {constants : Array Constant}
    {high free target : Nat} {here : JumpList}
    (h : d' = { d with
      code := code, lines := lines, constants := constants, maxStack := high, free := free, here := here,
      lastTarget := target }) : d.SameScope d' := by
  subst h
  exact ⟨rfl, rfl, rfl, rfl, rfl, rfl, rfl, rfl⟩

theorem SameScope.trans (h : d.SameScope d') (h' : d'.SameScope d'') : d.SameScope d'' where
  locals := h'.locals.trans h.locals
  declared := h'.declared.trans h.declared
  active := h'.active.trans h.active
  blocks := h'.blocks.trans h.blocks
  vararg := h'.vararg.trans h.vararg
  params := h'.params.trans h.params
  labels := h'.labels.trans h.labels
  gotos := h'.gotos.trans h.gotos

theorem Moves.refl (list : List Nat) (d : Draft) : d.Moves list d :=
  ⟨.of_rest rfl, fun _ _ => id, .refl _ _, Nat.le_refl _, id⟩

theorem Moves.trans (h : d.Moves list d') (h' : d'.Moves list d'') : d.Moves list d'' where
  toSameScope := h.toSameScope.trans h'.toSameScope
  constants k c hk := h'.constants k c (h.constants k c hk)
  tests := h.tests.trans h'.tests
  grows := Nat.le_trans h.grows h'.grows
  calm hc := h'.calm (h.calm hc)

theorem Moves.mono (h : d.Moves list d') (hl : ∀ j ∈ list', j ∈ list) : d.Moves list' d' :=
  ⟨h.toSameScope, h.constants, h.tests.mono hl, h.grows, h.calm⟩

theorem Moves.left (h : d.Moves (list ++ list') d') : d.Moves list d' :=
  h.mono fun _ => List.mem_append_left _

theorem Extended.last {is : List Instr} {i : Instr} (h : d.Extended (is ++ [i]) d') :
    d'.instr (d'.pc - 1) = i := by
  have hpc := h.pc
  have hlast := h.new is.length (by simp)
  rw [List.getElem?_concat_length] at hlast
  refine instr_eq ?_
  rw [hpc]
  simpa using hlast

theorem Extended.calm {is : List Instr} (h : d.Extended is d') (hl : ∃ i, is.getLast? = some i ∧ i.opcode ≠ .testSet) :
    d'.Calm := by
  obtain ⟨i, hi, ho⟩ := hl
  obtain ⟨is', rfl⟩ := List.getLast?_eq_some_iff.mp hi
  unfold Calm
  rw [h.last]
  exact ho

theorem Extended.moves {is : List Instr} {top : Nat} (h : d.Extended is d') (hw : d.Waits list top)
    (hl : ∃ i, is.getLast? = some i ∧ i.opcode ≠ .testSet) : d.Moves list d' where
  toSameScope := .of_rest h.rest
  constants k c hk := by
    rw [h.rest]
    exact hk
  tests := h.sameTests hw
  grows := by
    rw [h.pc]
    exact Nat.le_add_right _ _
  calm _ := h.calm hl

theorem AimsAt.calm {l : List Nat} {vt reg pt : Nat} (h : d.AimsAt vt reg pt l d') (hc : d.Calm) : d'.Calm := by
  have hpc : d'.pc = d.pc := h.size
  unfold Calm
  rw [hpc]
  by_cases hl : d.Loose l (d.pc - 1)
  · exact (h.lands _ (hl.resolve_right fun hx => hc hx.2)).jmp.not_testSet
  · rw [instr_congr (h.same _ hl)]
    exact hc

theorem AimsAt.moves {l : List Nat} {top vt reg pt : Nat} (h : d.AimsAt vt reg pt l d')
    (hw : d.Waits (list ++ l) top) : d.Moves list d' where
  toSameScope := .of_rest h.rest
  constants k c hk := by
    rw [h.rest]
    exact hk
  tests := h.sameTests hw
  grows := Nat.le_of_eq h.size.symm
  calm := h.calm

theorem Drops.calm {l : List Nat} (h : d.Drops l d') (hc : d.Calm) : d'.Calm := by
  have hpc : d'.pc = d.pc := h.size
  unfold Calm
  rw [hpc, instr_congr (h.same _ fun hx => hc hx.2)]
  exact hc

theorem Drops.moves {l : List Nat} (h : d.Drops l d') (hd : ∀ j ∈ list, j ∉ l) : d.Moves list d' where
  toSameScope := .of_rest h.rest
  constants k c hk := by
    rw [h.rest]
    exact hk
  tests := h.sameTests hd
  grows := Nat.le_of_eq h.size.symm
  calm := h.calm

theorem Roomy.congr (h : d.Roomy) (ha : d'.active = d.active) (hf : d'.free = d.free)
    (hm : d'.maxStack = d.maxStack) (hk : d'.constants = d.constants) : d'.Roomy :=
  ⟨by rw [ha, hf]; exact h.active, by rw [hf, hm]; exact h.free, by rw [hm]; exact h.stack,
    by rw [hk]; exact h.constants⟩

theorem Roomy.lt (h : d.Roomy) {r : Nat} (hr : r < d.active) : r < 254 := by
  have := h.active
  have := h.free
  have := h.stack
  omega

theorem Roomy.taken (h : d.Roomy) {m : Nat} (hm : max d.maxStack (d.free + 1) = m) (hle : m ≤ 254) :
    { d with maxStack := m, free := d.free + 1 }.Roomy :=
  ⟨by have := h.active; show d.active ≤ d.free + 1; omega, by show d.free + 1 ≤ m; omega, hle, h.constants⟩

theorem Extended.roomy {is : List Instr} (h : d.Extended is d') (hr : d.Roomy) : d'.Roomy :=
  hr.congr (by rw [h.rest]) (by rw [h.rest]) (by rw [h.rest]) (by rw [h.rest])

theorem AimsAt.roomy {l : List Nat} {vt reg pt : Nat} (h : d.AimsAt vt reg pt l d') (hr : d.Roomy) :
    d'.Roomy :=
  hr.congr (by rw [h.rest]) (by rw [h.rest]) (by rw [h.rest]) (by rw [h.rest])

theorem Drops.roomy {l : List Nat} (h : d.Drops l d') (hr : d.Roomy) : d'.Roomy :=
  hr.congr (by rw [h.rest]) (by rw [h.rest]) (by rw [h.rest]) (by rw [h.rest])

theorem Extended.free {is : List Instr} (h : d.Extended is d') : d'.free = d.free := by
  rw [h.rest]

theorem Extended.fresh (is : List Instr) {i : Instr} (h : d.Extended (is ++ [i]) d')
    (hi : i.opcode ≠ .loadNil) : d'.Fresh :=
  .inr (by rw [h.last]; exact hi)

end Draft

end LuaMachine
