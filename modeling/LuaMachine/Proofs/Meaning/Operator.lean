/-
  OPERATORS DO WHAT THEY MEAN. A condition becomes a fork: control goes on, or a jump that waits takes the
  value along. `not` makes jumps change sides; a comparison compares what its operands were when they were
  evaluated.

  * `Forks` -- what a value does at a fork; `Compile.Writes.jumpOn_forks` -- **a test is a fork**;
  * `Negated`, **`Compile.Writes.logicalNot_negates`**;
  * `Compared`, **`Compile.Writes.emitCompare_compares`**.
-/
import LuaMachine.Compiler.Operator
import LuaMachine.Proofs.Meaning.Register

namespace LuaMachine

open Operand (noRegister)

/-! ## 1. Forks -/

theorem Proto.effect_retarget {p : Proto} {s : Spot} {i : Instr} {reg : Nat} {t : Bool}
    (hi : p.code[s.pc]? = some (i.retarget reg)) (ho : i.opcode = .testSet) (hb : i.b.val < 256)
    (hc : i.c.val = t.toNat) (hv : (s.regs i.b.val).isFalsy = t) :
    p.effect? s = some (.ok (s.past 2)) := by
  unfold Instr.retarget at hi
  split at hi
  · have he := effect_testSet hi ho hc
    rw [Instr.b_setA, if_pos hv] at he
    exact he
  · have hc' : (Instr.ofABC .test i.b.val 0 i.c.val).c.val = t.toNat := by
      rw [Instr.c_ofABC, hc]
      cases t <;> rfl
    have he := effect_test hi (by simp) hc'
    rw [Instr.a_ofABC, Nat.mod_eq_of_lt hb, if_pos hv] at he
    exact he

inductive Forks (p : Proto) (d : Draft) (low : Nat) (s : Spot) (cond : Bool) (l : List Nat) :
    Except Clash Value → Prop where
  | pass {v : Value} {s' : Spot} (hv : v.isFalsy = cond) (h : p.Path low s s') (ht : d.Entered p d.pc s') :
      Forks p d low s cond l (.ok v)
  | take {v : Value} {j : Nat} (hj : j ∈ l) (h : Decides p d low s j cond v) : Forks p d low s cond l (.ok v)
  | fails {c : Clash} (h : p.Fails low s c) : Forks p d low s cond l (.error c)

theorem Forks.after {p : Proto} {d : Draft} {low : Nat} {s s' : Spot} {cond : Bool} {l : List Nat}
    {r : Except Clash Value} (h : p.Path low s s') (h' : Forks p d low s' cond l r) :
    Forks p d low s cond l r := by
  cases h' with
  | pass hv hp ht => exact .pass hv (h.trans hp) ht
  | take hj hd => exact .take hj (hd.after h)
  | fails hf => exact .fails (.after h hf)

/-- A place has become a fork, with these jumps. -/
structure Forked (list : List Nat) (d : Draft) (q : Place) (cond : Bool) (js : List Nat) (d' : Draft) :
    Prop where
  moves : d.Moves list d'
  roomy : d'.Roomy
  free : d'.free = d.free
  waits : d'.Waits (list ++ js) d'.pc
  quiet : d'.pc = d.pc → q.back = 0 → js = []
  runs : ∀ p : Proto, Completes p d' (list ++ js) d'.pc → Completes p d list (d.pc - q.back) ∧
    ∀ (low : Nat) (s : Spot) (r : Except Clash Value), low ≤ d.free → d.Entered p (d.pc - q.back) s →
      q.Holds p d s.regs r → Forks p d' low s cond js r

variable {list : List Nat} {d d' : Draft} {e : Expr}

namespace Forked

theorem of_not {d1 : Draft} {pc : Nat} {cond : Bool} (hs : (Place.pending pc).Sits d) (hw : d.Waits list pc)
    (hr : d.Roomy) (hd1 : d1 = { d with code := d.code.pop, lines := d.lines.pop })
    (hx : d1.Extended [.ofABC .test (d.instr pc).b.val 0 (!cond).toNat, .ofAsBx .jmp 0 (-1)] d') :
    Forked list d (.pending pc) cond [d1.pc + 1] d' := by
  obtain ⟨hpc, hh, -, hb⟩ := hs
  have hmod : (d.instr pc).b.val % 256 = (d.instr pc).b.val := Nat.mod_eq_of_lt hb
  have htop : d.pc - 1 = pc := by omega
  have hpc1 : d1.pc = pc := by
    rw [hd1]
    simp only [Draft.pc, Array.size_pop] at hpc ⊢
    omega
  have hag : d.Agrees pc d1 := by
    rw [hd1]
    exact .pop hpc hh
  have hw1 : d1.Waits list d1.pc := hag.waits hw (Nat.le_refl _) (by omega)
  have hr1 : d1.Roomy := hr.congr (by rw [hd1]) (by rw [hd1]) (by rw [hd1]) (by rw [hd1])
  have hpc' : d'.pc = pc + 2 := by rw [hx.pc, hpc1]; rfl
  have hmoves : d.Moves list d' := by
    have hscope : d.SameScope d1 := .of_rest hd1
    have hm := hx.moves hw1 ⟨_, rfl, by simp⟩
    refine ⟨hscope.trans hm.toSameScope, fun k c hk => hm.constants k c ?_, (hag.sameTests hw).trans hm.tests, by omega,
      fun _ => hx.calm ⟨_, rfl, by simp⟩⟩
    rw [hd1]
    exact hk
  refine ⟨hmoves, hx.roomy hr1, by rw [hx.free, hd1], hx.waits_jump hw1, by rintro _ ⟨⟩, fun p hp => ?_⟩
  have hnew : ∀ j ∈ list ++ [d1.pc + 1], j ∈ list ∨ d1.pc < j ∨ j = d1.pc ∧ ¬ d'.Sets j := by
    intro j hj
    rcases List.mem_append.mp hj with hj | hj
    · exact .inl hj
    · rw [List.mem_singleton] at hj
      exact .inr (.inl (by omega))
  obtain ⟨hp1, hlands, hcode⟩ := hp.extended_marked (m := d.free) hx (by simp) hw1 (by omega) hnew fun _ =>
    List.mem_append_left _
  have htest : (d'.instr d1.pc) = .ofABC .test (d.instr pc).b.val 0 (!cond).toNat :=
    Draft.instr_eq (hx.new 0 (by simp))
  have hi : p.code[d1.pc]? = some (.ofABC .test (d.instr pc).b.val 0 (!cond).toNat) := by
    refine hcode 0 _ rfl (by omega) ?_ (by simp)
    rintro (hm | ⟨-, ho⟩)
    · rcases List.mem_append.mp hm with hm | hm
      · have := hw1.lt hm
        omega
      · rw [List.mem_singleton] at hm
        omega
    · rw [Nat.add_zero, htest] at ho
      simp at ho
  rw [show (Place.pending pc).back = 1 from rfl, htop]
  have hag1 : d.Agrees pc { d1 with lastTarget := d1.pc } := ⟨hag.same, hag.before, hag.after⟩
  refine ⟨hag1.completes hp1 (.inl (Nat.le_refl _)) hw (by omega) (by omega) ?_, fun low s r _ hs hv => ?_⟩
  · rw [hd1]
    exact fun _ _ => id
  · obtain ⟨pc0, regs⟩ := s
    obtain rfl : pc0 = pc := hs.pc_eq hh
    have hr : r = .ok (.bool (regs (d.instr pc0).b.val).isFalsy) := hv
    subst hr
    have hc : (Instr.ofABC .test (d.instr pc0).b.val 0 (!cond).toNat).c.val = (!cond).toNat := by
      rw [Instr.c_ofABC]
      cases cond <;> rfl
    have he := Proto.effect_test (s := ⟨d1.pc, regs⟩) hi (by simp) hc
    rw [Instr.a_ofABC, hmod] at he
    simp only [hpc1, Spot.past] at he
    have hfresh : d'.Fresh := hx.fresh [_] (by simp)
    by_cases hfalsy : (regs (d.instr pc0).b.val).isFalsy = !cond
    · rw [if_pos hfalsy, ← hpc'] at he
      refine .pass ?_ (.jump he rfl) (.direct hfresh.primed)
      rw [hfalsy]
      cases cond <;> rfl
    · have hcond : (regs (d.instr pc0).b.val).isFalsy = cond := by
        cases cond <;> simpa using hfalsy
      rw [if_neg hfalsy] at he
      refine .take (List.mem_singleton_self _) ⟨by rw [hcond]; cases cond <;> rfl, _, .jump he rfl, ?_⟩
      unfold Draft.Poised
      rw [if_neg]
      · rw [hpc1]
        exact ⟨rfl, by rw [hcond]⟩
      · rintro ⟨-, ho⟩
        rw [Nat.add_sub_cancel, htest] at ho
        simp at ho

theorem of_testSet {d1 : Draft} {q : Place} {r : Nat} {cond : Bool} (hh : Held list d q r d1)
    (hx : d1.Extended [.ofABC .testSet noRegister r cond.toNat, .ofAsBx .jmp 0 (-1)] d') :
    Forked list d q cond [d1.pc + 1] d' := by
  have hpc' : d'.pc = d1.pc + 2 := hx.pc
  have hgrows := hh.moves.grows
  refine ⟨hh.moves.trans (hx.moves hh.waits ⟨_, rfl, by simp⟩), hx.roomy hh.roomy, hx.free.trans hh.free,
    hx.waits_jump hh.waits, by omega, fun p hp => ?_⟩
  have hnew : ∀ j ∈ list ++ [d1.pc + 1], j ∈ list ∨ d1.pc < j ∨ j = d1.pc ∧ ¬ d'.Sets j := by
    intro j hj
    rcases List.mem_append.mp hj with hj | hj
    · exact .inl hj
    · rw [List.mem_singleton] at hj
      exact .inr (.inl (by omega))
  obtain ⟨hp1, hlands, -⟩ := hp.extended hx (by simp) hh.waits (by omega) hnew fun _ => List.mem_append_left _
  obtain ⟨hp0, hruns⟩ := hh.runs p hp1
  have hlt := hh.lt
  -- the test, which may still get its register
  have htest : d'.instr (d1.pc + 1 - 1) = .ofABC .testSet noRegister r cond.toNat :=
    Draft.instr_eq (hx.new 0 (by simp))
  have hsets : d'.Sets (d1.pc + 1) := ⟨by omega, by rw [htest]; simp⟩
  have hb : (d'.instr (d1.pc + 1 - 1)).b.val = r := by
    rw [htest, Instr.b_ofABC]
    exact Nat.mod_eq_of_lt (by omega)
  have hc : (d'.instr (d1.pc + 1 - 1)).c.val = cond.toNat := by
    rw [htest, Instr.c_ofABC]
    cases cond <;> rfl
  obtain ⟨reg, hcode⟩ := hp.tests _
    (List.mem_append_left _ (List.mem_append_right _ (List.mem_singleton_self _))) hsets
  refine ⟨hp0, fun low s x hl hs hv => ?_⟩
  have harr := hruns low s x hl hs hv
  cases x with
  | error c => exact .fails harr
  | ok v =>
    obtain ⟨s', hpath, ht, hreg⟩ := harr
    refine .after (hpath.trans (ht.path hlands)) ?_
    by_cases hfalsy : v.isFalsy = cond
    · have he := Proto.effect_retarget (s := ⟨d1.pc, s'.regs⟩) hcode hsets.2 (by omega) hc
        (by rw [hb]; exact (congrArg Value.isFalsy hreg).trans hfalsy)
      simp only [Spot.past, ← hpc'] at he
      exact .pass hfalsy (.jump he rfl) (.direct (hx.fresh [_] (by simp)).primed)
    · have hnot : v.isFalsy = !cond := by
        cases cond <;> simpa using hfalsy
      refine .take (List.mem_singleton_self _) ⟨hnot, _, .refl _, ?_⟩
      unfold Draft.Poised
      rw [if_pos hsets]
      exact ⟨rfl, by rw [hb]; exact hreg, by omega, hc⟩

theorem of_constant {q : Place} {cond : Bool} (hw : d.Waits list d.pc) (hr : d.Roomy) (hb : q.back = 0)
    (hv : ∀ (p : Proto) regs r, Completes p d list d.pc → q.Holds p d regs r →
      ∃ v, r = .ok v ∧ v.isFalsy = cond) : Forked list d q cond [] d := by
  refine ⟨.refl _ _, hr, rfl, by rw [List.append_nil]; exact hw, fun _ _ => rfl, fun p hp => ?_⟩
  rw [List.append_nil] at hp
  rw [hb, Nat.sub_zero]
  refine ⟨hp, fun low s r _ hs hh => ?_⟩
  obtain ⟨v, rfl, hfalsy⟩ := hv p s.regs r hp hh
  exact .pass hfalsy (.refl _) hs

end Forked

namespace Compile

/-- **A test is a fork.** -/
theorem Writes.jumpOn_forks {cond : Bool} (hs : e.place.Sits d) (hc : ∀ js, e.place ≠ .compare js)
    (hw : d.Waits list (e.top d)) (hr : d.Roomy) (hf : e.place = .nil → d.Tight) :
    Writes (Compile.jumpOn e cond) d fun l d' => Forked list d e.place cond l d' := by
  refine Writes.get fun s hget => ?_
  rw [hget]
  cases hnot : lastNot? d e.place with
  | some r =>
    simp only
    obtain ⟨pc, hp⟩ : ∃ pc, e.place = .pending pc := by
      cases hp : e.place <;> rw [hp] at hnot <;> first | exact ⟨_, rfl⟩ | cases hnot
    rw [hp] at hs hnot
    obtain ⟨hpc, hh, ho, hb⟩ := hs
    have hreg : r = (d.instr pc).b.val := by
      simp only [lastNot?, if_pos (And.intro ho hpc)] at hnot
      exact (Option.some.inj hnot).symm
    have htop : e.top d = pc := by
      rw [Expr.top, hp]
      show d.pc - 1 = pc
      omega
    rw [htop] at hw
    subst hreg
    refine Writes.bind (Writes.modifyFn ?_)
    have hw1 : Draft.Waits { d with code := d.code.pop, lines := d.lines.pop } list pc :=
      (Draft.Agrees.pop hpc hh).waits hw (by simp only [Draft.pc, Array.size_pop] at hpc ⊢; omega)
        (Nat.le_refl _)
    refine (Writes.condJump_extends hw1).imp ?_
    rintro l d' ⟨hl, hx⟩
    rw [hl, hp]
    exact .of_not ⟨hpc, hh, ho, hb⟩ hw hr rfl hx
  | none =>
    simp only
    refine (Writes.settleAnywhere_holds hs hc hw hr hf).andThen ?_
    rintro e' d1 ⟨r, he', hheld⟩
    subst he'
    refine (Writes.freeExpr (e := { e with place := .fixed r }) rfl).andThen fun _ d2 hd2 => ?_
    subst hd2
    refine (Writes.condJump_extends hheld.waits).imp ?_
    rintro l d' ⟨hl, hx⟩
    rw [hl]
    exact .of_testSet hheld hx

end Compile

/-! ## 2. Comparisons turned round -/

def Draft.Turned (d d' : Draft) : Prop :=
  d' = d.mapInstr (d.pc - 2) fun i => i.setA (if i.a.val = 0 then 1 else 0)

namespace Draft.Turned

variable {js : JumpList}

theorem pc (h : d.Turned d') : d'.pc = d.pc := by
  rw [h]
  simp [mapInstr, Draft.pc]

theorem instr (h : d.Turned d') (hs : (Place.compare js).Sits d) :
    d'.instr (d.pc - 2) =
      (d.instr (d.pc - 2)).setA (if (d.instr (d.pc - 2)).a.val = 0 then 1 else 0) := by
  obtain ⟨-, -, -, -, -, hcode, -⟩ := hs.comparison
  refine instr_eq ?_
  rw [h]
  simp [mapInstr, Array.getElem?_modify, hcode]

theorem same (h : d.Turned d') {n : Nat} (hn : n ≠ d.pc - 2) : d'.code[n]? = d.code[n]? := by
  rw [h]
  simp only [mapInstr, Array.getElem?_modify]
  rw [if_neg (Ne.symm hn)]

theorem agrees (h : d.Turned d') (hs : (Place.compare js).Sits d) : d.Agrees (d.pc - 2) d' := by
  obtain ⟨-, -, hh, -⟩ := hs.comparison
  exact ⟨fun n hn => h.same (by omega), hh, by rw [h]; exact hh⟩

theorem sits (h : d.Turned d') (hs : (Place.compare js).Sits d) : (Place.compare js).Sits d' := by
  obtain ⟨hjs, hlen, hh, hj, -, -, order, ho⟩ := hs.comparison
  refine ⟨d.pc - 1, hjs, by rw [h.pc]; omega, by omega, by rw [h]; exact hh, hj.congr (h.same (by omega)), ?_⟩
  have h2 : d.pc - 1 - 1 = d.pc - 2 := by omega
  rw [h2, h.instr hs]
  exact ⟨order, ho⟩

theorem moves (h : d.Turned d') (hs : (Place.compare js).Sits d) (hw : d.Waits list (d.pc - 2)) :
    d.Moves list d' := by
  obtain ⟨-, hlen, -⟩ := hs.comparison
  refine ⟨.of_rest h, ?_, (h.agrees hs).sameTests hw, Nat.le_of_eq h.pc.symm, fun hc => ?_⟩
  · rw [h]
    exact fun _ _ => id
  · unfold Calm at hc ⊢
    rw [h.pc, instr_congr (h.same (by omega))]
    exact hc

theorem roomy (h : d.Turned d') (hr : d.Roomy) : d'.Roomy := by
  rw [h]
  exact hr.congr rfl rfl rfl rfl

theorem free (h : d.Turned d') : d'.free = d.free := by
  rw [h]
  rfl

theorem waits (h : d.Turned d') (hs : (Place.compare js).Sits d) (hw : d.Waits list (d.pc - 2)) :
    d'.Waits list (d'.pc - 2) :=
  (h.agrees hs).waits hw (by omega) (Nat.le_of_eq (by rw [h.pc]))

theorem fresh (h : d.Turned d') (hs : (Place.compare js).Sits d) : d'.Fresh := by
  obtain ⟨-, -, -, hj, -⟩ := (h.sits hs).comparison
  exact .inr (by rw [hj.opcode]; decide)

theorem completes {p : Proto} {k k' : Nat} (h : d.Turned d') (hs : (Place.compare js).Sits d)
    (hw : d.Waits list (d.pc - 2)) (hp : CompletesAbove k p d' list (d'.pc - 2)) :
    CompletesAbove k' p d list (d.pc - 2) := by
  have hlen := hs.comparison.2.1
  refine (h.agrees hs).completes hp (h.fresh hs) hw (Nat.le_of_eq (by rw [h.pc])) (by omega) ?_
  rw [h]
  exact fun _ _ => id

theorem holds {p : Proto} {regs : Nat → Value} {r : Except Clash Value} (h : d.Turned d')
    (hs : (Place.compare js).Sits d) (hv : (Place.compare js).Holds p d regs r) :
    (Place.compare js).Holds p d' regs (r.map fun v => .bool v.isFalsy) := by
  show (d'.instr (d'.pc - 2)).Compares p regs _
  rw [h.pc, h.instr hs]
  exact Instr.Compares.negate hv

end Draft.Turned

namespace Compile

theorem Writes.negate_turns {js : JumpList} (hs : (Place.compare js).Sits d) :
    Writes (Compile.negate js) d fun _ d' => d.Turned d' := by
  obtain ⟨hjs, hlen, -, -, -, -, order, ho⟩ := hs.comparison
  have h2 : d.pc - 1 - 1 = d.pc - 2 := by omega
  have htest : (d.instr (d.pc - 2)).opcode.isTest = true := by
    revert ho
    cases (d.instr (d.pc - 2)).opcode <;> simp [Op.order?, Op.isTest]
  have hctl : controlOf d (d.pc - 1) = d.pc - 2 := by
    rw [controlOf, h2, if_pos ⟨by omega, htest⟩]
  rw [hjs]
  unfold Compile.negate
  refine Writes.modifyFn ?_
  rw [hctl]
  rfl

end Compile

theorem Instr.Compares.decided {p : Proto} {i : Instr} {regs : Nat → Value} {r : Except Clash Value}
    (h : i.Compares p regs r) : (∃ b, r = .ok (.bool b)) ∨ ∃ c, r = .error c := by
  obtain ⟨order, x, y, -, -, -, rfl⟩ := h
  cases order x y with
  | none => exact .inr ⟨_, rfl⟩
  | some outcome => exact .inl ⟨_, rfl⟩

namespace Forked

variable {js : JumpList}

theorem compare_forks {p : Proto} (low : Nat) {regs : Nat → Value} {r : Except Clash Value}
    (hs : (Place.compare js).Sits d) (hi : p.code[d.pc - 2]? = some (d.instr (d.pc - 2)))
    (hv : (Place.compare js).Holds p d regs r) : Forks p d low ⟨d.pc - 2, regs⟩ true js r := by
  obtain ⟨hjs, hlen, -, hj, hnot, -⟩ := hs.comparison
  have hfresh : d.Fresh := .inr (by rw [hj.opcode]; decide)
  have h1 : d.pc - 2 + 1 = d.pc - 1 := by omega
  have h2 : d.pc - 2 + 2 = d.pc := by omega
  have hstep := Instr.Compares.step hv hi low
  rw [h1, h2] at hstep
  rcases hstep with ⟨rfl, hstep⟩ | ⟨rfl, hstep⟩ | ⟨c, rfl, hfails⟩
  · refine .take (by rw [hjs]; exact List.mem_singleton_self _) ⟨rfl, _, hstep, ?_⟩
    unfold Draft.Poised
    rw [if_neg hnot]
    exact ⟨rfl, rfl⟩
  · exact .pass rfl hstep (.direct hfresh.primed)
  · exact .fails hfails

theorem waits_compare (hs : (Place.compare js).Sits d) (hw : d.Waits list (d.pc - 2)) :
    d.Waits (list ++ js) d.pc := by
  obtain ⟨hjs, hlen, -, hj, -⟩ := hs.comparison
  rw [hjs]
  exact hw.snoc hj (by omega)

theorem mem_compare (hs : (Place.compare js).Sits d) (j : Nat) :
    j ∈ list ++ js ↔ j ∈ list ∨ j = d.pc - 1 := by
  rw [hs.comparison.1, List.mem_append, List.mem_singleton]

theorem of_compare (hs : (Place.compare js).Sits d) (hw : d.Waits list (d.pc - 2)) (hr : d.Roomy) :
    Forked list d (.compare js) true js d := by
  refine ⟨.refl _ _, hr, rfl, waits_compare hs hw, nofun, fun p hp => ?_⟩
  obtain ⟨hp0, hi⟩ := hs.completed hw hp (mem_compare hs)
  refine ⟨hp0, fun low s r _ hs' hv => ?_⟩
  obtain ⟨pc0, regs⟩ := s
  obtain rfl : pc0 = d.pc - 2 := hs'.pc_eq hs.comparison.2.2.1
  exact compare_forks low hs hi hv

theorem of_turned (ht : d.Turned d') (hs : (Place.compare js).Sits d) (hw : d.Waits list (d.pc - 2))
    (hr : d.Roomy) : Forked list d (.compare js) false js d' := by
  have hs' := ht.sits hs
  have hw' := ht.waits hs hw
  refine ⟨ht.moves hs hw, ht.roomy hr, ht.free, waits_compare hs' hw', nofun, fun p hp => ?_⟩
  obtain ⟨hp1, hi⟩ := hs'.completed hw' hp (mem_compare hs')
  refine ⟨ht.completes hs hw hp1, fun low s r _ hat hv => ?_⟩
  have hfork := compare_forks low hs' hi (ht.holds hs hv)
  obtain ⟨pc0, regs⟩ := s
  obtain rfl : pc0 = d.pc - 2 := hat.pc_eq hs.comparison.2.2.1
  rw [ht.pc] at hfork
  show Forks p d' low ⟨d.pc - 2, regs⟩ false js r
  rcases Instr.Compares.decided hv with ⟨b, rfl⟩ | ⟨c, rfl⟩
  · cases hfork with
    | pass hfalsy hpath hend =>
      refine .pass ?_ hpath hend
      cases b <;> first | rfl | cases hfalsy
    | @take _ j hj hd =>
      obtain ⟨hfalsy, s', hpath, hd⟩ := hd
      obtain rfl : b = false := by
        cases b <;> first | rfl | cases hfalsy
      obtain ⟨hjs, -, -, -, hnot, -⟩ := hs'.comparison
      have hsets : ¬ d'.Sets j := by
        rw [hjs, List.mem_singleton] at hj
        rw [hj]
        exact hnot
      unfold Draft.Poised at hd
      rw [if_neg hsets] at hd
      refine .take hj ⟨rfl, s', hpath, ?_⟩
      unfold Draft.Poised
      rw [if_neg hsets]
      exact ⟨hd.1, rfl⟩
  · cases hfork with
    | fails hf => exact .fails hf

end Forked

/-! ## 3. Conditions -/

def Expr.side (e : Expr) (b : Bool) : JumpList := if b then e.onTrue else e.onFalse

/-- An expression has become a condition. -/
structure Gated (list : List Nat) (d : Draft) (e : Expr) (cond : Bool) (l : List Nat) (d' : Draft) :
    Prop where
  moves : d.Moves list d'
  roomy : d'.Roomy
  free : d'.free = d.free
  fresh : d'.Fresh
  waits : d'.Waits (list ++ l) d'.pc
  quiet : d'.pc = d.pc → e.exits = [] → e.place.back = 0 → l = []
  runs : ∀ p : Proto, Completes p d' (list ++ l) d'.pc → Completes p d (list ++ e.exits) (e.top d) ∧
    ∀ (low : Nat) (s : Spot) (r : Except Clash Value), low ≤ d.free → Yields p d low s e r →
      Forks p d' low s cond l r

theorem Gated.of_forked {d1 : Draft} {cond : Bool} {js : List Nat}
    (h : Forked (list ++ e.exits) d e.place cond js d1) :
    Gated list d e cond (e.side cond ++ js)
      { d1 with lastTarget := d1.code.size, here := d1.here ++ e.side !cond } := by
  generalize hkeep : e.side cond = keep
  generalize hgo : e.side (!cond) = go
  have hperm : (list ++ e.exits ++ js).Perm (list ++ (keep ++ js) ++ go) := by
    rw [List.perm_iff_count]
    intro j
    cases cond <;> simp only [← hkeep, ← hgo, Expr.exits, Expr.side, List.count_append, if_true, Bool.not_true,
      Bool.not_false, Bool.false_eq_true, if_false] <;> omega
  have hquiet : d1.Moves list { d1 with lastTarget := d1.code.size, here := d1.here ++ go } :=
    .quiet rfl (.of_rest rfl) fun _ _ => id
  refine ⟨h.moves.left.trans hquiet, h.roomy.congr rfl rfl rfl rfl, h.free, .inl (Nat.le_refl _),
    (h.waits.perm hperm).patched (Nat.le_refl _), fun hpc hj hb => ?_, fun p hp => ?_⟩
  · have hkeep' : keep = [] := by
      have hnil := List.append_eq_nil_iff.mp hj
      rw [← hkeep, Expr.side]
      split
      · exact hnil.1
      · exact hnil.2
    rw [hkeep', h.quiet hpc hb]
    rfl
  have hp1 : Completes p d1 (list ++ (keep ++ js) ++ go) d1.pc :=
    CompletesAbove.patched (by exact hp) (Nat.le_refl _) (h.waits.perm hperm)
  obtain ⟨hp0, hruns⟩ := h.runs p (hp1.congr fun j => hperm.symm.mem_iff)
  refine ⟨hp0, fun low s r hl hy => ?_⟩
  have hmem : ∀ j, j ∈ keep ∨ j ∈ go ↔ j ∈ e.exits := by
    intro j
    rw [Expr.exits, List.mem_append, ← hkeep, ← hgo]
    cases cond
    · exact or_comm
    · exact Iff.rfl
  -- a jump that leaves the expression decides as before
  have hdecide : ∀ j b v, j ∈ e.exits → Decides p d low s j b v →
      Decides p d1 low s j b v :=
    fun j b v hj hd => hd.congr h.moves.tests (List.mem_append_right _ hj)
  have hjump : ∀ j b v, j ∈ e.side b → Decides p d low s j b v →
      Forks p { d1 with lastTarget := d1.code.size, here := d1.here ++ go } low s cond (keep ++ js) (.ok v) := by
    intro j b v hj hd
    by_cases hb : b = cond
    · subst hb
      have hjk : j ∈ keep := by
        rw [← hkeep]
        cases b <;> exact hj
      refine .take (List.mem_append_left _ hjk) ?_
      exact (hdecide j b v ((hmem j).mp (.inl hjk)) hd).congr (.of_code fun _ _ => rfl) hjk
    · have hjg : j ∈ go := by
        rw [← hgo]
        cases b <;> cases cond <;> first | exact hj | exact absurd rfl hb
      obtain ⟨hv, s', hpath, hpoised⟩ := hdecide j b v ((hmem j).mp (.inr hjg)) hd
      refine .pass ?_ hpath (.of_poised hjg hv hpoised (Nat.le_refl _))
      rw [hd.1]
      cases b <;> cases cond <;> first | rfl | exact absurd rfl hb
  cases hy with
  | falls hpath ht hv =>
    refine .after hpath ?_
    cases hruns low _ r hl ht hv with
    | pass hfalsy hpath' ht' => exact .pass hfalsy hpath' (ht'.patched (Nat.le_refl _))
    | take hj hd =>
      exact .take (List.mem_append_right _ hj) (hd.congr (.of_code fun _ _ => rfl) hj)
    | fails hf => exact .fails hf
  | onTrue hj hd => exact hjump _ true _ hj hd
  | onFalse hj hd => exact hjump _ false _ hj hd
  | fails hf => exact .fails hf

namespace Compile

theorem Writes.gate {d1 : Draft} {cond : Bool} {js : JumpList}
    (h : Forked (list ++ e.exits) d e.place cond js d1) :
    Writes (do
      let l ← Compile.joinJumps (e.side cond) js
      Compile.patchHere (e.side !cond)
      return l) d1 fun l d' => Gated list d e cond l d' := by
  refine (Writes.joinJumps _ _).andThen fun l d2 ⟨hl, hd2⟩ => ?_
  subst hd2 hl
  refine Writes.patchHere.andThen fun _ d3 hd3 => Writes.pure ?_
  rw [hd3]
  exact .of_forked h

end Compile

theorem Gated.of_read {cond : Bool} {l : List Nat}
    (h : Gated list d { e with place := e.place.read } cond l d') : Gated list d e cond l d' := by
  refine ⟨h.moves, h.roomy, h.free, h.fresh, h.waits, fun hpc hj hb => ?_, fun p hp => ?_⟩
  · exact h.quiet hpc hj ((Place.back_read _).trans hb)
  obtain ⟨hp0, hruns⟩ := h.runs p hp
  rw [Expr.top, Place.back_read] at hp0
  exact ⟨hp0, fun low s r hl hy => hruns low s r hl hy.read⟩

theorem Expr.Sits.read (h : e.Sits list d) : Expr.Sits list d { e with place := e.place.read } := by
  refine ⟨h.place.read, ?_, fun k hk => h.literal k ?_⟩
  · have := h.waits
    rw [Expr.top, Place.back_read]
    exact this
  · revert hk
    show e.place.read = _ → _
    cases e.place <;> first | exact id | exact (by rintro ⟨⟩)

namespace Compile

theorem Writes.gate_known (cond : Bool) (hs : e.Sits list d) (hr : d.Roomy)
    (hb : e.place.back = 0)
    (hv : ∀ (p : Proto) regs r, Completes p d (list ++ e.exits) d.pc → e.place.Holds p d regs r →
      ∃ v, r = .ok v ∧ v.isFalsy = cond) :
    Writes (do
      let js ← Pure.pure []
      let l ← Compile.joinJumps (e.side cond) js
      Compile.patchHere (e.side !cond)
      return l) d fun l d' => Gated list d e cond l d' := by
  have hw := hs.waits
  rw [Expr.top, hb, Nat.sub_zero] at hw
  exact Writes.bind (Writes.pure (Writes.gate (.of_constant hw hr hb hv)))

theorem Writes.gate_tested (cond : Bool) (hs : e.Sits list d) (hr : d.Roomy) (hf : d.Tight)
    (hc : ∀ js, e.place ≠ .compare js) :
    Writes (do
      let js ← jumpOn e cond
      let l ← Compile.joinJumps (e.side cond) js
      Compile.patchHere (e.side !cond)
      return l) d fun l d' => Gated list d e cond l d' :=
  (Writes.jumpOn_forks hs.place hc hs.waits hr fun _ => hf).andThen fun _ _ h => Writes.gate h

theorem waits_below {js : JumpList} (hs : e.Sits list d) (hp : e.place = .compare js) :
    d.Waits (list ++ e.exits) (d.pc - 2) := by
  have := hs.waits
  rw [Expr.top, hp] at this
  exact this

/-- **Control goes on when a value is true**, and jumps otherwise. -/
theorem Writes.goIfTrue_gates (hs : e.Sits list d) (hr : d.Roomy) (hf : d.Tight) :
    Writes (Compile.goIfTrue e) d fun l d' => Gated list d e false l d' := by
  refine (Writes.readVariable_reads hs.place).andThen fun e1 d1 ⟨he1, hd1⟩ => ?_
  refine Writes.imp (Q := fun l d' => Gated list d e1 false l d') ?_ fun l d' h => by
    rw [he1] at h
    exact h.of_read
  have hs1 : e1.Sits list d := by
    rw [he1]
    exact hs.read
  subst hd1
  have hsits := hs1.place
  have htest := Writes.gate_tested false hs1 hr hf
  have hknown := Writes.gate_known false hs1 hr
  cases hp : e1.place with
  | compare js =>
    rw [hp] at hsits
    refine (Writes.negate_turns hsits).andThen fun _ d2 ht => Writes.bind (Writes.pure ?_)
    have hfork : Forked (list ++ e1.exits) d1 e1.place false js d2 := by
      rw [hp]
      exact .of_turned ht hsits (waits_below hs1 hp) hr
    exact Writes.gate hfork
  | constant k =>
    -- constants of a formula are strings
    obtain ⟨t, ht⟩ := hs1.literal k hp
    rw [hp] at hknown
    refine hknown rfl fun p regs r hc hh => ?_
    obtain ⟨c, hk, hr⟩ := hh
    rw [hc.constants k _ ht] at hk
    cases hk
    exact ⟨_, hr, rfl⟩
  | float x =>
    rw [hp] at hknown
    exact hknown rfl fun p regs r _ hh => ⟨_, hh, rfl⟩
  | int i =>
    rw [hp] at hknown
    exact hknown rfl fun p regs r _ hh => ⟨_, hh, rfl⟩
  | bool b =>
    cases b with
    | true =>
      rw [hp] at hknown
      exact hknown rfl fun p regs r _ hh => ⟨_, hh, rfl⟩
    | false => exact htest (by rw [hp]; nofun)
  | _ => exact htest (by rw [hp]; nofun)

/-- **Control goes on when a value is false**, and jumps otherwise. -/
theorem Writes.goIfFalse_gates (hs : e.Sits list d) (hr : d.Roomy) (hf : d.Tight) :
    Writes (Compile.goIfFalse e) d fun l d' => Gated list d e true l d' := by
  refine (Writes.readVariable_reads hs.place).andThen fun e1 d1 ⟨he1, hd1⟩ => ?_
  refine Writes.imp (Q := fun l d' => Gated list d e1 true l d') ?_ fun l d' h => by
    rw [he1] at h
    exact h.of_read
  have hs1 : e1.Sits list d := by
    rw [he1]
    exact hs.read
  subst hd1
  have hsits := hs1.place
  have htest := Writes.gate_tested true hs1 hr hf
  have hknown := Writes.gate_known true hs1 hr
  cases hp : e1.place with
  | compare js =>
    rw [hp] at hsits
    have hfork : Forked (list ++ e1.exits) d1 e1.place true js d1 := by
      rw [hp]
      exact .of_compare hsits (waits_below hs1 hp) hr
    exact Writes.bind (Writes.pure (Writes.gate hfork))
  | nil =>
    rw [hp] at hknown
    exact hknown rfl fun p regs r _ hh => ⟨_, hh, rfl⟩
  | bool b =>
    cases b with
    | false =>
      rw [hp] at hknown
      exact hknown rfl fun p regs r _ hh => ⟨_, hh, rfl⟩
    | true => exact htest (by rw [hp]; nofun)
  | _ => exact htest (by rw [hp]; nofun)

end Compile

/-! ## 4. Negation -/

def Value.opposite (v : Value) : Value := .bool v.isFalsy

/-- A place has become its opposite. -/
structure Inverted (list : List Nat) (d : Draft) (q q' : Place) (d' : Draft) : Prop where
  moves : d.Moves list d'
  roomy : d'.Roomy
  free : d'.free = d.free
  tight : d'.Tight
  sits : q'.Sits d'
  literal : ∀ k, q' ≠ .constant k
  waits : d'.Waits list (d'.pc - q'.back)
  place : q' ≠ .nil
  quiet : d'.pc = d.pc → q.back = 0 → q'.back = 0
  runs : ∀ p : Proto, Completes p d' list (d'.pc - q'.back) → Completes p d list (d.pc - q.back) ∧
    ∀ (low : Nat) (s : Spot) (r : Except Clash Value), low ≤ d.free → d.Entered p (d.pc - q.back) s →
      q.Holds p d s.regs r →
      (∃ s', p.Path low s s' ∧ d'.Entered p (d'.pc - q'.back) s' ∧ q'.Holds p d' s'.regs (r.map Value.opposite)) ∨
      ∃ c, r = .error c ∧ p.Fails low s c

namespace Inverted

variable {q : Place}

theorem of_known {b : Bool} (hw : d.Waits list d.pc) (hr : d.Roomy) (hf : d.Tight) (hb : q.back = 0)
    (hv : ∀ (p : Proto) regs r, Completes p d list d.pc → q.Holds p d regs r →
      ∃ v, r = .ok v ∧ v.isFalsy = b) : Inverted list d q (.bool b) d := by
  refine ⟨.refl _ _, hr, rfl, hf, trivial, nofun, hw, nofun, fun _ _ => rfl, fun p hp => ?_⟩
  rw [hb]
  refine ⟨hp, fun low s r _ hs hh => .inl ⟨s, .refl _, hs, ?_⟩⟩
  obtain ⟨v, rfl, hfalsy⟩ := hv p s.regs r hp hh
  show Except.ok (Value.bool v.isFalsy) = .ok (.bool b)
  rw [hfalsy]

theorem of_turned {js : JumpList} (ht : d.Turned d') (hs : (Place.compare js).Sits d)
    (hw : d.Waits list (d.pc - 2)) (hr : d.Roomy) : Inverted list d (.compare js) (.compare js) d' := by
  have hs' := ht.sits hs
  refine ⟨ht.moves hs hw, ht.roomy hr, ht.free, (ht.fresh hs).tight, hs', nofun, ht.waits hs hw, nofun, nofun,
    fun p hp => ?_⟩
  refine ⟨ht.completes hs hw hp, fun low s r _ hat hv => .inl ⟨s, .refl _, ⟨.inl ?_, (ht.fresh hs).primed⟩,
    ht.holds hs hv⟩⟩
  show s.pc = d'.pc - 2
  rw [ht.pc]
  exact hat.pc_eq hs.comparison.2.2.1

theorem of_not {d1 : Draft} {r : Nat} (hh : Held list d q r d1) (hx : d1.Extended [.ofABC .not 0 r 0] d') :
    Inverted list d q (.pending d1.pc) d' := by
  have hpc : d'.pc = d1.pc + 1 := hx.pc
  have htop : d'.pc - 1 = d1.pc := by omega
  have hlt := hh.lt
  have hi : d'.instr d1.pc = .ofABC .not 0 r 0 := Draft.instr_eq (hx.new 0 (by simp))
  have hb : (d'.instr d1.pc).b.val = r := by
    rw [hi, Instr.b_ofABC]
    exact Nat.mod_eq_of_lt (by omega)
  have hgrows := hh.moves.grows
  refine ⟨hh.moves.trans (hx.moves hh.waits ⟨_, rfl, by simp⟩), hx.roomy hh.roomy, hx.free.trans hh.free,
    (hx.fresh [] (by simp)).tight, ⟨hpc.symm, hx.here, by rw [hi]; simp, by omega⟩, nofun, ?_, nofun, by omega,
    fun p hp => ?_⟩
  · show d'.Waits list (d'.pc - 1)
    rw [htop]
    exact hx.waits hh.waits (Nat.le_refl _) (by omega)
  · have hp' : Completes p d' list d1.pc := by
      rw [← htop]
      exact hp
    obtain ⟨hp1, hlands, -⟩ := hp'.extended hx (by simp) hh.waits (Nat.le_refl _) (fun j hj => .inl hj) fun _ => id
    obtain ⟨hp0, hruns⟩ := hh.runs p hp1
    refine ⟨hp0, fun low s x hl hs hv => ?_⟩
    have harr := hruns low s x hl hs hv
    cases x with
    | error c => exact .inr ⟨c, rfl, harr⟩
    | ok v =>
      obtain ⟨s', hpath, ht, hreg⟩ := harr
      refine .inl ⟨_, hpath.trans (ht.path hlands), ⟨.inl htop.symm, (hx.fresh [] (by simp)).primed⟩, ?_⟩
      show Except.ok (Value.bool v.isFalsy) = .ok (.bool (s'.regs (d'.instr d1.pc).b.val).isFalsy)
      rw [hb, hreg]

end Inverted

/-- An expression has become its opposite. -/
structure Negated (list : List Nat) (d : Draft) (e e' : Expr) (d' : Draft) : Prop where
  moves : d.Moves list d'
  roomy : d'.Roomy
  free : d'.free = d.free
  tight : d'.Tight
  sits : e'.Sits list d'
  place : e'.place ≠ .nil
  quiet : d'.pc = d.pc → e.exits = [] → e.place.back = 0 → e'.exits = [] ∧ e'.place.back = 0
  runs : ∀ p : Proto, Completes p d' (list ++ e'.exits) (e'.top d') →
    Completes p d (list ++ e.exits) (e.top d) ∧
    ∀ (low : Nat) (s : Spot) (r : Except Clash Value), low ≤ d.free → Yields p d low s e r →
      Yields p d' low s e' (r.map Value.opposite)

namespace Draft.Drops

variable {l : JumpList}

theorem pc (h : d.Drops l d') : d'.pc = d.pc := h.size

theorem free (h : d.Drops l d') : d'.free = d.free := by
  rw [h.rest]

theorem constants (h : d.Drops l d') : d'.constants = d.constants := by
  rw [h.rest]

theorem instr (h : d.Drops l d') {pc : Nat} (hn : (d.instr pc).opcode ≠ .testSet) : d'.instr pc = d.instr pc :=
  instr_congr (h.same pc fun hc => hn hc.2)

theorem lastInstr (h : d.Drops l d') (hj : ∀ j ∈ l, d.Jmp j) : d'.Open ∨ d.Open →
    d'.instr (d.pc - 1) = d.instr (d.pc - 1) := by
  intro ho
  refine instr_congr (h.same _ fun hc => ?_)
  have := (hj _ hc.1).lt
  have : 0 < d.pc := by
    rcases ho with ho | ho
    · have hpos := ho.1
      rw [h.pc] at hpos
      exact Nat.zero_lt_of_lt hpos
    · exact Nat.zero_lt_of_lt ho.1
  omega

theorem open_of (h : d.Drops l d') (hj : ∀ j ∈ l, d.Jmp j) (ho : d'.Open) : d.Open :=
  (open_iff h.pc (by rw [h.rest]) (h.lastInstr hj (.inl ho))).mp ho

theorem tight (h : d.Drops l d') (hj : ∀ j ∈ l, d.Jmp j) (hf : d.Tight) : d'.Tight := by
  intro ho
  rw [h.pc, h.lastInstr hj (.inl ho)]
  exact hf (h.open_of hj ho)

theorem entered {p : Proto} {pc : Nat} {s : Spot} (h : d.Drops l d') (hj : ∀ j ∈ l, d.Jmp j)
    (hd : ∀ j ∈ d.here, j ∉ l) (hs : d.Entered p pc s) : d'.Entered p pc s := by
  constructor
  · refine hs.near.imp_right fun ⟨j, hm, b, v, hv, hp⟩ => ⟨j, ?_, b, v, hv, hp.congr (h.sameTests hd) hm⟩
    rw [h.rest]
    exact hm
  · intro ho i hi
    rw [h.pc] at hi
    exact hs.primed (h.open_of hj ho) i hi

theorem sits {q : Place} (h : d.Drops l d') (hq : q.Sits d) : q.Sits d' := by
  cases q with
  | pending pc =>
    obtain ⟨hpc, hh, ho, hb⟩ := hq
    have hi : d'.instr pc = d.instr pc := h.instr (by rw [ho]; decide)
    exact ⟨by rw [h.pc]; exact hpc, by rw [h.rest]; exact hh, by rw [hi]; exact ho, by rw [hi]; exact hb⟩
  | compare js =>
    obtain ⟨j, hjs, hpc, hpos, hh, hj, order, ho⟩ := hq
    refine ⟨j, hjs, by rw [h.pc]; exact hpc, hpos, by rw [h.rest]; exact hh,
      hj.congr (h.same j fun hc => hj.not_testSet hc.2), order, ?_⟩
    rw [h.instr]
    · exact ho
    · intro hset
      rw [hset] at ho
      cases ho
  | constant k =>
    show ∃ c, d'.constants[k]? = some c
    rw [h.constants]
    exact hq
  | fixed r | localVar r =>
    show r < d'.active
    rw [h.rest]
    exact hq
  | _ => exact hq

theorem holds {p : Proto} {q : Place} {regs : Nat → Value} {r : Except Clash Value} (h : d.Drops l d')
    (hs : q.Sits d) (hq : q.Holds p d regs r) : q.Holds p d' regs r := by
  cases q with
  | pending pc =>
    show r = .ok (.bool (regs (d'.instr pc).b.val).isFalsy)
    rw [h.instr (by rw [hs.2.2.1]; decide)]
    exact hq
  | compare js =>
    obtain ⟨-, -, -, -, -, -, order, ho⟩ := hs.comparison
    show (d'.instr (d'.pc - 2)).Compares p regs r
    rw [h.pc, h.instr]
    · exact hq
    · intro hset
      rw [hset] at ho
      cases ho
  | _ => exact hq

end Draft.Drops

theorem Negated.of_inverted {d1 d2 d3 : Draft} {q' : Place} (h : Inverted (list ++ e.exits) d e.place q' d1)
    (h₂ : d1.Drops e.onTrue d2) (h3 : d2.Drops e.onFalse d3) :
    Negated list d e ⟨q', e.onFalse, e.onTrue⟩ d3 := by
  have hw1 := h.waits
  have hw2 := h₂.waits hw1
  have hw3 := h3.waits hw2
  have hpc : d3.pc = d1.pc := h3.pc.trans h₂.pc
  have hperm : (list ++ e.exits).Perm (list ++ (e.onFalse ++ e.onTrue)) := List.perm_append_comm.append_left _
  -- a jump waits in one list only
  have hnd := (List.nodup_append.mp hw1.nodup).1
  have hlist : ∀ j ∈ list, j ∉ e.exits := fun j hj hm => (List.nodup_append.mp hnd).2.2 j hj j hm rfl
  have hside : ∀ j ∈ e.onTrue, j ∉ e.onFalse := fun j hj hm =>
    (List.nodup_append.mp (List.nodup_append.mp hnd).2.1).2.2 j hj j hm rfl
  have htrue : ∀ j ∈ e.onTrue, j ∈ list ++ e.exits := fun j hj => by simp [Expr.exits, hj]
  have hfalse : ∀ j ∈ e.onFalse, j ∈ list ++ e.exits := fun j hj => by simp [Expr.exits, hj]
  have hm2 : d1.Moves list d2 := h₂.moves fun j hj hm => hlist j hj (List.mem_append_left _ hm)
  have hm3 : d2.Moves list d3 := h3.moves fun j hj hm => hlist j hj (List.mem_append_right _ hm)
  have hs2 := h₂.sits h.sits
  refine ⟨h.moves.left.trans (hm2.trans hm3), h3.roomy (h₂.roomy h.roomy),
    h3.free.trans (h₂.free.trans h.free), ?_, ⟨h3.sits hs2, ?_, fun k hk => absurd hk (h.literal k)⟩, h.place,
    fun hsame hj hb => ?_, fun p hp => ?_⟩
  · exact h3.tight (fun j hj => hw2.jmp (hfalse j hj)) (h₂.tight (fun j hj => hw1.jmp (htrue j hj)) h.tight)
  · show d3.Waits (list ++ (e.onFalse ++ e.onTrue)) (d3.pc - q'.back)
    rw [hpc]
    exact hw3.perm hperm
  · have hnil := List.append_eq_nil_iff.mp hj
    refine ⟨?_, h.quiet (hpc.symm.trans hsame) hb⟩
    rw [Expr.exits, hnil.1, hnil.2]
    rfl
  · have hp3 : Completes p d3 (list ++ e.exits) (d1.pc - q'.back) := by
      rw [← hpc]
      exact hp.congr fun j => hperm.symm.mem_iff
    obtain ⟨hp2, hdrop3⟩ := hp3.drops h3 hw2 hfalse
    obtain ⟨hp1, hdrop2⟩ := hp2.drops h₂ hw1 htrue
    rw [h3.free, h₂.free] at hp1
    obtain ⟨hp0, hruns⟩ := h.runs p hp1
    refine ⟨hp0, fun low s r hl hy => ?_⟩
    cases hy with
    | falls hpath ht hv =>
      rcases hruns low _ r hl ht hv with ⟨s', hpath', ht', hv'⟩ | ⟨c, rfl, hfails⟩
      · refine .falls (hpath.trans hpath') ?_ (h3.holds hs2 (h₂.holds h.sits hv'))
        show d3.Entered p (d3.pc - q'.back) s'
        rw [hpc]
        refine h3.entered (fun j hj => hw2.jmp (hfalse j hj)) (fun j hj hm => hw2.not_here (hfalse j hm) hj) ?_
        exact h₂.entered (fun j hj => hw1.jmp (htrue j hj)) (fun j hj hm => hw1.not_here (htrue j hm) hj) ht'
      · exact .fails (.after hpath hfails)
    | @onTrue j v hj hd =>
      have hd1 := hd.congr h.moves.tests (htrue j hj)
      have hd2 := hd1.dropped (h₂.not_sets hj) (hdrop2 j hj)
      exact .onFalse hj (hd2.congr (h3.sameTests hside) hj)
    | @onFalse j v hj hd =>
      have hd1 := hd.congr h.moves.tests (hfalse j hj)
      have hd2 := hd1.congr (h₂.sameTests fun j hj hm => hside j hm hj) hj
      exact .onTrue hj (hd2.dropped (h3.not_sets hj) (hdrop3 j hj))
    | fails hf => exact .fails hf

theorem Negated.of_read {e' : Expr} (h : Negated list d { e with place := e.place.read } e' d') :
    Negated list d e e' d' := by
  refine ⟨h.moves, h.roomy, h.free, h.tight, h.sits, h.place, fun hpc hj hb => ?_, fun p hp => ?_⟩
  · exact h.quiet hpc hj ((Place.back_read _).trans hb)
  obtain ⟨hp0, hruns⟩ := h.runs p hp
  rw [Expr.top, Place.back_read] at hp0
  exact ⟨hp0, fun low s r hl hy => hruns low s r hl hy.read⟩

namespace Compile

theorem Writes.swap {d1 : Draft} {q' : Place} (h : Inverted (list ++ e.exits) d e.place q' d1) :
    Writes (do
      Compile.dropValues e.onTrue
      Compile.dropValues e.onFalse
      return (⟨q', e.onFalse, e.onTrue⟩ : Expr)) d1 fun e' d' => Negated list d e e' d' := by
  have hw1 := h.waits
  have hnd := (List.nodup_append.mp (List.nodup_append.mp hw1.nodup).1).2.1
  have htrue : ∀ j ∈ e.onTrue, j ∈ list ++ e.exits := fun j hj => by simp [Expr.exits, hj]
  have hfalse : ∀ j ∈ e.onFalse, j ∈ list ++ e.exits := fun j hj => by simp [Expr.exits, hj]
  refine (Writes.dropValues_drops (fun j hj => hw1.jmp (htrue j hj)) (List.nodup_append.mp hnd).1).andThen
    fun _ d2 h₂ => ?_
  have hw2 := h₂.waits hw1
  refine (Writes.dropValues_drops (fun j hj => hw2.jmp (hfalse j hj)) (List.nodup_append.mp hnd).2.1).andThen
    fun _ d3 h3 => ?_
  exact Writes.pure (.of_inverted h h₂ h3)

/-- **The opposite of a value.** -/
theorem Writes.logicalNot_negates (hs : e.Sits list d) (hr : d.Roomy) (hf : d.Tight) :
    Writes (Compile.logicalNot e) d fun e' d' => Negated list d e e' d' := by
  refine (Writes.readVariable_reads hs.place).andThen ?_
  rintro e1 d1 ⟨he1, hd1⟩
  refine Writes.imp (Q := fun e' d' => Negated list d e1 e' d') ?_ fun e' d' h => by
    rw [he1] at h
    exact h.of_read
  have hs1 : e1.Sits list d := by
    rw [he1]
    exact hs.read
  subst hd1
  obtain ⟨hsits, hw, hlit⟩ := hs1
  have hread : ∀ r, e1.place ≠ .localVar r := by
    intro r h
    rw [he1] at h
    revert h
    show e.place.read = _ → False
    cases e.place <;> exact (by rintro ⟨⟩)
  -- a value whose truth is known
  have hknown : ∀ b, e1.place.back = 0 → (∀ (p : Proto) regs r,
      Completes p d1 (list ++ e1.exits) d1.pc → e1.place.Holds p d1 regs r → ∃ v, r = .ok v ∧ v.isFalsy = b) →
      Inverted (list ++ e1.exits) d1 e1.place (.bool b) d1 := by
    intro b hb hv
    rw [Expr.top, hb, Nat.sub_zero] at hw
    exact .of_known hw hr hf hb hv
  -- a value in a register
  have hheld : (∀ js, e1.place ≠ .compare js) → Writes (do
      let e2 ← settleAnywhere e1
      Compile.freeExpr e2
      let pc ← emitABC .not 0 e2.place.register 0
      let place ← Pure.pure (Place.pending pc)
      Compile.dropValues e1.onTrue
      Compile.dropValues e1.onFalse
      return (⟨place, e1.onFalse, e1.onTrue⟩ : Expr)) d1 fun e' d' => Negated list d1 e1 e' d' := by
    intro hc
    refine (Writes.settleAnywhere_holds hsits hc hw hr fun _ => hf).andThen ?_
    rintro e2 d2 ⟨r, he2, hheld⟩
    subst he2
    refine (Writes.freeExpr (e := { e1 with place := .fixed r }) rfl).andThen fun _ d3 hd3 => ?_
    subst hd3
    refine (Writes.emit_extends hheld.waits).andThen ?_
    rintro pc d4 ⟨hpc, hx⟩
    subst hpc
    exact Writes.bind (Writes.pure (Writes.swap (.of_not hheld hx)))
  cases hp : e1.place with
  | nil =>
    rw [hp] at hknown
    have hinv := hknown true rfl fun p regs r _ hh => ⟨_, hh, rfl⟩
    rw [← hp] at hinv
    exact Writes.bind (Writes.pure (Writes.swap hinv))
  | bool b =>
    rw [hp] at hknown
    have hinv := hknown (!b) rfl fun p regs r _ hh => ⟨_, hh, by cases b <;> rfl⟩
    rw [← hp] at hinv
    cases b <;> exact Writes.bind (Writes.pure (Writes.swap hinv))
  | constant k =>
    obtain ⟨t, ht⟩ := hlit k hp
    rw [hp] at hknown
    have hinv := hknown false rfl (by
      rintro p regs r hc ⟨c, hk, hr⟩
      rw [hc.constants k _ ht] at hk
      cases hk
      exact ⟨.str t, hr, rfl⟩)
    rw [← hp] at hinv
    exact Writes.bind (Writes.pure (Writes.swap hinv))
  | float x =>
    rw [hp] at hknown
    have hinv := hknown false rfl fun p regs r _ hh => ⟨_, hh, rfl⟩
    rw [← hp] at hinv
    exact Writes.bind (Writes.pure (Writes.swap hinv))
  | int i =>
    rw [hp] at hknown
    have hinv := hknown false rfl fun p regs r _ hh => ⟨_, hh, rfl⟩
    rw [← hp] at hinv
    exact Writes.bind (Writes.pure (Writes.swap hinv))
  | compare js =>
    rw [hp] at hsits
    refine (Writes.negate_turns hsits).andThen fun _ d2 ht => Writes.bind (Writes.pure ?_)
    have hinv : Inverted (list ++ e1.exits) d1 e1.place (.compare js) d2 := by
      rw [Expr.top, hp] at hw
      rw [hp]
      exact .of_turned ht hsits hw hr
    exact Writes.swap hinv
  | pending pc | fixed r => exact hheld (by rw [hp]; simp)
  | localVar r => exact absurd hp (hread r)
  | void | upvalue _ | indexed _ _ _ | call _ | varargs _ =>
    rw [hp] at hsits
    exact hsits.elim

end Compile

/-! ## 5. Comparisons -/

/-- The instruction of a comparison, before its jump. -/
def Relation.instr (rel : Relation) (x y : Nat) : Instr :=
  match rel with
  | .eq => .ofABC .eq 1 x y
  | .ne => .ofABC .eq 0 x y
  | .lt => .ofABC .lt 1 x y
  | .le => .ofABC .le 1 x y
  | .gt => .ofABC .lt 1 y x
  | .ge => .ofABC .le 1 y x

namespace Relation

variable {rel : Relation} {x y : Nat}

theorem ordered (rel : Relation) (x y : Nat) : ∃ order, (rel.instr x y).opcode.order? = some order := by
  cases rel <;> exact ⟨_, rfl⟩

theorem compares_order {p : Proto} {regs : Nat → Value} (op : Op) {order : Value → Value → Option Bool}
    {u v : Value} (ho : op.order? = some order) (hx : x < 512) (hy : y < 512)
    (hu : p.value? regs x = some u) (hv : p.value? regs y = some v) :
    (Instr.ofABC op 1 x y).Compares p regs (Value.ordered order u v) := by
  refine ⟨order, u, v, by simpa using ho, ?_, ?_, ?_⟩
  · rw [Instr.b_ofABC, Nat.mod_eq_of_lt hx]
    exact hu
  · rw [Instr.c_ofABC, Nat.mod_eq_of_lt hy]
    exact hv
  · unfold Value.ordered
    cases order u v <;> simp

theorem compares {p : Proto} {regs : Nat → Value} {u v : Value} (hx : x < 512) (hy : y < 512)
    (hu : p.value? regs x = some u) (hv : p.value? regs y = some v) :
    (rel.instr x y).Compares p regs (rel.apply u v) := by
  cases rel with
  | eq => exact compares_order .eq rfl hx hy hu hv
  | ne =>
    refine ⟨_, u, v, rfl, ?_, ?_, ?_⟩
    · rw [instr, Instr.b_ofABC, Nat.mod_eq_of_lt hx]
      exact hu
    · rw [instr, Instr.c_ofABC, Nat.mod_eq_of_lt hy]
      exact hv
    · simp [instr, apply]
  | lt => exact compares_order .lt rfl hx hy hu hv
  | le => exact compares_order .le rfl hx hy hu hv
  | gt => exact compares_order .lt rfl hy hx hv hu
  | ge => exact compares_order .le rfl hy hx hv hu

end Relation

/-- A comparison of two operands has been written. -/
structure Compared (list : List Nat) (d : Draft) (rel : Relation) (x y : Nat) (e' : Expr) (d' : Draft) :
    Prop where
  moves : d.Moves list d'
  roomy : d'.Roomy
  free : d'.free = d.free - (Operand.cost d.active x + Operand.cost d.active y)
  fresh : d'.Fresh
  longer : d.pc < d'.pc
  sits : e'.Sits list d'
  runs : ∀ p : Proto, Completes p d' (list ++ e'.exits) (e'.top d') → Completes p d list d.pc ∧
    ∀ (low : Nat) (s s' : Spot) (u v : Value), p.Path low s s' → d.Entered p d.pc s' →
      p.value? s'.regs x = some u → p.value? s'.regs y = some v → Yields p d' low s e' (rel.apply u v)

namespace Compared

variable {rel : Relation} {x y : Nat}

theorem of_extended {d1 : Draft} (hx : x < 512) (hy : y < 512) (hw : d.Waits list d.pc) (hr : d.Roomy)
    (hfree : d.active ≤ d.free - (Operand.cost d.active x + Operand.cost d.active y))
    (hd1 : d1 = { d with free := d.free - (Operand.cost d.active x + Operand.cost d.active y) })
    (he : d1.Extended [rel.instr x y, .ofAsBx .jmp 0 (-1)] d') :
    Compared list d rel x y (.plain (.compare [d1.pc + 1])) d' := by
  have ht : d.Retakes d1 := ⟨_, _, hd1⟩
  have hw1 : d1.Waits list d1.pc := by
    rw [ht.pc]
    exact ht.waits hw
  have hr1 : d1.Roomy := by
    rw [hd1]
    exact ⟨hfree, Nat.le_trans (Nat.sub_le _ _) hr.free, hr.stack, hr.constants⟩
  have hpc : d'.pc = d1.pc + 2 := he.pc
  have htop : d'.pc - 2 = d.pc := by
    have := ht.pc
    omega
  have hinstr : d'.instr d1.pc = rel.instr x y := Draft.instr_eq (he.new 0 (by simp))
  have hjmp : d'.Jmp (d1.pc + 1) := ⟨_, he.new 1 (by simp), by simp, by simp⟩
  obtain ⟨order, ho⟩ := rel.ordered x y
  have hsits : (Place.compare [d1.pc + 1]).Sits d' :=
    ⟨d1.pc + 1, rfl, by omega, by omega, he.here, hjmp, order, by rw [Nat.add_sub_cancel, hinstr]; exact ho⟩
  have hsame := ht.pc
  refine ⟨ht.moves.trans (he.moves hw1 ⟨_, rfl, by simp⟩), he.roomy hr1, by rw [he.free, hd1], he.fresh [_] (by simp), by omega,
    ⟨hsits, ?_, nofun⟩, fun p hp => ?_⟩
  · show d'.Waits (list ++ []) (d'.pc - 2)
    rw [List.append_nil, htop, ← ht.pc]
    exact he.waits hw1 (Nat.le_refl _) (by omega)
  · have hp' : Completes p d' list d1.pc := by
      rw [ht.pc, ← htop, ← List.append_nil list]
      exact hp
    obtain ⟨hp1, hlands, -⟩ := hp'.extended he (by simp) hw1 (Nat.le_refl _) (fun j hj => .inl hj) fun _ => id
    rw [ht.pc] at hp1 hlands
    refine ⟨ht.completes hp1, fun low s s' u v hpath hs hu hv => ?_⟩
    have hs1 : d1.Entered p d.pc s' := ht.entered hs
    refine .falls (hpath.trans (hs1.path hlands)) ⟨.inl htop.symm, (he.fresh [_] (by simp)).primed⟩ ?_
    show (d'.instr (d'.pc - 2)).Compares p s'.regs _
    rw [htop, ← ht.pc, hinstr]
    exact Relation.compares hx hy hu hv

end Compared

namespace Compile

variable {x : Nat}

theorem ofConstant_constantIndex (hx : x < 512) (hc : Operand.isConstant x = true) :
    Operand.ofConstant (Operand.constantIndex x) = x := by
  have hge : 256 ≤ x := Nat.le_of_not_lt fun hlt => by
    rw [Operand.isConstant_of_lt hlt] at hc
    cases hc
  have hindex : Operand.constantIndex x = x - 256 := by simp [Operand.constantIndex, hc, Operand.constantBit]
  have hlow : Operand.isConstant (x - 256) = false := Operand.isConstant_of_lt (by omega)
  rw [hindex, Operand.ofConstant, hlow, if_neg (by decide)]
  simp only [Operand.constantBit]
  omega

/-- **A comparison compares its operands.** -/
theorem Writes.emitCompare_compares {rel : Relation} {e2 : Expr} {P : Nat → Draft → Prop} (hx : x < 512)
    (hop : Writes (Compile.toOperand e2) d P)
    (hP : ∀ y d1, P y d1 → y < 512 ∧ d1.Waits list d1.pc ∧ d1.Roomy ∧
      d1.active ≤ d1.free - (Operand.cost d1.active x + Operand.cost d1.active y)) :
    Writes (Compile.emitCompare rel.operator (.ofOperand x) e2) d fun e' d' =>
      ∃ y d1, P y d1 ∧ Compared list d1 rel x y e' d' := by
  have hopd : Compile.emitCompare rel.operator (.ofOperand x) e2 = do
      let y ← Compile.toOperand e2
      Compile.freeRegisters x y
      let jumps ←
        match rel with
        | .ne => Compile.condJump .eq 0 x y
        | .gt => Compile.condJump .lt 1 y x
        | .ge => Compile.condJump .le 1 y x
        | .eq => Compile.condJump .eq 1 x y
        | .lt => Compile.condJump .lt 1 x y
        | .le => Compile.condJump .le 1 x y
      return .plain (.compare jumps) := by
    unfold Compile.emitCompare Expr.ofOperand Expr.plain
    by_cases hc : Operand.isConstant x = true
    · simp only [if_pos hc, ofConstant_constantIndex hx hc]
      cases rel <;> rfl
    · simp only [if_neg hc]
      cases rel <;> rfl
  rw [hopd]
  refine hop.andThen fun y d1 hy => ?_
  obtain ⟨hlt, hw, hr, hfree⟩ := hP y d1 hy
  refine (Writes.freeRegisters x y).andThen fun _ d2 hd2 => ?_
  have hw2 : d2.Waits list d1.pc := by
    rw [hd2]
    exact ⟨hw.le, hw.jumps, hw.nodup, hw.target⟩
  have hend : ∀ {op : Op} {a b c : Nat}, Instr.ofABC op a b c = rel.instr x y →
      Writes (do
        let jumps ← Compile.condJump op a b c
        return Expr.plain (.compare jumps)) d2 fun e' d' => ∃ y d1, P y d1 ∧ Compared list d1 rel x y e' d' := by
    intro op a b c hi
    refine (Writes.condJump_extends hw2).andThen fun l d' ⟨hl, he⟩ => Writes.pure ?_
    rw [hi] at he
    rw [hl]
    exact ⟨y, d1, hy, .of_extended hx hlt hw hr hfree hd2 he⟩
  cases rel <;> exact hend rfl

end Compile

end LuaMachine
