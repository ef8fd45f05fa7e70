/-
  CONDITIONS AND OPERATORS KEEP A DRAFT GOOD. A condition leaves jumps that wait; an operator leaves one
  value, above the floor of its left operand.
-/
import LuaMachine.Compiler.Operator
import LuaMachine.Proofs.Compiler.Value

namespace LuaMachine

/-! ## 1. Conditions -/

theorem Instr.OkAt.setCondition {i : Instr} {r : Room} {limit pc n : Nat} {waits : Prop}
    (h : i.OkAt r limit waits pc) (ho : i.opcode.isTest ∨ i.opcode = .jmp) (hn : n < 2)
    (hr : 2 ≤ r.registers) : (i.setA n).OkAt r limit False pc ∧ i.Stands (i.setA n) := by
  have hne : i.opcode ≠ .setList ∧ i.opcode ≠ .extraArg ∧ i.opcode ≠ .loadBool := by
    rcases ho with ho | ho
    · cases hop : i.opcode <;> rw [hop] at ho <;> revert ho <;> decide
    · rw [ho]
      decide
  have hmod : n % 256 < 2 := by omega
  refine ⟨⟨h.known, .inl ?_, h.jumps, fun hl => absurd hl hne.2.2⟩, .of_opcode rfl hne.1 hne.2.1⟩
  have hfit := h.fits
  rcases ho with ho | ho
  · cases hop : i.opcode <;> rw [hop] at ho <;>
      first
        | exact absurd ho (by decide)
        | (simp only [Fits, hop, opcode_setA, a_setA, b_setA, c_setA, reduceCtorEq, false_and,
            or_false, true_and] at hfit ⊢
           first
            | exact hfit
            | omega)
  · simp only [Fits, opcode_setA, ho, a_setA]
    omega

namespace Draft

open Compile

variable {d d' : Draft} {source : Bytes} {depth : Nat} {waiting : Nat → Prop} {e e' : Expr}

theorem Ready.negate {list : JumpList} (h : d.Ready source depth waiting)
    (hl : ∀ n ∈ list, d.OpAt n .jmp) :
    Writes (Compile.negate list) d fun _ d' => d'.Ready source depth waiting ∧ d.Steady d' := by
  unfold Compile.negate
  split
  · exact Writes.pure ⟨h, .refl d⟩
  · next node rest =>
    have hop : ∀ i, d.code[controlOf d node]? = some i → i.opcode.isTest ∨ i.opcode = .jmp := by
      intro i hi
      unfold controlOf at hi
      split at hi
      · next hc =>
        rw [instr_eq hi] at hc
        exact .inl hc.2
      · obtain ⟨j, hj, ho⟩ := hl node (by simp)
        rw [hi] at hj
        cases hj
        exact .inr ho
    obtain ⟨hg, hs⟩ := h.good.mapInstr (Nat.le_refl _) (controlOf d node)
      (fun i => i.setA (if i.a.val = 0 then 1 else 0)) fun i hi => by
        obtain ⟨h1, h2⟩ := (h.good.written.instr _ i hi).setCondition (hop i hi)
          (n := if i.a.val = 0 then 1 else 0) (by split <;> omega) h.good.stocked.low
        exact ⟨h1, h2, .inl rfl⟩
    exact Writes.modifyFn ⟨h.steady hs hg, hs⟩

theorem Ready.testOperand {r c : Nat} (h : d.Ready source depth waiting)
    (hn : d.OpAt (d.code.size - 1) .not) (hr : r < d.maxStack) :
    Writes (do Compile.dropLast; Compile.condJump .test r 0 c) d fun l d' =>
      d'.Ready source depth (fun n => waiting n ∨ n ∈ l) ∧ d.Steady d' ∧
        ∀ n ∈ l, d'.OpAt n .jmp := by
  have hlt := hn.lt
  have hw := h.good.written.pop hn
  refine Writes.bind (Writes.modifyFn ?_)
  have hh : ∀ n ∈ d.here, JumpAt { d with code := d.code.pop, lines := d.lines.pop } n := by
    intro n hn'
    obtain ⟨i, hi, ho⟩ := h.good.here n hn'
    refine ⟨i, ?_, by rw [ho]; rfl⟩
    obtain ⟨k, hk, hok⟩ := hn
    have hne : n ≠ d.code.size - 1 := by
      rintro rfl
      rw [hk] at hi
      cases hi
      rw [hok] at ho
      exact nomatch ho
    have := (Array.getElem?_eq_some_iff.mp hi).1
    rw [Array.getElem?_pop, if_pos (by omega)]
    exact hi
  have hsize : ({ d with code := d.code.pop, lines := d.lines.pop } : Draft).code.size =
      d.code.size - 1 := by simp
  refine (Writes.condJump rfl hw hh (by rw [hsize]; omega) (by rw [hsize]; omega) (.inl ?_)).imp
    fun l d' ⟨hl, hw', e, line, line', he, hd'⟩ => ?_
  · simp only [Instr.Fits, Instr.opcode_ofABC, Instr.a_ofABC]
    exact Nat.lt_of_le_of_lt (Nat.mod_le ..) hr
  have hes := he.steady
  have hesize : e.code.size = d.code.size - 1 := he.size.trans hsize
  -- the place of the NOT is taken by the TEST
  have hkept : d.Kept d' := by
    intro pc i hi
    have hpc := (Array.getElem?_eq_some_iff.mp hi).1
    by_cases hlast : pc = d.code.size - 1
    · obtain ⟨k, hk, hok⟩ := hn
      rw [hlast, hk] at hi
      cases hi
      refine ⟨Instr.ofABC .test r 0 c, ?_, .inr (.inr (.inr hok))⟩
      rw [hd', hlast]
      simp only [Draft.push, Array.getElem?_push, Array.size_push, hesize, if_true]
      rw [if_neg (by omega)]
    · obtain ⟨j, hj, hb⟩ := hes.kept pc i (by
        rw [Array.getElem?_pop, if_pos (by omega)]
        exact hi)
      refine ⟨j, ?_, hb⟩
      rw [hd']
      simp only [Draft.push, Array.getElem?_push, Array.size_push, hesize]
      rw [if_neg (by omega), if_neg (by omega)]
      exact hj
  have hs : d.Steady d' := by
    rw [hd'] at hkept ⊢
    exact ⟨⟨hkept, Nat.le_of_eq hes.maxStack_eq.symm, Nat.le_of_eq (by rw [← hes.constants_eq]; rfl),
      hes.upvalues, hes.protos, hes.params, hes.active, hes.blocks, hes.labels, hes.gotos⟩,
      hes.maxStack_eq, hes.constants_eq, hes.free_eq⟩
  refine ⟨h.steady hs (h.good.landed hs ?_ hw'), hs, fun n hn => ?_⟩
  · rw [hd']
    exact he.here
  · rw [hl, List.mem_singleton] at hn
    subst hn
    refine ⟨Instr.ofAsBx .jmp 0 (-1), ?_, by simp⟩
    rw [hd']
    simp only [Draft.push, Array.getElem?_push, Array.size_push, hesize, hsize, if_true]

/-- **A value is tested**; a TESTSET waits for its register. -/
theorem Ready.jumpOn {cond : Bool} (h : d.Ready source depth fun n => waiting n ∨ n ∈ e.jumps)
    (he : e.Ok d) (hv : e.place.isValue) (hc : ∀ js, e.place ≠ .compare js) :
    Writes (Compile.jumpOn e cond) d fun l d' =>
      d'.Ready source depth (fun n => (waiting n ∨ n ∈ e.jumps) ∨ n ∈ l) ∧ d.Extends d' ∧
      (∀ n ∈ l, d'.OpAt n .jmp) ∧ ∀ f, e.place.Above d f → f ≤ d'.free := by
  refine Writes.get fun s hs => ?_
  subst hs
  split
  · next r hnot =>
    obtain ⟨pc, hp, ho, hpc, hr⟩ : ∃ pc, e.place = .pending pc ∧ s.fn.OpAt pc .not ∧
        pc + 1 = s.fn.code.size ∧ r < s.fn.maxStack := by
      have hplace := he.place
      cases hp : e.place with
      | pending pc =>
        rw [hp] at hplace hnot
        obtain ⟨i, hi, -⟩ := hplace
        simp only [lastNot?, instr_eq hi] at hnot
        split at hnot
        · next hcond =>
          cases hnot
          refine ⟨pc, rfl, ⟨i, hi, hcond.1⟩, hcond.2, ?_⟩
          have hfit := (h.good.written.instr pc i hi).fits.resolve_right fun h => by simp [hcond.1] at h
          simp only [Instr.Fits, hcond.1] at hfit
          exact hfit.2
        · cases hnot
      | _ => rw [hp] at hnot; cases hnot
    have hlast : s.fn.OpAt (s.fn.code.size - 1) .not := by
      have : s.fn.code.size - 1 = pc := by omega
      rw [this]
      exact ho
    refine (h.testOperand hlast hr).imp ?_
    rintro l d' ⟨h', hs, hl⟩
    refine ⟨h', hs.toExtends, hl, fun f hf => ?_⟩
    have := hf.cost
    rw [hs.free_eq]
    omega
  · refine (h.settleAnywhere he hv hc).andThen ?_
    rintro e₁ d1 ⟨ht, h1, h2, r, hp, hr⟩
    refine (Writes.freeExpr (by rw [hp]; rfl)).andThen fun _ d2 hd2 => ?_
    have hfix : (Place.fixed r).jumps = [] := rfl
    have hj : ∀ n, n ∈ e₁.jumps ↔ n ∈ e.jumps := by
      intro n
      have hpj : e.place.jumps = [] := by
        cases hp' : e.place with
        | compare js => exact absurd hp' (hc js)
        | _ => rfl
      simp [Expr.mem_jumps, h1, h2, hp, hfix, hpj]
    have h₂ : d2.Ready source depth fun n => waiting n ∨ n ∈ e.jumps := by
      rw [hd2]
      exact (ht.ready.lower (Nat.sub_le ..)).wait fun n hn => by simpa [hj] using hn
    have hr2 : r < d2.maxStack := by
      rw [hd2]
      exact hr
    refine (h₂.good.condJump rfl (.inr ⟨rfl, ?_⟩)).imp ?_
    · rw [hp, Instr.b_ofABC]
      exact Nat.lt_of_le_of_lt (Nat.mod_le ..) hr2
    · rintro l d' ⟨hg, hs, hl⟩
      have hx2 : d1.Extends d2 := by
        rw [hd2]
        exact .lower d1 _
      refine ⟨h₂.steady hs hg, (ht.ext.trans hx2).trans hs.toExtends, hl, fun f hf => ?_⟩
      have h3 := (ht.above f hf).cost
      rw [hs.free_eq, hd2]
      show f ≤ d1.free - e₁.place.cost d1.active
      omega

theorem Ready.leave {out jumps arrive : JumpList}
    (h : d.Ready source depth fun n => waiting n ∨ (n ∈ out ∨ n ∈ jumps ∨ n ∈ arrive))
    (hl : ∀ n, n ∈ out ∨ n ∈ jumps ∨ n ∈ arrive → d.OpAt n .jmp) :
    Writes (do
      let l ← Compile.joinJumps out jumps
      Compile.patchHere arrive
      return l) d fun l d' => d'.Ready source depth (fun n => waiting n ∨ n ∈ l) ∧ d.Steady d' ∧
        ∀ n ∈ l, d'.OpAt n .jmp := by
  refine (Writes.joinJumps _ _).andThen fun l d1 ⟨hl1, hd1⟩ => ?_
  subst hl1 hd1
  have h' : d1.Ready source depth fun n => (waiting n ∨ n ∈ out ++ jumps) ∨ n ∈ arrive :=
    h.wait fun n hn => by
      rw [List.mem_append]
      rcases hn with hn | hn | hn | hn
      · exact .inl (.inl hn)
      · exact .inl (.inr (.inl hn))
      · exact .inl (.inr (.inr hn))
      · exact .inr hn
  refine (h'.good.patchHere fun n hn => hl n (.inr (.inr hn))).andThen
    fun _ d2 ⟨hg, hs, _⟩ => Writes.pure ⟨h.steady hs hg, hs, fun n hn => ?_⟩
  rcases List.mem_append.mp hn with hn | hn
  · exact (hl n (.inl hn)).kept_jmp hs.kept
  · exact (hl n (.inr (.inl hn))).kept_jmp hs.kept

def Decides (source : Bytes) (depth : Nat) (waiting : Nat → Prop) (d : Draft) (e : Expr)
    (l : JumpList) (d' : Draft) : Prop :=
  d'.Ready source depth (fun n => waiting n ∨ n ∈ l) ∧ d.Extends d' ∧ (∀ n ∈ l, d'.OpAt n .jmp) ∧
    ∀ f, e.place.Above d f → f ≤ d'.free

theorem jumps_of_not_compare {p : Place} (hc : ∀ js, p ≠ .compare js) : p.jumps = [] := by
  cases p with
  | compare js => exact absurd rfl (hc js)
  | _ => rfl

/-- The jumps of a value split into those that leave and those that arrive, with the jumps of the
    test that has been written. -/
theorem decides_of_turns {out arrive : JumpList} (jumps : JumpList) {d1 d2 : Draft} {e₁ : Expr}
    (ht : Turns source depth waiting d e d1 e₁)
    (hmem : ∀ n, n ∈ e₁.jumps ↔ n ∈ out ∨ n ∈ arrive ∨ n ∈ e₁.place.jumps)
    (h : d2.Ready source depth fun n => (waiting n ∨ n ∈ e₁.jumps) ∨ n ∈ jumps)
    (hl : ∀ n ∈ jumps, d2.OpAt n .jmp) (hp : ∀ n ∈ e₁.place.jumps, n ∈ jumps) (hx : d1.Extends d2)
    (hab : ∀ f, e₁.place.Above d1 f → f ≤ d2.free) :
    Writes (do
      let l ← Compile.joinJumps out jumps
      Compile.patchHere arrive
      return l) d2 fun l d' => Decides source depth waiting d e l d' := by
  have hl' : ∀ n, n ∈ out ∨ n ∈ jumps ∨ n ∈ arrive → d2.OpAt n .jmp := by
    rintro n (hn | hn | hn)
    · exact (ht.ok.jumps n ((hmem n).mpr (.inl hn))).kept_jmp hx.kept
    · exact hl n hn
    · exact (ht.ok.jumps n ((hmem n).mpr (.inr (.inl hn)))).kept_jmp hx.kept
  have h' : d2.Ready source depth fun n => waiting n ∨ (n ∈ out ∨ n ∈ jumps ∨ n ∈ arrive) :=
    h.wait fun n hn => by
      have h1 := hmem n
      have h2 := hp n
      grind
  refine (h'.leave hl').imp fun l d' ⟨h', hs, hl'⟩ =>
    ⟨h', (ht.ext.trans hx).trans hs.toExtends, hl', fun f hf => ?_⟩
  rw [hs.free_eq]
  exact hab f (ht.above f hf)

/-- **Go on when the value is true.** -/
theorem Ready.goIfTrue (h : d.Ready source depth fun n => waiting n ∨ n ∈ e.jumps) (he : e.Ok d) :
    Writes (Compile.goIfTrue e) d fun l d' => Decides source depth waiting d e l d' := by
  refine (h.readVariable he).andThen fun e₁ d1 ⟨ht, _, _, hv, _⟩ => ?_
  have hmem : ∀ n, n ∈ e₁.jumps ↔ n ∈ e₁.onFalse ∨ n ∈ e₁.onTrue ∨ n ∈ e₁.place.jumps := by
    intro n
    rw [Expr.mem_jumps]
    grind
  have htrue : e₁.place.jumps = [] → _ := fun hp =>
    decides_of_turns [] ht hmem (ht.ready.wait fun _ => .inl) nofun (by simp [hp]) (.refl _)
      fun f hf => hf.free
  have htest : (∀ js, e₁.place ≠ .compare js) → Writes (do
      let jumps ← Compile.jumpOn e₁ false
      let onFalse ← Compile.joinJumps e₁.onFalse jumps
      Compile.patchHere e₁.onTrue
      return onFalse) d1 fun l d' => Decides source depth waiting d e l d' := by
    intro hc
    refine (ht.ready.jumpOn ht.ok hv hc).andThen fun l d2 ⟨h₂, hx, hl, hab⟩ => ?_
    exact decides_of_turns l ht hmem h₂ hl (by simp [jumps_of_not_compare hc]) hx hab
  cases hp : e₁.place with
  | compare js =>
    have hj : e₁.place.jumps = js := by rw [hp]; rfl
    refine (ht.ready.negate fun n hn => ht.ok.jumps n ((hmem n).mpr ?_)).andThen
      fun _ d2 ⟨h₂, hs⟩ => Writes.bind (Writes.pure ?_)
    · exact .inr (.inr (by rw [hj]; exact hn))
    refine decides_of_turns js ht hmem (h₂.wait fun _ => .inl) (fun n hn => ?_) (by simp [hj]) hs.toExtends
      fun f hf => ?_
    · exact (ht.ok.jumps n ((hmem n).mpr (.inr (.inr (by rw [hj]; exact hn))))).kept_jmp hs.kept
    · rw [hs.free_eq]
      exact hf.free
  | constant | float | int => exact Writes.bind (Writes.pure (htrue (by rw [hp]; rfl)))
  | bool b =>
    cases b with
    | true => exact Writes.bind (Writes.pure (htrue (by rw [hp]; rfl)))
    | false => exact htest (by rw [hp]; nofun)
  | _ => exact htest (by rw [hp]; nofun)

/-- **Go on when the value is false.** -/
theorem Ready.goIfFalse (h : d.Ready source depth fun n => waiting n ∨ n ∈ e.jumps) (he : e.Ok d) :
    Writes (Compile.goIfFalse e) d fun l d' => Decides source depth waiting d e l d' := by
  refine (h.readVariable he).andThen fun e₁ d1 ⟨ht, _, _, hv, _⟩ => ?_
  have hmem : ∀ n, n ∈ e₁.jumps ↔ n ∈ e₁.onTrue ∨ n ∈ e₁.onFalse ∨ n ∈ e₁.place.jumps :=
    fun n => Expr.mem_jumps
  have hsame : ∀ jumps, e₁.place.jumps = jumps → _ := fun jumps hp =>
    decides_of_turns jumps ht hmem (ht.ready.wait fun _ => .inl)
      (fun n hn => ht.ok.jumps n ((hmem n).mpr (.inr (.inr (by rw [hp]; exact hn))))) (by simp [hp])
      (.refl _) fun f hf => hf.free
  split
  · next js hp => exact Writes.bind (Writes.pure (hsame js (by rw [hp]; rfl)))
  · next hp => exact Writes.bind (Writes.pure (hsame [] (by rw [hp]; rfl)))
  · next hp => exact Writes.bind (Writes.pure (hsame [] (by rw [hp]; rfl)))
  · next hc _ _ =>
    refine (ht.ready.jumpOn ht.ok hv hc).andThen fun l d2 ⟨h₂, hx, hl, hab⟩ => ?_
    exact decides_of_turns l ht hmem h₂ hl (by simp [jumps_of_not_compare hc]) hx hab

/-! ## 2. Unary operators -/

theorem value_aims {p : Place} (hp : p.Ok d) (hv : p.isValue) (ha : d.Aims d') :
    p.Ok d' ∧ ∀ f, p.Above d f → p.Above d' f := by
  have hs := ha.steady
  have hcost : ∀ f, f + p.cost d.active ≤ d.free → f + p.cost d'.active ≤ d'.free := by
    intro f hf
    rw [hs.active, hs.free_eq]
    exact hf
  cases p with
  | pending pc =>
    obtain ⟨i, hi, hm⟩ := hp
    have hi' : d'.code[pc]? = some i := by
      refine ha.instr hi ?_ ?_
      · rcases hm with hm | ⟨ho, -⟩
        · cases ho : i.opcode <;> rw [ho] at hm <;> revert hm <;> decide
        · rw [ho]; decide
      · rcases hm with hm | ⟨ho, -⟩
        · rintro ho
          rw [ho] at hm
          exact nomatch hm
        · rw [ho]; decide
    refine ⟨⟨i, hi', hm⟩, fun f hf => ⟨hcost f hf.cost, fun pc' j hpc hj hc => ?_, nofun⟩⟩
    cases hpc
    rw [hi'] at hj
    cases hj
    exact hf.concat pc i rfl hi hc
  | constant k =>
    refine ⟨?_, fun f hf => ⟨hcost f hf.cost, nofun, nofun⟩⟩
    show k < d'.constants.size
    rw [hs.constants_eq]
    exact hp
  | fixed r =>
    refine ⟨?_, fun f hf => ⟨hcost f hf.cost, nofun, nofun⟩⟩
    show r < d'.maxStack
    rw [hs.maxStack_eq]
    exact hp
  | nil | bool | float | int | compare =>
    exact ⟨trivial, fun f hf => ⟨hcost f hf.cost, nofun, nofun⟩⟩
  | void | localVar | upvalue | indexed | call | varargs => exact nomatch hv

theorem Ready.dropValues {list : JumpList} (h : d.Ready source depth waiting)
    (hl : ∀ n ∈ list, d.OpAt n .jmp) :
    Writes (Compile.dropValues list) d fun _ d' => d'.Ready source depth waiting ∧ d.Aims d' := by
  refine (Writes.dropValues h.good.written fun n hn => (hl n hn).jumpAt).imp fun _ d' ⟨hw, ha⟩ => ?_
  refine ⟨h.steady ha.steady (h.good.rewritten ha.steady ha.here ?_), ha⟩
  rw [ha.size, ha.here]
  exact hw

/-- **The negation of a value.** -/
theorem Ready.logicalNot (h : d.Ready source depth fun n => waiting n ∨ n ∈ e.jumps) (he : e.Ok d) :
    Writes (Compile.logicalNot e) d fun e' d' => Turns source depth waiting d e d' e' := by
  refine (h.readVariable he).andThen ?_
  rintro e₁ d1 ⟨ht, _, _, hv, _⟩
  extract_lets next
  -- the value is there; the jumps change sides and bring no values
  have hnext : ∀ p d2, p.isValue → p.Ok d2 →
      d2.Ready source depth (fun n => waiting n ∨ n ∈ e₁.jumps) → d1.Extends d2 →
      (∀ n ∈ e₁.jumps, d2.OpAt n .jmp) → p.jumps = e₁.place.jumps →
      (∀ f, e₁.place.Above d1 f → p.Above d2 f) →
      Writes (next p) d2 fun e' d' => Turns source depth waiting d e d' e' := by
    intro p d2 hpv hp h₂ hx hl hpj hab
    refine (h₂.dropValues fun n hn => hl n (Expr.mem_jumps.mpr (.inl hn))).andThen
      ?_
    rintro _ d3 ⟨h₃, ha3⟩
    refine (h₃.dropValues fun n hn => (hl n (Expr.mem_jumps.mpr (.inr (.inl hn)))).kept_jmp
      ha3.steady.kept).andThen ?_
    rintro _ d4 ⟨h₄, ha4⟩
    refine Writes.pure ?_
    have ha := ha3.trans ha4
    obtain ⟨hok, hab'⟩ := value_aims hp hpv ha
    have hj : ∀ n, n ∈ (⟨p, e₁.onFalse, e₁.onTrue⟩ : Expr).jumps ↔ n ∈ e₁.jumps := by
      intro n
      simp only [Expr.mem_jumps, hpj]
      grind
    refine ⟨h₄.wait fun n hn => by simpa [hj] using hn, (ht.ext.trans hx).trans ha.steady.toExtends,
      ⟨hok, fun n hn => (hl n ((hj n).mp hn)).kept_jmp ha.steady.kept, fun h => ?_⟩,
      fun f hf => hab' f (hab f (ht.above f hf))⟩
    rw [hpv] at h
    cases h
  -- a literal that takes the place of the value
  have hlit : ∀ b, e₁.place.jumps = [] →
      Writes (pure (Place.bool b) >>= next) d1 fun e' d' => Turns source depth waiting d e d' e' := by
    intro b hpj
    refine Writes.bind (Writes.pure (hnext (.bool b) d1 rfl trivial ht.ready (.refl _) ht.ok.jumps
      hpj.symm fun f hf => ⟨?_, by simp, by simp⟩))
    exact hf.free
  -- a NOT is written
  have hwrite : (∀ js, e₁.place ≠ .compare js) → Writes (do
      let e ← Compile.settleAnywhere e₁
      Compile.freeExpr e
      let pc ← Compile.emitABC .not 0 e.place.register 0
      let place ← pure (Place.pending pc)
      next place) d1 fun e' d' => Turns source depth waiting d e d' e' := by
    intro hc
    refine (ht.ready.settleAnywhere ht.ok hv hc).andThen ?_
    rintro e2 d2 ⟨ht2, h1, h2, r, hp, hr⟩
    refine (Writes.freeExpr (by rw [hp]; rfl)).andThen fun _ d3 hd3 => ?_
    have hx3 : d2.Extends d3 := by
      rw [hd3]
      exact .lower d2 _
    have h₃ : d3.Ready source depth fun n => waiting n ∨ n ∈ e2.jumps := by
      rw [hd3]
      exact ht2.ready.lower (Nat.sub_le ..)
    refine (h₃.emitPending (Instr.plain_ofABC rfl ..) (.inl (by simp [Op.isMovable])) ?_).andThen ?_
    · have hlow := h₃.good.stocked.low
      have hr3 : r < d3.maxStack := Nat.lt_of_lt_of_le hr hx3.maxStack
      rw [hp]
      simp only [Instr.Fits, Instr.opcode_ofABC, Instr.a_ofABC, Instr.b_ofABC]
      exact ⟨Nat.lt_of_lt_of_le (by omega : 0 % 256 < 2) hlow, Nat.lt_of_le_of_lt (Nat.mod_le ..) hr3⟩
    rintro pc d4 ⟨h₄, hs4, hok, hab⟩
    refine Writes.bind (Writes.pure ?_)
    have hmem : ∀ n, n ∈ e2.jumps ↔ n ∈ e₁.jumps := by
      intro n
      simp only [Expr.mem_jumps, h1, h2, hp, jumps_of_not_compare hc]
      rfl
    have hx := (ht2.ext.trans hx3).trans hs4.toExtends
    refine hnext (.pending pc) d4 rfl hok (h₄.wait fun n hn => by simpa [hmem] using hn) hx
      (fun n hn => (ht.ok.jumps n hn).kept_jmp hx.kept) (jumps_of_not_compare hc).symm fun f hf => ?_
    refine hab f ?_ (by simp)
    have h5 := (ht2.above f hf).cost
    rw [hd3]
    show f ≤ d2.free - e2.place.cost d2.active
    omega
  cases hp : e₁.place with
  | nil => exact hlit true (by rw [hp]; rfl)
  | constant | float | int => exact hlit false (by rw [hp]; rfl)
  | bool b =>
    cases b with
    | true => exact hlit false (by rw [hp]; rfl)
    | false => exact hlit true (by rw [hp]; rfl)
  | compare js =>
    refine (ht.ready.negate fun n hn => ht.ok.jumps n (Expr.mem_jumps.mpr (.inr (.inr ?_)))).andThen ?_
    · rw [hp]
      exact hn
    rintro _ d2 ⟨h₂, hs⟩
    refine Writes.bind (Writes.pure ?_)
    refine hnext (.compare js) d2 rfl trivial h₂ hs.toExtends
      (fun n hn => (ht.ok.jumps n hn).kept_jmp hs.kept) (by rw [hp]) fun f hf => ?_
    have := hf.cost
    rw [hp] at this
    refine ⟨?_, by simp, by simp⟩
    rw [hs.free_eq, hs.active]
    exact this
  | pending | fixed => exact hwrite (by rw [hp]; simp)
  | void | localVar | upvalue | indexed | call | varargs =>
    rw [hp] at hv
    cases hv

theorem Ready.pendingLine {pc line : Nat} {floors : Nat → Prop} {g : Draft}
    (h : d.Ready source depth waiting) (hok : (Place.pending pc).Ok d) (hx : g.Extends d)
    (hab : ∀ f, floors f → (Place.pending pc).Above d f) :
    Writes (do Compile.fixLine line; return Expr.plain (.pending pc)) d fun e' d' =>
      d'.Ready source depth (fun n => waiting n ∨ n ∈ e'.jumps) ∧ g.Extends d' ∧ e'.Ok d' ∧
        ∀ f, floors f → e'.place.Above d' f := by
  refine h.good.fixLine.andThen fun _ d' ⟨hg, hs, hc, _⟩ => Writes.pure ?_
  obtain ⟨i, hi, hm⟩ := hok
  refine ⟨(h.steady hs hg).wait fun _ => .inl, hx.trans hs.toExtends,
    ⟨⟨i, by rw [hc]; exact hi, hm⟩, by simp [Expr.jumps, Expr.plain, Place.jumps], nofun⟩,
    fun f hf => ⟨?_, fun pc' j hpc hj ho => ?_, nofun⟩⟩
  · rw [hs.free_eq]
    exact (hab f hf).cost
  · cases hpc
    rw [hc] at hj
    exact (hab f hf).concat pc j rfl hj ho

theorem Ready.emitUnary {op : Op} {line : Nat}
    (h : d.Ready source depth fun n => waiting n ∨ n ∈ e.jumps) (he : e.Ok d)
    (ho : op = .unm ∨ op = .bnot ∨ op = .len) :
    Writes (Compile.emitUnary op e line) d fun e' d' => Turns source depth waiting d e d' e' := by
  refine (h.toAnyRegister he).andThen ?_
  rintro r d1 ⟨h₁, hx1, hr, hab⟩
  refine (Writes.freeRegister r).andThen fun _ d2 hd2 => ?_
  have hx2 : d1.Extends d2 := by
    rw [hd2]
    exact .lower d1 _
  have h₂ : d2.Ready source depth waiting := by
    rw [hd2]
    exact h₁.lower (Nat.sub_le ..)
  have hr2 : r < d2.maxStack := Nat.lt_of_lt_of_le hr hx2.maxStack
  have hlow := h₂.good.stocked.low
  have hfits : (Instr.ofABC op 0 r 0).Fits (d2.room d2.maxStack) := by
    rcases ho with rfl | rfl | rfl <;>
      · simp only [Instr.Fits, Instr.opcode_ofABC, Instr.a_ofABC, Instr.b_ofABC]
        exact ⟨Nat.lt_of_lt_of_le (by omega : 0 % 256 < 2) hlow,
          Nat.lt_of_le_of_lt (Nat.mod_le ..) hr2⟩
  have hplain : (Instr.ofABC op 0 r 0).Plain :=
    Instr.plain_ofABC (by rcases ho with rfl | rfl | rfl <;> rfl) ..
  have hmov : (Instr.ofABC op 0 r 0).Movable :=
    .inl (by rcases ho with rfl | rfl | rfl <;> simp [Op.isMovable])
  refine (h₂.emitPending hplain hmov hfits).andThen ?_
  rintro pc d3 ⟨h₃, hs3, hok, hab3⟩
  have hfloor : ∀ f, e.place.Above d f → (Place.pending pc).Above d3 f := by
    intro f hf
    refine hab3 f ?_ fun hc => ?_
    · have h4 := hab f hf
      rw [hd2]
      show f ≤ d1.free - Operand.cost d1.active r
      omega
    · rw [Instr.opcode_ofABC] at hc
      rcases ho with rfl | rfl | rfl <;> cases hc
  exact (h₃.pendingLine hok ((hx1.trans hx2).trans hs3.toExtends) hfloor).imp
    fun e' d' h => ⟨h.1, h.2.1, h.2.2.1, h.2.2.2⟩

theorem fold_eq {op : ArithOp} {e₁ e2 r : Expr} (h : fold? op e₁ e2 = some r) :
    ((∃ i, r = .plain (.int i)) ∨ ∃ x, r = .plain (.float x)) ∧ e₁.jumps = [] ∧ e2.jumps = [] := by
  have hnum : ∀ (e : Expr) (a : Number), e.numeral? = some a → e.jumps = [] := by
    intro e a he
    unfold Expr.numeral? at he
    split at he
    · exact nomatch he
    · next hj =>
      refine Expr.jumps_eq_nil (by simpa using hj) ?_
      split at he
      · next hp => rw [hp]; rfl
      · next hp => rw [hp]; rfl
      · exact nomatch he
  unfold fold? at h
  split at h
  · next a b h1 h2 =>
    refine ⟨?_, hnum e₁ a h1, hnum e2 b h2⟩
    split at h
    · split at h
      · cases h
        exact .inl ⟨_, rfl⟩
      · split at h
        · exact nomatch h
        · cases h
          exact .inr ⟨_, rfl⟩
      · exact nomatch h
    · exact nomatch h
  · exact nomatch h

theorem turns_numeral {r : Expr} (h : d.Ready source depth fun n => waiting n ∨ n ∈ e.jumps)
    (hj : e.jumps = []) (hr : (∃ i, r = .plain (.int i)) ∨ ∃ x, r = .plain (.float x)) :
    Turns source depth waiting d e d r := by
  have h' : d.Ready source depth waiting :=
    h.wait fun n hn => hn.resolve_right (by rw [hj]; exact List.not_mem_nil)
  rcases hr with ⟨i, rfl⟩ | ⟨x, rfl⟩
  · exact ⟨h'.wait fun _ => .inl, .refl d, ⟨trivial, nofun, nofun⟩, fun f hf => ⟨hf.free, nofun, nofun⟩⟩
  · exact ⟨h'.wait fun _ => .inl, .refl d, ⟨trivial, nofun, nofun⟩, fun f hf => ⟨hf.free, nofun, nofun⟩⟩

/-- **A unary operator is applied.** -/
theorem Ready.unary {op : UnOp} {line : Nat}
    (h : d.Ready source depth fun n => waiting n ∨ n ∈ e.jumps) (he : e.Ok d) :
    Writes (Compile.unary op e line) d fun e' d' => Turns source depth waiting d e d' e' := by
  unfold Compile.unary
  dsimp only
  split
  · split
    · next r hr => exact Writes.pure (turns_numeral h (fold_eq hr).2.1 (fold_eq hr).1)
    · exact h.emitUnary he (.inl rfl)
  · split
    · next r hr => exact Writes.pure (turns_numeral h (fold_eq hr).2.1 (fold_eq hr).1)
    · exact h.emitUnary he (.inr (.inl rfl))
  · exact h.emitUnary he (.inr (.inr rfl))
  · exact h.logicalNot he

end Draft

/-! ## 3. Binary operators -/

def BinOp.isBinary : BinOp → Bool
  | arith .unm | arith .bnot => false
  | _ => true

theorem BinOp.isBinary_ofToken {t : Token} {op : BinOp} (h : ofToken? t = some op) : op.isBinary := by
  unfold ofToken? at h
  split at h <;> first | (cases h; rfl) | exact nomatch h

namespace Place

def IsOperand (d : Draft) (p : Place) : Prop :=
  (∃ r, p = fixed r ∧ r < d.maxStack) ∨
    ∃ k, p = constant k ∧ k < d.constants.size ∧ k ≤ Operand.maxConstant

def IsNumeral (p : Place) : Prop := (∃ i, p = int i) ∨ ∃ x, p = float x

theorem IsOperand.mono {d d' : Draft} {p : Place} (h : p.IsOperand d) (hm : d.maxStack ≤ d'.maxStack)
    (hk : d.constants.size ≤ d'.constants.size) : p.IsOperand d' := by
  rcases h with ⟨r, rfl, hr⟩ | ⟨k, rfl, hk', hc⟩
  · exact .inl ⟨r, rfl, by omega⟩
  · exact .inr ⟨k, rfl, by omega, hc⟩

end Place

/-- What is kept of a left operand while the right one is read. -/
structure Left (op : BinOp) (d : Draft) (e : Expr) : Prop where
  jumps : ∀ n ∈ e.jumps, d.OpAt n .jmp
  place : match op with
    | .and => e.place = .void ∧ e.onTrue = []
    | .or => e.place = .void ∧ e.onFalse = []
    | .concat => ∃ r, e = .plain (.fixed r) ∧ r < d.maxStack
    | .arith _ => e = .plain e.place ∧ (e.place.IsOperand d ∨ e.place.IsNumeral)
    | _ => e = .plain e.place ∧ e.place.IsOperand d

theorem Left.mono {op : BinOp} {d d' : Draft} {e : Expr} (h : Left op d e) (hk : d.Kept d')
    (hm : d.maxStack ≤ d'.maxStack) (hc : d.constants.size ≤ d'.constants.size) : Left op d' e := by
  refine ⟨fun n hn => (h.jumps n hn).kept_jmp hk, ?_⟩
  have hp := h.place
  split <;> simp only at hp
  · exact hp
  · exact hp
  · obtain ⟨r, he, hr⟩ := hp
    exact ⟨r, he, by omega⟩
  · exact ⟨hp.1, hp.2.imp_left fun h => h.mono hm hc⟩
  · exact ⟨hp.1, hp.2.mono hm hc⟩

namespace Draft

open Compile

variable {d d' : Draft} {source : Bytes} {depth : Nat} {waiting : Nat → Prop} {e e₁ e2 : Expr}

theorem HasOperand.ofOperand {x : Nat} (h : d.HasOperand x) :
    (Expr.ofOperand x).place.IsOperand d ∧
      (Expr.ofOperand x).place.cost d.active = Operand.cost d.active x := by
  obtain ⟨hlt, hhas⟩ := h
  unfold Room.Has at hhas
  simp only [Expr.ofOperand, Expr.plain]
  split at hhas
  · next hc =>
    rw [if_pos hc]
    refine ⟨.inr ⟨_, rfl, hhas, ?_⟩, by simp [Place.cost, Operand.cost, hc]⟩
    unfold Operand.constantIndex Operand.maxConstant
    rw [if_pos hc, show Operand.constantBit = 256 from rfl]
    omega
  · next hc =>
    rw [if_neg hc]
    exact ⟨.inl ⟨_, rfl, hhas⟩, rfl⟩

/-- **The left operand is prepared.** -/
theorem Ready.beforeRight {op : BinOp} (h : d.Ready source depth fun n => waiting n ∨ n ∈ e.jumps)
    (he : e.Ok d) :
    Writes (Compile.beforeRight op e) d fun e' d' =>
      d'.Ready source depth (fun n => waiting n ∨ n ∈ e'.jumps) ∧ d.Extends d' ∧ Left op d' e' ∧
      (∀ f, e.place.Above d f → f + e'.place.cost d'.active ≤ d'.free) ∧
      (op = .concat → ∀ r, e'.place = .fixed r → r < d'.free) := by
  have hoperand : (∀ x d', d'.HasOperand x → Left op d' (.ofOperand x)) → op ≠ .concat →
      Writes (do return Expr.ofOperand (← Compile.toOperand e)) d fun e' d' =>
        d'.Ready source depth (fun n => waiting n ∨ n ∈ e'.jumps) ∧ d.Extends d' ∧ Left op d' e' ∧
        (∀ f, e.place.Above d f → f + e'.place.cost d'.active ≤ d'.free) ∧
        (op = .concat → ∀ r, e'.place = .fixed r → r < d'.free) := by
    intro hleft hne
    refine (h.toOperand he).andThen ?_
    rintro x d' ⟨h', hx, hop, hab⟩
    refine Writes.pure ?_
    refine ⟨h'.wait fun _ => .inl, hx, hleft x d' hop, fun f hf => ?_, fun h => absurd h hne⟩
    rw [hop.ofOperand.2]
    exact hab f hf
  have hnil : ∀ x, (Expr.ofOperand x).jumps = [] := by
    intro x
    unfold Expr.ofOperand
    split <;> rfl
  unfold Compile.beforeRight
  split
  · refine (h.goIfTrue he).andThen ?_
    rintro l d' ⟨h', hx, hl, hab⟩
    refine Writes.pure ?_
    refine ⟨h'.wait fun n hn => ?_, hx, ⟨?_, rfl, rfl⟩, fun f hf => hab f hf, by simp⟩
    · simpa [Expr.mem_jumps, Place.jumps] using hn
    · simpa [Expr.mem_jumps, Place.jumps] using hl
  · refine (h.goIfFalse he).andThen ?_
    rintro l d' ⟨h', hx, hl, hab⟩
    refine Writes.pure ?_
    refine ⟨h'.wait fun n hn => ?_, hx, ⟨?_, rfl, rfl⟩, fun f hf => hab f hf, by simp⟩
    · simpa [Expr.mem_jumps, Place.jumps] using hn
    · simpa [Expr.mem_jumps, Place.jumps] using hl
  · refine (h.toNextRegister he).andThen ?_
    rintro r d' ⟨h', hx, hr, hab⟩
    refine Writes.pure ?_
    have hle := h'.good.stocked.free
    refine ⟨h'.wait fun _ => .inl, hx, ⟨by rintro _ ⟨⟩, r, rfl, by omega⟩, fun f hf => ?_, fun _ r' hr' => ?_⟩
    · have h1 := hab f hf
      have h2 := Operand.cost_le d'.active r
      show f + Operand.cost d'.active r ≤ d'.free
      omega
    · cases hr'
      omega
  · split
    · next hn =>
      refine Writes.pure ⟨h, .refl d, ?_, fun f hf => ?_, by simp⟩
      · obtain ⟨a, ha⟩ := Option.isSome_iff_exists.mp hn
        unfold Expr.numeral? at ha
        split at ha
        · cases ha
        · next hj =>
          simp only [Expr.hasJumps, Bool.not_eq_true, Bool.not_eq_false', Bool.and_eq_true,
            List.isEmpty_iff] at hj
          refine ⟨he.jumps, ?_, .inr ?_⟩
          · cases e
            simp_all [Expr.plain]
          · split at ha
            · next hp => exact .inl ⟨_, hp⟩
            · next hp => exact .inr ⟨_, hp⟩
            · cases ha
      · exact hf.cost
    · refine hoperand (fun x d' hop => ⟨by simp [hnil], rfl, .inl hop.ofOperand.1⟩) (by simp)
  · next h1 h2 h3 h4 =>
    refine hoperand (fun x d' hop => ⟨by simp [hnil], ?_⟩) h3
    have hend : Expr.ofOperand x = .plain (Expr.ofOperand x).place ∧
        (Expr.ofOperand x).place.IsOperand d' := ⟨rfl, hop.ofOperand.1⟩
    cases op with
    | and => exact absurd rfl h1
    | or => exact absurd rfl h2
    | concat => exact absurd rfl h3
    | arith a => exact absurd rfl (h4 a)
    | eq | lt | le | ne | gt | ge => exact hend

def Applied (source : Bytes) (depth : Nat) (waiting : Nat → Prop) (d : Draft) (e₁ : Expr) (m : Nat)
    (e' : Expr) (d' : Draft) : Prop :=
  d'.Ready source depth (fun n => waiting n ∨ n ∈ e'.jumps) ∧ d.Extends d' ∧ e'.Ok d' ∧
    ∀ f, f + e₁.place.cost d.active ≤ m → e'.place.Above d' f

theorem ok_of_left (h : e = .plain e.place) (hp : e.place.IsOperand d ∨ e.place.IsNumeral) :
    e.Ok d ∧ e.jumps = [] := by
  have hj : e.jumps = [] := by
    rw [h, Expr.jumps_plain]
    rcases hp with (⟨r, hp, -⟩ | ⟨k, hp, -⟩) | (⟨i, hp⟩ | ⟨x, hp⟩) <;> rw [hp] <;> rfl
  refine ⟨⟨?_, by simp [hj], fun _ => by rw [h]; exact ⟨rfl, rfl⟩⟩, hj⟩
  rcases hp with (⟨r, hp, hr⟩ | ⟨k, hp, hk, -⟩) | (⟨i, hp⟩ | ⟨x, hp⟩) <;> rw [hp]
  · exact hr
  · exact hk
  · trivial
  · trivial

theorem above_of_left {f : Nat} (hp : e.place.IsOperand d' ∨ e.place.IsNumeral)
    (h : f + e.place.cost d.active ≤ d.free) : e.place.Above d f := by
  refine ⟨h, ?_, ?_⟩ <;>
    · intro pc i hpc
      rcases hp with (⟨r, hp, -⟩ | ⟨k, hp, -⟩) | (⟨i, hp⟩ | ⟨x, hp⟩) <;> rw [hp] at hpc <;>
        exact nomatch hpc

theorem Ready.emitArith {op : ArithOp} {line m : Nat}
    (h : d.Ready source depth fun n => (waiting n ∨ n ∈ e₁.jumps) ∨ n ∈ e2.jumps)
    (hl : e₁ = .plain e₁.place ∧ (e₁.place.IsOperand d ∨ e₁.place.IsNumeral)) (he : e2.Ok d)
    (hm : e2.place.Above d m) (hop : (BinOp.arith op).isBinary) :
    Writes (Compile.emitBinary op.opcode e₁ e2 line) d
      (Applied source depth waiting d e₁ m) := by
  obtain ⟨-, hj1⟩ := ok_of_left hl.1 hl.2
  refine (h.toOperand he).andThen ?_
  rintro y d1 ⟨h₁, hx1, hy, hab1⟩
  have hl1 : e₁.place.IsOperand d1 ∨ e₁.place.IsNumeral :=
    hl.2.imp_left fun h => h.mono hx1.maxStack hx1.constants
  refine (h₁.toOperand (ok_of_left hl.1 hl1).1).andThen ?_
  rintro x d2 ⟨h₂, hx2, hx, hab2⟩
  refine (Writes.freeRegisters x y).andThen fun _ d3 hd3 => ?_
  have hx3 : d2.Extends d3 := by
    rw [hd3]
    exact .lower d2 _
  have h₃ : d3.Ready source depth waiting := by
    rw [hd3]
    exact h₂.lower (Nat.sub_le ..)
  have hlow := h₃.good.stocked.low
  have hfits : (Instr.ofABC op.opcode 0 x y).Fits (d3.room d3.maxStack) := by
    have hb := (hx.ext hx3).field (Nat.le_refl d3.maxStack)
    have hc := ((hy.ext hx2).ext hx3).field (Nat.le_refl d3.maxStack)
    cases op <;>
      first
        | exact absurd hop (by decide)
        | (simp only [Instr.Fits, ArithOp.opcode, Instr.opcode_ofABC, Instr.a_ofABC, Instr.b_ofABC,
            Instr.c_ofABC]
           exact ⟨Nat.lt_of_lt_of_le (by omega : 0 % 256 < 2) hlow, hb, hc⟩)
  have hplain : (Instr.ofABC op.opcode 0 x y).Plain :=
    Instr.plain_ofABC (by cases op <;> rfl) ..
  have hmov : (Instr.ofABC op.opcode 0 x y).Movable :=
    .inl (by cases op <;> simp [ArithOp.opcode, Op.isMovable])
  refine (h₃.emitPending hplain hmov hfits).andThen ?_
  rintro pc d4 ⟨h₄, hs4, hok, hab4⟩
  have hfloor : ∀ f, f + e₁.place.cost d.active ≤ m → (Place.pending pc).Above d4 f := by
    intro f hf
    refine hab4 f ?_ fun hc => ?_
    · have h5 := hab1 m hm
      have h6 := hab2 (f + Operand.cost d1.active y) (above_of_left hl1 (by rw [hx1.active] at *; omega))
      rw [hd3]
      show f ≤ d2.free - (Operand.cost d2.active x + Operand.cost d2.active y)
      rw [hx2.active] at h6 ⊢
      omega
    · rw [Instr.opcode_ofABC] at hc
      cases op <;> cases hc
  exact h₄.pendingLine hok (((hx1.trans hx2).trans hx3).trans hs4.toExtends) hfloor

theorem Ready.emitCompare {op : BinOp} {m : Nat}
    (h : d.Ready source depth fun n => (waiting n ∨ n ∈ e₁.jumps) ∨ n ∈ e2.jumps)
    (hl : e₁ = .plain e₁.place ∧ e₁.place.IsOperand d) (he : e2.Ok d) (hm : e2.place.Above d m) :
    Writes (Compile.emitCompare op e₁ e2) d (Applied source depth waiting d e₁ m) := by
  obtain ⟨-, hj1⟩ := ok_of_left hl.1 (.inl hl.2)
  unfold Compile.emitCompare
  extract_lets x next
  have hx : d.HasOperand x ∧ Operand.cost d.active x = e₁.place.cost d.active := by
    rcases hl.2 with ⟨r, hp, hr⟩ | ⟨k, hp, hk, hle⟩
    · simp only [x, hp]
      exact ⟨.of_register hr h.good.stocked.high, rfl⟩
    · simp only [x, hp]
      exact ⟨.of_constant hk hle, Operand.cost_ofConstant hle⟩
  clear_value x
  refine (h.toOperand he).andThen ?_
  rintro y d1 ⟨h₁, hx1, hy, hab1⟩
  refine (Writes.freeRegisters x y).andThen fun _ d2 hd2 => ?_
  have hx2 : d1.Extends d2 := by
    rw [hd2]
    exact .lower d1 _
  have h₂ : d2.Ready source depth fun n => waiting n ∨ n ∈ e₁.jumps := by
    rw [hd2]
    exact h₁.lower (Nat.sub_le ..)
  have hcond : ∀ (op : Op) (a b c : Nat), op = .eq ∨ op = .lt ∨ op = .le → d2.HasOperand b →
      d2.HasOperand c → Writes (Compile.condJump op a b c >>= next) d2
        (Applied source depth waiting d e₁ m) := by
    intro op a b c hop hb hc
    have hfits : (Instr.ofABC op a b c).Fits (d2.room d2.maxStack) := by
      rcases hop with rfl | rfl | rfl <;>
        · simp only [Instr.Fits, Instr.opcode_ofABC, Instr.b_ofABC, Instr.c_ofABC]
          exact ⟨hb.field (Nat.le_refl _), hc.field (Nat.le_refl _)⟩
    refine (h₂.good.condJump (by rcases hop with rfl | rfl | rfl <;> rfl) (.inl hfits)).andThen
      ?_
    rintro l d3 ⟨hg, hs, hjmp⟩
    refine Writes.pure ?_
    refine ⟨(h₂.steady hs hg).wait fun n hn => ?_, (hx1.trans hx2).trans hs.toExtends,
      ⟨trivial, fun n hn => hjmp n (by simpa [Expr.jumps_plain, Place.jumps] using hn), by rintro ⟨⟩⟩,
      fun f hf => ⟨?_, by rintro _ _ ⟨⟩, by rintro _ _ ⟨⟩⟩⟩
    · rw [hj1] at hn
      rcases hn with (hn | hn) | hn
      · exact .inl hn
      · exact absurd hn List.not_mem_nil
      · exact .inr (by simpa [Expr.jumps_plain, Place.jumps] using hn)
    · have h5 := hab1 m hm
      show f + 0 ≤ d3.free
      rw [hs.free_eq, hd2]
      show f + 0 ≤ d1.free - (Operand.cost d1.active x + Operand.cost d1.active y)
      rw [hx1.active] at h5 ⊢
      omega
  have hb := (hx.1.ext hx1).ext hx2
  have hc := hy.ext hx2
  split
  · exact hcond _ _ _ _ (.inl rfl) hb hc
  · exact hcond _ _ _ _ (.inr (.inl rfl)) hc hb
  · exact hcond _ _ _ _ (.inr (.inr rfl)) hc hb
  · exact hcond _ _ _ _ (.inl rfl) hb hc
  · exact hcond _ _ _ _ (.inr (.inl rfl)) hb hc
  · exact hcond _ _ _ _ (.inr (.inr rfl)) hb hc

theorem Ready.emitConcat {r1 r2 line m : Nat} (h : d.Ready source depth waiting) (hle : r1 < m)
    (hm : m ≤ r2) (hr : r2 + 1 = d.free) {g : Draft} (hg : g.Extends d) :
    Writes (Compile.emitBinary .concat (.plain (.fixed r1)) (.plain (.fixed r2)) line) d
      (Applied source depth waiting g (.plain (.fixed r1)) m) := by
  have hstock := h.good.stocked
  have hfree := hstock.free
  have hhigh := hstock.high
  unfold Compile.emitBinary
  simp only [toOperand_fixed]
  refine Writes.bind (Writes.pure (Writes.bind (Writes.pure ?_)))
  refine (Writes.freeRegisters r1 r2).andThen fun _ d1 hd1 => ?_
  have hx1 : d.Extends d1 := by
    rw [hd1]
    exact .lower d _
  have h₁ : d1.Ready source depth waiting := by
    rw [hd1]
    exact h.lower (Nat.sub_le ..)
  have hc : r2 % 512 = r2 := Nat.mod_eq_of_lt (by omega)
  have hb : r1 % 512 = r1 := Nat.mod_eq_of_lt (by omega)
  refine (h₁.emitPending (Instr.plain_ofABC rfl 0 r1 r2) (.inl (by simp [Op.isMovable])) ?_).andThen
    fun pc d2 ⟨h₂, hs2, hok, hab⟩ => ?_
  · have hlow := h₁.good.stocked.low
    have := hx1.maxStack
    simp only [Instr.Fits, Instr.opcode_ofABC, Instr.a_ofABC, Instr.b_ofABC, Instr.c_ofABC, hb, hc,
      room]
    omega
  have hfloor : ∀ f, f + (Expr.plain (.fixed r1)).place.cost g.active ≤ m →
      (Place.pending pc).Above d2 f := by
    intro f hf
    have h3 := Operand.cost_le d.active r2
    have hf' : f + Operand.cost d.active r1 ≤ m := by
      rw [hg.active]
      exact hf
    refine hab f ?_ fun _ => ?_
    · rw [hd1]
      show f ≤ d.free - (Operand.cost d.active r1 + Operand.cost d.active r2)
      omega
    · rw [Instr.c_ofABC, hc]
      omega
  exact h₂.pendingLine hok ((hg.trans hx1).trans hs2.toExtends) hfloor

theorem Ready.widenConcat {r pc m : Nat} {i : Instr} (h : d.Ready source depth waiting)
    (hi : d.code[pc]? = some i) (ho : i.opcode = .concat) (hr : r < m) (hc : m ≤ i.c.val)
    (hm : m ≤ d.free) {g : Draft} (hg : g.Extends d) :
    Writes (do
      Compile.freeExpr (.plain (.fixed r))
      Compile.modifyFn fun d => d.mapInstr pc fun i => i.setB r
      return Expr.plain (.pending pc)) d (Applied source depth waiting g (.plain (.fixed r)) m) := by
  have hmov : (i.setB r).Movable := .inl (by rw [Instr.opcode_setB, ho]; rfl)
  refine (Writes.freeExpr (e := .plain (.fixed r)) rfl).andThen fun _ d1 hd1 => ?_
  have hx1 : d.Extends d1 := by
    rw [hd1]
    exact .lower d _
  have h₁ : d1.Ready source depth waiting := by
    rw [hd1]
    exact h.lower (Nat.sub_le ..)
  have hi1 : d1.code[pc]? = some i := by
    rw [hd1]
    exact hi
  have hok := h₁.good.written.instr pc i hi1
  have hfit := hok.fits.resolve_right fun h => by simp [ho] at h
  simp only [Instr.Fits, ho] at hfit
  obtain ⟨hg2, hs⟩ := h₁.good.mapInstr (Nat.le_refl _) pc (fun i => i.setB r) fun k hk => by
    rw [hi1] at hk
    cases hk
    refine ⟨⟨hok.known, .inl ?_, ?_, ?_⟩, .of_opcode rfl (by simp [ho]) (by simp [ho]), .inl rfl⟩
    · simp only [Instr.Fits, Instr.opcode_setB, ho, Instr.a_setB, Instr.b_setB, Instr.c_setB]
      have := Nat.mod_le r 512
      exact ⟨hfit.1, by omega, hfit.2.2⟩
    · simp [Instr.Jumps, ho, Op.layout]
    · simp [Instr.Skips, ho]
  have hget : (d1.mapInstr pc fun i => i.setB r).code[pc]? = some (i.setB r) := by
    simp [mapInstr, Array.getElem?_modify, hi1]
  refine Writes.bind (Writes.modifyFn (Writes.pure ?_))
  refine ⟨(h₁.steady hs hg2).wait fun _ => .inl, (hg.trans hx1).trans hs.toExtends,
    ⟨⟨_, hget, hmov⟩, by simp [Expr.jumps, Expr.plain, Place.jumps], by rintro ⟨⟩⟩,
    fun f hf => ⟨?_, fun pc' j hpc hj _ => ?_, by rintro _ _ ⟨⟩⟩⟩
  · have hf' : f + Operand.cost d.active r ≤ m := by
      rw [hg.active]
      exact hf
    show f + 0 ≤ d1.free
    rw [hd1]
    show f + 0 ≤ d.free - Operand.cost d.active r
    omega
  · cases hpc
    rw [hget] at hj
    cases hj
    rw [Instr.c_setB]
    omega

/-- **Both operands have been read.** What the right one holds lies above the left one. -/
theorem Ready.afterRight {op : BinOp} {line m : Nat}
    (h : d.Ready source depth fun n => (waiting n ∨ n ∈ e₁.jumps) ∨ n ∈ e2.jumps)
    (hl : Left op d e₁) (he : e2.Ok d) (hm : e2.place.Above d m) (hop : op.isBinary)
    (hc : op = .concat → ∀ r, e₁.place = .fixed r → r < m) :
    Writes (Compile.afterRight op e₁ e2 line) d (Applied source depth waiting d e₁ m) := by
  have hplace := hl.place
  unfold Compile.afterRight
  split
  · obtain ⟨hp, ht1⟩ := hplace
    refine (h.readVariable he).andThen ?_
    rintro e3 d1 ⟨ht, _, _, hv, _⟩
    refine (Writes.joinJumps _ _).andThen ?_
    rintro l d2 ⟨hl2, hd2⟩
    refine Writes.pure ?_
    subst hl2 hd2
    have hmem : ∀ n, n ∈ ({ e3 with onFalse := e3.onFalse ++ e₁.onFalse } : Expr).jumps ↔
        n ∈ e₁.jumps ∨ n ∈ e3.jumps := by
      intro n
      simp only [Expr.mem_jumps, List.mem_append, ht1, hp, Place.jumps, List.not_mem_nil]
      grind
    refine ⟨ht.ready.wait fun n hn => ?_, ht.ext, ⟨ht.ok.place, fun n hn => ?_, fun h => ?_⟩,
      fun f hf => ht.above f ⟨?_, ?_, ?_⟩⟩
    · rw [hmem]
      grind
    · rcases (hmem n).mp hn with hn | hn
      · exact (hl.jumps n hn).kept_jmp ht.ext.kept
      · exact ht.ok.jumps n hn
    · rw [hv] at h
      cases h
    · have := hm.cost
      omega
    · intro pc i hpc hi ho
      have := hm.concat pc i hpc hi ho
      omega
    · intro pc i hpc hi
      have := hm.call pc i hpc hi
      omega
  · obtain ⟨hp, ht1⟩ := hplace
    refine (h.readVariable he).andThen ?_
    rintro e3 d1 ⟨ht, _, _, hv, _⟩
    refine (Writes.joinJumps _ _).andThen ?_
    rintro l d2 ⟨hl2, hd2⟩
    refine Writes.pure ?_
    subst hl2 hd2
    have hmem : ∀ n, n ∈ ({ e3 with onTrue := e3.onTrue ++ e₁.onTrue } : Expr).jumps ↔
        n ∈ e₁.jumps ∨ n ∈ e3.jumps := by
      intro n
      simp only [Expr.mem_jumps, List.mem_append, ht1, hp, Place.jumps, List.not_mem_nil]
      grind
    refine ⟨ht.ready.wait fun n hn => ?_, ht.ext, ⟨ht.ok.place, fun n hn => ?_, fun h => ?_⟩,
      fun f hf => ht.above f ⟨?_, ?_, ?_⟩⟩
    · rw [hmem]
      grind
    · rcases (hmem n).mp hn with hn | hn
      · exact (hl.jumps n hn).kept_jmp ht.ext.kept
      · exact ht.ok.jumps n hn
    · rw [hv] at h
      cases h
    · have := hm.cost
      omega
    · intro pc i hpc hi ho
      have := hm.concat pc i hpc hi ho
      omega
    · intro pc i hpc hi
      have := hm.call pc i hpc hi
      omega
  · obtain ⟨r, rfl, hr⟩ := hplace
    have hrm : r < m := hc rfl r rfl
    have hnil : ∀ n, n ∉ (Expr.plain (.fixed r)).jumps := by rintro _ ⟨⟩
    refine (h.toValue he).andThen ?_
    rintro e3 d1 ⟨ht, hv, h1, h2⟩
    have hab := ht.above m hm
    refine Writes.get fun s hs => ?_
    subst hs
    split
    · next pc hpend =>
      obtain ⟨i, hp, hi, ho⟩ : ∃ i, e3.place = .pending pc ∧ s.fn.code[pc]? = some i ∧
          i.opcode = .concat := by
        have hplace := ht.ok.place
        cases hp : e3.place with
        | pending pc' =>
          rw [hp] at hplace hpend
          obtain ⟨i, hi, -⟩ := hplace
          simp only [pendingConcat?, instr_eq hi] at hpend
          split at hpend
          · next ho =>
            cases hpend
            exact ⟨i, rfl, hi, ho⟩
          · cases hpend
        | _ => rw [hp] at hpend; cases hpend
      have hj : e3.jumps = [] := by simp [Expr.jumps, h1, h2, hp, Place.jumps]
      have h' : s.fn.Ready source depth waiting := ht.ready.wait fun n hn => by
        rw [hj] at hn
        exact (hn.resolve_right List.not_mem_nil).resolve_right (hnil n)
      exact Writes.demanding fun _ => h'.widenConcat hi ho hrm (hab.concat pc i hp hi ho) hab.free ht.ext
    · refine (ht.ready.toNextRegister ht.ok).andThen ?_
      rintro r2 d2 ⟨h₂, hx2, hr2, hab2⟩
      have h' : d2.Ready source depth waiting := h₂.wait fun n hn => hn.resolve_right (hnil n)
      exact h'.emitConcat hrm (hab2 m hab) hr2 (ht.ext.trans hx2)
  · split
    · next r hfold =>
      obtain ⟨hr, hj1, hj2⟩ := fold_eq hfold
      have ht : Turns source depth (fun n => waiting n ∨ n ∈ e₁.jumps) d e2 d r :=
        turns_numeral h hj2 hr
      refine Writes.pure ⟨ht.ready.wait fun n hn => ?_, .refl d, ht.ok, fun f hf => ?_⟩
      · rw [hj1] at hn
        exact hn.imp_left fun h => h.resolve_right List.not_mem_nil
      · have := hm.free
        rcases hr with ⟨i, rfl⟩ | ⟨x, rfl⟩
        · exact ⟨by show f + 0 ≤ d.free; omega, by rintro _ _ ⟨⟩, by rintro _ _ ⟨⟩⟩
        · exact ⟨by show f + 0 ≤ d.free; omega, by rintro _ _ ⟨⟩, by rintro _ _ ⟨⟩⟩
    · exact h.emitArith hplace he hm hop
  · next h1 h2 h3 h4 =>
    refine h.emitCompare ?_ he hm
    cases op with
    | and => exact absurd rfl h1
    | or => exact absurd rfl h2
    | concat => exact absurd rfl h3
    | arith a => exact absurd rfl (h4 a)
    | eq | lt | le | ne | gt | ge => exact hplace

/-- **The items gathered in registers are stored into their table.** -/
theorem Ready.setList {table items : Nat} (h : d.Ready source depth waiting) (gathered : Option Nat)
    (hr : table + gathered.getD 0 < d.maxStack) :
    Writes (Compile.setList table items gathered) d fun _ d' => d'.Ready source depth waiting ∧
      d.Extends d' ∧ d'.free = table + 1 := by
  have hfits : ∀ c, (Instr.ofABC .setList table (gathered.getD 0) c).Fits (d.room d.maxStack) := by
    intro c
    have h1 := Nat.mod_le table 256
    have h2 := Nat.mod_le (gathered.getD 0) 512
    simp only [Instr.Fits, Instr.opcode_ofABC, Instr.a_ofABC, Instr.b_ofABC, room]
    omega
  have hend : ∀ d1, d1.GoodFor d.maxStack source depth waiting → d.Steady d1 →
      Writes (Compile.modifyFn fun d => { d with free := table + 1 }) d1 fun _ d' =>
        d'.Ready source depth waiting ∧ d.Extends d' ∧ d'.free = table + 1 := by
    intro d1 hg hs
    have h₁ := h.steady hs hg
    have hstock := h₁.good.stocked
    refine Writes.modifyFn ⟨⟨⟨?_, ?_, h₁.good.here⟩, h₁.active⟩, hs.toExtends.trans (.lower _ _), rfl⟩
    · exact h₁.good.written.transport rfl rfl (.refl _) (Nat.le_refl _) fun _ => id
    · refine ⟨hstock.low, hstock.high, ?_, hstock.constants, hstock.upvalues, hstock.count,
        hstock.protos, hstock.captured⟩
      show table + 1 ≤ d1.maxStack
      rw [hs.maxStack_eq]
      omega
  unfold Compile.setList
  dsimp only
  split
  · next hle =>
    refine Writes.bind (Writes.discard ((h.good.emit (Instr.plain_setList _ _ (Nat.succ_pos _) hle)
      (hfits _)).imp fun _ d1 h => hend d1 h.2.1 h.2.2.toSteady))
  · split
    · refine Writes.bind (Writes.discard ?_)
      refine (Writes.emitFirst h.good.written h.good.jumps_here (Nat.le_refl _)).imp
        ?_
      rintro _ d1 ⟨_, hhalf⟩
      refine Writes.bind (Writes.discard ((hhalf.emit (Nat.le_add_right ..)
        ⟨Instr.known_ofABC .., .inl (hfits 0), ?_, ?_⟩ ?_ ?_ ?_).imp
          fun _ d' hd => hend d' (h.good.landed hd.2.2.1 hd.2.2.2.1 hd.2.1) hd.2.2.1))
      · simp [Instr.Jumps, Op.layout]
      · simp [Instr.Skips]
      · exact (Instr.plain_ofABC rfl ..).okAt (by simp [Instr.Fits, Instr.opcode_ofABC]) ..
      · simp only [Instr.Followed, Instr.opcode_ofABC]
        exact fun _ => ⟨_, rfl, by simp⟩
      · simp [Instr.Followed]
    · exact Writes.bind Writes.failNear

end Draft

end LuaMachine
