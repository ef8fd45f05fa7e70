/-
  WRITING CODE AND AIMING JUMPS KEEP A DRAFT GOOD. A TESTSET gets its register when the jump after it is
  aimed, so every list of jumps that is aimed stops to wait.
-/
import LuaMachine.Compiler.Jump
import LuaMachine.Proofs.Compiler.Draft
import LuaMachine.Proofs.Compiler.Judgement

namespace LuaMachine

open Operand (noRegister)

/-! ## 1. What aiming changes -/

namespace Instr

def Aimed (i j : Instr) : Prop :=
  j = i ∨ (i.opcode.layout = .asbx ∧ j.opcode = i.opcode) ∨
    (i.opcode = .testSet ∧ (j.opcode = .testSet ∨ j.opcode = .test))

theorem Aimed.trans {i j k : Instr} (h : i.Aimed j) (h' : j.Aimed k) : i.Aimed k := by
  unfold Aimed at *
  rcases h with rfl | ⟨h1, h2⟩ | ⟨h1, h2⟩
  · exact h'
  · rcases h' with rfl | ⟨h3, h4⟩ | ⟨h3, h4⟩
    · exact .inr (.inl ⟨h1, h2⟩)
    · exact .inr (.inl ⟨h1, h4.trans h2⟩)
    · rw [← h2, h3] at h1
      exact nomatch h1
  · rcases h' with rfl | ⟨h3, h4⟩ | ⟨h3, h4⟩
    · exact .inr (.inr ⟨h1, h2⟩)
    · rcases h2 with h2 | h2 <;> rw [h2] at h3 <;> exact nomatch h3
    · exact .inr (.inr ⟨h1, h4⟩)

theorem Aimed.becomes {i j : Instr} (h : i.Aimed j) : i.opcode.Becomes j.opcode := by
  rcases h with rfl | ⟨-, h⟩ | ⟨h1, h2 | h2⟩
  · exact .refl _
  · exact .inl h
  · exact .inl (h2.trans h1.symm)
  · exact .inr (.inl ⟨h1, h2⟩)

theorem Fits.setSbx {r : Room} {i : Instr} (h : i.Fits r) (hl : i.opcode.layout = .asbx) (k : Int) :
    (i.setSbx k).Fits r := by
  have hop : i.opcode = .jmp ∨ i.opcode = .forLoop ∨ i.opcode = .forPrep ∨ i.opcode = .tforLoop := by
    revert hl
    cases i.opcode <;> simp [Op.layout]
  rcases hop with ho | ho | ho | ho <;>
    · simp only [Fits, opcode_setSbx, ho, a_setSbx] at h ⊢
      exact h

end Instr

namespace Draft

def Aims (d d' : Draft) : Prop :=
  ∃ code, d' = { d with code := code } ∧ code.size = d.code.size ∧
    ∀ (pc : Nat) (i : Instr), d.code[pc]? = some i → ∃ j, code[pc]? = some j ∧ i.Aimed j

variable {d d' : Draft}

theorem Aims.refl (d : Draft) : d.Aims d := ⟨d.code, rfl, rfl, fun _ i h => ⟨i, h, .inl rfl⟩⟩

theorem Aims.trans {d'' : Draft} (h : d.Aims d') (h' : d'.Aims d'') : d.Aims d'' := by
  obtain ⟨c, rfl, hc, ha⟩ := h
  obtain ⟨c', rfl, hc', ha'⟩ := h'
  refine ⟨c', rfl, hc'.trans hc, fun pc i hi => ?_⟩
  obtain ⟨j, hj, hij⟩ := ha pc i hi
  obtain ⟨k, hk, hjk⟩ := ha' pc j hj
  exact ⟨k, hk, hij.trans hjk⟩

theorem Aims.size (h : d.Aims d') : d'.code.size = d.code.size := by
  obtain ⟨c, rfl, hc, -⟩ := h
  exact hc

theorem Aims.here (h : d.Aims d') : d'.here = d.here := by
  obtain ⟨c, rfl, -⟩ := h
  rfl

theorem Aims.steady (h : d.Aims d') : d.Steady d' := by
  obtain ⟨c, rfl, hc, ha⟩ := h
  refine ⟨⟨fun pc i hi => ?_, Nat.le_refl _, Nat.le_refl _, rfl, rfl, rfl, rfl, rfl, rfl, rfl⟩,
    rfl, rfl, rfl⟩
  obtain ⟨j, hj, hij⟩ := ha pc i hi
  exact ⟨j, hj, hij.becomes⟩

theorem Aims.jumpAt (h : d.Aims d') {n : Nat} (hn : d.JumpAt n) : d'.JumpAt n := by
  obtain ⟨c, rfl, -, ha⟩ := h
  obtain ⟨i, hi, hl⟩ := hn
  obtain ⟨j, hj, hij⟩ := ha n i hi
  refine ⟨j, hj, ?_⟩
  rcases hij with rfl | ⟨-, h⟩ | ⟨h, -⟩
  · exact hl
  · rw [h]
    exact hl
  · rw [h] at hl
    exact nomatch hl

theorem Aims.instr (h : d.Aims d') {n : Nat} {i : Instr} (hi : d.code[n]? = some i)
    (hl : i.opcode.layout ≠ .asbx) (ht : i.opcode ≠ .testSet) : d'.code[n]? = some i := by
  obtain ⟨c, rfl, -, ha⟩ := h
  obtain ⟨j, hj, rfl | ⟨h, -⟩ | ⟨h, -⟩⟩ := ha n i hi
  · exact hj
  · exact absurd h hl
  · exact absurd h ht

theorem Aims.mapInstr {pc : Nat} {f : Instr → Instr}
    (hf : ∀ i, d.code[pc]? = some i → i.Aimed (f i)) : d.Aims (d.mapInstr pc f) := by
  refine ⟨d.code.modify pc f, rfl, by simp, fun n i hi => ?_⟩
  rw [Array.getElem?_modify]
  split
  · next he =>
    subst he
    rw [hi]
    exact ⟨f i, rfl, hf i hi⟩
  · exact ⟨i, hi, .inl rfl⟩

theorem instr_eq {pc : Nat} {i : Instr} (h : d.code[pc]? = some i) : d.instr pc = i := by
  simp [instr, h]

theorem instr_congr {d' : Draft} {pc : Nat} (h : d'.code[pc]? = d.code[pc]?) : d'.instr pc = d.instr pc := by
  simp [instr, h]

theorem Steady.mapInstr {pc : Nat} {f : Instr → Instr}
    (hf : ∀ i, d.code[pc]? = some i → i.opcode.Becomes (f i).opcode) :
    d.Steady (d.mapInstr pc f) := by
  refine ⟨⟨fun n i hi => ?_, Nat.le_refl _, Nat.le_refl _, rfl, rfl, rfl, rfl, rfl, rfl, rfl⟩,
    rfl, rfl, rfl⟩
  simp only [Draft.mapInstr, Array.getElem?_modify]
  split
  · next he =>
    subst he
    rw [hi]
    exact ⟨f i, rfl, hf i hi⟩
  · exact ⟨i, hi, .refl _⟩

theorem Steady.push (i : Instr) (line : Nat) : d.Steady (d.push i line) := by
  refine ⟨⟨fun n j hj => ⟨j, ?_, .refl _⟩, Nat.le_refl _, Nat.le_refl _, rfl, rfl, rfl, rfl, rfl, rfl,
    rfl⟩, rfl, rfl, rfl⟩
  have := (Array.getElem?_eq_some_iff.mp hj).1
  simp only [Draft.push, Array.getElem?_push]
  rw [if_neg (by omega)]
  exact hj

end Draft

namespace Compile

variable {d d' : Draft} {registers limit : Nat} {waiting : Nat → Prop}

/-! ## 2. Aiming -/

theorem control_of_testSet {node : Nat} (hj : d.JumpAt node) (hc : controlledByTestSet d node) :
    1 ≤ node ∧ controlOf d node = node - 1 ∧ d.OpAt (node - 1) .testSet := by
  obtain ⟨j, hj, hl⟩ := hj
  replace hc := of_decide_eq_true hc
  unfold controlOf at hc ⊢
  split at hc
  · next h =>
    rw [if_pos h]
    refine ⟨h.1, rfl, ?_⟩
    cases hi : d.code[node - 1]? with
    | none => simp [Draft.instr, hi] at hc
    | some i => exact ⟨i, hi, by rw [← Draft.instr_eq hi]; exact hc⟩
  · rw [Draft.instr_eq hj] at hc
    rw [hc] at hl
    exact nomatch hl

theorem controlled_of_opAt {node : Nat} (h : d.OpAt node .testSet) :
    controlledByTestSet d (node + 1) := by
  obtain ⟨i, hi, ho⟩ := h
  have hi' := Draft.instr_eq hi
  simp [controlledByTestSet, controlOf, hi', ho, Op.isTest]

theorem Writes.aimTest {node reg : Nat}
    (hw : d.Written registers limit fun n => n = node ∨ waiting n) (hj : d.JumpAt node)
    (hr : reg = noRegister ∨ reg < registers) :
    Writes (aimTest node reg) d fun _ d' => d'.Written registers limit waiting ∧ d.Aims d' := by
  refine Writes.get fun s hs => ?_
  rw [hs]
  split
  · next hc =>
    obtain ⟨hn, hcontrol, ho⟩ := control_of_testSet hj hc
    refine Writes.bind (Writes.modifyFn (Writes.pure ?_))
    rw [hcontrol]
    have hop : ∀ i, d.code[node - 1]? = some i → i.opcode = .testSet := by
      intro i hi
      obtain ⟨k, hk, hok⟩ := ho
      rw [hi] at hk
      cases hk
      exact hok
    constructor
    · refine hw.mapInstr (fun n hne hv => hv.resolve_left fun h => hne (by omega)) fun i hi => ?_
      have ho := hop i hi
      have hk := hw.instr _ i hi
      have hb : i.b.val < registers := by
        rcases hk.fits with h | h
        · simp only [Instr.Fits, ho] at h
          exact h.2
        · exact h.2.1
      split
      · next h =>
        refine ⟨⟨hk.known, .inl ?_, ?_, ?_⟩, .of_opcode rfl (by simp [ho]) (by simp [ho])⟩
        · have := hr.resolve_left h.1
          simp only [Instr.Fits, Instr.opcode_setA, ho, Instr.a_setA, Instr.b_setA]
          exact ⟨Nat.lt_of_le_of_lt (Nat.mod_le ..) this, hb⟩
        · simp [Instr.Jumps, ho, Op.layout]
        · simp [Instr.Skips, ho]
      · refine ⟨⟨Instr.known_ofABC .., .inl ?_, ?_, ?_⟩, .of_test ho (by simp)⟩
        · simp only [Instr.Fits, Instr.opcode_ofABC, Instr.a_ofABC]
          exact Nat.lt_of_le_of_lt (Nat.mod_le ..) hb
        · simp [Instr.Jumps, Op.layout]
        · simp [Instr.Skips]
    · refine Draft.Aims.mapInstr fun i hi => .inr (.inr ⟨hop i hi, ?_⟩)
      split
      · exact .inl (hop i hi)
      · exact .inr (by simp)
  · next hc =>
    refine Writes.pure ⟨⟨hw.lines, fun pc i hi => ?_, hw.followed⟩, .refl d⟩
    -- the jump cannot be one that waits: no TESTSET stands before it
    refine ⟨(hw.instr pc i hi).known, ?_, (hw.instr pc i hi).jumps, (hw.instr pc i hi).skips⟩
    refine (hw.instr pc i hi).fits.imp_right ?_
    rintro ⟨ho, hb, hv⟩
    refine ⟨ho, hb, hv.resolve_left ?_⟩
    rintro rfl
    exact hc (controlled_of_opAt ⟨i, hi, ho⟩)

theorem Writes.fixJump {pc dest : Nat} (hw : d.Written registers limit waiting) (hj : d.JumpAt pc)
    (hd : dest ≤ limit) :
    Writes (fixJump pc dest) d fun _ d' => d'.Written registers limit waiting ∧ d.Aims d' := by
  unfold Compile.fixJump
  split
  · next hreach =>
    obtain ⟨k, hk, hl⟩ := hj
    have hop : ∀ i, d.code[pc]? = some i → i.opcode.layout = .asbx := by
      intro i hi
      rw [hk] at hi
      cases hi
      exact hl
    refine Writes.modifyFn ⟨hw.mapInstr (fun _ _ h => h) fun i hi => ?_, ?_⟩
    · have hl := hop i hi
      have hok := hw.instr pc i hi
      have hne : ∀ op : Op, op.layout ≠ .asbx → i.opcode ≠ op := by
        rintro op h rfl
        exact h hl
      refine ⟨⟨hok.known, ?_, fun _ => ?_, fun h => ?_⟩, .of_opcode rfl ?_ ?_⟩
      · refine .inl (Instr.Fits.setSbx (hok.fits.resolve_right fun h => ?_) hl _)
        exact hne _ (by decide) h.1
      · rw [Instr.sbx_setSbx]
        · omega
        · simpa [reaches] using hreach
      · exact absurd h (hne _ (by decide))
      · exact hne _ (by decide)
      · exact hne _ (by decide)
    · exact Draft.Aims.mapInstr fun i hi => .inr (.inl ⟨hop i hi, rfl⟩)
  · exact Writes.failNear

/-- **A list of jumps that is aimed no longer waits**: its TESTSETs have their registers. -/
theorem Writes.aimJumps {valueTarget reg plainTarget : Nat} {list : JumpList}
    (hw : d.Written registers limit fun n => n ∈ list ∨ waiting n) (hj : ∀ n ∈ list, d.JumpAt n)
    (hr : reg = noRegister ∨ reg < registers) (hv : valueTarget ≤ limit) (hp : plainTarget ≤ limit) :
    Writes (aimJumps valueTarget reg plainTarget list) d fun _ d' =>
      d'.Written registers limit waiting ∧ d.Aims d' := by
  induction list generalizing d with
  | nil => exact Writes.pure ⟨hw.mono (Nat.le_refl _) (Nat.le_refl _) (by simp), .refl d⟩
  | cons node rest ih =>
    have hnode := hj node (by simp)
    have hw' : d.Written registers limit fun n => n = node ∨ (n ∈ rest ∨ waiting n) :=
      hw.mono (Nat.le_refl _) (Nat.le_refl _) fun n h => by
        simpa [or_assoc] using h
    refine (Writes.aimTest hw' hnode hr).andThen fun b d1 ⟨hw1, ha1⟩ => ?_
    have hstep : ∀ dest, dest ≤ limit → Writes (Compile.fixJump node dest) d1 fun _ d2 =>
        d2.Written registers limit (fun n => n ∈ rest ∨ waiting n) ∧ d1.Aims d2 :=
      fun dest hd => Writes.fixJump hw1 (ha1.jumpAt hnode) hd
    have hrest : ∀ d2, d2.Written registers limit (fun n => n ∈ rest ∨ waiting n) ∧ d1.Aims d2 →
        Writes (Compile.aimJumps valueTarget reg plainTarget rest) d2 fun _ d' =>
          d'.Written registers limit waiting ∧ d.Aims d' := by
      intro d2 ⟨hw2, ha2⟩
      have ha := ha1.trans ha2
      refine (ih hw2 fun n hn => ha.jumpAt (hj n (by simp [hn]))).imp fun _ d' ⟨hw3, ha3⟩ => ?_
      exact ⟨hw3, ha.trans ha3⟩
    dsimp only
    split
    · exact (hstep _ hv).andThen fun _ => hrest
    · exact (hstep _ hp).andThen fun _ => hrest

theorem Writes.dropValues {list : JumpList} (hw : d.Written registers limit waiting)
    (hj : ∀ n ∈ list, d.JumpAt n) :
    Writes (dropValues list) d fun _ d' => d'.Written registers limit waiting ∧ d.Aims d' := by
  induction list generalizing d with
  | nil => exact Writes.pure ⟨hw, .refl d⟩
  | cons node rest ih =>
    have hw' : d.Written registers limit fun n => n = node ∨ waiting n :=
      hw.mono (Nat.le_refl _) (Nat.le_refl _) fun _ => .inr
    refine Writes.bind (Writes.discard ?_)
    refine (Writes.aimTest hw' (hj node (by simp)) (.inl rfl)).imp fun _ d1 ⟨hw1, ha1⟩ => ?_
    refine (ih hw1 fun n hn => ha1.jumpAt (hj n (by simp [hn]))).imp fun _ d' ⟨hw2, ha2⟩ => ?_
    exact ⟨hw2, ha1.trans ha2⟩

theorem Writes.joinJumps (l1 l2 : JumpList) :
    Writes (joinJumps l1 l2) d fun l d' => l = l1 ++ l2 ∧ d' = d := by
  unfold Compile.joinJumps
  split
  · next h =>
    rw [List.head?_eq_none_iff] at h
    exact Writes.pure ⟨by simp [h], rfl⟩
  · next h _ =>
    rw [List.getLast?_eq_none_iff] at h
    exact Writes.pure ⟨by simp [h], rfl⟩
  · split
    · exact Writes.pure ⟨rfl, rfl⟩
    · exact Writes.failNear

theorem Writes.closeOnJump {list : JumpList} {level : Nat}
    (hw : d.Written registers limit waiting) (hj : ∀ n ∈ list, d.OpAt n .jmp)
    (hl : level < registers) :
    Writes (closeOnJump list level) d fun _ d' => d'.Written registers limit waiting ∧ d.Aims d' := by
  refine Writes.modifyFn ?_
  induction list generalizing d with
  | nil => exact ⟨hw, .refl d⟩
  | cons node rest ih =>
    have hop : ∀ i, d.code[node]? = some i → i.opcode = .jmp := by
      intro i hi
      obtain ⟨k, hk, hok⟩ := hj node (by simp)
      rw [hi] at hk
      cases hk
      exact hok
    have ha : d.Aims (d.mapInstr node (·.setA (level + 1))) :=
      Draft.Aims.mapInstr fun i hi => .inr (.inl ⟨by rw [hop i hi]; rfl, rfl⟩)
    have hw' : (d.mapInstr node (·.setA (level + 1))).Written registers limit waiting := by
      refine hw.mapInstr (fun _ _ h => h) fun i hi => ?_
      have ho := hop i hi
      have hok := hw.instr node i hi
      refine ⟨⟨hok.known, .inl ?_, hok.jumps, hok.skips⟩, .of_opcode rfl (by simp [ho]) (by simp [ho])⟩
      simp only [Instr.Fits, Instr.opcode_setA, ho, Instr.a_setA]
      exact Nat.le_trans (Nat.mod_le ..) hl
    obtain ⟨hw2, ha2⟩ := ih hw' fun n hn => (hj n (by simp [hn])).kept_jmp ha.steady.kept
    exact ⟨hw2, ha.trans ha2⟩

/-! ## 3. Writing code -/

def Landed (d d' : Draft) : Prop := { d with here := [] }.Aims d'

theorem Landed.steady (h : Landed d d') : d.Steady d' :=
  have h0 : d.Steady { d with here := [] } :=
    .of_code rfl rfl rfl rfl rfl rfl rfl rfl rfl rfl rfl
  h0.trans (Draft.Aims.steady (by exact h))

theorem Landed.here (h : Landed d d') : d'.here = [] := Draft.Aims.here h

theorem Landed.size (h : Landed d d') : d'.code.size = d.code.size :=
  Draft.Aims.size (d := { d with here := [] }) h

theorem Writes.aimHere (hw : d.Written registers limit fun n => waiting n ∨ n ∈ d.here)
    (hh : ∀ n ∈ d.here, d.JumpAt n) (hl : d.code.size ≤ limit) :
    Writes aimHere d fun _ d' => d'.Written registers limit waiting ∧ Landed d d' := by
  refine Writes.get fun s hs => ?_
  subst hs
  refine Writes.bind (Writes.modifyFn ?_)
  refine Writes.aimJumps ?_ hh (.inl rfl) hl hl
  exact hw.transport rfl rfl (.refl _) (Nat.le_refl _) fun n h => h.symm

/-- **An instruction is written**: the jumps that go there land, then it stands at the end. -/
theorem Writes.emit {i : Instr} (hw : d.Written registers limit fun n => waiting n ∨ n ∈ d.here)
    (hh : ∀ n ∈ d.here, d.JumpAt n) (hl : d.code.size ≤ limit) :
    Writes (Compile.emit i) d fun pc d' => pc = d.code.size ∧
      ∃ e line, e.Written registers limit waiting ∧ Landed d e ∧ d' = e.push i line := by
  refine (Writes.aimHere hw hh hl).andThen fun _ e ⟨hw', ha⟩ => ?_
  refine Writes.get fun s hs => ?_
  subst hs
  exact Writes.bind (Writes.modifyFn (Writes.pure ⟨ha.size, _, s.lastLine, hw', ha, rfl⟩))

theorem Writes.emit_nil {i : Instr} (h : d.here = []) :
    Writes (Compile.emit i) d fun pc d' => pc = d.code.size ∧ ∃ line, d' = d.push i line := by
  have hd : { d with here := [] } = d := by
    cases d
    simp_all
  have ha : Writes Compile.aimHere d fun _ d' => d' = d := by
    refine Writes.get fun s hs => ?_
    subst hs
    refine Writes.bind (Writes.modifyFn ?_)
    rw [h, hd]
    exact Writes.pure rfl
  refine ha.andThen fun _ e he => ?_
  subst he
  refine Writes.get fun s hs => ?_
  subst hs
  exact Writes.bind (Writes.modifyFn (Writes.pure ⟨rfl, s.lastLine, rfl⟩))

/-- The first word of two has been written to `d`. What happens to lines and targets until the second
    one is written does not matter. -/
structure Half (registers limit : Nat) (waiting : Nat → Prop) (d : Draft) (i : Instr)
    (d₁ : Draft) : Prop where
  steady : d.Steady d₁
  landed : d₁.here = []
  code : ∃ e, e.Written registers limit waiting ∧ d.Steady e ∧ e.code.size = d.code.size ∧
    d₁.code = e.code.push i ∧ d₁.lines.size = e.lines.size + 1

theorem Writes.emitFirst {i : Instr}
    (hw : d.Written registers limit fun n => waiting n ∨ n ∈ d.here)
    (hh : ∀ n ∈ d.here, d.JumpAt n) (hl : d.code.size ≤ limit) :
    Writes (Compile.emit i) d fun pc d1 => pc = d.code.size ∧
      Half registers limit waiting d i d1 := by
  refine (Writes.emit hw hh hl).imp fun pc d1 ⟨hpc, e, line, hwe, he, hd⟩ => ?_
  subst hd
  exact ⟨hpc, he.steady.trans (.push i line), he.here, e, hwe, he.steady, he.size, rfl,
    by simp [Draft.push]⟩

/-- **The second word of two is written.** -/
theorem Half.emit {i j : Instr} {d1 : Draft} (h : Half registers limit waiting d i d1)
    (hl : limit ≤ d.code.size + 2)
    (hi : i.OkAt (d.room registers) (d.code.size + 2) (waiting (d.code.size + 1)) d.code.size)
    (hj : j.OkAt (d.room registers) (d.code.size + 2) (waiting (d.code.size + 2)) (d.code.size + 1))
    (hf : i.Followed d.constants.size (some j)) (hg : j.Followed d.constants.size none) :
    Writes (Compile.emit j) d1 fun pc d' => pc = d.code.size + 1 ∧
      d'.Written registers d'.code.size waiting ∧ d.Steady d' ∧ d'.here = [] ∧
      d'.code.size = d.code.size + 2 ∧ d'.code[d.code.size + 1]? = some j := by
  obtain ⟨e, hw, hs, hsize, hcode, hlines⟩ := h.code
  refine (Writes.emit_nil h.landed).imp fun pc d' ⟨hpc, line, hd⟩ => ?_
  have hs' : d.Steady d' := by
    rw [hd]
    exact h.steady.trans (.push j line)
  have hsize1 : d1.code.size = d.code.size + 1 := by simp [hcode, hsize]
  have hsize' : d'.code.size = d.code.size + 2 := by simp [hd, Draft.push, hsize1]
  refine ⟨by omega, ?_, hs', by rw [hd]; exact h.landed, hsize', ?_⟩
  · rw [hsize']
    have hpair : ((e.push i 0).push j 0).Written registers (d.code.size + 2) waiting := by
      refine hw.pushTwo hl ?_ ?_ ?_ ?_
      · rw [hs.room, hsize]; exact hi
      · rw [hs.room, hsize]; exact hj
      · rw [hs.constants_eq]; exact hf
      · rw [hs.constants_eq]; exact hg
    refine hpair.transport ?_ ?_ ?_ (Nat.le_refl _) fun _ => id
    · simp [hd, Draft.push, hcode]
    · simp [hd, Draft.push, hlines]
    · rw [hs'.room, ← hs.room registers]
      exact .refl _
  · rw [hd, ← hsize1]
    exact Array.getElem?_push_size

theorem Writes.jump : Writes Compile.jump d fun l d' => l = d.code.size :: d.here ∧
    ∃ line, d' = { d with here := [] }.push (Instr.ofAsBx .jmp 0 (-1)) line := by
  refine Writes.bind (Writes.ofFn ?_)
  refine Writes.bind (Writes.modifyFn ?_)
  refine (Writes.emit_nil rfl).andThen fun pc d1 ⟨hpc, line, hd⟩ => ?_
  refine (Writes.joinJumps _ _).imp fun l d2 ⟨hl, hd'⟩ => ?_
  subst hpc hd hd' hl
  exact ⟨rfl, line, rfl⟩

theorem Writes.markTarget : Writes Compile.markTarget d fun pc d' => pc = d.code.size ∧
    d' = { d with lastTarget := d.code.size } :=
  Writes.bind (Writes.modifyFn (Writes.ofFn ⟨rfl, rfl⟩))

theorem Writes.patchHere {list : JumpList} :
    Writes (Compile.patchHere list) d fun _ d' =>
      d' = { d with lastTarget := d.code.size, here := d.here ++ list } := by
  refine Writes.bind (Writes.discard (Writes.markTarget.imp fun _ d1 ⟨_, hd1⟩ => ?_))
  subst hd1
  refine Writes.bind (Writes.ofFn ?_)
  refine (Writes.joinJumps _ _).andThen fun l d' ⟨hl, hd⟩ => ?_
  subst hl hd
  exact Writes.modifyFn rfl

theorem jmp_okAt {r : Room} {pc limit : Nat} (h : pc ≤ limit) (waits : Prop) :
    (Instr.ofAsBx .jmp 0 (-1)).OkAt r limit waits pc := by
  refine ⟨Instr.known_ofABC .., .inl (by simp [Instr.Fits]), fun _ => ?_, fun h => ?_⟩
  · rw [Instr.sbx_ofAsBx _ _ _ (by decide)]
    omega
  · simp at h

theorem followed_jmp {k a : Nat} {n : Int} {next : Option Instr} :
    (Instr.ofAsBx .jmp a n).Followed k next := by
  simp [Instr.Followed]

/-- **A test and its jump.** A TESTSET may wait for its register. The code may have been jumped to
    as far as the two reach. -/
theorem Writes.condJump {op : Op} {a b c : Nat} (ht : op.isTest)
    (hw : d.Written registers limit fun n => waiting n ∨ n ∈ d.here)
    (hh : ∀ n ∈ d.here, d.JumpAt n) (hl : d.code.size ≤ limit) (hl' : limit ≤ d.code.size + 2)
    (hf : (Instr.ofABC op a b c).Fits (d.room registers) ∨
      (op = .testSet ∧ (Instr.ofABC op a b c).b.val < registers)) :
    Writes (Compile.condJump op a b c) d fun l d' => l = [d.code.size + 1] ∧
      d'.Written registers d'.code.size (fun n => waiting n ∨ n ∈ l) ∧
      ∃ e line line', Landed d e ∧
        d' = (e.push (Instr.ofABC op a b c) line).push (Instr.ofAsBx .jmp 0 (-1)) line' := by
  refine Writes.bind (Writes.discard ?_)
  refine (Writes.emit hw hh hl).imp ?_
  rintro pc d1 ⟨_, e, line, hwe, he, hd1⟩
  refine Writes.jump.imp ?_
  rintro l d' ⟨hl1, line', hd'⟩
  subst hd1
  have hnil : { e.push (Instr.ofABC op a b c) line with here := [] } =
      e.push (Instr.ofABC op a b c) line := by
    simp only [Draft.push, he.here]
  rw [hnil] at hd'
  have hl : l = [d.code.size + 1] := by
    rw [hl1]
    simp [Draft.push, he.size, he.here]
  subst hd' hl
  refine ⟨rfl, ?_, e, line, line', he, rfl⟩
  have hsize : ((e.push (Instr.ofABC op a b c) line).push (Instr.ofAsBx .jmp 0 (-1)) line').code.size =
      d.code.size + 2 := by
    simp [Draft.push, he.size]
  rw [hsize]
  have hw' : e.Written registers limit fun n => waiting n ∨ n ∈ [d.code.size + 1] :=
    hwe.mono (Nat.le_refl _) (Nat.le_refl _) fun _ => .inl
  refine hw'.pushTwo hl' ⟨Instr.known_ofABC .., ?_, ?_, ?_⟩ (jmp_okAt (by rw [he.size]; omega) _) ?_
    followed_jmp
  · rw [he.steady.room, he.size]
    exact hf.imp_right fun h => ⟨by simp [h.1], h.2, .inr (by simp)⟩
  · intro h
    rw [Instr.opcode_ofABC] at h
    cases op <;> first | exact absurd ht (by decide) | exact absurd h (by decide)
  · intro h
    rw [Instr.opcode_ofABC] at h
    rw [h] at ht
    cases ht
  · simp only [Instr.Followed, Instr.opcode_ofABC]
    cases op <;> first | exact absurd ht (by decide) | exact ⟨_, rfl, by simp⟩

end Compile

/-! ## 4. Good drafts -/

namespace Draft

open Compile

structure Emits (d : Draft) (i : Instr) (d' : Draft) : Prop extends d.Steady d' where
  last : d'.code[d.code.size]? = some i
  size : d'.code.size = d.code.size + 1
  landed : d'.here = []

variable {d d' : Draft} {registers : Nat} {source : Bytes} {depth : Nat} {waiting : Nat → Prop}

theorem Steady.good (hs : d.Steady d') (h : d'.GoodFor d.maxStack source depth waiting) :
    d'.Good source depth waiting := by
  unfold Good
  rw [hs.maxStack_eq]
  exact h

theorem GoodFor.jumps_here (h : d.GoodFor registers source depth waiting) :
    ∀ n ∈ d.here, d.JumpAt n :=
  fun n hn => (h.here n hn).jumpAt

theorem GoodFor.steady {waiting' : Nat → Prop} (h : d.GoodFor registers source depth waiting)
    (hs : d.Steady d') (hc : d'.code = d.code) (hl : d'.lines.size = d.lines.size)
    (hw : ∀ n, waiting n ∨ n ∈ d.here → waiting' n ∨ n ∈ d'.here)
    (hh : ∀ n ∈ d'.here, d.OpAt n .jmp) : d'.GoodFor registers source depth waiting' := by
  refine ⟨h.written.transport hc hl ?_ ?_ hw, h.stocked.steady hs, fun n hn => ?_⟩
  · rw [hs.room]
    exact .refl _
  · exact Nat.le_of_eq (by rw [hc])
  · exact (hh n hn).kept_jmp hs.kept

theorem GoodFor.rewritten {waiting' : Nat → Prop} (h : d.GoodFor registers source depth waiting)
    (hs : d.Steady d') (hh : d'.here = d.here)
    (hw : d'.Written registers d'.code.size fun n => waiting' n ∨ n ∈ d'.here) :
    d'.GoodFor registers source depth waiting' := by
  refine ⟨hw, h.stocked.steady hs, fun n hn => ?_⟩
  rw [hh] at hn
  exact (h.here n hn).kept_jmp hs.kept

theorem GoodFor.landed {waiting' : Nat → Prop} (h : d.GoodFor registers source depth waiting)
    (hs : d.Steady d') (hnil : d'.here = [])
    (hw : d'.Written registers d'.code.size waiting') :
    d'.GoodFor registers source depth waiting' :=
  ⟨hw.mono (Nat.le_refl _) (Nat.le_refl _) fun _ => .inl, h.stocked.steady hs, by simp [hnil]⟩

theorem GoodFor.wait {waiting' : Nat → Prop} (h : d.GoodFor registers source depth waiting)
    (hw : ∀ n, waiting n → waiting' n) : d.GoodFor registers source depth waiting' :=
  h.steady (.refl d) rfl rfl (fun n => Or.imp_left (hw n)) h.here

theorem GoodFor.mono {registers' : Nat} (h : d.GoodFor registers source depth waiting)
    (hr : registers ≤ registers') : d.GoodFor registers' source depth waiting :=
  ⟨h.written.mono hr (Nat.le_refl _) fun _ => id, h.stocked, h.here⟩

/-- **An instruction that fits may be written.** -/
theorem GoodFor.emit {i : Instr} (h : d.GoodFor registers source depth waiting) (hp : i.Plain)
    (hf : i.Fits (d.room registers)) :
    Writes (emit i) d fun pc d' => pc = d.code.size ∧
      d'.GoodFor registers source depth waiting ∧ d.Emits i d' := by
  refine (Writes.emit h.written h.jumps_here (Nat.le_refl _)).imp fun pc d' ⟨hpc, e, line, hw, he, hd⟩ => ?_
  have hs : d.Steady d' := by
    rw [hd]
    exact he.steady.trans (.push i line)
  have hsize : d'.code.size = d.code.size + 1 := by simp [hd, Draft.push, he.size]
  have hnil : d'.here = [] := by simp [hd, Draft.push, he.here]
  refine ⟨hpc, ⟨?_, h.stocked.steady hs, by simp [hnil]⟩, hs, ?_, hsize, hnil⟩
  · rw [hsize, hd]
    refine Written.push (hw.mono (Nat.le_refl _) (Nat.le_refl _) fun _ => .inl) (Nat.le_succ _) ?_
      (hp.followed _ _)
    rw [he.steady.room]
    exact hp.okAt hf ..
  · rw [hd, ← he.size]
    exact Array.getElem?_push_size

theorem GoodFor.mapInstr {registers' : Nat} (h : d.GoodFor registers source depth waiting)
    (hr : registers ≤ registers') (pc : Nat) (f : Instr → Instr)
    (hf : ∀ i, d.code[pc]? = some i →
      (f i).OkAt (d.room registers') d.code.size False pc ∧ i.Stands (f i) ∧
        i.opcode.Becomes (f i).opcode) :
    (d.mapInstr pc f).GoodFor registers' source depth waiting ∧ d.Steady (d.mapInstr pc f) := by
  have hs : d.Steady (d.mapInstr pc f) := .mapInstr fun i hi => (hf i hi).2.2
  refine ⟨h.mono hr |>.rewritten hs rfl ?_, hs⟩
  have hsize : (d.mapInstr pc f).code.size = d.code.size := by simp [Draft.mapInstr]
  rw [hsize]
  refine (h.mono hr).written.mapInstr (fun _ _ h => h) fun i hi => ⟨?_, (hf i hi).2.1⟩
  exact (hf i hi).1.mono (.refl _) (Nat.le_refl _) False.elim

theorem GoodFor.jump (h : d.GoodFor registers source depth waiting) :
    Writes jump d fun l d' => d'.GoodFor registers source depth (fun n => waiting n ∨ n ∈ l) ∧
      d.Steady d' ∧ (∀ n ∈ l, d'.OpAt n .jmp) ∧ d.code.size ∈ l ∧ d'.here = [] := by
  refine Writes.jump.imp fun l d' ⟨hl, line, hd⟩ => ?_
  have h0 : d.Steady { d with here := [] } :=
    .of_code rfl rfl rfl rfl rfl rfl rfl rfl rfl rfl rfl
  have hs : d.Steady d' := by
    rw [hd]
    exact h0.trans (.push _ line)
  have hsize : d'.code.size = d.code.size + 1 := by simp [hd, Draft.push]
  have hnil : d'.here = [] := by rw [hd]; rfl
  refine ⟨⟨?_, h.stocked.steady hs, by simp [hnil]⟩, hs, fun n hn => ?_, by simp [hl], hnil⟩
  · rw [hsize, hd]
    have h1 : { d with here := [] }.GoodFor registers source depth fun n => waiting n ∨ n ∈ l :=
      h.steady h0 rfl rfl (fun n hn => .inl (hn.imp_right fun hn => by simp [hl, hn])) (by simp)
    exact h1.written.push (Nat.le_succ _) (jmp_okAt (Nat.le_succ _) _) followed_jmp
  · rw [hl, List.mem_cons] at hn
    rcases hn with rfl | hn
    · refine ⟨Instr.ofAsBx .jmp 0 (-1), ?_, by simp⟩
      rw [hd]
      exact Array.getElem?_push_size
    · exact (h.here n hn).kept_jmp hs.kept

theorem GoodFor.condJump {op : Op} {a b c : Nat} (h : d.GoodFor registers source depth waiting)
    (ht : op.isTest) (hf : (Instr.ofABC op a b c).Fits (d.room registers) ∨
      (op = .testSet ∧ (Instr.ofABC op a b c).b.val < registers)) :
    Writes (condJump op a b c) d fun l d' =>
      d'.GoodFor registers source depth (fun n => waiting n ∨ n ∈ l) ∧ d.Steady d' ∧
        ∀ n ∈ l, d'.OpAt n .jmp := by
  refine (Writes.condJump ht h.written h.jumps_here (Nat.le_refl _) (by omega) hf).imp
    fun l d' ⟨hl, hw, e, line, line', he, hd⟩ => ?_
  have hs : d.Steady d' := by
    rw [hd]
    exact (he.steady.trans (.push _ line)).trans (.push _ line')
  refine ⟨⟨hw.mono (Nat.le_refl _) (Nat.le_refl _) fun _ => .inl, h.stocked.steady hs, ?_⟩, hs, ?_⟩
  · simp [hd, Draft.push, he.here]
  · intro n hn
    rw [hl, List.mem_singleton] at hn
    subst hn
    refine ⟨Instr.ofAsBx .jmp 0 (-1), ?_, by simp⟩
    simp only [hd, Draft.push, Array.getElem?_push, Array.size_push, he.size, if_true]

theorem GoodFor.markTarget (h : d.GoodFor registers source depth waiting) :
    Writes markTarget d fun pc d' => pc = d.code.size ∧
      d'.GoodFor registers source depth waiting ∧ d.Steady d' ∧ d'.code = d.code := by
  refine Writes.markTarget.imp fun pc d' ⟨hpc, hd⟩ => ?_
  subst hd
  have hs : d.Steady { d with lastTarget := d.code.size } :=
    .of_code rfl rfl rfl rfl rfl rfl rfl rfl rfl rfl rfl
  exact ⟨hpc, h.steady hs rfl rfl (fun _ => id) h.here, hs, rfl⟩

theorem GoodFor.patchHere {list : JumpList}
    (h : d.GoodFor registers source depth fun n => waiting n ∨ n ∈ list)
    (hl : ∀ n ∈ list, d.OpAt n .jmp) :
    Writes (patchHere list) d fun _ d' => d'.GoodFor registers source depth waiting ∧
      d.Steady d' ∧ d'.code = d.code := by
  refine Writes.patchHere.imp fun _ d' hd => ?_
  subst hd
  have hs : d.Steady { d with lastTarget := d.code.size, here := d.here ++ list } :=
    .of_code rfl rfl rfl rfl rfl rfl rfl rfl rfl rfl rfl
  refine ⟨h.steady hs rfl rfl (fun n hn => ?_) fun n hn => ?_, hs, rfl⟩
  · rw [List.mem_append]
    rcases hn with (hn | hn) | hn
    · exact .inl hn
    · exact .inr (.inr hn)
    · exact .inr (.inl hn)
  · rcases List.mem_append.mp hn with hn | hn
    · exact h.here n hn
    · exact hl n hn

/-- **A list is sent to a place of the code.** -/
theorem GoodFor.patchTo {list : JumpList} {target : Nat}
    (h : d.GoodFor registers source depth fun n => waiting n ∨ n ∈ list)
    (hl : ∀ n ∈ list, d.OpAt n .jmp) (ht : target ≤ d.code.size) :
    Writes (patchTo list target) d fun _ d' => d'.GoodFor registers source depth waiting ∧
      d.Steady d' ∧ d'.code.size = d.code.size := by
  refine Writes.bind (Writes.ofFn ?_)
  split
  · exact (h.patchHere hl).imp fun _ d' ⟨hg, hs, hc⟩ => ⟨hg, hs, by rw [hc]⟩
  · have hw : d.Written registers d.code.size fun n => n ∈ list ∨ (waiting n ∨ n ∈ d.here) :=
      h.written.mono (Nat.le_refl _) (Nat.le_refl _) fun n hn => by
        rcases hn with (hn | hn) | hn
        · exact .inr (.inl hn)
        · exact .inl hn
        · exact .inr (.inr hn)
    refine (Writes.aimJumps hw (fun n hn => (hl n hn).jumpAt) (.inl rfl) ht ht).imp
      fun _ d' ⟨hw', ha⟩ => ?_
    refine ⟨h.rewritten ha.steady ha.here ?_, ha.steady, ha.size⟩
    rw [ha.size, ha.here]
    exact hw'

theorem GoodFor.closeOnJump {list : JumpList} {level : Nat}
    (h : d.GoodFor registers source depth waiting) (hl : ∀ n ∈ list, d.OpAt n .jmp)
    (hr : level < registers) :
    Writes (closeOnJump list level) d fun _ d' => d'.GoodFor registers source depth waiting ∧
      d.Steady d' ∧ d'.code.size = d.code.size := by
  refine (Writes.closeOnJump h.written hl hr).imp fun _ d' ⟨hw, ha⟩ => ?_
  refine ⟨h.rewritten ha.steady ha.here ?_, ha.steady, ha.size⟩
  rw [ha.size, ha.here]
  exact hw

theorem GoodFor.fixLine {line : Nat} (h : d.GoodFor registers source depth waiting) :
    Writes (fixLine line) d fun _ d' => d'.GoodFor registers source depth waiting ∧
      d.Steady d' ∧ d'.code = d.code ∧ d'.here = d.here := by
  have hs : d.Steady { d with lines := d.lines.modify (d.lines.size - 1) fun _ => line } :=
    .of_code rfl rfl rfl rfl rfl rfl rfl rfl rfl rfl rfl
  exact Writes.modifyFn ⟨h.steady hs rfl (by simp) (fun _ => id) h.here, hs, rfl, rfl⟩

/-! ### Instructions of some kind -/

theorem GoodFor.loadConstant {reg k : Nat} (h : d.GoodFor registers source depth waiting)
    (hr : reg < registers) (hk : k < d.constants.size) :
    Writes (loadConstant reg k) d fun _ d' => d'.GoodFor registers source depth waiting ∧
      d.Steady d' := by
  have ha : reg % 256 < registers := Nat.lt_of_le_of_lt (Nat.mod_le ..) hr
  unfold Compile.loadConstant
  split
  · refine Writes.discard ((h.emit (Instr.plain_ofABx rfl ..) ?_).imp
      fun _ d' ⟨_, hg, he⟩ => ⟨hg, he.toSteady⟩)
    simp only [Instr.Fits, Instr.opcode_ofABx, Instr.a_ofABx]
    exact ⟨ha, Nat.lt_of_le_of_lt (Instr.bx_ofABx_le ..) hk⟩
  · refine Writes.bind (Writes.discard ?_)
    refine (Writes.emitFirst h.written h.jumps_here (Nat.le_refl _)).imp fun _ d1 ⟨_, hhalf⟩ => ?_
    refine Writes.discard ((hhalf.emit (Nat.le_add_right ..) ⟨Instr.known_ofABC .., .inl ?_, ?_, ?_⟩
      ?_ ?_ ?_).imp fun _ d' ⟨_, hw, hs, hnil, _⟩ => ?_)
    · simp only [Instr.Fits, Instr.opcode_ofABx, Instr.a_ofABx]
      exact ha
    · simp [Instr.Jumps, Op.layout]
    · simp [Instr.Skips]
    · exact (Instr.plain_ofABC rfl ..).okAt (by simp [Instr.Fits, Instr.opcode_ofABC]) ..
    · simp only [Instr.Followed, Instr.opcode_ofABx]
      exact ⟨_, rfl, by simp, Nat.lt_of_le_of_lt (Instr.ax_ofAx_le ..) hk⟩
    · simp [Instr.Followed]
    · exact ⟨.landed h hs hnil hw, hs⟩

theorem GoodFor.loadNil {start n : Nat} (h : d.GoodFor registers source depth waiting) (hn : 0 < n)
    (hr : start + n ≤ registers) :
    Writes (loadNil start n) d fun _ d' => d'.GoodFor registers source depth waiting ∧
      d.Steady d' := by
  refine Writes.bind (Writes.ofFn ?_)
  dsimp only [id]
  split
  · next hc =>
    have hop : ∀ i, d.code[d.pc - 1]? = some i → i.opcode = .loadNil ∧ d.instr (d.pc - 1) = i := by
      intro i hi
      have he := Draft.instr_eq hi
      rw [he] at hc
      exact ⟨hc.2.1, he⟩
    refine Writes.modifyFn (h.mapInstr (Nat.le_refl _) _ _ fun i hi => ?_)
    obtain ⟨ho, he⟩ := hop i hi
    rw [he] at hc ⊢
    have hok := h.written.instr _ i hi
    have hfit := hok.fits.resolve_right fun h => by simp [ho] at h
    simp only [Instr.Fits, ho, Draft.room] at hfit
    refine ⟨⟨hok.known, .inl ?_, ?_, ?_⟩, .of_opcode rfl (by simp [ho]) (by simp [ho]), .inl rfl⟩
    · simp only [Instr.Fits, Instr.opcode_setB, Instr.opcode_setA, ho, Instr.a_setB, Instr.a_setA,
        Instr.b_setB, Draft.room]
      have h1 := Nat.mod_le (min start i.a.val) 256
      have h2 := Nat.mod_le (max (start + n - 1) (i.a.val + i.b.val) - min start i.a.val) 512
      omega
    · simp [Instr.Jumps, ho, Op.layout]
    · simp [Instr.Skips, ho]
  · refine Writes.discard ((h.emit (Instr.plain_ofABC rfl ..) ?_).imp
      fun _ d' h => ⟨h.2.1, h.2.2.toSteady⟩)
    simp only [Instr.Fits, Instr.opcode_ofABC, Instr.a_ofABC, Instr.b_ofABC, Draft.room]
    have h1 := Nat.mod_le start 256
    have h2 := Nat.mod_le (n - 1) 512
    omega

theorem GoodFor.emitReturn {first : Nat} {n : Option Nat}
    (h : d.GoodFor registers source depth waiting) (hf : n = some 0 ∨ first < registers)
    (hr : first + n.getD 0 ≤ registers) :
    Writes (emitReturn first n) d fun _ d' => d'.GoodFor registers source depth waiting ∧
      d.Emits (.ofABC .ret first (Operand.ofCount n) 0) d' := by
  refine Writes.discard ((h.emit (Instr.plain_ofABC rfl ..) ?_).imp
    fun _ d' ⟨_, hg, he⟩ => ⟨hg, he⟩)
  simp only [Instr.Fits, Instr.opcode_ofABC, Instr.a_ofABC, Instr.b_ofABC, Draft.room]
  have h1 := Nat.mod_le first 256
  refine ⟨?_, ?_⟩
  · rcases hf with rfl | hf
    · exact .inl rfl
    · exact .inr (by omega)
  · cases n with
    | none => simp only [Operand.ofCount, Option.getD] at hr ⊢; omega
    | some k =>
      have h2 := Nat.mod_le (k + 1) 512
      simp only [Operand.ofCount, Option.getD] at hr ⊢
      omega

end Draft

end LuaMachine
