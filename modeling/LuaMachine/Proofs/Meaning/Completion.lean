/-
  HALF-WRITTEN CODE AND THE CODE THAT BECOMES OF IT. A draft has jumps without a target, TESTSETs without a
  register and a last LOADNIL that may still grow. What is said of the finished function is said from what
  can no longer change: all instructions but those, up to a place.

  * `CompletesAbove.aims`, `CompletesAbove.drops`, `CompletesAbove.extended`, `CompletesAbove.patched` --
    **what may become of the draft after a step may become of the draft before it**.
-/
import LuaMachine.Proofs.Compiler.Value
import LuaMachine.Proofs.Meaning.Path

namespace LuaMachine

open Operand (noRegister)

/-! ## 1. Jumps and their tests -/

def Sends (code : Array Instr) (j dest : Nat) : Prop :=
  ∃ i, code[j]? = some i ∧ i.opcode = .jmp ∧ i.a.val = 0 ∧ (j : Int) + 1 + i.sbx = dest

def Instr.Clears (i : Instr) (r : Nat) : Prop := i.opcode = .loadNil ∧ i.a.val ≤ r ∧ r ≤ i.a.val + i.b.val

def Instr.retarget (reg : Nat) (i : Instr) : Instr :=
  if reg ≠ noRegister ∧ reg ≠ i.b.val then i.setA reg else .ofABC .test i.b.val 0 i.c.val

theorem Instr.retarget_ne_loadNil {i : Instr} {reg : Nat} (h : i.opcode = .testSet) :
    (i.retarget reg).opcode ≠ .loadNil := by
  unfold retarget
  split
  · rw [opcode_setA, h]
    decide
  · simp

namespace Draft

def Jmp (d : Draft) (j : Nat) : Prop := ∃ i, d.code[j]? = some i ∧ i.opcode = .jmp ∧ i.a.val = 0

def Sets (d : Draft) (j : Nat) : Prop := 1 ≤ j ∧ (d.instr (j - 1)).opcode = .testSet

instance (d : Draft) (j : Nat) : Decidable (d.Sets j) := inferInstanceAs (Decidable (_ ∧ _))

/-- In this code the jump goes to `valueTarget` with its value in `reg`, or to `plainTarget` if it
    brings none. -/
def Lands (d : Draft) (code : Array Instr) (valueTarget reg plainTarget j : Nat) : Prop :=
  if d.Sets j then Sends code j valueTarget ∧ code[j - 1]? = some ((d.instr (j - 1)).retarget reg)
  else Sends code j plainTarget

def Open (d : Draft) : Prop := d.lastTarget < d.pc ∧ (d.instr (d.pc - 1)).opcode = .loadNil

def Fresh (d : Draft) : Prop := d.pc ≤ d.lastTarget ∨ (d.instr (d.pc - 1)).opcode ≠ .loadNil

def Tight (d : Draft) : Prop :=
  d.Open → (d.instr (d.pc - 1)).a.val + (d.instr (d.pc - 1)).b.val < 255

def Loose (d : Draft) (list : List Nat) (pc : Nat) : Prop :=
  pc ∈ list ∨ pc + 1 ∈ list ∧ (d.instr pc).opcode = .testSet

/-- Jumps that wait, those that go to the next instruction included: each is a jump before `top`, and
    waits once. Where jumps go is marked as a target. -/
structure Waits (d : Draft) (list : List Nat) (top : Nat) : Prop where
  le : top ≤ d.pc
  jumps : ∀ j ∈ list ++ d.here, j < top ∧ d.Jmp j
  nodup : (list ++ d.here).Nodup
  target : d.here ≠ [] → d.pc ≤ d.lastTarget

/-- The LOADNIL at the end has been widened by `n` registers, and nothing else has changed. -/
structure Widens (d : Draft) (start n : Nat) (d' : Draft) : Prop where
  opened : d.Open
  rest : d' = { d with code := d'.code }
  size : d'.code.size = d.code.size
  same : ∀ pc, pc + 1 ≠ d.pc → d'.code[pc]? = d.code[pc]?
  opcode : (d'.instr (d.pc - 1)).opcode = .loadNil
  clears : ∀ r, (d'.instr (d.pc - 1)).Clears r ↔ (d.instr (d.pc - 1)).Clears r ∨ start ≤ r ∧ r < start + n

def SameTests (list : List Nat) (d d' : Draft) : Prop :=
  ∀ j ∈ list, (d'.Sets j ↔ d.Sets j) ∧ (d.Sets j → d'.instr (j - 1) = d.instr (j - 1))

variable {d d' d'' : Draft} {list list' : List Nat} {j pc top top' : Nat}

theorem Jmp.lt (h : d.Jmp j) : j < d.pc := by
  obtain ⟨i, hi, -⟩ := h
  exact (Array.getElem?_eq_some_iff.mp hi).1

theorem Jmp.opcode (h : d.Jmp j) : (d.instr j).opcode = .jmp := by
  obtain ⟨i, hi, ho, -⟩ := h
  rw [instr_eq hi]
  exact ho

theorem Jmp.not_testSet (h : d.Jmp j) : (d.instr j).opcode ≠ .testSet := by
  rw [h.opcode]
  decide

theorem Fresh.not_open (h : d.Fresh) : ¬ d.Open := fun ho =>
  h.elim (fun hle => absurd ho.1 (Nat.not_lt.mpr hle)) fun hn => hn ho.2

theorem Fresh.tight (h : d.Fresh) : d.Tight := fun ho => absurd ho h.not_open

theorem code_of_lt (h : pc < d.pc) : d.code[pc]? = some (d.instr pc) := by
  have hi := Array.getElem?_eq_getElem h
  rw [hi, instr_eq hi]

theorem Open.code (h : d.Open) : d.code[d.pc - 1]? = some (d.instr (d.pc - 1)) :=
  code_of_lt (Nat.sub_lt (Nat.zero_lt_of_lt h.1) Nat.one_pos)

theorem open_iff (hp : d'.pc = d.pc) (ht : d'.lastTarget = d.lastTarget)
    (hi : d'.instr (d.pc - 1) = d.instr (d.pc - 1)) : d'.Open ↔ d.Open := by
  unfold Open
  rw [hp, ht, hi]

theorem Jmp.jumpAt (h : d.Jmp j) : d.JumpAt j := by
  obtain ⟨i, hi, ho, -⟩ := h
  exact ⟨i, hi, by rw [ho]; rfl⟩

theorem Sends.jmp {dest : Nat} (h : Sends d.code j dest) : d.Jmp j := by
  obtain ⟨i, hi, ho, ha, -⟩ := h
  exact ⟨i, hi, ho, ha⟩

theorem Lands.jmp {vt reg pt : Nat} (h : d.Lands d'.code vt reg pt j) : d'.Jmp j := by
  unfold Lands at h
  split at h
  · exact Sends.jmp h.1
  · exact Sends.jmp h

theorem controlled_iff (h : d.Jmp j) : Compile.controlledByTestSet d j = true ↔ d.Sets j := by
  constructor
  · intro hc
    obtain ⟨hj, -, i, hi, ho⟩ := Compile.control_of_testSet h.jumpAt hc
    exact ⟨hj, by rw [instr_eq hi]; exact ho⟩
  · rintro ⟨hj, ho⟩
    simp [Compile.controlledByTestSet, Compile.controlOf, hj, ho, Op.isTest]

theorem Sets.control (h : d.Sets j) : Compile.controlOf d j = j - 1 := by
  simp [Compile.controlOf, h.1, h.2, Op.isTest]

theorem Sets.code (h : d.Sets j) : d.code[j - 1]? = some (d.instr (j - 1)) := by
  cases hi : d.code[j - 1]? with
  | none =>
    have := h.2
    simp [instr, hi] at this
  | some i => rw [instr_eq hi]

theorem Jmp.congr (h : d.Jmp j) (hc : d'.code[j]? = d.code[j]?) : d'.Jmp j := by
  unfold Jmp
  rw [hc]
  exact h

theorem Loose.mono (h : d.Loose list pc) (hl : ∀ j ∈ list, j ∈ list') : d.Loose list' pc :=
  h.imp (hl _) fun h => ⟨hl _ h.1, h.2⟩

theorem Open.not_loose (h : d.Open) (hj : ∀ j ∈ list, d.Jmp j) : ¬ d.Loose list (d.pc - 1) := by
  rintro (hm | ⟨-, ho⟩)
  · have := (hj _ hm).opcode
    rw [h.2] at this
    cases this
  · rw [h.2] at ho
    cases ho

theorem Jmp.not_loose (h : d.Jmp j) (hj : j ∉ list) : ¬ d.Loose list j := by
  rintro (hl | ⟨-, ho⟩)
  · exact hj hl
  · exact h.not_testSet ho

theorem SameTests.refl (list : List Nat) (d : Draft) : d.SameTests list d :=
  fun _ _ => ⟨Iff.rfl, fun _ => rfl⟩

theorem SameTests.trans (h : d.SameTests list d') (h' : d'.SameTests list d'') :
    d.SameTests list d'' := by
  intro j hj
  obtain ⟨h1, h2⟩ := h j hj
  obtain ⟨h3, h4⟩ := h' j hj
  exact ⟨h3.trans h1, fun hs => (h4 (h1.mpr hs)).trans (h2 hs)⟩

theorem SameTests.mono (h : d.SameTests list d') (hl : ∀ j ∈ list', j ∈ list) :
    d.SameTests list' d' :=
  fun j hj => h j (hl j hj)

theorem SameTests.of_code (h : ∀ j ∈ list, d'.code[j - 1]? = d.code[j - 1]?) : d.SameTests list d' := by
  intro j hj
  have hi := instr_congr (h j hj)
  exact ⟨by simp only [Sets, hi], fun _ => hi⟩

theorem SameTests.of_loose (hsame : ∀ j ∈ list', ¬ d.Loose list (j - 1) → d'.code[j - 1]? = d.code[j - 1]?)
    (hjmp : ∀ j ∈ list, d.Jmp j ∧ d'.Jmp j) (hd : ∀ j ∈ list', j ∉ list) : d.SameTests list' d' := by
  intro j hj
  by_cases hl : d.Loose list (j - 1)
  · -- the instruction before the jump is itself a jump of the list
    have hmem : 1 ≤ j → j - 1 ∈ list := by
      intro h1
      refine hl.resolve_right fun h => hd j hj ?_
      have : j - 1 + 1 = j := by omega
      rw [this] at h
      exact h.1
    have hn : ¬ d.Sets j := fun hs => (hjmp _ (hmem hs.1)).1.not_testSet hs.2
    have hn' : ¬ d'.Sets j := fun hs => (hjmp _ (hmem hs.1)).2.not_testSet hs.2
    exact ⟨⟨fun h => absurd h hn', fun h => absurd h hn⟩, fun h => absurd h hn⟩
  · have hi := instr_congr (hsame j hj hl)
    exact ⟨by simp only [Sets, hi], fun _ => hi⟩

namespace Waits

theorem perm (h : d.Waits list top) (hp : list.Perm list') : d.Waits list' top := by
  have hp' : (list ++ d.here).Perm (list' ++ d.here) := hp.append_right _
  exact ⟨h.le, fun j hj => h.jumps j (hp'.mem_iff.mpr hj), hp'.nodup_iff.mp h.nodup, h.target⟩

theorem jmp (h : d.Waits list top) (hj : j ∈ list) : d.Jmp j :=
  (h.jumps j (List.mem_append_left _ hj)).2

theorem lt (h : d.Waits list top) (hj : j ∈ list) : j < top :=
  (h.jumps j (List.mem_append_left _ hj)).1

theorem here (h : d.Waits list top) (hj : j ∈ d.here) : d.Jmp j :=
  (h.jumps j (List.mem_append_right _ hj)).2

theorem not_here (h : d.Waits list top) (hj : j ∈ list) : j ∉ d.here :=
  fun hh => (List.nodup_append.mp h.nodup).2.2 j hj j hh rfl

theorem nodup_here (h : d.Waits list top) : d.here.Nodup := (List.nodup_append.mp h.nodup).2.1

theorem snoc (h : d.Waits list top) (hj : d.Jmp j) (ht : top ≤ j) : d.Waits (list ++ [j]) d.pc := by
  have hperm : (list ++ [j] ++ d.here).Perm (j :: (list ++ d.here)) := by
    rw [List.append_assoc]
    exact List.perm_middle
  refine ⟨Nat.le_refl _, fun n hn => ?_, hperm.nodup_iff.mpr (List.nodup_cons.mpr ⟨fun hm => ?_, h.nodup⟩),
    h.target⟩
  · rcases List.mem_cons.mp (hperm.mem_iff.mp hn) with rfl | hn
    · exact ⟨hj.lt, hj⟩
    · have := (h.jumps n hn).1
      have := hj.lt
      exact ⟨by omega, (h.jumps n hn).2⟩
  · have := (h.jumps j hm).1
    omega

theorem transfer (h : d.Waits list top) (hle : top' ≤ d'.pc) (ht : top ≤ top')
    (hjmp : ∀ j ∈ list, d'.Jmp j) (hh : d'.here = []) : d'.Waits list top' := by
  rw [← List.append_nil list] at hjmp
  refine ⟨hle, fun j hj => ?_, ?_, fun h => absurd hh h⟩
  · rw [hh] at hj
    exact ⟨Nat.lt_of_lt_of_le (h.lt (by simpa using hj)) ht, hjmp j hj⟩
  · rw [hh, List.append_nil]
    exact (List.nodup_append.mp h.nodup).1

end Waits

namespace Widens

variable {start n : Nat}

theorem pc_eq (h : d.Widens start n d') : d'.pc = d.pc := h.size

theorem stays_open (h : d.Widens start n d') : d'.Open := by
  refine ⟨?_, by rw [h.pc_eq]; exact h.opcode⟩
  rw [h.pc_eq, h.rest]
  exact h.opened.1

theorem here {top : Nat} (h : d.Widens start n d') (hw : d.Waits list top) : d.here = [] := by
  by_cases hh : d.here = []
  · exact hh
  · exact absurd (hw.target hh) (Nat.not_le.mpr h.opened.1)

theorem jmp (h : d.Widens start n d') (hj : d.Jmp j) : d'.Jmp j := by
  refine hj.congr (h.same j fun heq => ?_)
  have := hj.opcode
  rw [show j = d.pc - 1 by omega, h.opened.2] at this
  cases this

theorem waits (h : d.Widens start n d') (hw : d.Waits list d.pc) : d'.Waits list d'.pc := by
  have hhere : d'.here = [] := by
    rw [h.rest]
    exact h.here hw
  refine ⟨Nat.le_refl _, fun j hj => ?_, ?_, fun hn => absurd hhere hn⟩
  · rw [hhere, ← h.here hw] at hj
    obtain ⟨hlt, hjmp⟩ := hw.jumps j hj
    exact ⟨by rw [h.pc_eq]; exact hlt, h.jmp hjmp⟩
  · rw [hhere, ← h.here hw]
    exact hw.nodup

theorem sameTests (h : d.Widens start n d') (hj : ∀ j ∈ list, d.Jmp j) : d.SameTests list d' := by
  intro j hm
  have hlt := (hj j hm).lt
  by_cases hpos : 1 ≤ j
  · have hi := instr_congr (h.same (j - 1) (by omega))
    exact ⟨by simp only [Sets, hi], fun _ => hi⟩
  · exact ⟨⟨fun h => absurd h.1 hpos, fun h => absurd h.1 hpos⟩, fun h => absurd h.1 hpos⟩

theorem tight (h : d.Widens start n d') (ht : d.Tight) (hn : start + n ≤ 255) : d'.Tight := by
  intro _
  rw [h.pc_eq]
  have hclears := (h.clears ((d'.instr (d.pc - 1)).a.val + (d'.instr (d.pc - 1)).b.val)).mp
    ⟨h.opcode, Nat.le_add_right _ _, Nat.le_refl _⟩
  rcases hclears with hc | hc
  · exact Nat.lt_of_le_of_lt hc.2.2 (ht h.opened)
  · omega

end Widens

end Draft

/-- A function that may become of a draft: it has the draft's constants and, before `top`, its
    instructions, but for jumps that wait; a TESTSET before one of them gets some register. A last LOADNIL
    that may be widened has been, to no register below `k`. -/
structure CompletesAbove (k : Nat) (p : Proto) (d : Draft) (list : List Nat) (top : Nat) : Prop where
  code : ∀ (pc : Nat) (i : Instr), d.code[pc]? = some i → pc < top → ¬ d.Loose (list ++ d.here) pc →
    ¬ (d.Open ∧ pc + 1 = d.pc) → p.code[pc]? = some i
  tests : ∀ j ∈ list ++ d.here, d.Sets j → ∃ reg, p.code[j - 1]? = some ((d.instr (j - 1)).retarget reg)
  nils : d.Open → d.pc ≤ top → ∃ i, p.code[d.pc - 1]? = some i ∧ i.opcode = .loadNil ∧
    (∀ r, (d.instr (d.pc - 1)).Clears r → i.Clears r) ∧ ∀ r < k, i.Clears r → (d.instr (d.pc - 1)).Clears r
  constants : ∀ (k : Nat) (c : Constant), d.constants[k]? = some c → p.constants[k]? = some c

abbrev Completes (p : Proto) (d : Draft) (list : List Nat) (top : Nat) : Prop :=
  CompletesAbove d.free p d list top

namespace CompletesAbove

open Draft

variable {k k' : Nat} {p : Proto} {d d' : Draft} {list list' : List Nat} {top top' : Nat}

theorem same (h : CompletesAbove k p d list top) {pc : Nat} {i : Instr} (hi : d.code[pc]? = some i)
    (ht : pc < top) (hl : ¬ d.Loose (list ++ d.here) pc) (hn : i.opcode ≠ .loadNil) : p.code[pc]? = some i := by
  refine h.code pc i hi ht hl ?_
  rintro ⟨ho, hpc⟩
  have hlast : d.pc - 1 = pc := by omega
  have hopcode := ho.2
  rw [hlast, instr_eq hi] at hopcode
  exact hn hopcode

theorem mono (h : CompletesAbove k p d list top) (hk : k' ≤ k) : CompletesAbove k' p d list top := by
  refine ⟨h.code, h.tests, fun ho ht => ?_, h.constants⟩
  obtain ⟨i, hi, hn, hc, hb⟩ := h.nils ho ht
  exact ⟨i, hi, hn, hc, fun r hr => hb r (Nat.lt_of_lt_of_le hr hk)⟩

theorem of_fresh (h : CompletesAbove k p d list top) (hf : d.Fresh) : CompletesAbove k' p d list top :=
  ⟨h.code, h.tests, fun ho => absurd ho hf.not_open, h.constants⟩

theorem congr (h : CompletesAbove k p d list top) (hl : ∀ j, j ∈ list ↔ j ∈ list') :
    CompletesAbove k p d list' top := by
  have hmem : ∀ j, j ∈ list ++ d.here ↔ j ∈ list' ++ d.here := by simp [hl]
  exact ⟨fun pc i hi ht hn => h.code pc i hi ht fun hl' => hn (hl'.mono fun j => (hmem j).mp),
    fun j hj => h.tests j ((hmem j).mpr hj), h.nils, h.constants⟩

theorem forget (h : CompletesAbove k p d list' top') (ht : top ≤ top') (hl : ∀ j ∈ list', j ∈ list ∨ top < j)
    (hl' : ∀ j ∈ list, j ∈ list') : CompletesAbove k p d list top := by
  refine ⟨fun pc i hi hlt hn => h.code pc i hi (by omega) fun hlo => hn ?_, fun j hj => h.tests j ?_,
    fun ho hle => h.nils ho (Nat.le_trans hle ht), h.constants⟩
  · have hmem : ∀ j ∈ list' ++ d.here, j ≤ top → j ∈ list ++ d.here := by
      intro j hj hle
      rcases List.mem_append.mp hj with hj | hj
      · exact List.mem_append_left _ ((hl j hj).resolve_right (by omega))
      · exact List.mem_append_right _ hj
    exact hlo.imp (fun h => hmem _ h (by omega)) fun h => ⟨hmem _ h.1 (by omega), h.2⟩
  · exact (List.mem_append.mp hj).elim (fun hj => List.mem_append_left _ (hl' j hj)) (List.mem_append_right _)

theorem stock (h : CompletesAbove k p d' list top) (hc : d'.code = d.code) (hh : d'.here = d.here)
    (ht : d'.lastTarget = d.lastTarget)
    (hk : ∀ (k : Nat) (c : Constant), d.constants[k]? = some c → d'.constants[k]? = some c) :
    CompletesAbove k p d list top := by
  have hinstr : ∀ pc, d'.instr pc = d.instr pc := fun pc => by simp [instr, hc]
  have hpc : d'.pc = d.pc := by simp [Draft.pc, hc]
  have hopen : d'.Open ↔ d.Open := open_iff hpc ht (hinstr _)
  refine ⟨fun pc i hi hlt hn ho => ?_, fun j hj hs => ?_, fun ho hle => ?_,
    fun k c hkc => h.constants k c (hk k c hkc)⟩
  · refine h.code pc i (by rw [hc]; exact hi) hlt (by simpa only [Loose, hinstr, hh] using hn) ?_
    rw [hpc, hopen]
    exact ho
  · have hsets : d'.Sets j := by
      simp only [Sets, hinstr]
      exact hs
    have hmem : j ∈ list ++ d'.here := by
      rw [hh]
      exact hj
    simpa only [hinstr] using h.tests j hmem hsets
  · have := h.nils (hopen.mpr ho) (by rw [hpc]; exact hle)
    rwa [hpc, hinstr] at this

theorem marked {target : Nat} (h : CompletesAbove k p { d with lastTarget := target } list d.pc) (ht : d.pc ≤ target)
    (hw : d.Waits list d.pc) : CompletesAbove k' p d list d.pc := by
  have hn : ¬ { d with lastTarget := target }.Open := fun ho => absurd ho.1 (Nat.not_lt.mpr ht)
  refine ⟨fun pc i hi hlt hl _ => h.code pc i hi hlt hl fun ho => hn ho.1, h.tests, fun ho _ => ?_, h.constants⟩
  have hlt : d.pc - 1 < d.pc := Nat.sub_lt (Nat.zero_lt_of_lt ho.1) Nat.one_pos
  exact ⟨_, h.code (d.pc - 1) _ ho.code hlt (ho.not_loose fun j hj => (hw.jumps j hj).2) fun ho => hn ho.1, ho.2,
    fun _ => id, fun _ _ => id⟩

theorem lastNil (h : CompletesAbove k p d list top) (hw : d.Waits list top') (ht : d.pc ≤ top) (hpos : 0 < d.pc)
    (ho : (d.instr (d.pc - 1)).opcode = .loadNil) : ∃ i, p.code[d.pc - 1]? = some i ∧ i.opcode = .loadNil ∧
      (∀ r, (d.instr (d.pc - 1)).Clears r → i.Clears r) ∧ ∀ r < k, i.Clears r → (d.instr (d.pc - 1)).Clears r := by
  by_cases hopen : d.Open
  · exact h.nils hopen ht
  · have hlt : d.pc - 1 < d.pc := Nat.sub_lt hpos Nat.one_pos
    refine ⟨_, h.code _ _ (code_of_lt hlt) (by omega) ?_ fun h => hopen h.1, ho, fun _ => id, fun _ _ => id⟩
    rintro (hm | ⟨-, hset⟩)
    · rw [(hw.jumps _ hm).2.opcode] at ho
      cases ho
    · rw [hset] at ho
      cases ho

theorem widened {start n : Nat} (h : CompletesAbove k p d' list d.pc) (hd : d.Widens start n d') (hk : k ≤ start) :
    CompletesAbove k p d list d.pc := by
  have hpc : d'.pc = d.pc := hd.size
  have hhere : d'.here = d.here := by rw [hd.rest]
  refine ⟨fun pc i hi hlt hn hne => ?_, fun j hj hs => ?_, fun _ _ => ?_, fun n c hc => ?_⟩
  · have hne' : pc + 1 ≠ d.pc := fun heq => hne ⟨hd.opened, heq⟩
    refine h.code pc i ((hd.same pc hne').trans hi) hlt (fun hl => hn ?_) fun hx => hne' (hx.2.trans hpc)
    unfold Loose at hl ⊢
    rw [instr_congr (hd.same pc hne'), hhere] at hl
    exact hl
  · have hne : j - 1 + 1 ≠ d.pc := by
      intro heq
      have hset := hs.2
      rw [show j - 1 = d.pc - 1 by omega, hd.opened.2] at hset
      cases hset
    have hi := instr_congr (hd.same _ hne)
    rw [← hi]
    rw [← hhere] at hj
    exact h.tests j hj ⟨hs.1, by rw [hi]; exact hs.2⟩
  · obtain ⟨i, hi, hop, hcl, hbd⟩ := h.nils hd.stays_open (Nat.le_of_eq hpc)
    rw [hpc] at hi hcl hbd
    refine ⟨i, hi, hop, fun r hr => hcl r ((hd.clears r).mpr (.inl hr)), fun r hr hx => ?_⟩
    exact ((hd.clears r).mp (hbd r hr hx)).resolve_right (by omega)
  · exact h.constants n c (by rw [hd.rest]; exact hc)

end CompletesAbove

/-! ## 2. Aiming jumps -/

namespace Draft

structure AimsAt (d : Draft) (valueTarget reg plainTarget : Nat) (list : JumpList) (d' : Draft) :
    Prop where
  rest : d' = { d with code := d'.code }
  size : d'.code.size = d.code.size
  same : ∀ pc, ¬ d.Loose list pc → d'.code[pc]? = d.code[pc]?
  lands : ∀ j ∈ list, d.Lands d'.code valueTarget reg plainTarget j

structure Drops (d : Draft) (list : JumpList) (d' : Draft) : Prop where
  rest : d' = { d with code := d'.code }
  size : d'.code.size = d.code.size
  same : ∀ pc, ¬ (pc + 1 ∈ list ∧ (d.instr pc).opcode = .testSet) → d'.code[pc]? = d.code[pc]?
  tests : ∀ j ∈ list, d.Sets j → d'.code[j - 1]? = some ((d.instr (j - 1)).retarget noRegister)

variable {d d' d'' : Draft} {list list' : List Nat} {j node dest vt reg pt : Nat}

theorem sends_setSbx (h : d.Jmp j) (hr : Compile.reaches j dest = true) {code : Array Instr}
    (hc : code[j]? = d.code[j]?.map fun i => i.setSbx ((dest : Int) - (j + 1))) : Sends code j dest := by
  obtain ⟨i, hi, ho, ha⟩ := h
  rw [hi] at hc
  refine ⟨_, hc, ho, ha, ?_⟩
  have hn : ((dest : Int) - (j + 1)).natAbs ≤ Instr.maxJump := by simpa [Compile.reaches] using hr
  rw [Instr.sbx_setSbx _ _ hn]
  omega

end Draft

namespace Compile

open Draft

variable {d d' : Draft} {node dest vt reg pt : Nat} {list : JumpList}

theorem Writes.aimTest_drops (hj : d.Jmp node) :
    Writes (Compile.aimTest node reg) d fun b d' => b = decide (d.Sets node) ∧
      d' = { d with code := d'.code } ∧ d'.code.size = d.code.size ∧
      (∀ pc, ¬ (d.Sets node ∧ pc + 1 = node) → d'.code[pc]? = d.code[pc]?) ∧
      (d.Sets node → d'.code[node - 1]? = some ((d.instr (node - 1)).retarget reg)) := by
  refine Writes.get fun s hs => ?_
  rw [hs]
  by_cases hset : d.Sets node
  · rw [if_pos ((controlled_iff hj).mpr hset)]
    refine Writes.bind (Writes.modifyFn (Writes.pure ⟨by simp [hset], rfl, by simp [mapInstr], ?_, ?_⟩))
    · intro pc hpc
      have hne : controlOf d node ≠ pc := by
        rw [hset.control]
        have := hset.1
        intro h
        exact hpc ⟨hset, by omega⟩
      simp [mapInstr, Array.getElem?_modify, hne]
    · intro _
      simp only [mapInstr, Array.getElem?_modify, hset.control, if_true, hset.code]
      rfl
  · have hc : controlledByTestSet d node = false :=
      Bool.eq_false_iff.mpr fun h => hset ((controlled_iff hj).mp h)
    rw [hc]
    exact Writes.pure ⟨by simp [hset], rfl, rfl, fun _ _ => rfl, fun h => absurd h hset⟩

theorem Writes.fixJump_aims (hj : d.Jmp node) :
    Writes (Compile.fixJump node dest) d fun _ d' => d' = { d with code := d'.code } ∧
      d'.code.size = d.code.size ∧ (∀ pc, pc ≠ node → d'.code[pc]? = d.code[pc]?) ∧
      Sends d'.code node dest := by
  unfold Compile.fixJump
  split
  · next hr =>
    refine Writes.modifyFn ⟨rfl, by simp [mapInstr], fun pc hpc => ?_, ?_⟩
    · simp [mapInstr, Array.getElem?_modify, Ne.symm hpc]
    · exact sends_setSbx hj hr (by simp [mapInstr, Array.getElem?_modify])
  · exact Writes.failNear

theorem Writes.aimOne {rest : Compile Unit} {Q : Unit → Draft → Prop} (hj : d.Jmp node)
    (h : ∀ d', d.AimsAt vt reg pt [node] d' → Writes rest d' Q) :
    Writes (do
      if ← Compile.aimTest node reg then Compile.fixJump node vt else Compile.fixJump node pt
      rest) d Q := by
  refine (Writes.aimTest_drops hj).andThen fun b d1 ⟨hb, hd1, hsize, hsame, hset⟩ => ?_
  have hj1 : d1.Jmp node := hj.congr (hsame node (by omega))
  have hfix : ∀ dest, (dest = if d.Sets node then vt else pt) →
      Writes (Compile.fixJump node dest) d1 fun _ d' => d.AimsAt vt reg pt [node] d' := by
    intro dest hdest
    refine (Writes.fixJump_aims hj1).imp fun _ d' ⟨hd', hsize', hsame', hsends⟩ => ?_
    refine ⟨by rw [hd', hd1], hsize'.trans hsize, fun pc hpc => ?_, fun j hjm => ?_⟩
    · simp only [Loose, List.mem_singleton, not_or] at hpc
      refine (hsame' pc hpc.1).trans (hsame pc fun hc => hpc.2 ⟨hc.2, ?_⟩)
      have : pc = node - 1 := by omega
      rw [this]
      exact hc.1.2
    · rw [List.mem_singleton] at hjm
      subst hjm
      unfold Lands
      split
      · next hs =>
        rw [if_pos hs] at hdest
        subst hdest
        have := hs.1
        exact ⟨hsends, (hsame' _ (by omega)).trans (hset hs)⟩
      · next hs =>
        rw [if_neg hs] at hdest
        subst hdest
        exact hsends
  subst hb
  by_cases hs : d.Sets node
  · simp only [hs, decide_true, if_true]
    exact (hfix vt (by rw [if_pos hs])).andThen fun _ d' hd' => h d' hd'
  · simp only [hs, decide_false, Bool.false_eq_true, if_false]
    exact (hfix pt (by rw [if_neg hs])).andThen fun _ d' hd' => h d' hd'

/-- **The jumps of a list are aimed**, each by its own test. -/
theorem Writes.aimJumps_aims (hj : ∀ j ∈ list, d.Jmp j) (hn : list.Nodup) :
    Writes (Compile.aimJumps vt reg pt list) d fun _ d' => d.AimsAt vt reg pt list d' := by
  induction list generalizing d with
  | nil => exact Writes.pure ⟨rfl, rfl, fun _ _ => rfl, by simp⟩
  | cons node rest ih =>
    obtain ⟨hnode, hn'⟩ := List.nodup_cons.mp hn
    have hjnode := hj node (List.mem_cons_self ..)
    refine Writes.aimOne hjnode fun d1 h₁ => ?_
    have hland := h₁.lands node (List.mem_singleton_self _)
    have hjnode1 : d1.Jmp node := Lands.jmp hland
    have hsame1 : ∀ pc, pc ≠ node → ¬ (pc + 1 = node ∧ (d.instr pc).opcode = .testSet) →
        d1.code[pc]? = d.code[pc]? := by
      intro pc h1 h2
      refine h₁.same pc ?_
      simp only [Loose, List.mem_singleton, not_or]
      exact ⟨h1, h2⟩
    have hj1 : ∀ j ∈ rest, d1.Jmp j := by
      intro j hjm
      have hjj := hj j (List.mem_cons_of_mem _ hjm)
      refine hjj.congr (hsame1 j ?_ fun h => hjj.not_testSet h.2)
      rintro rfl
      exact hnode hjm
    have htests : d.SameTests rest d1 := by
      have hone : ∀ j ∈ [node], d.Jmp j ∧ d1.Jmp j := by
        intro j hjm
        rw [List.mem_singleton] at hjm
        subst hjm
        exact ⟨hjnode, hjnode1⟩
      refine SameTests.of_loose (fun j _ hl => h₁.same _ hl) hone fun j hjm hc => ?_
      rw [List.mem_singleton] at hc
      subst hc
      exact hnode hjm
    refine (ih hj1 hn').imp fun _ d' h' => ?_
    refine ⟨by rw [h'.rest, h₁.rest], h'.size.trans h₁.size, fun pc hpc => ?_, fun j hjm => ?_⟩
    · have h1 : d1.code[pc]? = d.code[pc]? := by
        refine h₁.same pc fun hl => hpc (hl.mono fun j hjm => ?_)
        rw [List.mem_singleton] at hjm
        simp [hjm]
      refine (h'.same pc fun hl => hpc ?_).trans h1
      have : d.Loose rest pc := by
        unfold Loose at hl ⊢
        rw [instr_congr h1] at hl
        exact hl
      exact this.mono fun j hjm => List.mem_cons_of_mem _ hjm
    · rcases List.mem_cons.mp hjm with rfl | hjm
      · -- the jump and its test are out of reach of the others
        have hkeep : d'.code[j]? = d1.code[j]? := h'.same j (hjnode1.not_loose hnode)
        unfold Lands at hland ⊢
        split
        · next hs =>
          rw [if_pos hs] at hland
          have hcode : d'.code[j - 1]? = d1.code[j - 1]? := by
            refine h'.same _ ?_
            rintro (hm | ⟨hm, -⟩)
            · exact (hj _ (List.mem_cons_of_mem _ hm)).not_testSet hs.2
            · have := hs.1
              rw [Nat.sub_add_cancel this] at hm
              exact hnode hm
          refine ⟨?_, hcode.trans hland.2⟩
          unfold Sends
          rw [hkeep]
          exact hland.1
        · next hs =>
          rw [if_neg hs] at hland
          unfold Sends
          rw [hkeep]
          exact hland
      · have hl := h'.lands j hjm
        obtain ⟨hiff, hinstr⟩ := htests j hjm
        unfold Lands at hl ⊢
        by_cases hs : d.Sets j
        · rw [if_pos (hiff.mpr hs)] at hl
          rw [if_pos hs, ← hinstr hs]
          exact hl
        · rw [if_neg fun h => hs (hiff.mp h)] at hl
          rw [if_neg hs]
          exact hl

theorem Writes.dropValues_drops (hj : ∀ j ∈ list, d.Jmp j) (hn : list.Nodup) :
    Writes (Compile.dropValues list) d fun _ d' => d.Drops list d' := by
  induction list generalizing d with
  | nil => exact Writes.pure ⟨rfl, rfl, fun _ _ => rfl, by simp⟩
  | cons node rest ih =>
    obtain ⟨hnode, hn'⟩ := List.nodup_cons.mp hn
    have hjnode := hj node (List.mem_cons_self ..)
    refine Writes.bind (Writes.discard ?_)
    refine (Writes.aimTest_drops hjnode).imp fun _ d1 ⟨_, hd1, hsize, hsame, hset⟩ => ?_
    have hj1 : ∀ j ∈ rest, d1.Jmp j := by
      intro j hjm
      have hjj := hj j (List.mem_cons_of_mem _ hjm)
      refine hjj.congr (hsame j fun h => hjj.not_testSet ?_)
      have : j = node - 1 := by omega
      rw [this]
      exact h.1.2
    -- tests of other jumps stand elsewhere
    have hother : ∀ pc, pc + 1 ≠ node → d1.code[pc]? = d.code[pc]? :=
      fun pc hpc => hsame pc fun h => hpc h.2
    refine (ih hj1 hn').imp fun _ d' h' => ?_
    refine ⟨by rw [h'.rest, hd1], h'.size.trans hsize, fun pc hpc => ?_, fun j hjm hs => ?_⟩
    · have h1 : d1.code[pc]? = d.code[pc]? := by
        refine hsame pc fun h => hpc ⟨by simp [h.2], ?_⟩
        have : pc = node - 1 := by omega
        rw [this]
        exact h.1.2
      refine (h'.same pc fun h => hpc ⟨List.mem_cons_of_mem _ h.1, ?_⟩).trans h1
      rw [← instr_congr h1]
      exact h.2
    · have hpos := hs.1
      by_cases hne : j = node
      · subst hne
        refine (h'.same _ fun h => hnode ?_).trans (hset hs)
        rw [Nat.sub_add_cancel hpos] at h
        exact h.1
      · have hjm := (List.mem_cons.mp hjm).resolve_left hne
        have hi : d1.instr (j - 1) = d.instr (j - 1) := instr_congr (hother _ (by omega))
        have hs1 : d1.Sets j := ⟨hpos, by rw [hi]; exact hs.2⟩
        rw [← hi]
        exact h'.tests j hjm hs1

end Compile

/-! ## 3. Writing instructions -/

namespace Draft

structure Extended (d : Draft) (is : List Instr) (d' : Draft) : Prop where
  rest : d' = { d with code := d'.code, lines := d'.lines, here := [], lastTarget := d'.lastTarget }
  size : d'.code.size = d.code.size + is.length
  new : ∀ k < is.length, d'.code[d.pc + k]? = is[k]?
  same : ∀ pc < d.pc, ¬ d.Loose d.here pc → d'.code[pc]? = d.code[pc]?
  lands : ∀ j ∈ d.here, d.Lands d'.code d.pc noRegister d.pc j

variable {d d' d'' : Draft} {i j : Instr} {is : List Instr}

theorem Extended.here (h : d.Extended is d') : d'.here = [] := by
  rw [h.rest]

theorem Extended.push {line : Nat} (hh : d.here = []) : d.Extended [i] (d.push i line) where
  rest := by
    cases d
    simp_all [Draft.push]
  size := by simp [Draft.push]
  new k hk := by
    obtain rfl : k = 0 := by simpa using hk
    simp [Draft.push, pc]
  same pc hpc _ := by
    simp only [Draft.push, Array.getElem?_push]
    rw [if_neg (by simp only [Draft.pc] at hpc; omega)]
  lands := by simp [hh]

theorem Extended.snoc (h : d.Extended is d') {line : Nat} : d.Extended (is ++ [i]) (d'.push i line) where
  rest := by
    have := h.rest
    rw [this]
    rfl
  size := by simp [Draft.push, h.size]; omega
  new k hk := by
    have hsize : d'.code.size = d.pc + is.length := h.size
    simp only [Draft.push, Array.getElem?_push, hsize]
    by_cases hlt : k < is.length
    · rw [if_neg (by omega), h.new k hlt, List.getElem?_append_left hlt]
    · have hk' : k = is.length := by simp at hk; omega
      subst hk'
      simp
  same pc hpc hl := by
    rw [← h.same pc hpc hl]
    have hsize : d'.code.size = d.pc + is.length := h.size
    simp only [Draft.push, Array.getElem?_push]
    rw [if_neg (by omega)]
  lands j hj := by
    have hl := h.lands j hj
    have hsize : d'.code.size = d.pc + is.length := h.size
    have hkeep : ∀ (pc : Nat) x, d'.code[pc]? = some x → (d'.push i line).code[pc]? = some x := by
      intro pc x hx
      have := (Array.getElem?_eq_some_iff.mp hx).1
      simp only [Draft.push, Array.getElem?_push]
      rw [if_neg (by omega)]
      exact hx
    have hsends : ∀ dest, Sends d'.code j dest → Sends (d'.push i line).code j dest := by
      rintro dest ⟨x, hx, hrest⟩
      exact ⟨x, hkeep _ _ hx, hrest⟩
    unfold Lands at hl ⊢
    split
    · next hs =>
      rw [if_pos hs] at hl
      exact ⟨hsends _ hl.1, hkeep _ _ hl.2⟩
    · next hs =>
      rw [if_neg hs] at hl
      exact hsends _ hl

theorem Extended.nil (hh : d.here = []) : d.Extended [] d where
  rest := by
    cases d
    simp_all
  size := rfl
  new := by simp
  same _ _ _ := rfl
  lands := by simp [hh]

theorem Extended.mark (h : d.Extended is d') (target : Nat) :
    d.Extended is { d' with lastTarget := target } :=
  ⟨by rw [h.rest], h.size, h.new, h.same, h.lands⟩

theorem Extended.jmp {list : List Nat} {top : Nat} (h : d.Extended is d') (hw : d.Waits list top) :
    ∀ j ∈ list, d'.Jmp j := by
  intro j hj
  have hjmp := hw.jmp hj
  exact hjmp.congr (h.same j hjmp.lt (hjmp.not_loose (hw.not_here hj)))

theorem Extended.sameTests {list : List Nat} {top : Nat} (h : d.Extended is d') (hw : d.Waits list top) :
    d.SameTests list d' := by
  refine SameTests.of_loose (fun j hj hl => ?_) (fun j hj => ⟨hw.here hj, (h.lands j hj).jmp⟩)
    fun j hj => hw.not_here hj
  have := (hw.jmp hj).lt
  exact h.same _ (by omega) hl

end Draft

namespace Compile

open Draft

variable {d d' : Draft}

/-- **An instruction is written.** -/
theorem Writes.emit_extends {i : Instr} {list : List Nat} {top : Nat} (hw : d.Waits list top) :
    Writes (Compile.emit i) d fun pc d' => pc = d.pc ∧ d.Extended [i] d' := by
  have haim : Writes Compile.aimHere d fun _ d' =>
      { d with here := [] }.AimsAt d.pc noRegister d.pc d.here d' := by
    refine Writes.get fun s hs => ?_
    subst hs
    refine Writes.bind (Writes.modifyFn ?_)
    exact Writes.aimJumps_aims (fun j hj => hw.here hj) hw.nodup_here
  refine haim.andThen fun _ e he => ?_
  refine Writes.get fun s hs => ?_
  subst hs
  have hsize : s.fn.pc = d.pc := he.size
  refine Writes.bind (Writes.modifyFn (Writes.pure ⟨hsize, ?_⟩))
  have hkeep : ∀ (pc : Nat) x, s.fn.code[pc]? = some x → (s.fn.code.push i)[pc]? = some x := by
    intro pc x hx
    have := (Array.getElem?_eq_some_iff.mp hx).1
    rw [Array.getElem?_push, if_neg (by omega)]
    exact hx
  have hsends : ∀ j dest, Sends s.fn.code j dest → Sends (s.fn.code.push i) j dest := by
    rintro j dest ⟨x, hx, hrest⟩
    exact ⟨x, hkeep _ _ hx, hrest⟩
  refine ⟨?_, ?_, fun k hk => ?_, fun pc hpc hl => ?_, fun j hj => ?_⟩
  · have := he.rest
    rw [this]
  · simp [he.size]
  · obtain rfl : k = 0 := by simpa using hk
    have hlast : (s.fn.code.push i)[s.fn.pc]? = some i := by simp [Draft.pc]
    rw [← hsize]
    exact hlast
  · have hsame : s.fn.code[pc]? = d.code[pc]? := he.same pc hl
    rw [← hsame]
    show (s.fn.code.push i)[pc]? = _
    rw [Array.getElem?_push, if_neg (by rw [← hsize] at hpc; exact Nat.ne_of_lt hpc)]
  · have hl := he.lands j hj
    unfold Lands at hl ⊢
    by_cases hs : d.Sets j
    · have hs' : { d with here := [] }.Sets j := hs
      rw [if_pos hs'] at hl
      rw [if_pos hs]
      exact ⟨hsends _ _ hl.1, hkeep _ _ hl.2⟩
    · have hs' : ¬ { d with here := [] }.Sets j := hs
      rw [if_neg hs'] at hl
      rw [if_neg hs]
      exact hsends _ _ hl

/-- **A test and its jump are written.** -/
theorem Writes.condJump_extends {op : Op} {a b c : Nat} {list : List Nat} {top : Nat}
    (hw : d.Waits list top) :
    Writes (Compile.condJump op a b c) d fun l d' => l = [d.pc + 1] ∧
      d.Extended [.ofABC op a b c, .ofAsBx .jmp 0 (-1)] d' := by
  refine Writes.bind (Writes.discard ?_)
  refine (Writes.emit_extends hw).imp fun _ d1 ⟨_, h₁⟩ => ?_
  refine Writes.jump.imp fun l d' ⟨hl, line, hd'⟩ => ?_
  have hnil : { d1 with here := [] } = d1 := by
    rw [h₁.rest]
  rw [hnil] at hd'
  subst hd'
  refine ⟨?_, h₁.snoc⟩
  rw [hl, h₁.here]
  simp [h₁.size, Draft.pc]

end Compile

/-! ## 4. What may become of the draft before a step -/

namespace CompletesAbove

open Draft

variable {k m : Nat} {p : Proto} {d d' : Draft} {list list' : List Nat} {top top' : Nat}

theorem aims {vt reg pt : Nat} {l : JumpList} (h : CompletesAbove k p d' list top)
    (ha : d.AimsAt vt reg pt l d') (hw : d.Waits (list ++ l) top) :
    CompletesAbove k p d (list ++ l) top ∧ ∀ j ∈ l, d.Lands p.code vt reg pt j := by
  have hhere : d'.here = d.here := by rw [ha.rest]
  have hpc : d'.pc = d.pc := ha.size
  have htarget : d'.lastTarget = d.lastTarget := by rw [ha.rest]
  have hl : ∀ j ∈ l, j ∉ list ++ d.here := by
    intro j hj hm
    have hperm : (list ++ l ++ d.here).Perm (l ++ (list ++ d.here)) := by
      rw [← List.append_assoc]
      exact List.perm_append_comm.append_right _
    exact (List.nodup_append.mp (hperm.nodup_iff.mp hw.nodup)).2.2 j hj j hm rfl
  have hlands : ∀ j ∈ l, d.Lands p.code vt reg pt j := by
    intro j hj
    have hland := ha.lands j hj
    have hjmp : d'.Jmp j := hland.jmp
    have hlt : j < top := hw.lt (List.mem_append_right _ hj)
    have hsends : ∀ dest, Sends d'.code j dest → Sends p.code j dest := by
      rintro dest ⟨i, hi, ho, hrest⟩
      refine ⟨i, h.same hi hlt ?_ (by rw [ho]; decide), ho, hrest⟩
      rw [hhere]
      exact hjmp.not_loose (hl j hj)
    unfold Lands at hland ⊢
    split
    · next hs =>
      rw [if_pos hs] at hland
      refine ⟨hsends _ hland.1, h.same hland.2 (by omega) ?_ (Instr.retarget_ne_loadNil hs.2)⟩
      rw [hhere]
      rintro (hm | ⟨hm, -⟩)
      · have hm' : j - 1 ∈ list ++ l ++ d.here := by
          rcases List.mem_append.mp hm with hm | hm <;> simp [hm]
        exact (hw.jumps _ hm').2.not_testSet hs.2
      · rw [Nat.sub_add_cancel hs.1] at hm
        exact hl j hj hm
    · next hs =>
      rw [if_neg hs] at hland
      exact hsends _ hland
  have htests : d.SameTests (list ++ d.here) d' :=
    SameTests.of_loose (fun j _ hn => ha.same _ hn)
      (fun j hj => ⟨hw.jmp (List.mem_append_right _ hj), (ha.lands j hj).jmp⟩)
      fun j hj hm => hl j hm hj
  have hmem : ∀ j, j ∈ list ++ l ++ d.here → j ∈ l ∨ j ∈ list ++ d'.here := by
    intro j hj
    rw [hhere]
    rcases List.mem_append.mp hj with hj | hj
    · exact (List.mem_append.mp hj).symm.imp_right (List.mem_append_left _)
    · exact .inr (List.mem_append_right _ hj)
  have hnils : ∀ pc, ¬ d.Loose l pc → d'.instr pc = d.instr pc := fun pc hn => instr_congr (ha.same pc hn)
  refine ⟨⟨fun pc i hi ht hn ho => ?_, fun j hj hs => ?_, fun ho hle => ?_, fun k c hk => ?_⟩, hlands⟩
  · have hn' : ¬ d.Loose l pc := fun hlo => hn (hlo.mono fun j hj => by simp [hj])
    refine h.code pc i ((ha.same pc hn').trans hi) ht (fun hlo => hn ?_) fun ⟨ho', hpc'⟩ => ho ⟨?_, by omega⟩
    · unfold Loose at hlo ⊢
      rw [hnils pc hn'] at hlo
      refine Loose.mono (d := d) hlo fun j hj => ?_
      rw [hhere] at hj
      rcases List.mem_append.mp hj with hj | hj <;> simp [hj]
    · refine (open_iff hpc htarget (hnils _ ?_)).mp ho'
      have : d.pc - 1 = pc := by omega
      rwa [this]
  · rcases hmem j hj with hj | hj
    · have hland := hlands j hj
      unfold Lands at hland
      rw [if_pos hs] at hland
      exact ⟨reg, hland.2⟩
    · have hj' : j ∈ list ++ d.here := by
        rw [← hhere]
        exact hj
      obtain ⟨hiff, hinstr⟩ := htests j hj'
      rw [← hinstr hs]
      exact h.tests j hj (hiff.mpr hs)
  · have hsame := hnils (d.pc - 1) (ho.not_loose fun j hj => hw.jmp (List.mem_append_right _ hj))
    have := h.nils ((open_iff hpc htarget hsame).mpr ho) (by rw [hpc]; exact hle)
    rwa [hpc, hsame] at this
  · exact h.constants k c (by rw [ha.rest]; exact hk)

theorem drops {l : JumpList} (h : CompletesAbove k p d' list top) (hd : d.Drops l d') (hw : d.Waits list top)
    (hl : ∀ j ∈ l, j ∈ list) : CompletesAbove k p d list top ∧
      ∀ j ∈ l, d.Sets j → p.code[j - 1]? = some ((d.instr (j - 1)).retarget noRegister) := by
  have hhere : d'.here = d.here := by rw [hd.rest]
  have hpc : d'.pc = d.pc := hd.size
  have htarget : d'.lastTarget = d.lastTarget := by rw [hd.rest]
  have hother : ∀ j, j ∉ l → 1 ≤ j → d'.instr (j - 1) = d.instr (j - 1) := by
    intro j hj hpos
    refine instr_congr (hd.same _ fun hc => hj ?_)
    rw [Nat.sub_add_cancel hpos] at hc
    exact hc.1
  have hdropped : ∀ j ∈ l, d.Sets j → p.code[j - 1]? = some ((d.instr (j - 1)).retarget noRegister) := by
    intro j hj hs
    have hcode := hd.tests j hj hs
    have hlt := hw.lt (hl j hj)
    refine h.same hcode (by omega) ?_ (Instr.retarget_ne_loadNil hs.2)
    rw [hhere]
    rintro (hm | ⟨-, ho⟩)
    · exact (hw.jumps _ hm).2.not_testSet hs.2
    · rw [instr_eq hcode] at ho
      simp [Instr.retarget] at ho
  have hnil : d.Open ∨ d'.Open → d'.instr (d.pc - 1) = d.instr (d.pc - 1) := by
    intro ho
    refine instr_congr (hd.same _ fun hc => ?_)
    have := (hw.jmp (hl _ hc.1)).lt
    have : 0 < d.pc := ho.elim (fun h => Nat.zero_lt_of_lt h.1) fun h => hpc ▸ Nat.zero_lt_of_lt h.1
    omega
  have hopen : d'.Open → d.Open := fun ho => (open_iff hpc htarget (hnil (.inr ho))).mp ho
  refine ⟨⟨fun pc i hi ht hn ho => ?_, fun j hj hs => ?_, fun ho hle => ?_, fun k c hk => ?_⟩, hdropped⟩
  · have hsame : d'.code[pc]? = d.code[pc]? :=
      hd.same pc fun hc => hn (.inr ⟨List.mem_append_left _ (hl _ hc.1), hc.2⟩)
    refine h.code pc i (hsame.trans hi) ht (fun hlo => hn ?_) fun h => ho ⟨hopen h.1, by omega⟩
    unfold Loose at hlo ⊢
    rw [instr_congr hsame, hhere] at hlo
    exact hlo
  · by_cases hjl : j ∈ l
    · exact ⟨noRegister, hdropped j hjl hs⟩
    · have hi := hother j hjl hs.1
      rw [← hi]
      exact h.tests j (by rw [hhere]; exact hj) ⟨hs.1, by rw [hi]; exact hs.2⟩
  · have hsame := hnil (.inl ho)
    have := h.nils ((open_iff hpc htarget hsame).mpr ho) (by rw [hpc]; exact hle)
    rwa [hpc, hsame] at this
  · exact h.constants k c (by rw [hd.rest]; exact hk)

/-- Instructions have been written. Jumps that wait were there before, or came with them. A LOADNIL that
    was there is widened no more. -/
theorem extended_marked {is : List Instr} (h : CompletesAbove k p d' list' top') (hx : d.Extended is d') (hne : is ≠ [])
    (hw : d.Waits list d.pc) (ht : d.pc ≤ top')
    (hl : ∀ j ∈ list', j ∈ list ∨ d.pc < j ∨ j = d.pc ∧ ¬ d'.Sets j) (hl' : ∀ j ∈ list, j ∈ list') :
    CompletesAbove m p { d with lastTarget := d.pc } list d.pc ∧ (∀ j ∈ d.here, d.Lands p.code d.pc noRegister d.pc j) ∧
      ∀ (n : Nat) (i : Instr), is[n]? = some i → d.pc + n < top' → ¬ d'.Loose list' (d.pc + n) →
        i.opcode ≠ .loadNil → p.code[d.pc + n]? = some i := by
  have hhere : d'.here = [] := hx.here
  have hpos := List.length_pos_iff.mpr hne
  have hpc : d'.code.size = d.pc + is.length := hx.size
  have hcode : ∀ pc i, d'.code[pc]? = some i → pc < top' → ¬ d'.Loose list' pc → ¬ (d'.Open ∧ pc + 1 = d'.pc) →
      p.code[pc]? = some i := by
    intro pc i hi ht hn
    exact h.code pc i hi ht (by rw [hhere, List.append_nil]; exact hn)
  -- no jump that came later stands right behind a TESTSET that was there
  have hnew : ∀ j ∈ list', j ∉ list → j ≤ d.pc → ¬ d'.Sets j := by
    intro j hj hn hle hs
    rcases hl j hj with hm | hm | ⟨-, hm⟩
    · exact hn hm
    · omega
    · exact hm hs
  have hold : ∀ j ∈ list', j < d.pc → j ∈ list := by
    intro j hj hlt
    rcases hl j hj with hm | hm | ⟨rfl, -⟩
    · exact hm
    · omega
    · omega
  -- all that was there stays, the last LOADNIL, too
  have hkept : ∀ pc i, d.code[pc]? = some i → pc < d.pc → ¬ d.Loose (list ++ d.here) pc → p.code[pc]? = some i := by
    intro pc i hi hlt hn
    have hsame : d'.code[pc]? = d.code[pc]? :=
      hx.same pc hlt fun hlo => hn (hlo.mono fun j hj => List.mem_append_right _ hj)
    refine hcode pc i (hsame.trans hi) (by omega) ?_ fun ⟨_, heq⟩ => by rw [Draft.pc] at heq; omega
    rintro (hm | ⟨hm, ho⟩)
    · exact hn (.inl (List.mem_append_left _ (hold pc hm hlt)))
    · by_cases hml : pc + 1 ∈ list
      · rw [instr_congr hsame] at ho
        exact hn (.inr ⟨List.mem_append_left _ hml, ho⟩)
      · exact hnew _ hm hml (by omega) ⟨by omega, by rw [Nat.add_sub_cancel]; exact ho⟩
  have hlands : ∀ j ∈ d.here, d.Lands p.code d.pc noRegister d.pc j := by
    intro j hj
    have hland := hx.lands j hj
    have hjmp : d'.Jmp j := hland.jmp
    have hlt : j < d.pc := (hw.jumps j (List.mem_append_right _ hj)).1
    have hjl : j ∉ list' := fun hm => hw.not_here (hold j hm hlt) hj
    have hsends : ∀ dest, Sends d'.code j dest → Sends p.code j dest := by
      rintro dest ⟨i, hi, hrest⟩
      exact ⟨i, hcode j i hi (by omega) (hjmp.not_loose hjl) fun ⟨_, heq⟩ => by rw [Draft.pc] at heq; omega, hrest⟩
    unfold Lands at hland ⊢
    split
    · next hs =>
      rw [if_pos hs] at hland
      refine ⟨hsends _ hland.1, hcode _ _ hland.2 (by omega) ?_ fun ⟨_, heq⟩ => by rw [Draft.pc] at heq; omega⟩
      rintro (hm | ⟨hm, -⟩)
      · exact (hw.jmp (hold _ hm (by omega))).not_testSet hs.2
      · rw [Nat.sub_add_cancel hs.1] at hm
        exact hjl hm
    · next hs =>
      rw [if_neg hs] at hland
      exact hsends _ hland
  have htests : ∀ j ∈ list ++ d.here, d.Sets j → ∃ reg, p.code[j - 1]? = some ((d.instr (j - 1)).retarget reg) := by
    intro j hj hs
    rcases List.mem_append.mp hj with hj | hj
    · obtain ⟨hiff, hinstr⟩ := hx.sameTests hw j hj
      rw [← hinstr hs]
      exact h.tests j (List.mem_append_left _ (hl' j hj)) (hiff.mpr hs)
    · have hland := hlands j hj
      unfold Lands at hland
      rw [if_pos hs] at hland
      exact ⟨noRegister, hland.2⟩
  refine ⟨⟨fun pc i hi hlt hn _ => hkept pc i hi hlt hn, htests, fun ho _ => absurd ho.1 (Nat.lt_irrefl _),
    fun k c hk => ?_⟩, hlands, fun n i hi hlt hn hnil => ?_⟩
  · exact h.constants k c (by rw [hx.rest]; exact hk)
  · have hn' := (List.getElem?_eq_some_iff.mp hi).1
    have hi' : d'.code[d.pc + n]? = some i := (hx.new n hn').trans hi
    refine h.same hi' hlt ?_ hnil
    rw [hhere, List.append_nil]
    exact hn

theorem extended {is : List Instr} (h : CompletesAbove k p d' list' top') (hx : d.Extended is d') (hne : is ≠ [])
    (hw : d.Waits list d.pc) (ht : d.pc ≤ top')
    (hl : ∀ j ∈ list', j ∈ list ∨ d.pc < j ∨ j = d.pc ∧ ¬ d'.Sets j) (hl' : ∀ j ∈ list, j ∈ list') :
    CompletesAbove m p d list d.pc ∧ (∀ j ∈ d.here, d.Lands p.code d.pc noRegister d.pc j) ∧
      ∀ (n : Nat) (i : Instr), is[n]? = some i → d.pc + n < top' → ¬ d'.Loose list' (d.pc + n) →
        i.opcode ≠ .loadNil → p.code[d.pc + n]? = some i :=
  have hmarked := h.extended_marked (m := m) hx hne hw ht hl hl'
  ⟨hmarked.1.marked (Nat.le_refl _) hw, hmarked.2⟩

theorem patched {l : JumpList} {target : Nat}
    (h : CompletesAbove k p { d with lastTarget := target, here := d.here ++ l } list d.pc) (ht : d.pc ≤ target)
    (hw : d.Waits (list ++ l) d.pc) : CompletesAbove m p d (list ++ l) d.pc := by
  have hmem : ∀ j, j ∈ list ++ l ++ d.here ↔ j ∈ list ++ (d.here ++ l) := by
    intro j
    simp only [List.mem_append, or_assoc]
    exact or_congr_right or_comm
  have h' : CompletesAbove k p { d with lastTarget := target } (list ++ l) d.pc :=
    ⟨fun pc i hi hlt hn => h.code pc i hi hlt fun hlo => hn (Loose.mono (d := d) hlo fun j => (hmem j).mpr),
      fun j hj => h.tests j ((hmem j).mp hj), h.nils, h.constants⟩
  exact h'.marked ht hw

end CompletesAbove

namespace Draft

variable {d d' : Draft} {list l : List Nat} {top vt reg pt : Nat} {is : List Instr}

theorem AimsAt.waits (h : d.AimsAt vt reg pt l d') (hw : d.Waits (list ++ l) top) : d'.Waits list top := by
  have hhere : d'.here = d.here := by rw [h.rest]
  have hperm : (list ++ l ++ d.here).Perm (l ++ (list ++ d.here)) := by
    rw [← List.append_assoc]
    exact List.perm_append_comm.append_right _
  have hnd := List.nodup_append.mp (hperm.nodup_iff.mp hw.nodup)
  refine ⟨?_, fun j hj => ?_, by rw [hhere]; exact hnd.2.1, ?_⟩
  · have := hw.le
    rw [Draft.pc, h.size]
    exact this
  · rw [hhere] at hj
    obtain ⟨hlt, hjmp⟩ := hw.jumps j (hperm.mem_iff.mpr (List.mem_append_right _ hj))
    refine ⟨hlt, hjmp.congr (h.same j (hjmp.not_loose fun hm => ?_))⟩
    exact hnd.2.2 j hm j hj rfl
  · rw [hhere, Draft.pc, h.size, h.rest]
    exact hw.target

theorem AimsAt.sameTests (h : d.AimsAt vt reg pt l d') (hw : d.Waits (list ++ l) top) :
    d.SameTests list d' := by
  refine SameTests.of_loose (fun j _ hn => h.same _ hn)
    (fun j hj => ⟨hw.jmp (List.mem_append_right _ hj), (h.lands j hj).jmp⟩) fun j hj hm => ?_
  exact (List.nodup_append.mp (List.nodup_append.mp hw.nodup).1).2.2 j hj j hm rfl

theorem AimsAt.sameTests_here (h : d.AimsAt vt reg pt l d') (hw : d.Waits (list ++ l) top) :
    d.SameTests d.here d' := by
  refine SameTests.of_loose (fun j _ hn => h.same _ hn)
    (fun j hj => ⟨hw.jmp (List.mem_append_right _ hj), (h.lands j hj).jmp⟩) fun j hj hm => ?_
  exact hw.not_here (List.mem_append_right _ hm) hj

theorem Drops.waits (h : d.Drops l d') (hw : d.Waits list top) : d'.Waits list top := by
  have hhere : d'.here = d.here := by rw [h.rest]
  refine ⟨?_, fun j hj => ?_, by rw [hhere]; exact hw.nodup, ?_⟩
  · have := hw.le
    rw [Draft.pc, h.size]
    exact this
  · rw [hhere] at hj
    obtain ⟨hlt, hjmp⟩ := hw.jumps j hj
    exact ⟨hlt, hjmp.congr (h.same j fun hc => hjmp.not_testSet hc.2)⟩
  · rw [hhere, Draft.pc, h.size, h.rest]
    exact hw.target

theorem Drops.sameTests (h : d.Drops l d') (hd : ∀ j ∈ list, j ∉ l) : d.SameTests list d' := by
  intro j hj
  by_cases hpos : 1 ≤ j
  · have hi : d'.instr (j - 1) = d.instr (j - 1) := by
      refine instr_congr (h.same _ fun hc => ?_)
      rw [Nat.sub_add_cancel hpos] at hc
      exact hd j hj hc.1
    exact ⟨by simp only [Sets, hi], fun _ => hi⟩
  · exact ⟨⟨fun hs => absurd hs.1 hpos, fun hs => absurd hs.1 hpos⟩, fun hs => absurd hs.1 hpos⟩

theorem Drops.not_sets (h : d.Drops l d') {j : Nat} (hj : j ∈ l) : ¬ d'.Sets j := by
  rintro ⟨hpos, ho⟩
  by_cases hs : d.Sets j
  · rw [instr_eq (h.tests j hj hs)] at ho
    simp [Instr.retarget] at ho
  · refine hs ⟨hpos, ?_⟩
    by_cases hset : (d.instr (j - 1)).opcode = .testSet
    · exact hset
    · rw [instr_congr (h.same (j - 1) fun hc => hset hc.2)] at ho
      exact ho

theorem Extended.pc (h : d.Extended is d') : d'.pc = d.pc + is.length := h.size

theorem Extended.waits (h : d.Extended is d') (hw : d.Waits list top) {top' : Nat} (ht : top ≤ top')
    (hle : top' ≤ d'.pc) : d'.Waits list top' :=
  hw.transfer hle ht (h.jmp hw) h.here

theorem Extended.waits_jump {i : Instr} (h : d.Extended [i, .ofAsBx .jmp 0 (-1)] d')
    (hw : d.Waits list d.pc) : d'.Waits (list ++ [d.pc + 1]) d'.pc := by
  have hpc : d'.pc = d.pc + 2 := h.pc
  have hjmp : d'.Jmp (d.pc + 1) :=
    ⟨_, h.new 1 (by simp), by simp, by simp⟩
  have hw' : d'.Waits list d.pc := h.waits hw (Nat.le_refl _) (by omega)
  have hhere : d'.here = [] := h.here
  refine ⟨Nat.le_refl _, fun j hj => ?_, ?_, fun hn => absurd hhere hn⟩
  · rw [hhere, List.append_nil, List.mem_append, List.mem_singleton] at hj
    rcases hj with hj | rfl
    · have := hw'.lt hj
      exact ⟨by omega, hw'.jmp hj⟩
    · exact ⟨by omega, hjmp⟩
  · rw [hhere, List.append_nil]
    refine List.nodup_append.mpr ⟨(List.nodup_append.mp hw.nodup).1, by simp, fun a ha b hb => ?_⟩
    have := hw'.lt ha
    rw [List.mem_singleton] at hb
    omega

theorem Waits.patched {target : Nat} (hw : d.Waits (list ++ l) d.pc) (ht : d.pc ≤ target) :
    { d with lastTarget := target, here := d.here ++ l }.Waits list d.pc := by
  have hperm : (list ++ l ++ d.here).Perm (list ++ (d.here ++ l)) := by
    rw [List.append_assoc]
    exact List.perm_append_comm.append_left _
  exact ⟨Nat.le_refl _, fun j hj => hw.jumps j (hperm.mem_iff.mpr hj), hperm.nodup_iff.mp hw.nodup, fun _ => ht⟩

end Draft

end LuaMachine
