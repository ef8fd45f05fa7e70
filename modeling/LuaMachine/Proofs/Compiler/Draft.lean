/-
  WHAT HOLDS OF A DRAFT between two steps of the compilation.
-/
import LuaMachine.Compiler.State
import LuaMachine.Proofs.Code.Fits

namespace LuaMachine

/-! ## 1. Instructions in a draft -/

namespace Op

def isPlain : Op → Bool
  | eq | lt | le | test | testSet | loadKx | setList | tforCall | loadBool => false
  | op => op.layout ≠ .asbx

def Becomes (op op' : Op) : Prop :=
  op' = op ∨ (op = testSet ∧ op' = test) ∨ (op = call ∧ op' = tailCall) ∨ op = not

theorem Becomes.refl (op : Op) : op.Becomes op := .inl rfl

theorem Becomes.trans {op op' op'' : Op} (h : op.Becomes op') (h' : op'.Becomes op'') :
    op.Becomes op'' := by
  unfold Becomes at *
  grind

end Op

namespace Instr

structure Plain (i : Instr) : Prop where
  known : Op.ofNat? i.op.val = some i.opcode
  followed : ∀ k next, i.Followed k next
  jumps : ∀ limit pc, i.Jumps limit pc
  skips : ∀ limit pc, i.Skips limit pc

structure OkAt (r : Room) (limit : Nat) (waits : Prop) (pc : Nat) (i : Instr) : Prop where
  known : Op.ofNat? i.op.val = some i.opcode
  fits : i.Fits r ∨ (i.opcode = .testSet ∧ i.b.val < r.registers ∧ waits)
  jumps : i.Jumps limit pc
  skips : i.Skips limit pc

structure Stands (i j : Instr) : Prop where
  before : ∀ k next, i.Followed k next → j.Followed k next
  after : ∀ (k : Nat) (h : Instr), h.Followed k (some i) → h.Followed k (some j)

theorem known_ofABC (op : Op) (a b c : Nat) :
    Op.ofNat? (ofABC op a b c).op.val = some (ofABC op a b c).opcode := by
  rw [opcode_ofABC]
  cases op <;> rfl

theorem plain_ofABC {op : Op} (h : op.isPlain) (a b c : Nat) : (ofABC op a b c).Plain := by
  refine ⟨known_ofABC .., fun k n => ?_, fun l pc => ?_, fun l pc => ?_⟩
  · unfold Followed
    rw [opcode_ofABC]
    cases op <;> first | trivial | exact absurd h (by decide)
  · unfold Jumps
    rw [opcode_ofABC]
    cases op <;> first | exact absurd h (by decide) | exact fun h => nomatch h
  · unfold Skips
    rw [opcode_ofABC]
    cases op <;> first | exact absurd h (by decide) | exact fun h => nomatch h

theorem plain_ofABx {op : Op} (h : op.isPlain) (a n : Nat) : (ofABx op a n).Plain :=
  plain_ofABC h ..

theorem plain_loadBool (a b : Nat) : (ofABC .loadBool a b 0).Plain := by
  refine ⟨known_ofABC .., fun k n => ?_, fun l pc h => ?_, fun l pc _ h => absurd rfl h⟩
  · simp [Followed]
  · simp [Op.layout] at h

theorem plain_setList (a b : Nat) {c : Nat} (h : 0 < c) (hc : c ≤ maxC) :
    (ofABC .setList a b c).Plain := by
  have hc : (ofABC .setList a b c).c.val = c := by
    rw [c_ofABC]
    simp only [maxC] at hc
    omega
  refine ⟨known_ofABC .., fun k n => ?_, fun l pc h => ?_, fun l pc h => ?_⟩
  · simp only [Followed, opcode_ofABC, hc]
    omega
  · simp [Op.layout] at h
  · simp at h

theorem Plain.okAt {r : Room} {i : Instr} (h : i.Plain) (hf : i.Fits r) (limit pc : Nat)
    (waits : Prop) : i.OkAt r limit waits pc :=
  ⟨h.known, .inl hf, h.jumps _ _, h.skips _ _⟩

theorem Followed.mono {k k' : Nat} {next : Option Instr} {i : Instr} (h : i.Followed k next)
    (hk : k ≤ k') : i.Followed k' next := by
  unfold Followed at *
  split
  case h_6 ho =>
    simp only [ho] at h
    obtain ⟨j, h1, h2, h3⟩ := h
    exact ⟨j, h1, h2, by omega⟩
  all_goals simp_all

theorem Followed.of_last {k : Nat} {i : Instr} (h : i.Followed k none) (next : Option Instr) :
    i.Followed k next := by
  unfold Followed at *
  split <;> simp_all

theorem OkAt.mono {r r' : Room} {l l' pc : Nat} {w w' : Prop} {i : Instr} (h : i.OkAt r l w pc)
    (hr : r.Le r') (hl : l ≤ l') (hw : w → w') : i.OkAt r' l' w' pc := by
  refine ⟨h.known, ?_, fun ha => ?_, fun ha hc => ?_⟩
  · rcases h.fits with hf | ⟨ho, hb, hv⟩
    · exact .inl (hf.mono hr)
    · exact .inr ⟨ho, Nat.lt_of_lt_of_le hb hr.registers, hw hv⟩
  · have := h.jumps ha
    omega
  · have := h.skips ha hc
    omega

theorem Stands.of_opcode {i j : Instr} (h : j.opcode = i.opcode) (h1 : i.opcode ≠ .setList)
    (h2 : i.opcode ≠ .extraArg) : i.Stands j := by
  refine ⟨fun k next hi => ?_, fun k g hg => ?_⟩
  · unfold Followed at *
    rw [h]
    split <;> simp_all
  · unfold Followed at *
    split at hg <;> simp_all

theorem Stands.of_test {i j : Instr} (h : i.opcode = .testSet) (hj : j.opcode = .test) :
    i.Stands j := by
  refine ⟨fun k next hi => ?_, fun k g hg => ?_⟩
  · simp only [Followed, h, hj] at *
    exact hi
  · unfold Followed at *
    split at hg <;> simp_all

theorem Stands.of_tailCall {i j : Instr} (h : i.opcode = .call) (hj : j.opcode = .tailCall) :
    i.Stands j := by
  refine ⟨fun k next hi => ?_, fun k g hg => ?_⟩
  · simp only [Followed, hj]
  · unfold Followed at *
    split at hg <;> simp_all

end Instr

/-! ## 2. Finished functions -/

namespace Proto

structure Made (source : Bytes) (p : Proto) : Prop extends p.Sound where
  source_eq : p.source = some source
  lines : p.lines.size = p.code.size
  constants : p.constants.size ≤ Instr.maxAx + 1
  protos : p.protos.length ≤ Instr.maxBx
  upvalues : p.upvalues.length ≤ 255

end Proto

/-! ## 3. Drafts -/

namespace Draft

def room (d : Draft) (registers : Nat) : Room :=
  ⟨registers, d.constants.size, d.upvalues.size, d.protos.toList⟩

def OpAt (d : Draft) (pc : Nat) (op : Op) : Prop := ∃ i, d.code[pc]? = some i ∧ i.opcode = op

def JumpAt (d : Draft) (pc : Nat) : Prop :=
  ∃ i, d.code[pc]? = some i ∧ i.opcode.layout = .asbx

/-- The code fits `registers`, jumps up to `limit`, and each TESTSET without its register stands
    before a jump that waits. -/
structure Written (registers limit : Nat) (waiting : Nat → Prop) (d : Draft) : Prop where
  lines : d.lines.size = d.code.size
  instr : ∀ (pc : Nat) (i : Instr), d.code[pc]? = some i →
    i.OkAt (d.room registers) limit (waiting (pc + 1)) pc
  followed : ∀ (pc : Nat) (i : Instr), d.code[pc]? = some i →
    i.Followed d.constants.size d.code[pc + 1]?

/-- What a draft has is in bounds; the functions nested in it are of this source and of at most
    `depth` levels. -/
structure Stocked (source : Bytes) (depth : Nat) (d : Draft) : Prop where
  low : 2 ≤ d.maxStack
  high : d.maxStack ≤ 254
  free : d.free ≤ d.maxStack
  constants : d.constants.size ≤ Instr.maxAx + 1
  upvalues : d.upvalues.size ≤ 255
  count : d.protos.size ≤ Instr.maxBx
  protos : ∀ p ∈ d.protos, p.All (Proto.Made source) ∧ p.Within depth
  captured : ∀ b ∈ d.blocks, b.captured → b.active < max d.maxStack d.active

/-- What holds of a draft between two steps, for code that fits `registers`, when the jumps in
    `waiting` are kept somewhere else. -/
structure GoodFor (registers : Nat) (source : Bytes) (depth : Nat) (waiting : Nat → Prop)
    (d : Draft) : Prop where
  written : d.Written registers d.code.size fun n => waiting n ∨ n ∈ d.here
  stocked : d.Stocked source depth
  here : ∀ n ∈ d.here, d.OpAt n .jmp

abbrev Good (source : Bytes) (depth : Nat) (waiting : Nat → Prop) (d : Draft) : Prop :=
  d.GoodFor d.maxStack source depth waiting

def Kept (d d' : Draft) : Prop :=
  ∀ (pc : Nat) (i : Instr), d.code[pc]? = some i →
    ∃ j, d'.code[pc]? = some j ∧ i.opcode.Becomes j.opcode

/-- What writing code leaves alone. -/
structure Extends (d d' : Draft) : Prop where
  kept : d.Kept d'
  maxStack : d.maxStack ≤ d'.maxStack
  constants : d.constants.size ≤ d'.constants.size
  upvalues : d'.upvalues = d.upvalues
  protos : d'.protos = d.protos
  params : d'.params = d.params
  active : d'.active = d.active
  blocks : d'.blocks = d.blocks
  labels : d'.labels = d.labels
  gotos : d'.gotos = d.gotos

structure Steady (d d' : Draft) : Prop extends d.Extends d' where
  maxStack_eq : d'.maxStack = d.maxStack
  constants_eq : d'.constants = d.constants
  free_eq : d'.free = d.free

variable {d d' : Draft}

theorem OpAt.lt {pc : Nat} {op : Op} (h : d.OpAt pc op) : pc < d.code.size := by
  obtain ⟨i, hi, -⟩ := h
  exact (Array.getElem?_eq_some_iff.mp hi).1

theorem JumpAt.lt {pc : Nat} (h : d.JumpAt pc) : pc < d.code.size := by
  obtain ⟨i, hi, -⟩ := h
  exact (Array.getElem?_eq_some_iff.mp hi).1

theorem OpAt.jumpAt {pc : Nat} (h : d.OpAt pc .jmp) : d.JumpAt pc := by
  obtain ⟨i, hi, ho⟩ := h
  exact ⟨i, hi, by rw [ho]; rfl⟩

/-! ### Code that grows -/

theorem Kept.refl (d : Draft) : d.Kept d := fun _ i h => ⟨i, h, .refl _⟩

theorem Kept.trans {d'' : Draft} (h : d.Kept d') (h' : d'.Kept d'') : d.Kept d'' := by
  intro pc i hi
  obtain ⟨j, hj, hb⟩ := h pc i hi
  obtain ⟨k, hk, hc⟩ := h' pc j hj
  exact ⟨k, hk, hb.trans hc⟩

theorem Kept.size (h : d.Kept d') : d.code.size ≤ d'.code.size := by
  rcases Nat.eq_zero_or_pos d.code.size with h0 | h0
  · omega
  · obtain ⟨j, hj, -⟩ := h (d.code.size - 1) _ (Array.getElem?_eq_getElem (by omega))
    have := (Array.getElem?_eq_some_iff.mp hj).1
    omega

theorem OpAt.kept {pc : Nat} {op : Op} (h : d.OpAt pc op) (hk : d.Kept d') (h1 : op ≠ .testSet)
    (h2 : op ≠ .call) (h3 : op ≠ .not) : d'.OpAt pc op := by
  obtain ⟨i, hi, ho⟩ := h
  obtain ⟨j, hj, hb⟩ := hk pc i hi
  rw [ho] at hb
  refine ⟨j, hj, ?_⟩
  rcases hb with hb | ⟨hb, -⟩ | ⟨hb, -⟩ | hb
  · exact hb
  · exact absurd hb h1
  · exact absurd hb h2
  · exact absurd hb h3

theorem OpAt.kept_jmp {pc : Nat} (h : d.OpAt pc .jmp) (hk : d.Kept d') : d'.OpAt pc .jmp :=
  h.kept hk (by decide) (by decide) (by decide)

theorem JumpAt.kept {pc : Nat} (h : d.JumpAt pc) (hk : d.Kept d') : d'.JumpAt pc := by
  obtain ⟨i, hi, hl⟩ := h
  obtain ⟨j, hj, hb⟩ := hk pc i hi
  refine ⟨j, hj, ?_⟩
  rcases hb with hb | ⟨hb, -⟩ | ⟨hb, -⟩ | hb
  · rw [hb]
    exact hl
  all_goals
    rw [hb] at hl
    exact nomatch hl

theorem Extends.refl (d : Draft) : d.Extends d :=
  ⟨.refl d, Nat.le_refl _, Nat.le_refl _, rfl, rfl, rfl, rfl, rfl, rfl, rfl⟩

theorem Extends.trans {d'' : Draft} (h : d.Extends d') (h' : d'.Extends d'') : d.Extends d'' where
  kept := h.kept.trans h'.kept
  maxStack := Nat.le_trans h.maxStack h'.maxStack
  constants := Nat.le_trans h.constants h'.constants
  upvalues := h'.upvalues.trans h.upvalues
  protos := h'.protos.trans h.protos
  params := h'.params.trans h.params
  active := h'.active.trans h.active
  blocks := h'.blocks.trans h.blocks
  labels := h'.labels.trans h.labels
  gotos := h'.gotos.trans h.gotos

theorem Extends.size (h : d.Extends d') : d.code.size ≤ d'.code.size := h.kept.size

theorem Steady.refl (d : Draft) : d.Steady d := ⟨.refl d, rfl, rfl, rfl⟩

theorem Steady.trans {d'' : Draft} (h : d.Steady d') (h' : d'.Steady d'') : d.Steady d'' where
  toExtends := h.toExtends.trans h'.toExtends
  maxStack_eq := h'.maxStack_eq.trans h.maxStack_eq
  constants_eq := h'.constants_eq.trans h.constants_eq
  free_eq := h'.free_eq.trans h.free_eq

theorem Steady.of_code (hc : d'.code = d.code) (hm : d'.maxStack = d.maxStack)
    (hk : d'.constants = d.constants) (hf : d'.free = d.free) (hu : d'.upvalues = d.upvalues)
    (hp : d'.protos = d.protos) (hn : d'.params = d.params) (ha : d'.active = d.active)
    (hb : d'.blocks = d.blocks) (hl : d'.labels = d.labels) (hg : d'.gotos = d.gotos) :
    d.Steady d' :=
  ⟨⟨fun _ i hi => ⟨i, by rw [hc]; exact hi, .refl _⟩, Nat.le_of_eq (by rw [hm]),
    Nat.le_of_eq (by rw [hk]), hu, hp, hn, ha, hb, hl, hg⟩, hm, hk, hf⟩

theorem Stocked.steady {source : Bytes} {depth : Nat} (h : d.Stocked source depth)
    (hs : d.Steady d') : d'.Stocked source depth where
  low := by rw [hs.maxStack_eq]; exact h.low
  high := by rw [hs.maxStack_eq]; exact h.high
  free := by rw [hs.maxStack_eq, hs.free_eq]; exact h.free
  constants := by rw [hs.constants_eq]; exact h.constants
  upvalues := by rw [hs.upvalues]; exact h.upvalues
  count := by rw [hs.protos]; exact h.count
  protos := by rw [hs.protos]; exact h.protos
  captured := by rw [hs.blocks, hs.maxStack_eq, hs.active]; exact h.captured

theorem Steady.room (h : d.Steady d') (registers : Nat) : d'.room registers = d.room registers := by
  simp [Draft.room, h.constants_eq, h.upvalues, h.protos]

/-! ### Changes to the code -/

section Written

variable {registers registers' limit limit' line pc : Nat} {waiting waiting' : Nat → Prop}
  {i j : Instr} {f : Instr → Instr}

theorem Written.transport (h : d.Written registers limit waiting) (hc : d'.code = d.code)
    (hl : d'.lines.size = d.lines.size) (hr : (d.room registers).Le (d'.room registers'))
    (hL : limit ≤ limit') (hw : ∀ n, waiting n → waiting' n) :
    d'.Written registers' limit' waiting' := by
  refine ⟨by rw [hl, hc, h.lines], fun pc i hi => ?_, fun pc i hi => ?_⟩
  · rw [hc] at hi
    exact (h.instr pc i hi).mono hr hL (hw _)
  · rw [hc] at hi ⊢
    exact (h.followed pc i hi).mono hr.constants

theorem Written.mono (h : d.Written registers limit waiting) (hr : registers ≤ registers')
    (hL : limit ≤ limit') (hw : ∀ n, waiting n → waiting' n) :
    d.Written registers' limit' waiting' :=
  h.transport rfl rfl ⟨hr, Nat.le_refl _, Nat.le_refl _, List.prefix_refl _⟩ hL hw

def push (d : Draft) (i : Instr) (line : Nat) : Draft :=
  { d with code := d.code.push i, lines := d.lines.push line }

theorem Written.push (h : d.Written registers limit waiting) (hL : limit ≤ limit')
    (hi : i.OkAt (d.room registers) limit' (waiting (d.code.size + 1)) d.code.size)
    (hf : i.Followed d.constants.size none) : (d.push i line).Written registers limit' waiting := by
  refine ⟨by simp [Draft.push, h.lines], fun pc k hk => ?_, fun pc k hk => ?_⟩
  · simp only [Draft.push, Array.getElem?_push] at hk
    split at hk
    · next he =>
      cases hk
      rw [he]
      exact hi
    · exact (h.instr pc k hk).mono (.refl _) hL id
  · simp only [Draft.push, Array.getElem?_push] at hk ⊢
    split at hk
    · next he =>
      cases hk
      rw [if_neg (by omega), Array.getElem?_eq_none (by omega)]
      exact hf
    · have hlt := (Array.getElem?_eq_some_iff.mp hk).1
      split
      · next he =>
        have hl := h.followed pc k hk
        rw [Array.getElem?_eq_none (by omega)] at hl
        exact hl.of_last _
      · exact h.followed pc k hk

theorem Written.pushTwo {line' : Nat} (h : d.Written registers limit waiting) (hL : limit ≤ limit')
    (hi : i.OkAt (d.room registers) limit' (waiting (d.code.size + 1)) d.code.size)
    (hj : j.OkAt (d.room registers) limit' (waiting (d.code.size + 2)) (d.code.size + 1))
    (hf : i.Followed d.constants.size (some j)) (hg : j.Followed d.constants.size none) :
    ((d.push i line).push j line').Written registers limit' waiting := by
  refine ⟨by simp [Draft.push, h.lines], fun pc k hk => ?_, fun pc k hk => ?_⟩
  · simp only [Draft.push, Array.getElem?_push, Array.size_push] at hk
    split at hk
    · next he =>
      cases hk
      rw [he]
      exact hj
    · split at hk
      · next he =>
        cases hk
        rw [he]
        exact hi
      · exact (h.instr pc k hk).mono (.refl _) hL id
  · simp only [Draft.push, Array.getElem?_push, Array.size_push] at hk ⊢
    split at hk
    · next he =>
      cases hk
      rw [if_neg (by omega), if_neg (by omega), Array.getElem?_eq_none (by omega)]
      exact hg
    · split at hk
      · next he =>
        cases hk
        rw [if_pos (by omega)]
        exact hf
      · have hlt := (Array.getElem?_eq_some_iff.mp hk).1
        rw [if_neg (by omega)]
        split
        · next he =>
          have hl := h.followed pc k hk
          rw [Array.getElem?_eq_none (by omega)] at hl
          exact hl.of_last _
        · exact h.followed pc k hk

theorem Written.mapInstr (h : d.Written registers limit waiting)
    (hw : ∀ n, n ≠ pc + 1 → waiting n → waiting' n)
    (hf : ∀ i, d.code[pc]? = some i →
      (f i).OkAt (d.room registers) limit (waiting' (pc + 1)) pc ∧ i.Stands (f i)) :
    (d.mapInstr pc f).Written registers limit waiting' := by
  refine ⟨by simp [Draft.mapInstr, h.lines], fun n k hk => ?_, fun n k hk => ?_⟩
  · simp only [Draft.mapInstr, Array.getElem?_modify] at hk
    split at hk
    · next he =>
      subst he
      obtain ⟨i, hi, rfl⟩ := Option.map_eq_some_iff.mp hk
      exact (hf i hi).1
    · next he => exact (h.instr n k hk).mono (.refl _) (Nat.le_refl _) (hw _ (by omega))
  · -- the word itself may have changed, or the one after it, but not both
    simp only [Draft.mapInstr, Array.getElem?_modify] at hk ⊢
    split at hk
    · next he =>
      subst he
      obtain ⟨i, hi, rfl⟩ := Option.map_eq_some_iff.mp hk
      rw [if_neg (by omega)]
      exact (hf i hi).2.before _ _ (h.followed _ i hi)
    · split
      · next he =>
        have hl := h.followed n k hk
        rw [← he] at hl ⊢
        cases hp : d.code[pc]? with
        | none =>
          rw [hp] at hl
          exact hl
        | some i =>
          rw [hp] at hl
          exact (hf i hp).2.after _ _ hl
      · exact h.followed n k hk

theorem Written.pop (h : d.Written registers limit waiting) (hn : d.OpAt (d.code.size - 1) .not) :
    { d with code := d.code.pop, lines := d.lines.pop }.Written registers limit waiting := by
  obtain ⟨k, hk, ho⟩ := hn
  refine ⟨by simp [h.lines], fun pc i hi => ?_, fun pc i hi => ?_⟩
  · rw [Array.getElem?_pop] at hi
    split at hi
    · exact h.instr pc i hi
    · exact nomatch hi
  · simp only [Array.getElem?_pop] at hi ⊢
    split at hi
    · have hl := h.followed pc i hi
      split
      · exact hl
      · -- nothing wants a NOT after it
        have he : pc + 1 = d.code.size - 1 := by omega
        rw [he, hk] at hl
        unfold Instr.Followed at *
        split at hl <;> simp_all
    · exact nomatch hi

end Written

/-! ### The end of a function -/

/-- **A draft whose jumps are all aimed, with a RETURN at its end, is a function fit to run.** -/
theorem finish_made {source : Bytes} {depth : Nat} (hs : d.Stocked source depth)
    (hw : d.Written d.maxStack (d.code.size - 1) fun _ => False) (hp : d.params ≤ d.maxStack)
    (he : ∃ i, d.code.back? = some i ∧ i.opcode = .ret) :
    (d.finish source).All (Proto.Made source) ∧ (d.finish source).Within (depth + 1) := by
  have hm : (UInt8.ofNat d.maxStack).toNat = d.maxStack := by
    have := hs.high
    rw [UInt8.toNat_ofNat']
    omega
  have hroom : (d.finish source).room = d.room d.maxStack := by
    simp [Proto.room, Draft.room, finish, hm]
  have hparams : (d.finish source).params.toNat ≤ (d.finish source).maxStack.toNat := by
    simp only [finish, hm, UInt8.toNat_ofNat']
    omega
  refine ⟨.mk ⟨⟨hparams, fun pc i hi => (hw.instr pc i hi).known, fun pc i hi => ?_,
    fun pc i hi => hw.followed pc i hi, fun pc i hi => (hw.instr pc i hi).jumps,
    fun pc i hi => (hw.instr pc i hi).skips, he⟩, rfl, by simp [finish, hw.lines], hs.constants,
    by simpa [finish] using hs.count, by simpa [finish] using hs.upvalues⟩ ?_, ?_⟩
  · rw [hroom]
    exact (hw.instr pc i hi).fits.resolve_right fun h => h.2.2
  · intro q hq
    exact (hs.protos q (by simpa [finish] using hq)).1
  · intro q hq
    exact (hs.protos q (by simpa [finish] using hq)).2

end Draft

end LuaMachine
