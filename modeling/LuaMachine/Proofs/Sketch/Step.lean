/-
  WHAT MAY BE DONE TO A FUNCTION THAT IS BEING WRITTEN, one thing at a time. Beside its draft a sketch has
  the places that jumps may go to, and the register of every local.
-/
import Mathlib.Logic.Relation
import LuaMachine.Proofs.Code.Flow
import LuaMachine.Proofs.Compiler.Block

namespace LuaMachine

/-! ## 1. Instructions -/

theorem Op.skips_of_layout {op : Op} (h : op.layout = .asbx) : op.skips = false := by
  cases op <;> first | rfl | cases h

def Op.isMild (op : Op) : Bool := decide (op.layout ≠ .asbx) && decide (op ≠ .loadNil) && !op.skips

theorem Op.isMild_iff {op : Op} : op.isMild = true ↔ op.layout ≠ .asbx ∧ op ≠ .loadNil ∧ op.skips = false := by
  simp [Op.isMild, and_assoc]

namespace Instr

def skipsNext (i : Instr) : Bool :=
  match i.opcode with
  | .loadBool => decide (i.c.val ≠ 0)
  | .setList => decide (i.c.val = 0)
  | op => op.skips

theorem skips_of_skipsNext {i : Instr} (h : i.skipsNext = true) : i.opcode.skips = true := by
  unfold skipsNext at h
  split at h
  · next hop => rw [hop]; rfl
  · next hop => rw [hop]; rfl
  · exact h

structure Raw (i : Instr) : Prop where
  aimless : i.opcode.layout = .asbx → i.sbx = -1
  clears : i.opcode = .loadNil → i.a.val + i.b.val < 255

/-- What may become of an instruction at the place `n`, when jumps may go to `targets`. -/
inductive Turn (targets : List Nat) (n : Nat) : Instr → Instr → Prop where
  /-- What neither jumps nor skips nor clears is given other operands. -/
  | operands {i j : Instr} (hi : i.opcode.isMild = true) (hop : j.opcode = i.opcode) : Turn targets n i j
  /-- What is no LOADNIL is given another register. -/
  | register {i : Instr} {a : Nat} (hnil : i.opcode ≠ .loadNil) : Turn targets n i (i.setA a)
  /-- A test no longer sets a register. -/
  | test {i j : Instr} (hi : i.opcode = .testSet) (hj : j.opcode = .test) : Turn targets n i j
  /-- A call becomes a tail call. -/
  | tail {i j : Instr} (hi : i.opcode = .call) (hj : j.opcode = .tailCall) : Turn targets n i j
  /-- A jump is aimed. -/
  | aim {i : Instr} {dest : Nat} (hi : i.opcode.layout = .asbx) (hdest : dest ∈ targets)
    (hreach : Compile.reaches n dest = true) : Turn targets n i (i.setSbx ((dest : Int) - (n + 1)))

structure Widens (i j : Instr) : Prop where
  before : i.opcode = .loadNil
  after : j.opcode = .loadNil
  first : j.a.val ≤ i.a.val
  last : i.a.val + i.b.val ≤ j.a.val + j.b.val
  room : j.a.val + j.b.val < 255

namespace Turn

variable {targets : List Nat} {n : Nat} {i j : Instr}

theorem opcode (h : i.Turn targets n j) :
    j.opcode = i.opcode ∨ i.opcode = .testSet ∧ j.opcode = .test ∨ i.opcode = .call ∧ j.opcode = .tailCall := by
  cases h with
  | operands _ hop => exact .inl hop
  | register | aim => exact .inl rfl
  | test hi hj => exact .inr (.inl ⟨hi, hj⟩)
  | tail hi hj => exact .inr (.inr ⟨hi, hj⟩)

theorem opcode_eq {op : Op} (h : i.Turn targets n j) (h1 : op ≠ .test) (h2 : op ≠ .tailCall) (hj : j.opcode = op) :
    i.opcode = op := by
  rcases h.opcode with hop | ⟨-, hop⟩ | ⟨-, hop⟩
  · rw [← hop, hj]
  · exact absurd (hj.symm.trans hop) h1
  · exact absurd (hj.symm.trans hop) h2

theorem layout (h : i.Turn targets n j) : j.opcode.layout = .asbx ↔ i.opcode.layout = .asbx := by
  rcases h.opcode with hop | ⟨hi, hj⟩ | ⟨hi, hj⟩
  · rw [hop]
  · simp [hi, hj, Op.layout]
  · simp [hi, hj, Op.layout]

theorem opcode_ne {op : Op} (h : i.Turn targets n j) (h1 : op ≠ .test) (h2 : op ≠ .tailCall) (hi : i.opcode ≠ op) :
    j.opcode ≠ op := fun hj => hi (h.opcode_eq h1 h2 hj)

theorem skipsNext (h : i.Turn targets n j) (hj : j.skipsNext = true) : i.skipsNext = true := by
  have hskips := skips_of_skipsNext hj
  cases h with
  | operands hi hop =>
    rw [hop, (Op.isMild_iff.mp hi).2.2] at hskips
    cases hskips
  | register => exact hj
  | test hi =>
    unfold Instr.skipsNext
    rw [hi]
    rfl
  | tail _ hj' =>
    rw [hj'] at hskips
    cases hskips
  | aim hi =>
    rw [Instr.opcode_setSbx, Op.skips_of_layout hi] at hskips
    cases hskips

end Turn

end Instr

namespace Draft

def HoldsAt (d : Draft) (n : Nat) (P : Instr → Prop) : Prop := ∃ i, d.code[n]? = some i ∧ P i

variable {d : Draft} {n : Nat} {P : Instr → Prop}

theorem HoldsAt.lt (h : d.HoldsAt n P) : n < d.pc := by
  obtain ⟨i, hi, -⟩ := h
  exact (Array.getElem?_eq_some_iff.mp hi).1

theorem HoldsAt.imp {Q : Instr → Prop} (h : d.HoldsAt n P) (hPQ : ∀ i, P i → Q i) : d.HoldsAt n Q := by
  obtain ⟨i, hi, hP⟩ := h
  exact ⟨i, hi, hPQ i hP⟩

theorem pc_push (d : Draft) (i : Instr) (line : Nat) : (d.push i line).pc = d.pc + 1 := Array.size_push _

/-- Clearing registers widens the last instruction: it clears registers that touch these, and no place behind it is
    marked. -/
def Merges (d : Draft) (start n : Nat) : Prop :=
  let prev := d.instr (d.pc - 1)
  d.lastTarget < d.pc ∧ prev.opcode = .loadNil ∧
    ((prev.a.val ≤ start ∧ start ≤ prev.a.val + prev.b.val + 1) ∨
      (start ≤ prev.a.val ∧ prev.a.val ≤ start + n - 1 + 1))

def widened (d : Draft) (start n : Nat) : Draft :=
  let prev := d.instr (d.pc - 1)
  let first := min start prev.a.val
  d.mapInstr (d.pc - 1) fun i => (i.setA first).setB (max (start + n - 1) (prev.a.val + prev.b.val) - first)

theorem pc_widened (d : Draft) (start m : Nat) : (d.widened start m).pc = d.pc := Array.size_modify ..

/-- **What is widened clears what it has cleared and the other registers, and nothing else.** -/
theorem Merges.widens {start m : Nat} (h : d.Merges start m) (hm : 1 ≤ m) (hroom : start + m ≤ 255)
    (hprev : d.HoldsAt (d.pc - 1) fun i => i.a.val + i.b.val < 255) : ∃ i j, d.code[d.pc - 1]? = some i ∧
      (∀ k, (d.widened start m).code[k]? = if k = d.pc - 1 then some j else d.code[k]?) ∧ i.Widens j ∧
      ∀ r, j.a.val ≤ r ∧ r ≤ j.a.val + j.b.val ↔
        (i.a.val ≤ r ∧ r ≤ i.a.val + i.b.val) ∨ (start ≤ r ∧ r < start + m) := by
  obtain ⟨i, hi, hsmall⟩ := hprev
  obtain ⟨-, hop, htouch⟩ := h
  rw [instr_eq hi] at hop htouch
  have ha : ((i.setA (min start i.a.val)).setB
      (max (start + m - 1) (i.a.val + i.b.val) - min start i.a.val)).a.val = min start i.a.val := by
    rw [Instr.a_setB, Instr.a_setA]
    omega
  have hb : ((i.setA (min start i.a.val)).setB
      (max (start + m - 1) (i.a.val + i.b.val) - min start i.a.val)).b.val =
      max (start + m - 1) (i.a.val + i.b.val) - min start i.a.val := by
    rw [Instr.b_setB]
    omega
  refine ⟨i, (i.setA (min start i.a.val)).setB (max (start + m - 1) (i.a.val + i.b.val) - min start i.a.val), hi,
    fun k => ?_, ⟨hop, hop, ?_, ?_, ?_⟩, fun r => ?_⟩
  · simp only [widened, mapInstr, instr_eq hi, Array.getElem?_modify]
    by_cases hk : k = d.pc - 1
    · rw [if_pos hk.symm, if_pos hk, hk, hi]
      rfl
    · rw [if_neg fun h => hk h.symm, if_neg hk]
  · rw [ha]
    omega
  · rw [ha, hb]
    omega
  · rw [ha, hb]
    omega
  · rw [ha, hb]
    omega

def alive (d : Draft) : List Nat := d.declared.toList.take d.active

def begun (d : Draft) : Nat := d.locals.size - (d.declared.size - d.active)

end Draft

/-! ## 2. Steps -/

/-- A function that is being written. -/
structure Sketch where
  draft : Draft
  /-- Places that jumps may go to. -/
  targets : List Nat
  /-- Where the bodies of the loops begin that are being read, innermost first. -/
  heads : List Nat
  /-- The register of each local. -/
  homes : List Nat

namespace Sketch

/-- A draft with the same code and the same locals, whatever else has been noted in it. Its labels are at places that
    jumps may go to, and its gotos are jumps. -/
structure Keeps (u : Sketch) (d : Draft) : Prop where
  code : d.code = u.draft.code
  here : d.here = u.draft.here
  lastTarget : d.lastTarget = u.draft.lastTarget
  locals : d.locals = u.draft.locals
  declared : d.declared = u.draft.declared
  active : d.active = u.draft.active
  blocks : d.blocks.map (·.active) = u.draft.blocks.map (·.active)
  maxStack : d.maxStack ≤ max u.draft.maxStack 254
  labels : ∀ l ∈ d.labels, l ∈ u.draft.labels ∨ l.pc ∈ u.targets
  gotos : ∀ g ∈ d.gotos, g ∈ u.draft.gotos ∨ ∀ n ∈ g.jumps, u.draft.JumpAt n

/-- One thing done to a function that is being written; `scope` says whether it may concern its scopes. -/
inductive Step (scope : Bool) : Sketch → Sketch → Prop where
  /-- An instruction is written that does not skip; no jump waits to arrive at it. -/
  | write {u : Sketch} {i : Instr} {line : Nat} (hhere : u.draft.here = []) (hi : i.Raw) (hskip : i.skipsNext = false) :
    Step scope u { u with draft := u.draft.push i line }
  /-- An instruction is written with the one that it may skip, which clears nothing. -/
  | pair {u : Sketch} {i j : Instr} {line : Nat} (hhere : u.draft.here = []) (hi : i.Raw) (hj : j.Raw)
    (hskip : j.skipsNext = false) (hnil : j.opcode ≠ .loadNil) (hnot : j.opcode ≠ .not) :
    Step scope u { u with draft := (u.draft.push i line).push j line }
  /-- Something becomes of an instruction. -/
  | turn {u : Sketch} {n : Nat} {f : Instr → Instr}
    (h : ∀ i, u.draft.code[n]? = some i → i.Turn u.targets n (f i)) :
    Step scope u { u with draft := u.draft.mapInstr n f }
  /-- The last instruction clears more registers. -/
  | merge {u : Sketch} {start n : Nat} (h : u.draft.Merges start n) (hn : 1 ≤ n) (hroom : start + n ≤ 255)
    (hprev : u.draft.HoldsAt (u.draft.pc - 1) fun i => i.a.val + i.b.val < 255) :
    Step scope u { u with draft := u.draft.widened start n }
  /-- A NOT is taken back behind which nothing is marked and no life begins or ends. -/
  | takeBack {u : Sketch} (hnot : u.draft.OpAt (u.draft.pc - 1) .not) (htargets : ∀ t ∈ u.targets, t < u.draft.pc)
    (hlocals : ∀ (k : Nat) (v : DraftLocal), u.draft.locals[k]? = some v → v.start < u.draft.pc ∧ v.stop < u.draft.pc) :
    Step scope u { u with draft := { u.draft with code := u.draft.code.pop, lines := u.draft.lines.pop } }
  /-- A place is marked as a target: the next one, or that of a LOADBOOL just written. -/
  | mark {u : Sketch} {n : Nat} (hn : n = u.draft.pc ∨ n + 1 = u.draft.pc ∧ u.draft.OpAt n .loadBool)
    (hlast : u.draft.lastTarget ≤ n) :
    Step scope u { u with draft := { u.draft with lastTarget := n }, targets := n :: u.targets }
  /-- The body of a loop begins behind the jump into it. -/
  | enterLoop {u : Sketch} (h : u.draft.JumpAt (u.draft.pc - 1)) :
    Step scope u { u with targets := u.draft.pc :: u.targets }
  /-- The place where a loop goes back to is kept until the loop has been read. -/
  | openLoop {u : Sketch} {head : Nat} (hscope : scope = true) (h : head ∈ u.targets) :
    Step scope u { u with heads := head :: u.heads }
  /-- A loop has been read. -/
  | closeLoop {u : Sketch} (hscope : scope = true) : Step scope u { u with heads := u.heads.tail }
  /-- Other jumps go to the next instruction. -/
  | gather {u : Sketch} {l : JumpList} (hl : ∀ n ∈ l, u.draft.JumpAt n) (hnext : l = [] ∨ u.draft.pc ∈ u.targets) :
    Step scope u { u with draft := { u.draft with here := l } }
  /-- Something is noted. -/
  | keep {u : Sketch} {d : Draft} (h : u.Keeps d) : Step scope u { u with draft := d }
  /-- A local is declared. -/
  | declare {u : Sketch} (name : Bytes) (hscope : scope = true) (hroom : u.draft.declared.size < Compile.maxLocals) :
    Step scope u
      { u with
        draft := { u.draft with
          declared := u.draft.declared.push u.draft.locals.size
          locals := u.draft.locals.push ⟨name, 0, 0⟩ }
        homes := u.homes ++ [u.draft.declared.size] }
  /-- The next declared local begins. -/
  | begin {u : Sketch} (hscope : scope = true) (h : u.draft.active < u.draft.declared.size) :
    Step scope u
      { u with
        draft := { Compile.mapLocal u.draft u.draft.active fun v => { v with start := u.draft.pc } with
          active := u.draft.active + 1 } }
  /-- The life of the last local begins anew. -/
  | restart {u : Sketch} {reg : Nat} (hscope : scope = true) (hreg : reg + 1 = u.draft.declared.size)
    (hactive : u.draft.active = u.draft.declared.size)
    (hlast : u.draft.declared[reg]? = some (u.draft.locals.size - 1)) :
    Step scope u { u with draft := Compile.mapLocal u.draft reg fun v => { v with start := u.draft.pc } }
  /-- A block begins. -/
  | enterBlock {u : Sketch} {b : Block} (hscope : scope = true) (hb : b.active = u.draft.active) :
    Step scope u { u with draft := { u.draft with blocks := b :: u.draft.blocks } }
  /-- The innermost block ends, and with it its locals. -/
  | leaveBlock {u : Sketch} {b : Block} {around : List Block} (hscope : scope = true)
    (hblocks : u.draft.blocks.map (·.active) = b.active :: around.map (·.active)) (hactive : u.draft.active = u.draft.declared.size) :
    Step scope u { u with draft := Compile.endLocals b.active { u.draft with blocks := around } }

abbrev Steps (scope : Bool) : Sketch → Sketch → Prop := Relation.ReflTransGen (Step scope)

def new (line : Nat) : Sketch := ⟨Draft.new line, [0], [], []⟩

def Reachable (u : Sketch) : Prop := ∃ line, (new line).Steps true u

variable {scope : Bool} {u u' : Sketch} {n : Nat}

/-! ## 3. What steps leave of an instruction -/

structure Lasting (P : Instr → Prop) : Prop where
  not_taken : ∀ i, P i → i.opcode ≠ .not
  turned : ∀ targets n i j, P i → Instr.Turn targets n i j → P j
  widened : ∀ i j, P i → i.Widens j → P j

theorem lasting_jump : Lasting fun i => i.opcode.layout = .asbx where
  not_taken := by
    intro i hi hnot
    rw [hnot] at hi
    cases hi
  turned := fun _ _ _ _ hi h => h.layout.mpr hi
  widened := by
    intro i j hi h
    rw [h.before] at hi
    cases hi

variable {P : Instr → Prop}

theorem holdsAt_push {d : Draft} {i : Instr} {line : Nat} (h : d.HoldsAt n P) : (d.push i line).HoldsAt n P := by
  obtain ⟨j, hj, hP⟩ := h
  refine ⟨j, ?_, hP⟩
  rw [Draft.push, Array.getElem?_push, if_neg (Nat.ne_of_lt (Array.getElem?_eq_some_iff.mp hj).1)]
  exact hj

/-- **What is of a lasting kind stays so.** -/
theorem Step.holdsAt (h : Step scope u u') (hP : Lasting P) (hn : u.draft.HoldsAt n P) : u'.draft.HoldsAt n P := by
  have hsame : ∀ d : Draft, d.code = u.draft.code → d.HoldsAt n P := fun d hd => by
    unfold Draft.HoldsAt
    rw [hd]
    exact hn
  cases h with
  | write => exact holdsAt_push hn
  | pair => exact holdsAt_push (holdsAt_push hn)
  | @turn m f hturn =>
    obtain ⟨i, hi, hPi⟩ := hn
    unfold Draft.HoldsAt Draft.mapInstr
    rw [Array.getElem?_modify]
    split
    · next he =>
      subst he
      exact ⟨f i, by rw [hi]; rfl, hP.turned _ _ i _ hPi (hturn i hi)⟩
    · exact ⟨i, hi, hPi⟩
  | merge hmerges hpos hroom hprev =>
    obtain ⟨i, j, hi, hcode, hwidens, -⟩ := hmerges.widens hpos hroom hprev
    obtain ⟨k, hk, hPk⟩ := hn
    unfold Draft.HoldsAt
    rw [hcode]
    split
    · next he =>
      rw [he, hi] at hk
      cases hk
      exact ⟨j, rfl, hP.widened _ _ hPk hwidens⟩
    · exact ⟨k, hk, hPk⟩
  | takeBack hnot =>
    obtain ⟨i, hi, hPi⟩ := hn
    obtain ⟨j, hj, hop⟩ := hnot
    have hlt := (Array.getElem?_eq_some_iff.mp hi).1
    have hne : n ≠ u.draft.code.size - 1 := by
      rintro rfl
      have hij : i = j := Option.some.inj (hi.symm.trans hj)
      exact hP.not_taken i hPi (hij ▸ hop)
    refine ⟨i, ?_, hPi⟩
    rw [Array.getElem?_pop, if_pos (by omega)]
    exact hi
  | mark | enterLoop | openLoop | closeLoop | gather | declare | enterBlock => exact hsame _ rfl
  | keep hkeep => exact hsame _ hkeep.code
  | begin | restart =>
    obtain ⟨ls, hls⟩ := Compile.mapLocal_eq u.draft _ fun v => { v with start := u.draft.pc }
    exact hsame _ (by rw [hls])
  | @leaveBlock b around =>
    obtain ⟨ls, ds, hls⟩ := Compile.endLocals_eq b.active { u.draft with blocks := around }
    exact hsame _ (by rw [hls])

theorem Steps.holdsAt (h : Steps scope u u') (hP : Lasting P) (hn : u.draft.HoldsAt n P) : u'.draft.HoldsAt n P := by
  induction h with
  | refl => exact hn
  | tail _ hstep ih => exact hstep.holdsAt hP ih

theorem Step.jumpAt (h : Step scope u u') (hn : u.draft.JumpAt n) : u'.draft.JumpAt n := h.holdsAt lasting_jump hn

theorem Steps.jumpAt (h : Steps scope u u') (hn : u.draft.JumpAt n) : u'.draft.JumpAt n := h.holdsAt lasting_jump hn

theorem Step.targets_subset (h : Step scope u u') : u.targets ⊆ u'.targets := by
  cases h with
  | mark | enterLoop => exact List.subset_cons_self _ _
  | _ => exact List.Subset.refl _

theorem Steps.targets_subset (h : Steps scope u u') : u.targets ⊆ u'.targets := by
  induction h with
  | refl => exact List.Subset.refl _
  | tail _ hstep ih => exact List.Subset.trans ih hstep.targets_subset

theorem Step.within (h : Step false u u') : Step true u u' := by
  cases h with
  | write h1 h2 h3 => exact .write h1 h2 h3
  | pair h1 h2 h3 h4 h5 h6 => exact .pair h1 h2 h3 h4 h5 h6
  | turn h => exact .turn h
  | merge h1 h2 h3 h4 => exact .merge h1 h2 h3 h4
  | takeBack h1 h2 h3 => exact .takeBack h1 h2 h3
  | mark h1 h2 => exact .mark h1 h2
  | enterLoop h => exact .enterLoop h
  | gather h1 h2 => exact .gather h1 h2
  | keep h => exact .keep h
  | declare _ h => cases h
  | openLoop h | closeLoop h | begin h | restart h | enterBlock h | leaveBlock h => cases h

theorem Steps.within (h : Steps false u u') : Steps true u u' := Relation.ReflTransGen.mono (fun _ _ => Step.within) _ _ h

def Passable (i : Instr) : Prop := i.opcode ≠ .loadNil ∧ i.opcode ≠ .not

theorem lasting_passable : Lasting Passable where
  not_taken := fun _ h => h.2
  turned := fun _ _ _ _ hi h =>
    ⟨h.opcode_ne (by decide) (by decide) hi.1, h.opcode_ne (by decide) (by decide) hi.2⟩
  widened := fun _ _ hi h => absurd h.before hi.1

theorem written_push {d : Draft} {i j : Instr} {line : Nat} (hj : (d.push i line).code[n]? = some j) :
    d.code[n]? = some j ∨ n = d.pc ∧ j = i := by
  rw [Draft.push, Array.getElem?_push] at hj
  split at hj
  · next hn => exact .inr ⟨hn, (Option.some.inj hj).symm⟩
  · exact .inl hj

theorem Step.origin {j : Instr} (h : Step scope u u') (hj : u'.draft.code[n]? = some j) :
    (∃ i, u.draft.code[n]? = some i ∧ (j = i ∨ i.Turn u.targets n j ∨ i.Widens j)) ∨
      j.Raw ∧ (j.skipsNext = true → u'.draft.HoldsAt (n + 1) Passable) := by
  have hsame : ∀ d : Draft, d.code = u.draft.code → d.code[n]? = some j →
      (∃ i, u.draft.code[n]? = some i ∧ (j = i ∨ i.Turn u.targets n j ∨ i.Widens j)) ∨
        j.Raw ∧ (j.skipsNext = true → d.HoldsAt (n + 1) Passable) := by
    intro d hd hj
    rw [hd] at hj
    exact .inl ⟨j, hj, .inl rfl⟩
  cases h with
  | write _ hi hskip =>
    rcases written_push hj with hj | ⟨-, rfl⟩
    · exact .inl ⟨j, hj, .inl rfl⟩
    · refine .inr ⟨hi, fun hj' => ?_⟩
      rw [hskip] at hj'
      cases hj'
  | @pair i k line _ hi hk hskip hnil hnot =>
    rcases written_push hj with hj | ⟨-, rfl⟩
    · rcases written_push hj with hj | ⟨rfl, rfl⟩
      · exact .inl ⟨j, hj, .inl rfl⟩
      · refine .inr ⟨hi, fun _ => ⟨k, ?_, hnil, hnot⟩⟩
        rw [← Draft.pc_push u.draft j line]
        exact Array.getElem?_push_size
    · refine .inr ⟨hk, fun hj' => ?_⟩
      rw [hskip] at hj'
      cases hj'
  | @turn m f hturn =>
    simp only [Draft.mapInstr, Array.getElem?_modify] at hj
    split at hj
    · next he =>
      subst he
      obtain ⟨i, hi, rfl⟩ := Option.map_eq_some_iff.mp hj
      exact .inl ⟨i, hi, .inr (.inl (hturn i hi))⟩
    · exact .inl ⟨j, hj, .inl rfl⟩
  | merge hmerges hpos hroom hprev =>
    obtain ⟨i, k, hi, hcode, hwidens, -⟩ := hmerges.widens hpos hroom hprev
    rw [hcode] at hj
    split at hj
    · next he =>
      cases hj
      exact .inl ⟨i, he ▸ hi, .inr (.inr hwidens)⟩
    · exact .inl ⟨j, hj, .inl rfl⟩
  | takeBack =>
    rw [Array.getElem?_pop] at hj
    split at hj
    · exact .inl ⟨j, hj, .inl rfl⟩
    · cases hj
  | mark | enterLoop | openLoop | closeLoop | gather | declare | enterBlock => exact hsame _ rfl hj
  | keep hkeep => exact hsame _ hkeep.code hj
  | begin | restart =>
    obtain ⟨ls, hls⟩ := Compile.mapLocal_eq u.draft _ fun v => { v with start := u.draft.pc }
    exact hsame _ (by rw [hls]) hj
  | @leaveBlock b around =>
    obtain ⟨ls, ds, hls⟩ := Compile.endLocals_eq b.active { u.draft with blocks := around }
    exact hsame _ (by rw [hls]) hj

end Sketch

end LuaMachine
