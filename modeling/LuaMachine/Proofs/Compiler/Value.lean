/-
  BRINGING VALUES WHERE THEY ARE WANTED KEEPS A DRAFT GOOD, and never gives back more registers than an
  expression holds.
-/
import LuaMachine.Compiler.Value
import LuaMachine.Proofs.Compiler.Jump

namespace LuaMachine

/-! ## 1. Expressions -/

namespace Op

def isMovable : Op → Bool
  | getUpval | getTabUp | getTable | newTable | closure | unm | bnot | not | len | concat
  | add | sub | mul | mod | pow | div | idiv | band | bor | bxor | shl | shr => true
  | _ => false

end Op

def Instr.Movable (i : Instr) : Prop :=
  i.opcode.isMovable ∨ (i.opcode = .vararg ∧ i.b.val = 2)

theorem Instr.Movable.fits_setA {i : Instr} {r : Room} {reg : Nat} (hm : i.Movable) (h : i.Fits r)
    (hr : reg < r.registers) : (i.setA reg).Fits r := by
  have ha : reg % 256 < r.registers := Nat.lt_of_le_of_lt (Nat.mod_le ..) hr
  rcases hm with hm | ⟨ho, hb⟩
  · simp only [Fits, opcode_setA, a_setA, b_setA, c_setA, bx_setA] at h ⊢
    cases ho : i.opcode <;> rw [ho] at hm <;>
      first
        | exact absurd hm (by decide)
        | (rw [ho] at h; first | exact ha | exact ⟨ha, h.2⟩)
  · simp only [Fits, opcode_setA, ho, a_setA, b_setA, hb] at h ⊢
    omega

def Operand.cost (active x : Nat) : Nat := if !isConstant x && active ≤ x then 1 else 0

theorem Operand.cost_le (active x : Nat) : Operand.cost active x ≤ 1 := by
  unfold Operand.cost
  split <;> omega

theorem Operand.cost_lt {active x : Nat} (h : x < active) : Operand.cost active x = 0 := by
  have : ¬ active ≤ x := by omega
  simp [Operand.cost, this]

theorem Operand.isConstant_of_lt {x : Nat} (h : x < 256) : Operand.isConstant x = false := by
  have : x / 256 = 0 := by omega
  simp [Operand.isConstant, Operand.constantBit, this]

theorem Operand.isConstant_ofConstant {k : Nat} (h : k ≤ Operand.maxConstant) :
    Operand.isConstant (Operand.ofConstant k) = true ∧
      Operand.constantIndex (Operand.ofConstant k) = k ∧ Operand.ofConstant k < 512 := by
  simp only [Operand.maxConstant] at h
  have h0 : Operand.isConstant k = false := Operand.isConstant_of_lt (by omega)
  have h1 : (k + 256) / 256 % 2 = 1 := by omega
  have h2 : Operand.isConstant (k + 256) = true := decide_eq_true h1
  have h3 : Operand.ofConstant k = k + 256 := by simp [Operand.ofConstant, Operand.constantBit, h0]
  rw [h3]
  refine ⟨h2, ?_, by omega⟩
  simp [Operand.constantIndex, Operand.constantBit, h2]

theorem Operand.cost_ofConstant {active k : Nat} (h : k ≤ Operand.maxConstant) :
    Operand.cost active (Operand.ofConstant k) = 0 := by
  simp [Operand.cost, (isConstant_ofConstant h).1]

def Draft.HasOperand (d : Draft) (x : Nat) : Prop := x < 512 ∧ (d.room d.maxStack).Has x

namespace Place

def jumps : Place → JumpList
  | compare js => js
  | _ => []

def isValue : Place → Bool
  | nil | bool _ | constant _ | float _ | int _ | fixed _ | compare _ | pending _ => true
  | _ => false

theorem not_value_of_multi {p : Place} (h : p.isMulti) : p.isValue = false := by
  cases p <;> first | rfl | exact nomatch h

theorem not_value_of_variable {p : Place} (h : p.isVariable) : p.isValue = false := by
  cases p <;> first | rfl | exact nomatch h

/-- What a place names is there. -/
def Ok (d : Draft) : Place → Prop
  | void => False
  | nil | bool _ | float _ | int _ => True
  | constant k => k < d.constants.size
  | fixed r => r < d.maxStack
  | localVar r => r < d.active
  | upvalue i => i < d.upvalues.size
  | indexed t k .register => t < d.maxStack ∧ d.HasOperand k
  | indexed t k .upvalue => t < d.upvalues.size ∧ d.HasOperand k
  | compare _ => True
  | pending pc => ∃ i, d.code[pc]? = some i ∧ i.Movable
  | call pc => ∃ i, d.code[pc]? = some i ∧ i.opcode = .call ∧ i.a.val < d.free
  | varargs pc => d.OpAt pc .vararg

def cost (active : Nat) : Place → Nat
  | fixed r => Operand.cost active r
  | indexed t k .register => Operand.cost active t + Operand.cost active k
  | indexed _ k .upvalue => Operand.cost active k
  | call _ => 1
  | _ => 0

structure Above (d : Draft) (floor : Nat) (p : Place) : Prop where
  cost : floor + p.cost d.active ≤ d.free
  concat : ∀ (pc : Nat) (i : Instr), p = pending pc → d.code[pc]? = some i → i.opcode = .concat →
    floor ≤ i.c.val
  call : ∀ (pc : Nat) (i : Instr), p = call pc → d.code[pc]? = some i → floor ≤ i.a.val

theorem Above.mono {d : Draft} {floor floor' : Nat} {p : Place} (h : p.Above d floor)
    (hf : floor' ≤ floor) : p.Above d floor' where
  cost := Nat.le_trans (Nat.add_le_add_right hf _) h.cost
  concat pc i hp hi ho := Nat.le_trans hf (h.concat pc i hp hi ho)
  call pc i hp hi := Nat.le_trans hf (h.call pc i hp hi)

theorem Above.free {d : Draft} {floor : Nat} {p : Place} (h : p.Above d floor) : floor ≤ d.free := by
  have := h.cost
  omega

end Place

namespace Expr

def jumps (e : Expr) : JumpList := e.onTrue ++ e.onFalse ++ e.place.jumps

structure Ok (d : Draft) (e : Expr) : Prop where
  place : e.place.Ok d
  jumps : ∀ n ∈ e.jumps, d.OpAt n .jmp
  whole : e.place.isValue = false → e.onTrue = [] ∧ e.onFalse = []

theorem Ok.jumps_eq_nil {d : Draft} {e : Expr} (he : e.Ok d) (hv : e.place.isValue = false) :
    e.jumps = [] := by
  obtain ⟨ht, hf⟩ := he.whole hv
  have hp : e.place.jumps = [] := by
    cases hp : e.place <;> simp_all [Place.isValue, Place.jumps]
  simp [Expr.jumps, ht, hf, hp]

theorem jumps_plain (p : Place) : (plain p).jumps = p.jumps := rfl

theorem mem_jumps {e : Expr} {n : Nat} :
    n ∈ e.jumps ↔ n ∈ e.onTrue ∨ n ∈ e.onFalse ∨ n ∈ e.place.jumps := by
  simp [jumps]

theorem jumps_eq_nil {e : Expr} (hj : e.hasJumps = false) (hc : e.place.jumps = []) : e.jumps = [] := by
  simp only [hasJumps, Bool.not_eq_false', Bool.and_eq_true, List.isEmpty_iff] at hj
  simp [jumps, hj, hc]

end Expr

structure Draft.Ready (source : Bytes) (depth : Nat) (waiting : Nat → Prop) (d : Draft) : Prop where
  good : d.Good source depth waiting
  active : d.active ≤ d.maxStack

namespace Draft

variable {d d' : Draft} {source : Bytes} {depth : Nat} {waiting waiting' : Nat → Prop}

theorem Ready.wait (h : d.Ready source depth waiting) (hw : ∀ n, waiting n → waiting' n) :
    d.Ready source depth waiting' :=
  ⟨h.good.wait hw, h.active⟩

theorem Ready.steady (h : d.Ready source depth waiting) (hs : d.Steady d')
    (hg : d'.GoodFor d.maxStack source depth waiting') : d'.Ready source depth waiting' := by
  refine ⟨hs.good hg, ?_⟩
  rw [hs.active, hs.maxStack_eq]
  exact h.active

theorem HasOperand.mono {x : Nat} (h : d.HasOperand x) (hm : d.maxStack ≤ d'.maxStack)
    (hk : d.constants.size ≤ d'.constants.size) : d'.HasOperand x := by
  refine ⟨h.1, ?_⟩
  have h2 := h.2
  unfold Room.Has at *
  split <;> simp_all [room] <;> omega

theorem HasOperand.ext {x : Nat} (h : d.HasOperand x) (he : d.Extends d') : d'.HasOperand x :=
  h.mono he.maxStack he.constants

theorem HasOperand.of_register {r : Nat} (h : r < d.maxStack) (hm : d.maxStack ≤ 254) :
    d.HasOperand r :=
  ⟨by omega, Room.has_of_lt h (by omega)⟩

theorem HasOperand.of_constant {k : Nat} (h : k < d.constants.size) (hk : k ≤ Operand.maxConstant) :
    d.HasOperand (Operand.ofConstant k) := by
  refine ⟨?_, Room.has_ofConstant h hk⟩
  simp only [Operand.maxConstant] at hk
  unfold Operand.ofConstant
  simp only [Operand.constantBit]
  split <;> omega

theorem HasOperand.field {x registers : Nat} (h : d.HasOperand x) (hr : d.maxStack ≤ registers) :
    (d.room registers).Has (x % 512) := by
  rw [Nat.mod_eq_of_lt h.1]
  exact h.2.mono ⟨hr, Nat.le_refl _, Nat.le_refl _, List.prefix_refl _⟩

theorem Ready.lower (h : d.Ready source depth waiting) {n : Nat} (hn : n ≤ d.free) :
    { d with free := n }.Ready source depth waiting := by
  have hs := h.good.stocked
  refine ⟨⟨h.good.written.transport rfl rfl (.refl _) (Nat.le_refl _) fun _ => id, ?_, h.good.here⟩,
    h.active⟩
  exact ⟨hs.low, hs.high, Nat.le_trans hn hs.free, hs.constants, hs.upvalues, hs.count, hs.protos,
    hs.captured⟩

theorem Extends.lower (d : Draft) (n : Nat) : d.Extends { d with free := n } :=
  ⟨.refl d, Nat.le_refl _, Nat.le_refl _, rfl, rfl, rfl, rfl, rfl, rfl, rfl⟩

end Draft

namespace Compile

open Draft

variable {d d' : Draft} {source : Bytes} {depth : Nat} {waiting : Nat → Prop} {e e' : Expr}

structure Turns (source : Bytes) (depth : Nat) (waiting : Nat → Prop) (d : Draft) (e : Expr)
    (d' : Draft) (e' : Expr) : Prop where
  ready : d'.Ready source depth fun n => waiting n ∨ n ∈ e'.jumps
  ext : d.Extends d'
  ok : e'.Ok d'
  above : ∀ f, e.place.Above d f → e'.place.Above d' f

theorem Turns.of_register {r : Nat} (h : d'.Ready source depth waiting) (hx : d.Extends d')
    (hr : r < d'.maxStack)
    (ha : ∀ f, e.place.Above d f → f + Operand.cost d'.active r ≤ d'.free) :
    Turns source depth waiting d e d' (.plain (.fixed r)) :=
  ⟨h.wait fun _ => .inl, hx, ⟨hr, by simp [Expr.jumps, Expr.plain, Place.jumps], nofun⟩,
    fun f hf => ⟨ha f hf, nofun, nofun⟩⟩

/-! ## 2. Registers and constants -/

theorem Writes.freeRegister (reg : Nat) :
    Writes (Compile.freeRegister reg) d fun _ d' =>
      d' = { d with free := d.free - Operand.cost d.active reg } := by
  refine Writes.get fun s hs => ?_
  subst hs
  unfold Operand.cost
  split
  · exact Writes.demanding fun _ => Writes.modifyFn rfl
  · exact Writes.pure rfl

theorem Writes.topRegister {α : Type} {f : Nat → Compile α} {Q : α → Draft → Prop}
    (h : Writes (f (d.free - 1)) d Q) : Writes (Compile.topRegister >>= f) d Q := by
  have htop : Writes Compile.topRegister d fun reg d' => reg = d.free - 1 ∧ d' = d := by
    refine Writes.demanding fun _ => Writes.get fun s hs => Writes.pure ?_
    rw [hs]
    exact ⟨rfl, rfl⟩
  refine htop.andThen fun reg d' htop => ?_
  obtain ⟨rfl, rfl⟩ := htop
  exact h

theorem Writes.freeRegisters (r1 r2 : Nat) :
    Writes (Compile.freeRegisters r1 r2) d fun _ d' =>
      d' = { d with free := d.free - (Operand.cost d.active r1 + Operand.cost d.active r2) } := by
  unfold Compile.freeRegisters
  split
  · refine (Writes.freeRegister r1).andThen fun _ d1 h₁ => ?_
    subst h₁
    refine (Writes.freeRegister r2).imp fun _ d2 h₂ => ?_
    subst h₂
    simp only [Nat.sub_add_eq]
  · refine (Writes.freeRegister r2).andThen fun _ d1 h₁ => ?_
    subst h₁
    refine (Writes.freeRegister r1).imp fun _ d2 h₂ => ?_
    subst h₂
    simp only [Nat.add_comm (Operand.cost d.active r1), Nat.sub_add_eq]

theorem Writes.freeExpr (hv : e.place.isValue) :
    Writes (Compile.freeExpr e) d fun _ d' =>
      d' = { d with free := d.free - e.place.cost d.active } := by
  unfold Compile.freeExpr
  split
  · next r hp =>
    rw [hp]
    exact Writes.freeRegister r
  · next hp =>
    refine Writes.pure ?_
    have : e.place.cost d.active = 0 := by
      cases he : e.place <;> simp_all [Place.cost, Place.isValue]
    rw [this]
    rfl

theorem Writes.checkStack {n : Nat} (hm : d.maxStack ≤ 254) :
    Writes (Compile.checkStack n) d fun _ d' => max d.maxStack (d.free + n) ≤ 254 ∧
      d' = { d with maxStack := max d.maxStack (d.free + n) } := by
  refine Writes.get fun s hs => ?_
  subst hs
  dsimp only
  split
  · next hlt =>
    split
    · exact Writes.failNear
    · next hle =>
      simp only [maxRegisters] at hle
      have he : max s.fn.maxStack (s.fn.free + n) = s.fn.free + n := by omega
      rw [he]
      exact Writes.modifyFn ⟨by omega, rfl⟩
  · next hle =>
    have he : max s.fn.maxStack (s.fn.free + n) = s.fn.maxStack := by omega
    rw [he]
    exact Writes.pure ⟨hm, rfl⟩

theorem Writes.reserve {n : Nat} (hm : d.maxStack ≤ 254) :
    Writes (Compile.reserve n) d fun _ d' => max d.maxStack (d.free + n) ≤ 254 ∧
      d' = { d with maxStack := max d.maxStack (d.free + n), free := d.free + n } := by
  refine (Writes.checkStack hm).andThen fun _ d1 ⟨hle, hd⟩ => ?_
  subst hd
  exact Writes.modifyFn ⟨hle, rfl⟩

end Compile

namespace Draft

open Compile

variable {d d' : Draft} {source : Bytes} {depth : Nat} {waiting : Nat → Prop} {e e' : Expr}

theorem GoodFor.widen {registers m f : Nat} (h : d.GoodFor registers source depth waiting)
    (hm : d.maxStack ≤ m) (hle : m ≤ 254) (hf : f ≤ m) :
    { d with maxStack := m, free := f }.GoodFor (max registers m) source depth waiting ∧
      d.Extends { d with maxStack := m, free := f } := by
  have hs := h.stocked
  refine ⟨⟨?_, ?_, h.here⟩, ?_⟩
  · refine h.written.transport rfl rfl ?_ (Nat.le_refl _) fun _ => id
    exact ⟨Nat.le_max_left .., Nat.le_refl _, Nat.le_refl _, List.prefix_refl _⟩
  · refine ⟨Nat.le_trans hs.low hm, hle, hf, hs.constants, hs.upvalues, hs.count, hs.protos, ?_⟩
    intro b hb hc
    have := hs.captured b hb hc
    show b.active < max m d.active
    omega
  · exact ⟨.refl d, hm, Nat.le_refl _, rfl, rfl, rfl, rfl, rfl, rfl, rfl⟩

theorem GoodFor.reserveFor {registers : Nat} (h : d.GoodFor registers source depth waiting)
    (n : Nat) :
    Writes (Compile.reserve n) d fun _ d' =>
      d'.GoodFor (max registers d'.maxStack) source depth waiting ∧ d.Extends d' ∧
      d' = { d with maxStack := max d.maxStack (d.free + n), free := d.free + n } := by
  refine (Writes.reserve h.stocked.high).imp fun _ d' ⟨hle, hd⟩ => ?_
  subst hd
  obtain ⟨hg, hx⟩ := h.widen (Nat.le_max_left ..) hle (Nat.le_max_right ..)
  exact ⟨hg, hx, rfl⟩

/-- **Registers are taken for code that touches them already.** -/
theorem GoodFor.reserve {registers n : Nat} (h : d.GoodFor registers source depth waiting)
    (hr : registers ≤ max d.maxStack (d.free + n)) :
    Writes (Compile.reserve n) d fun _ d' => d'.Good source depth waiting ∧ d.Extends d' ∧
      d' = { d with maxStack := max d.maxStack (d.free + n), free := d.free + n } := by
  refine (h.reserveFor n).imp fun _ d' ⟨hg, hx, hd⟩ => ⟨?_, hx, hd⟩
  have hm : max registers d'.maxStack = d'.maxStack := by
    rw [hd]
    exact Nat.max_eq_right hr
  rw [hm] at hg
  exact hg

theorem Ready.reserve (h : d.Ready source depth waiting) (n : Nat) :
    Writes (Compile.reserve n) d fun _ d' => d'.Ready source depth waiting ∧ d.Extends d' ∧
      d' = { d with maxStack := max d.maxStack (d.free + n), free := d.free + n } := by
  refine (h.good.reserve (Nat.le_max_left ..)).imp fun _ d' ⟨hg, he, hd⟩ => ⟨⟨hg, ?_⟩, he, hd⟩
  have := h.active
  have := he.maxStack
  rw [he.active]
  omega

theorem Ready.checkStack (h : d.Ready source depth waiting) (n : Nat) :
    Writes (Compile.checkStack n) d fun _ d' => d'.Ready source depth waiting ∧ d.Extends d' ∧
      d'.free = d.free ∧ d.free + n ≤ d'.maxStack := by
  have hs := h.good.stocked
  refine (Writes.checkStack hs.high).imp fun _ d' ⟨hle, hd⟩ => ?_
  subst hd
  obtain ⟨hg, hx⟩ := h.good.widen (Nat.le_max_left d.maxStack (d.free + n)) hle
    (Nat.le_trans hs.free (Nat.le_max_left ..))
  refine ⟨⟨hg.mono (Nat.le_of_eq (Nat.max_eq_right (Nat.le_max_left ..))), ?_⟩, hx, rfl,
    Nat.le_max_right ..⟩
  exact Nat.le_trans h.active (Nat.le_max_left ..)

theorem Ready.addConstant (h : d.Ready source depth waiting) (c : Constant) :
    Writes (Compile.addConstant c) d fun k d' => d'.Ready source depth waiting ∧ d.Extends d' ∧
      k < d'.constants.size ∧ ∃ ks, d' = { d with constants := ks } := by
  refine Writes.get fun s hs => ?_
  subst hs
  dsimp only
  split
  · next k hk =>
    refine Writes.pure ⟨h, .refl _, ?_, _, rfl⟩
    obtain ⟨j, -, rfl⟩ := Option.map_eq_some_iff.mp hk
    exact j.isLt
  · split
    · exact Writes.failLimit
    · next hmax =>
      refine Writes.bind (Writes.modifyFn (Writes.pure ?_))
      have hs := h.good.stocked
      have he : s.fn.Extends { s.fn with constants := s.fn.constants.push c } :=
        ⟨.refl _, Nat.le_refl _, by simp, rfl, rfl, rfl, rfl, rfl, rfl, rfl⟩
      refine ⟨⟨⟨?_, ?_, h.good.here⟩, h.active⟩, he, by simp, _, rfl⟩
      · refine h.good.written.transport rfl rfl ?_ (Nat.le_refl _) fun _ => id
        exact ⟨Nat.le_refl _, by simp [room], Nat.le_refl _, List.prefix_refl _⟩
      · refine ⟨hs.low, hs.high, hs.free, ?_, hs.upvalues, hs.count, hs.protos, hs.captured⟩
        simp only [Array.size_push]
        omega

/-! ## 3. Reading -/

theorem Ready.emitPending {i : Instr} (h : d.Ready source depth waiting) (hp : i.Plain)
    (hm : i.Movable) (hf : i.Fits (d.room d.maxStack)) :
    Writes (Compile.emit i) d fun pc d' => d'.Ready source depth waiting ∧ d.Steady d' ∧
      (Place.pending pc).Ok d' ∧ ∀ f, f ≤ d.free → (i.opcode = .concat → f ≤ i.c.val) →
        (Place.pending pc).Above d' f := by
  refine (h.good.emit hp hf).imp fun pc d' ⟨hpc, hg, he⟩ => ?_
  subst hpc
  refine ⟨h.steady he.toSteady hg, he.toSteady, ⟨i, he.last, hm⟩, fun f hle hc => ⟨?_, ?_, nofun⟩⟩
  · rw [he.free_eq]
    exact hle
  · intro pc j hpc hj ho
    cases hpc
    rw [he.last] at hj
    cases hj
    exact hc ho

theorem Ready.setOneReturn (h : d.Ready source depth fun n => waiting n ∨ n ∈ e.jumps)
    (he : e.Ok d) :
    Writes (Compile.setOneReturn e) d fun e' d' => Turns source depth waiting d e d' e' ∧
      e'.onTrue = e.onTrue ∧ e'.onFalse = e.onFalse ∧ (e.place.isMulti → e'.place.isValue) ∧
      (e.place.isMulti = false → e' = e ∧ d' = d) := by
  unfold Compile.setOneReturn
  have hplace := he.place
  split
  · next pc hp =>
    rw [hp] at hplace
    obtain ⟨i, hi, ho, ha⟩ := hplace
    refine Writes.get fun s hs => Writes.pure ?_
    subst hs
    rw [instr_eq hi]
    have hreg : i.a.val < s.fn.maxStack := Nat.lt_of_lt_of_le ha h.good.stocked.free
    have hj : ∀ n, n ∈ ({ e with place := .fixed i.a.val } : Expr).jumps ↔ n ∈ e.jumps := by
      simp [Expr.mem_jumps, Place.jumps, hp]
    refine ⟨⟨h.wait fun n hn => by simpa [hj] using hn, .refl _,
      ⟨hreg, fun n hn => he.jumps n ((hj n).mp hn), by rintro ⟨⟩⟩, fun f hf => ⟨?_, by simp, by simp⟩⟩, rfl, rfl,
      fun _ => rfl, by simp [hp, Place.isMulti]⟩
    have h1 := hf.cost
    have h2 := Operand.cost_le s.fn.active i.a.val
    rw [hp] at h1
    simp only [Place.cost] at h1 ⊢
    omega
  · next pc hp =>
    rw [hp] at hplace
    obtain ⟨i, hi, ho⟩ := hplace
    refine Writes.bind (Writes.modifyFn (Writes.pure ?_))
    have hget : (d.mapInstr pc fun i => i.setB 2).code[pc]? = some (i.setB 2) := by
      simp [mapInstr, Array.getElem?_modify, hi]
    have hj : ∀ n, n ∈ ({ e with place := .pending pc } : Expr).jumps ↔ n ∈ e.jumps := by
      simp [Expr.mem_jumps, Place.jumps, hp]
    obtain ⟨hg, hs⟩ := h.good.mapInstr (Nat.le_refl _) pc (fun i => i.setB 2) fun k hk => by
      rw [hi] at hk
      cases hk
      have hok := h.good.written.instr pc i hi
      have hfit := hok.fits.resolve_right fun h => by simp [ho] at h
      simp only [Instr.Fits, ho] at hfit
      refine ⟨⟨hok.known, .inl ?_, ?_, ?_⟩, .of_opcode rfl (by simp [ho]) (by simp [ho]), .inl rfl⟩
      · simp only [Instr.Fits, Instr.opcode_setB, ho, Instr.a_setB, Instr.b_setB]
        omega
      · simp [Instr.Jumps, ho, Op.layout]
      · simp [Instr.Skips, ho]
    refine ⟨⟨(h.steady hs hg).wait fun n hn => by simpa [hj] using hn, hs.toExtends,
      ⟨⟨_, hget, .inr ⟨ho, rfl⟩⟩, fun n hn => (he.jumps n ((hj n).mp hn)).kept_jmp hs.kept, by rintro ⟨⟩⟩,
      fun f hf => ⟨?_, ?_, by simp⟩⟩, rfl, rfl, fun _ => rfl, by simp [hp, Place.isMulti]⟩
    · have h1 := hf.cost
      rw [hp] at h1
      exact h1
    · intro pc' j hpc hj hc
      cases hpc
      rw [hget] at hj
      cases hj
      simp [ho] at hc
  · next h1 h2 =>
    refine Writes.pure ⟨⟨h, .refl _, he, fun _ => id⟩, rfl, rfl, fun hm => ?_, fun _ => ⟨rfl, rfl⟩⟩
    cases hp : e.place <;> simp_all [Place.isMulti]

theorem Ready.readBy {i : Instr} (h : d.Ready source depth fun n => waiting n ∨ n ∈ e.jumps)
    (he : e.Ok d) (hv : e.place.isValue = false) (hp : i.Plain) (hm : i.opcode.isMovable)
    (hc : i.opcode ≠ .concat) (hf : i.Fits (d.room d.maxStack)) {g : Draft} (hg : g.Extends d)
    (hcost : ∀ f, e.place.Above g f → f ≤ d.free) :
    Writes (do return { e with place := .pending (← Compile.emit i) }) d fun e' d' =>
      Turns source depth waiting g e d' e' ∧ e'.onTrue = e.onTrue ∧ e'.onFalse = e.onFalse ∧
        e'.place.isValue := by
  refine (h.emitPending hp (.inl hm) hf).andThen fun pc d' ⟨hr, hs, hok, hab⟩ => Writes.pure ?_
  obtain ⟨hn1, hn2⟩ := he.whole hv
  refine ⟨⟨hr.wait fun n hn => ?_, hg.trans hs.toExtends, ⟨hok, fun n hn => ?_, nofun⟩, fun f hf => ?_⟩,
    rfl, rfl, rfl⟩
  · rw [he.jumps_eq_nil hv] at hn
    exact .inl (hn.resolve_right List.not_mem_nil)
  · simp [Expr.jumps, hn1, hn2, Place.jumps] at hn
  · exact hab f (hcost f hf) fun h => absurd h hc

/-- **A variable is made a value.** What is one already stays. -/
theorem Ready.readVariable (h : d.Ready source depth fun n => waiting n ∨ n ∈ e.jumps)
    (he : e.Ok d) :
    Writes (Compile.readVariable e) d fun e' d' => Turns source depth waiting d e d' e' ∧
      e'.onTrue = e.onTrue ∧ e'.onFalse = e.onFalse ∧ e'.place.isValue ∧
      (e.place.isValue → e' = e ∧ d' = d) := by
  have hplace := he.place
  have hstock := h.good.stocked
  -- what an instruction reads was no value before
  have hread (hv : e.place.isValue = false) (e' : Expr) (d' : Draft)
      (ht : Turns source depth waiting d e d' e' ∧ e'.onTrue = e.onTrue ∧ e'.onFalse = e.onFalse ∧
        e'.place.isValue) :
      Turns source depth waiting d e d' e' ∧ e'.onTrue = e.onTrue ∧ e'.onFalse = e.onFalse ∧
        e'.place.isValue ∧ (e.place.isValue → e' = e ∧ d' = d) :=
    ⟨ht.1, ht.2.1, ht.2.2.1, ht.2.2.2, by simp [hv]⟩
  unfold Compile.readVariable
  split
  · next r hp =>
    rw [hp] at hplace
    have hj : ∀ n, n ∈ ({ e with place := .fixed r } : Expr).jumps ↔ n ∈ e.jumps := by
      simp [Expr.mem_jumps, Place.jumps, hp]
    refine Writes.pure ⟨⟨h.wait fun n hn => by simpa [hj] using hn, .refl _,
      ⟨Nat.lt_of_lt_of_le hplace h.active, fun n hn => he.jumps n ((hj n).mp hn), by rintro ⟨⟩⟩,
      fun f hf => ⟨?_, by simp, by simp⟩⟩, rfl, rfl, rfl, by simp [hp, Place.isValue]⟩
    have h1 := hf.cost
    rw [hp] at h1
    simp only [Place.cost, Operand.cost_lt hplace] at h1 ⊢
    exact h1
  · next u hp =>
    rw [hp] at hplace
    refine (h.readBy he (by rw [hp]; rfl) (Instr.plain_ofABC rfl ..) (by simp [Op.isMovable])
      (by simp) ?_ (.refl d) fun f hf => ?_).imp (hread (by rw [hp]; rfl))
    · have h1 := Nat.mod_le u 512
      have h2 := hstock.low
      simp only [Instr.Fits, Instr.opcode_ofABC, Instr.a_ofABC, Instr.b_ofABC, room]
      simp only [Place.Ok] at hplace
      omega
    · have h1 := hf.cost
      rw [hp] at h1
      exact h1
  · next table key base hp =>
    have hkey : d.HasOperand key := by
      rw [hp] at hplace
      cases base <;> exact hplace.2
    refine (Writes.freeRegister key).andThen fun _ d1 hd1 => ?_
    subst hd1
    have hr1 := h.lower (Nat.sub_le d.free (Operand.cost d.active key))
    have he1 : e.Ok { d with free := d.free - Operand.cost d.active key } :=
      ⟨by rw [hp] at hplace ⊢; cases base <;> exact hplace, he.jumps, he.whole⟩
    cases base with
    | register =>
      rw [hp] at hplace
      refine (Writes.freeRegister table).andThen fun _ d2 hd2 => ?_
      subst hd2
      have hr2 := hr1.lower (Nat.sub_le _ (Operand.cost d.active table))
      refine (hr2.readBy ⟨by rw [hp]; exact hplace, he.jumps, he.whole⟩ (by rw [hp]; rfl)
        (Instr.plain_ofABC rfl ..) (by simp [Op.isMovable]) (by simp) ?_
        ((Extends.lower d _).trans (Extends.lower _ _)) fun f hf => ?_).imp (hread (by rw [hp]; rfl))
      · have h1 := Nat.mod_le table 512
        have h2 := hstock.low
        simp only [Instr.Fits, Instr.opcode_ofABC, Instr.a_ofABC, Instr.b_ofABC, Instr.c_ofABC]
        refine ⟨?_, ?_, hkey.field (Nat.le_refl _)⟩
        · simp only [room]
          omega
        · exact Nat.lt_of_le_of_lt h1 hplace.1
      · have h1 := hf.cost
        rw [hp] at h1
        simp only [Place.cost] at h1 ⊢
        omega
    | upvalue =>
      rw [hp] at hplace
      refine (hr1.readBy he1 (by rw [hp]; rfl) (Instr.plain_ofABC rfl ..) (by simp [Op.isMovable])
        (by simp) ?_ (Extends.lower d _) fun f hf => ?_).imp (hread (by rw [hp]; rfl))
      · have h1 := Nat.mod_le table 512
        have h2 := hstock.low
        simp only [Instr.Fits, Instr.opcode_ofABC, Instr.a_ofABC, Instr.b_ofABC, Instr.c_ofABC]
        refine ⟨?_, ?_, hkey.field (Nat.le_refl _)⟩
        · simp only [room]
          omega
        · exact Nat.lt_of_le_of_lt h1 hplace.1
      · have h1 := hf.cost
        rw [hp] at h1
        simp only [Place.cost] at h1 ⊢
        omega
  · next pc hp =>
    refine (h.setOneReturn he).imp fun e' d' hset => ?_
    exact ⟨hset.1, hset.2.1, hset.2.2.1, hset.2.2.2.1 (by rw [hp]; rfl), by simp [hp, Place.isValue]⟩
  · next pc hp =>
    refine (h.setOneReturn he).imp fun e' d' hset => ?_
    exact ⟨hset.1, hset.2.1, hset.2.2.1, hset.2.2.2.1 (by rw [hp]; rfl), by simp [hp, Place.isValue]⟩
  · next h1 h2 h3 h4 h5 =>
    refine Writes.pure ⟨⟨h, .refl _, he, fun _ => id⟩, rfl, rfl, ?_, fun _ => ⟨rfl, rfl⟩⟩
    cases hp : e.place with
    | void => rw [hp] at hplace; exact hplace.elim
    | localVar r => exact absurd hp (h1 r)
    | upvalue r => exact absurd hp (h2 r)
    | indexed t k b => exact absurd hp (h3 t k b)
    | call pc => exact absurd hp (h4 pc)
    | varargs pc => exact absurd hp (h5 pc)
    | _ => rfl

/-- **A value is brought into a register**, apart from what its jumps decide. -/
theorem Ready.settle {reg : Nat} (h : d.Ready source depth fun n => waiting n ∨ n ∈ e.jumps)
    (he : e.Ok d) (hr : reg < d.maxStack) :
    Writes (Compile.settle e reg) d fun e' d' =>
      d'.Ready source depth (fun n => waiting n ∨ n ∈ e'.jumps) ∧ d.Extends d' ∧ e'.Ok d' ∧
      e'.onTrue = e.onTrue ∧ e'.onFalse = e.onFalse ∧
      (e'.place = .fixed reg ∨ ∃ js, e'.place = .compare js) ∧
      (e.place.isValue → d'.free = d.free ∧
        (e'.place = .fixed reg ∨ ∃ js, e.place = .compare js)) := by
  refine (h.readVariable he).andThen ?_
  rintro e1 d1 ⟨ht, h1, h2, hv, hid⟩
  have hr1 : reg < d1.maxStack := Nat.lt_of_lt_of_le hr ht.ext.maxStack
  -- what all branches but the last one have to show
  have hend : ∀ d2, e1.place.jumps = [] →
      d2.Ready source depth (fun n => waiting n ∨ n ∈ e1.jumps) → d1.Extends d2 →
      d2.free = d1.free → Writes (pure { e1 with place := .fixed reg }) d2 fun e' d' =>
        d'.Ready source depth (fun n => waiting n ∨ n ∈ e'.jumps) ∧ d.Extends d' ∧ e'.Ok d' ∧
        e'.onTrue = e.onTrue ∧ e'.onFalse = e.onFalse ∧
        (e'.place = .fixed reg ∨ ∃ js, e'.place = .compare js) ∧
        (e.place.isValue → d'.free = d.free ∧
          (e'.place = .fixed reg ∨ ∃ js, e.place = .compare js)) := by
    intro d2 hj hready hext hfree
    have hj' : ∀ n, n ∈ ({ e1 with place := .fixed reg } : Expr).jumps ↔ n ∈ e1.jumps := by
      have hfix : (Place.fixed reg).jumps = [] := rfl
      simp [Expr.mem_jumps, hfix, hj]
    refine Writes.pure ⟨hready.wait fun n hn => by simpa [hj'] using hn, ht.ext.trans hext,
      ⟨Nat.lt_of_lt_of_le hr1 hext.maxStack, fun n hn => ?_, by rintro ⟨⟩⟩, h1, h2, .inl rfl,
      fun hval => ⟨?_, .inl rfl⟩⟩
    · exact (ht.ok.jumps n ((hj' n).mp hn)).kept_jmp hext.kept
    · rw [hfree, (hid hval).2]
  have hplace := ht.ok.place
  dsimp only
  split
  · next hp =>
    refine (ht.ready.good.loadNil Nat.one_pos hr1).andThen ?_
    rintro _ d2 ⟨hg, hs⟩
    exact hend d2 (by rw [hp]; rfl) (ht.ready.steady hs hg) hs.toExtends hs.free_eq
  · next b hp =>
    refine Writes.bind (Writes.discard ?_)
    refine (ht.ready.good.emit (Instr.plain_loadBool ..) ?_).imp ?_
    · simp only [Instr.Fits, Instr.opcode_ofABC, Instr.a_ofABC]
      exact Nat.lt_of_le_of_lt (Nat.mod_le ..) hr1
    · rintro _ d2 ⟨_, hg, hs⟩
      exact hend d2 (by rw [hp]; rfl) (ht.ready.steady hs.toSteady hg) hs.toExtends hs.free_eq
  · next k hp =>
    rw [hp] at hplace
    refine (ht.ready.good.loadConstant hr1 hplace).andThen ?_
    rintro _ d2 ⟨hg, hs⟩
    exact hend d2 (by rw [hp]; rfl) (ht.ready.steady hs hg) hs.toExtends hs.free_eq
  · next x hp =>
    refine (ht.ready.addConstant _).andThen ?_
    rintro k d2 ⟨hready, hx, hk, ks, hd⟩
    have hr2 := Nat.lt_of_lt_of_le hr1 hx.maxStack
    refine (hready.good.loadConstant hr2 hk).andThen ?_
    rintro _ d3 ⟨hg, hs⟩
    refine hend d3 (by rw [hp]; rfl) (hready.steady hs hg) (hx.trans hs.toExtends) ?_
    rw [hs.free_eq, hd]
  · next x hp =>
    refine (ht.ready.addConstant _).andThen ?_
    rintro k d2 ⟨hready, hx, hk, ks, hd⟩
    have hr2 := Nat.lt_of_lt_of_le hr1 hx.maxStack
    refine (hready.good.loadConstant hr2 hk).andThen ?_
    rintro _ d3 ⟨hg, hs⟩
    refine hend d3 (by rw [hp]; rfl) (hready.steady hs hg) (hx.trans hs.toExtends) ?_
    rw [hs.free_eq, hd]
  · next pc hp =>
    rw [hp] at hplace
    obtain ⟨i, hi, hm⟩ := hplace
    have hop : i.opcode.layout ≠ .asbx ∧ i.opcode ≠ .loadBool ∧ i.opcode ≠ .setList ∧
        i.opcode ≠ .extraArg ∧ i.opcode ≠ .testSet := by
      rcases hm with hm | ⟨ho, -⟩
      · cases ho : i.opcode <;> rw [ho] at hm <;> revert hm <;> decide
      · rw [ho]
        decide
    obtain ⟨hg, hs⟩ := ht.ready.good.mapInstr (Nat.le_refl _) pc (fun i => i.setA reg) fun k hk => by
      rw [hi] at hk
      cases hk
      have hok := ht.ready.good.written.instr pc i hi
      have hfit := hok.fits.resolve_right fun h => hop.2.2.2.2 h.1
      exact ⟨⟨hok.known, .inl (hm.fits_setA hfit hr1), fun h => absurd h hop.1,
        fun h => absurd h hop.2.1⟩, .of_opcode rfl hop.2.2.1 hop.2.2.2.1, .inl rfl⟩
    refine Writes.bind (Writes.modifyFn ?_)
    exact hend _ (by rw [hp]; rfl) (ht.ready.steady hs hg) hs.toExtends hs.free_eq
  · next r hp =>
    rw [hp] at hplace
    split
    · refine Writes.bind (Writes.discard ?_)
      refine (ht.ready.good.emit (Instr.plain_ofABC rfl ..) ?_).imp ?_
      · simp only [Instr.Fits, Instr.opcode_ofABC, Instr.a_ofABC, Instr.b_ofABC]
        exact ⟨Nat.lt_of_le_of_lt (Nat.mod_le ..) hr1, Nat.lt_of_le_of_lt (Nat.mod_le ..) hplace⟩
      · rintro _ d2 ⟨_, hg, hs⟩
        exact hend d2 (by rw [hp]; rfl) (ht.ready.steady hs.toSteady hg) hs.toExtends hs.free_eq
    · exact hend d1 (by rw [hp]; rfl) ht.ready (.refl _) rfl
  · next h3 h4 h5 h6 h7 h8 h9 =>
    have hc : ∃ js, e1.place = .compare js := by
      cases hp : e1.place with
      | compare js => exact ⟨js, rfl⟩
      | nil => exact absurd hp h3
      | bool b => exact absurd hp (h4 b)
      | constant k => exact absurd hp (h5 k)
      | float x => exact absurd hp (h6 x)
      | int x => exact absurd hp (h7 x)
      | pending pc => exact absurd hp (h8 pc)
      | fixed r => exact absurd hp (h9 r)
      | _ => rw [hp] at hv; cases hv
    refine Writes.pure ⟨ht.ready, ht.ext, ht.ok, h1, h2, .inr hc, fun hval => ?_⟩
    obtain ⟨rfl, rfl⟩ := hid hval
    exact ⟨rfl, .inr hc⟩

theorem value_ext (he : e.Ok d) (hv : e.place.isValue) (hx : d.Extends d') (hc : d'.code = d.code) :
    e.Ok d' := by
  have hplace := he.place
  refine ⟨?_, fun n hn => (he.jumps n hn).kept_jmp hx.kept, he.whole⟩
  cases hp : e.place with
  | constant k =>
    rw [hp] at hplace
    exact Nat.lt_of_lt_of_le hplace hx.constants
  | fixed r =>
    rw [hp] at hplace
    exact Nat.lt_of_lt_of_le hplace hx.maxStack
  | pending pc =>
    rw [hp] at hplace
    obtain ⟨i, hi, hm⟩ := hplace
    exact ⟨i, by rw [hc]; exact hi, hm⟩
  | nil | bool | float | int | compare => trivial
  | void | localVar | upvalue | indexed | call | varargs =>
    rw [hp] at hv
    exact nomatch hv

theorem Ready.settleAnywhere (h : d.Ready source depth fun n => waiting n ∨ n ∈ e.jumps)
    (he : e.Ok d) (hv : e.place.isValue) (hc : ∀ js, e.place ≠ .compare js) :
    Writes (Compile.settleAnywhere e) d fun e' d' => Turns source depth waiting d e d' e' ∧
      e'.onTrue = e.onTrue ∧ e'.onFalse = e.onFalse ∧
      ∃ r, e'.place = .fixed r ∧ r < d'.maxStack := by
  unfold Compile.settleAnywhere
  have hplace := he.place
  split
  · next r hp =>
    rw [hp] at hplace
    exact Writes.pure ⟨⟨h, .refl _, he, fun _ => id⟩, rfl, rfl, r, hp, hplace⟩
  · refine (h.reserve 1).andThen fun _ d1 ⟨hready, hx, hd⟩ => ?_
    have hm : d1.maxStack = max d.maxStack (d.free + 1) := by rw [hd]
    have hfree : d1.free = d.free + 1 := by rw [hd]
    have he1 : e.Ok d1 := value_ext he hv hx (by rw [hd])
    refine Writes.topRegister ?_
    refine (hready.settle he1 (by omega)).imp fun e' d' ⟨h1, h2, h3, h4, h5, _, h6⟩ => ?_
    obtain ⟨hf, h7⟩ := h6 hv
    have hp := h7.resolve_right fun ⟨js, hjs⟩ => hc js hjs
    refine ⟨⟨h1, hx.trans h2, h3, fun f hab => ⟨?_, ?_, ?_⟩⟩, h4, h5, _, hp, ?_⟩
    · have h8 := Operand.cost_le d'.active (d1.free - 1)
      have h9 := hab.cost
      rw [hp]
      simp only [Place.cost]
      omega
    · rw [hp]
      nofun
    · rw [hp]
      nofun
    · have := h2.maxStack
      omega

theorem Ready.loadBooleans {reg : Nat} {fallsThrough : Bool} (h : d.Ready source depth waiting)
    (hr : reg < d.maxStack) :
    Writes (Compile.loadBooleans fallsThrough reg) d fun ft d' => d'.Ready source depth waiting ∧
      d.Steady d' ∧ ft.1 ≤ d'.code.size ∧ ft.2 ≤ d'.code.size := by
  have ha : reg % 256 < d.maxStack := Nat.lt_of_le_of_lt (Nat.mod_le ..) hr
  have hpass : Writes (if fallsThrough then Compile.jump else pure []) d fun l d' =>
      d'.GoodFor d.maxStack source depth (fun n => waiting n ∨ n ∈ l) ∧ d.Steady d' ∧
        ∀ n ∈ l, d'.OpAt n .jmp := by
    split
    · exact h.good.jump.imp fun l d' hjump => ⟨hjump.1, hjump.2.1, hjump.2.2.1⟩
    · exact Writes.pure ⟨h.good.wait fun _ => .inl, .refl d, by simp⟩
  have hrest : ∀ l d1, d1.GoodFor d.maxStack source depth (fun n => waiting n ∨ n ∈ l) ∧ d.Steady d1 ∧
      (∀ n ∈ l, d1.OpAt n .jmp) → Writes (do
        discard Compile.markTarget
        let f ← Compile.emitABC .loadBool reg 0 1
        discard Compile.markTarget
        let t ← Compile.emitABC .loadBool reg 1 0
        Compile.patchHere l
        return (f, t)) d1 fun ft d' => d'.Ready source depth waiting ∧
          d.Steady d' ∧ ft.1 ≤ d'.code.size ∧ ft.2 ≤ d'.code.size := by
    rintro l d1 ⟨hg, hs, hl⟩
    refine Writes.bind (Writes.discard (hg.markTarget.imp ?_))
    rintro _ d2 ⟨_, hg2, hs2, _⟩
    refine (Writes.emitFirst hg2.written hg2.jumps_here (Nat.le_refl _)).andThen
      ?_
    rintro f d3 ⟨hf, hhalf⟩
    refine Writes.bind (Writes.discard (Writes.markTarget.imp ?_))
    rintro _ d4 ⟨_, hd4⟩
    have hhalf4 : Half d.maxStack d2.code.size (fun n => waiting n ∨ n ∈ l) d2
        (.ofABC .loadBool reg 0 1) d4 := by
      rw [hd4]
      exact ⟨hhalf.steady.trans (.of_code rfl rfl rfl rfl rfl rfl rfl rfl rfl rfl rfl),
        hhalf.landed, hhalf.code⟩
    have hfits : ∀ b c, (Instr.ofABC .loadBool reg b c).Fits (d2.room d.maxStack) := by
      intro b c
      simp only [Instr.Fits, Instr.opcode_ofABC, Instr.a_ofABC]
      exact ha
    refine (hhalf4.emit (Nat.le_add_right ..) ⟨Instr.known_ofABC .., .inl (hfits 0 1), ?_, ?_⟩
      ((Instr.plain_loadBool reg 1).okAt (hfits 1 0) ..) ?_ ?_).andThen ?_
    · simp [Instr.Jumps, Op.layout]
    · exact fun _ _ => Nat.le_refl _
    · simp [Instr.Followed]
    · simp [Instr.Followed]
    rintro t d5 ⟨ht, hw, hs5, hnil, hsize, _⟩
    have hgood : d5.GoodFor d.maxStack source depth fun n => waiting n ∨ n ∈ l :=
      hg2.landed hs5 hnil hw
    have hs' := (hs.trans hs2).trans hs5
    refine (hgood.patchHere fun n hn => (hl n hn).kept_jmp (hs2.trans hs5).kept).andThen
      ?_
    rintro _ d6 ⟨hg6, hs6, hc6⟩
    refine Writes.pure ?_
    refine ⟨h.steady (hs'.trans hs6) hg6, hs'.trans hs6, ?_, ?_⟩
    · rw [hc6, hsize, hf]
      exact Nat.le_add_right ..
    · rw [hc6, hsize, ht]
      exact Nat.le_succ _
  unfold Compile.loadBooleans
  split
  · next hb =>
    rw [if_pos hb] at hpass
    exact hpass.andThen hrest
  · next hb =>
    rw [if_neg hb] at hpass
    exact hpass.andThen hrest

theorem Ready.aimJumps {list : JumpList} {stop reg plain : Nat}
    (h : d.Ready source depth fun n => waiting n ∨ n ∈ list) (hl : ∀ n ∈ list, d.OpAt n .jmp)
    (hr : reg < d.maxStack) (hs : stop ≤ d.code.size) (hp : plain ≤ d.code.size) :
    Writes (Compile.aimJumps stop reg plain list) d fun _ d' => d'.Ready source depth waiting ∧
      d.Steady d' ∧ d'.code.size = d.code.size := by
  have hw : d.Written d.maxStack d.code.size fun n => n ∈ list ∨ (waiting n ∨ n ∈ d.here) :=
    h.good.written.mono (Nat.le_refl _) (Nat.le_refl _) fun n hn => by
      rcases hn with (hn | hn) | hn
      · exact .inr (.inl hn)
      · exact .inl hn
      · exact .inr (.inr hn)
  refine (Writes.aimJumps hw (fun n hn => (hl n hn).jumpAt) (.inr hr) hs hp).imp
    fun _ d' ⟨hw', ha⟩ => ?_
  refine ⟨h.steady ha.steady (h.good.rewritten ha.steady ha.here ?_), ha.steady, ha.size⟩
  rw [ha.size, ha.here]
  exact hw'

theorem Ready.aimBoth {onTrue onFalse : JumpList} {reg f t : Nat}
    (h : d.Ready source depth fun n => waiting n ∨ (n ∈ onTrue ∨ n ∈ onFalse))
    (hl : ∀ n, n ∈ onTrue ∨ n ∈ onFalse → d.OpAt n .jmp) (hr : reg < d.maxStack)
    (hf : f ≤ d.code.size) (ht : t ≤ d.code.size) :
    Writes (do
      let stop ← Compile.markTarget
      Compile.aimJumps stop reg f onFalse
      Compile.aimJumps stop reg t onTrue) d fun _ d' => d'.Ready source depth waiting ∧
        d.Steady d' := by
  refine h.good.markTarget.andThen fun stop d1 ⟨hstop, hg, hs, hc⟩ => ?_
  have hsize : d1.code.size = d.code.size := by rw [hc]
  have h₁ : d1.Ready source depth fun n => (waiting n ∨ n ∈ onTrue) ∨ n ∈ onFalse :=
    (h.steady hs hg).wait fun n hn => by simpa [or_assoc] using hn
  refine (h₁.aimJumps (fun n hn => (hl n (.inr hn)).kept_jmp hs.kept) ?_ ?_ ?_).andThen
    fun _ d2 ⟨h₂, hs2, hsize2⟩ => ?_
  · rw [hs.maxStack_eq]; exact hr
  · omega
  · omega
  have hs' := hs.trans hs2
  refine (h₂.aimJumps (fun n hn => (hl n (.inl hn)).kept_jmp hs'.kept) ?_ ?_ ?_).imp
    fun _ d3 ⟨h₃, hs3, _⟩ => ⟨h₃, hs'.trans hs3⟩
  · rw [hs'.maxStack_eq]; exact hr
  · omega
  · omega

/-- **A value is brought into a register, whichever way it is decided**: none of its jumps waits any
    more. -/
theorem Ready.toRegister {reg : Nat} (h : d.Ready source depth fun n => waiting n ∨ n ∈ e.jumps)
    (he : e.Ok d) (hr : reg < d.maxStack) :
    Writes (Compile.toRegister e reg) d fun _ d' => d'.Ready source depth waiting ∧ d.Extends d' ∧
      (e.place.isValue → d'.free = d.free) := by
  refine (h.settle he hr).andThen ?_
  rintro e1 d1 ⟨hready, hx, hok, _, _, hplace, hval⟩
  have hr1 : reg < d1.maxStack := Nat.lt_of_lt_of_le hr hx.maxStack
  have hfree : e.place.isValue → d1.free = d.free := fun hv => (hval hv).1
  extract_lets next
  -- all jumps that leave the value, after the comparison's have joined those taken when it is true
  have hnext : ∀ onTrue decided, (∀ n, n ∈ e1.jumps ↔ n ∈ onTrue ∨ n ∈ e1.onFalse) →
      Writes (next (onTrue, decided)) d1 fun _ d' => d'.Ready source depth waiting ∧
        d.Extends d' ∧ (e.place.isValue → d'.free = d.free) := by
    intro onTrue decided hj
    have hready' : d1.Ready source depth fun n => waiting n ∨ (n ∈ onTrue ∨ n ∈ e1.onFalse) :=
      hready.wait fun n hn => by simpa [hj] using hn
    have hl : ∀ n, n ∈ onTrue ∨ n ∈ e1.onFalse → d1.OpAt n .jmp :=
      fun n hn => hok.jumps n ((hj n).mpr hn)
    have hend : ∀ d2 (f t : Nat),
        d2.Ready source depth (fun n => waiting n ∨ (n ∈ onTrue ∨ n ∈ e1.onFalse)) →
        d1.Steady d2 → f ≤ d2.code.size → t ≤ d2.code.size → Writes (do
          let stop ← Compile.markTarget
          Compile.aimJumps stop reg f e1.onFalse
          Compile.aimJumps stop reg t onTrue) d2 fun _ d' => d'.Ready source depth waiting ∧
            d.Extends d' ∧ (e.place.isValue → d'.free = d.free) := by
      intro d2 f t h₂ hs2 hf ht
      refine (h₂.aimBoth (fun n hn => (hl n hn).kept_jmp hs2.kept) ?_ hf ht).imp ?_
      · rw [hs2.maxStack_eq]; exact hr1
      · rintro _ d3 ⟨h₃, hs3⟩
        refine ⟨h₃, hx.trans (hs2.trans hs3).toExtends, fun hv => ?_⟩
        rw [(hs2.trans hs3).free_eq, hfree hv]
    dsimp only [next]
    split
    · refine Writes.get fun s hs => ?_
      rw [hs]
      split
      · refine (hready'.loadBooleans hr1).andThen ?_
        rintro ft d2 ⟨h₂, hs2, hf, ht⟩
        exact hend d2 ft.1 ft.2 h₂ hs2 hf ht
      · exact Writes.bind (Writes.pure (hend d1 0 0 hready' (.refl d1) (Nat.zero_le _) (Nat.zero_le _)))
    · next hempty =>
      refine Writes.pure ⟨hready'.wait fun n hn => hn.resolve_right fun hn => ?_, hx, hfree⟩
      simp only [Bool.not_eq_true', Bool.not_eq_false, Bool.and_eq_true,
        List.isEmpty_iff] at hempty
      simp [hempty] at hn
  split
  · next js hp =>
    refine (Writes.joinJumps _ _).andThen ?_
    rintro l d2 ⟨hl, hd⟩
    subst hl hd
    refine Writes.bind (Writes.pure (hnext _ _ fun n => ?_))
    simp only [Expr.mem_jumps, hp, Place.jumps, List.mem_append]
    constructor
    · rintro (h | h | h)
      · exact .inl (.inl h)
      · exact .inr h
      · exact .inl (.inr h)
    · rintro ((h | h) | h)
      · exact .inl h
      · exact .inr (.inr h)
      · exact .inr (.inl h)
  · next hnot =>
    refine Writes.bind (Writes.pure (hnext _ _ fun n => ?_))
    have hp : e1.place = .fixed reg := hplace.resolve_right fun hjs => hjs.elim hnot
    simp [Expr.mem_jumps, hp, Place.jumps]

/-- **A value is brought into the next free register.** -/
theorem Ready.toNextRegister (h : d.Ready source depth fun n => waiting n ∨ n ∈ e.jumps)
    (he : e.Ok d) :
    Writes (Compile.toNextRegister e) d fun reg d' => d'.Ready source depth waiting ∧
      d.Extends d' ∧ reg + 1 = d'.free ∧ ∀ f, e.place.Above d f → f ≤ reg := by
  refine (h.readVariable he).andThen fun e1 d1 ⟨ht, _, _, hv, _⟩ => ?_
  refine (Writes.freeExpr hv).andThen fun _ d2 hd2 => ?_
  have hx2 : d1.Extends d2 := by
    rw [hd2]
    exact .lower d1 _
  have h₂ : d2.Ready source depth fun n => waiting n ∨ n ∈ e1.jumps := by
    rw [hd2]
    exact ht.ready.lower (Nat.sub_le ..)
  refine (h₂.reserve 1).andThen fun _ d3 ⟨h₃, hx3, hd3⟩ => ?_
  have hm : d3.maxStack = max d2.maxStack (d2.free + 1) := by rw [hd3]
  have hfree : d3.free = d2.free + 1 := by rw [hd3]
  have he3 : e1.Ok d3 := value_ext ht.ok hv (hx2.trans hx3) (by rw [hd3, hd2])
  refine Writes.topRegister ?_
  refine (h₃.toRegister he3 (by omega)).andThen fun _ d4 ⟨h₄, hx4, hf4⟩ => Writes.pure ?_
  refine ⟨h₄, ((ht.ext.trans hx2).trans hx3).trans hx4, ?_, fun f hf => ?_⟩
  · rw [hf4 hv]
    omega
  · have h5 := (ht.above f hf).cost
    have h6 : d2.free = d1.free - e1.place.cost d1.active := by rw [hd2]
    omega

/-- **A value is brought into some register.** -/
theorem Ready.toAnyRegister (h : d.Ready source depth fun n => waiting n ∨ n ∈ e.jumps)
    (he : e.Ok d) :
    Writes (Compile.toAnyRegister e) d fun r d' => d'.Ready source depth waiting ∧ d.Extends d' ∧
      r < d'.maxStack ∧ ∀ f, e.place.Above d f → f + Operand.cost d'.active r ≤ d'.free := by
  refine (h.readVariable he).andThen fun e1 d1 ⟨ht, _, _, hv, _⟩ => ?_
  have hnext : Writes (Compile.toNextRegister e1) d1 fun r d' => d'.Ready source depth waiting ∧
      d.Extends d' ∧ r < d'.maxStack ∧
      ∀ f, e.place.Above d f → f + Operand.cost d'.active r ≤ d'.free := by
    refine (ht.ready.toNextRegister ht.ok).imp fun r d' ⟨h', hx', hr, hab⟩ => ?_
    have hle := h'.good.stocked.free
    refine ⟨h', ht.ext.trans hx', by omega, fun f hf => ?_⟩
    have h1 := hab f (ht.above f hf)
    have h2 := Operand.cost_le d'.active r
    omega
  split
  · next r hp =>
    have hr : r < d1.maxStack := by
      have := ht.ok.place
      rw [hp] at this
      exact this
    have hcost : ∀ f, e.place.Above d f → f + Operand.cost d1.active r ≤ d1.free := fun f hf => by
      have := (ht.above f hf).cost
      rw [hp] at this
      exact this
    split
    · next hj =>
      refine Writes.pure ⟨ht.ready.wait fun n hn => hn.resolve_right ?_, ht.ext, hr, hcost⟩
      rw [Expr.jumps_eq_nil (by simpa using hj) (by rw [hp]; rfl)]
      exact List.not_mem_nil
    · refine Writes.get fun s hs => ?_
      rw [hs]
      split
      · refine (ht.ready.toRegister ht.ok hr).andThen fun _ d2 ⟨h₂, hx2, hf2⟩ => Writes.pure ?_
        refine ⟨h₂, ht.ext.trans hx2, Nat.lt_of_lt_of_le hr hx2.maxStack, fun f hf => ?_⟩
        rw [hx2.active, hf2 hv]
        exact hcost f hf
      · exact hnext
  · exact hnext

theorem Ready.toRegisterOrUpvalue (h : d.Ready source depth fun n => waiting n ∨ n ∈ e.jumps)
    (he : e.Ok d) :
    Writes (Compile.toRegisterOrUpvalue e) d fun e' d' => Turns source depth waiting d e d' e' ∧
      e'.jumps = [] ∧ ((∃ r, e'.place = .fixed r) ∨ ∃ i, e'.place = .upvalue i) := by
  unfold Compile.toRegisterOrUpvalue
  split
  · next i hp hj =>
    refine Writes.pure ⟨⟨h, .refl _, he, fun _ => id⟩, ?_, .inr ⟨i, hp⟩⟩
    exact Expr.jumps_eq_nil hj (by rw [hp]; rfl)
  · refine (h.toAnyRegister he).andThen fun r d' ⟨h', hx, hr, hab⟩ => Writes.pure ?_
    exact ⟨.of_register h' hx hr hab, rfl, .inl ⟨r, rfl⟩⟩

/-- **A value that no jump leaves**, though it may still be a comparison. -/
theorem Ready.toValue (h : d.Ready source depth fun n => waiting n ∨ n ∈ e.jumps) (he : e.Ok d) :
    Writes (Compile.toValue e) d fun e' d' => Turns source depth waiting d e d' e' ∧
      e'.place.isValue ∧ e'.onTrue = [] ∧ e'.onFalse = [] := by
  unfold Compile.toValue
  split
  · refine (h.toAnyRegister he).andThen fun r d' ⟨h', hx, hr, hab⟩ => Writes.pure ?_
    exact ⟨.of_register h' hx hr hab, rfl, rfl, rfl⟩
  · next hj =>
    simp only [Expr.hasJumps, Bool.not_eq_true, Bool.not_eq_false', Bool.and_eq_true,
      List.isEmpty_iff] at hj
    exact (h.readVariable he).imp fun e' d' ⟨ht, h1, h2, hv, _⟩ =>
      ⟨ht, hv, h1.trans hj.1, h2.trans hj.2⟩

/-- **A value as an operand**: a constant or a register. -/
theorem Ready.toOperand (h : d.Ready source depth fun n => waiting n ∨ n ∈ e.jumps) (he : e.Ok d) :
    Writes (Compile.toOperand e) d fun x d' => d'.Ready source depth waiting ∧ d.Extends d' ∧
      d'.HasOperand x ∧ ∀ f, e.place.Above d f → f + Operand.cost d'.active x ≤ d'.free := by
  refine (h.toValue he).andThen fun e1 d1 ⟨ht, hv, h1, h2⟩ => ?_
  extract_lets next
  have hnext : ∀ e2 d2, Turns source depth waiting d e d2 e2 → e2.onTrue = [] → e2.onFalse = [] →
      Writes (next e2) d2 fun x d' => d'.Ready source depth waiting ∧ d.Extends d' ∧
        d'.HasOperand x ∧ ∀ f, e.place.Above d f → f + Operand.cost d'.active x ≤ d'.free := by
    intro e2 d2 ht2 h1 h2
    have hany : Writes (Compile.toAnyRegister e2) d2 fun x d' => d'.Ready source depth waiting ∧
        d.Extends d' ∧ d'.HasOperand x ∧
        ∀ f, e.place.Above d f → f + Operand.cost d'.active x ≤ d'.free := by
      refine (ht2.ready.toAnyRegister ht2.ok).imp fun r d' ⟨h', hx, hr, hab⟩ => ?_
      exact ⟨h', ht2.ext.trans hx, .of_register hr h'.good.stocked.high,
        fun f hf => hab f (ht2.above f hf)⟩
    dsimp only [next]
    split
    · next k hp =>
      split
      · next hk =>
        have hplace := ht2.ok.place
        rw [hp] at hplace
        have hj : e2.jumps = [] := by simp [Expr.jumps, h1, h2, hp, Place.jumps]
        refine Writes.pure ⟨ht2.ready.wait fun n hn => ?_, ht2.ext, .of_constant hplace hk,
          fun f hf => ?_⟩
        · rw [hj] at hn
          exact hn.resolve_right List.not_mem_nil
        · have := (ht2.above f hf).cost
          rw [Operand.cost_ofConstant hk]
          omega
      · exact hany
    · exact hany
  have hplace := ht.ok.place
  split
  · next c hc =>
    refine (ht.ready.addConstant c).andThen fun k d2 ⟨h₂, hx, hk, ks, hd⟩ => ?_
    have hjp : e1.place.jumps = [] := by
      cases hp : e1.place <;> simp_all [literal?, Place.jumps]
    have hj : ∀ n, n ∈ ({ e1 with place := .constant k } : Expr).jumps ↔ n ∈ e1.jumps := by
      have hkj : (Place.constant k).jumps = [] := rfl
      simp [Expr.mem_jumps, hkj, hjp]
    refine Writes.bind (Writes.pure (hnext { e1 with place := .constant k } d2
      ⟨h₂.wait fun n hn => ?_, ht.ext.trans hx, ⟨hk, fun n hn => ?_, nofun⟩,
        fun f hf => ⟨?_, nofun, nofun⟩⟩ h1 h2))
    · simpa [hj] using hn
    · exact (ht.ok.jumps n ((hj n).mp hn)).kept_jmp hx.kept
    · have := (ht.above f hf).cost
      have hfree : d2.free = d1.free := by rw [hd]
      simp only [Place.cost]
      omega
  · exact Writes.bind (Writes.pure (hnext e1 d1 ht h1 h2))

theorem toOperand_fixed (r : Nat) : Compile.toOperand (.plain (.fixed r)) = pure r := rfl

/-! ## 4. Calls and variable arguments -/

/-- **A number of values is asked of a call or of the variable arguments.** The code may touch
    registers that are still to be taken. -/
theorem Ready.setReturns {n : Option Nat} (h : d.Ready source depth fun m => waiting m ∨ m ∈ e.jumps)
    (he : e.Ok d) (hm : e.place.isMulti) :
    Writes (Compile.setReturns e n) d fun _ d' =>
      d'.GoodFor (max d'.maxStack (d'.free + (n.getD 0 - 1))) source depth waiting ∧
      d.Extends d' ∧ d.free ≤ d'.free ∧ (∀ f, e.place.Above d f → f + 1 ≤ d'.free) ∧
      ∀ pc, e.place = .call pc → d'.OpAt pc .call := by
  have hj : e.jumps = [] := he.jumps_eq_nil (Place.not_value_of_multi hm)
  have h' : d.Ready source depth waiting :=
    h.wait fun n hn => hn.resolve_right (by rw [hj]; exact List.not_mem_nil)
  have hplace := he.place
  unfold Compile.setReturns
  split
  · next pc hp =>
    rw [hp] at hplace
    obtain ⟨i, hi, ho, ha⟩ := hplace
    have hle := h.good.stocked.free
    obtain ⟨hg, hs⟩ := h'.good.mapInstr (Nat.le_max_left d.maxStack (d.free + (n.getD 0 - 1))) pc
      (fun i => i.setC (Operand.ofCount n)) fun k hk => by
        rw [hi] at hk
        cases hk
        have hok := h.good.written.instr pc i hi
        have hfit := hok.fits.resolve_right fun h => by simp [ho] at h
        simp only [Instr.Fits, ho, room] at hfit
        refine ⟨⟨hok.known, .inl ?_, ?_, ?_⟩, .of_opcode rfl (by simp [ho]) (by simp [ho]), .inl rfl⟩
        · simp only [Instr.Fits, Instr.opcode_setC, ho, Instr.a_setC, Instr.b_setC, Instr.c_setC, room]
          cases n with
          | none => simp only [Operand.ofCount, Option.getD]; omega
          | some k =>
            have := Nat.mod_le (k + 1) 512
            simp only [Operand.ofCount, Option.getD]
            omega
        · simp [Instr.Jumps, ho, Op.layout]
        · simp [Instr.Skips, ho]
    refine Writes.modifyFn ⟨hg, hs.toExtends, Nat.le_refl _, fun f hf => ?_, fun pc' hpc => ?_⟩
    · have := hf.cost
      rw [hp] at this
      exact this
    · rw [hp] at hpc
      cases hpc
      refine ⟨i.setC (Operand.ofCount n), ?_, ho⟩
      simp [mapInstr, Array.getElem?_modify, hi]
  · next pc hp =>
    rw [hp] at hplace
    obtain ⟨i, hi, ho⟩ := hplace
    have hle := h.good.stocked.free
    obtain ⟨hg, hs⟩ := h'.good.mapInstr (Nat.le_max_left d.maxStack (d.free + max 1 (n.getD 0))) pc
      (fun i => (i.setB (Operand.ofCount n)).setA d.free) fun k hk => by
        rw [hi] at hk
        cases hk
        have hok := h.good.written.instr pc i hi
        refine ⟨⟨hok.known, .inl ?_, ?_, ?_⟩, .of_opcode rfl (by simp [ho]) (by simp [ho]), .inl rfl⟩
        · simp only [Instr.Fits, Instr.opcode_setA, Instr.opcode_setB, ho, Instr.a_setA, Instr.b_setA,
            Instr.b_setB, room]
          have := Nat.mod_le d.free 256
          cases n with
          | none => simp only [Operand.ofCount, Option.getD]; omega
          | some k =>
            have := Nat.mod_le (k + 1) 512
            simp only [Operand.ofCount, Option.getD]
            omega
        · simp [Instr.Jumps, ho, Op.layout]
        · simp [Instr.Skips, ho]
    refine Writes.bind (Writes.modifyFn ?_)
    refine (hg.reserveFor 1).imp ?_
    rintro _ d' ⟨hg', hx, hd⟩
    have hfree : d'.free = d.free + 1 := by
      rw [hd]
      rfl
    have hmax : d'.maxStack = max d.maxStack (d.free + 1) := by
      rw [hd]
      rfl
    refine ⟨hg'.mono ?_, hs.toExtends.trans hx, by omega, fun f hf => ?_, ?_⟩
    · rw [hmax, hfree]
      omega
    · have := hf.cost
      rw [hp] at this
      simp only [Place.cost] at this
      omega
    · rw [hp]
      simp
  · next h1 h2 =>
    cases hp : e.place with
    | call pc => exact absurd hp (h1 pc)
    | varargs pc => exact absurd hp (h2 pc)
    | _ => rw [hp] at hm; cases hm

/-! ## 5. Variables and fields -/

theorem variable_mono {p : Place} (hp : p.Ok d) (hv : p.isVariable) (hm : d.maxStack ≤ d'.maxStack)
    (hk : d.constants.size ≤ d'.constants.size) (hu : d.upvalues.size ≤ d'.upvalues.size)
    (ha : d.active ≤ d'.active) : p.Ok d' := by
  cases p with
  | localVar r => exact Nat.lt_of_lt_of_le hp ha
  | upvalue i => exact Nat.lt_of_lt_of_le hp hu
  | indexed t k base =>
    cases base with
    | register => exact ⟨Nat.lt_of_lt_of_le hp.1 hm, hp.2.mono hm hk⟩
    | upvalue => exact ⟨Nat.lt_of_lt_of_le hp.1 hu, hp.2.mono hm hk⟩
  | _ => exact nomatch hv

theorem variable_ext {p : Place} (hp : p.Ok d) (hv : p.isVariable) (hx : d.Extends d') : p.Ok d' :=
  variable_mono hp hv hx.maxStack hx.constants (Nat.le_of_eq (by rw [hx.upvalues]))
    (Nat.le_of_eq hx.active.symm)

/-- **A value is stored into a variable.** -/
theorem Ready.storeVariable {target : Place}
    (h : d.Ready source depth fun n => waiting n ∨ n ∈ e.jumps) (he : e.Ok d)
    (ht : target.Ok d) (hv : target.isVariable) :
    Writes (Compile.storeVariable target e) d fun _ d' => d'.Ready source depth waiting ∧
      d.Extends d' := by
  unfold Compile.storeVariable
  split
  · next reg =>
    have hfree : Writes (Compile.freeExpr e) d fun _ d' => d.Extends d' ∧ e.Ok d' ∧
        d'.Ready source depth fun n => waiting n ∨ n ∈ e.jumps := by
      unfold Compile.freeExpr
      split
      · next r hp =>
        refine (Writes.freeRegister r).imp fun _ d' hd => ?_
        subst hd
        refine ⟨.lower d _, ⟨?_, he.jumps, he.whole⟩, h.lower (Nat.sub_le ..)⟩
        have := he.place
        rw [hp] at this ⊢
        exact this
      · exact Writes.pure ⟨.refl d, he, h⟩
    refine hfree.andThen ?_
    rintro _ d1 ⟨hx, he1, h₁⟩
    have hr : reg < d1.maxStack := by
      have h1 : reg < d.active := ht
      have h2 := h.active
      have h3 := hx.maxStack
      omega
    exact (h₁.toRegister he1 hr).imp fun _ d2 hto => ⟨hto.1, hx.trans hto.2.1⟩
  · next i =>
    refine (h.toAnyRegister he).andThen ?_
    rintro r d1 ⟨h₁, hx, hr, _⟩
    refine Writes.bind (Writes.discard ?_)
    refine (h₁.good.emit (Instr.plain_ofABC rfl ..) ?_).imp ?_
    · simp only [Instr.Fits, Instr.opcode_ofABC, Instr.a_ofABC, Instr.b_ofABC]
      refine ⟨Nat.lt_of_le_of_lt (Nat.mod_le ..) hr, Nat.lt_of_le_of_lt (Nat.mod_le ..) ?_⟩
      show i < d1.upvalues.size
      rw [hx.upvalues]
      exact ht
    · rintro _ d2 ⟨_, hg, hs⟩
      refine (Writes.freeRegister r).imp fun _ d3 hd => ?_
      subst hd
      exact ⟨(h₁.steady hs.toSteady hg).lower (Nat.sub_le ..), (hx.trans hs.toExtends).trans (.lower _ _)⟩
  · next table key base =>
    refine (h.toOperand he).andThen ?_
    rintro x d1 ⟨h₁, hx, hop, _⟩
    have ht' := variable_ext ht rfl hx
    have hend : ∀ d2, d2.GoodFor d1.maxStack source depth waiting → d1.Steady d2 →
        Writes (Compile.freeRegister x) d2 fun _ d' => d'.Ready source depth waiting ∧
          d.Extends d' := by
      intro d2 hg hs
      refine (Writes.freeRegister x).imp fun _ d3 hd => ?_
      subst hd
      exact ⟨(h₁.steady hs hg).lower (Nat.sub_le ..), (hx.trans hs.toExtends).trans (.lower _ _)⟩
    refine Writes.bind (Writes.discard ?_)
    cases base with
    | register =>
      refine (h₁.good.emit (Instr.plain_ofABC rfl ..) ?_).imp
        fun _ d2 hemit => hend d2 hemit.2.1 hemit.2.2.toSteady
      simp only [Instr.Fits, Instr.opcode_ofABC, Instr.a_ofABC, Instr.b_ofABC, Instr.c_ofABC]
      exact ⟨Nat.lt_of_le_of_lt (Nat.mod_le ..) ht'.1, ht'.2.field (Nat.le_refl _),
        hop.field (Nat.le_refl _)⟩
    | upvalue =>
      refine (h₁.good.emit (Instr.plain_ofABC rfl ..) ?_).imp
        fun _ d2 hemit => hend d2 hemit.2.1 hemit.2.2.toSteady
      simp only [Instr.Fits, Instr.opcode_ofABC, Instr.a_ofABC, Instr.b_ofABC, Instr.c_ofABC]
      exact ⟨Nat.lt_of_le_of_lt (Nat.mod_le ..) ht'.1, ht'.2.field (Nat.le_refl _),
        hop.field (Nat.le_refl _)⟩
  · next h1 h2 h3 =>
    cases target with
    | localVar r => exact absurd rfl (h1 r)
    | upvalue i => exact absurd rfl (h2 i)
    | indexed t k b => exact absurd rfl (h3 t k b)
    | _ => cases hv

theorem Ready.indexed {table key : Expr}
    (h : d.Ready source depth fun n => waiting n ∨ n ∈ key.jumps) (hk : key.Ok d)
    (ht : table.place.Ok d) (hj : table.onTrue = [] ∧ table.onFalse = [])
    (hp : (∃ r, table.place = .fixed r) ∨ (∃ r, table.place = .localVar r) ∨
      ∃ i, table.place = .upvalue i) :
    Writes (Compile.indexed table key) d fun e' d' =>
      d'.Ready source depth waiting ∧ d.Extends d' ∧ e'.Ok d' ∧ e'.jumps = [] ∧
      e'.place.isVariable ∧
      ∀ f, key.place.Above d (f + table.place.cost d.active) → e'.place.Above d' f := by
  have hstep : ∀ (t : Nat) (base : TableBase),
      (∀ d' : Draft, d.Extends d' → ∀ k, d'.HasOperand k → (Place.indexed t k base).Ok d') →
      (∀ k, (Place.indexed t k base).cost d.active =
        table.place.cost d.active + Operand.cost d.active k) →
      Writes (do return { table with place := .indexed t (← Compile.toOperand key) base }) d
        fun e' d' => d'.Ready source depth waiting ∧ d.Extends d' ∧ e'.Ok d' ∧ e'.jumps = [] ∧
          e'.place.isVariable ∧
          ∀ f, key.place.Above d (f + table.place.cost d.active) → e'.place.Above d' f := by
    intro t base hok hcost
    refine (h.toOperand hk).andThen fun x d1 ⟨h₁, hx, hop, hab⟩ => Writes.pure ?_
    have hnil : ({ table with place := .indexed t x base } : Expr).jumps = [] := by
      simp [Expr.jumps, hj, Place.jumps]
    refine ⟨h₁, hx, ⟨hok d1 hx x hop, by rw [hnil]; nofun, fun _ => hj⟩, hnil, rfl, fun f hf =>
      ⟨?_, nofun, nofun⟩⟩
    have := hab _ hf
    rw [hx.active] at this ⊢
    show f + (Place.indexed t x base).cost d.active ≤ d1.free
    rw [hcost]
    omega
  unfold Compile.indexed
  rcases hp with ⟨r, hp⟩ | ⟨r, hp⟩ | ⟨i, hp⟩ <;> rw [hp] at ht hstep ⊢
  · refine hstep r .register (fun d' hx k hk => ⟨?_, hk⟩) fun k => rfl
    exact Nat.lt_of_lt_of_le ht hx.maxStack
  · refine hstep r .register (fun d' hx k hk => ⟨?_, hk⟩) fun k => ?_
    · have h1 : r < d.active := ht
      have h2 := h.active
      have h3 := hx.maxStack
      omega
    · simp only [Place.cost, Operand.cost_lt ht]
  · refine hstep i .upvalue (fun d' hx k hk => ⟨?_, hk⟩) fun k => ?_
    · rw [hx.upvalues]
      exact ht
    · simp only [Place.cost]
      omega

theorem Ready.method {object : Expr} {c : Nat}
    (h : d.Ready source depth fun n => waiting n ∨ n ∈ object.jumps) (ho : object.Ok d)
    (hc : c < d.constants.size) :
    Writes (Compile.method object (.plain (.constant c))) d fun e' d' =>
      d'.Ready source depth waiting ∧ d.Extends d' ∧ ∃ base, e' = .plain (.fixed base) ∧
        base + 2 ≤ d'.free ∧ ∀ f, object.place.Above d f → f ≤ base := by
  refine (h.toAnyRegister ho).andThen fun r d1 ⟨h₁, hx1, hr, hab⟩ => ?_
  refine (Writes.freeRegister r).andThen fun _ d2 hd2 => ?_
  have h₂ : d2.Ready source depth waiting := by
    rw [hd2]
    exact h₁.lower (Nat.sub_le ..)
  have hx2 : d1.Extends d2 := by
    rw [hd2]
    exact .lower d1 _
  refine Writes.get fun s hs => ?_
  rw [hs]
  refine (h₂.reserve 2).andThen fun _ d3 ⟨h₃, hx3, hd3⟩ => ?_
  have hfree : d3.free = d2.free + 2 := by rw [hd3]
  have hmax : d3.maxStack = max d2.maxStack (d2.free + 2) := by rw [hd3]
  have hx := (hx1.trans hx2).trans hx3
  have hkey : (Expr.plain (.constant c)).Ok d3 :=
    ⟨Nat.lt_of_lt_of_le hc hx.constants, by simp [Expr.jumps, Expr.plain, Place.jumps], nofun⟩
  have habove : (Place.constant c).Above d3 d3.free := ⟨by simp [Place.cost], nofun, nofun⟩
  refine (Ready.toOperand (h₃.wait fun _ => .inl) hkey).andThen fun k d4 ⟨h₄, hx4, hop, hab4⟩ => ?_
  have hcost := hab4 _ habove
  refine Writes.bind (Writes.discard ?_)
  refine (h₄.good.emit (Instr.plain_ofABC rfl ..) ?_).imp fun _ d5 ⟨_, hg, hs5⟩ => ?_
  · have h6 := Nat.mod_le d2.free 256
    have h7 := Nat.mod_le r 512
    have h8 := (hx2.trans hx3).maxStack
    have h9 := hx4.maxStack
    simp only [Instr.Fits, Instr.opcode_ofABC, Instr.a_ofABC, Instr.b_ofABC, Instr.c_ofABC]
    refine ⟨?_, ?_, hop.field (Nat.le_refl _)⟩
    · simp only [room]
      omega
    · simp only [room]
      omega
  · refine (Writes.freeRegister k).andThen fun _ d6 hd6 => Writes.pure ?_
    subst hd6
    refine ⟨(h₄.steady hs5.toSteady hg).lower (Nat.sub_le ..),
      (hx.trans hx4).trans (hs5.toExtends.trans (.lower _ _)), _, rfl, ?_, fun f hf => ?_⟩
    · show d2.free + 2 ≤ d5.free - Operand.cost d5.active k
      rw [hs5.free_eq, hs5.active]
      omega
    · have h6 := hab f hf
      have h7 : d2.free = d1.free - Operand.cost d1.active r := by rw [hd2]
      omega

end Draft

end LuaMachine
