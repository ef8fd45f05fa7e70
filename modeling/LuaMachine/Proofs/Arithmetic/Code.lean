/-
  CODE FOR ARITHMETIC. Code that is written for an operator comes to what the operator makes of its
  operands, the left one first, whether they are literals still or have been brought into registers.

  * **`Compile.Makes.afterRight`**, **`Compile.Makes.unary`** -- operators.
-/
import LuaMachine.Proofs.Arithmetic.Course
import LuaMachine.Proofs.Arithmetic.Limit
import LuaMachine.Proofs.Arithmetic.Tree
import LuaMachine.Proofs.Meaning.Operator

namespace LuaMachine

/-! ## 1. Drafts that grow -/

structure Draft.Clear (d : Draft) : Prop extends d.Roomy where
  here : d.here = []

structure Draft.Adds (d d' : Draft) : Prop where
  rest : ∃ code lines constants high free,
    d' = { d with code := code, lines := lines, constants := constants, maxStack := high, free := free }
  code : ∀ (k : Nat) (i : Instr), d.code[k]? = some i → d'.code[k]? = some i
  constants : ∀ (k : Nat) (c : Constant), d.constants[k]? = some c → d'.constants[k]? = some c
  clear : d'.Clear

structure Draft.Spare (L : Prop) (d : Draft) (registers constants : Nat) : Prop where
  registers : 254 < d.free + registers → L
  constants : Instr.maxAx + 1 < d.constants.size + constants → L

theorem Draft.Spare.mono {L : Prop} {d d' : Draft} {r r' k k' : Nat} (h : d.Spare L r k)
    (hr : d'.free + r' ≤ d.free + r) (hk : d'.constants.size + k' ≤ d.constants.size + k) : d'.Spare L r' k' :=
  ⟨fun hlt => h.registers (by omega), fun hlt => h.constants (by omega)⟩

structure Proto.Holds (p : Proto) (d : Draft) (n : Nat) : Prop where
  code : ∀ k < n, ∀ i, d.code[k]? = some i → p.code[k]? = some i
  constants : ∀ (k : Nat) (c : Constant), d.constants[k]? = some c → p.constants[k]? = some c

namespace Draft

variable {d d1 d' : Draft}

namespace Adds

theorem refl (h : d.Clear) : d.Adds d := ⟨⟨_, _, _, _, _, rfl⟩, fun _ _ => id, fun _ _ => id, h⟩

theorem trans (h : d.Adds d1) (h' : d1.Adds d') : d.Adds d' := by
  refine ⟨?_, fun k i hi => h'.code k i (h.code k i hi), fun k c hc => h'.constants k c (h.constants k c hc), h'.clear⟩
  obtain ⟨_, _, _, _, _, hd1⟩ := h.rest
  obtain ⟨_, _, _, _, _, hd'⟩ := h'.rest
  rw [hd', hd1]
  exact ⟨_, _, _, _, _, rfl⟩

theorem active (h : d.Adds d') : d'.active = d.active := by
  obtain ⟨_, _, _, _, _, hd'⟩ := h.rest
  rw [hd']

theorem pc_le (h : d.Adds d') : d.pc ≤ d'.pc := by
  refine Nat.le_of_not_lt fun hlt : d'.code.size < d.code.size => ?_
  have hi := h.code d'.code.size _ (Array.getElem?_eq_getElem hlt)
  rw [Array.getElem?_eq_none (Nat.le_refl _)] at hi
  cases hi

theorem push (h : d.Clear) (i : Instr) (line : Nat) : d.Adds (d.push i line) := by
  refine ⟨⟨_, _, _, _, _, rfl⟩, fun k j hj => ?_, fun _ _ => id, ⟨⟨h.active, h.free, h.stack, h.constants⟩, h.here⟩⟩
  have hk := (Array.getElem?_eq_some_iff.mp hj).1
  exact (Array.getElem?_push.trans (if_neg (by omega))).trans hj

theorem lower (h : d.Adds d') {n : Nat} (hn : n ≤ d'.free) (ha : d.active ≤ n) : d.Adds { d' with free := n } := by
  refine ⟨?_, h.code, h.constants, ⟨⟨?_, Nat.le_trans hn h.clear.free, h.clear.stack, h.clear.constants⟩, h.clear.here⟩⟩
  · obtain ⟨_, _, _, _, _, hd'⟩ := h.rest
    rw [hd']
    exact ⟨_, _, _, _, _, rfl⟩
  · show d'.active ≤ n
    rw [h.active]
    exact ha

theorem lines (h : d.Adds d') (lines : Array Nat) : d.Adds { d' with lines := lines } := by
  refine ⟨?_, h.code, h.constants, ⟨⟨h.clear.active, h.clear.free, h.clear.stack, h.clear.constants⟩, h.clear.here⟩⟩
  obtain ⟨_, _, _, _, _, hd'⟩ := h.rest
  rw [hd']
  exact ⟨_, _, _, _, _, rfl⟩

theorem pool (h : d.Clear) {ks : Array Constant} (hk : ∀ (k : Nat) (c : Constant), d.constants[k]? = some c → ks[k]? = some c)
    (hs : ks.size ≤ Instr.maxAx + 1) : d.Adds { d with constants := ks } :=
  ⟨⟨_, _, _, _, _, rfl⟩, fun _ _ => id, hk, ⟨⟨h.active, h.free, h.stack, hs⟩, h.here⟩⟩

theorem take (h : d.Clear) {high : Nat} (hr : { d with maxStack := high, free := d.free + 1 }.Roomy) :
    d.Adds { d with maxStack := high, free := d.free + 1 } :=
  ⟨⟨_, _, _, _, _, rfl⟩, fun _ _ => id, fun _ _ => id, ⟨hr, h.here⟩⟩

theorem settle (h : d.Adds d') {pc : Nat} (hpc : d.pc ≤ pc) (reg : Nat) :
    d.Adds (d'.mapInstr pc fun i => i.setA reg) := by
  refine ⟨?_, fun k i hi => ?_, h.constants, ⟨⟨h.clear.active, h.clear.free, h.clear.stack, h.clear.constants⟩, h.clear.here⟩⟩
  · obtain ⟨_, _, _, _, _, hd'⟩ := h.rest
    rw [hd']
    exact ⟨_, _, _, _, _, rfl⟩
  · have hk : k < d.pc := (Array.getElem?_eq_some_iff.mp hi).1
    exact (Array.getElem?_modify.trans (if_neg (by omega))).trans (h.code k i hi)

end Adds

end Draft

theorem Proto.Holds.mono {p : Proto} {d d' : Draft} {n n' : Nat} (h : p.Holds d' n') (ha : d.Adds d') (hn : n ≤ n') :
    p.Holds d n :=
  ⟨fun k hk i hi => h.code k (by omega) i (ha.code k i hi), fun k c hc => h.constants k c (ha.constants k c hc)⟩

theorem Draft.code_push (d : Draft) (i : Instr) (line : Nat) : (d.push i line).code[d.pc]? = some i :=
  Array.getElem?_push.trans (if_pos rfl)

theorem Draft.Clear.cost_next {d : Draft} (hc : d.Clear) (h : d.free < 256) : Operand.cost d.active d.free = 1 :=
  Compile.cost_free h hc.active

/-! ## 2. Expressions and operands -/

abbrev Result := Except OperandFault Value

/-- From `d` to `d'` code has been written for an expression of `k` numerals that comes to `f`: none for a
    numeral, else code whose last instruction still wants its register. -/
inductive Calculated (d : Draft) (f : Result) (k : Nat) : Expr → Draft → Prop where
  | numeral (n : Number) (hk : 1 ≤ k) (hf : f = .ok (.ofNumber n)) : Calculated d f k n.expr d
  | pending {pc : Nat} {d' : Draft} (adds : d.Adds d') (pool : d'.constants.size ≤ d.constants.size + k)
      (pc_le : d.pc ≤ pc) (last : d'.pc = pc + 1) (free : d'.free = d.free)
      (runs : ∀ (p : Proto) (i : Instr) (reg : Nat), p.Holds d' pc → d'.code[pc]? = some i →
        p.code[pc]? = some (i.setA reg) → d.free ≤ reg → reg < 256 →
        ∀ regs, p.Comes d.free ⟨d.pc, regs⟩ (pc + 1) (fun regs v => p.value? regs reg = some v) f) :
      Calculated d f k (.plain (.pending pc)) d'

/-- From `d` to `d'` code has been written that makes `f` an operand: a constant, or the register that
    was free. -/
structure Delivered (d : Draft) (f : Result) (k x : Nat) (d' : Draft) : Prop where
  adds : d.Adds d'
  pool : d'.constants.size ≤ d.constants.size + k
  lt : x < 512
  place : Operand.isConstant x = true ∨ x = d.free
  free : d'.free = d.free + Operand.cost d.active x
  runs : ∀ (p : Proto) (regs : Nat → Value), p.Holds d' d'.pc →
    p.Comes d.free ⟨d.pc, regs⟩ d'.pc (fun regs v => p.value? regs x = some v) f

theorem Delivered.more {d d' : Draft} {f : Result} {k k' x : Nat} (h : Delivered d f k x d') (hk : k ≤ k') :
    Delivered d f k' x d' :=
  ⟨h.adds, Nat.le_trans h.pool (Nat.add_le_add_left hk _), h.lt, h.place, h.free, h.runs⟩

inductive Prepared (d : Draft) (f : Result) (k : Nat) : Expr → Draft → Prop where
  | numeral (n : Number) (hk : 1 ≤ k) (hf : f = .ok (.ofNumber n)) : Prepared d f k n.expr d
  | register {d' : Draft} (h : Delivered d f k d.free d') : Prepared d f k (.plain (.fixed d.free)) d'

section

variable {d d1 d' : Draft} {f f₁ f₂ : Result} {k k1 k2 : Nat}

/-- Both operands of an operator are in place. -/
structure Paired (d : Draft) (f₁ f₂ : Result) (k x y : Nat) (d' : Draft) : Prop where
  adds : d.Adds d'
  pool : d'.constants.size ≤ d.constants.size + k
  left : x < 512
  right : y < 512
  free : d'.free = d.free + (Operand.cost d.active x + Operand.cost d.active y)
  runs : ∀ (p : Proto) (regs : Nat → Value), p.Holds d' d'.pc →
    p.Comes d.free ⟨d.pc, regs⟩ d'.pc (fun regs v => p.value? regs x = some v.1 ∧ p.value? regs y = some v.2) do
      let a ← f₁
      let b ← f₂
      return (a, b)

theorem Delivered.stays {x : Nat} (hc : d.Clear) (h : Delivered d f k x d') :
    Operand.isConstant x = true ∨ x < d'.free := by
  rcases h.place with hx | rfl
  · exact .inl hx
  · have := h.adds.clear.free
    have := h.adds.clear.stack
    have := h.free
    have := hc.cost_next (by omega)
    exact .inr (by omega)

theorem Paired.of_numeral {n : Number} {x y : Nat} (hc : d.Clear) (hy : Delivered d f k2 y d1)
    (hx : Delivered d1 (.ok (.ofNumber n)) k1 x d') : Paired d (.ok (.ofNumber n)) f (k1 + k2) x y d' := by
  refine ⟨hy.adds.trans hx.adds, by have := hx.pool; have := hy.pool; omega, hx.lt, hy.lt, ?_, fun p regs hp => ?_⟩
  · rw [hx.free, hy.free, hy.adds.active]
    omega
  · refine (hy.runs p regs (hp.mono hx.adds hx.adds.pc_le)).bind fun regs1 b _ hb => ?_
    have hle : d.free ≤ d1.free := by
      rw [hy.free]
      omega
    obtain ⟨regs2, hcourse, ha⟩ := hx.runs p regs1 hp
    exact ⟨regs2, hcourse.mono hle, ha, (hcourse.value? (hy.stays hc)).trans hb⟩

theorem Paired.of_register {y : Nat} (hc : d.Clear) (hx : Delivered d f₁ k1 d.free d1)
    (hy : Delivered d1 f₂ k2 y d') : Paired d f₁ f₂ (k1 + k2) d.free y d' := by
  refine ⟨hx.adds.trans hy.adds, by have := hx.pool; have := hy.pool; omega, hx.lt, hy.lt, ?_, fun p regs hp => ?_⟩
  · rw [hy.free, hx.free, hx.adds.active]
    omega
  · refine (hx.runs p regs (hp.mono hy.adds hy.adds.pc_le)).bind fun regs1 a _ ha => ?_
    have hle : d.free ≤ d1.free := by
      rw [hx.free]
      omega
    refine Proto.Comes.mono ((hy.runs p regs1 hp).bind fun regs2 b hcourse hb => ?_) hle
    exact ⟨regs2, .refl _, (hcourse.value? (hx.stays hc)).trans ha, hb⟩

end

namespace Compile.Makes

variable {L : Prop} {d d1 d2 d3 d' : Draft} {f f₁ f₂ : Result} {e e1 e2 : Expr} {k k1 k2 reg : Nat} {c : Constant}

/-! ## 3. Registers -/

theorem loadConstant (hc : d.Clear) (hk : d.constants[k]? = some c) (hreg : reg < 256) :
    Makes L (Compile.loadConstant reg k) d fun _ d' => d.Adds d' ∧ d'.free = d.free ∧ d'.constants = d.constants ∧
      ∀ (p : Proto) (low : Nat) (regs : Nat → Value), low ≤ reg → p.Holds d' d'.pc →
        p.Comes low ⟨d.pc, regs⟩ d'.pc (fun regs v => p.value? regs reg = some v) (.ok (.ofConstant c)) := by
  have hmod : reg % 256 = reg := Nat.mod_eq_of_lt hreg
  have hmax : k ≤ Instr.maxAx := by
    have := (Array.getElem?_eq_some_iff.mp hk).1
    have := hc.constants
    omega
  unfold Compile.loadConstant
  split
  · next hbx =>
    refine discard ((emit hc.here).imp ?_)
    rintro _ _ ⟨rfl, line, rfl⟩
    refine ⟨.push hc _ _, rfl, rfl, fun p low regs hlow hp => ?_⟩
    have hi := hp.code d.pc (by simp [Draft.push, Draft.pc]) _ (d.code_push _ _)
    have he := Proto.effect_loadK (s := ⟨d.pc, regs⟩) hi (by simp) (by rw [bx_ofABx hbx]; exact hp.constants k c hk)
    rw [Instr.a_ofABx, hmod] at he
    have hpc : (d.push (Instr.ofABx .loadK reg k) line).pc = d.pc + 1 := by simp [Draft.push, Draft.pc]
    rw [hpc]
    exact ⟨_, .write (n := 0) (.inl he) hlow, (Proto.value?_register hreg).trans (congrArg some (if_pos rfl))⟩
  · refine andThen (P := fun _ d' => ∃ line, d' = d.push (Instr.ofABx .loadKx reg 0) line)
      (discard ((emit hc.here).imp fun _ _ h => h.2)) ?_
    rintro _ _ ⟨line, rfl⟩
    have h1 : d.Adds (d.push (Instr.ofABx .loadKx reg 0) line) := .push hc _ _
    refine discard ((emit h1.clear.here).imp ?_)
    rintro _ _ ⟨rfl, line', rfl⟩
    have h2 := Draft.Adds.push h1.clear (Instr.ofAx .extraArg k) line'
    refine ⟨h1.trans h2, rfl, rfl, fun p low regs hlow hp => ?_⟩
    have hpc1 : (d.push (Instr.ofABx .loadKx reg 0) line).pc = d.pc + 1 := by simp [Draft.push, Draft.pc]
    have hpc : ((d.push (Instr.ofABx .loadKx reg 0) line).push (Instr.ofAx .extraArg k) line').pc = d.pc + 2 := by
      simp [Draft.push, Draft.pc]
    have hi := hp.code d.pc (by rw [hpc]; omega) _ (h2.code _ _ (d.code_push _ _))
    have hnext := hp.code (d.pc + 1) (by rw [hpc]; omega) _ (by rw [← hpc1]; exact Draft.code_push _ _ _)
    have he := Proto.effect_loadKx (s := ⟨d.pc, regs⟩) hi (by simp) hnext
      (by rw [ax_ofAx hmax]; exact hp.constants k c hk)
    rw [Instr.a_ofABx, hmod] at he
    rw [hpc]
    exact ⟨_, .write (n := 1) (.inl he) hlow, (Proto.value?_register hreg).trans (congrArg some (if_pos rfl))⟩

def isLoose : Place → Bool
  | .constant _ | .float _ | .int _ | .pending _ => true
  | _ => false

theorem toNextRegister_loose {q : Place} {Q : Draft → Prop} (hq : isLoose q = true) (hc : d.Clear) (hl : 254 ≤ d.free → L)
    (h : ∀ high, d.Adds { d with maxStack := high, free := d.free + 1 } → d.free < 254 →
      Makes L (settle (.plain q) d.free) { d with maxStack := high, free := d.free + 1 } fun e d' =>
        e = .plain (.fixed d.free) ∧ Q d') :
    Makes L (Compile.toNextRegister (.plain q)) d fun r d' => r = d.free ∧ Q d' := by
  have hread : Compile.readVariable (.plain q) = Pure.pure (.plain q) := by
    cases q <;> first | rfl | cases hq
  have hfree : Compile.freeExpr (.plain q) = Pure.pure () := by
    cases q <;> first | rfl | cases hq
  unfold Compile.toNextRegister
  rw [hread, pure_bind, hfree, pure_bind]
  refine (reserve hc.toRoomy hl).andThen ?_
  rintro _ _ ⟨hlt, high, rfl, hroomy⟩
  refine topRegister ?_
  show Makes L (Compile.toRegister (.plain q) d.free >>= fun _ => Pure.pure d.free) _ _
  refine andThen (P := fun _ d' => Q d') ?_ fun _ _ hq => pure ⟨rfl, hq⟩
  refine (h high (.take hc hroomy) hlt).andThen ?_
  rintro _ d2 ⟨rfl, hq⟩
  exact pure hq

theorem settle_constant {q : Place} {high : Nat} (hc : d.Clear) (ha : d.Adds { d with maxStack := high, free := d.free + 1 })
    (hlt : d.free < 254) {ks : Array Constant} (hk : ks[k]? = some c)
    (hpre : ∀ (k : Nat) (c : Constant), d.constants[k]? = some c → ks[k]? = some c) (hs : ks.size ≤ Instr.maxAx + 1)
    (hsize : ks.size ≤ d.constants.size + k1) :
    Makes L (Compile.loadConstant d.free k >>= fun _ => Pure.pure { Expr.plain q with place := Place.fixed d.free })
      { d with maxStack := high, free := d.free + 1, constants := ks } fun e d' =>
        e = .plain (.fixed d.free) ∧ Delivered d (.ok (.ofConstant c)) k1 d.free d' := by
  have h2 : d.Adds { d with maxStack := high, free := d.free + 1, constants := ks } := ha.trans (.pool ha.clear hpre hs)
  refine (loadConstant h2.clear hk (by omega)).andThen ?_
  rintro _ d' ⟨ha', hf, hpool, hruns⟩
  refine pure ⟨rfl, h2.trans ha', by rw [hpool]; exact hsize, by omega, .inr rfl, ?_, fun p regs hp => hruns p d.free regs (Nat.le_refl _) hp⟩
  rw [hc.cost_next (by omega), hf]

theorem toNextRegister_constant (hc : d.Clear) (hl : 254 ≤ d.free → L) (hk : d.constants[k]? = some c) :
    Makes L (Compile.toNextRegister (.plain (.constant k))) d fun r d' =>
      r = d.free ∧ Delivered d (.ok (.ofConstant c)) 0 d.free d' :=
  toNextRegister_loose rfl hc hl fun _ ha hlt => settle_constant hc ha hlt hk (fun _ _ => id) hc.constants (Nat.le_refl _)

def constantOf : Number → Constant
  | .int i => .int i
  | .float x => .float x

theorem ofConstant_constantOf (n : Number) : Value.ofConstant (constantOf n) = .ofNumber n := by
  cases n <;> rfl

theorem toNextRegister_numeral (hc : d.Clear) (hs : d.Spare L 1 1) (n : Number) :
    Makes L (Compile.toNextRegister n.expr) d fun r d' => r = d.free ∧ Delivered d (.ok (.ofNumber n)) 1 d.free d' := by
  have hl (h : 254 ≤ d.free) : L := hs.registers (by omega)
  rw [← ofConstant_constantOf]
  have hsettle (q : Place) (c : Constant) (high : Nat) (ha : d.Adds { d with maxStack := high, free := d.free + 1 })
      (hlt : d.free < 254) :
      Makes L (do let k ← Compile.addConstant c; Compile.loadConstant d.free k; Pure.pure { Expr.plain q with place := .fixed d.free })
        { d with maxStack := high, free := d.free + 1 } fun e d' =>
          e = .plain (.fixed d.free) ∧ Delivered d (.ok (.ofConstant c)) 1 d.free d' := by
    refine (addConstant c ha.clear.toRoomy fun h => hs.constants (Nat.succ_lt_succ h)).andThen ?_
    rintro k _ ⟨ks, rfl, hk, hpre, hmax, hsize⟩
    exact settle_constant hc ha hlt hk hpre hmax hsize
  cases n with
  | int i => exact toNextRegister_loose rfl hc hl (hsettle (.int i) (.int i))
  | float x => exact toNextRegister_loose rfl hc hl (hsettle (.float x) (.float x))

theorem toNextRegister_pending {pc : Nat} (hc : d.Clear) (hs : d.Spare L 1 k)
    (h : Calculated d f k (.plain (.pending pc)) d1) :
    Makes L (Compile.toNextRegister (.plain (.pending pc))) d1 fun r d' => r = d.free ∧ Delivered d f k d.free d' := by
  generalize he : Expr.plain (.pending pc) = e at h
  cases h with
  | numeral n => cases n <;> cases he
  | pending adds pool pc_le last free runs =>
    cases he
    rw [← free]
    refine toNextRegister_loose rfl adds.clear (fun h => hs.registers (by omega)) fun high ha hlt => ?_
    show Makes L (Compile.modifyFn (fun d => d.mapInstr pc fun i => i.setA d1.free) >>= fun _ =>
      Pure.pure { Expr.plain (.pending pc) with place := .fixed d1.free }) _ _
    refine (modifyFn rfl : Makes L _ _ fun _ d' =>
      d' = { d1 with maxStack := high, free := d1.free + 1 }.mapInstr pc fun i => i.setA d1.free).andThen ?_
    rintro _ _ rfl
    refine pure ⟨rfl, (adds.trans ha).settle pc_le _, pool, by omega, .inr free, ?_, fun p regs hp => ?_⟩
    · show d1.free + 1 = _
      rw [free] at hlt
      rw [free, hc.cost_next (by omega)]
    · obtain ⟨i, hi⟩ : ∃ i, d1.code[pc]? = some i := ⟨_, Array.getElem?_eq_getElem (by have : d1.code.size = pc + 1 := last; omega)⟩
      have hpc : (({ d1 with maxStack := high, free := d1.free + 1 } : Draft).mapInstr pc fun i => i.setA d1.free).pc = pc + 1 := by
        show (d1.code.modify pc _).size = pc + 1
        rw [Array.size_modify]
        exact last
      have hcode (k : Nat) (hk : k < pc) (i : Instr) (hi : d1.code[k]? = some i) : p.code[k]? = some i :=
        hp.code k (by rw [hpc]; omega) i ((Array.getElem?_modify.trans (if_neg (by omega))).trans hi)
      have hlast : p.code[pc]? = some (i.setA d1.free) :=
        hp.code pc (by rw [hpc]; omega) _ ((Array.getElem?_modify.trans (if_pos rfl)).trans (by rw [hi]; rfl))
      rw [hpc]
      exact runs p i d1.free ⟨hcode, hp.constants⟩ hi hlast (Nat.le_of_eq free.symm) (by omega) regs

/-- **An expression gets the next register.** -/
theorem toNextRegister (hc : d.Clear) (hs : d.Spare L 1 k) (h : Calculated d f k e d1) :
    Makes L (Compile.toNextRegister e) d1 fun r d' => r = d.free ∧ Delivered d f k d.free d' := by
  cases h with
  | numeral n hk hf =>
    rw [hf]
    refine (toNextRegister_numeral hc (hs.mono (Nat.le_refl _) (Nat.add_le_add_left hk _)) n).imp ?_
    exact fun r d' h => ⟨h.1, h.2.more hk⟩
  | pending adds pool pc_le last free runs => exact toNextRegister_pending hc hs (.pending adds pool pc_le last free runs)

/-! ## 4. Operands -/

theorem toAnyRegister (hc : d.Clear) (hs : d.Spare L 1 k) (h : Calculated d f k e d1) :
    Makes L (Compile.toAnyRegister e) d1 fun r d' => r = d.free ∧ Delivered d f k d.free d' := by
  have hnext := toNextRegister hc hs h
  cases h with
  | numeral n => cases n <;> exact hnext
  | pending => exact hnext

theorem toOperand_numeral (hc : d.Clear) (hs : d.Spare L 1 1) (n : Number) :
    Makes L (Compile.toOperand n.expr) d fun x d' => Delivered d (.ok (.ofNumber n)) 1 x d' := by
  have hconstant : Makes L (do
      let k ← Compile.addConstant (constantOf n)
      if k ≤ Operand.maxConstant then return Operand.ofConstant k else Compile.toAnyRegister (.plain (.constant k))) d
      fun x d' => Delivered d (.ok (.ofNumber n)) 1 x d' := by
    refine (addConstant _ hc.toRoomy fun h => hs.constants (Nat.succ_lt_succ h)).andThen ?_
    rintro k _ ⟨ks, rfl, hk, hpre, hmax, hsize⟩
    have hpool : d.Adds { d with constants := ks } := .pool hc hpre hmax
    rw [← ofConstant_constantOf]
    split
    · next hle =>
      obtain ⟨hconst, -, hlt⟩ := Operand.isConstant_ofConstant hle
      refine pure ⟨hpool, hsize, hlt, .inl hconst, ?_, fun p regs hp => ⟨regs, .refl _, ?_⟩⟩
      · rw [Operand.cost_ofConstant hle]
        rfl
      · exact Proto.value?_constant hle (hp.constants k _ hk)
    · refine (toNextRegister_constant hpool.clear (fun h => hs.registers (Nat.lt_succ_of_le h)) hk).imp ?_
      rintro _ d' ⟨rfl, h⟩
      exact ⟨hpool.trans h.adds, Nat.le_trans h.pool hsize, h.lt, h.place, h.free, h.runs⟩
  cases n <;> exact hconstant

/-- **An expression becomes an operand.** -/
theorem toOperand (hc : d.Clear) (hs : d.Spare L 1 k) (h : Calculated d f k e d1) :
    Makes L (Compile.toOperand e) d1 fun x d' => Delivered d f k x d' := by
  have hany := toAnyRegister hc hs h
  cases h with
  | numeral n hk hf =>
    rw [hf]
    refine (toOperand_numeral hc (hs.mono (Nat.le_refl _) (Nat.add_le_add_left hk _)) n).imp ?_
    exact fun x d' h => h.more hk
  | pending =>
    refine Makes.imp hany ?_
    rintro _ _ ⟨rfl, h⟩
    exact h

/-! ## 5. Operators -/

theorem emitOperator {α : Type} {i : Instr} {line : Nat} {Q : Proto → (Nat → Value) → α → Prop}
    {r : Except OperandFault α} {g : α → Result} (h : d.Adds d1) (hf : d1.free = d.free)
    (hpool : d1.constants.size ≤ d.constants.size + k)
    (hruns : ∀ (p : Proto) (regs : Nat → Value), p.Holds d1 d1.pc → p.Comes d.free ⟨d.pc, regs⟩ d1.pc (Q p) r)
    (hop : ∀ (p : Proto) (s : Spot) (reg : Nat) (a : α), Q p s.regs a → reg < 256 → p.code[s.pc]? = some (i.setA reg) →
      p.operate? s = some ((g a).map (s.put reg))) :
    Makes L (do let pc ← Compile.emit i; Compile.fixLine line; return .plain (.pending pc)) d1 fun e d' =>
      Calculated d (r >>= g) k e d' := by
  refine (emit h.clear.here).andThen ?_
  rintro _ _ ⟨rfl, line', rfl⟩
  refine (fixLine line).andThen ?_
  rintro _ _ ⟨lines, rfl⟩
  have ha : d1.Adds { d1.push i line' with lines := lines } := (Draft.Adds.push h.clear i line').lines lines
  refine pure (.pending (h.trans ha) hpool h.pc_le ?_ hf ?_)
  · simp [Draft.push, Draft.pc]
  · intro p j reg hp hj hlast hle hlt regs
    have hi : j = i := Option.some.inj (hj.symm.trans (d1.code_push i line'))
    rw [hi] at hlast
    refine (hruns p regs (hp.mono ha (Nat.le_refl _))).bind fun regs' a _ hq => ?_
    exact Proto.comes_of_operate (s := ⟨d1.pc, regs'⟩) (hop p _ reg a hq hlt hlast) hle hlt

theorem operator?_opcode (op : ArithOp) : Exec.operator? op.opcode = some op := by
  cases op <;> rfl

theorem beforeRight {op : ArithOp} (hc : d.Clear) (hs : d.Spare L 1 k) (h : Calculated d f k e d1) :
    Makes L (Compile.beforeRight (.arith op) e) d1 fun e' d' => Prepared d f k e' d' := by
  have hany := toAnyRegister hc hs h
  cases h with
  | numeral n hk hf =>
    unfold Compile.beforeRight
    rw [Number.numeral?_expr]
    exact pure (.numeral n hk hf)
  | pending =>
    refine andThen (P := fun x d' => x = d.free ∧ Delivered d f k d.free d') hany ?_
    rintro _ d' ⟨rfl, h⟩
    have hlt : d.free < 256 := by
      have := h.adds.clear.free
      have := h.adds.clear.stack
      have := h.free
      omega
    refine pure ?_
    unfold Expr.ofOperand
    rw [Operand.isConstant_of_lt hlt]
    exact .register h

theorem operands (hc : d.Clear) (hs : d.Spare L 2 (k1 + k2)) (h1 : Prepared d f₁ k1 e1 d2)
    (h2 : Calculated d2 f₂ k2 e2 d3) :
    Makes L (do let y ← Compile.toOperand e2; let x ← Compile.toOperand e1; return (x, y)) d3 fun v d' =>
      Paired d f₁ f₂ (k1 + k2) v.1 v.2 d' := by
  cases h1 with
  | numeral n hk hf =>
    rw [hf]
    refine (toOperand hc (hs.mono (by omega) (by omega)) h2).andThen fun y d4 hy => ?_
    have hpool := hy.pool
    have hfree := hy.free
    have hcost := Operand.cost_le d.active y
    refine (toOperand_numeral hy.adds.clear (hs.mono (by omega) (by omega)) n).andThen fun x d' hx => pure ?_
    exact .of_numeral hc hy (hx.more hk)
  | register hx =>
    have hpool := hx.pool
    have hfree := hx.free
    have hcost := Operand.cost_le d.active d.free
    refine (toOperand hx.adds.clear (hs.mono (by omega) (by omega)) h2).andThen fun y d4 hy => ?_
    exact pure (.of_register hc hx hy)

theorem emitBinary {op : ArithOp} (line : Nat) (hu : op.isUnary = false) (hc : d.Clear) (hs : d.Spare L 2 (k1 + k2))
    (h1 : Prepared d f₁ k1 e1 d2) (h2 : Calculated d2 f₂ k2 e2 d3) :
    Makes L (Compile.emitBinary op.opcode e1 e2 line) d3 fun e d' =>
      Calculated d (do let a ← f₁; let b ← f₂; Value.arith op a b) (k1 + k2) e d' := by
  have hall : Makes L (do
      let v ← (do let y ← Compile.toOperand e2; let x ← Compile.toOperand e1; return (x, y))
      Compile.freeRegisters v.1 v.2
      let pc ← Compile.emitABC op.opcode 0 v.1 v.2
      Compile.fixLine line
      return .plain (.pending pc)) d3 fun e d' =>
      Calculated d ((do let a ← f₁; let b ← f₂; return (a, b)) >>= fun v => Value.arith op v.1 v.2) (k1 + k2) e d' := by
    refine (operands hc hs h1 h2).andThen fun v d4 h => ?_
    refine (freeRegisters v.1 v.2).andThen ?_
    rintro _ _ rfl
    have hfree : d4.free - (Operand.cost d4.active v.1 + Operand.cost d4.active v.2) = d.free := by
      rw [h.free, h.adds.active, Nat.add_sub_cancel]
    rw [hfree]
    refine emitOperator (h.adds.lower (by rw [h.free]; omega) hc.active) rfl h.pool
      (fun p regs hp => h.runs p regs ⟨hp.code, hp.constants⟩) ?_
    rintro p s reg a ⟨hx, hy⟩ hlt hi
    have hb : ((Instr.ofABC op.opcode 0 v.1 v.2).setA reg).b.val = v.1 := Nat.mod_eq_of_lt h.left
    have hc : ((Instr.ofABC op.opcode 0 v.1 v.2).setA reg).c.val = v.2 := Nat.mod_eq_of_lt h.right
    have ha : ((Instr.ofABC op.opcode 0 v.1 v.2).setA reg).a.val = reg := Nat.mod_eq_of_lt hlt
    have ho := Proto.operate_binary hi (by rw [Instr.opcode_setA, Instr.opcode_ofABC]; exact operator?_opcode op) hu
      (by rw [hb]; exact hx) (by rw [hc]; exact hy)
    rw [ha] at ho
    exact ho
  simp only [bind_assoc, pure_bind] at hall
  exact hall

/-- **The operator between two operands**: numerals are joined at once where that makes no difference. -/
theorem afterRight {op : Binary} {line : Nat} (hc : d.Clear) (hs : d.Spare L 2 (k1 + k2))
    (h1 : Prepared d f₁ k1 e1 d2) (h2 : Calculated d2 f₂ k2 e2 d3) :
    Makes L (Compile.afterRight (.arith op.operator) e1 e2 line) d3 fun e d' =>
      Calculated d (do let a ← f₁; let b ← f₂; Value.arith op.operator a b) (k1 + k2) e d' := by
  have hwritten := emitBinary line op.not_unary hc hs h1 h2
  unfold Compile.afterRight
  dsimp only
  split
  · next e hfold =>
    cases h1 with
    | register =>
      rw [fold?_none (.inl rfl)] at hfold
      cases hfold
    | numeral n1 hk1 hf1 =>
      cases h2 with
      | pending =>
        rw [fold?_none (.inr rfl)] at hfold
        cases hfold
      | numeral n2 hk2 hf2 =>
        obtain ⟨c, rfl, harith⟩ := fold?_binary op.not_unary hfold
        refine pure (.numeral c (Nat.le_add_right_of_le hk1) ?_)
        rw [hf1, hf2]
        exact harith
  · exact hwritten

theorem emitUnary {op : ArithOp} (line : Nat) (hu : op.isUnary = true) (hc : d.Clear) (hs : d.Spare L 1 k)
    (h : Calculated d f k e d1) :
    Makes L (Compile.emitUnary op.opcode e line) d1 fun e d' =>
      Calculated d (do let a ← f; Value.arith op a a) k e d' := by
  refine (toAnyRegister hc hs h).andThen ?_
  rintro _ d2 ⟨rfl, h⟩
  refine (freeRegister d.free).andThen ?_
  rintro _ _ rfl
  have hfree : d2.free - Operand.cost d2.active d.free = d.free := by
    rw [h.free, h.adds.active, Nat.add_sub_cancel]
  rw [hfree]
  refine emitOperator (h.adds.lower (by rw [h.free]; omega) hc.active) rfl h.pool
      (fun p regs hp => h.runs p regs ⟨hp.code, hp.constants⟩) ?_
  intro p s reg a hx hlt hi
  have hb : ((Instr.ofABC op.opcode 0 d.free 0).setA reg).b.val = d.free := Nat.mod_eq_of_lt h.lt
  have ha : ((Instr.ofABC op.opcode 0 d.free 0).setA reg).a.val = reg := Nat.mod_eq_of_lt hlt
  have ho := Proto.operate_unary hi (by rw [Instr.opcode_setA, Instr.opcode_ofABC]; exact operator?_opcode op) hu
    (by rw [hb]; exact hx)
  rw [ha] at ho
  exact ho

theorem foldUnary (op : Unary) (line : Nat) (hc : d.Clear) (hs : d.Spare L 1 k) (h : Calculated d f k e d1) :
    Makes L (match fold? op.operator e (.plain (.int 0)) with
      | some r => return r
      | none => Compile.emitUnary op.operator.opcode e line) d1 fun e d' =>
      Calculated d (do let a ← f; Value.arith op.operator a a) k e d' := by
  have hwritten := emitUnary line op.is_unary hc hs h
  split
  · next e' hfold =>
    cases h with
    | pending =>
      rw [fold?_none (.inl rfl)] at hfold
      cases hfold
    | numeral n hk hf =>
      obtain ⟨c, rfl, harith⟩ := fold?_unary op.is_unary hfold
      refine pure (.numeral c hk ?_)
      rw [hf]
      exact harith
  · exact hwritten

/-- **The operator before an operand**: a numeral is changed at once where that makes no difference. -/
theorem unary {op : Unary} {line : Nat} (hc : d.Clear) (hs : d.Spare L 1 k) (h : Calculated d f k e d1) :
    Makes L (Compile.unary op.unary e line) d1 fun e d' =>
      Calculated d (do let a ← f; Value.arith op.operator a a) k e d' := by
  have hfold := foldUnary op line hc hs h
  cases op <;> exact hfold

end Compile.Makes

end LuaMachine
