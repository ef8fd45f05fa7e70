/-
  VALUES HOLD THE REGISTERS ON TOP. An expression that is read from register `base` on holds the registers
  from there up to the first free one, whatever it is; so what is given back is on top.
-/
import LuaMachine.Proofs.Registers.Judgement

namespace LuaMachine

/-! ## 1. What is held -/

namespace Registers

structure Sound (r : Registers) : Prop where
  free : r.free ≤ r.maxStack
  high : r.maxStack ≤ 254

structure Stays (r r' : Registers) : Prop where
  active : r'.active = r.active
  levels : r'.levels = r.levels
  sound : r'.Sound

theorem Stays.trans {r r' r'' : Registers} (h : r.Stays r') (h' : r'.Stays r'') : r.Stays r'' :=
  ⟨h'.active.trans h.active, h'.levels.trans h.levels, h'.sound⟩

theorem Sound.stays {r : Registers} (h : r.Sound) : r.Stays r := ⟨rfl, rfl, h⟩

theorem Stays.lower {r r' r'' : Registers} {n : Nat} (h : r.Stays r') (hr : r'' = { r' with free := n })
    (hn : n ≤ r'.free) : r.Stays r'' := by
  subst hr
  exact ⟨h.active, h.levels, Nat.le_trans hn h.sound.free, h.sound.high⟩

end Registers

/-- The operand holds the registers from `base` up to `free`: none if it is a constant or a local, else
    the one at `base`. -/
def Operand.Holds (active base free x : Nat) : Prop :=
  (((∃ k ≤ maxConstant, x = ofConstant k) ∨ x < active) ∧ free = base) ∨ (x = base ∧ free = base + 1 ∧ active ≤ base)

theorem Operand.Holds.le {active base free x : Nat} (h : Operand.Holds active base free x) : base ≤ free := by
  rcases h with ⟨-, h⟩ | ⟨-, h, -⟩ <;> omega

/-- The expression holds the registers of the draft from `base` on. -/
def Place.Rests (d : Draft) (base : Nat) : Place → Prop
  | void => False
  | fixed r => Operand.Holds d.active base d.free r
  | localVar r => r < d.active ∧ d.free = base
  | indexed t k .register => ∃ mid, Operand.Holds d.active base mid t ∧ Operand.Holds d.active mid d.free k
  | indexed _ k .upvalue => Operand.Holds d.active base d.free k
  | pending pc => d.free = base ∧ ((d.instr pc).opcode = .concat → (d.instr pc).b.val = base)
  | call pc => (d.instr pc).a.val = base ∧ d.free = base + 1 ∧ d.active ≤ base
  | varargs pc => d.free = base ∧ (d.instr pc).opcode = .vararg
  | _ => d.free = base

def Place.IsTable (active base free : Nat) : Place → Prop
  | fixed r | localVar r => Operand.Holds active base free r
  | upvalue _ => free = base
  | _ => False

namespace Place

variable {d : Draft} {base : Nat} {p : Place}

theorem Rests.le (h : p.Rests d base) : base ≤ d.free := by
  cases p with
  | void => exact h.elim
  | fixed r => exact Operand.Holds.le h
  | indexed t k b =>
    cases b with
    | register =>
      obtain ⟨mid, ht, hk⟩ := h
      exact Nat.le_trans ht.le hk.le
    | upvalue => exact Operand.Holds.le h
  | localVar r => exact Nat.le_of_eq h.2.symm
  | pending pc => exact Nat.le_of_eq h.1.symm
  | varargs pc => exact Nat.le_of_eq h.1.symm
  | call pc =>
    have := h.2.1
    omega
  | _ => exact Nat.le_of_eq (Eq.symm h)

theorem Rests.same {d' : Draft} (h : p.Rests d base) (hr : d'.registers = d.registers) (hc : d'.code = d.code) :
    p.Rests d' base := by
  have hfree : d'.free = d.free := congrArg Registers.free hr
  have hactive : d'.active = d.active := congrArg Registers.active hr
  have hi := Draft.instr_of_code hc
  cases p with
  | void => exact h.elim
  | indexed t k b => cases b <;> (simp only [Rests, hfree, hactive] at h ⊢; exact h)
  | _ => simp only [Rests, hfree, hactive, hi] at h ⊢; exact h

theorem IsTable.le {active free : Nat} (h : p.IsTable active base free) : base ≤ free := by
  cases p with
  | fixed r | localVar r => exact Operand.Holds.le h
  | upvalue i => exact Nat.le_of_eq (Eq.symm h)
  | _ => exact h.elim

theorem rests_constant {k : Nat} (h : d.free = base) : (Expr.plain (.constant k)).place.Rests d base := h

theorem Rests.ne_void (h : p.Rests d base) : p ≠ .void := by
  rintro rfl
  exact h

theorem Rests.free (h : p.Rests d base) (hv : p.isValue) (hr : ∀ r, p ≠ .fixed r) : d.free = base := by
  cases p with
  | fixed r => exact absurd rfl (hr r)
  | pending pc => exact h.1
  | nil | bool _ | constant _ | float _ | int _ | compare _ => exact h
  | _ => exact nomatch hv

end Place

namespace Compile.Orderly

open Registers

variable {d : Draft} {base : Nat} {e : Expr}

/-! ## 2. Taking registers and giving them back -/

theorem checkStack (hs : d.registers.Sound) (n : Nat) :
    Orderly (Compile.checkStack n) d fun _ d' => d.registers.Stays d'.registers ∧ d'.free = d.free ∧ d'.code = d.code ∧
      d.free + n ≤ d'.maxStack := by
  refine get fun s hfn => ?_
  subst hfn
  have hfree : s.fn.free ≤ s.fn.maxStack := hs.free
  dsimp only
  split
  · split
    · exact failNear rfl
    · next hsmall =>
      simp only [maxRegisters] at hsmall
      refine modifyFn rfl ⟨⟨rfl, rfl, ?_, ?_⟩, rfl, rfl, Nat.le_refl _⟩
      · exact Nat.le_add_right ..
      · show s.fn.free + n ≤ 254
        omega
  · next hfits => exact pure ⟨hs.stays, rfl, rfl, Nat.le_of_not_lt hfits⟩

/-- **Registers are taken.** -/
theorem reserve (hs : d.registers.Sound) (n : Nat) :
    Orderly (Compile.reserve n) d fun _ d' => d.registers.Stays d'.registers ∧ d'.free = d.free + n ∧ d'.code = d.code := by
  refine (checkStack hs n).andThen ?_
  rintro _ d1 ⟨hstays, hfree, hcode, hle⟩
  refine modifyFn rfl ⟨⟨hstays.active, hstays.levels, ?_, hstays.sound.high⟩, ?_, hcode⟩
  · show d1.free + n ≤ d1.maxStack
    rw [hfree]
    exact hle
  · show d1.free + n = d.free + n
    rw [hfree]

/-- **A register that is given back is on top.** -/
theorem freeRegister {x : Nat} (hs : d.registers.Sound) (hx : Operand.Holds d.active base d.free x) :
    Orderly (Compile.freeRegister x) d fun _ d' => d'.registers = { d.registers with free := base } ∧ d'.code = d.code := by
  refine get fun s hfn => ?_
  subst hfn
  have hfree : s.fn.free ≤ s.fn.maxStack := hs.free
  have hhigh : s.fn.maxStack ≤ 254 := hs.high
  rcases hx with ⟨hx, hbase⟩ | ⟨rfl, hbase, hactive⟩
  · have hkept : (!Operand.isConstant x && decide (s.fn.active ≤ x)) = false := by
      rcases hx with ⟨k, hk, rfl⟩ | hx
      · rw [(Operand.isConstant_ofConstant hk).1]
        rfl
      · rw [decide_eq_false (Nat.not_le.mpr hx), Bool.and_false]
    rw [hkept]
    refine pure ⟨?_, rfl⟩
    rw [← hbase]
    rfl
  · rw [Operand.isConstant_of_lt (by omega), decide_eq_true hactive]
    refine demanding (decide_eq_true hbase) (modifyFn rfl ⟨?_, rfl⟩)
    have : s.fn.free - 1 = x := by omega
    simp only [Draft.registers, this]

theorem freeBoth {x y mid : Nat} (hs : d.registers.Sound) (hy : Operand.Holds d.active mid d.free y)
    (hx : Operand.Holds d.active base mid x) :
    Orderly (do Compile.freeRegister y; Compile.freeRegister x) d fun _ d' =>
      d'.registers = { d.registers with free := base } ∧ d'.code = d.code := by
  refine (freeRegister hs hy).andThen ?_
  rintro _ d1 ⟨h1, hc1⟩
  have hfree : d1.free = mid := congrArg Registers.free h1
  have hactive : d1.active = d.active := congrArg Registers.active h1
  have hs1 : d1.registers.Sound := (hs.stays.lower h1 hy.le).sound
  have hx1 : Operand.Holds d1.active base d1.free x := by rw [hactive, hfree]; exact hx
  refine (freeRegister hs1 hx1).imp ?_
  rintro _ d2 ⟨h2, hc2⟩
  exact ⟨by rw [h2, h1], hc2.trans hc1⟩

/-- Two operands, one above the other, in either order: the one with the greater number is given back
    first, and that is the upper one or one that holds no register. -/
theorem freeRegisters {x y mid : Nat} (hs : d.registers.Sound) (hx : Operand.Holds d.active base mid x)
    (hy : Operand.Holds d.active mid d.free y) :
    Orderly (Compile.freeRegisters x y) d (fun _ d' => d'.registers = { d.registers with free := base } ∧ d'.code = d.code) ∧
    Orderly (Compile.freeRegisters y x) d fun _ d' => d'.registers = { d.registers with free := base } ∧ d'.code = d.code := by
  have hdown := freeBoth hs hy hx
  have hup : y ≤ x → Orderly (do Compile.freeRegister x; Compile.freeRegister y) d fun _ d' =>
      d'.registers = { d.registers with free := base } ∧ d'.code = d.code := by
    intro hle
    rcases hx with ⟨hnone, rfl⟩ | ⟨hx, hmid, hactive⟩
    · exact freeBoth hs (.inl ⟨hnone, rfl⟩) hy
    · rcases hy with ⟨hnone, hfree⟩ | ⟨hy, -, -⟩
      · exact freeBoth hs (.inr ⟨hx, hfree.trans hmid, hactive⟩) (.inl ⟨hnone, rfl⟩)
      · omega
  unfold Compile.freeRegisters
  constructor
  · split
    · next hlt => exact hup (Nat.le_of_lt hlt)
    · exact hdown
  · split
    · exact hdown
    · next hge => exact hup (Nat.le_of_not_lt hge)

theorem topRegister {β : Type} {f : Nat → Compile β} {Q : β → Draft → Prop} (hpos : 0 < d.free)
    (h : Orderly (f (d.free - 1)) d Q) : Orderly (Compile.topRegister >>= f) d Q := by
  have htop : Orderly Compile.topRegister d fun reg d' => reg = d.free - 1 ∧ d' = d := by
    refine demanding (decide_eq_true hpos) (get fun s hs => pure ?_)
    rw [hs]
    exact ⟨rfl, rfl⟩
  refine htop.andThen ?_
  rintro _ _ ⟨rfl, rfl⟩
  exact h

theorem freeExpr (hs : d.registers.Sound) (he : e.place.Rests d base) (hv : e.place.isValue) :
    Orderly (Compile.freeExpr e) d fun _ d' => d'.registers = { d.registers with free := base } ∧ d'.code = d.code := by
  unfold Compile.freeExpr
  split
  · next r hp =>
    rw [hp] at he
    exact freeRegister hs he
  · next hp =>
    have hfree := he.free hv hp
    refine pure ⟨?_, rfl⟩
    rw [← hfree]
    rfl

/-! ## 3. Reading -/

theorem readVariable_value (hv : e.place.isValue) : Compile.readVariable e = Pure.pure e := by
  unfold Compile.readVariable
  cases hp : e.place <;> first | rfl | (rw [hp] at hv; exact nomatch hv)

structure Fetches (d : Draft) (base : Nat) (e e' : Expr) (d' : Draft) : Prop where
  stays : d.registers.Stays d'.registers
  rests : e'.place.Rests d' base
  value : e'.place.isValue = true
  free : e.place.isValue = false → (∀ pc, e.place ≠ .call pc) → d'.free = base

theorem emitPending {r : Registers} {e : Expr} (op : Op) (a b c : Nat) (hs : r.Stays d.registers) (hfree : d.free = base)
    (hop : op = .concat → b = base) :
    Orderly (do return { e with place := .pending (← Compile.emitABC op a b c) }) d fun e' d' =>
      r.Stays d'.registers ∧ e'.place.Rests d' base ∧ e'.place.isValue = true ∧ d'.free = base := by
  refine (emitABC op a b c).andThen ?_
  rintro pc d1 ⟨h1, hi⟩
  have hfree1 : d1.free = base := (congrArg Registers.free h1).trans hfree
  refine pure ⟨h1 ▸ hs, ⟨hfree1, fun hconcat => ?_⟩, rfl, hfree1⟩
  rw [hi, Instr.opcode_ofABC] at hconcat
  rw [hi, Instr.b_ofABC, hop hconcat]
  have hle : d.free ≤ 254 := Nat.le_trans hs.sound.free hs.sound.high
  omega

/-- **Of a variable a value is made**; the registers of its table and key are given back. -/
theorem readVariable (hs : d.registers.Sound) (he : e.place.Rests d base) :
    Orderly (Compile.readVariable e) d fun e' d' => Fetches d base e e' d' := by
  unfold Compile.readVariable
  have hemitted : ∀ {e' d'}, d.registers.Stays d'.registers ∧ e'.place.Rests d' base ∧ e'.place.isValue = true ∧
      d'.free = base → Fetches d base e e' d' := fun h => ⟨h.1, h.2.1, h.2.2.1, fun _ _ => h.2.2.2⟩
  cases hp : e.place with
  | localVar r =>
    rw [hp] at he
    exact pure ⟨hs.stays, .inl ⟨.inr he.1, he.2⟩, rfl, fun _ _ => he.2⟩
  | upvalue i =>
    rw [hp] at he
    exact (emitPending .getUpval 0 i 0 hs.stays he nofun).imp fun _ _ => hemitted
  | indexed t k b =>
    rw [hp] at he
    cases b with
    | register =>
      obtain ⟨mid, ht, hk⟩ := he
      refine (freeRegister hs hk).andThen ?_
      rintro _ d1 ⟨h1, -⟩
      have hstays1 := hs.stays.lower h1 hk.le
      have hfree1 : d1.free = mid := congrArg Registers.free h1
      have hactive1 : d1.active = d.active := congrArg Registers.active h1
      have ht1 : Operand.Holds d1.active base d1.free t := by rw [hactive1, hfree1]; exact ht
      refine (freeRegister hstays1.sound ht1).andThen ?_
      rintro _ d2 ⟨h2, -⟩
      have hstays2 := hstays1.lower h2 (Nat.le_trans ht.le (Nat.le_of_eq hfree1.symm))
      exact (emitPending .getTable 0 t k hstays2 (congrArg Registers.free h2) nofun).imp fun _ _ => hemitted
    | upvalue =>
      refine (freeRegister hs he).andThen ?_
      rintro _ d1 ⟨h1, -⟩
      have hstays1 := hs.stays.lower h1 (Operand.Holds.le he)
      exact (emitPending .getTabUp 0 t k hstays1 (congrArg Registers.free h1) nofun).imp fun _ _ => hemitted
  | call pc =>
    rw [hp] at he
    obtain ⟨ha, hfree, hactive⟩ := he
    show Orderly (Compile.setOneReturn e) d _
    unfold Compile.setOneReturn
    rw [hp]
    refine get fun s hfn => pure ⟨hs.stays, .inr ⟨?_, hfree, hactive⟩, rfl, fun _ hcall => absurd hp (hcall pc)⟩
    rw [hfn]
    exact ha
  | varargs pc =>
    rw [hp] at he
    obtain ⟨hfree, hop⟩ := he
    show Orderly (Compile.setOneReturn e) d _
    unfold Compile.setOneReturn
    rw [hp]
    refine bind (modifyFn rfl (pure ⟨hs.stays, ⟨hfree, fun hconcat => ?_⟩, rfl, fun _ _ => hfree⟩))
    rw [Draft.instr_mapInstr] at hconcat
    split at hconcat
    · rw [Instr.opcode_setB, hop] at hconcat
      cases hconcat
    · rw [hop] at hconcat
      cases hconcat
  | void =>
    rw [hp] at he
    exact he.elim
  | _ => exact pure ⟨hs.stays, hp ▸ he, by rw [hp]; rfl, fun hv => by rw [hp] at hv; cases hv⟩

theorem settle (reg : Nat) (hv : e.place.isValue) :
    Orderly (Compile.settle e reg) d fun e' d' => d'.registers = d.registers ∧
      (e' = { e with place := .fixed reg } ∨ ∃ jumps, e.place = .compare jumps) := by
  unfold Compile.settle
  rw [readVariable_value hv, pure_bind]
  cases hp : e.place with
  | nil => exact (loadNil reg 1).andThen fun _ _ h => pure ⟨h, .inl rfl⟩
  | bool b => exact (emitABC _ _ _ _).dropThen fun _ _ h => pure ⟨h.1, .inl rfl⟩
  | constant k => exact (loadConstant reg k).andThen fun _ _ h => pure ⟨h, .inl rfl⟩
  | float x =>
    refine (addConstant _).andThen fun k d1 h1 => (loadConstant reg k).andThen fun _ _ h2 => pure ⟨?_, .inl rfl⟩
    exact h2.trans h1.1
  | int i =>
    refine (addConstant _).andThen fun k d1 h1 => (loadConstant reg k).andThen fun _ _ h2 => pure ⟨?_, .inl rfl⟩
    exact h2.trans h1.1
  | pending pc => exact bind (modifyFn rfl (pure ⟨rfl, .inl rfl⟩))
  | fixed r =>
    dsimp only
    split
    · exact (emitABC _ _ _ _).dropThen fun _ _ h => pure ⟨h.1, .inl rfl⟩
    · exact pure ⟨rfl, .inl rfl⟩
  | compare jumps => exact pure ⟨rfl, .inr ⟨jumps, rfl⟩⟩
  | _ => rw [hp] at hv; exact nomatch hv

theorem loadBooleans (falls : Bool) (reg : Nat) :
    Orderly (Compile.loadBooleans falls reg) d fun _ d' => d'.registers = d.registers := by
  unfold Compile.loadBooleans
  extract_lets next
  have hnext : ∀ passing d1, d1.registers = d.registers →
      Orderly (next passing) d1 fun _ d' => d'.registers = d.registers := by
    intro passing d1 h1
    refine markTarget.dropThen fun _ d2 h2 => (emitABC _ _ _ _).andThen fun f d3 h3 => ?_
    refine markTarget.dropThen fun _ d4 h4 => (emitABC _ _ _ _).andThen fun t d5 h5 => ?_
    refine (patchHere passing).andThen fun _ d6 h6 => pure ?_
    exact h6.trans (h5.1.trans (h4.trans (h3.1.trans (h2.trans h1))))
  split
  · exact jump.andThen hnext
  · exact bind (pure (hnext _ d rfl))

theorem aimBoth (reg f t : Nat) (onTrue onFalse : JumpList) :
    Orderly (do
      let stop ← Compile.markTarget
      Compile.aimJumps stop reg f onFalse
      Compile.aimJumps stop reg t onTrue) d fun _ d' => d'.registers = d.registers := by
  refine markTarget.andThen fun stop d1 h1 => (aimJumps _ _ _ _).andThen fun _ d2 h2 => ?_
  exact (aimJumps _ _ _ _).imp fun _ d3 h3 => h3.trans (h2.trans h1)

theorem toRegister_of {reg : Nat} {R : Registers → Prop}
    (h : Orderly (Compile.settle e reg) d fun _ d' => R d'.registers) :
    Orderly (Compile.toRegister e reg) d fun _ d' => R d'.registers := by
  refine h.andThen fun e1 d1 h1 => ?_
  extract_lets next
  have hnext : ∀ v d2, R d2.registers → Orderly (next v) d2 fun _ d' => R d'.registers := by
    rintro ⟨onTrue, decided⟩ d2 h2
    dsimp only [next]
    split
    · refine get fun s hfn => ?_
      split
      · refine (loadBooleans _ _).andThen fun places d3 h3 => (aimBoth _ _ _ _ _).imp fun _ d4 h4 => ?_
        rw [h4, h3]
        exact h2
      · refine bind (pure ((aimBoth _ _ _ _ _).imp fun _ d3 h3 => ?_))
        rw [h3]
        exact h2
    · exact pure h2
  -- the jumps of a comparison are among those taken with a true value
  split
  · refine (joinJumps _ _).andThen ?_
    rintro joined _ rfl
    exact bind (pure (hnext (joined, false) _ h1))
  · exact bind (pure (hnext (e1.onTrue, true) _ h1))

theorem toRegister {reg : Nat} (hv : e.place.isValue) :
    Orderly (Compile.toRegister e reg) d fun _ d' => d'.registers = d.registers :=
  toRegister_of (R := (· = d.registers)) ((settle reg hv).imp fun _ _ h => h.1)

/-- **A value is brought into the next register.** -/
theorem toNextRegister (hs : d.registers.Sound) (he : e.place.Rests d base) :
    Orderly (Compile.toNextRegister e) d fun reg d' => reg = base ∧ d.registers.Stays d'.registers ∧ d'.free = base + 1 := by
  refine (readVariable hs he).andThen ?_
  rintro e1 d1 ⟨hstays1, he1, hv, -⟩
  refine (freeExpr hstays1.sound he1 hv).andThen ?_
  rintro _ d2 ⟨h2, -⟩
  have hstays2 := hstays1.lower h2 he1.le
  have hfree2 : d2.free = base := congrArg Registers.free h2
  refine (reserve hstays2.sound 1).andThen ?_
  rintro _ d3 ⟨hstays3, hfree3, -⟩
  rw [hfree2] at hfree3
  refine topRegister (by omega) ((toRegister hv).andThen fun _ d4 h4 => pure ?_)
  refine ⟨by omega, h4 ▸ hstays2.trans hstays3, ?_⟩
  exact (congrArg Registers.free h4).trans hfree3

/-- **A value is brought into some register.** -/
theorem toAnyRegister (hs : d.registers.Sound) (hb : d.active ≤ base) (he : e.place.Rests d base) :
    Orderly (Compile.toAnyRegister e) d fun reg d' => d.registers.Stays d'.registers ∧
      Operand.Holds d'.active base d'.free reg := by
  refine (readVariable hs he).andThen ?_
  rintro e1 d1 ⟨hstays1, he1, hv, -⟩
  have hnext : Orderly (Compile.toNextRegister e1) d1 fun reg d' => d.registers.Stays d'.registers ∧
      Operand.Holds d'.active base d'.free reg := by
    refine (toNextRegister hstays1.sound he1).imp ?_
    rintro reg d2 ⟨rfl, hstays2, hfree2⟩
    have hstays := hstays1.trans hstays2
    exact ⟨hstays, .inr ⟨rfl, hfree2, Nat.le_trans (Nat.le_of_eq hstays.active) hb⟩⟩
  split
  · next r hp =>
    rw [hp] at he1
    split
    · exact pure ⟨hstays1, he1⟩
    · refine get fun s hfn => ?_
      split
      · refine (toRegister hv).andThen fun _ d2 h2 => pure ⟨h2 ▸ hstays1, ?_⟩
        have hactive : d2.active = d1.active := congrArg Registers.active h2
        have hfree : d2.free = d1.free := congrArg Registers.free h2
        rw [hactive, hfree]
        exact he1
      · exact hnext
  · exact hnext

theorem toRegisterOrUpvalue (hs : d.registers.Sound) (hb : d.active ≤ base) (he : e.place.Rests d base) :
    Orderly (Compile.toRegisterOrUpvalue e) d fun e' d' => d.registers.Stays d'.registers ∧
      e'.place.IsTable d'.active base d'.free := by
  unfold Compile.toRegisterOrUpvalue
  split
  · next i hp _ =>
    rw [hp] at he
    exact pure ⟨hs.stays, by rw [hp]; exact he⟩
  · exact (toAnyRegister hs hb he).andThen fun r d1 h1 => pure h1

theorem toValue (hs : d.registers.Sound) (hb : d.active ≤ base) (he : e.place.Rests d base) :
    Orderly (Compile.toValue e) d fun e' d' =>
      d.registers.Stays d'.registers ∧ e'.place.Rests d' base ∧ e'.place.isValue = true := by
  unfold Compile.toValue
  split
  · refine (toAnyRegister hs hb he).andThen ?_
    rintro r d1 ⟨hstays, hr⟩
    exact pure ⟨hstays, hr, rfl⟩
  · exact (readVariable hs he).imp fun _ _ h => ⟨h.stays, h.rests, h.value⟩

/-- **A value is made an operand.** -/
theorem toOperand (hs : d.registers.Sound) (hb : d.active ≤ base) (he : e.place.Rests d base) :
    Orderly (Compile.toOperand e) d fun x d' => d.registers.Stays d'.registers ∧
      Operand.Holds d'.active base d'.free x := by
  refine (toValue hs hb he).andThen ?_
  rintro e1 d1 ⟨hstays1, he1, hv⟩
  extract_lets next
  have hnext : ∀ e2 d2, d.registers.Stays d2.registers → e2.place.Rests d2 base → Orderly (next e2) d2 fun x d' =>
      d.registers.Stays d'.registers ∧ Operand.Holds d'.active base d'.free x := by
    intro e2 d2 hstays2 he2
    have hany : Orderly (Compile.toAnyRegister e2) d2 fun x d' => d.registers.Stays d'.registers ∧
        Operand.Holds d'.active base d'.free x := by
      refine (toAnyRegister hstays2.sound (Nat.le_trans (Nat.le_of_eq hstays2.active) hb) he2).imp ?_
      rintro x d3 ⟨hstays3, hx⟩
      exact ⟨hstays2.trans hstays3, hx⟩
    dsimp only [next]
    split
    · next k hp =>
      split
      · next hk =>
        rw [hp] at he2
        exact pure ⟨hstays2, .inl ⟨.inl ⟨k, hk, rfl⟩, he2⟩⟩
      · exact hany
    · exact hany
  split
  · next c hc =>
    refine (addConstant c).andThen fun k d2 h2 => ?_
    refine bind (pure (hnext { e1 with place := .constant k } d2 (h2.1 ▸ hstays1) ?_))
    have hfree : d1.free = base := by
      refine he1.free hv fun r hp => ?_
      rw [hp] at hc
      exact nomatch hc
    exact (congrArg Registers.free h2.1).trans hfree
  · exact bind (pure (hnext e1 d1 hstays1 he1))

/-! ## 4. Variables and fields -/

theorem storeLocal {reg : Nat} (hs : d.registers.Sound) (he : e.place.Rests d base) (hcall : ∀ pc, e.place ≠ .call pc) :
    Orderly (do Compile.freeExpr e; Compile.toRegister e reg) d fun _ d' => d.registers.Stays d'.registers ∧ d'.free = base := by
  cases hv : e.place.isValue with
  | true =>
    refine (freeExpr hs he hv).andThen ?_
    rintro _ d1 ⟨h1, -⟩
    refine (toRegister hv).imp fun _ d2 h2 => ⟨hs.stays.lower (h2.trans h1) he.le, ?_⟩
    exact congrArg Registers.free (h2.trans h1)
  | false =>
    have hfree : Compile.freeExpr e = Pure.pure () := by
      unfold Compile.freeExpr
      cases hp : e.place <;> first | rfl | (rw [hp] at hv; exact nomatch hv)
    rw [hfree, pure_bind]
    refine toRegister_of (R := fun r => d.registers.Stays r ∧ r.free = base) ?_
    refine (readVariable hs he).andThen fun e1 d1 h1 => ?_
    have hsettle := settle (d := d1) reg h1.value
    unfold Compile.settle at hsettle
    rw [readVariable_value h1.value, pure_bind] at hsettle
    refine hsettle.imp fun _ d2 h2 => ?_
    rw [h2.1]
    exact ⟨h1.stays, h1.free hv hcall⟩

theorem emitThenFree {op : Op} {a b c x : Nat} (hs : d.registers.Sound) (hx : Operand.Holds d.active base d.free x) :
    Orderly (do Functor.discard (Compile.emitABC op a b c); Compile.freeRegister x) d fun _ d' =>
      d.registers.Stays d'.registers ∧ d'.free = base := by
  refine (emitABC op a b c).dropThen fun _ d1 h1 => ?_
  have hfree : d1.free = d.free := congrArg Registers.free h1.1
  have hactive : d1.active = d.active := congrArg Registers.active h1.1
  have hx1 : Operand.Holds d1.active base d1.free x := by rw [hfree, hactive]; exact hx
  refine (freeRegister (h1.1 ▸ hs) hx1).imp fun _ d2 h2 => ?_
  rw [h1.1] at h2
  exact ⟨hs.stays.lower h2.1 hx.le, congrArg Registers.free h2.1⟩

/-- **A value is stored into a variable**; nothing of it is left in the registers. -/
theorem storeVariable {target : Place} (hs : d.registers.Sound) (hb : d.active ≤ base) (he : e.place.Rests d base)
    (hcall : ∀ pc, e.place ≠ .call pc) (ht : target.isVariable) :
    Orderly (Compile.storeVariable target e) d fun _ d' => d.registers.Stays d'.registers ∧ d'.free = base := by
  have hthen : ∀ {op a b c x} {d1 : Draft}, d.registers.Stays d1.registers → Operand.Holds d1.active base d1.free x →
      Orderly (do Functor.discard (Compile.emitABC op a b c); Compile.freeRegister x) d1 fun _ d' =>
        d.registers.Stays d'.registers ∧ d'.free = base := fun hstays hx =>
    (emitThenFree hstays.sound hx).imp fun _ _ h => ⟨hstays.trans h.1, h.2⟩
  cases target with
  | localVar reg => exact storeLocal hs he hcall
  | upvalue i => exact (toAnyRegister hs hb he).andThen fun r d1 h1 => hthen h1.1 h1.2
  | indexed t k b =>
    cases b with
    | register => exact (toOperand hs hb he).andThen fun x d1 h1 => hthen h1.1 h1.2
    | upvalue => exact (toOperand hs hb he).andThen fun x d1 h1 => hthen h1.1 h1.2
  | _ => exact nomatch ht

/-- **A field holds the registers of its table and its key.** -/
theorem indexed {table key : Expr} {mid : Nat} (hs : d.registers.Sound) (hb : d.active ≤ base)
    (ht : table.place.IsTable d.active base mid) (hk : key.place.Rests d mid) :
    Orderly (Compile.indexed table key) d fun e' d' =>
      d.registers.Stays d'.registers ∧ e'.place.Rests d' base ∧ e'.place.isVariable := by
  have hkey : base ≤ mid → Orderly (Compile.toOperand key) d fun k d' =>
      d.registers.Stays d'.registers ∧ Operand.Holds d'.active mid d'.free k := fun hmid =>
    toOperand hs (Nat.le_trans hb hmid) hk
  unfold Compile.indexed
  cases hp : table.place with
  | fixed r | localVar r =>
    rw [hp] at ht
    refine (hkey ht.le).andThen fun k d1 h1 => pure ⟨h1.1, ⟨mid, ?_, h1.2⟩, rfl⟩
    rw [show d1.active = d.active from h1.1.active]
    exact ht
  | upvalue i =>
    rw [hp] at ht
    have hmid : mid = base := ht
    subst hmid
    exact (hkey (Nat.le_refl _)).andThen fun k d1 h1 => pure ⟨h1.1, h1.2, rfl⟩
  | _ =>
    rw [hp] at ht
    exact ht.elim

/-- **A method is brought into two registers.** -/
theorem method {k : Nat} (hs : d.registers.Sound) (hb : d.active ≤ base) (he : e.place.Rests d base) :
    Orderly (Compile.method e (.plain (.constant k))) d fun e' d' =>
      d.registers.Stays d'.registers ∧ e' = .plain (.fixed base) ∧ d'.free = base + 2 := by
  refine (toAnyRegister hs hb he).andThen fun r d1 h1 => ?_
  refine (freeRegister h1.1.sound h1.2).andThen fun _ d2 h2 => ?_
  have hstays2 := h1.1.lower h2.1 h1.2.le
  have hfree2 : d2.free = base := congrArg Registers.free h2.1
  refine get fun s hfn => ?_
  rw [hfn, hfree2]
  refine (reserve hstays2.sound 2).andThen fun _ d3 h3 => ?_
  have hstays3 := hstays2.trans h3.1
  have hfree3 : d3.free = base + 2 := by rw [h3.2.1, hfree2]
  have hb3 : d3.active ≤ base + 2 := by
    have : d3.active = d.active := hstays3.active
    omega
  refine (toOperand hstays3.sound hb3 (Place.rests_constant hfree3)).andThen fun x d4 h4 => ?_
  refine (emitABC _ _ _ _).dropThen fun _ d5 h5 => ?_
  have hstays5 : d.registers.Stays d5.registers := h5.1 ▸ hstays3.trans h4.1
  have hfree5 : d5.free = d4.free := congrArg Registers.free h5.1
  have hactive5 : d5.active = d4.active := congrArg Registers.active h5.1
  have hx5 : Operand.Holds d5.active (base + 2) d5.free x := by rw [hfree5, hactive5]; exact h4.2
  refine (freeRegister hstays5.sound hx5).andThen fun _ d6 h6 => ?_
  refine pure ⟨hstays5.lower h6.1 ?_, rfl, congrArg Registers.free h6.1⟩
  exact Nat.le_trans h4.2.le (Nat.le_of_eq hfree5.symm)

theorem setReturns {n : Option Nat} (hs : d.registers.Sound) (he : e.place.Rests d base) (hm : e.place.isMulti) :
    Orderly (Compile.setReturns e n) d fun _ d' => d.registers.Stays d'.registers ∧ d'.free = base + 1 ∧
      ∀ pc, e.place = .call pc → (d'.instr pc).a.val = base := by
  unfold Compile.setReturns
  cases hp : e.place with
  | call pc =>
    rw [hp] at he
    refine modifyFn rfl ⟨hs.stays, he.2.1, ?_⟩
    rintro _ ⟨⟩
    rw [Draft.instr_mapInstr]
    split
    · rw [Instr.a_setC]
      exact he.1
    · exact he.1
  | varargs pc =>
    rw [hp] at he
    refine bind (modifyFn rfl ((reserve (d := Draft.mapInstr d pc _) hs 1).imp fun _ d' h => ⟨h.1, ?_, nofun⟩))
    rw [h.2.1]
    exact congrArg (· + 1) he.1
  | _ => rw [hp] at hm; exact nomatch hm

theorem setReturns_of_single {n : Option Nat} (hm : e.place.isMulti = false) : Compile.setReturns e n = Pure.pure () := by
  unfold Compile.setReturns
  cases hp : e.place <;> first | rfl | (rw [hp] at hm; exact nomatch hm)

theorem setOneReturn (hs : d.registers.Sound) (he : e.place.Rests d base) :
    Orderly (Compile.setOneReturn e) d fun e' d' =>
      d.registers.Stays d'.registers ∧ e'.place.Rests d' base ∧ ∀ pc, e'.place ≠ .call pc := by
  cases hm : e.place.isMulti with
  | true =>
    -- reading is the same for what can give several values
    have hread : Compile.readVariable e = Compile.setOneReturn e := by
      unfold Compile.readVariable
      cases hp : e.place <;> first | rfl | (rw [hp] at hm; exact nomatch hm)
    rw [← hread]
    refine (readVariable hs he).imp fun e' d' h => ⟨h.stays, h.rests, fun pc hp => ?_⟩
    have hv := h.value
    rw [hp] at hv
    exact nomatch hv
  | false =>
    have hsame : Compile.setOneReturn e = Pure.pure e := by
      unfold Compile.setOneReturn
      cases hp : e.place <;> first | rfl | (rw [hp] at hm; exact nomatch hm)
    rw [hsame]
    refine pure ⟨hs.stays, he, fun pc hp => ?_⟩
    rw [hp] at hm
    exact nomatch hm

end Compile.Orderly

end LuaMachine
