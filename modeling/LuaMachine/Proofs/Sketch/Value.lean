/-
  VALUES ARE BROUGHT INTO REGISTERS BY STEPS of the sketch. An expression on its way holds jumps, and places
  of instructions that are still to be given a register or a number of values. A NOT that waits for its
  register may yet be taken back, so nothing may have been marked behind it.
-/
import LuaMachine.Proofs.Sketch.Judgement

namespace LuaMachine

open Operand (noRegister)

/-! ## 1. What waits for its operands -/

def Instr.Firm (i : Instr) : Prop := i.opcode.isMild = true ∧ i.opcode ≠ .not

def Instr.Calls (i : Instr) : Prop := i.opcode = .call ∨ i.opcode = .tailCall

theorem Instr.Calls.firm {i : Instr} (h : i.Calls) : i.Firm := by
  rcases h with h | h <;>
  · unfold Instr.Firm
    rw [h]
    decide

theorem Sketch.lasting_firm : Sketch.Lasting Instr.Firm where
  not_taken := fun _ h => h.2
  turned := by
    rintro _ _ i j hi h
    rcases h.opcode with hop | ⟨hop, -⟩ | ⟨-, hop⟩
    · unfold Instr.Firm
      rw [hop]
      exact hi
    · have hmild := hi.1
      rw [hop] at hmild
      cases hmild
    · unfold Instr.Firm
      rw [hop]
      decide
  widened := fun _ _ hi h => absurd h.before (Op.isMild_iff.mp hi.1).2.1

theorem Sketch.lasting_calls : Sketch.Lasting Instr.Calls where
  not_taken := fun _ h => h.firm.2
  turned := by
    rintro _ _ i j hi h
    rcases h.opcode with hop | ⟨hop, -⟩ | ⟨-, hop⟩
    · unfold Instr.Calls
      rw [hop]
      exact hi
    · rcases hi with hi | hi <;>
      · rw [hop] at hi
        cases hi
    · exact .inr hop
  widened := fun _ _ hi h => absurd h.before (Op.isMild_iff.mp hi.firm.1).2.1

/-- The instruction at a place may be given another register. If it is a NOT it may be taken back: nothing is marked
    behind it, and no life begins or ends there. -/
structure Sketch.Quiet (u : Sketch) (pc : Nat) : Prop where
  stays : u.draft.HoldsAt pc fun i => i.opcode ≠ .loadNil
  marks : u.draft.OpAt pc .not → ∀ t ∈ u.targets, t ≤ pc
  lives : u.draft.OpAt pc .not → ∀ (k : Nat) (v : DraftLocal), u.draft.locals[k]? = some v → v.start ≤ pc ∧ v.stop ≤ pc

namespace Sketch.Quiet

variable {u u' : Sketch} {pc : Nat}

theorem ofFirm (h : u.draft.HoldsAt pc Instr.Firm) : u.Quiet pc := by
  obtain ⟨i, hi, hmild, hnot⟩ := h
  have hnone : ¬ u.draft.OpAt pc .not := by
    rintro ⟨j, hj, hop⟩
    rw [hi] at hj
    cases hj
    exact hnot hop
  exact ⟨⟨i, hi, (Op.isMild_iff.mp hmild).2.1⟩, fun h => absurd h hnone, fun h => absurd h hnone⟩

theorem ofWritten {i : Instr} (hu : u.Sound) (h : u.Written i pc u') (hi : i.opcode.isMild = true) : u'.Quiet pc where
  stays := ⟨i, h.instr, (Op.isMild_iff.mp hi).2.1⟩
  marks := fun _ t ht => by
    rw [h.targets] at ht
    rw [h.place]
    exact hu.aimed.le ht
  lives := fun _ k v hv => by
    rw [h.locals] at hv
    rw [h.place]
    exact hu.housed.extents.past k v hv

theorem similar (h : u.Quiet pc) (hs : u.Similar u') : u'.Quiet pc := by
  obtain ⟨hstays, hmarks, hlives⟩ := h
  refine ⟨?_, fun hop => ?_, fun hop => ?_⟩
  · unfold Draft.HoldsAt at *
    rwa [hs.draft.code]
  · unfold Draft.OpAt at *
    rw [hs.draft.code] at hop
    rw [hs.targets]
    exact hmarks hop
  · unfold Draft.OpAt at *
    rw [hs.draft.code] at hop
    rw [hs.draft.locals]
    exact hlives hop

theorem recoded (h : u.Quiet pc) (hr : u.Recoded u') : u'.Quiet pc := by
  have hback : u'.draft.OpAt pc .not → u.draft.OpAt pc .not := by
    rintro ⟨j, hj, hop⟩
    obtain ⟨i, hi, hij | ⟨-, hij⟩ | ⟨-, hij⟩⟩ := hr.origin pc j hj
    · exact ⟨i, hi, hij ▸ hop⟩
    · rw [hop] at hij
      cases hij
    · rw [hop] at hij
      cases hij
  refine ⟨?_, fun hop => ?_, fun hop => ?_⟩
  · have hlt : pc < u'.draft.code.size := by
      rw [hr.size]
      exact h.stays.lt
    refine ⟨_, Array.getElem?_eq_getElem hlt, fun hop => ?_⟩
    obtain ⟨i, hi, hij⟩ := hr.origin pc _ (Array.getElem?_eq_getElem hlt)
    obtain ⟨k, hk, hnil⟩ := h.stays
    rw [hi] at hk
    cases hk
    rcases hij with hij | ⟨-, hij⟩ | ⟨-, hij⟩
    · exact hnil (hij ▸ hop)
    · rw [hop] at hij
      cases hij
    · rw [hop] at hij
      cases hij
  · rw [hr.targets]
    exact h.marks (hback hop)
  · rw [hr.locals]
    exact h.lives (hback hop)

end Sketch.Quiet

/-! ## 2. Expressions -/

namespace Place

def isInert : Place → Bool
  | localVar _ | compare _ | pending _ | call _ | varargs _ => false
  | _ => true

structure Fit (u : Sketch) (p : Place) : Prop where
  jumps : ∀ n ∈ p.jumps, u.draft.JumpAt n
  quiet : ∀ pc, p = .pending pc → u.Quiet pc
  calls : ∀ pc, p = .call pc → u.draft.HoldsAt pc Instr.Calls
  firm : ∀ pc, p = .varargs pc → u.draft.HoldsAt pc Instr.Firm
  small : ∀ r, p = .localVar r → r < 255

variable {u u' : Sketch} {p : Place}

theorem fit_of_inert (h : p.isInert = true) (u : Sketch) : p.Fit u := by
  constructor
  · cases p <;> first | exact fun n hn => absurd hn List.not_mem_nil | cases h
  all_goals
    rintro _ rfl
    cases h

theorem fit_pending {pc : Nat} (h : u.Quiet pc) : (Place.pending pc).Fit u where
  jumps := fun n hn => absurd hn List.not_mem_nil
  quiet := fun _ hp => by cases hp; exact h
  calls := fun _ hp => by cases hp
  firm := fun _ hp => by cases hp
  small := fun _ hp => by cases hp

theorem fit_call {pc : Nat} (h : u.draft.HoldsAt pc Instr.Calls) : (Place.call pc).Fit u where
  jumps := fun n hn => absurd hn List.not_mem_nil
  quiet := fun _ hp => by cases hp
  calls := fun _ hp => by cases hp; exact h
  firm := fun _ hp => by cases hp
  small := fun _ hp => by cases hp

theorem fit_varargs {pc : Nat} (h : u.draft.HoldsAt pc Instr.Firm) : (Place.varargs pc).Fit u where
  jumps := fun n hn => absurd hn List.not_mem_nil
  quiet := fun _ hp => by cases hp
  calls := fun _ hp => by cases hp
  firm := fun _ hp => by cases hp; exact h
  small := fun _ hp => by cases hp

theorem fit_compare {js : JumpList} (h : ∀ n ∈ js, u.draft.JumpAt n) : (Place.compare js).Fit u where
  jumps := h
  quiet := fun _ hp => by cases hp
  calls := fun _ hp => by cases hp
  firm := fun _ hp => by cases hp
  small := fun _ hp => by cases hp

theorem fit_localVar {r : Nat} (h : r < 255) (u : Sketch) : (Place.localVar r).Fit u where
  jumps := fun n hn => absurd hn List.not_mem_nil
  quiet := fun _ hp => by cases hp
  calls := fun _ hp => by cases hp
  firm := fun _ hp => by cases hp
  small := fun _ hp => by cases hp; exact h

theorem Fit.similar (h : p.Fit u) (hs : u.Similar u') : p.Fit u' := by
  have hcode : u'.draft.code = u.draft.code := hs.draft.code
  refine ⟨fun n hn => ?_, fun pc hp => (h.quiet pc hp).similar hs, fun pc hp => ?_, fun pc hp => ?_, h.small⟩
  · unfold Draft.JumpAt
    rw [hcode]
    exact h.jumps n hn
  · unfold Draft.HoldsAt
    rw [hcode]
    exact h.calls pc hp
  · unfold Draft.HoldsAt
    rw [hcode]
    exact h.firm pc hp

theorem Fit.steps {scope : Bool} (h : p.Fit u) (hs : Sketch.Steps scope u u') (hp : ∀ pc, p ≠ .pending pc) : p.Fit u' where
  jumps := fun n hn => hs.jumpAt (h.jumps n hn)
  quiet := fun pc hpc => absurd hpc (hp pc)
  calls := fun pc hpc => hs.holdsAt Sketch.lasting_calls (h.calls pc hpc)
  firm := fun pc hpc => hs.holdsAt Sketch.lasting_firm (h.firm pc hpc)
  small := h.small

theorem Fit.recoded {scope : Bool} (h : p.Fit u) (hs : Sketch.Steps scope u u') (hr : u.Recoded u') : p.Fit u' where
  jumps := fun n hn => hs.jumpAt (h.jumps n hn)
  quiet := fun pc hpc => (h.quiet pc hpc).recoded hr
  calls := fun pc hpc => hs.holdsAt Sketch.lasting_calls (h.calls pc hpc)
  firm := fun pc hpc => hs.holdsAt Sketch.lasting_firm (h.firm pc hpc)
  small := h.small

end Place

namespace Expr

structure Fit (u : Sketch) (e : Expr) : Prop where
  place : e.place.Fit u
  onTrue : ∀ n ∈ e.onTrue, u.draft.JumpAt n
  onFalse : ∀ n ∈ e.onFalse, u.draft.JumpAt n

variable {u u' : Sketch} {e : Expr} {p : Place} {scope : Bool}

theorem fit_plain (h : p.Fit u) : (plain p).Fit u :=
  ⟨h, fun _ hn => absurd hn List.not_mem_nil, fun _ hn => absurd hn List.not_mem_nil⟩

theorem fit_inert (h : p.isInert = true) (u : Sketch) : (plain p).Fit u := fit_plain (Place.fit_of_inert h u)

theorem Fit.similar (h : e.Fit u) (hs : u.Similar u') : e.Fit u' := by
  refine ⟨h.place.similar hs, fun n hn => ?_, fun n hn => ?_⟩
  · unfold Draft.JumpAt
    rw [hs.draft.code]
    exact h.onTrue n hn
  · unfold Draft.JumpAt
    rw [hs.draft.code]
    exact h.onFalse n hn

theorem Fit.steps (h : e.Fit u) (hs : Sketch.Steps scope u u') (hp : ∀ pc, e.place ≠ .pending pc) : e.Fit u' :=
  ⟨h.place.steps hs hp, fun _ hn => hs.jumpAt (h.onTrue _ hn), fun _ hn => hs.jumpAt (h.onFalse _ hn)⟩

theorem Fit.withPlace (h : e.Fit u) (hs : Sketch.Steps scope u u') (hp : p.Fit u') : ({ e with place := p } : Expr).Fit u' :=
  ⟨hp, fun n hn => hs.jumpAt (h.onTrue n hn), fun n hn => hs.jumpAt (h.onFalse n hn)⟩

end Expr

theorem Place.ne_pending_of_inert {p : Place} (h : p.isInert = true) (pc : Nat) : p ≠ .pending pc := by
  rintro rfl
  cases h

namespace Compile

/-! ## 3. Registers and constants -/

namespace Idle

theorem checkStack {n : Nat} : Idle (checkStack n) := by
  refine get fun s => ?_
  dsimp only
  split
  · split
    · exact failNear
    · next hroom =>
      refine modifyFn fun d => ⟨rfl, rfl, rfl, rfl, rfl, rfl, rfl, ?_, rfl, rfl, rfl⟩
      have hle : s.fn.free + n ≤ 254 := Nat.le_of_lt_succ (Nat.lt_of_not_le hroom)
      exact Nat.le_trans hle (Nat.le_max_right _ _)
  · exact pure

theorem reserve {n : Nat} : Idle (reserve n) := checkStack.bind fun _ => modifyFn fun _ => .rest rfl

theorem freeRegister {reg : Nat} : Idle (freeRegister reg) := by
  unfold Compile.freeRegister
  refine get fun s => ?_
  split
  · exact demand.bind fun _ => modifyFn fun _ => .rest rfl
  · exact pure

theorem topRegister : Idle topRegister := demand.bind fun _ => get fun _ => pure

theorem freeRegisters {r1 r2 : Nat} : Idle (freeRegisters r1 r2) := by
  unfold Compile.freeRegisters
  split
  · exact freeRegister.bind fun _ => freeRegister
  · exact freeRegister.bind fun _ => freeRegister

theorem freeExpr {e : Expr} : Idle (freeExpr e) := by
  unfold Compile.freeExpr
  split
  · exact freeRegister
  · exact pure

theorem addConstant {c : Constant} : Idle (addConstant c) := by
  refine get fun s => ?_
  split
  · exact pure
  · dsimp only
    split
    · exact failLimit
    · exact bind (modifyFn fun _ => .rest rfl) fun _ => pure

end Idle

namespace Goes

variable {scope : Bool} {u : Sketch} {e : Expr} {β : Type} {Q : β → Sketch → Prop}

theorem reserve (n : Nat) : Goes scope (Compile.reserve n) u fun _ u' =>
    u.Similar u' ∧ u'.draft.free = u.draft.free + n ∧ u.draft.free + n ≤ 254 := by
  refine sound fun hu => ?_
  have hstack : Writes (Compile.checkStack n) u.draft fun _ d' =>
      u.draft.Resembles d' ∧ d'.free = u.draft.free ∧ u.draft.free + n ≤ 254 := by
    have hregisters := hu.coded.registers
    refine Writes.get fun s hs => ?_
    rw [hs]
    dsimp only
    split
    · split
      · exact Writes.failNear
      · next hroom =>
        have hle : u.draft.free + n ≤ 254 := Nat.le_of_lt_succ (Nat.lt_of_not_le hroom)
        refine Writes.modifyFn ⟨⟨rfl, rfl, rfl, rfl, rfl, rfl, rfl, ?_, rfl, rfl, rfl⟩, rfl, hle⟩
        exact Nat.le_trans hle (Nat.le_max_right _ _)
    · next hroom => exact Writes.pure ⟨.refl _, rfl, by omega⟩
  refine ofResembles (R := fun _ d' => d'.free = u.draft.free + n ∧ u.draft.free + n ≤ 254) ?_
  refine hstack.andThen fun _ d1 h1 => Writes.modifyFn ⟨h1.1.trans (.rest rfl), ?_, h1.2.2⟩
  show d1.free + n = _
  rw [h1.2.1]

theorem top {f : Nat → Compile β} (hf : Goes scope (f (u.draft.free - 1)) u Q) :
    Goes scope (Compile.topRegister >>= f) u Q := by
  have htop : Goes scope Compile.topRegister u fun r u' => r = u.draft.free - 1 ∧ u' = u := by
    refine demanding fun _ => get fun s hs => pure ⟨?_, rfl⟩
    rw [hs]
  refine htop.bind ?_
  rintro _ _ - ⟨rfl, rfl⟩
  exact hf

/-! ## 4. Reading -/

theorem setOperands {n : Nat} {g : Draft → Instr → Instr} (hn : u.draft.HoldsAt n Instr.Firm)
    (hg : ∀ d i, (g d i).opcode = i.opcode) :
    Goes scope (Compile.modifyFn fun d => d.mapInstr n (g d)) u fun _ u' => u.Recoded u' := by
  refine mapInstr (n := fun _ => n) fun i hi => ?_
  obtain ⟨j, hj, hmild, -⟩ := hn
  rw [hi] at hj
  cases hj
  exact .operands hmild (hg _ i)

theorem setReturns (n : Option Nat) (he : e.Fit u) : Goes scope (Compile.setReturns e n) u fun _ u' => e.Fit u' := by
  unfold Compile.setReturns
  split
  · next pc hp =>
    refine (setOperands (g := fun _ i => i.setC (Operand.ofCount n))
      ((he.place.calls pc hp).imp fun _ => Instr.Calls.firm) fun _ _ => rfl).stepped.imp fun _ _ h => ?_
    exact he.steps h.2.1 (by rw [hp]; exact fun _ h => by cases h)
  · next pc hp =>
    refine (setOperands (g := fun d i => (i.setB (Operand.ofCount n)).setA d.free) (he.place.firm pc hp)
      fun _ _ => rfl).bind fun _ u1 hsteps _ => ?_
    refine (ofIdle Idle.reserve).stepped.imp fun _ _ h => ?_
    exact he.steps (hsteps.trans h.2.1) (by rw [hp]; exact fun _ h => by cases h)
  · exact pure he

theorem setOneReturn (he : e.Fit u) : Goes scope (Compile.setOneReturn e) u fun e' u' =>
    e'.Fit u' ∧ (e'.place = .nil → e.place = .nil) := by
  unfold Compile.setOneReturn
  split
  · refine get fun s _ => pure ⟨he.withPlace (.refl : Sketch.Steps true u u) (Place.fit_of_inert rfl u), fun hp => ?_⟩
    cases hp
  · next pc hp =>
    refine (setOperands (g := fun _ i => i.setB 2) (he.place.firm pc hp) fun _ _ => rfl).bind fun _ u1 hsteps hu1 => ?_
    refine pure ⟨he.withPlace hsteps (Place.fit_pending ?_), fun hp => ?_⟩
    · exact (Sketch.Quiet.ofFirm (he.place.firm pc hp)).recoded hu1
    · cases hp
  · exact pure ⟨he, id⟩

theorem fetch {op : Op} {b c : Nat} (hop : op.isMild = true) (he : e.Fit u) : Goes scope (do
      return { e with place := .pending (← Compile.emitABC op 0 b c) }) u fun e' u' =>
    e'.Fit u' ∧ (e'.place = .nil → e.place = .nil) := by
  refine sound fun hu => (emitABC hop).bind fun pc u1 hsteps h1 => pure ⟨?_, fun hp => ?_⟩
  · exact he.withPlace hsteps (Place.fit_pending (.ofWritten hu h1 (by rwa [Instr.opcode_ofABC])))
  · cases hp

/-- **A value is made of a variable.** -/
theorem readVariable (he : e.Fit u) : Goes scope (Compile.readVariable e) u fun e' u' =>
    e'.Fit u' ∧ (e'.place = .nil → e.place = .nil) := by
  unfold Compile.readVariable
  split
  · refine pure ⟨he.withPlace (.refl : Sketch.Steps true u u) (Place.fit_of_inert rfl u), fun hp => ?_⟩
    cases hp
  · exact fetch rfl he
  · refine idle Idle.freeRegister fun _ u1 h1 => ?_
    split
    · exact idle Idle.freeRegister fun _ u2 h2 => fetch rfl ((he.similar h1).similar h2)
    · exact fetch rfl (he.similar h1)
  · exact setOneReturn he
  · exact setOneReturn he
  · exact pure ⟨he, id⟩

theorem settle {reg : Nat} (he : e.Fit u) (hreg : e.place = .nil → reg < 255) :
    Goes scope (Compile.settle e reg) u fun e' u' => e'.Fit u' := by
  refine (readVariable he).bind fun e1 u1 _ h1 => ?_
  obtain ⟨he1, hnil⟩ := h1
  have hfixed : ∀ u2, Sketch.Steps scope u1 u2 → ({ e1 with place := .fixed reg } : Expr).Fit u2 := fun u2 hsteps =>
    he1.withPlace hsteps (Place.fit_of_inert rfl u2)
  split
  · next hp =>
    have hlt := hreg (hnil hp)
    exact (loadNil (Nat.le_refl 1) (by omega)).bind fun _ u2 hsteps _ => pure (hfixed u2 hsteps)
  · exact (writeBool _ _).bind fun _ u2 hsteps _ => pure (hfixed u2 hsteps)
  · exact (loadConstant _ _).bind fun _ u2 hsteps _ => pure (hfixed u2 hsteps)
  · refine (ofIdle Idle.addConstant).bind fun k u2 hsteps _ => ?_
    exact (loadConstant _ _).bind fun _ u3 hsteps3 _ => pure (hfixed u3 (hsteps.trans hsteps3))
  · refine (ofIdle Idle.addConstant).bind fun k u2 hsteps _ => ?_
    exact (loadConstant _ _).bind fun _ u3 hsteps3 _ => pure (hfixed u3 (hsteps.trans hsteps3))
  · next pc hp =>
    refine (mapInstr (n := fun _ => pc) fun i hi => ?_).bind fun _ u2 hsteps _ => pure (hfixed u2 hsteps)
    obtain ⟨j, hj, hnil⟩ := (he1.place.quiet pc hp).stays
    rw [hi] at hj
    cases hj
    exact .register hnil
  · split
    · exact (writeABC rfl).bind fun _ u2 hsteps _ => pure (hfixed u2 hsteps)
    · exact pure (hfixed u1 .refl)
  · exact pure he1

theorem settleAnywhere (he : e.Fit u) : Goes scope (Compile.settleAnywhere e) u fun e' u' => e'.Fit u' := by
  unfold Compile.settleAnywhere
  split
  · exact pure he
  · refine (reserve 1).bind fun _ u1 _ h1 => top (settle (he.similar h1.1) fun _ => ?_)
    rw [h1.2.1]
    omega

/-! ## 5. Values in registers -/

/-- **False and true are made**; jumps may go to either. -/
theorem loadBooleans (fallsThrough : Bool) (reg : Nat) :
    Goes scope (Compile.loadBooleans fallsThrough reg) u fun r u' => r.1 ∈ u'.targets ∧ r.2 ∈ u'.targets := by
  unfold Compile.loadBooleans
  extract_lets rest
  have hrest : ∀ passing (u1 : Sketch), (∀ n ∈ passing, u1.draft.JumpAt n) →
      Goes scope (rest passing) u1 fun r u' => r.1 ∈ u'.targets ∧ r.2 ∈ u'.targets := by
    intro passing u1 hpassing
    refine discardMark.bind ?_
    rintro _ _ hsteps rfl
    refine boolPair fun f t u2 hsteps2 hf ht => ?_
    refine (patchHere fun n hn => ?_).bind fun _ u3 hsteps3 _ => pure ⟨?_, ?_⟩
    · exact Sketch.Steps.jumpAt (hsteps.trans hsteps2) (hpassing n hn)
    · refine hsteps3.targets_subset (hsteps2.targets_subset ?_)
      rw [hf]
      exact List.mem_cons_self
    · exact hsteps3.targets_subset ht
  split
  · exact jump.bind fun passing u1 _ h1 => hrest passing u1 h1.1
  · exact hrest [] u fun n hn => absurd hn List.not_mem_nil

/-- **A value is brought into a register**, whichever way it is decided. -/
theorem toRegister {reg : Nat} (he : e.Fit u) (hreg : e.place = .nil → reg < 255) :
    Goes scope (Compile.toRegister e reg) u fun _ _ => True := by
  refine (settle he hreg).bind fun e1 u1 _ he1 => ?_
  extract_lets rest
  -- what is left once it is known which jumps go where the value is true
  have hrest : ∀ r (u2 : Sketch), Sketch.Steps scope u1 u2 → (∀ n ∈ r.1, u2.draft.JumpAt n) →
      Goes scope (rest r) u2 fun _ _ => True := by
    rintro ⟨onTrue, decided⟩ u2 hsteps hjumps
    show Goes scope (if (!(onTrue.isEmpty && e1.onFalse.isEmpty)) = true then _ else _) u2 _
    split
    · refine get fun s _ => ?_
      have haim : ∀ f t (u3 : Sketch), Sketch.Steps scope u2 u3 → f ∈ u3.targets → t ∈ u3.targets → Goes scope (do
          let stop ← Compile.markTarget
          Compile.aimJumps stop reg f e1.onFalse
          Compile.aimJumps stop reg t onTrue) u3 fun _ _ => True := by
        intro f t u3 hsteps3 hf ht
        refine markTarget.bind ?_
        rintro _ _ hsteps4 ⟨rfl, rfl⟩
        have hfalse : ∀ n ∈ e1.onFalse, u3.marked.draft.JumpAt n := fun n hn =>
          Sketch.Steps.jumpAt ((hsteps.trans hsteps3).trans hsteps4) (he1.onFalse n hn)
        refine (aimJumps reg hfalse List.mem_cons_self (hsteps4.targets_subset hf)).bind fun _ u5 hsteps5 _ => ?_
        refine (aimJumps reg (fun n hn => ?_) ?_ ?_).imp fun _ _ _ => trivial
        · exact Sketch.Steps.jumpAt ((hsteps3.trans hsteps4).trans hsteps5) (hjumps n hn)
        · exact hsteps5.targets_subset List.mem_cons_self
        · exact Sketch.Steps.targets_subset (hsteps4.trans hsteps5) ht
      extract_lets aim
      split
      · exact (loadBooleans decided reg).bind fun places u3 hsteps3 h3 => haim places.1 places.2 u3 hsteps3 h3.1 h3.2
      · exact sound fun hu => haim 0 0 u2 .refl hu.aimed.start hu.aimed.start
    · exact pure trivial
  split
  · next jumps hp =>
    refine (joinJumps e1.onTrue jumps).bind ?_
    rintro _ u2 - ⟨rfl, rfl⟩
    refine hrest (_, false) u2 .refl fun n hn => (List.mem_append.mp hn).elim (he1.onTrue n) fun hn => ?_
    refine he1.place.jumps n ?_
    rw [hp]
    exact hn
  · exact hrest (e1.onTrue, true) u1 .refl he1.onTrue

theorem toNextRegister (he : e.Fit u) : Goes scope (Compile.toNextRegister e) u fun _ _ => True := by
  refine (readVariable he).bind fun e1 u1 _ he1 => idle Idle.freeExpr fun _ u2 h2 => ?_
  refine (reserve 1).bind fun _ u3 _ h3 => top ?_
  refine (toRegister ((he1.1.similar h2).similar h3.1) fun _ => ?_).bind fun _ _ _ _ => pure trivial
  omega

theorem toAnyRegister (he : e.Fit u) : Goes scope (Compile.toAnyRegister e) u fun _ _ => True := by
  refine (readVariable he).bind fun e1 u1 _ he1 => ?_
  split
  · next r hp =>
    split
    · exact pure trivial
    · refine get fun s _ => ?_
      split
      · refine (toRegister he1.1 fun hnil => ?_).bind fun _ _ _ _ => pure trivial
        rw [hp] at hnil
        cases hnil
      · exact toNextRegister he1.1
  · exact toNextRegister he1.1

theorem toRegisterOrUpvalue (he : e.Fit u) : Goes scope (Compile.toRegisterOrUpvalue e) u fun e' u' =>
    e'.Fit u' ∧ e'.place.isInert = true := by
  unfold Compile.toRegisterOrUpvalue
  split
  · next hp _ =>
    refine pure ⟨he, ?_⟩
    rw [hp]
    rfl
  · exact (toAnyRegister he).bind fun r u1 _ _ => pure ⟨Expr.fit_inert rfl u1, rfl⟩

theorem toValue (he : e.Fit u) : Goes scope (Compile.toValue e) u fun e' u' => e'.Fit u' := by
  unfold Compile.toValue
  split
  · exact (toAnyRegister he).bind fun r u1 _ _ => pure (Expr.fit_inert rfl u1)
  · exact (readVariable he).imp fun _ _ h => h.1

/-- **A value is an operand.** -/
theorem toOperand (he : e.Fit u) : Goes scope (Compile.toOperand e) u fun _ _ => True := by
  refine (toValue he).bind fun e1 u1 _ he1 => ?_
  extract_lets rest
  have hrest : ∀ (e2 : Expr) (u2 : Sketch), e2.Fit u2 → Goes scope (rest e2) u2 fun _ _ => True := by
    intro e2 u2 he2
    dsimp only [rest]
    split
    · split
      · exact pure trivial
      · exact toAnyRegister he2
    · exact toAnyRegister he2
  split
  · refine (ofIdle Idle.addConstant).bind fun k u2 hsteps _ => ?_
    exact hrest { e1 with place := .constant k } u2 (he1.withPlace hsteps (Place.fit_of_inert rfl u2))
  · exact hrest e1 u1 he1

/-! ## 6. Variables and fields -/

/-- **A value is stored into a variable.** -/
theorem storeVariable {target : Place} (he : e.Fit u) (ht : ∀ r, target = .localVar r → r < 255) :
    Goes scope (Compile.storeVariable target e) u fun _ _ => True := by
  unfold Compile.storeVariable
  split
  · exact idle Idle.freeExpr fun _ u1 h1 => toRegister (he.similar h1) fun _ => ht _ rfl
  · refine (toAnyRegister he).bind fun r u1 _ _ => (writeABC rfl).bind fun _ u2 _ _ => ?_
    exact (ofIdle Idle.freeRegister).imp fun _ _ _ => trivial
  · next base =>
    refine (toOperand he).bind fun x u1 _ _ => (writeABC (by cases base <;> rfl)).bind fun _ u2 _ _ => ?_
    exact (ofIdle Idle.freeRegister).imp fun _ _ _ => trivial
  · exact (ofIdle Idle.freeExpr).imp fun _ _ _ => trivial

theorem indexed {table key : Expr} (hk : key.Fit u) (ht : table.Fit u) :
    Goes scope (Compile.indexed table key) u fun e' u' => e'.Fit u' := by
  have hfield : ∀ (t : Nat) (base : TableBase), Goes scope (do
      Pure.pure { table with place := .indexed t (← Compile.toOperand key) base }) u fun e' u' => e'.Fit u' :=
    fun t base => (toOperand hk).bind fun k u1 hsteps _ => pure (ht.withPlace hsteps (Place.fit_of_inert rfl u1))
  exact hfield _ _

theorem method {object key : Expr} (ho : object.Fit u) (hk : ∀ u', key.Fit u') :
    Goes scope (Compile.method object key) u fun e' u' => e'.Fit u' := by
  refine (toAnyRegister ho).bind fun r u1 _ _ => idle Idle.freeRegister fun _ u2 _ => get fun s _ => ?_
  refine idle Idle.reserve fun _ u3 _ => (toOperand (hk u3)).bind fun k u4 _ _ => ?_
  refine (writeABC rfl).bind fun _ u5 _ _ => idle Idle.freeRegister fun _ u6 _ => ?_
  exact pure (Expr.fit_inert rfl u6)

end Goes

end Compile

end LuaMachine
