/-
  INSTRUCTIONS ARE SAFE where they fit. Each operation of an instruction asks for what `Instr.Fits` grants;
  then the place of the next instruction is in the code again, but for one that the check lets slip.

  * `plain_runs` -- **an instruction that neither calls nor returns, by its opcode**.
-/
import LuaMachine.Machine.Execute
import LuaMachine.Proofs.Machine.Safe

namespace LuaMachine

/-! ## 1. Places in the code -/

def Frame.Overrun (f : Frame) : Prop :=
  f.pc = f.proto.code.size ∧
    ∃ i, f.proto.code[f.proto.code.size - 2]? = some i ∧ i.opcode = .loadBool ∧ i.c.val ≠ 0

def Frame.InCode (f : Frame) : Prop := f.pc < f.proto.code.size ∨ f.Overrun

namespace Proto.Viable

variable {p : Proto} {pc : Nat} {i : Instr}

theorem next_lt (h : p.Viable) (hi : p.code[pc]? = some i) (ho : i.opcode ≠ .ret) :
    pc + 1 < p.code.size := by
  obtain ⟨j, hj, hret⟩ := h.ends
  have hlt := (Array.getElem?_eq_some_iff.mp hi).1
  refine Classical.byContradiction fun hn => ho ?_
  have hpc : pc = p.code.size - 1 := by omega
  rw [hpc, ← Array.back?_eq_getElem?, hj] at hi
  cases hi
  exact hret

end Proto.Viable

namespace Exec

/-! ## 2. Operands -/

section

variable {S : Prop} {m : Machine} {f : Frame} {x k u a b c : Nat} {v key value : Value}

theorem register_lt (hf : f.Known m.sizes) (h : x < f.proto.room.registers) :
    f.base + x < m.stack.size := by
  have htop : f.base + f.proto.room.registers ≤ m.stack.size := hf.top
  omega

theorem Safe.constant (hm : m.Whole) (h : k < f.proto.room.constants) :
    Safe S (constant f k) m fun v m' => v.Known m'.sizes :=
  Safe.need (Array.getElem?_eq_getElem h) (Safe.pure hm (Value.known_ofConstant _))

theorem Safe.operand (hm : m.Whole) (hf : f.Known m.sizes) (h : f.proto.room.Has x) :
    Safe S (operand f x) m fun v m' => v.Known m'.sizes := by
  unfold Room.Has at h
  unfold Exec.operand
  split
  · next hk =>
    rw [if_pos hk] at h
    exact Safe.constant hm h
  · next hk =>
    rw [if_neg hk] at h
    exact Safe.read hm fun _ => register_lt hf h

theorem Safe.upvalue (hm : m.Whole) (hf : f.Known m.sizes) (h : u < f.proto.room.upvalues) :
    Safe S (upvalue f u) m fun c m' => c < m'.cells.size := by
  have hu : u < f.cells.size := by
    rw [hf.linked.count]
    exact h
  unfold Exec.upvalue
  rw [Array.getElem?_eq_getElem hu]
  exact Safe.pure hm (hf.linked.cells _ (Array.getElem_mem hu))

theorem Safe.openCount (hm : m.Whole) {start : Nat}
    (h : ¬ S → start ≤ m.stack.size ∧ start + (b - 1) ≤ m.stack.size) :
    Safe S (openCount start b) m fun n m' => ¬ S → start + n ≤ m'.stack.size := by
  unfold Exec.openCount
  cases b with
  | zero =>
    refine Safe.get (Safe.pure hm fun hs => ?_)
    have := h hs
    have := hm.top
    omega
  | succ n => exact Safe.pure hm fun hs => (h hs).2

/-! ## 3. Tables and operators -/

theorem Safe.getKey (hm : m.Whole) (hv : v.Known m.sizes) {name : Unit → Option Naming} :
    Safe S (getKey v key name) m fun v m' => v.Known m'.sizes := by
  unfold Exec.getKey
  split
  · refine (Safe.table hm hv).bind fun t m' hm' _ ht => Safe.pure hm' (ht.get trivial)
  · exact Safe.fail hm rfl

theorem Safe.putKey (hm : m.Whole) (hk : key.Known m.sizes) (hv : value.Known m.sizes)
    {name : Unit → Option Naming} : Safe S (putKey v key value name) m fun _ _ => True := by
  unfold Exec.putKey
  split
  · exact Safe.setKey hm hk hv
  · exact Safe.fail hm rfl

theorem Safe.setKeys (hm : m.Whole) {id : Nat} {first : Int} {vs : List Value}
    (hv : ∀ v ∈ vs, v.Known m.sizes) : Safe S (setKeys id first vs) m fun _ _ => True := by
  induction vs generalizing m first with
  | nil => exact Safe.pure hm trivial
  | cons v vs ih =>
    obtain ⟨hv, hvs⟩ := List.forall_mem_cons.mp hv
    refine (Safe.changeTable hm fun t ht => ht.setInt trivial (fun _ => trivial) hv _).bind
      fun _ m' hm' hc _ => ?_
    exact ih hm' fun w hw => (hvs w hw).mono hc.sizes

theorem known_ofNumber {s : Sizes} (n : Number) : (Value.ofNumber n).Known s := by
  cases n <;> trivial

theorem bitwise_known {s : Sizes} {op : ArithOp} {x y : Value} (h : Value.bitwise op x y = .ok v) :
    v.Known s := by
  unfold Value.bitwise at h
  split at h
  · cases h
    trivial
  · split at h <;> cases h

theorem arith_known {s : Sizes} {op : ArithOp} {x y : Value} (h : Value.arith op x y = .ok v) :
    v.Known s := by
  unfold Value.arith at h
  extract_lets y' at h
  split at h
  · exact bitwise_known h
  · split at h
    · split at h
      · cases h
        exact known_ofNumber _
      · cases h
    · cases h
    · cases h

theorem Safe.failOperator {α : Type} (hm : m.Whole) {e : OperandFault} {x y : Value}
    {Q : α → Machine → Prop} : Safe S (failOperator f e x y b c : Exec α) m Q := by
  unfold Exec.failOperator
  dsimp only
  split <;> exact Safe.fail hm rfl

theorem Safe.operate (hm : m.Whole) (hf : f.Known m.sizes) {op : ArithOp}
    (ha : a < f.proto.room.registers) (hb : f.proto.room.Has b) (hc : f.proto.room.Has c) :
    Safe S (operate f op a b c) m fun _ _ => True := by
  refine (Safe.operand hm hf hb).bind fun x m1 hm1 hc1 _ => ?_
  refine (Safe.operand hm1 (hf.mono hc1.sizes) hc).bind fun y m2 hm2 hc2 _ => ?_
  split
  · next v hv =>
    exact Safe.write hm2 (fun _ => register_lt (hf.mono (hc1.trans hc2).sizes) ha) (arith_known hv)
  · exact Safe.failOperator hm2

theorem Safe.join (hm : m.Whole) (hf : f.Known m.sizes) (ha : a < f.proto.room.registers) (hbc : b ≤ c)
    (hc : c < f.proto.room.registers) : Safe S (join f a b c) m fun _ _ => True := by
  unfold Exec.join
  rw [if_neg (Nat.not_lt.mpr hbc)]
  have hend := register_lt hf hc
  refine (Safe.readMany hm fun _ => by omega).bind fun vs m' hm' hcalm _ => ?_
  split
  · exact Safe.write hm' (fun _ => register_lt (hf.mono hcalm.sizes) ha) trivial
  · exact Safe.fail hm' rfl

theorem Safe.measure (hm : m.Whole) (hf : f.Known m.sizes) (hb : b < f.proto.room.registers) :
    Safe S (measure f b) m fun v m' => v.Known m'.sizes := by
  refine (Safe.read hm fun _ => register_lt hf hb).bind fun v m1 hm1 hc1 hv => ?_
  split
  · exact (Safe.table hm1 hv).bind fun t m2 hm2 _ _ => Safe.pure hm2 trivial
  · exact Safe.pure hm1 trivial
  · exact Safe.fail hm1 rfl

/-! ## 4. Loops and closures -/

theorem Safe.prepareLoop (hm : m.Whole) {ra : Nat} (h : ra + 2 < m.stack.size) :
    Safe S (prepareLoop ra) m fun _ _ => True := by
  refine (Safe.read hm fun _ => by omega).bind fun start m1 hm1 hc1 _ => ?_
  have h1 := hc1.stack
  refine (Safe.read hm1 fun _ => by omega).bind fun limit m2 hm2 hc2 _ => ?_
  have h2 := hc2.stack
  refine (Safe.read hm2 fun _ => by omega).bind fun step m3 hm3 hc3 _ => ?_
  have h3 := hc3.stack
  extract_lets clipped
  clear_value clipped
  cases clipped with
  | some ends =>
    refine (Safe.write (v := .int ends.1) hm3 (fun _ => by omega) trivial).bind fun _ m4 hm4 hc4 _ => ?_
    have h4 := hc4.stack
    exact Safe.write (v := .int ends.2) hm4 (fun _ => by omega) trivial
  | none =>
    dsimp only
    split
    · exact Safe.fail hm3 rfl
    · exact Safe.fail hm3 rfl
    · exact Safe.fail hm3 rfl
    · next l s x _ _ _ =>
      refine (Safe.write (v := .float l.toDouble) hm3 (fun _ => by omega) trivial).bind
        fun _ m4 hm4 hc4 _ => ?_
      have h4 := hc4.stack
      refine (Safe.write (v := .float s.toDouble) hm4 (fun _ => by omega) trivial).bind
        fun _ m5 hm5 hc5 _ => ?_
      have h5 := hc5.stack
      exact Safe.write hm5 (fun _ => by omega) trivial

theorem nextIndex_known {s : Sizes} {index limit step : Value} (h : nextIndex? index limit step = some v) :
    v.Known s := by
  unfold nextIndex? at h
  split at h
  · split at h
    · cases (Option.ite_none_right_eq_some.mp h).2
      trivial
    · cases h
  · split at h
    · extract_lets s l n at h
      cases (Option.ite_none_right_eq_some.mp h).2
      trivial
    · cases h

theorem Safe.captureAll (hm : m.Whole) (hf : f.Known m.sizes) {us : List UpvalueDesc} {acc : Array Nat}
    (hu : ∀ u ∈ us, f.proto.room.Gives u) (hacc : ∀ c ∈ acc, c < m.cells.size) :
    Safe S (captureAll f acc us) m fun cells m' =>
      cells.size = acc.size + us.length ∧ ∀ c ∈ cells, c < m'.cells.size := by
  induction us generalizing m acc with
  | nil => exact Safe.pure hm ⟨rfl, hacc⟩
  | cons u us ih =>
    obtain ⟨hu, hus⟩ := List.forall_mem_cons.mp hu
    have hnext : ∀ c m', m'.Whole → m.Calm m' → c < m'.cells.size →
        Safe S (Exec.captureAll f (acc.push c) us) m' fun cells m'' =>
          cells.size = acc.size + (us.length + 1) ∧ ∀ c ∈ cells, c < m''.cells.size := by
      intro c m' hm' hc hlt
      refine (ih hm' (hf.mono hc.sizes) hus fun d hd => ?_).imp fun cells _ _ _ ⟨hsize, hcells⟩ => ⟨?_, hcells⟩
      · obtain hd | rfl := Array.mem_push.mp hd
        · exact Nat.lt_of_lt_of_le (hacc d hd) hc.sizes.cells
        · exact hlt
      · rw [hsize, Array.size_push]
        omega
    unfold Room.Gives at hu
    unfold Exec.captureAll
    split
    · next hin =>
      rw [if_pos hin] at hu
      exact (Safe.capture hm (register_lt hf hu)).bind hnext
    · next hin =>
      rw [if_neg hin] at hu
      exact (Safe.upvalue hm hf hu).bind hnext

theorem Safe.makeClosure (hm : m.Whole) (hf : f.Known m.sizes) (ha : a < f.proto.room.registers)
    (hk : f.proto.room.Closes k) : Safe S (makeClosure f (f.base + a) k) m fun _ _ => True := by
  obtain ⟨p, hp, hu⟩ := hk
  have hp : f.proto.protos[k]? = some p := hp
  have hcode := hf.linked.code.nested p (List.mem_of_getElem? hp)
  unfold Exec.makeClosure
  rw [hp]
  refine (Safe.captureAll hm hf hu (by simp)).bind fun cells m1 hm1 hc1 ⟨hsize, hcells⟩ => ?_
  have hlinked : (Function.script p cells).Known m1.sizes := ⟨hcode, by simpa using hsize, hcells⟩
  refine (Safe.newFunction hm1 hlinked).bind fun v m2 hm2 hc2 hv => ?_
  exact Safe.write hm2 (fun _ => register_lt (hf.mono (hc1.trans hc2).sizes) ha) hv

end

/-! ## 5. Moving on -/

structure Onward (f : Frame) (rest : List Frame) (pc : Nat) (m m' : Machine) : Prop where
  sizes : m.sizes.Le m'.sizes
  frames : m'.frames = { f with pc := pc } :: rest
  activations : m'.activations = m.activations

def Runs (S : Prop) (f : Frame) (rest : List Frame) (x : Exec Unit) (m : Machine) : Prop :=
  Meets S (fun e m' => m'.Whole ∧ (∃ pc, Onward f rest pc m m') ∧ e.Sane m'.sizes) x m
    fun _ m' => m'.Whole ∧ ∃ pc, Onward f rest pc m m' ∧ { f with pc := pc }.InCode

section

variable {α : Type} {S : Prop} {f : Frame} {rest : List Frame} {m : Machine}

theorem Onward.ofCalm {m' : Machine} (h : m.Calm m') (hf : m.frames = f :: rest) :
    Onward f rest f.pc m m' := ⟨h.sizes, h.frames.trans hf, h.activations⟩

theorem Onward.afterCalm {pc : Nat} {m' m'' : Machine} (h : m.Calm m') (h' : Onward f rest pc m' m'') :
    Onward f rest pc m m'' := ⟨h.sizes.trans h'.sizes, h'.frames, h'.activations.trans h.activations⟩

theorem Safe.runs {x : Exec Unit} {Q : Unit → Machine → Prop} (h : Safe S x m Q)
    (hf : m.frames = f :: rest) (hin : f.InCode) : Runs S f rest x m :=
  h.meets (fun _ _ hw hc he => ⟨hw, ⟨f.pc, .ofCalm hc hf⟩, he⟩)
    fun _ _ hw hc _ => ⟨hw, f.pc, .ofCalm hc hf, hin⟩

theorem Safe.thenRuns {x : Exec α} {k : α → Exec Unit} {Q : α → Machine → Prop} (h : Safe S x m Q)
    (hf : m.frames = f :: rest)
    (hk : ∀ a m', m'.Whole → m.Calm m' → m'.frames = f :: rest → Q a m' → Runs S f rest (k a) m') :
    Runs S f rest (x >>= k) m := by
  refine Meets.bind (h.meets (fun _ _ hw hc he => ⟨hw, ⟨f.pc, .ofCalm hc hf⟩, he⟩)
    fun a m' hw hc hq => ?_)
  exact (hk a m' hw hc (hc.frames.trans hf) hq).imp
    (fun _ _ ⟨hw', ⟨pc, ho⟩, he⟩ => ⟨hw', ⟨pc, .afterCalm hc ho⟩, he⟩)
    fun _ _ ⟨hw', pc, ho, hin⟩ => ⟨hw', pc, .afterCalm hc ho, hin⟩

theorem whole_at (hm : m.Whole) (hf : m.frames = f :: rest) (pc : Nat) :
    { m with frames := { f with pc := pc } :: rest }.Whole := by
  refine hm.withControl (fun g hg => ?_) hm.activations hm.top
  have hframes := hm.frames
  rw [hf] at hframes
  obtain rfl | hg := List.mem_cons.mp hg
  · have hk := hframes f (List.mem_cons_self ..)
    exact ⟨hk.linked, hk.top, hk.varargs⟩
  · exact hframes g (List.mem_cons_of_mem _ hg)

theorem modifyFrame_eq {g : Frame → Frame} (hf : m.frames = f :: rest) :
    modifyFrame g m = .ok () { m with frames := g f :: rest } := by
  refine congrArg (EStateM.Result.ok ()) ?_
  dsimp only
  rw [hf]

theorem Runs.skip (hm : m.Whole) (hf : m.frames = f :: rest)
    (hin : { f with pc := f.pc + 1 }.InCode) : Runs S f rest skip m := by
  unfold Runs Meets
  rw [show Exec.skip m = _ from modifyFrame_eq hf]
  exact ⟨whole_at hm hf _, f.pc + 1, ⟨.refl _, rfl, rfl⟩, hin⟩

theorem Runs.afterSkip {k : Unit → Exec Unit} (hf : m.frames = f :: rest)
    (h : Runs S { f with pc := f.pc + 1 } rest (k ())
      { m with frames := { f with pc := f.pc + 1 } :: rest }) :
    Runs S f rest (Exec.skip >>= k) m := by
  refine Meets.bind ?_
  unfold Meets
  rw [show Exec.skip m = _ from modifyFrame_eq hf]
  exact Meets.imp h
    (fun _ _ ⟨hw, ⟨pc, ho⟩, he⟩ => ⟨hw, ⟨pc, ho.sizes, ho.frames, ho.activations⟩, he⟩)
    fun _ _ ⟨hw, pc, ho, hin⟩ => ⟨hw, pc, ⟨ho.sizes, ho.frames, ho.activations⟩, hin⟩

theorem Runs.jump (hm : m.Whole) (hf : m.frames = f :: rest) {distance : Int}
    (h0 : 0 ≤ (f.pc : Int) + distance) (h1 : (f.pc : Int) + distance < f.proto.code.size) :
    Runs S f rest (jump distance) m := by
  unfold Runs Meets
  rw [show Exec.jump distance m = _ from modifyFrame_eq hf]
  dsimp only
  rw [if_pos h0]
  refine ⟨whole_at hm hf _, _, ⟨.refl _, rfl, rfl⟩, .inl ?_⟩
  show ((f.pc : Int) + distance).toNat < f.proto.code.size
  omega

theorem Runs.skipUnless (hm : m.Whole) (hf : m.frames = f :: rest) {outcome expected : Bool}
    (hin : f.InCode) (hnext : { f with pc := f.pc + 1 }.InCode) :
    Runs S f rest (skipUnless outcome expected) m := by
  unfold Exec.skipUnless
  split
  · exact Runs.skip hm hf hnext
  · exact (Safe.pure (Q := fun _ _ => True) hm trivial).runs hf hin

end

/-! ## 6. Instructions that neither call nor return -/

section

variable {S : Prop} {f : Frame} {rest : List Frame} {m : Machine} {i : Instr} {a b c k : Nat}

theorem Runs.compareOperands (hm : m.Whole) (hf : m.frames = f :: rest) (hk : f.Known m.sizes)
    {order : Value → Value → Option Bool} (hb : f.proto.room.Has i.b.val)
    (hc : f.proto.room.Has i.c.val) (hin : f.InCode) (hnext : { f with pc := f.pc + 1 }.InCode) :
    Runs S f rest (compareOperands f i order) m := by
  refine (Safe.operand hm hk hb).thenRuns hf fun x m1 hm1 hc1 hf1 _ => ?_
  refine (Safe.operand hm1 (hk.mono hc1.sizes) hc).thenRuns hf1 fun y m2 hm2 hc2 hf2 _ => ?_
  split
  · exact Runs.skipUnless hm2 hf2 hin hnext
  · exact (Safe.fail (Q := fun _ _ => True) hm2 rfl).runs hf2 hin

theorem Runs.iterate (hm : m.Whole) (hf : m.frames = f :: rest) {ra : Nat} {distance : Int}
    (h : ¬ S → ra + 3 < m.stack.size) (hin : f.InCode) (h0 : 0 ≤ (f.pc : Int) + distance)
    (h1 : (f.pc : Int) + distance < f.proto.code.size) : Runs S f rest (iterate ra distance) m := by
  have hlt : ∀ {m'}, m.Calm m' → ∀ n, n ≤ 3 → ¬ S → ra + n < m'.stack.size := fun hc n hn hs => by
    have := hc.stack
    have := h hs
    omega
  refine (Safe.read hm (hlt (.refl m) 0 (by omega))).thenRuns hf fun index m1 hm1 hc1 hf1 _ => ?_
  refine (Safe.read hm1 (hlt hc1 1 (by omega))).thenRuns hf1 fun limit m2 hm2 hc2 hf2 _ => ?_
  have hc2 := hc1.trans hc2
  refine (Safe.read hm2 (hlt hc2 2 (by omega))).thenRuns hf2 fun step m3 hm3 hc3 hf3 _ => ?_
  have hc3 := hc2.trans hc3
  split
  · next v hv =>
    refine (Safe.write hm3 (hlt hc3 0 (by omega)) (nextIndex_known hv)).thenRuns hf3
      fun _ m4 hm4 hc4 hf4 _ => ?_
    have hc4 := hc3.trans hc4
    refine (Safe.write hm4 (hlt hc4 3 (by omega)) (nextIndex_known hv)).thenRuns hf4
      fun _ m5 hm5 _ hf5 _ => ?_
    exact Runs.jump hm5 hf5 h0 h1
  · exact (Safe.pure (Q := fun _ _ => True) hm3 trivial).runs hf3 hin

theorem Runs.extra {missing : RuntimeFault} {k : Nat → Exec Unit} {j : Instr} (hf : m.frames = f :: rest)
    (hj : f.proto.code[f.pc]? = some j)
    (h : Runs S { f with pc := f.pc + 1 } rest (k j.ax)
      { m with frames := { f with pc := f.pc + 1 } :: rest }) :
    Runs S f rest (extra f missing >>= k) m := by
  rw [Exec.extra, bind_assoc]
  refine Runs.afterSkip hf ?_
  rw [hj]
  exact h

def isStill : Op → Bool
  | .loadKx | .loadBool | .jmp | .eq | .lt | .le | .test | .testSet | .call | .tailCall | .ret
  | .forLoop | .forPrep | .tforCall | .tforLoop | .setList => false
  | _ => true

/-- **Instructions that fit and only compute are safe.** -/
theorem plain_safe (hm : m.Whole) (hk : f.Known m.sizes) (hfits : i.Fits f.proto.room)
    (hs : isStill i.opcode = true) : Safe S (plain f i i.opcode) m fun _ _ => True := by
  have hlt : ∀ {m' x}, m.Calm m' → x < f.proto.room.registers → f.base + x < m'.stack.size :=
    fun hc hx => register_lt (hk.mono hc.sizes) hx
  unfold Instr.Fits at hfits
  unfold plain
  cases ho : i.opcode <;> rw [ho] at hfits hs <;> dsimp only at hfits ⊢
  case loadKx | loadBool | jmp | eq | lt | le | test | testSet | call | tailCall | ret | forLoop
      | forPrep | tforCall | tforLoop | setList => exact Bool.noConfusion hs
  case move =>
    refine (Safe.read hm fun _ => hlt (.refl m) hfits.2).bind fun v m1 hm1 hc1 hv => ?_
    exact Safe.write hm1 (fun _ => hlt hc1 hfits.1) hv
  case loadK =>
    refine (Safe.constant hm hfits.2).bind fun v m1 hm1 hc1 hv => ?_
    exact Safe.write hm1 (fun _ => hlt hc1 hfits.1) hv
  case loadNil =>
    have := hlt (.refl m) hfits
    exact Safe.clear hm (by omega)
  case getUpval =>
    refine (Safe.upvalue hm hk hfits.2).bind fun c m1 hm1 hc1 hc => ?_
    refine (Safe.readCell hm1 hc).bind fun v m2 hm2 hc2 hv => ?_
    exact Safe.write hm2 (fun _ => hlt (hc1.trans hc2) hfits.1) hv
  case setUpval =>
    refine (Safe.upvalue hm hk hfits.2).bind fun c m1 hm1 hc1 hc => ?_
    refine (Safe.read hm1 fun _ => hlt hc1 hfits.1).bind fun v m2 hm2 hc2 hv => ?_
    exact Safe.writeCell hm2 (Nat.lt_of_lt_of_le hc hc2.sizes.cells) hv
  case getTabUp =>
    refine (Safe.upvalue hm hk hfits.2.1).bind fun c m1 hm1 hc1 hc => ?_
    refine (Safe.readCell hm1 hc).bind fun t m2 hm2 hc2 ht => ?_
    have hc2 := hc1.trans hc2
    refine (Safe.operand hm2 (hk.mono hc2.sizes) hfits.2.2).bind fun key m3 hm3 hc3 _ => ?_
    refine (Safe.getKey hm3 (ht.mono hc3.sizes)).bind fun v m4 hm4 hc4 hv => ?_
    exact Safe.write hm4 (fun _ => hlt ((hc2.trans hc3).trans hc4) hfits.1) hv
  case getTable =>
    refine (Safe.read hm fun _ => hlt (.refl m) hfits.2.1).bind fun t m1 hm1 hc1 ht => ?_
    refine (Safe.operand hm1 (hk.mono hc1.sizes) hfits.2.2).bind fun key m2 hm2 hc2 _ => ?_
    refine (Safe.getKey hm2 (ht.mono hc2.sizes)).bind fun v m3 hm3 hc3 hv => ?_
    exact Safe.write hm3 (fun _ => hlt ((hc1.trans hc2).trans hc3) hfits.1) hv
  case setTabUp =>
    refine (Safe.upvalue hm hk hfits.1).bind fun c m1 hm1 hc1 hc => ?_
    refine (Safe.readCell hm1 hc).bind fun t m2 hm2 hc2 _ => ?_
    have hc2 := hc1.trans hc2
    refine (Safe.operand hm2 (hk.mono hc2.sizes) hfits.2.1).bind fun key m3 hm3 hc3 hkey => ?_
    have hc3 := hc2.trans hc3
    refine (Safe.operand hm3 (hk.mono hc3.sizes) hfits.2.2).bind fun v m4 hm4 hc4 hv => ?_
    exact Safe.putKey hm4 (hkey.mono hc4.sizes) hv
  case setTable =>
    refine (Safe.read hm fun _ => hlt (.refl m) hfits.1).bind fun t m1 hm1 hc1 _ => ?_
    refine (Safe.operand hm1 (hk.mono hc1.sizes) hfits.2.1).bind fun key m2 hm2 hc2 hkey => ?_
    have hc2 := hc1.trans hc2
    refine (Safe.operand hm2 (hk.mono hc2.sizes) hfits.2.2).bind fun v m3 hm3 hc3 hv => ?_
    exact Safe.putKey hm3 (hkey.mono hc3.sizes) hv
  case newTable =>
    refine (Safe.newTable hm Table.holds_empty).bind fun v m1 hm1 hc1 hv => ?_
    exact Safe.write hm1 (fun _ => hlt hc1 hfits) hv
  case self =>
    refine (Safe.read hm fun _ => hlt (.refl m) hfits.2.1).bind fun o m1 hm1 hc1 ho => ?_
    refine (Safe.operand hm1 (hk.mono hc1.sizes) hfits.2.2).bind fun key m2 hm2 hc2 _ => ?_
    have ho := ho.mono hc2.sizes
    have hc2 := hc1.trans hc2
    refine (Safe.getKey hm2 ho).bind fun v m3 hm3 hc3 hv => ?_
    have ho := ho.mono hc3.sizes
    have hc3 := hc2.trans hc3
    refine (Safe.write hm3 (fun _ => hlt hc3 hfits.1) ho).bind fun _ m4 hm4 hc4 _ => ?_
    exact Safe.write hm4 (fun _ => hlt (hc3.trans hc4) (by omega)) (hv.mono hc4.sizes)
  case not =>
    refine (Safe.read hm fun _ => hlt (.refl m) hfits.2).bind fun v m1 hm1 hc1 _ => ?_
    exact Safe.write hm1 (fun _ => hlt hc1 hfits.1) trivial
  case len =>
    refine (Safe.measure hm hk hfits.2).bind fun v m1 hm1 hc1 hv => ?_
    exact Safe.write hm1 (fun _ => hlt hc1 hfits.1) hv
  case concat => exact Safe.join hm hk hfits.1 hfits.2.1 hfits.2.2
  case closure => exact Safe.makeClosure hm hk hfits.1 hfits.2
  case vararg => exact Safe.place hm hk.varargs _
  case unm | bnot =>
    -- their operand is a register, never a constant
    have hb := Room.has_of_lt hfits.2 (Nat.lt_trans hfits.2 f.proto.maxStack.toNat_lt)
    exact Safe.operate hm hk hfits.1 hb hb
  case extraArg => exact Safe.pure hm trivial
  all_goals exact Safe.operate hm hk hfits.1 hfits.2.1 hfits.2.2

/-! ## 7. Instructions that move about in the code -/

/-- What the code of a function promises about the instruction behind which the running function
    is. -/
structure Behind (f : Frame) (i : Instr) : Prop where
  /-- The instruction stands right before the next one. -/
  stands : ∃ pc, f.pc = pc + 1 ∧ f.proto.code[pc]? = some i
  viable : f.proto.Viable

namespace Behind

theorem fits (h : Behind f i) : i.Fits f.proto.room ∨ i.Lax f.proto.room := by
  obtain ⟨pc, _, hi⟩ := h.stands
  exact h.viable.fits pc i hi

theorem fitsUnless (h : Behind f i) (hs : ¬ i.Lax f.proto.room) : i.Fits f.proto.room :=
  h.fits.resolve_right hs

theorem followed (h : Behind f i) : i.Followed f.proto.constants.size f.proto.code[f.pc]? := by
  obtain ⟨pc, hpc, hi⟩ := h.stands
  rw [hpc]
  exact h.viable.followed pc i hi

theorem inCode (h : Behind f i) (ho : i.opcode ≠ .ret) : f.InCode := by
  obtain ⟨pc, hpc, hi⟩ := h.stands
  exact .inl (hpc ▸ h.viable.next_lt hi ho)

theorem inCode_skip (h : Behind f i) {j : Instr} (hj : f.proto.code[f.pc]? = some j)
    (ho : j.opcode ≠ .ret) : { f with pc := f.pc + 1 }.InCode := .inl (h.viable.next_lt hj ho)

theorem jumps (h : Behind f i) (ho : i.opcode.layout = .asbx) :
    0 ≤ (f.pc : Int) + i.sbx ∧ (f.pc : Int) + i.sbx < f.proto.code.size := by
  obtain ⟨pc, hpc, hi⟩ := h.stands
  have hsize := (Array.getElem?_eq_some_iff.mp hi).1
  have := h.viable.jumps pc i hi ho
  omega

theorem skips (h : Behind f i) (ho : i.opcode = .loadBool) (hc : i.c.val ≠ 0) :
    { f with pc := f.pc + 1 }.InCode := by
  obtain ⟨pc, hpc, hi⟩ := h.stands
  have := h.viable.skips pc i hi ho hc
  by_cases hlt : pc + 2 < f.proto.code.size
  · exact .inl (show f.pc + 1 < f.proto.code.size by omega)
  · refine .inr ⟨show f.pc + 1 = f.proto.code.size by omega, i, ?_, ho, hc⟩
    show f.proto.code[f.proto.code.size - 2]? = some i
    rw [show f.proto.code.size - 2 = pc by omega, hi]

end Behind

theorem Runs.loadBool (hm : m.Whole) (hf : m.frames = f :: rest) (hk : f.Known m.sizes)
    (hb : Behind f i) (ho : i.opcode = .loadBool) : Runs S f rest (plain f i .loadBool) m := by
  have hfits : i.a.val < f.proto.room.registers := by
    have := hb.fits
    simpa only [Instr.Fits, Instr.Lax, ho, or_false] using this
  refine (Safe.write (v := .bool (i.b.val ≠ 0)) hm (fun _ => register_lt hk hfits) trivial).thenRuns hf
    fun _ m1 hm1 _ hf1 _ => ?_
  split
  · next hc => exact Runs.skip hm1 hf1 (hb.skips ho hc)
  · exact (Safe.pure (Q := fun _ _ => True) hm1 trivial).runs hf1 (hb.inCode (by simp [ho]))

theorem Runs.loadKx (hm : m.Whole) (hf : m.frames = f :: rest) (hk : f.Known m.sizes)
    (hb : Behind f i) (ho : i.opcode = .loadKx) : Runs S f rest (plain f i .loadKx) m := by
  have hfits : i.a.val < f.proto.room.registers := by
    have := hb.fits
    simpa only [Instr.Fits, Instr.Lax, ho, or_false] using this
  have hnext := hb.followed
  simp only [Instr.Followed, ho] at hnext
  obtain ⟨j, hj, hextra, hax⟩ := hnext
  refine Runs.extra hf hj ?_
  have hm' := whole_at hm hf (f.pc + 1)
  refine (Safe.constant hm' hax).thenRuns rfl fun v m1 hm1 hc1 hf1 hv => ?_
  refine (Safe.write hm1 (fun _ => ?_) hv).runs hf1 (hb.inCode_skip hj (by simp [hextra]))
  exact register_lt (hk.mono hc1.sizes) hfits

theorem Runs.test (hm : m.Whole) (hf : m.frames = f :: rest) (hk : f.Known m.sizes)
    (hb : Behind f i) (ho : i.opcode = .test) : Runs S f rest (plain f i .test) m := by
  have hfits : i.a.val < f.proto.room.registers := by
    have := hb.fits
    simpa only [Instr.Fits, Instr.Lax, ho, or_false] using this
  have hnext := hb.followed
  simp only [Instr.Followed, ho] at hnext
  obtain ⟨j, hj, hjmp⟩ := hnext
  refine (Safe.read hm fun _ => register_lt hk hfits).thenRuns hf fun v m1 hm1 _ hf1 _ => ?_
  exact Runs.skipUnless hm1 hf1 (hb.inCode (by simp [ho])) (hb.inCode_skip hj (by simp [hjmp]))

theorem Runs.testSet (hm : m.Whole) (hf : m.frames = f :: rest) (hk : f.Known m.sizes)
    (hb : Behind f i) (ho : i.opcode = .testSet) : Runs S f rest (plain f i .testSet) m := by
  have hfits : i.a.val < f.proto.room.registers ∧ i.b.val < f.proto.room.registers := by
    have := hb.fits
    simpa only [Instr.Fits, Instr.Lax, ho, or_false] using this
  have hnext := hb.followed
  simp only [Instr.Followed, ho] at hnext
  obtain ⟨j, hj, hjmp⟩ := hnext
  refine (Safe.read hm fun _ => register_lt hk hfits.2).thenRuns hf fun v m1 hm1 hc1 hf1 hv => ?_
  split
  · exact Runs.skip hm1 hf1 (hb.inCode_skip hj (by simp [hjmp]))
  · exact (Safe.write hm1 (fun _ => register_lt (hk.mono hc1.sizes) hfits.1) hv).runs hf1
      (hb.inCode (by simp [ho]))

theorem Runs.jmp (hm : m.Whole) (hf : m.frames = f :: rest) (hb : Behind f i) (ho : i.opcode = .jmp) :
    Runs S f rest (plain f i .jmp) m := by
  obtain ⟨h0, h1⟩ := hb.jumps (by simp [ho, Op.layout])
  show Runs S f rest (if i.a.val ≠ 0 then do close _; Exec.jump i.sbx else Exec.jump i.sbx) m
  split
  · exact (Safe.close hm).thenRuns hf fun _ m1 hm1 _ hf1 _ => Runs.jump hm1 hf1 h0 h1
  · exact Runs.jump hm hf h0 h1

theorem Runs.forPrep (hm : m.Whole) (hf : m.frames = f :: rest) (hk : f.Known m.sizes)
    (hb : Behind f i) (ho : i.opcode = .forPrep) : Runs S f rest (plain f i .forPrep) m := by
  have hfits : i.a.val + 3 < f.proto.room.registers := by
    have := hb.fits
    simpa only [Instr.Fits, Instr.Lax, ho, or_false] using this
  obtain ⟨h0, h1⟩ := hb.jumps (by simp [ho, Op.layout])
  have hlast := register_lt hk hfits
  refine (Safe.prepareLoop hm (by omega)).thenRuns hf fun _ m1 hm1 _ hf1 _ => ?_
  exact Runs.jump hm1 hf1 h0 h1

theorem Runs.tforLoop (hm : m.Whole) (hf : m.frames = f :: rest) (hk : f.Known m.sizes)
    (hb : Behind f i) (ho : i.opcode = .tforLoop) :
    Runs (i.Lax f.proto.room) f rest (plain f i .tforLoop) m := by
  have hlt : ¬ i.Lax f.proto.room → f.base + i.a.val + 1 < m.stack.size := fun hs => by
    have hfits := hb.fitsUnless hs
    simp only [Instr.Fits, ho] at hfits
    exact register_lt hk hfits
  obtain ⟨h0, h1⟩ := hb.jumps (by simp [ho, Op.layout])
  refine (Safe.read hm hlt).thenRuns hf fun v m1 hm1 hc1 hf1 hv => ?_
  split
  · refine (Safe.write hm1 (fun hs => ?_) hv).thenRuns hf1 fun _ m2 hm2 _ hf2 _ =>
      Runs.jump hm2 hf2 h0 h1
    have := hlt hs
    have := hc1.stack
    omega
  · exact (Safe.pure (Q := fun _ _ => True) hm1 trivial).runs hf1 (hb.inCode (by simp [ho]))

theorem Runs.store (hm : m.Whole) (hf : m.frames = f :: rest) {ra n : Nat} {first : Int}
    (hra : ra < m.stack.size) (hn : ra + 1 + n ≤ m.stack.size) (hin : f.InCode) :
    Runs S f rest (do
      match ← read ra with
      | .table id =>
        let vs ← readMany (ra + 1) n
        setKeys id first vs
      | v => fail (.index v.type none)) m := by
  refine (Safe.read hm fun _ => hra).thenRuns hf fun v m1 hm1 hc1 hf1 _ => ?_
  split
  · have := hc1.stack
    refine (Safe.readMany hm1 fun _ => by omega).thenRuns hf1 fun vs m2 hm2 _ hf2 hvs => ?_
    exact (Safe.setKeys hm2 hvs.2).runs hf2 hin
  · exact (Safe.fail (Q := fun _ _ => True) hm1 rfl).runs hf1 hin

theorem Runs.setList (hm : m.Whole) (hf : m.frames = f :: rest) (hk : f.Known m.sizes)
    (hb : Behind f i) (ho : i.opcode = .setList) : Runs S f rest (plain f i .setList) m := by
  have hfits : i.a.val + i.b.val < f.proto.room.registers := by
    have := hb.fits
    simpa only [Instr.Fits, Instr.Lax, ho, or_false] using this
  have hlast := register_lt hk hfits
  have hra : f.base + i.a.val < m.stack.size := by omega
  have hin := hb.inCode (by simp [ho])
  have hstore : ∀ n, f.base + i.a.val + 1 + n ≤ m.stack.size → Runs S f rest (do
      let block ← if i.c.val = 0 then Exec.extra f .storeWithoutIndex else Pure.pure i.c.val
      match ← read (f.base + i.a.val) with
      | .table id =>
        let vs ← readMany (f.base + i.a.val + 1) n
        setKeys id (((block : Int) - 1) * itemsPerFlush) vs
      | v => fail (.index v.type none)) m := by
    intro n hn
    split
    · next hc =>
      have hnext := hb.followed
      simp only [Instr.Followed, ho] at hnext
      obtain ⟨j, hj, hextra⟩ := hnext hc
      refine Runs.extra hf hj ?_
      exact Runs.store (whole_at hm hf _) rfl hra hn (hb.inCode_skip hj (by simp [hextra]))
    · exact Runs.store hm hf hra hn hin
  show Runs S f rest (storeItems f i) m
  have htop := hm.top
  unfold storeItems
  extract_lets ra b
  split
  · exact hstore (m.top - (ra + 1)) (by omega)
  · exact hstore b (by omega)

def isCall : Op → Bool
  | .call | .tailCall | .ret | .tforCall => true
  | _ => false

/-- **An instruction that neither begins nor ends a call leaves the running function at an
    instruction**; only a lax one may be stuck. -/
theorem plain_runs (hm : m.Whole) (hf : m.frames = f :: rest) (hb : Behind f i)
    (ho : isCall i.opcode = false) : Runs (i.Lax f.proto.room) f rest (plain f i i.opcode) m := by
  have hk : f.Known m.sizes := hm.frames f (by rw [hf]; exact List.mem_cons_self ..)
  have hfits := hb.fits
  by_cases hs : isStill i.opcode = true
  · have hfits : i.Fits f.proto.room := by
      refine hfits.resolve_right fun hlax => ?_
      revert hs hlax
      unfold Instr.Lax
      cases i.opcode <;> simp [isStill]
    refine (plain_safe hm hk hfits hs).runs hf (hb.inCode fun hret => ?_)
    rw [hret] at hs
    cases hs
  · cases hop : i.opcode <;> rw [hop] at ho hs
    case loadKx => exact Runs.loadKx hm hf hk hb hop
    case loadBool => exact Runs.loadBool hm hf hk hb hop
    case jmp => exact Runs.jmp hm hf hb hop
    case test => exact Runs.test hm hf hk hb hop
    case testSet => exact Runs.testSet hm hf hk hb hop
    case forPrep => exact Runs.forPrep hm hf hk hb hop
    case tforLoop => exact Runs.tforLoop hm hf hk hb hop
    case setList => exact Runs.setList hm hf hk hb hop
    case forLoop =>
      obtain ⟨h0, h1⟩ := hb.jumps (by simp [hop, Op.layout])
      refine Runs.iterate hm hf (fun hs => ?_) (hb.inCode (by simp [hop])) h0 h1
      have hfits := hb.fitsUnless hs
      simp only [Instr.Fits, hop] at hfits
      exact register_lt hk hfits
    case eq | lt | le =>
      unfold plain
      simp only [Instr.Fits, Instr.Lax, hop, or_false] at hfits
      have hnext := hb.followed
      simp only [Instr.Followed, hop] at hnext
      obtain ⟨j, hj, hjmp⟩ := hnext
      exact Runs.compareOperands hm hf hk hfits.1 hfits.2 (hb.inCode (by simp [hop]))
        (hb.inCode_skip hj (by simp [hjmp]))
    all_goals first | exact (hs rfl).elim | cases ho

end

end Exec

end LuaMachine
