/-
  THE INSTRUCTION THAT WROTE A REGISTER LAST is found by one pass over the code, which keeps the last write
  that no jump seen so far passes over and the furthest target of those jumps. Names are followed back from
  write to write, each time to an earlier instruction.

  * `Naming.last_write_certain` -- **the pass finds just what is looked for, and following names back
    ends**.
-/
import LuaMachine.Machine.Naming

namespace LuaMachine

/-- The instruction changes the register: nil into it, among the results of a call or of an iterator, or as its
    register A. -/
def Instr.Changes (i : Instr) (reg : Nat) : Prop :=
  (i.opcode = .loadNil ∧ i.a.val ≤ reg ∧ reg ≤ i.a.val + i.b.val) ∨
    ((i.opcode = .call ∨ i.opcode = .tailCall) ∧ i.a.val ≤ reg) ∨
    (i.opcode = .tforCall ∧ i.a.val + 2 ≤ reg) ∨ (i.opcode.setsA = true ∧ i.a.val = reg)

def Proto.Overleaps (p : Proto) (j s last : Nat) : Prop :=
  ∃ i, p.code[j]? = some i ∧ i.opcode = .jmp ∧ (s : Int) < j + 1 + i.sbx ∧ (j : Int) + 1 + i.sbx ≤ last

namespace Naming

variable {p : Proto} {last reg limit n s target pc : Nat} {found : Option Nat} {i : Instr}

/-! ## 1. The pass over the code -/

/-- Of the instructions before `limit`, the one at `s` is the last that changes the register, and no JMP before it
    leads behind it and up to `last` at most. -/
structure LastWrite (p : Proto) (last reg limit s : Nat) : Prop where
  before : s < limit
  changes : ∃ i, p.code[s]? = some i ∧ i.Changes reg
  latest : ∀ n i, s < n → n < limit → p.code[n]? = some i → ¬ i.Changes reg
  certain : ∀ j, j < s → ¬ p.Overleaps j s last

theorem writes_iff : writes i reg = true ↔ i.Changes reg := by
  unfold writes Instr.Changes
  generalize i.opcode = op
  cases op <;> simp [Op.setsA] <;> omega

theorem not_jmp_of_changes (h : i.Changes reg) : i.opcode ≠ .jmp := by
  intro hjmp
  rw [Instr.Changes, hjmp] at h
  rcases h with ⟨hop, -⟩ | ⟨hop | hop, -⟩ | ⟨hop, -⟩ | ⟨hop, -⟩ <;> cases hop

theorem forwardTarget?_eq_none (h : i.opcode ≠ .jmp) (pc last : Nat) : forwardTarget? i pc last = none := by
  unfold forwardTarget?
  split
  · next hjmp => exact absurd hjmp h
  · rfl

theorem lt_forwardTarget? (hs : n ≤ s) (hi : p.code[n]? = some i) :
    (∃ t, forwardTarget? i n last = some t ∧ s < t) ↔ p.Overleaps n s last := by
  constructor
  · rintro ⟨t, ht, hlt⟩
    unfold forwardTarget? at ht
    split at ht
    · next hjmp =>
      simp only [Option.ite_none_right_eq_some, Option.some.injEq] at ht
      exact ⟨i, hi, hjmp, by omega, by omega⟩
    · cases ht
  · rintro ⟨j, hj, hjmp, hover, hle⟩
    rw [hi] at hj
    cases hj
    refine ⟨((n : Int) + 1 + i.sbx).toNat, ?_, by omega⟩
    unfold forwardTarget?
    rw [hjmp]
    exact if_pos ⟨by omega, hle⟩

theorem LastWrite.quiet_succ (hi : p.code[n]? = some i) (hchanges : ¬ i.Changes reg) :
    LastWrite p last reg (n + 1) s ↔ LastWrite p last reg n s := by
  constructor
  · intro h
    have hne : s ≠ n := by
      rintro rfl
      obtain ⟨j, hj, hc⟩ := h.changes
      rw [hi] at hj
      cases hj
      exact hchanges hc
    have hlt := h.before
    exact ⟨by omega, h.changes, fun m j hm hmn => h.latest m j hm (by omega), h.certain⟩
  · intro h
    refine ⟨Nat.lt_succ_of_lt h.before, h.changes, fun m j hm hmn hj => ?_, h.certain⟩
    rcases Nat.lt_succ_iff_lt_or_eq.mp hmn with hlt | rfl
    · exact h.latest m j hm hlt hj
    · rw [hi] at hj
      cases hj
      exact hchanges

theorem LastWrite.changed_succ (hi : p.code[n]? = some i) (hchanges : i.Changes reg) :
    LastWrite p last reg (n + 1) s ↔ s = n ∧ ∀ j, j < n → ¬ p.Overleaps j n last := by
  constructor
  · intro h
    obtain rfl : s = n := by
      refine Nat.le_antisymm (Nat.lt_succ_iff.mp h.before) (Nat.not_lt.mp fun hlt => ?_)
      exact h.latest n i hlt (Nat.lt_succ_self n) hi hchanges
    exact ⟨rfl, h.certain⟩
  · rintro ⟨rfl, hcertain⟩
    exact ⟨Nat.lt_succ_self s, ⟨i, hi, hchanges⟩, fun m _ hm hlt => by omega, hcertain⟩

/-- What the pass knows in front of the instruction at `n`: the last write so far, unless a jump before it passes
    over it, and how far the jumps so far lead. -/
structure Scanned (p : Proto) (last reg n : Nat) (found : Option Nat) (target : Nat) : Prop where
  found_iff : ∀ s, found = some s ↔ LastWrite p last reg n s
  target_iff : ∀ s, n ≤ s → (s < target ↔ ∃ j, j < n ∧ p.Overleaps j s last)

theorem Scanned.start (p : Proto) (last reg : Nat) : Scanned p last reg 0 none 0 where
  found_iff s := by
    constructor
    · rintro ⟨⟩
    · intro h
      exact absurd h.before (Nat.not_lt_zero s)
  target_iff := by simp

def furthest (i : Instr) (pc last target : Nat) : Nat :=
  match forwardTarget? i pc last with
  | some t => max t target
  | none => target

theorem furthest_eq_self (h : i.opcode ≠ .jmp) (pc last target : Nat) : furthest i pc last target = target := by
  unfold furthest
  rw [forwardTarget?_eq_none h]

theorem lt_furthest : s < furthest i n last target ↔ (∃ t, forwardTarget? i n last = some t ∧ s < t) ∨ s < target := by
  unfold furthest
  cases forwardTarget? i n last with
  | none => simp
  | some t =>
    simp only [Option.some.injEq, exists_eq_left']
    omega

/-- **One more instruction.** Only a write replaces what was found: by itself or, where a jump passes over it, by
    nothing. -/
theorem Scanned.step (h : Scanned p last reg n found target) (hi : p.code[n]? = some i) :
    Scanned p last reg (n + 1)
      (if writes i reg then (if n < furthest i n last target then none else some n) else found)
      (furthest i n last target) where
  found_iff s := by
    by_cases hw : writes i reg = true
    · have hchanges := writes_iff.mp hw
      have hover := h.target_iff n (Nat.le_refl n)
      rw [if_pos hw, furthest_eq_self (not_jmp_of_changes hchanges), LastWrite.changed_succ hi hchanges]
      split
      · next hlt =>
        obtain ⟨j, hj, hpast⟩ := hover.mp hlt
        constructor
        · rintro ⟨⟩
        · rintro ⟨-, hcertain⟩
          exact absurd hpast (hcertain j hj)
      · next hge =>
        constructor
        · rintro ⟨⟩
          exact ⟨rfl, fun j hj hpast => hge (hover.mpr ⟨j, hj, hpast⟩)⟩
        · rintro ⟨rfl, -⟩
          rfl
    · have hchanges : ¬ i.Changes reg := fun hc => hw (writes_iff.mpr hc)
      rw [if_neg hw, h.found_iff, LastWrite.quiet_succ hi hchanges]
  target_iff s hs := by
    rw [lt_furthest, lt_forwardTarget? (Nat.le_of_succ_le hs) hi, h.target_iff s (Nat.le_of_succ_le hs)]
    constructor
    · rintro (hover | ⟨j, hj, hover⟩)
      · exact ⟨n, Nat.lt_succ_self n, hover⟩
      · exact ⟨j, Nat.lt_succ_of_lt hj, hover⟩
    · rintro ⟨j, hj, hover⟩
      rcases Nat.lt_succ_iff_lt_or_eq.mp hj with hlt | rfl
      · exact .inr ⟨j, hlt, hover⟩
      · exact .inl hover

theorem Scanned.scan (rest : List Instr) (h : Scanned p last reg n found target)
    (hrest : ∀ m, rest[m]? = if n + m < limit then p.code[n + m]? else none) (hlimit : n + rest.length = limit) :
    scanWrites last reg rest n found target = some s ↔ LastWrite p last reg limit s := by
  induction rest generalizing n found target with
  | nil =>
    rw [List.length_nil, Nat.add_zero] at hlimit
    subst hlimit
    exact h.found_iff s
  | cons i rest ih =>
    have hi : p.code[n]? = some i := by
      have hfirst := hrest 0
      rw [List.getElem?_cons_zero, Nat.add_zero, if_pos (by rw [← hlimit, List.length_cons]; omega)] at hfirst
      exact hfirst.symm
    refine ih (h.step hi) (fun m => ?_) ?_
    · have hnext := hrest (m + 1)
      rw [List.getElem?_cons_succ] at hnext
      rw [hnext, Nat.add_right_comm, Nat.add_assoc]
    · rw [← hlimit, List.length_cons]
      omega

theorem lastWrite?_eq_some_iff :
    lastWrite? p last reg = some s ↔ LastWrite p last reg (min last p.code.size) s := by
  refine (Scanned.start p last reg).scan _ (fun m => ?_) (by rw [List.length_take, Array.length_toList, Nat.zero_add])
  rw [List.getElem?_take, Array.getElem?_toList, Nat.zero_add]
  grind

/-! ## 2. Following names back -/

def keyName (p : Proto) (answer : Nat → Nat → Option Naming) (pc c : Nat) : String :=
  if Operand.isConstant c then (constantName? p (Operand.constantIndex c)).getD "?"
  else
    match answer pc c with
    | some ⟨.constant, name⟩ => name
    | _ => "?"

/-- What a register holds in front of `last`, given the answers for registers at other instructions. -/
def describe (p : Proto) (answer : Nat → Nat → Option Naming) (last reg : Nat) : Option Naming :=
  match p.localName? (reg + 1) last with
  | some name => some ⟨.local, name.lossy⟩
  | none =>
    match lastWrite? p last reg with
    | none => none
    | some pc =>
      match p.code[pc]? with
      | none => none
      | some i =>
        let b := i.b.val
        let c := i.c.val
        match i.opcode with
        | .move => if b < i.a.val then answer pc b else none
        | .getTabUp =>
          some ⟨if upvalueName p b = environment then .global else .field, keyName p answer pc c⟩
        | .getTable =>
          let isEnv := p.localName? (b + 1) pc = some (Bytes.ofString environment)
          some ⟨if isEnv then .global else .field, keyName p answer pc c⟩
        | .getUpval => some ⟨.upvalue, upvalueName p b⟩
        | .loadK => (constantName? p i.bx).map fun s => ⟨.constant, s⟩
        | .loadKx =>
          match p.code[pc + 1]? with
          | some x => (constantName? p x.ax).map fun s => ⟨.constant, s⟩
          | none => none
        | .self => some ⟨.method, keyName p answer pc c⟩
        | _ => none

theorem follow?_succ (p : Proto) (fuel last reg : Nat) :
    follow? p (fuel + 1) last reg = describe p (follow? p fuel) last reg := rfl

/-- To name what the register `reg` holds in front of `last`, it is asked what another register holds in front of
    an earlier instruction: the one it was copied from, or the one that holds the key it was read with. -/
inductive Asks (p : Proto) (last reg : Nat) : Nat → Nat → Prop where
  | copied {pc : Nat} {i : Instr} (hwrite : lastWrite? p last reg = some pc) (hi : p.code[pc]? = some i)
    (hop : i.opcode = .move) (hlow : i.b.val < i.a.val) : Asks p last reg pc i.b.val
  | key {pc : Nat} {i : Instr} (hwrite : lastWrite? p last reg = some pc) (hi : p.code[pc]? = some i)
    (hop : i.opcode = .getTabUp ∨ i.opcode = .getTable ∨ i.opcode = .self)
    (hkey : Operand.isConstant i.c.val = false) : Asks p last reg pc i.c.val

theorem Asks.lt {pc r : Nat} (h : Asks p last reg pc r) : pc < last := by
  have hlt : ∀ {pc}, lastWrite? p last reg = some pc → pc < last := fun hwrite =>
    Nat.lt_of_lt_of_le (lastWrite?_eq_some_iff.mp hwrite).before (Nat.min_le_left _ _)
  cases h with
  | copied hwrite => exact hlt hwrite
  | key hwrite => exact hlt hwrite

theorem keyName_congr {answer answer' : Nat → Nat → Option Naming} {c : Nat}
    (h : Operand.isConstant c = false → answer pc c = answer' pc c) :
    keyName p answer pc c = keyName p answer' pc c := by
  unfold keyName
  split
  · rfl
  · next hc => rw [h (by simpa using hc)]

theorem describe_congr {answer answer' : Nat → Nat → Option Naming}
    (h : ∀ pc r, Asks p last reg pc r → answer pc r = answer' pc r) :
    describe p answer last reg = describe p answer' last reg := by
  unfold describe
  split
  · rfl
  split
  · rfl
  next pc hwrite =>
  split
  · rfl
  next i hi =>
  have hkey : (i.opcode = .getTabUp ∨ i.opcode = .getTable ∨ i.opcode = .self) →
      keyName p answer pc i.c.val = keyName p answer' pc i.c.val :=
    fun hop => keyName_congr fun hc => h _ _ (.key hwrite hi hop hc)
  dsimp only
  split
  · next hop =>
    split
    · next hlow => exact h _ _ (.copied hwrite hi hop hlow)
    · rfl
  · next hop => rw [hkey (.inl hop)]
  · next hop => rw [hkey (.inr (.inl hop))]
  · rfl
  · rfl
  · rfl
  · next hop => rw [hkey (.inr (.inr hop))]
  · rfl

theorem follow?_eq_ofRegister? {fuel : Nat} (h : last < fuel) : follow? p fuel last reg = ofRegister? p last reg := by
  induction last using Nat.strongRecOn generalizing fuel reg with
  | _ last ih =>
    cases fuel with
    | zero => exact absurd h (Nat.not_lt_zero last)
    | succ fuel =>
      rw [ofRegister?, follow?_succ, follow?_succ]
      refine describe_congr fun pc r hasks => ?_
      have hlt := hasks.lt
      rw [ih pc hlt (by omega), ih pc hlt hlt]

/-- **Following names back needs no bound.** -/
theorem ofRegister?_eq_describe (p : Proto) (last reg : Nat) :
    ofRegister? p last reg = describe p (ofRegister? p) last reg := by
  rw [ofRegister?, follow?_succ]
  exact describe_congr fun pc r hasks => follow?_eq_ofRegister? hasks.lt

theorem eq_ofRegister? {answer : Nat → Nat → Option Naming}
    (h : ∀ last reg, answer last reg = describe p answer last reg) : answer = ofRegister? p := by
  funext last reg
  induction last using Nat.strongRecOn generalizing reg with
  | _ last ih =>
    rw [h, ofRegister?_eq_describe]
    exact describe_congr fun pc r hasks => ih pc hasks.lt r

/-- **The last write that is certain, and names that end.** What the pass over the code gives is the last
    instruction before `last` that changes the register, provided that no JMP in front of it leads behind it and up
    to `last` at most; else it gives nothing. Following a name back asks only about earlier instructions, so it
    ends whatever the code is: the answer is the one that fits the answers to its own questions. -/
theorem last_write_certain (p : Proto) (last reg : Nat) :
    (∀ s, lastWrite? p last reg = some s ↔ LastWrite p last reg (min last p.code.size) s) ∧
    (lastWrite? p last reg = none ↔ ∀ s, ¬ LastWrite p last reg (min last p.code.size) s) ∧
    (∀ pc r, Asks p last reg pc r → pc < last) ∧
    (∀ answer answer', (∀ pc r, Asks p last reg pc r → answer pc r = answer' pc r) →
      describe p answer last reg = describe p answer' last reg) ∧
    (∀ answer, (∀ last reg, answer last reg = describe p answer last reg) ↔ answer = ofRegister? p) := by
  refine ⟨fun _ => lastWrite?_eq_some_iff, ?_, fun _ _ h => h.lt, fun _ _ h => describe_congr h,
    fun answer => ⟨eq_ofRegister?, ?_⟩⟩
  · rw [Option.eq_none_iff_forall_ne_some]
    exact forall_congr' fun s => not_congr lastWrite?_eq_some_iff
  · rintro rfl
    exact ofRegister?_eq_describe p

/-- `x` of the environment into register 0, which is copied to register 1. -/
def copiedGlobal : Proto where
  code := #[.ofABC .getTabUp 0 0 (Operand.ofConstant 0), .ofABC .move 1 0 0, .ofABC .ret 1 2 0]
  constants := #[.str (Bytes.ofString "x")]
  protos := []
  upvalues := [⟨some (Bytes.ofString "_ENV"), true, 0⟩]
  params := 0
  isVararg := true
  maxStack := 2
  source := none
  lineDefined := 0
  lastLine := 0
  lines := #[]
  locals := []

theorem last_write_certain_copied : LastWrite copiedGlobal 2 1 2 1 ∧ Asks copiedGlobal 2 1 1 0 ∧ (1 : Nat) < 2 ∧
    ofRegister? copiedGlobal 2 1 = some ⟨.global, "x"⟩ := by
  obtain ⟨hwrite, -, hearlier, -, hanswer⟩ := last_write_certain copiedGlobal 2 1
  have hlast : lastWrite? copiedGlobal 2 1 = some 1 := by decide
  have hasks : Asks copiedGlobal 2 1 1 0 := .copied (i := .ofABC .move 1 0 0) hlast (by decide) (by decide) (by decide)
  refine ⟨(hwrite 1).mp hlast, hasks, hearlier 1 0 hasks, ?_⟩
  rw [(hanswer _).mpr rfl]
  decide +kernel

end Naming

end LuaMachine
