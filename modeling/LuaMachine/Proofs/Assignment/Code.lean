/-
  CODE FOR LOADS AND STORES. What instructions that load and store do is said by acts: a register is loaded,
  an upvalue, a field or list items are set. A LOADNIL at the end of a draft is not yet code, as the next
  step may widen it; its registers count as nil, though.

  * `Draft.Codes` -- **code for acts has been written**, from one draft to another.
-/
import LuaMachine.Proofs.Assignment.Meaning
import LuaMachine.Proofs.Meaning.Value
import LuaMachine.Proofs.Value.ListPart

namespace LuaMachine

/-! ## 1. Acts -/

inductive Origin where
  | reg (r : Nat)
  | upvalue (u : Nat)
  | const (c : Constant)
deriving DecidableEq

def Origin.value (V : Vars) : Origin → Value
  | reg r => V.regs r
  | upvalue u => V.upvalues u
  | const c => .ofConstant c

def TableBase.value (V : Vars) (t : Nat) : TableBase → Value
  | register => V.regs t
  | upvalue => V.upvalues t

namespace Vars

def span (V : Vars) (low n : Nat) : List Value := (List.range n).map fun i => V.regs (low + i)

theorem length_span (V : Vars) (low n : Nat) : (V.span low n).length = n := by
  simp [span]

theorem span_succ (V : Vars) (low n : Nat) : V.span low (n + 1) = V.span low n ++ [V.regs (low + n)] := by
  simp [span, List.range_succ]

def setInts (V : Vars) (table : Value) (first : Int) (vs : List Value) : Except Refusal Vars :=
  match table with
  | .table id =>
    .ok { V with tables := V.tables.modify id fun _ => Table.setInts first vs (V.tables[id]?.getD .empty) }
  | t => .error (.notTable t.type)

end Vars

inductive Act where
  | load (r : Nat) (s : Origin)
  | setUpvalue (u r : Nat)
  | setField (base : TableBase) (t : Nat) (key value : Origin)
  /-- The values of the `n` registers after a table's are stored in it, as those of a block. -/
  | setItems (t n block : Nat)

namespace Act

def run (V : Vars) : Act → Except Refusal Vars
  | load r s => .ok (V.setReg r (s.value V))
  | setUpvalue u r => .ok (V.setUpvalue u (V.regs r))
  | setField base t k x => V.setField (base.value V t) (k.value V) (x.value V)
  | setItems t n block => V.setInts (V.regs t) (((block : Int) - 1) * itemsPerFlush) (V.span (t + 1) n)

def nils (r : Nat) : Nat → List Act
  | 0 => []
  | n + 1 => load r (.const .nil) :: nils (r + 1) n

end Act

namespace Vars

def run : List Act → Vars → Vars × Option Refusal
  | [], V => (V, none)
  | a :: rest, V =>
    match a.run V with
    | .ok V' => run rest V'
    | .error e => (V, some e)

def clear (V : Vars) (r n : Nat) : Vars :=
  { V with regs := fun i => if r ≤ i ∧ i < r + n then .nil else V.regs i }

variable {as bs : List Act} {V V' : Vars} {e : Refusal}

theorem run_cons_ok {a : Act} (h : a.run V = .ok V') : run (a :: as) V = run as V' := by
  rw [run, h]

theorem run_cons_error {a : Act} (h : a.run V = .error e) : run (a :: as) V = (V, some e) := by
  rw [run, h]

theorem run_append (h : run as V = (V', none)) : run (as ++ bs) V = run bs V' := by
  induction as generalizing V with
  | nil =>
    cases h
    rfl
  | cons a as ih =>
    cases ha : a.run V with
    | ok V1 =>
      rw [run_cons_ok ha] at h
      rw [List.cons_append, run_cons_ok ha]
      exact ih h
    | error e =>
      rw [run_cons_error ha] at h
      cases h

theorem run_append_refused (h : run as V = (V', some e)) : run (as ++ bs) V = (V', some e) := by
  induction as generalizing V with
  | nil => cases h
  | cons a as ih =>
    cases ha : a.run V with
    | ok V1 =>
      rw [run_cons_ok ha] at h
      rw [List.cons_append, run_cons_ok ha]
      exact ih h
    | error e =>
      rw [run_cons_error ha] at h
      rw [List.cons_append, run_cons_error ha]
      exact h

theorem run_nils (V : Vars) (r n : Nat) : run (Act.nils r n) V = (V.clear r n, none) := by
  induction n generalizing r V with
  | zero =>
    have hsame : V.clear r 0 = V := Vars.ext (funext fun i => if_neg (by omega)) rfl rfl
    rw [hsame]
    rfl
  | succ n ih =>
    have hload : (Act.load r (.const .nil)).run V = .ok (V.setReg r .nil) := rfl
    rw [Act.nils, run_cons_ok hload, ih]
    refine congrArg (·, none) (Vars.ext (funext fun i => ?_) rfl rfl)
    by_cases hi : i = r
    · simp [clear, setReg, hi]
    · have hiff : (r ≤ i ∧ i < r + (n + 1)) ↔ (r + 1 ≤ i ∧ i < r + 1 + n) := by omega
      simp only [clear, setReg, if_neg hi, hiff]

theorem setReg_self (V : Vars) (r : Nat) : V.setReg r (V.regs r) = V := by
  refine Vars.ext (funext fun i => ?_) rfl rfl
  by_cases hi : i = r <;> simp [setReg, hi]

end Vars

/-! ## 2. Instructions -/

def Operand.Names (constants : Array Constant) (x : Nat) : Origin → Prop
  | .reg r => x = r ∧ r < 255
  | .const c => ∃ k, x = ofConstant k ∧ k ≤ maxConstant ∧ constants[k]? = some c
  | .upvalue _ => False

def TableBase.setter : TableBase → Op
  | register => .setTable
  | upvalue => .setTabUp

/-- These instructions, with these constants, do these acts. -/
inductive Encodes (constants : Array Constant) : List Instr → List Act → Prop where
  | move {a b : Nat} (ha : a < 255) (hb : b < 255) : Encodes constants [.ofABC .move a b 0] [.load a (.reg b)]
  | loadK {a k : Nat} {c : Constant} (ha : a < 255) (hk : k ≤ Instr.maxBx) (hc : constants[k]? = some c) :
    Encodes constants [.ofABx .loadK a k] [.load a (.const c)]
  | loadKx {a k : Nat} {c : Constant} (ha : a < 255) (hk : k ≤ Instr.maxAx) (hc : constants[k]? = some c) :
    Encodes constants [.ofABx .loadKx a 0, .ofAx .extraArg k] [.load a (.const c)]
  | loadBool {a : Nat} {b : Bool} (ha : a < 255) :
    Encodes constants [.ofABC .loadBool a b.toNat 0] [.load a (.const (.bool b))]
  | loadNil {a n : Nat} (hn : 0 < n) (ha : a + n ≤ 255) :
    Encodes constants [.ofABC .loadNil a (n - 1) 0] (Act.nils a n)
  | getUpvalue {a u : Nat} (ha : a < 255) (hu : u < 255) :
    Encodes constants [.ofABC .getUpval a u 0] [.load a (.upvalue u)]
  | setUpvalue {u r : Nat} (hr : r < 255) (hu : u < 255) :
    Encodes constants [.ofABC .setUpval r u 0] [.setUpvalue u r]
  | setField {base : TableBase} {t x y : Nat} {k v : Origin} (ht : t < 255) (hx : Operand.Names constants x k)
    (hy : Operand.Names constants y v) : Encodes constants [.ofABC base.setter t x y] [.setField base t k v]
  | setItems {t n block : Nat} (ht : t + n < 255) (hn : 0 < n) (hpos : 0 < block) (hle : block ≤ Instr.maxC) :
    Encodes constants [.ofABC .setList t n block] [.setItems t n block]
  | setItemsFar {t n block : Nat} (ht : t + n < 255) (hn : 0 < n) (hle : block ≤ Instr.maxAx) :
    Encodes constants [.ofABC .setList t n 0, .ofAx .extraArg block] [.setItems t n block]

variable {constants constants' : Array Constant}

theorem Operand.Names.mono {x : Nat} {s : Origin} (h : Operand.Names constants x s)
    (hk : ∀ (k : Nat) (c : Constant), constants[k]? = some c → constants'[k]? = some c) :
    Operand.Names constants' x s := by
  cases s with
  | reg r => exact h
  | upvalue u => exact h
  | const c =>
    obtain ⟨k, hx, hle, hc⟩ := h
    exact ⟨k, hx, hle, hk k c hc⟩

theorem Encodes.mono {is : List Instr} {as : List Act} (h : Encodes constants is as)
    (hk : ∀ (k : Nat) (c : Constant), constants[k]? = some c → constants'[k]? = some c) : Encodes constants' is as := by
  cases h with
  | move ha hb => exact .move ha hb
  | loadK ha hle hc => exact .loadK ha hle (hk _ _ hc)
  | loadKx ha hle hc => exact .loadKx ha hle (hk _ _ hc)
  | loadBool ha => exact .loadBool ha
  | loadNil hn ha => exact .loadNil hn ha
  | getUpvalue ha hu => exact .getUpvalue ha hu
  | setUpvalue hr hu => exact .setUpvalue hr hu
  | setField ht hx hy => exact .setField ht (hx.mono hk) (hy.mono hk)
  | setItems ht hn hpos hle => exact .setItems ht hn hpos hle
  | setItemsFar ht hn hle => exact .setItemsFar ht hn hle

theorem Encodes.length_pos {is : List Instr} {as : List Act} (h : Encodes constants is as) : 0 < is.length := by
  cases h <;> simp

/-! ## 3. Code at the end of a draft -/

instance (i : Instr) (r : Nat) : Decidable (i.Clears r) := inferInstanceAs (Decidable (_ ∧ _ ∧ _))

namespace Draft

instance (d : Draft) : Decidable d.Open := inferInstanceAs (Decidable (_ ∧ _))

def back (d : Draft) : Nat := if d.Open then d.pc - 1 else d.pc

def completed (d : Draft) (V : Vars) : Vars :=
  { V with regs := fun r => if d.Open ∧ (d.instr (d.pc - 1)).Clears r then .nil else V.regs r }

structure Appends (d : Draft) (is : List Instr) (d' : Draft) : Prop where
  size : d'.code.size = d.code.size + is.length
  new : ∀ k < is.length, d'.code[d.pc + k]? = is[k]?
  same : ∀ pc < d.pc, (∀ j ∈ d.here, pc ≠ j ∧ pc + 1 ≠ j) → d'.code[pc]? = d.code[pc]?
  here : d'.here = []
  target : d'.lastTarget = d.lastTarget

structure SameCode (d d' : Draft) : Prop where
  code : d'.code = d.code
  target : d'.lastTarget = d.lastTarget
  here : d'.here = d.here

/-- **Code for acts has been written**, and the code from `q` on is otherwise as it was, but for a LOADNIL that
    has been widened. A register may be loaded from itself without code. -/
inductive Codes (q : Nat) (d : Draft) : List Act → Draft → Prop where
  | start : Codes q d [] d
  | idle {as : List Act} {d' : Draft} (h : Codes q d as d') (r : Nat) : Codes q d (as ++ [.load r (.reg r)]) d'
  | quiet {as : List Act} {d₁ d' : Draft} (h : Codes q d as d₁) (hq : d₁.SameCode d')
    (hk : ∀ (k : Nat) (c : Constant), d₁.constants[k]? = some c → d'.constants[k]? = some c) : Codes q d as d'
  | add {as bs : List Act} {is : List Instr} {d₁ d' : Draft} (h : Codes q d as d₁) (hh : ∀ j ∈ d₁.here, j < q)
    (ha : d₁.Appends is d') (hk : d'.constants = d₁.constants) (he : Encodes d'.constants is bs) : Codes q d (as ++ bs) d'
  | widen {as : List Act} {start n : Nat} {d₁ d' : Draft} (h : Codes q d as d₁) (hw : d₁.Widens start n d') :
    Codes q d (as ++ Act.nils start n) d'

variable {q start n : Nat} {as bs : List Act} {is : List Instr} {d d' d'' : Draft}

theorem back_le (d : Draft) : d.back ≤ d.pc := by
  unfold back
  split
  · exact Nat.sub_le _ _
  · exact Nat.le_refl _

theorem SameCode.open_iff (h : d.SameCode d') : d'.Open ↔ d.Open := by
  unfold Open pc instr
  rw [h.code, h.target]

theorem SameCode.back (h : d.SameCode d') : d'.back = d.back := by
  simp only [Draft.back, h.open_iff, pc, h.code]

theorem SameCode.completed (h : d.SameCode d') (V : Vars) : d'.completed V = d.completed V := by
  have hlast : d'.instr (d'.pc - 1) = d.instr (d.pc - 1) := by simp only [pc, instr, h.code]
  refine Vars.ext (funext fun r => ?_) rfl rfl
  exact ite_congr (propext (and_congr h.open_iff (by rw [hlast]))) (fun _ => rfl) fun _ => rfl

theorem Widens.back (h : d.Widens start n d') : d'.back = d.back := by
  rw [Draft.back, Draft.back, if_pos h.stays_open, if_pos h.opened, h.pc_eq]

theorem Widens.completed (h : d.Widens start n d') (V : Vars) : d'.completed V = (d.completed V).clear start n := by
  have hopen := h.stays_open
  have hopen0 := h.opened
  refine Vars.ext (funext fun r => ?_) rfl rfl
  show (if _ then _ else _) = if _ then _ else if _ then _ else _
  rw [h.pc_eq]
  by_cases hr : start ≤ r ∧ r < start + n
  · rw [if_pos hr, if_pos ⟨hopen, (h.clears r).mpr (.inr hr)⟩]
  · have hiff : (d'.instr (d.pc - 1)).Clears r ↔ (d.instr (d.pc - 1)).Clears r :=
      (h.clears r).trans ⟨fun hc => hc.resolve_right hr, .inl⟩
    simp only [if_neg hr, hopen, hopen0, hiff, true_and]

theorem completed_of_not_open (h : ¬ d.Open) (V : Vars) : d.completed V = V := by
  exact Vars.ext (funext fun r => if_neg fun hc => h hc.1) rfl rfl

theorem Appends.pc (h : d.Appends is d') : d'.pc = d.pc + is.length := h.size

theorem Appends.last {i : Instr} (h : d.Appends (is ++ [i]) d') : d'.instr (d'.pc - 1) = i := by
  have hpc : d'.pc - 1 = d.pc + is.length := by
    rw [h.pc, List.length_append, List.length_singleton]
    omega
  refine instr_eq ?_
  rw [hpc, h.new is.length (by simp)]
  simp

theorem Appends.append {is' : List Instr} (h : d.Appends is d') (h' : d'.Appends is' d'') : d.Appends (is ++ is') d'' where
  size := by rw [h'.size, h.size, List.length_append, Nat.add_assoc]
  new k hk := by
    have hnone : ∀ j ∈ d'.here, False := by
      rw [h.here]
      exact fun _ hm => (List.not_mem_nil hm).elim
    rw [List.length_append] at hk
    by_cases hlt : k < is.length
    · rw [List.getElem?_append_left hlt, h'.same _ (by have := h.pc; omega) fun j hj => (hnone j hj).elim]
      exact h.new k hlt
    · have hnew := h'.new (k - is.length) (by omega)
      rw [List.getElem?_append_right (by omega), ← hnew]
      congr 1
      have := h.pc
      omega
  same pc hlt hn := by
    refine (h'.same pc (by have := h.pc; omega) fun j hj => ?_).trans (h.same pc hlt hn)
    rw [h.here] at hj
    exact (List.not_mem_nil hj).elim
  here := h'.here
  target := h'.target.trans h.target

theorem Appends.opens {constants : Array Constant} (h : d.Appends is d') (he : Encodes constants is bs) (ho : d'.Open) :
    ∃ a n, 0 < n ∧ a + n ≤ 255 ∧ is = [.ofABC .loadNil a (n - 1) 0] ∧ bs = Act.nils a n := by
  have hlast : ∀ i more, is = more ++ [i] → i.opcode = .loadNil := by
    intro i more his
    subst his
    rw [← h.last]
    exact ho.2
  cases he with
  | @loadNil a n hn ha => exact ⟨a, n, hn, ha, rfl, rfl⟩
  | loadKx | setItemsFar => exact absurd (hlast _ [_] rfl) (by simp)
  | @setField base => exact absurd (hlast _ [] rfl) (by cases base <;> simp [TableBase.setter])
  | _ => exact absurd (hlast _ [] rfl) (by simp)

theorem Appends.completed {a n : Nat} (h : d.Appends [.ofABC .loadNil a (n - 1) 0] d') (hn : 0 < n) (ha : a + n ≤ 255)
    (ho : d'.Open) (V : Vars) : d'.completed V = V.clear a n := by
  have hi : d'.instr (d'.pc - 1) = .ofABC .loadNil a (n - 1) 0 := (show d.Appends ([] ++ [_]) d' from h).last
  refine Vars.ext (funext fun r => ite_congr (propext ?_) (fun _ => rfl) fun _ => rfl) rfl rfl
  rw [hi]
  exact (and_iff_right ho).trans (Compile.clears_loadNil hn ha r)

theorem Codes.trans (h : d.Codes q as d') (h' : d'.Codes q bs d'') : d.Codes q (as ++ bs) d'' := by
  induction h' with
  | start =>
    rw [List.append_nil]
    exact h
  | idle _ r ih =>
    rw [← List.append_assoc]
    exact ih.idle r
  | quiet _ hq hk ih => exact ih.quiet hq hk
  | add _ hh ha hk he ih =>
    rw [← List.append_assoc]
    exact ih.add hh ha hk he
  | widen _ hw ih =>
    rw [← List.append_assoc]
    exact ih.widen hw

theorem Codes.closed {a : Act} (h : d.Codes q as d') (hlast : as.getLast? = some a) (ha : ∀ r s, a ≠ .load r s) :
    ¬ d'.Open := by
  have hload : ∀ (r n : Nat), a ∉ Act.nils r n := by
    intro r n hmem
    induction n generalizing r with
    | zero => exact List.not_mem_nil hmem
    | succ n ih =>
      rcases List.mem_cons.mp hmem with rfl | hmem
      · exact ha _ _ rfl
      · exact ih _ hmem
  have hnils : ∀ (r n : Nat), 0 < n → ∀ as : List Act, (as ++ Act.nils r n).getLast? ≠ some a := by
    intro r n hn as hsome
    obtain ⟨k, rfl⟩ : ∃ k, n = k + 1 := ⟨n - 1, by omega⟩
    rw [List.getLast?_append, Act.nils, List.getLast?_cons, Option.some_or] at hsome
    refine hload r (k + 1) (List.mem_of_getLast? ?_)
    rw [Act.nils, List.getLast?_cons]
    exact hsome
  induction h with
  | start => cases hlast
  | idle _ r _ =>
    rw [List.getLast?_concat] at hlast
    cases hlast
    exact absurd rfl (ha _ _)
  | quiet _ hq _ ih => exact fun ho => ih hlast (hq.open_iff.mp ho)
  | add _ _ happ hk he _ =>
    intro ho
    obtain ⟨r, n, hn, -, -, rfl⟩ := happ.opens he ho
    exact hnils r n hn _ hlast
  | @widen as r n d1 d' _ hw ih =>
    rcases Nat.eq_zero_or_pos n with rfl | hn
    · rw [Act.nils, List.append_nil] at hlast
      exact absurd hw.opened (ih hlast)
    · exact absurd hlast (hnils r n hn as)

end Draft

end LuaMachine
