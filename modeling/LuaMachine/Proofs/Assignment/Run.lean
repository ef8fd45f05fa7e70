/-
  THE MACHINE DOES WHAT THE CODE SAYS. A function that runs code for acts makes of its registers, its
  upvalues and the tables what the acts make of them, or raises the failure of the first act that is
  refused. Nothing else changes.

  * `Machine.Comes` -- what comes of acts, `Comes.encoded` -- **the instructions of acts do it**;
  * `Draft.Codes.ends` -- **code for acts does it**.
-/
import LuaMachine.Proofs.Assignment.Code
import LuaMachine.Proofs.Machine.Capture
import LuaMachine.Proofs.Machine.Loop
import LuaMachine.Proofs.Machine.Stack

namespace LuaMachine

/-! ## 1. What a function sees -/

namespace Machine

def upvalue (m : Machine) (f : Frame) (u : Nat) : Value := (f.cells[u]?.bind m.cellValue?).getD .nil

/-- The upvalues of a function are variables of the functions around it: no two of them are one variable, and
    none is a register of the function itself. -/
structure Apart (m : Machine) (f : Frame) : Prop where
  cells : ∀ u u' c : Nat, f.cells[u]? = some c → f.cells[u']? = some c → u = u'
  slots : ∀ u u' c c' slot : Nat, f.cells[u]? = some c → f.cells[u']? = some c' →
    m.cells[c]? = some (.live slot) → m.cells[c']? = some (.live slot) → u = u'
  below : ∀ u c slot : Nat, f.cells[u]? = some c → m.cells[c]? = some (.live slot) → slot < f.base

structure Sees (m : Machine) (f : Frame) (rest : List Frame) (pc : Nat) (V : Vars) : Prop where
  spot : m.At f rest ⟨pc, V.regs⟩
  upvalues : m.upvalue f = V.upvalues
  tables : m.tables = V.tables
  apart : m.Apart f
  cells : ∀ u < f.proto.room.upvalues, ∃ c, f.cells[u]? = some c ∧ c < m.cells.size

theorem Sees.vars {m : Machine} {f : Frame} {rest : List Frame} {pc pc' : Nat} {V V' : Vars} (h : m.Sees f rest pc V)
    (h' : m.Sees f rest pc' V') : V = V' :=
  Vars.ext (h.spot.regs.symm.trans h'.spot.regs) (h.upvalues.symm.trans h'.upvalues) (h.tables.symm.trans h'.tables)

end Machine

/-- The function has changed nothing but what it sees: its registers, its upvalues and the tables. -/
structure Frame.Keeps (f : Frame) (m m' : Machine) : Prop where
  same : m' = { m with
    executed := m'.executed, stack := m'.stack, frames := m'.frames, cells := m'.cells, tables := m'.tables }
  stack_size : m'.stack.size = m.stack.size
  cells_size : m'.cells.size = m.cells.size
  stack : ∀ i < f.base, (∀ u c : Nat, f.cells[u]? = some c → m.cells[c]? ≠ some (.live i)) → m'.stack[i]? = m.stack[i]?
  cells : ∀ c, (∀ u : Nat, f.cells[u]? ≠ some c) → m'.cells[c]? = m.cells[c]?
  live : ∀ c i : Nat, m'.cells[c]? = some (.live i) ↔ m.cells[c]? = some (.live i)

namespace Frame.Keeps

variable {f : Frame} {m m' m'' : Machine}

theorem refl (f : Frame) (m : Machine) : f.Keeps m m :=
  ⟨rfl, rfl, rfl, fun _ _ _ => rfl, fun _ _ => rfl, fun _ _ => Iff.rfl⟩

theorem trans (h : f.Keeps m m') (h' : f.Keeps m' m'') : f.Keeps m m'' where
  same := by rw [h'.same, h.same]
  stack_size := h'.stack_size.trans h.stack_size
  cells_size := h'.cells_size.trans h.cells_size
  stack i hi hn := (h'.stack i hi fun u c hc hl => hn u c hc ((h.live c i).mp hl)).trans (h.stack i hi hn)
  cells c hc := (h'.cells c hc).trans (h.cells c hc)
  live c i := (h'.live c i).trans (h.live c i)

theorem limits (h : f.Keeps m m') : m'.limits = m.limits := by
  rw [h.same]

theorem apart (h : f.Keeps m m') (ha : m.Apart f) : m'.Apart f :=
  ⟨ha.cells, fun u u' c c' slot hu hu' hl hl' => ha.slots u u' c c' slot hu hu' ((h.live c slot).mp hl) ((h.live c' slot).mp hl'),
    fun u c slot hu hl => ha.below u c slot hu ((h.live c slot).mp hl)⟩

end Frame.Keeps

def RuntimeFault.Tells : RuntimeFault → Refusal → Prop
  | index t _, .notTable t' => t = t'
  | table f, .key f' => f = f'
  | _, _ => False

namespace Exec

open Machine

variable {α : Type} {m : Machine} {f : Frame} {rest : List Frame} {pc pc' : Nat} {V V' : Vars} {r : Except Refusal (Vars × Nat)}

/-! ## 2. Parts of instructions -/

/-- The rest of an instruction brings the function to a place where it sees this, or fails where it sees what it
    has seen. -/
def Makes (f : Frame) (rest : List Frame) (x : Exec Unit) (m : Machine) : Except Refusal (Vars × Nat) → Prop
  | .ok (V, pc) => ∃ m', x m = .ok () m' ∧ m'.Sees f rest pc V ∧ f.Keeps m m'
  | .error e => ∃ m' place fault, x m = .error (.fault (.runtime place fault)) m' ∧ fault.Tells e ∧
      (∀ (pc : Nat) (V : Vars), m.Sees f rest pc V → ∃ pc', m'.Sees f rest pc' V) ∧ f.Keeps m m'

theorem Makes.refused {x : Exec Unit} {e : Refusal}
    (h : ∃ place fault, x m = .error (.fault (.runtime place fault)) m ∧ fault.Tells e) : Makes f rest x m (.error e) := by
  obtain ⟨place, fault, hx, ht⟩ := h
  exact ⟨m, place, fault, hx, ht, fun pc _ h => ⟨pc, h⟩, .refl f m⟩

theorem Makes.next {x : Exec α} {y : α} {k : α → Exec Unit} (hx : x m = .ok y m) (h : Makes f rest (k y) m r) :
    Makes f rest (x >>= k) m r := by
  unfold Makes at *
  rw [bind_of_ok hx]
  exact h

theorem Makes.after {x y : Exec Unit} {m1 : Machine} (h : Makes f rest y m1 r) (hx : x m = y m1) (hs : m.Sees f rest pc V)
    (hs1 : m1.Sees f rest pc' V) (hk : f.Keeps m m1) : Makes f rest x m r := by
  cases r with
  | ok r =>
    obtain ⟨m', hok, h', hk'⟩ := h
    exact ⟨m', hx.trans hok, h', hk.trans hk'⟩
  | error e =>
    obtain ⟨m', place, fault, hfail, ht, hsees, hk'⟩ := h
    refine ⟨m', place, fault, hx.trans hfail, ht, fun pc0 V0 h0 => ?_, hk.trans hk'⟩
    obtain rfl : V0 = V := h0.vars hs
    exact hsees _ _ hs1

theorem upvalue_set {i : Nat} (hi : i < m.stack.size) (v : Value)
    (hn : ∀ u c : Nat, f.cells[u]? = some c → m.cells[c]? ≠ some (.live i)) :
    { m with stack := m.stack.set i v }.upvalue f = m.upvalue f := by
  have hcell : ∀ u c : Nat, f.cells[u]? = some c →
      { m with stack := m.stack.set i v }.cellValue? c = m.cellValue? c := by
    intro u c hu
    unfold Machine.cellValue?
    cases hc : m.cells[c]? with
    | none => rfl
    | some cell =>
      cases cell with
      | closed w => rfl
      | live slot => exact Array.getElem?_set_ne hi fun h => hn u c hu (h ▸ hc)
  funext u
  unfold Machine.upvalue
  cases hu : f.cells[u]? with
  | none => rfl
  | some c => exact congrArg (Option.getD · .nil) (hcell u c hu)

theorem makes_write (h : m.Sees f rest pc V) {a : Nat} (ha : a < f.proto.room.registers) (v : Value) :
    Makes f rest (Exec.write (f.base + a) v) m (.ok (V.setReg a v, pc)) := by
  have hlt := h.spot.lt ha
  have hout : ∀ u c : Nat, f.cells[u]? = some c → m.cells[c]? ≠ some (.live (f.base + a)) := fun u c hu hl => by
    have := h.apart.below u c _ hu hl
    omega
  obtain ⟨m', hok, hat, hsame⟩ := write_at h.spot ha v
  have hm' : m' = { m with stack := m.stack.set (f.base + a) v hlt } := by
    have hwrite : Exec.write (f.base + a) v m = .ok () { m with stack := m.stack.set (f.base + a) v hlt } := dif_pos hlt
    rw [hwrite] at hok
    cases hok
    rfl
  subst hm'
  refine ⟨_, hok, ⟨hat, (upvalue_set hlt v hout).trans h.upvalues, h.tables, ?_, h.cells⟩, ?_⟩
  · exact ⟨h.apart.cells, h.apart.slots, h.apart.below⟩
  · refine ⟨rfl, Array.size_set hlt, rfl, fun i hi _ => ?_, fun _ _ => rfl, fun _ _ => Iff.rfl⟩
    exact Array.getElem?_set_ne hlt (by omega)

theorem makes_clear (h : m.Sees f rest pc V) {a n : Nat} (ha : a + n ≤ f.proto.room.registers) :
    Makes f rest (Exec.clear (f.base + a) n) m (.ok (V.clear a n, pc)) := by
  induction n generalizing m V with
  | zero =>
    have hsame : V.clear a 0 = V := Vars.ext (funext fun i => if_neg (by omega)) rfl rfl
    rw [hsame]
    exact ⟨m, rfl, h, .refl f m⟩
  | succ n ih =>
    obtain ⟨m1, hok, h1, hk1⟩ := makes_write h (a := a + n) (by omega) .nil
    obtain ⟨m', hok', h', hk'⟩ := ih h1 (by omega)
    have hclear : (V.setReg (a + n) .nil).clear a n = V.clear a (n + 1) := by
      refine Vars.ext (funext fun i => ?_) rfl rfl
      by_cases hi : i = a + n
      · simp [Vars.clear, Vars.setReg, hi]
      · have hiff : (a ≤ i ∧ i < a + (n + 1)) ↔ (a ≤ i ∧ i < a + n) := by omega
        simp only [Vars.clear, Vars.setReg, if_neg hi, hiff]
    rw [hclear] at h'
    refine ⟨m', ?_, h', hk1.trans hk'⟩
    rw [← Nat.add_assoc] at hok
    exact (bind_of_ok hok).trans hok'

theorem makes_modifyFrame (h : m.Sees f rest pc V) {g : Frame → Frame} (hg : g { f with pc := pc } = { f with pc := pc' }) :
    Makes f rest (Exec.modifyFrame g) m (.ok (V, pc')) := by
  refine ⟨_, modifyFrame_eq h.spot.frames, ⟨⟨by rw [hg], h.spot.top, h.spot.regs⟩, h.upvalues, h.tables, ?_, h.cells⟩, ?_⟩
  · exact ⟨h.apart.cells, h.apart.slots, h.apart.below⟩
  · exact ⟨rfl, rfl, rfl, fun _ _ _ => rfl, fun _ _ => rfl, fun _ _ => Iff.rfl⟩

theorem upvalue_sees (h : m.Sees f rest pc V) {u : Nat} (hu : u < f.proto.room.upvalues) (pc' : Nat) :
    ∃ c, f.cells[u]? = some c ∧ Exec.upvalue { f with pc := pc' } u m = .ok c m ∧ m.cellValue? c = some (V.upvalues u) ∧
      c < m.cells.size ∧ ∀ slot, m.cells[c]? = some (.live slot) → slot < m.stack.size := by
  obtain ⟨c, hc, hlt⟩ := h.cells u hu
  have hlive : ∀ slot, m.cells[c]? = some (.live slot) → slot < m.stack.size := fun slot hs =>
    Nat.lt_of_lt_of_le (h.apart.below u c slot hc hs) (Nat.le_trans (Nat.le_add_right _ _) h.spot.top)
  refine ⟨c, hc, ?_, ?_, hlt, hlive⟩
  · unfold Exec.upvalue
    simp only [hc]
    rfl
  · have hvalue : (m.cellValue? c).getD .nil = V.upvalues u := by
      rw [← h.upvalues, Machine.upvalue, hc]
      rfl
    have hcell := Array.getElem?_eq_getElem hlt
    generalize m.cells[c] = cell at hcell
    cases cell with
    | closed w =>
      rw [Machine.cellValue?_closed hcell] at hvalue ⊢
      exact congrArg some hvalue
    | live slot =>
      rw [Machine.cellValue?_live hcell, Array.getElem?_eq_getElem (hlive slot hcell)] at hvalue ⊢
      exact congrArg some hvalue

/-- A cell has got a value. -/
structure WritesCell (m m' : Machine) (c : Nat) (v : Value) : Prop where
  same : m' = { m with stack := m'.stack, cells := m'.cells }
  stack_size : m'.stack.size = m.stack.size
  cells_size : m'.cells.size = m.cells.size
  stack : ∀ i, m.cells[c]? ≠ some (.live i) → m'.stack[i]? = m.stack[i]?
  cells : ∀ c', c' ≠ c → m'.cells[c']? = m.cells[c']?
  live : ∀ c' i : Nat, m'.cells[c']? = some (.live i) ↔ m.cells[c']? = some (.live i)
  value : m'.cellValue? c = some v

theorem writeCell_writes {c : Nat} (hc : c < m.cells.size) (hlive : ∀ slot, m.cells[c]? = some (.live slot) → slot < m.stack.size)
    (v : Value) : ∃ m', Exec.writeCell c v m = .ok () m' ∧ WritesCell m m' c v := by
  have hcell := Array.getElem?_eq_getElem hc
  generalize m.cells[c] = cell at hcell
  cases cell with
  | closed w =>
    have hok : Exec.writeCell c v m = .ok () { m with cells := m.cells.modify c fun _ => .closed v } := by
      show EStateM.bind (Exec.need m.cells[c]?) _ m = _
      rw [hcell]
      rfl
    have hnew : (m.cells.modify c fun _ => Cell.closed v)[c]? = some (.closed v) := by
      rw [Array.getElem?_modify, if_pos rfl, hcell]
      rfl
    have hother : ∀ c', c' ≠ c → (m.cells.modify c fun _ => Cell.closed v)[c']? = m.cells[c']? := fun c' hne => by
      rw [Array.getElem?_modify, if_neg (Ne.symm hne)]
    refine ⟨_, hok, rfl, rfl, Array.size_modify, fun _ _ => rfl, hother, fun c' i => ?_, Machine.cellValue?_closed hnew⟩
    by_cases hcc : c' = c
    · rw [hcc, hnew, hcell]
      simp
    · rw [hother c' hcc]
  | live slot =>
    have hslot := hlive slot hcell
    have hok : Exec.writeCell c v m = .ok () { m with stack := m.stack.set slot v } := by
      show EStateM.bind (Exec.need m.cells[c]?) _ m = _
      rw [hcell]
      exact dif_pos hslot
    refine ⟨_, hok, rfl, Array.size_set hslot, rfl, fun i hi => ?_, fun _ _ => rfl, fun _ _ => Iff.rfl, ?_⟩
    · exact Array.getElem?_set_ne hslot fun h => hi (h ▸ hcell)
    · refine (Machine.cellValue?_live (m := { m with stack := m.stack.set slot v }) hcell).trans ?_
      exact Array.getElem?_set_self hslot

theorem makes_writeUpvalue (h : m.Sees f rest pc V) {u : Nat} (hu : u < f.proto.room.upvalues) (pc' : Nat) (v : Value) :
    Makes f rest (do Exec.writeCell (← Exec.upvalue { f with pc := pc' } u) v) m (.ok (V.setUpvalue u v, pc)) := by
  obtain ⟨c, hc, hok, -, hlt, hlive⟩ := upvalue_sees h hu pc'
  obtain ⟨m', hok', hw⟩ := writeCell_writes hlt hlive v
  have hkeeps : f.Keeps m m' := by
    refine ⟨by rw [hw.same], hw.stack_size, hw.cells_size, fun i _ hn => hw.stack i (hn u c hc), fun c' hn => ?_, hw.live⟩
    exact hw.cells c' fun hcc => hn u (hcc ▸ hc)
  refine Makes.next hok ⟨m', hok', ⟨⟨?_, ?_, ?_⟩, ?_, ?_, hkeeps.apart h.apart, fun u' hu' => ?_⟩, hkeeps⟩
  · rw [hw.same]
    exact h.spot.frames
  · rw [hw.stack_size]
    exact h.spot.top
  · refine Eq.trans (funext fun r => ?_) h.spot.regs
    have hsame : m'.stack[f.base + r]? = m.stack[f.base + r]? := hw.stack _ fun hl => by
      have := h.apart.below u c _ hc hl
      omega
    rw [Machine.registers, hsame]
    rfl
  · funext u'
    show m'.upvalue f u' = if u' = u then v else V.upvalues u'
    rw [← h.upvalues]
    unfold Machine.upvalue
    by_cases huu : u' = u
    · rw [if_pos huu, huu, hc, Option.bind_some, hw.value]
      rfl
    · rw [if_neg huu]
      cases hc' : f.cells[u']? with
      | none => rfl
      | some c' =>
        have hne : c' ≠ c := fun hcc => huu (h.apart.cells u' u c (hcc ▸ hc') hc)
        have hsame : m'.cellValue? c' = m.cellValue? c' := by
          unfold Machine.cellValue?
          rw [hw.cells c' hne]
          cases hcell : m.cells[c']? with
          | none => rfl
          | some cell =>
            cases cell with
            | closed w => rfl
            | live slot => exact hw.stack slot fun hl => huu (h.apart.slots u' u c' c slot hc' hc hcell hl)
        rw [Option.bind_some, Option.bind_some, hsame]
  · rw [hw.same]
    exact h.tables
  · obtain ⟨c', hc', hlt'⟩ := h.cells u' hu'
    exact ⟨c', hc', by rw [hw.cells_size]; exact hlt'⟩

theorem operand_sees (h : m.Sees f rest pc V) {x : Nat} {s : Origin} (hx : Operand.Names f.proto.constants x s)
    (hroom : f.proto.room.Has x) (pc' : Nat) : Exec.operand { f with pc := pc' } x m = .ok (s.value V) m := by
  unfold Exec.operand
  cases s with
  | upvalue u => exact hx.elim
  | reg r =>
    obtain ⟨rfl, hlt⟩ := hx
    have hreg : Operand.isConstant x = false := Operand.isConstant_of_lt (by omega)
    unfold Room.Has at hroom
    rw [if_neg (by simp [hreg])] at hroom ⊢
    exact read_at h.spot hroom
  | const c =>
    obtain ⟨k, rfl, hle, hc⟩ := hx
    obtain ⟨hconst, hindex, -⟩ := Operand.isConstant_ofConstant hle
    rw [if_pos hconst, hindex]
    exact constant_of hc

theorem modify_getD (ts : Array Table) (id : Nat) (g : Table → Table) :
    ts.modify id g = ts.modify id fun _ => g (ts[id]?.getD .empty) := by
  refine Array.ext (by simp) fun i hi _ => ?_
  rw [Array.getElem_modify, Array.getElem_modify]
  split
  · next h =>
    subst h
    rw [Array.getElem?_eq_getElem (by simpa using hi), Option.getD_some]
  · rfl

theorem makes_modifyTable (h : m.Sees f rest pc V) (id : Nat) (g : Table → Table) :
    Makes f rest (modify fun m : Machine => { m with tables := m.tables.modify id g }) m
      (.ok ({ V with tables := V.tables.modify id fun _ => g (V.tables[id]?.getD .empty) }, pc)) := by
  have htables : m.tables = V.tables := h.tables
  refine ⟨{ m with tables := m.tables.modify id g }, rfl, ⟨⟨h.spot.frames, h.spot.top, h.spot.regs⟩, h.upvalues, ?_, ?_, h.cells⟩, ?_⟩
  · show m.tables.modify id g = _
    rw [htables]
    exact modify_getD ..
  · exact ⟨h.apart.cells, h.apart.slots, h.apart.below⟩
  · exact ⟨rfl, rfl, rfl, fun _ _ _ => rfl, fun _ _ => rfl, fun _ _ => Iff.rfl⟩

theorem makes_putKey (h : m.Sees f rest pc V) (t k v : Value) (name : Unit → Option Naming) :
    Makes f rest (Exec.putKey t k v name) m ((V.setField t k v).map fun V' => (V', pc)) := by
  cases t with
  | table id =>
    show Makes f rest (Exec.setKey id k v) m _
    unfold Exec.setKey Vars.setField Table.set
    cases hk : Table.normalize k with
    | error e => exact Makes.refused ⟨_, _, rfl, rfl⟩
    | ok key =>
      cases key with
      | int i => exact makes_modifyTable h id fun t => t.setInt i v
      | _ => exact makes_modifyTable h id fun t => t.setEntry _ v
  | _ => exact Makes.refused ⟨_, _, rfl, rfl⟩

theorem setKeys_eq (id : Nat) (first : Int) (vs : List Value) :
    Exec.setKeys id first vs = modify fun m : Machine => { m with tables := m.tables.modify id (Table.setInts first vs) } := by
  induction vs generalizing first with
  | nil =>
    have hsame : ∀ ts : Array Table, ts.modify id (Table.setInts first []) = ts := fun ts =>
      Array.ext (by simp) fun i _ _ => by
        rw [Array.getElem_modify]
        exact ite_id _
    funext m
    show EStateM.Result.ok () m = .ok () { m with tables := m.tables.modify id (Table.setInts first []) }
    rw [hsame]
  | cons v vs ih =>
    have htwice : ∀ (ts : Array Table) (g g' : Table → Table), (ts.modify id g).modify id g' = ts.modify id (g' ∘ g) :=
      fun ts g g' => Array.ext (by simp) fun i _ _ => by
        simp only [Array.getElem_modify]
        split <;> rfl
    funext m
    unfold Exec.setKeys
    rw [ih]
    show EStateM.Result.ok () { m with tables := (m.tables.modify id _).modify id _ } = _
    rw [htwice]
    rfl

theorem readMany_sees (h : m.Sees f rest pc V) {a n : Nat} (ha : a + n ≤ f.proto.room.registers) {m' : Machine}
    (hm : m'.stack = m.stack) : Exec.readMany (f.base + a) n m' = .ok (V.span a n) m' := by
  have htop : f.base + f.proto.room.registers ≤ m.stack.size := h.spot.top
  have hread : Exec.readMany (f.base + a) (V.span a n).length m' = .ok (V.span a n) m' :=
    readMany_ok _ (by rw [Vars.length_span, hm]; omega) fun k hk => by
      rw [Vars.length_span] at hk
      rw [hm, Nat.add_assoc, h.spot.value (by omega), Vars.span, List.getElem?_map, List.getElem?_range hk]
      rfl
  rwa [Vars.length_span] at hread

def storeBlock (slot n block : Nat) : Exec Unit := do
  match ← Exec.read slot with
  | .table id =>
    let vs ← Exec.readMany (slot + 1) n
    Exec.setKeys id (((block : Int) - 1) * itemsPerFlush) vs
  | v => Exec.fail (.index v.type none)

def storeCount (m : Machine) (f : Frame) (i : Instr) : Nat :=
  if i.b.val = 0 then m.top - (f.base + i.a.val + 1) else i.b.val

theorem storeItems_near {i : Instr} (hc : i.c.val ≠ 0) :
    Exec.storeItems f i m = storeBlock (f.base + i.a.val) (storeCount m f i) i.c.val m := by
  unfold Exec.storeItems storeCount
  by_cases hb : i.b.val = 0
  · simp only [hb, hc, if_true, if_false]
    rfl
  · simp only [hb, hc, if_false]
    rfl

theorem storeItems_far {i : Instr} {block : Nat} {m1 : Machine} (hc : i.c.val = 0)
    (hx : Exec.extra f .storeWithoutIndex m = .ok block m1) :
    Exec.storeItems f i m = storeBlock (f.base + i.a.val) (storeCount m f i) block m1 := by
  unfold Exec.storeItems storeCount
  by_cases hb : i.b.val = 0
  · simp only [hb, hc, if_true]
    exact (bind_of_ok (show (get : Exec Machine) m = .ok m m from rfl)).trans (bind_of_ok hx)
  · simp only [hb, hc, if_true, if_false]
    exact bind_of_ok hx

theorem makes_storeBlock (h : m.Sees f rest pc V) (block : Nat) {a n : Nat} {vs : List Value} (ha : a < f.proto.room.registers)
    (hread : Exec.readMany (f.base + a + 1) n m = .ok vs m) :
    Makes f rest (storeBlock (f.base + a) n block) m
      ((V.setInts (V.regs a) (((block : Int) - 1) * itemsPerFlush) vs).map fun V' => (V', pc)) := by
  refine Makes.next (read_at h.spot ha) ?_
  dsimp only
  cases V.regs a with
  | table id =>
    refine Makes.next hread ?_
    rw [setKeys_eq]
    exact makes_modifyTable h id (Table.setInts _ vs)
  | _ => exact Makes.refused ⟨_, _, rfl, rfl⟩

/-! ## 3. Instructions -/

section

variable {i : Instr} (h : m.Sees f rest (pc + 1) V) (hf : i.Fits f.proto.room)

include h hf

theorem makes_move (ho : i.opcode = .move) :
    Makes f rest (Exec.plain { f with pc := pc + 1 } i i.opcode) m (.ok (V.setReg i.a.val (V.regs i.b.val), pc + 1)) := by
  simp only [Instr.Fits, ho] at hf
  rw [ho]
  exact Makes.next (read_at h.spot hf.2) (makes_write h hf.1 _)

theorem makes_loadK {c : Constant} (ho : i.opcode = .loadK) (hc : f.proto.constants[i.bx]? = some c) :
    Makes f rest (Exec.plain { f with pc := pc + 1 } i i.opcode) m (.ok (V.setReg i.a.val (.ofConstant c), pc + 1)) := by
  simp only [Instr.Fits, ho] at hf
  rw [ho]
  exact Makes.next (constant_of hc) (makes_write h hf.1 _)

theorem makes_loadKx {x : Instr} {c : Constant} (ho : i.opcode = .loadKx) (hx : f.proto.code[pc + 1]? = some x)
    (hc : f.proto.constants[x.ax]? = some c) :
    Makes f rest (Exec.plain { f with pc := pc + 1 } i i.opcode) m (.ok (V.setReg i.a.val (.ofConstant c), pc + 2)) := by
  simp only [Instr.Fits, ho] at hf
  rw [ho]
  have hskip : Makes f rest Exec.skip m (.ok (V, pc + 2)) := makes_modifyFrame h rfl
  obtain ⟨m1, hok, h1, hk1⟩ := hskip
  obtain ⟨m', hok', h', hk'⟩ := makes_write h1 hf (.ofConstant c)
  have hextra : Exec.extra { f with pc := pc + 1 } .loadWithoutIndex m = .ok x.ax m1 := by
    unfold Exec.extra
    rw [bind_of_ok hok]
    dsimp only
    rw [hx]
    rfl
  have hconst : Exec.constant { f with pc := pc + 1 } x.ax m1 = .ok (.ofConstant c) m1 := constant_of hc
  exact ⟨m', (bind_of_ok hextra).trans ((bind_of_ok hconst).trans hok'), h', hk1.trans hk'⟩

theorem makes_loadBool (ho : i.opcode = .loadBool) (hc : i.c.val = 0) :
    Makes f rest (Exec.plain { f with pc := pc + 1 } i i.opcode) m (.ok (V.setReg i.a.val (.bool (i.b.val ≠ 0)), pc + 1)) := by
  simp only [Instr.Fits, ho] at hf
  rw [ho]
  obtain ⟨m', hok, h', hk⟩ := makes_write h hf (.bool (i.b.val ≠ 0))
  refine ⟨m', (bind_of_ok hok).trans ?_, h', hk⟩
  rw [if_neg (not_not_intro hc)]
  rfl

theorem makes_loadNil (ho : i.opcode = .loadNil) :
    Makes f rest (Exec.plain { f with pc := pc + 1 } i i.opcode) m (.ok (V.clear i.a.val (i.b.val + 1), pc + 1)) := by
  simp only [Instr.Fits, ho] at hf
  rw [ho]
  exact makes_clear h (by omega)

theorem makes_getUpval (ho : i.opcode = .getUpval) :
    Makes f rest (Exec.plain { f with pc := pc + 1 } i i.opcode) m (.ok (V.setReg i.a.val (V.upvalues i.b.val), pc + 1)) := by
  simp only [Instr.Fits, ho] at hf
  rw [ho]
  obtain ⟨c, -, hok, hvalue, -⟩ := upvalue_sees h hf.2 (pc + 1)
  refine Makes.next hok (Makes.next ?_ (makes_write h hf.1 _))
  rw [Machine.readCell_eq, hvalue]
  rfl

theorem makes_setUpval (ho : i.opcode = .setUpval) :
    Makes f rest (Exec.plain { f with pc := pc + 1 } i i.opcode) m (.ok (V.setUpvalue i.b.val (V.regs i.a.val), pc + 1)) := by
  simp only [Instr.Fits, ho] at hf
  rw [ho]
  obtain ⟨c, -, hok, -⟩ := upvalue_sees h hf.2 (pc + 1)
  obtain ⟨m', hok', h', hk⟩ := makes_writeUpvalue h hf.2 (pc + 1) (V.regs i.a.val)
  rw [bind_of_ok hok] at hok'
  exact Makes.next hok (Makes.next (read_at h.spot hf.1) ⟨m', hok', h', hk⟩)

theorem makes_setField {base : TableBase} {k v : Origin} (ho : i.opcode = base.setter)
    (hk : Operand.Names f.proto.constants i.b.val k) (hv : Operand.Names f.proto.constants i.c.val v) :
    Makes f rest (Exec.plain { f with pc := pc + 1 } i i.opcode) m
      ((V.setField (base.value V i.a.val) (k.value V) (v.value V)).map fun V' => (V', pc + 1)) := by
  rw [ho]
  cases base with
  | register =>
    simp only [Instr.Fits, ho, TableBase.setter] at hf
    refine Makes.next (read_at h.spot hf.1) ?_
    refine Makes.next (operand_sees h hk hf.2.1 _) (Makes.next (operand_sees h hv hf.2.2 _) ?_)
    exact makes_putKey h _ _ _ _
  | upvalue =>
    simp only [Instr.Fits, ho, TableBase.setter] at hf
    obtain ⟨c, -, hok, hvalue, -⟩ := upvalue_sees h hf.1 (pc + 1)
    have hread : Exec.readCell c m = .ok (V.upvalues i.a.val) m := by
      rw [Machine.readCell_eq, hvalue]
      rfl
    refine Makes.next hok (Makes.next hread ?_)
    refine Makes.next (operand_sees h hk hf.2.1 _) (Makes.next (operand_sees h hv hf.2.2 _) ?_)
    exact makes_putKey h _ _ _ _

theorem makes_setList {vs : List Value} (ho : i.opcode = .setList) (hc : i.c.val ≠ 0)
    (hread : Exec.readMany (f.base + i.a.val + 1) (storeCount m f i) m = .ok vs m) :
    Makes f rest (Exec.plain { f with pc := pc + 1 } i i.opcode) m
      ((V.setInts (V.regs i.a.val) (((i.c.val : Int) - 1) * itemsPerFlush) vs).map fun V' => (V', pc + 1)) := by
  simp only [Instr.Fits, ho] at hf
  have hmakes := makes_storeBlock h i.c.val (Nat.lt_of_le_of_lt (Nat.le_add_right _ _) hf) hread
  have hplain : Exec.plain { f with pc := pc + 1 } i i.opcode m =
      storeBlock (f.base + i.a.val) (storeCount m f i) i.c.val m := by
    rw [ho]
    exact storeItems_near hc
  unfold Makes at hmakes ⊢
  rwa [hplain]

theorem makes_setListFar {vs : List Value} {x : Instr} (ho : i.opcode = .setList) (hc : i.c.val = 0)
    (hx : f.proto.code[pc + 1]? = some x)
    (hread : ∀ m' : Machine, m'.stack = m.stack → Exec.readMany (f.base + i.a.val + 1) (storeCount m f i) m' = .ok vs m') :
    Makes f rest (Exec.plain { f with pc := pc + 1 } i i.opcode) m
      ((V.setInts (V.regs i.a.val) (((x.ax : Int) - 1) * itemsPerFlush) vs).map fun V' => (V', pc + 2)) := by
  simp only [Instr.Fits, ho] at hf
  have hskip : Makes f rest Exec.skip m (.ok (V, pc + 2)) := makes_modifyFrame h rfl
  obtain ⟨m1, hok, h1, hk1⟩ := hskip
  have hstack : m1.stack = m.stack := by
    rw [Exec.skip, modifyFrame_eq h.spot.frames] at hok
    cases hok
    rfl
  have hextra : Exec.extra { f with pc := pc + 1 } .storeWithoutIndex m = .ok x.ax m1 := by
    unfold Exec.extra
    rw [bind_of_ok hok]
    dsimp only
    rw [hx]
    rfl
  have hmakes := makes_storeBlock h1 x.ax (Nat.lt_of_le_of_lt (Nat.le_add_right _ _) hf) (hread m1 hstack)
  have hplain : Exec.plain { f with pc := pc + 1 } i i.opcode m =
      storeBlock (f.base + i.a.val) (storeCount m f i) x.ax m1 := by
    rw [ho]
    exact storeItems_far hc hextra
  exact hmakes.after hplain h h1 hk1

theorem makes_setItems (ho : i.opcode = .setList) (hb : i.b.val ≠ 0) (hc : i.c.val ≠ 0) :
    Makes f rest (Exec.plain { f with pc := pc + 1 } i i.opcode) m
      (((Act.setItems i.a.val i.b.val i.c.val).run V).map fun V' => (V', pc + 1)) := by
  refine makes_setList h hf ho hc ?_
  simp only [Instr.Fits, ho] at hf
  rw [storeCount, if_neg hb, Nat.add_assoc]
  exact readMany_sees h (by omega) rfl

theorem makes_setItemsFar {x : Instr} (ho : i.opcode = .setList) (hb : i.b.val ≠ 0) (hc : i.c.val = 0)
    (hx : f.proto.code[pc + 1]? = some x) :
    Makes f rest (Exec.plain { f with pc := pc + 1 } i i.opcode) m
      (((Act.setItems i.a.val i.b.val x.ax).run V).map fun V' => (V', pc + 2)) := by
  refine makes_setListFar h hf ho hc hx fun m' hm => ?_
  simp only [Instr.Fits, ho] at hf
  rw [storeCount, if_neg hb, Nat.add_assoc]
  exact readMany_sees h (by omega) hm

end

end Exec

/-! ## 4. Runs -/

namespace Machine

open Exec

variable {m m' : Machine} {f : Frame} {rest : List Frame} {pc pc' : Nat} {V V' : Vars} {e : Refusal}
  {as : List Act} {r : Vars × Option Refusal}

def Comes (f : Frame) (rest : List Frame) (m : Machine) (pc : Nat) : Vars × Option Refusal → Prop
  | (V, none) => ∃ m', Reaches m .run m' .run ∧ m'.Sees f rest pc V ∧ f.Keeps m m'
  | (V, some e) => ∃ m' pc' place fault, Reaches m .run m' (.raise (.runtime place fault)) ∧ fault.Tells e ∧
      m'.Sees f rest pc' V ∧ f.Keeps m m'

theorem Reaches.trans {m'' : Machine} {mode mode' mode'' : Mode} (h : Reaches m mode m' mode')
    (h' : Reaches m' mode' m'' mode'') : Reaches m mode m'' mode'' := by
  induction h' with
  | start => exact h
  | step _ hs ih => exact ih.step hs

theorem Comes.start (h : m.Sees f rest pc V) : m.Comes f rest pc (V, none) := ⟨m, .start, h, .refl f m⟩

theorem Comes.after {m1 : Machine} (hr : Reaches m .run m1 .run) (hk : f.Keeps m m1) (h : m1.Comes f rest pc r) :
    m.Comes f rest pc r := by
  obtain ⟨V, o⟩ := r
  cases o with
  | none =>
    obtain ⟨m', hr', hs, hk'⟩ := h
    exact ⟨m', hr.trans hr', hs, hk.trans hk'⟩
  | some e =>
    obtain ⟨m', pc', place, fault, hr', ht, hs, hk'⟩ := h
    exact ⟨m', pc', place, fault, hr.trans hr', ht, hs, hk.trans hk'⟩

theorem execute_of_plain {i : Instr} (ho : i.opcode ∉ [Op.call, .tailCall, .ret, .tforCall]) (g : Frame) :
    Exec.execute g i = (do Exec.plain g i i.opcode; return .run) := by
  unfold Exec.execute
  cases hop : i.opcode <;> first | rfl | exact absurd hop (by rintro h; simp [h] at ho)

theorem Sees.fetched {i : Instr} (h : m.Sees f rest pc V) (hl : m.limits.Endless) (hi : f.proto.code[pc]? = some i) :
    ∃ m1, Exec.fetch m = .ok ({ f with pc := pc + 1 }, i) m1 ∧ m1.Sees f rest (pc + 1) V ∧ f.Keeps m m1 ∧
      m1.stack = m.stack ∧ m1.top = m.top := by
  refine ⟨_, fetch_ok hl.budget hl.expired h.spot.frames hi, ⟨⟨rfl, h.spot.top, h.spot.regs⟩, h.upvalues, h.tables, ?_,
    h.cells⟩, ?_, rfl, rfl⟩
  · exact ⟨h.apart.cells, h.apart.slots, h.apart.below⟩
  · exact ⟨rfl, rfl, rfl, fun _ _ _ => rfl, fun _ _ => rfl, fun _ _ => Iff.rfl⟩

section

variable {i : Instr} (h : m.Sees f rest pc V) (hl : m.limits.Endless) (hi : f.proto.code[pc]? = some i)
  (ho : i.opcode ∉ [Op.call, .tailCall, .ret, .tforCall])

include h hl hi ho

theorem Comes.plainStack (hx : ∀ m1 : Machine, m1.Sees f rest (pc + 1) V → m1.stack = m.stack → m1.top = m.top →
      Makes f rest (Exec.plain { f with pc := pc + 1 } i i.opcode) m1 (.ok (V', pc'))) :
    m.Comes f rest pc' (V', none) := by
  obtain ⟨m1, hfetch, h1, hk1, hstack, htop⟩ := h.fetched hl hi
  obtain ⟨m', hok, h', hk'⟩ := hx m1 h1 hstack htop
  have hstep : m.step .run = .more m' .run := by
    refine step_of_ok hfetch ?_
    rw [execute_of_plain ho, bind_of_ok hok]
    rfl
  exact ⟨m', .step .start hstep, h', hk1.trans hk'⟩

theorem Comes.plain (hx : ∀ m1 : Machine, m1.Sees f rest (pc + 1) V →
      Makes f rest (Exec.plain { f with pc := pc + 1 } i i.opcode) m1 (.ok (V', pc'))) :
    m.Comes f rest pc' (V', none) := Comes.plainStack h hl hi ho fun m1 h1 _ _ => hx m1 h1

theorem Comes.plainAct {a : Act} (hx : ∀ m1 : Machine, m1.Sees f rest (pc + 1) V →
      Makes f rest (Exec.plain { f with pc := pc + 1 } i i.opcode) m1 ((a.run V).map fun V' => (V', pc'))) :
    m.Comes f rest pc' (V.run [a]) := by
  cases ha : a.run V with
  | ok V' =>
    rw [Vars.run_cons_ok ha]
    rw [ha] at hx
    exact Comes.plain h hl hi ho hx
  | error e =>
    rw [Vars.run_cons_error ha]
    rw [ha] at hx
    obtain ⟨m1, hfetch, h1, hk1, -⟩ := h.fetched hl hi
    obtain ⟨m2, place, fault, hfail, htells, hsees, hk2⟩ := hx m1 h1
    obtain ⟨pc2, h2⟩ := hsees _ _ h1
    have hstep : m.step .run = .more m2 (.raise (.runtime place fault)) := by
      have hexec : Exec.execute { f with pc := pc + 1 } i m1 = .error (.fault (.runtime place fault)) m2 := by
        rw [execute_of_plain ho]
        show EStateM.bind (Exec.plain _ i i.opcode) _ m1 = _
        rw [EStateM.bind, hfail]
      rw [step_of_fetch hfetch]
      unfold ofExec
      rw [hexec]
    exact ⟨m2, pc2, place, fault, .step .start hstep, htells, h2, hk1.trans hk2⟩

end

/-- **The instructions of acts do them.** -/
theorem Comes.encoded {is : List Instr} (he : Encodes f.proto.constants is as) (hp : f.proto.Sound)
    (hcode : ∀ k < is.length, f.proto.code[pc + k]? = is[k]?) (hl : m.limits.Endless) (h : m.Sees f rest pc V) :
    m.Comes f rest (pc + is.length) (V.run as) := by
  have hfirst : ∀ i more, is = i :: more → f.proto.code[pc]? = some i := by
    intro i more his
    subst his
    exact hcode 0 (by simp)
  have small : ∀ {a : Nat}, a < 255 → a % 256 = a ∧ a % 512 = a := fun ha =>
    ⟨Nat.mod_eq_of_lt (by omega), Nat.mod_eq_of_lt (by omega)⟩
  have named : ∀ {x : Nat} {s : Origin}, Operand.Names f.proto.constants x s → x % 512 = x := by
    intro x s hx
    cases s with
    | reg r => exact Nat.mod_eq_of_lt (by have := hx.2; have := hx.1; omega)
    | upvalue u => exact hx.elim
    | const c =>
      obtain ⟨k, rfl, hk, -⟩ := hx
      exact Nat.mod_eq_of_lt (Operand.isConstant_ofConstant hk).2.2
  cases he with
  | @move a b ha hb =>
    have hi := hfirst _ _ rfl
    show m.Comes f rest _ (V.setReg a (V.regs b), none)
    refine Comes.plain h hl hi (by simp) fun m1 h1 => ?_
    have hx := makes_move h1 (hp.fits _ _ hi) (by simp)
    rwa [Instr.a_ofABC, Instr.b_ofABC, (small ha).1, (small hb).2] at hx
  | @loadK a k c ha hk hc =>
    have hi := hfirst _ _ rfl
    show m.Comes f rest _ (V.setReg a (.ofConstant c), none)
    refine Comes.plain h hl hi (by simp) fun m1 h1 => ?_
    have hx := makes_loadK h1 (hp.fits _ _ hi) (by simp) (by rw [Compile.bx_ofABx hk]; exact hc)
    rwa [Instr.a_ofABx, (small ha).1] at hx
  | @loadKx a k c ha hk hc =>
    have hi := hfirst _ _ rfl
    show m.Comes f rest _ (V.setReg a (.ofConstant c), none)
    refine Comes.plain h hl hi (by simp) fun m1 h1 => ?_
    have hx := makes_loadKx h1 (hp.fits _ _ hi) (by simp) (hcode 1 (by simp)) (by rw [Compile.ax_ofAx hk]; exact hc)
    rwa [Instr.a_ofABx, (small ha).1] at hx
  | @loadBool a b ha =>
    have hi := hfirst _ _ rfl
    show m.Comes f rest _ (V.setReg a (.bool b), none)
    refine Comes.plain h hl hi (by simp) fun m1 h1 => ?_
    have hx := makes_loadBool h1 (hp.fits _ _ hi) (by simp) (by simp)
    have hb : decide (b.toNat % 512 ≠ 0) = b := by cases b <;> rfl
    rwa [Instr.a_ofABC, Instr.b_ofABC, (small ha).1, hb] at hx
  | @loadNil a n hn ha =>
    have hi := hfirst _ _ rfl
    rw [Vars.run_nils]
    refine Comes.plain h hl hi (by simp) fun m1 h1 => ?_
    have hx := makes_loadNil h1 (hp.fits _ _ hi) (by simp)
    have hcount : (n - 1) % 512 + 1 = n := by
      rw [Nat.mod_eq_of_lt (by omega)]
      omega
    rwa [Instr.a_ofABC, Instr.b_ofABC, (small (show a < 255 by omega)).1, hcount] at hx
  | @getUpvalue a u ha hu =>
    have hi := hfirst _ _ rfl
    show m.Comes f rest _ (V.setReg a (V.upvalues u), none)
    refine Comes.plain h hl hi (by simp) fun m1 h1 => ?_
    have hx := makes_getUpval h1 (hp.fits _ _ hi) (by simp)
    rwa [Instr.a_ofABC, Instr.b_ofABC, (small ha).1, (small hu).2] at hx
  | @setUpvalue u r hr hu =>
    have hi := hfirst _ _ rfl
    show m.Comes f rest _ (V.setUpvalue u (V.regs r), none)
    refine Comes.plain h hl hi (by simp) fun m1 h1 => ?_
    have hx := makes_setUpval h1 (hp.fits _ _ hi) (by simp)
    rwa [Instr.a_ofABC, Instr.b_ofABC, (small hr).1, (small hu).2] at hx
  | @setField base t x y k v ht hx hy =>
    have hi := hfirst _ _ rfl
    refine Comes.plainAct h hl hi (by cases base <;> simp [TableBase.setter]) fun m1 h1 => ?_
    have hk : Operand.Names f.proto.constants (Instr.ofABC base.setter t x y).b.val k := by rwa [Instr.b_ofABC, named hx]
    have hv : Operand.Names f.proto.constants (Instr.ofABC base.setter t x y).c.val v := by rwa [Instr.c_ofABC, named hy]
    have hset := makes_setField h1 (hp.fits _ _ hi) (Instr.opcode_ofABC ..) hk hv
    rwa [Instr.a_ofABC, (small ht).1] at hset
  | @setItems t n block ht hn hpos hle =>
    have hi := hfirst _ _ rfl
    refine Comes.plainAct h hl hi (by simp) fun m1 h1 => ?_
    have hc : block % 512 = block := Nat.mod_eq_of_lt (Nat.lt_succ_of_le hle)
    have hset := makes_setItems h1 (hp.fits _ _ hi) (by simp) (by rw [Instr.b_ofABC, (small (by omega)).2]; omega)
      (by rw [Instr.c_ofABC, hc]; omega)
    rwa [Instr.a_ofABC, Instr.b_ofABC, Instr.c_ofABC, (small (by omega)).1, (small (by omega)).2, hc] at hset
  | @setItemsFar t n block ht hn hle =>
    have hi := hfirst _ _ rfl
    refine Comes.plainAct h hl hi (by simp) fun m1 h1 => ?_
    have hset := makes_setItemsFar h1 (hp.fits _ _ hi) (by simp) (by rw [Instr.b_ofABC, (small (by omega)).2]; omega)
      (by simp) (hcode 1 (by simp))
    rwa [Instr.a_ofABC, Instr.b_ofABC, (small (by omega)).1, (small (by omega)).2, Compile.ax_ofAx hle] at hset

end Machine

/-! ## 5. Drafts -/

/-- The code of a function from `q` on is that of a draft, but for a LOADNIL at the end that may be widened; its
    constants are among those of the function. -/
structure Proto.Follows (p : Proto) (q : Nat) (d : Draft) : Prop where
  code : ∀ pc, q ≤ pc → pc < d.back → p.code[pc]? = d.code[pc]?
  constants : ∀ (k : Nat) (c : Constant), d.constants[k]? = some c → p.constants[k]? = some c

instance (p : Proto) (q : Nat) (d : Draft) : Decidable (p.Follows q d) :=
  decidable_of_iff ((∀ pc < d.back, q ≤ pc → p.code[pc]? = d.code[pc]?) ∧
      ∀ k < d.constants.size, p.constants[k]? = d.constants[k]?)
    ⟨fun ⟨hcode, hconst⟩ => ⟨fun pc hq hlt => hcode pc hlt hq, fun k c hc =>
        (hconst k (Array.getElem?_eq_some_iff.mp hc).1).trans hc⟩,
      fun h => ⟨fun pc hlt hq => h.code pc hq hlt, fun k hk => by
        rw [Array.getElem?_eq_getElem hk]
        exact h.constants k _ (Array.getElem?_eq_getElem hk)⟩⟩

namespace Draft

open Machine

variable {q : Nat} {as : List Act} {d d' : Draft} {f : Frame} {rest : List Frame} {m : Machine} {V : Vars}

/-- The function comes to the end of the draft, where it sees this but for a LOADNIL that may be widened; or the
    failure of a refusal is raised. -/
def Ends (d : Draft) (f : Frame) (rest : List Frame) (m : Machine) : Vars × Option Refusal → Prop
  | (V, none) => ∃ V', m.Comes f rest d.back (V', none) ∧ d.completed V' = V
  | (V, some e) => ∃ pc, m.Comes f rest pc (V, some e)

theorem Appends.back (h : d.Appends is d') (hpos : 0 < is.length) : d.back ≤ d'.back := by
  have hpc := h.pc
  have hle := d.back_le
  unfold Draft.back at hle ⊢
  split <;> split at hle <;> split <;> omega

theorem Codes.back_le (h : d.Codes q as d') : d.back ≤ d'.back := by
  induction h with
  | start => exact Nat.le_refl _
  | idle _ _ ih => exact ih
  | quiet _ hq _ ih => exact hq.back ▸ ih
  | add _ _ ha _ he ih => exact Nat.le_trans ih (ha.back he.length_pos)
  | widen _ hw ih => exact hw.back ▸ ih

theorem Codes.kept (h : d.Codes q as d') (hh : d.here = []) :
    d'.here = [] ∧ ∀ pc < d.back, d'.code[pc]? = d.code[pc]? := by
  induction h with
  | start => exact ⟨hh, fun _ _ => rfl⟩
  | idle _ _ ih => exact ih
  | quiet _ hq _ ih => exact ⟨hq.here.trans ih.1, fun pc hpc => by rw [hq.code, ih.2 pc hpc]⟩
  | @add as bs is d1 d' h _ ha _ _ ih =>
    obtain ⟨hnil, hsame⟩ := ih
    refine ⟨ha.here, fun pc hpc => (ha.same pc ?_ fun j hj => ?_).trans (hsame pc hpc)⟩
    · exact Nat.lt_of_lt_of_le hpc (Nat.le_trans h.back_le d1.back_le)
    · rw [hnil] at hj
      exact (List.not_mem_nil hj).elim
  | @widen as start n d1 d' h hw ih =>
    obtain ⟨hnil, hsame⟩ := ih
    refine ⟨by rw [hw.rest]; exact hnil, fun pc hpc => (hw.same pc fun heq => ?_).trans (hsame pc hpc)⟩
    have hle := h.back_le
    have hback : d1.back = d1.pc - 1 := if_pos hw.opened
    omega

theorem Appends.follows {p : Proto} (h : d.Appends is d') (hpos : 0 < is.length) (hh : ∀ j ∈ d.here, j < q)
    (hk : d'.constants = d.constants) (hp : p.Follows q d') : p.Follows q d := by
  refine ⟨fun pc hq hlt => ?_, fun k c hc => hp.constants k c (by rw [hk]; exact hc)⟩
  refine (hp.code pc hq (Nat.lt_of_lt_of_le hlt (h.back hpos))).trans ?_
  refine h.same pc (Nat.lt_of_lt_of_le hlt d.back_le) fun j hj => ?_
  have := hh j hj
  omega

theorem Widens.follows {p : Proto} {start n : Nat} (h : d.Widens start n d') (hp : p.Follows q d') : p.Follows q d := by
  refine ⟨fun pc hq hlt => ?_, fun k c hc => hp.constants k c (by rw [h.rest]; exact hc)⟩
  refine (hp.code pc hq (h.back ▸ hlt)).trans (h.same pc fun heq => ?_)
  rw [Draft.back, if_pos h.opened] at hlt
  omega

theorem SameCode.follows {p : Proto} (h : d.SameCode d')
    (hk : ∀ (k : Nat) (c : Constant), d.constants[k]? = some c → d'.constants[k]? = some c) (hp : p.Follows q d') :
    p.Follows q d :=
  ⟨fun pc hq hlt => (hp.code pc hq (h.back ▸ hlt)).trans (by rw [h.code]), fun k c hc => hp.constants k c (hk k c hc)⟩

theorem Open.comes (h : d.Open) (hi : f.proto.code[d.pc - 1]? = some (d.instr (d.pc - 1))) (hp : f.proto.Sound)
    (hl : m.limits.Endless) (hs : m.Sees f rest d.back V) : m.Comes f rest d.pc (d.completed V, none) := by
  have hpos : d.pc - 1 + 1 = d.pc := by
    have := h.1
    omega
  rw [Draft.back, if_pos h] at hs
  refine Comes.plain hs hl hi (by rw [h.2]; decide) fun m1 h1 => ?_
  have hx := Exec.makes_loadNil h1 (hp.fits _ _ hi) h.2
  have hclear : V.clear (d.instr (d.pc - 1)).a.val ((d.instr (d.pc - 1)).b.val + 1) = d.completed V := by
    refine Vars.ext (funext fun r => ?_) rfl rfl
    refine ite_congr (propext ?_) (fun _ => rfl) fun _ => rfl
    simp only [h, true_and, Instr.Clears, h.2]
    omega
  rw [hclear, hpos] at hx
  rw [hpos]
  exact hx

theorem comes_pc (h : m.Comes f rest d.back (V, none))
    (hi : d.Open → f.proto.code[d.pc - 1]? = some (d.instr (d.pc - 1))) (hp : f.proto.Sound) (hl : m.limits.Endless) :
    m.Comes f rest d.pc (d.completed V, none) := by
  by_cases hopen : d.Open
  · obtain ⟨m1, hr1, hs1, hk1⟩ := h
    have hl1 : m1.limits.Endless := by
      rw [hk1.limits]
      exact hl
    exact (hopen.comes (hi hopen) hp hl1 hs1).after hr1 hk1
  · rw [completed_of_not_open hopen]
    rwa [Draft.back, if_neg hopen] at h

theorem Ends.andThen {bs : List Act} (h : d.Ends f rest m (V.run as))
    (hrest : ∀ V', m.Comes f rest d.back (V', none) → d'.Ends f rest m ((d.completed V').run bs)) :
    d'.Ends f rest m (V.run (as ++ bs)) := by
  cases hv : V.run as with
  | mk V1 o =>
    rw [hv] at h
    cases o with
    | some e =>
      rw [Vars.run_append_refused hv]
      exact h
    | none =>
      obtain ⟨V', hcomes, rfl⟩ := h
      rw [Vars.run_append hv]
      exact hrest V' hcomes

/-- **A function whose code is that of the draft does the acts that the code has been written for.** -/
theorem Codes.ends (h : d.Codes q as d') (hq : q ≤ d.back) (hp : f.proto.Sound) (hf : f.proto.Follows q d')
    (hl : m.limits.Endless) (hs : m.Sees f rest d.back V) : d'.Ends f rest m ((d.completed V).run as) := by
  induction h with
  | start => exact ⟨V, .start hs, rfl⟩
  | idle h r ih =>
    refine (ih hf).andThen fun V' hcomes => ⟨V', hcomes, ?_⟩
    exact (Vars.setReg_self _ r).symm
  | @quiet as d1 d' h hsame hk ih =>
    have hends := ih (hsame.follows hk hf)
    generalize (d.completed V).run as = r at hends
    obtain ⟨V1, o⟩ := r
    cases o with
    | some e => exact hends
    | none =>
      obtain ⟨V2, hcomes, hv⟩ := hends
      exact ⟨V2, hsame.back ▸ hcomes, (hsame.completed V2).trans hv⟩
  | @add as bs is d1 d' h hh ha hk he ih =>
    refine (ih (ha.follows he.length_pos hh hk hf)).andThen fun V' hcomes => ?_
    have hpos := he.length_pos
    have hpc := ha.pc
    have hge : d1.pc ≤ d'.back := by
      unfold Draft.back
      split <;> omega
    -- a LOADNIL at the end of the code before is not widened any more
    have hdone : m.Comes f rest d1.pc (d1.completed V', none) := by
      refine comes_pc hcomes (fun hopen => ?_) hp hl
      have hlt := hopen.1
      have hle := Nat.le_trans hq h.back_le
      rw [Draft.back, if_pos hopen] at hle
      rw [hf.code _ hle (by omega), ha.same _ (by omega) fun j hj => ?_]
      · exact hopen.code
      · have := hh j hj
        omega
    obtain ⟨m2, hreach, hs2, hkeeps⟩ := hdone
    by_cases hopen : d'.Open
    · obtain ⟨a, n, hn, han, rfl, rfl⟩ := ha.opens he hopen
      have hback : d'.back = d1.pc := by
        rw [Draft.back, if_pos hopen, hpc]
        rfl
      rw [Vars.run_nils]
      exact ⟨_, ⟨m2, hreach, hback ▸ hs2, hkeeps⟩, ha.completed hn han hopen _⟩
    · have hback : d'.back = d1.pc + is.length := by
        rw [Draft.back, if_neg hopen, hpc]
      have hcode : ∀ k < is.length, f.proto.code[d1.pc + k]? = is[k]? := fun k hklt => by
        rw [hf.code _ (by have := h.back_le; have := d1.back_le; omega) (by omega), ha.new k hklt]
      have hl2 : m2.limits.Endless := by
        rw [hkeeps.limits]
        exact hl
      have hcomes := Comes.encoded (he.mono hf.constants) hp hcode hl2 hs2
      generalize (d1.completed V').run bs = r at hcomes
      obtain ⟨V2, o⟩ := r
      cases o with
      | some e => exact ⟨_, hcomes.after hreach hkeeps⟩
      | none => exact ⟨V2, hback ▸ hcomes.after hreach hkeeps, completed_of_not_open hopen V2⟩
  | @widen as start n d1 d' h hw ih =>
    refine (ih (hw.follows hf)).andThen fun V' hcomes => ?_
    rw [Vars.run_nils]
    exact ⟨V', hw.back ▸ hcomes, hw.completed V'⟩

end Draft

end LuaMachine
