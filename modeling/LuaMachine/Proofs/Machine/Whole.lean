/-
  MACHINES IN WHICH NOTHING POINTS OUTSIDE. Values name tables and functions, functions name cells, cells
  and frames name places of the stack; in a whole machine all of them are there. The number of things only
  grows, so what is there stays there.
-/
import LuaMachine.Machine.State
import LuaMachine.Proofs.Chunk.Verified

namespace LuaMachine

/-! ## 1. Known things -/

structure Sizes where
  stack : Nat
  cells : Nat
  tables : Nat
  functions : Nat

structure Sizes.Le (s s' : Sizes) : Prop where
  stack : s.stack ≤ s'.stack
  cells : s.cells ≤ s'.cells
  tables : s.tables ≤ s'.tables
  functions : s.functions ≤ s'.functions

theorem Sizes.Le.refl (s : Sizes) : s.Le s :=
  ⟨Nat.le_refl _, Nat.le_refl _, Nat.le_refl _, Nat.le_refl _⟩

theorem Sizes.Le.trans {s1 s2 s3 : Sizes} (h : s1.Le s2) (h' : s2.Le s3) : s1.Le s3 :=
  ⟨Nat.le_trans h.1 h'.1, Nat.le_trans h.2 h'.2, Nat.le_trans h.3 h'.3, Nat.le_trans h.4 h'.4⟩

def Value.Known (s : Sizes) : Value → Prop
  | .table id => id < s.tables
  | .function id => id < s.functions
  | _ => True

def Table.Holds (P : Value → Prop) (t : Table) : Prop :=
  (∀ v ∈ t.array, P v) ∧ ∀ e ∈ t.entries, P e.1 ∧ P e.2

def Cell.Known (s : Sizes) : Cell → Prop
  | .live slot => slot < s.stack
  | .closed v => v.Known s

structure Proto.Linked (s : Sizes) (p : Proto) (cells : Array Nat) : Prop where
  code : p.All Proto.Viable
  count : cells.size = p.upvalues.length
  cells : ∀ c ∈ cells, c < s.cells

def Function.Known (s : Sizes) : Function → Prop
  | .script p cells => p.Linked s cells
  | .host _ => True

structure Frame.Known (s : Sizes) (f : Frame) : Prop where
  linked : f.proto.Linked s f.cells
  top : f.top ≤ s.stack
  varargs : ∀ v ∈ f.varargs, v.Known s

def Purpose.Known (s : Sizes) : Purpose → Prop
  | .reading _ args _ => ∀ v ∈ args, v.Known s
  | _ => True

structure Activation.Known (s : Sizes) (a : Activation) : Prop where
  savedTop : a.savedTop ≤ s.stack
  purpose : a.purpose.Known s

section

variable {s s' : Sizes}

theorem Value.Known.mono {v : Value} (h : v.Known s) (hs : s.Le s') : v.Known s' := by
  cases v with
  | table id => exact Nat.lt_of_lt_of_le h hs.tables
  | function id => exact Nat.lt_of_lt_of_le h hs.functions
  | _ => exact h

theorem Table.Holds.imp {P Q : Value → Prop} {t : Table} (h : t.Holds P) (hPQ : ∀ v, P v → Q v) :
    t.Holds Q :=
  ⟨fun v hv => hPQ v (h.1 v hv), fun e he => ⟨hPQ _ (h.2 e he).1, hPQ _ (h.2 e he).2⟩⟩

theorem Cell.Known.mono {c : Cell} (h : c.Known s) (hs : s.Le s') : c.Known s' := by
  cases c with
  | live slot => exact Nat.lt_of_lt_of_le h hs.stack
  | closed v => exact Value.Known.mono h hs

theorem Proto.Linked.mono {p : Proto} {cells : Array Nat} (h : p.Linked s cells) (hs : s.Le s') :
    p.Linked s' cells :=
  ⟨h.code, h.count, fun c hc => Nat.lt_of_lt_of_le (h.cells c hc) hs.cells⟩

theorem Function.Known.mono {f : Function} (h : f.Known s) (hs : s.Le s') : f.Known s' := by
  cases f with
  | script p cells => exact Proto.Linked.mono h hs
  | host _ => exact h

theorem Frame.Known.mono {f : Frame} (h : f.Known s) (hs : s.Le s') : f.Known s' :=
  ⟨h.linked.mono hs, Nat.le_trans h.top hs.stack, fun v hv => (h.varargs v hv).mono hs⟩

theorem Purpose.Known.mono {p : Purpose} (h : p.Known s) (hs : s.Le s') : p.Known s' := by
  cases p with
  | reading _ args _ => exact fun v hv => Value.Known.mono (h v hv) hs
  | _ => exact h

theorem Activation.Known.mono {a : Activation} (h : a.Known s) (hs : s.Le s') : a.Known s' :=
  ⟨Nat.le_trans h.savedTop hs.stack, h.purpose.mono hs⟩

@[simp] theorem Value.known_nil : Value.nil.Known s := trivial

@[simp] theorem Value.known_bool {b : Bool} : (Value.bool b).Known s := trivial

@[simp] theorem Value.known_int {i : Int64} : (Value.int i).Known s := trivial

@[simp] theorem Value.known_float {d : Double} : (Value.float d).Known s := trivial

@[simp] theorem Value.known_str {t : Bytes} : (Value.str t).Known s := trivial

@[simp] theorem Value.known_ofString {t : String} : (Value.ofString t).Known s := trivial

theorem Value.known_ofConstant (k : Constant) : (Value.ofConstant k).Known s := by
  cases k <;> trivial

end

/-! ## 2. Whole machines -/

namespace Machine

def sizes (m : Machine) : Sizes := ⟨m.stack.size, m.cells.size, m.tables.size, m.functions.size⟩

/-- All things of a machine are known in it. -/
structure Whole (m : Machine) : Prop where
  stack : ∀ v ∈ m.stack, v.Known m.sizes
  cells : ∀ c ∈ m.cells, c.Known m.sizes
  tables : ∀ t ∈ m.tables, t.Holds (Value.Known m.sizes)
  functions : ∀ f ∈ m.functions, f.Known m.sizes
  frames : ∀ f ∈ m.frames, f.Known m.sizes
  openCells : ∀ e ∈ m.openCells, e.1 < m.stack.size ∧ e.2 < m.cells.size
  top : m.top ≤ m.stack.size
  activations : ∀ a ∈ m.activations, a.Known m.sizes
  globals : m.globals < m.tables.size

namespace Whole

variable {m : Machine}

theorem withStack (h : m.Whole) {stack : Array Value} (hsize : m.stack.size ≤ stack.size)
    (hs : ∀ v ∈ stack, v.Known m.sizes) : { m with stack := stack }.Whole := by
  have hle : m.sizes.Le { m with stack := stack }.sizes :=
    ⟨hsize, Nat.le_refl _, Nat.le_refl _, Nat.le_refl _⟩
  exact {
    stack := fun v hv => (hs v hv).mono hle
    cells := fun c hc => (h.cells c hc).mono hle
    tables := fun t ht => (h.tables t ht).imp fun _ hv => hv.mono hle
    functions := fun f hf => (h.functions f hf).mono hle
    frames := fun f hf => (h.frames f hf).mono hle
    openCells := fun e he => ⟨Nat.lt_of_lt_of_le (h.openCells e he).1 hsize, (h.openCells e he).2⟩
    top := Nat.le_trans h.top hsize
    activations := fun a ha => (h.activations a ha).mono hle
    globals := h.globals }

theorem withCells (h : m.Whole) {cells : Array Cell} (hsize : m.cells.size ≤ cells.size)
    (hc : ∀ c ∈ cells, c.Known m.sizes) : { m with cells := cells }.Whole := by
  have hle : m.sizes.Le { m with cells := cells }.sizes :=
    ⟨Nat.le_refl _, hsize, Nat.le_refl _, Nat.le_refl _⟩
  exact {
    stack := fun v hv => (h.stack v hv).mono hle
    cells := fun c hm => (hc c hm).mono hle
    tables := fun t ht => (h.tables t ht).imp fun _ hv => hv.mono hle
    functions := fun f hf => (h.functions f hf).mono hle
    frames := fun f hf => (h.frames f hf).mono hle
    openCells := fun e he => ⟨(h.openCells e he).1, Nat.lt_of_lt_of_le (h.openCells e he).2 hsize⟩
    top := h.top
    activations := fun a ha => (h.activations a ha).mono hle
    globals := h.globals }

theorem withTables (h : m.Whole) {tables : Array Table} (hsize : m.tables.size ≤ tables.size)
    (ht : ∀ t ∈ tables, t.Holds (Value.Known m.sizes)) : { m with tables := tables }.Whole := by
  have hle : m.sizes.Le { m with tables := tables }.sizes :=
    ⟨Nat.le_refl _, Nat.le_refl _, hsize, Nat.le_refl _⟩
  exact {
    stack := fun v hv => (h.stack v hv).mono hle
    cells := fun c hc => (h.cells c hc).mono hle
    tables := fun t hm => (ht t hm).imp fun _ hv => hv.mono hle
    functions := fun f hf => (h.functions f hf).mono hle
    frames := fun f hf => (h.frames f hf).mono hle
    openCells := h.openCells
    top := h.top
    activations := fun a ha => (h.activations a ha).mono hle
    globals := Nat.lt_of_lt_of_le h.globals hsize }

theorem withFunction (h : m.Whole) {f : Function} (hf : f.Known m.sizes) :
    { m with functions := m.functions.push f }.Whole := by
  have hle : m.sizes.Le { m with functions := m.functions.push f }.sizes :=
    ⟨Nat.le_refl _, Nat.le_refl _, Nat.le_refl _, by simp [sizes]⟩
  exact {
    stack := fun v hv => (h.stack v hv).mono hle
    cells := fun c hc => (h.cells c hc).mono hle
    tables := fun t ht => (h.tables t ht).imp fun _ hv => hv.mono hle
    functions := fun g hg => by
      obtain hg | rfl := Array.mem_push.mp hg
      · exact (h.functions g hg).mono hle
      · exact hf.mono hle
    frames := fun f hf => (h.frames f hf).mono hle
    openCells := h.openCells
    top := h.top
    activations := fun a ha => (h.activations a ha).mono hle
    globals := h.globals }

theorem withControl (h : m.Whole) {frames : List Frame} {activations : List Activation} {top : Nat}
    (hf : ∀ f ∈ frames, f.Known m.sizes) (ha : ∀ a ∈ activations, a.Known m.sizes)
    (ht : top ≤ m.stack.size) :
    { m with frames := frames, activations := activations, top := top }.Whole :=
  { h with frames := hf, activations := ha, top := ht }

theorem withOpenCells (h : m.Whole) {cells : List (Nat × Nat)} (hc : ∀ e ∈ cells, e.1 < m.stack.size ∧ e.2 < m.cells.size) :
    { m with openCells := cells }.Whole :=
  { h with openCells := hc }

end Whole

end Machine

/-! ## 3. Tables -/

namespace Table

variable {P : Value → Prop} {t : Table} {key value : Value}

theorem holds_empty : empty.Holds P := by
  simp [empty, Holds]

theorem normalize_of {k : Value} (hint : ∀ i, P (.int i)) (h : P key) (hk : normalize key = .ok k) :
    P k := by
  unfold normalize at hk
  split at hk
  · cases hk
  · split at hk
    · cases hk
    · split at hk
      · cases hk
        exact hint _
      · cases hk
        exact h
  · cases hk
    exact h

theorem lookup_of {es : List (Value × Value)} (h : ∀ e ∈ es, P e.1 ∧ P e.2) {v : Value}
    (hv : lookup key es = some v) : P v := by
  induction es with
  | nil => cases hv
  | cons e es ih =>
    obtain ⟨he, hes⟩ := List.forall_mem_cons.mp h
    unfold lookup at hv
    split at hv
    · cases hv
      exact he.2
    · exact ih hes hv

theorem replace_of {es : List (Value × Value)} (h : ∀ e ∈ es, P e.1 ∧ P e.2) (hv : P value) :
    ∀ e ∈ replace key value es, P e.1 ∧ P e.2 := by
  induction es with
  | nil => exact h
  | cons e es ih =>
    obtain ⟨he, hes⟩ := List.forall_mem_cons.mp h
    unfold replace
    split
    · exact List.forall_mem_cons.mpr ⟨⟨he.1, hv⟩, hes⟩
    · exact List.forall_mem_cons.mpr ⟨he, ih hes⟩

namespace Holds

theorem getEntry (h : t.Holds P) (hnil : P .nil) : P (t.getEntry key) := by
  unfold Table.getEntry
  cases hl : lookup key t.entries with
  | none => exact hnil
  | some v => exact lookup_of h.2 hl

theorem getInt (h : t.Holds P) (hnil : P .nil) {i : Int64} : P (t.getInt i) := by
  unfold Table.getInt
  split
  · cases hl : t.array[i.toInt.toNat - 1]? with
    | none => exact hnil
    | some v => exact h.1 v (Array.mem_of_getElem? hl)
  · exact h.getEntry hnil

theorem get (h : t.Holds P) (hnil : P .nil) : P (t.get key) := by
  unfold Table.get
  split
  · exact h.getInt hnil
  · exact h.getEntry hnil
  · exact hnil

theorem compact (h : t.Holds P) : t.compact.Holds P := by
  unfold Table.compact
  split
  · exact ⟨h.1, fun e he => h.2 e (List.mem_filter.mp he).1⟩
  · exact h

theorem setEntry (h : t.Holds P) (hk : P key) (hv : P value) : (t.setEntry key value).Holds P := by
  unfold Table.setEntry
  split
  · exact ⟨h.1, replace_of h.2 hv⟩
  · split
    · exact h
    · refine ⟨h.compact.1, fun e he => ?_⟩
      obtain he | he := List.mem_append.mp he
      · exact h.compact.2 e he
      · rw [List.mem_singleton.mp he]
        exact ⟨hk, hv⟩

theorem push (h : t.Holds P) (hnil : P .nil) (hv : P value) : (t.push value).Holds P := by
  have harray : ∀ v ∈ t.array.push value, P v := fun v hm => by
    obtain hm | rfl := Array.mem_push.mp hm
    · exact h.1 v hm
    · exact hv
  unfold Table.push
  dsimp only
  split
  · exact ⟨harray, replace_of h.2 hnil⟩
  · exact ⟨harray, h.2⟩

theorem migrate (h : t.Holds P) (hnil : P .nil) (n : Nat) : (migrate n t).Holds P := by
  induction n generalizing t with
  | zero => exact h
  | succ n ih =>
    unfold Table.migrate
    split
    · exact h
    · split
      · exact h
      · exact ih (h.push hnil (h.getEntry hnil))

theorem setInt (h : t.Holds P) (hnil : P .nil) (hint : ∀ i, P (.int i)) (hv : P value) (i : Int64) :
    (t.setInt i value).Holds P := by
  unfold Table.setInt
  split
  · refine ⟨fun v hm => ?_, h.2⟩
    obtain ⟨k, hk⟩ := Array.mem_iff_getElem?.mp hm
    rw [Array.getElem?_modify] at hk
    split at hk
    · obtain ⟨_, _, rfl⟩ := Option.map_eq_some_iff.mp hk
      exact hv
    · exact h.1 v (Array.mem_of_getElem? hk)
  · split
    · dsimp only
      split
      · exact h.push hnil hv
      · exact (h.push hnil hv).migrate hnil _
    · exact h.setEntry (hint i) hv

theorem firstInArray (h : t.Holds P) (hnil : P .nil) (hint : ∀ i, P (.int i)) {n i : Nat} {e : Value × Value}
    (he : t.firstInArray n i = some e) : P e.1 ∧ P e.2 := by
  induction n generalizing i with
  | zero => cases he
  | succ n ih =>
    unfold Table.firstInArray at he
    split at he
    · exact ih he
    · cases he
      refine ⟨hint _, ?_⟩
      cases hl : t.array[i]? with
      | none => exact hnil
      | some v => exact h.1 v (Array.mem_of_getElem? hl)

theorem nextFrom (h : t.Holds P) (hnil : P .nil) (hint : ∀ i, P (.int i)) {e : Value × Value} (start : Nat)
    (hs : (match t.firstInArray (t.array.size - start) start with
      | some e => (.ok (some e) : Except TableFault (Option (Value × Value)))
      | none => .ok (firstLive (t.entries.drop (start - t.array.size)))) = .ok (some e)) : P e.1 ∧ P e.2 := by
  split at hs
  · next e' he' =>
    cases hs
    exact h.firstInArray hnil hint he'
  · have hlive : firstLive (t.entries.drop (start - t.array.size)) = some e := by simpa using hs
    exact h.2 e (List.mem_of_mem_drop (List.mem_of_find?_eq_some hlive))

theorem next (h : t.Holds P) (hnil : P .nil) (hint : ∀ i, P (.int i)) {e : Value × Value}
    (he : t.next key = .ok (some e)) : P e.1 ∧ P e.2 := by
  unfold Table.next at he
  split at he
  · exact h.nextFrom hnil hint 0 he
  · cases hp : t.placeAfter key with
    | error f =>
      rw [hp] at he
      cases he
    | ok start =>
      rw [hp] at he
      exact h.nextFrom hnil hint start he

end Holds

end Table

end LuaMachine
