/-
  WHAT AN OPERATION SPARES. Most operations work on the stack from some place on: below it they write
  captured variables only, and what they capture is not below it either.
-/
import LuaMachine.Proofs.Machine.Instruction
import LuaMachine.Proofs.Machine.Stack

namespace LuaMachine

namespace Machine

/-! ## 1. Captured places -/

/-- Captured places are entered once, the greatest first, each with the cell that is live there; and
    every live cell is entered. -/
structure Tidy (m : Machine) : Prop where
  sorted : m.openCells.Pairwise fun e e' => e'.1 < e.1
  live : ∀ s c, (s, c) ∈ m.openCells ↔ m.cells[c]? = some (.live s)

/-- From `m` to `m'` nothing is lost, the stack below `low` changes only where it is captured, and
    places are captured by new cells only, not below `low` and only such as `P` allows. -/
structure Spares (low : Nat) (P : Nat → Prop) (m m' : Machine) : Prop where
  tidy : m'.Tidy
  stackSize : m.stack.size ≤ m'.stack.size
  cellsSize : m.cells.size ≤ m'.cells.size
  stack : ∀ s < low, s < m.stack.size → (∀ c, (s, c) ∉ m.openCells) → m'.stack[s]? = m.stack[s]?
  opened : ∀ e ∈ m'.openCells, e ∈ m.openCells ∨ m.cells.size ≤ e.2 ∧ low ≤ e.1 ∧ P e.1

namespace Spares

variable {m m1 m2 : Machine} {low low' : Nat} {P Q : Nat → Prop}

theorem refl (hm : m.Tidy) : m.Spares low P m where
  tidy := hm
  stackSize := Nat.le_refl _
  cellsSize := Nat.le_refl _
  stack := fun _ _ _ _ => rfl
  opened := fun _ he => .inl he

theorem trans (h : m.Spares low P m1) (h' : m1.Spares low P m2) : m.Spares low P m2 where
  tidy := h'.tidy
  stackSize := Nat.le_trans h.stackSize h'.stackSize
  cellsSize := Nat.le_trans h.cellsSize h'.cellsSize
  stack := fun s hs hin hfree => by
    -- a place below `low` that was free is still free half-way
    have hfree1 : ∀ c, (s, c) ∉ m1.openCells := fun c hc => by
      rcases h.opened _ hc with hold | ⟨_, hlow, _⟩
      · exact hfree c hold
      · exact Nat.not_lt.mpr hlow hs
    rw [h'.stack s hs (Nat.lt_of_lt_of_le hin h.stackSize) hfree1, h.stack s hs hin hfree]
  opened := fun e he => by
    rcases h'.opened e he with he1 | ⟨hnew, hlow, hP⟩
    · exact h.opened e he1
    · exact .inr ⟨Nat.le_trans h.cellsSize hnew, hlow, hP⟩

theorem imp (h : m.Spares low P m1) (hlow : low' ≤ low) (hP : ∀ s, P s → Q s) : m.Spares low' Q m1 where
  tidy := h.tidy
  stackSize := h.stackSize
  cellsSize := h.cellsSize
  stack := fun s hs => h.stack s (Nat.lt_of_lt_of_le hs hlow)
  opened := fun e he => (h.opened e he).imp_right fun ⟨hnew, hle, hp⟩ => ⟨hnew, Nat.le_trans hlow hle, hP _ hp⟩

theorem same (hm : m.Tidy) (hs : m1.stack = m.stack) (hc : m1.cells = m.cells)
    (ho : m1.openCells = m.openCells) : m.Spares low P m1 where
  tidy := ⟨by rw [ho]; exact hm.sorted, by rw [ho, hc]; exact hm.live⟩
  stackSize := Nat.le_of_eq (by rw [hs])
  cellsSize := Nat.le_of_eq (by rw [hc])
  stack := fun _ _ _ _ => by rw [hs]
  opened := fun e he => .inl (by rwa [ho] at he)

end Spares

end Machine

namespace Exec

open Machine (Tidy)

/-! ## 2. Operations -/

/-- The operation, in whatever tidy machine, spares the stack below `low`, captures only what `P`
    allows, and changes no frames. -/
def Spares {α : Type} (low : Nat) (P : Nat → Prop) (x : Exec α) : Prop :=
  ∀ m : Machine, m.Tidy →
    Meets True (fun _ m' => m.Spares low P m' ∧ m'.frames = m.frames ∧ m'.activations = m.activations) x m
      fun _ m' => m.Spares low P m' ∧ m'.frames = m.frames ∧ m'.activations = m.activations

variable {α β : Type} {low : Nat} {P : Nat → Prop}

namespace Spares

variable {x : Exec α} {k : α → Exec β}

theorem bind (hx : Spares low P x) (hk : ∀ a, Spares low P (k a)) : Spares low P (x >>= k) := by
  intro m hm
  refine Meets.bind (Meets.imp (hx m hm) (fun _ _ h => h) fun a m1 ⟨h1, hf1, ha1⟩ => ?_)
  have himp : ∀ m2, (m1.Spares low P m2 ∧ m2.frames = m1.frames ∧ m2.activations = m1.activations) →
      m.Spares low P m2 ∧ m2.frames = m.frames ∧ m2.activations = m.activations :=
    fun m2 ⟨h2, hf2, ha2⟩ => ⟨h1.trans h2, hf2.trans hf1, ha2.trans ha1⟩
  exact Meets.imp (hk a m1 h1.tidy) (fun _ => himp) fun _ => himp

theorem imp {low' : Nat} {Q : Nat → Prop} (h : Spares low P x) (hlow : low' ≤ low)
    (hP : ∀ s, P s → Q s) : Spares low' Q x := fun m hm =>
  Meets.imp (h m hm) (fun _ _ h => ⟨h.1.imp hlow hP, h.2⟩) fun _ _ h => ⟨h.1.imp hlow hP, h.2⟩

theorem pure (a : α) : Spares low P (Pure.pure a) := fun _ hm => ⟨.refl hm, rfl, rfl⟩

theorem failWith (f : Failure) : Spares low P (failWith f : Exec α) := fun _ hm => ⟨.refl hm, rfl, rfl⟩

theorem fail (f : RuntimeFault) : Spares low P (fail f : Exec α) := fun _ hm => ⟨.refl hm, rfl, rfl⟩

theorem stuck : Spares low P (stuck : Exec α) := fun _ _ => trivial

theorem get : Spares low P (MonadState.get : Exec Machine) := fun _ hm => ⟨.refl hm, rfl, rfl⟩

theorem need (o : Option α) : Spares low P (need o) := by
  cases o with
  | none => exact stuck
  | some a => exact pure a

theorem update {g : Machine → Machine} (hs : ∀ m, (g m).stack = m.stack) (hc : ∀ m, (g m).cells = m.cells)
    (ho : ∀ m, (g m).openCells = m.openCells) (hf : ∀ m, (g m).frames = m.frames)
    (ha : ∀ m, (g m).activations = m.activations) : Spares low P (modify g) :=
  fun m hm => ⟨.same hm (hs m) (hc m) (ho m), hf m, ha m⟩

/-! ## 3. The stack -/

theorem ensure (n : Nat) : Spares low P (ensure n) := by
  intro m hm
  by_cases h : m.stack.size < n
  · have hx : Exec.ensure n m = .ok () { m with stack := m.stack ++ Array.replicate (n - m.stack.size) .nil } := by
      exact congrArg (EStateM.Result.ok ()) (if_pos h)
    unfold Meets
    rw [hx]
    refine ⟨⟨⟨hm.sorted, hm.live⟩, ?_, Nat.le_refl _, fun s _ hin _ => ?_, fun _ he => .inl he⟩, rfl, rfl⟩
    · rw [Array.size_append]
      omega
    · exact Array.getElem?_append_left hin
  · have hx : Exec.ensure n m = .ok () m := by
      exact congrArg (EStateM.Result.ok ()) (if_neg h)
    unfold Meets
    rw [hx]
    exact ⟨.refl hm, rfl, rfl⟩

theorem read (i : Nat) : Spares low P (read i) := get.bind fun _ => need _

theorem write_meets {m : Machine} {i : Nat} {v : Value} (hm : m.Tidy) (hi : low ≤ i ∨ ∃ c, (i, c) ∈ m.openCells) :
    Meets True (fun _ m' => m.Spares low P m' ∧ m'.frames = m.frames ∧ m'.activations = m.activations)
      (write i v) m fun _ m' => m.Spares low P m' ∧ m'.frames = m.frames ∧ m'.activations = m.activations := by
  by_cases h : i < m.stack.size
  · have hx : Exec.write i v m = .ok () { m with stack := m.stack.set i v } := dif_pos h
    unfold Meets
    rw [hx]
    refine ⟨⟨⟨hm.sorted, hm.live⟩, ?_, Nat.le_refl _, fun s hs hin hfree => ?_, fun _ he => .inl he⟩, rfl, rfl⟩
    · exact Nat.le_of_eq (Array.size_set h).symm
    · have hne : i ≠ s := by
        rintro rfl
        rcases hi with hi | ⟨c, hc⟩
        · exact Nat.not_lt.mpr hi hs
        · exact hfree c hc
      exact Array.getElem?_set_ne h hne
  · have hx : Exec.write i v m = .error .stuck m := dif_neg h
    unfold Meets
    rw [hx]
    trivial

theorem write {i : Nat} (hi : low ≤ i) (v : Value) : Spares low P (write i v) :=
  fun _ hm => write_meets hm (.inl hi)

theorem readMany (i n : Nat) : Spares low P (readMany i n) :=
  get.bind fun m => by
    split
    · exact pure _
    · exact stuck

theorem writeMany {i : Nat} (hi : low ≤ i) (vs : List Value) : Spares low P (writeMany i vs) := by
  induction vs generalizing i with
  | nil => exact pure ()
  | cons v vs ih => exact (write hi v).bind fun _ => ih (Nat.le_succ_of_le hi)

theorem clear {i : Nat} (hi : low ≤ i) (n : Nat) : Spares low P (clear i n) := by
  induction n with
  | zero => exact pure ()
  | succ n ih => exact (write (Nat.le_add_right_of_le hi) .nil).bind fun _ => ih

theorem place {i : Nat} (hi : low ≤ i) (vs : List Value) (wanted : Option Nat) :
    Spares low P (place i vs wanted) := by
  cases wanted with
  | some n => exact (ensure _).bind fun _ => writeMany hi _
  | none =>
    refine (ensure _).bind fun _ => (writeMany hi vs).bind fun _ => ?_
    exact update (fun _ => rfl) (fun _ => rfl) (fun _ => rfl) (fun _ => rfl) fun _ => rfl

/-! ## 4. Cells -/

theorem readCell (c : Nat) : Spares low P (readCell c) :=
  get.bind fun _ => (need _).bind fun cell => by
    cases cell with
    | live slot => exact read slot
    | closed v => exact pure v

theorem closed_same {m : Machine} (hm : m.Tidy) {c : Nat} {v w : Value} (hc : m.cells[c]? = some (.closed w)) :
    m.Spares low P { m with cells := m.cells.modify c fun _ => .closed v } where
  tidy := by
    refine ⟨hm.sorted, fun s d => (hm.live s d).trans ?_⟩
    show m.cells[d]? = _ ↔ (m.cells.modify c fun _ => .closed v)[d]? = _
    rw [Array.getElem?_modify]
    split
    · next hcd =>
      subst hcd
      simp [hc]
    · exact Iff.rfl
  stackSize := Nat.le_refl _
  cellsSize := Nat.le_of_eq Array.size_modify.symm
  stack := fun _ _ _ _ => rfl
  opened := fun _ he => .inl he

theorem writeCell (c : Nat) (v : Value) : Spares low P (writeCell c v) := by
  intro m hm
  cases hc : m.cells[c]? with
  | none =>
    have hx : Exec.writeCell c v m = .error .stuck m := by
      show EStateM.bind (Exec.need m.cells[c]?) _ m = _
      rw [hc]
      rfl
    unfold Meets
    rw [hx]
    trivial
  | some cell =>
    cases cell with
    | live slot =>
      have hx : Exec.writeCell c v m = Exec.write slot v m := by
        show EStateM.bind (Exec.need m.cells[c]?) _ m = _
        rw [hc]
        rfl
      unfold Meets
      rw [hx]
      exact write_meets hm (.inr ⟨c, (hm.live slot c).mpr hc⟩)
    | closed w =>
      have hx : Exec.writeCell c v m = .ok () { m with cells := m.cells.modify c fun _ => .closed v } := by
        show EStateM.bind (Exec.need m.cells[c]?) _ m = _
        rw [hc]
        rfl
      unfold Meets
      rw [hx]
      exact ⟨closed_same hm hc, rfl, rfl⟩

theorem newClosed (v : Value) : Spares low P (newCell (.closed v)) := by
  intro m hm
  refine ⟨⟨⟨hm.sorted, fun s c => (hm.live s c).trans ?_⟩, Nat.le_refl _, ?_, fun _ _ _ _ => rfl,
    fun _ he => .inl he⟩, rfl, rfl⟩
  · show m.cells[c]? = _ ↔ (m.cells.push (.closed v))[c]? = _
    rw [Array.getElem?_push]
    split
    · next h =>
      subst h
      simp
    · exact Iff.rfl
  · show m.cells.size ≤ (m.cells.push _).size
    rw [Array.size_push]
    exact Nat.le_succ _

end Spares

theorem findOpen_none {slot : Nat} {es : List (Nat × Nat)} (h : findOpen slot es = none) :
    ∀ e ∈ es, e.1 ≠ slot := by
  induction es with
  | nil => exact fun _ he => nomatch he
  | cons e es ih =>
    unfold findOpen at h
    split at h
    · cases h
    · next hne => exact List.forall_mem_cons.mpr ⟨hne, ih h⟩

theorem mem_insertOpen_iff {slot c : Nat} {es : List (Nat × Nat)} {e : Nat × Nat} :
    e ∈ insertOpen slot c es ↔ e = (slot, c) ∨ e ∈ es := by
  induction es with
  | nil => simp [insertOpen]
  | cons d es ih =>
    unfold insertOpen
    split
    · exact List.mem_cons
    · rw [List.mem_cons, ih, List.mem_cons]
      exact or_left_comm

theorem sorted_insertOpen {slot c : Nat} {es : List (Nat × Nat)}
    (h : es.Pairwise fun e e' => e'.1 < e.1) (hnew : ∀ e ∈ es, e.1 ≠ slot) :
    (insertOpen slot c es).Pairwise fun e e' => e'.1 < e.1 := by
  induction es with
  | nil => exact List.pairwise_singleton ..
  | cons d es ih =>
    obtain ⟨hd, hes⟩ := List.pairwise_cons.mp h
    obtain ⟨hne, hnew⟩ := List.forall_mem_cons.mp hnew
    unfold insertOpen
    split
    · next hlt => exact List.pairwise_cons.mpr ⟨List.forall_mem_cons.mpr ⟨hlt, fun e he => Nat.lt_trans (hd e he) hlt⟩, h⟩
    · next hle =>
      refine List.pairwise_cons.mpr ⟨fun e he => ?_, ih hes hnew⟩
      rcases mem_insertOpen he with rfl | he
      · exact Nat.lt_of_le_of_ne (Nat.not_lt.mp hle) hne.symm
      · exact hd e he

namespace Spares

theorem capture {slot : Nat} (hlow : low ≤ slot) (hP : P slot) : Spares low P (capture slot) := by
  intro m hm
  cases hf : findOpen slot m.openCells with
  | some c =>
    exact Meets.of_ok (capture_found hf) ⟨.refl hm, rfl, rfl⟩
  | none =>
    refine Meets.of_ok (capture_new hf) ?_
    have hsize : (m.cells.push (.live slot)).size = m.cells.size + 1 := Array.size_push ..
    refine ⟨⟨⟨sorted_insertOpen hm.sorted (findOpen_none hf), fun s c => ?_⟩, Nat.le_refl _, ?_,
      fun _ _ _ _ => rfl, fun e he => ?_⟩, rfl, rfl⟩
    · show (s, c) ∈ insertOpen slot m.cells.size m.openCells ↔ (m.cells.push (.live slot))[c]? = _
      rw [mem_insertOpen_iff, hm.live, Array.getElem?_push, Prod.mk.injEq]
      split
      · next hc =>
        subst hc
        simp [eq_comm]
      · next hc => simp [hc]
    · show m.cells.size ≤ (m.cells.push _).size
      omega
    · rcases mem_insertOpen he with rfl | he
      · exact .inr ⟨Nat.le_refl _, hlow, hP⟩
      · exact .inl he

end Spares

/-! ## 5. Closing -/

theorem closeFrom_meets (level : Nat) {es : List (Nat × Nat)} {m : Machine}
    (hsorted : es.Pairwise fun e e' => e'.1 < e.1) :
    Meets True (fun _ _ => False) (closeFrom level es) m fun es' m' =>
      (∀ e, e ∈ es' ↔ e ∈ es ∧ e.1 < level) ∧ es'.Sublist es ∧
        (∃ cells : Array Cell, m' = { m with cells := cells } ∧ cells.size = m.cells.size ∧
          ∀ c, (cells[c]? = m.cells[c]? ∧ ∀ s, (s, c) ∈ es → s < level) ∨
            (∃ s, (s, c) ∈ es ∧ level ≤ s) ∧ ∀ s, cells[c]? ≠ some (.live s)) := by
  induction es generalizing m with
  | nil => exact ⟨by simp, .slnil, m.cells, rfl, rfl, fun c => .inl ⟨rfl, by simp⟩⟩
  | cons e es ih =>
    obtain ⟨slot, c⟩ := e
    obtain ⟨hlt, hsorted⟩ := List.pairwise_cons.mp hsorted
    unfold closeFrom
    split
    · next hbelow =>
      have hall : ∀ e ∈ (slot, c) :: es, e.1 < level :=
        List.forall_mem_cons.mpr ⟨hbelow, fun e he => Nat.lt_trans (hlt e he) hbelow⟩
      exact ⟨fun e => ⟨fun he => ⟨he, hall e he⟩, fun he => he.1⟩, .refl _, m.cells, rfl, rfl,
        fun d => .inl ⟨rfl, fun s hs => hall _ hs⟩⟩
    · next habove =>
      cases hv : m.stack[slot]? with
      | none =>
        have hx : (do
            let v ← Exec.read slot
            modify fun m => { m with cells := m.cells.modify c fun _ => .closed v }
            closeFrom level es : Exec _) m = .error .stuck m := by
          show EStateM.bind (Exec.need m.stack[slot]?) _ m = _
          rw [hv]
          rfl
        unfold Meets
        rw [hx]
        trivial
      | some v =>
        -- the rest of the places is closed in a machine where this cell has its value
        have hrest := ih (m := { m with cells := m.cells.modify c fun _ => .closed v }) hsorted
        have hx : (do
            let v ← Exec.read slot
            modify fun m => { m with cells := m.cells.modify c fun _ => .closed v }
            closeFrom level es : Exec _) m = closeFrom level es { m with cells := m.cells.modify c fun _ => .closed v } := by
          show EStateM.bind (Exec.need m.stack[slot]?) _ m = _
          rw [hv]
          rfl
        unfold Meets at hrest ⊢
        rw [hx]
        split at hrest
        · obtain ⟨hmem, hsub, cells, rfl, hsize, hcells⟩ := hrest
          refine ⟨fun e => ?_, hsub.cons _, cells, rfl, hsize.trans Array.size_modify, fun d => ?_⟩
          · rw [hmem, List.mem_cons]
            constructor
            · exact fun h => ⟨.inr h.1, h.2⟩
            · rintro ⟨rfl | he, hl⟩
              · exact (habove hl).elim
              · exact ⟨he, hl⟩
          · rcases hcells d with ⟨heq, hnot⟩ | ⟨⟨s, hs, hl⟩, hdead⟩
            · by_cases hdc : c = d
              · subst hdc
                refine .inr ⟨⟨slot, List.mem_cons_self .., Nat.not_lt.mp habove⟩, fun s hs => ?_⟩
                rw [heq] at hs
                simp [Array.getElem?_modify] at hs
              · refine .inl ⟨?_, fun s hs => ?_⟩
                · rw [heq]
                  exact (Array.getElem?_modify).trans (if_neg hdc)
                · rcases List.mem_cons.mp hs with heq | hs
                  · cases heq
                    exact (hdc rfl).elim
                  · exact hnot s hs
            · exact .inr ⟨⟨s, List.mem_cons_of_mem _ hs, hl⟩, hdead⟩
        · trivial
        · trivial

theorem closed (low : Nat) (P : Nat → Prop) (level : Nat) {m : Machine} (hm : m.Tidy) :
    Meets True (fun _ _ => False) (close level) m fun _ m' =>
      m.Spares low P m' ∧ m'.frames = m.frames ∧ m'.activations = m.activations ∧ m'.stack = m.stack ∧
        m'.functions = m.functions ∧ ∀ e, e ∈ m'.openCells ↔ e ∈ m.openCells ∧ e.1 < level := by
  unfold close
  refine Meets.bind (x := MonadState.get) (show Meets _ _ _ m _ from Meets.bind ?_)
  refine Meets.imp (closeFrom_meets level hm.sorted) (fun _ _ h => h) fun es m' ⟨hmem, hsub, cells, hm', hsize, hcells⟩ => ?_
  subst hm'
  refine ⟨⟨⟨hm.sorted.sublist hsub, fun s c => ?_⟩, Nat.le_refl _, Nat.le_of_eq hsize.symm,
    fun _ _ _ _ => rfl, fun e he => .inl ((hmem e).mp he).1⟩, rfl, rfl, rfl, rfl, hmem⟩
  refine (hmem (s, c)).trans ?_
  show _ ↔ cells[c]? = _
  rcases hcells c with ⟨heq, hbelow⟩ | ⟨⟨t, ht, hl⟩, hdead⟩
  · rw [heq, ← hm.live]
    exact ⟨fun h => h.1, fun h => ⟨h, hbelow s h⟩⟩
  · refine ⟨fun ⟨hs, hlt⟩ => ?_, fun hs => (hdead s hs).elim⟩
    have hst := ((hm.live s c).mp hs).symm.trans ((hm.live t c).mp ht)
    simp only [Option.some.injEq, Cell.live.injEq] at hst
    exact absurd hlt (by omega)

namespace Spares

theorem close (level : Nat) : Spares low P (close level) := fun _ hm =>
  Meets.imp (closed low P level hm) (fun _ _ h => h.elim) fun _ _ ⟨hs, hf, ha, _⟩ => ⟨hs, hf, ha⟩

/-! ## 6. Tables and functions -/

theorem newTable (t : Table) : Spares low P (newTable t) := fun _ hm =>
  ⟨.same hm rfl rfl rfl, rfl, rfl⟩

theorem newFunction (f : Function) : Spares low P (newFunction f) := fun _ hm =>
  ⟨.same hm rfl rfl rfl, rfl, rfl⟩

theorem table (id : Nat) : Spares low P (table id) := get.bind fun _ => need _

theorem setKey (id : Nat) (key v : Value) : Spares low P (setKey id key v) := by
  unfold Exec.setKey
  split
  · exact fail _
  · exact update (fun _ => rfl) (fun _ => rfl) (fun _ => rfl) (fun _ => rfl) fun _ => rfl
  · exact update (fun _ => rfl) (fun _ => rfl) (fun _ => rfl) (fun _ => rfl) fun _ => rfl

theorem newCells (v : Value) (acc : Array Nat) (us : List UpvalueDesc) : Spares low P (newCells v acc us) := by
  induction us generalizing v acc with
  | nil => exact pure acc
  | cons u us ih => exact (newClosed v).bind fun _ => ih _ _

theorem ofMain (p : Proto) (env : Value) : Spares low P (ofMain p env) :=
  (newCells env #[] p.upvalues).bind fun _ => newFunction _

/-! ## 7. Operands and operators -/

variable {f : Frame}

theorem constant (k : Nat) : Spares low P (constant f k) := (need _).bind fun _ => pure _

theorem operand (x : Nat) : Spares low P (operand f x) := by
  unfold Exec.operand
  split
  · exact constant _
  · exact read _

theorem upvalue (u : Nat) : Spares low P (upvalue f u) := by
  unfold Exec.upvalue
  split
  · exact pure _
  · exact fail _

theorem openCount (start b : Nat) : Spares low P (openCount start b) := by
  unfold Exec.openCount
  split
  · exact pure _
  · exact get.bind fun _ => pure _

theorem getKey (v key : Value) (name : Unit → Option Naming) : Spares low P (getKey v key name) := by
  unfold Exec.getKey
  split
  · exact (table _).bind fun _ => pure _
  · exact fail _

theorem putKey (v key value : Value) (name : Unit → Option Naming) :
    Spares low P (putKey v key value name) := by
  unfold Exec.putKey
  split
  · exact setKey _ _ _
  · exact fail _

theorem setKeys (id : Nat) (first : Int) (vs : List Value) : Spares low P (setKeys id first vs) := by
  induction vs generalizing first with
  | nil => exact pure ()
  | cons v vs ih =>
    refine bind (update ?_ ?_ ?_ ?_ ?_) fun _ => ih _ <;>
    · exact fun _ => rfl

theorem failOperator (e : OperandFault) (x y : Value) (b c : Nat) :
    Spares low P (failOperator f e x y b c : Exec α) := by
  unfold Exec.failOperator
  split <;> exact fail _

theorem operate (op : ArithOp) {a : Nat} (b c : Nat) (hlow : low ≤ f.base + a) :
    Spares low P (operate f op a b c) :=
  (operand b).bind fun x => (operand c).bind fun y => by
    split
    · exact write hlow _
    · exact failOperator _ _ _ _ _

theorem joinRow {a : Nat} (b c : Nat) (hlow : low ≤ f.base + a) : Spares low P (do
    let vs ← Exec.readMany (f.base + b) (c + 1 - b)
    match Value.concat vs with
    | .ok s => Exec.write (f.base + a) (.str s)
    | .error i => Exec.fail (.concat (vs[i]?.getD .nil).type (nameOf f (b + i)))) :=
  (readMany _ _).bind fun vs => by
    split
    · exact write hlow _
    · exact fail _

theorem join {a : Nat} (b c : Nat) (hlow : low ≤ f.base + a) : Spares low P (join f a b c) := by
  unfold Exec.join
  split
  · exact stuck.bind fun _ => joinRow b c hlow
  · exact joinRow b c hlow

theorem measure (b : Nat) : Spares low P (measure f b) :=
  (read _).bind fun v => by
    split
    · exact (table _).bind fun _ => pure _
    · exact pure _
    · exact fail _

theorem prepareLoop {ra : Nat} (hlow : low ≤ ra) : Spares low P (prepareLoop ra) := by
  refine (read _).bind fun start => (read _).bind fun limit => (read _).bind fun step => ?_
  have h1 := Nat.le_add_right_of_le (k := 1) hlow
  have h2 := Nat.le_add_right_of_le (k := 2) hlow
  dsimp only
  split
  · exact (write h1 _).bind fun _ => write hlow _
  · split
    · exact fail _
    · exact fail _
    · exact fail _
    · exact (write h1 _).bind fun _ => (write h2 _).bind fun _ => write hlow _

theorem captureAll (acc : Array Nat) {us : List UpvalueDesc} (hlow : low ≤ f.base)
    (hP : ∀ u ∈ us, u.inStack = true → P (f.base + u.index.toNat)) :
    Spares low P (captureAll f acc us) := by
  induction us generalizing acc with
  | nil => exact pure acc
  | cons u us ih =>
    obtain ⟨hu, hus⟩ := List.forall_mem_cons.mp hP
    unfold Exec.captureAll
    split
    · next hin => exact (capture (Nat.le_add_right_of_le hlow) (hu hin)).bind fun _ => ih _ hus
    · exact (upvalue _).bind fun _ => ih _ hus

theorem makeClosure {ra k : Nat} (hra : low ≤ ra) (hlow : low ≤ f.base)
    (hP : ∀ p, f.proto.protos[k]? = some p → ∀ u ∈ p.upvalues, u.inStack = true → P (f.base + u.index.toNat)) :
    Spares low P (makeClosure f ra k) := by
  unfold Exec.makeClosure
  split
  · next p hp =>
    exact (captureAll #[] hlow (hP p hp)).bind fun _ => (newFunction _).bind fun _ => write hra _
  · exact fail _

theorem failCall (slot : Nat) (v : Value) : Spares low P (failCall slot v : Exec α) :=
  get.bind fun m => by
    split
    · split
      · exact fail _
      · exact failWith _
    · exact failWith _

end Spares

end Exec

end LuaMachine
