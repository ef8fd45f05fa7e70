/-
  SAFE STEPS. A step is safe if it reaches for nothing that is not there, leaves a whole machine behind,
  also when it fails, and fails for no reason that only broken code has.
-/
import LuaMachine.Proofs.Machine.Whole

namespace LuaMachine

/-! ## 1. Failures -/

def RuntimeFault.isInternal : RuntimeFault → Bool
  | ranPastEnd | loadWithoutIndex | storeWithoutIndex | noUpvalue _ | noFunction => true
  | _ => false

def Failure.Known (s : Sizes) : Failure → Prop
  | .raised v => v.Known s
  | _ => True

def Failure.isInternal : Failure → Bool
  | .runtime _ f => f.isInternal
  | _ => false

def Failure.Sane (s : Sizes) (f : Failure) : Prop := f.Known s ∧ f.isInternal = false

theorem Failure.Known.mono {s s' : Sizes} {f : Failure} (h : f.Known s) (hs : s.Le s') : f.Known s' := by
  cases f with
  | raised v => exact Value.Known.mono h hs
  | _ => trivial

theorem Failure.Known.toValue {s : Sizes} {f : Failure} (h : f.Known s) : f.toValue.Known s := by
  cases f with
  | raised v => exact h
  | _ => trivial

/-! ## 2. Steps -/

structure Machine.Calm (m m' : Machine) : Prop where
  sizes : m.sizes.Le m'.sizes
  frames : m'.frames = m.frames
  activations : m'.activations = m.activations

theorem Machine.Calm.refl (m : Machine) : m.Calm m := ⟨.refl _, rfl, rfl⟩

theorem Machine.Calm.trans {m1 m2 m3 : Machine} (h : m1.Calm m2) (h' : m2.Calm m3) : m1.Calm m3 :=
  ⟨h.sizes.trans h'.sizes, h'.frames.trans h.frames, h'.activations.trans h.activations⟩

theorem Machine.Calm.stack {m m' : Machine} (h : m.Calm m') : m.stack.size ≤ m'.stack.size :=
  h.sizes.stack

namespace Exec

def Meets {α : Type} (S : Prop) (E : Failure → Machine → Prop) (x : Exec α) (m : Machine)
    (Q : α → Machine → Prop) : Prop :=
  match x m with
  | .ok a m' => Q a m'
  | .error (.fault f) m' => E f m'
  | .error .stuck _ => S

def Safe {α : Type} (S : Prop) (x : Exec α) (m : Machine) (Q : α → Machine → Prop) : Prop :=
  Meets S (fun f m' => m'.Whole ∧ m.Calm m' ∧ f.Sane m'.sizes) x m
    fun a m' => m'.Whole ∧ m.Calm m' ∧ Q a m'

section

variable {α β : Type} {S : Prop} {E E' : Failure → Machine → Prop} {x : Exec α} {k : α → Exec β}
  {m : Machine} {Q Q' : α → Machine → Prop} {R : β → Machine → Prop}

theorem Meets.imp (h : Meets S E x m Q) (hE : ∀ f m', E f m' → E' f m') (hQ : ∀ a m', Q a m' → Q' a m') :
    Meets S E' x m Q' := by
  unfold Meets at *
  split at h
  · exact hQ _ _ h
  · exact hE _ _ h
  · exact h

theorem Meets.bind (h : Meets S E x m fun a m' => Meets S E (k a) m' R) : Meets S E (x >>= k) m R := by
  show match EStateM.bind x k m with
    | .ok a m' => R a m'
    | .error (.fault f) m' => E f m'
    | .error .stuck _ => S
  unfold EStateM.bind
  unfold Meets at h
  split at h
  · next hx =>
    rw [hx]
    exact h
  · next hx =>
    rw [hx]
    exact h
  · next hx =>
    rw [hx]
    exact h

theorem Meets.of_ok {a : α} {m' : Machine} (hx : x m = .ok a m') (h : Q a m') : Meets S E x m Q := by
  unfold Meets
  rw [hx]
  exact h

theorem Meets.get {k : Machine → Exec β} (h : Meets S E (k m) m R) : Meets S E (MonadState.get >>= k) m R := h

theorem Meets.set {m' : Machine} {k : PUnit → Exec β} (h : Meets S E (k ⟨⟩) m' R) :
    Meets S E (MonadStateOf.set m' >>= k) m R := h

theorem Safe.meets (h : Safe S x m Q)
    (hE : ∀ f m', m'.Whole → m.Calm m' → f.Sane m'.sizes → E f m')
    (hQ : ∀ a m', m'.Whole → m.Calm m' → Q a m' → Q' a m') : Meets S E x m Q' :=
  Meets.imp h (fun f m' h => hE f m' h.1 h.2.1 h.2.2) fun a m' h => hQ a m' h.1 h.2.1 h.2.2

theorem Safe.bind (h : Safe S x m Q)
    (hk : ∀ a m', m'.Whole → m.Calm m' → Q a m' → Safe S (k a) m' R) : Safe S (x >>= k) m R := by
  refine Meets.bind (h.meets (fun f m' hw hc hf => ⟨hw, hc, hf⟩) fun a m' hw hc hq => ?_)
  exact (hk a m' hw hc hq).meets (fun f m'' hw' hc' hf => ⟨hw', hc.trans hc', hf⟩)
    fun b m'' hw' hc' hr => ⟨hw', hc.trans hc', hr⟩

theorem Safe.imp (h : Safe S x m Q) (hQ : ∀ a m', m'.Whole → m.Calm m' → Q a m' → Q' a m') :
    Safe S x m Q' :=
  h.meets (fun _ _ hw hc hf => ⟨hw, hc, hf⟩) fun a m' hw hc hq => ⟨hw, hc, hQ a m' hw hc hq⟩

theorem Safe.pure {a : α} (hm : m.Whole) (h : Q a m) : Safe S (Pure.pure a) m Q := ⟨hm, .refl m, h⟩

theorem Safe.failWith {f : Failure} (hm : m.Whole) (hf : f.Sane m.sizes) :
    Safe S (failWith f : Exec α) m Q := ⟨hm, .refl m, hf⟩

theorem Safe.fail {f : RuntimeFault} (hm : m.Whole) (hf : f.isInternal = false) :
    Safe S (fail f : Exec α) m Q := ⟨hm, .refl m, trivial, hf⟩

theorem Safe.get {k : Machine → Exec β} (h : Safe S (k m) m R) : Safe S (MonadState.get >>= k) m R := h

theorem Safe.update {g : Machine → Machine} {R : Unit → Machine → Prop} (hg : (g m).Whole)
    (hc : m.Calm (g m)) (h : R () (g m)) : Safe S (modify g) m R := ⟨hg, hc, h⟩

theorem Safe.need {o : Option α} {a : α} (ho : o = some a) (h : Safe S (k a) m R) :
    Safe S (need o >>= k) m R := by
  subst ho
  exact h

end

/-! ## 3. The stack -/

section

variable {S : Prop} {m : Machine} {i n : Nat} {v : Value} {vs : List Value}

theorem Safe.ensure (hm : m.Whole) (n : Nat) :
    Safe S (ensure n) m fun _ m' => n ≤ m'.stack.size := by
  by_cases h : m.stack.size < n
  · have hsize : m.stack.size ≤ (m.stack ++ Array.replicate (n - m.stack.size) Value.nil).size := by
      rw [Array.size_append]
      omega
    refine Safe.update ?_ ?_ ?_ <;> rw [if_pos h]
    · refine hm.withStack hsize fun v hv => ?_
      obtain hv | hv := Array.mem_append.mp hv
      · exact hm.stack v hv
      · rw [(Array.mem_replicate.mp hv).2]
        trivial
    · exact ⟨⟨hsize, Nat.le_refl _, Nat.le_refl _, Nat.le_refl _⟩, rfl, rfl⟩
    · show n ≤ (m.stack ++ Array.replicate (n - m.stack.size) Value.nil).size
      rw [Array.size_append, Array.size_replicate]
      omega
  · refine Safe.update ?_ ?_ ?_ <;> rw [if_neg h]
    · exact hm
    · exact .refl m
    · omega

theorem Safe.read (hm : m.Whole) (h : ¬ S → i < m.stack.size) :
    Safe S (read i) m fun v m' => v.Known m'.sizes := by
  refine Safe.get ?_
  cases hv : m.stack[i]? with
  | none =>
    show S
    have := Array.getElem?_eq_none_iff.mp hv
    exact Classical.byContradiction fun hs => by
      have := h hs
      omega
  | some v => exact Safe.pure hm (hm.stack v (Array.mem_of_getElem? hv))

theorem Safe.write (hm : m.Whole) (h : ¬ S → i < m.stack.size) (hv : v.Known m.sizes) :
    Safe S (write i v) m fun _ _ => True := by
  unfold Safe Meets Exec.write
  split
  · next hw =>
    split at hw
    · next hi =>
      cases hw
      have hsize : m.stack.size ≤ (m.stack.set i v).size := Nat.le_of_eq (by rw [Array.size_set])
      refine ⟨hm.withStack hsize fun w hw => ?_, ⟨⟨hsize, Nat.le_refl _, Nat.le_refl _, Nat.le_refl _⟩, rfl, rfl⟩, trivial⟩
      obtain hw | rfl := Array.mem_or_eq_of_mem_set hw
      · exact hm.stack w hw
      · exact hv
    · cases hw
  · next hw =>
    split at hw <;> cases hw
  · next hw =>
    split at hw
    · cases hw
    · next hi => exact Classical.byContradiction fun hs => hi (h hs)

theorem Safe.readMany (hm : m.Whole) (h : ¬ S → i + n ≤ m.stack.size) :
    Safe S (readMany i n) m fun vs m' => vs.length = n ∧ ∀ v ∈ vs, v.Known m'.sizes := by
  refine Safe.get ?_
  split
  · next hi =>
    refine Safe.pure hm ⟨?_, fun v hv => ?_⟩
    · rw [Array.length_toList, Array.size_extract]
      omega
    · obtain ⟨k, hk⟩ := Array.mem_iff_getElem?.mp (Array.mem_toList_iff.mp hv)
      rw [Array.getElem?_extract] at hk
      split at hk
      · exact hm.stack v (Array.mem_of_getElem? hk)
      · cases hk
  · next hi => exact Classical.byContradiction fun hs => hi (h hs)

theorem Safe.writeMany (hm : m.Whole) (h : i + vs.length ≤ m.stack.size)
    (hv : ∀ v ∈ vs, v.Known m.sizes) : Safe S (writeMany i vs) m fun _ _ => True := by
  induction vs generalizing i m with
  | nil => exact Safe.pure hm trivial
  | cons v vs ih =>
    obtain ⟨hv, hvs⟩ := List.forall_mem_cons.mp hv
    rw [List.length_cons] at h
    refine (Safe.write hm (fun _ => by omega) hv).bind fun _ m' hm' hc _ => ?_
    have := hc.stack
    exact ih hm' (by omega) fun w hw => (hvs w hw).mono hc.sizes

theorem Safe.clear (hm : m.Whole) (h : i + n ≤ m.stack.size) : Safe S (clear i n) m fun _ _ => True := by
  induction n generalizing m with
  | zero => exact Safe.pure hm trivial
  | succ n ih =>
    refine (Safe.write (v := .nil) hm (fun _ => by omega) trivial).bind fun _ m' hm' hc _ => ?_
    have := hc.stack
    exact ih hm' (by omega)

theorem adjust_known {s : Sizes} (hv : ∀ v ∈ vs, v.Known s) : ∀ v ∈ adjust n vs, v.Known s := by
  intro v hm
  obtain hm | hm := List.mem_append.mp hm
  · exact hv v (List.mem_of_mem_take hm)
  · rw [(List.mem_replicate.mp hm).2]
    trivial

theorem length_adjust : (adjust n vs).length = n := by
  simp only [adjust, List.length_append, List.length_take, List.length_replicate]
  omega

theorem Safe.place (hm : m.Whole) (hv : ∀ v ∈ vs, v.Known m.sizes) (wanted : Option Nat) :
    Safe S (place i vs wanted) m fun _ _ => True := by
  cases wanted with
  | some n =>
    refine (Safe.ensure hm (i + n)).bind fun _ m' hm' hc hn => ?_
    exact Safe.writeMany hm' (by rw [length_adjust]; exact hn)
      (adjust_known fun v hm => (hv v hm).mono hc.sizes)
  | none =>
    refine (Safe.ensure hm (i + vs.length)).bind fun _ m1 hm1 hc1 hn => ?_
    refine (Safe.writeMany hm1 hn fun v hm => (hv v hm).mono hc1.sizes).bind fun _ m2 hm2 hc2 _ => ?_
    have htop : i + vs.length ≤ m2.stack.size := Nat.le_trans hn hc2.sizes.stack
    exact Safe.update (hm2.withControl hm2.frames hm2.activations htop) ⟨.refl _, rfl, rfl⟩ trivial

end

/-! ## 4. Cells -/

section

variable {S : Prop} {m : Machine} {c slot level : Nat} {v : Value}

theorem Safe.readCell (hm : m.Whole) (h : c < m.cells.size) :
    Safe S (readCell c) m fun v m' => v.Known m'.sizes := by
  have hc := hm.cells _ (Array.getElem_mem h)
  refine Safe.get (Safe.need (Array.getElem?_eq_getElem h) ?_)
  generalize m.cells[c] = cell at hc
  cases cell with
  | live slot => exact Safe.read hm fun _ => hc
  | closed v => exact Safe.pure hm hc

theorem mem_modify {α : Type} {xs : Array α} {n : Nat} {g : α → α} {x : α} (h : x ∈ xs.modify n g) :
    x ∈ xs ∨ ∃ y ∈ xs, x = g y := by
  obtain ⟨k, hk⟩ := Array.mem_iff_getElem?.mp h
  rw [Array.getElem?_modify] at hk
  split at hk
  · obtain ⟨y, hy, rfl⟩ := Option.map_eq_some_iff.mp hk
    exact .inr ⟨y, Array.mem_of_getElem? hy, rfl⟩
  · exact .inl (Array.mem_of_getElem? hk)

theorem Safe.closeCell (hm : m.Whole) (hv : v.Known m.sizes) :
    Safe S (modify fun m => { m with cells := m.cells.modify c fun _ => .closed v }) m
      fun _ m' => m'.openCells = m.openCells := by
  have hsize : (m.cells.modify c fun _ => .closed v).size = m.cells.size := Array.size_modify
  refine Safe.update (hm.withCells (Nat.le_of_eq hsize.symm) fun d hd => ?_)
    ⟨⟨Nat.le_refl _, Nat.le_of_eq hsize.symm, Nat.le_refl _, Nat.le_refl _⟩, rfl, rfl⟩ rfl
  obtain hd | ⟨_, _, rfl⟩ := mem_modify hd
  · exact hm.cells d hd
  · exact hv

theorem Safe.writeCell (hm : m.Whole) (h : c < m.cells.size) (hv : v.Known m.sizes) :
    Safe S (writeCell c v) m fun _ _ => True := by
  have hc := hm.cells _ (Array.getElem_mem h)
  refine Safe.get (Safe.need (Array.getElem?_eq_getElem h) ?_)
  generalize m.cells[c] = cell at hc
  cases cell with
  | live slot => exact Safe.write hm (fun _ => hc) hv
  | closed w => exact (Safe.closeCell hm hv).imp fun _ _ _ _ _ => trivial

theorem Safe.newCell {cell : Cell} (hm : m.Whole) (hc : cell.Known m.sizes) :
    Safe S (newCell cell) m fun c m' => c < m'.cells.size ∧ m'.openCells = m.openCells := by
  have hsize : (m.cells.push cell).size = m.cells.size + 1 := Array.size_push ..
  refine ⟨hm.withCells (by omega) fun d hd => ?_,
    ⟨⟨Nat.le_refl _, ?_, Nat.le_refl _, Nat.le_refl _⟩, rfl, rfl⟩, ?_, rfl⟩
  · obtain hd | rfl := Array.mem_push.mp hd
    · exact hm.cells d hd
    · exact hc
  · show m.cells.size ≤ (m.cells.push cell).size
    omega
  · show m.cells.size < (m.cells.push cell).size
    omega

theorem findOpen_mem {es : List (Nat × Nat)} (h : findOpen slot es = some c) : (slot, c) ∈ es := by
  induction es with
  | nil => cases h
  | cons e es ih =>
    unfold findOpen at h
    split at h
    · next hs =>
      cases h
      subst hs
      exact List.mem_cons_self ..
    · exact List.mem_cons_of_mem _ (ih h)

theorem mem_insertOpen {es : List (Nat × Nat)} {e : Nat × Nat} (h : e ∈ insertOpen slot c es) :
    e = (slot, c) ∨ e ∈ es := by
  induction es with
  | nil => exact .inl (List.mem_singleton.mp h)
  | cons d es ih =>
    unfold insertOpen at h
    split at h
    · exact List.mem_cons.mp h
    · obtain rfl | h := List.mem_cons.mp h
      · exact .inr (List.mem_cons_self ..)
      · exact (ih h).imp_right (List.mem_cons_of_mem _)

theorem Safe.capture (hm : m.Whole) (h : slot < m.stack.size) :
    Safe S (capture slot) m fun c m' => c < m'.cells.size := by
  refine Safe.get ?_
  cases hf : findOpen slot m.openCells with
  | some c => exact Safe.pure hm (hm.openCells _ (findOpen_mem hf)).2
  | none =>
    have hcell : (Cell.live slot).Known m.sizes := h
    refine (Safe.newCell hm hcell).bind fun c m' hm' hcalm ⟨hc, hopen⟩ => ?_
    refine Safe.bind (Safe.update (R := fun _ m'' => c < m''.cells.size)
      (hm'.withOpenCells fun e he => ?_) ⟨.refl _, rfl, rfl⟩ hc) fun _ m'' hm'' _ hc' => Safe.pure hm'' hc'
    obtain rfl | he := mem_insertOpen he
    · exact ⟨Nat.lt_of_lt_of_le h hcalm.stack, hc⟩
    · exact hm'.openCells e he

theorem read_eq {i : Nat} (h : i < m.stack.size) : Exec.read i m = .ok m.stack[i] m := by
  show Exec.need m.stack[i]? m = _
  rw [Array.getElem?_eq_getElem h]
  rfl

theorem closeFrom_ok (level : Nat) (hm : m.Whole) {es : List (Nat × Nat)} (h : ∀ e ∈ es, e.1 < m.stack.size) :
    ∃ es' m', closeFrom level es m = .ok es' m' ∧ m'.Whole ∧ m.Calm m' ∧ ∀ e ∈ es', e ∈ es := by
  induction es generalizing m with
  | nil => exact ⟨[], m, rfl, hm, .refl m, fun _ he => he⟩
  | cons e es ih =>
    obtain ⟨he, hes⟩ := List.forall_mem_cons.mp h
    by_cases hlt : e.1 < level
    · exact ⟨e :: es, m, by rw [Exec.closeFrom, if_pos hlt]; rfl, hm, .refl m, fun _ he => he⟩
    · obtain ⟨hm1, hc1, _⟩ := Safe.closeCell (S := False) (c := e.2) hm
        (hm.stack _ (Array.getElem_mem he))
      obtain ⟨es', m', hok, hm', hc', hsub⟩ := ih hm1 hes
      refine ⟨es', m', ?_, hm', hc1.trans hc', fun e' he' => List.mem_cons_of_mem _ (hsub e' he')⟩
      rw [Exec.closeFrom, if_neg hlt, ← hok]
      show EStateM.bind (Exec.read e.1) _ m = _
      rw [EStateM.bind, read_eq he]
      rfl

theorem close_ok (hm : m.Whole) (level : Nat) :
    ∃ m', close level m = .ok () m' ∧ m'.Whole ∧ m.Calm m' := by
  obtain ⟨es, m', hok, hm', hcalm, hsub⟩ := closeFrom_ok level hm fun e he => (hm.openCells e he).1
  refine ⟨{ m' with openCells := es }, ?_, hm'.withOpenCells fun e he => ?_,
    hcalm.trans ⟨.refl _, rfl, rfl⟩⟩
  · show EStateM.bind (closeFrom level m.openCells) _ m = _
    rw [EStateM.bind, hok]
    rfl
  · have := hm.openCells e (hsub e he)
    exact ⟨Nat.lt_of_lt_of_le this.1 hcalm.stack, Nat.lt_of_lt_of_le this.2 hcalm.sizes.cells⟩

theorem Safe.close (hm : m.Whole) : Safe S (close level) m fun _ _ => True := by
  obtain ⟨m', hok, hm', hcalm⟩ := close_ok hm level
  unfold Safe Meets
  rw [hok]
  exact ⟨hm', hcalm, trivial⟩

end

/-! ## 5. Tables and functions -/

section

variable {S : Prop} {m : Machine} {id : Nat} {key v : Value}

theorem Safe.newTable {t : Table} (hm : m.Whole) (ht : t.Holds (Value.Known m.sizes)) :
    Safe S (newTable t) m fun v m' => v.Known m'.sizes := by
  have hsize : (m.tables.push t).size = m.tables.size + 1 := Array.size_push ..
  refine ⟨hm.withTables (by omega) fun u hu => ?_,
    ⟨⟨Nat.le_refl _, Nat.le_refl _, ?_, Nat.le_refl _⟩, rfl, rfl⟩, ?_⟩
  · obtain hu | rfl := Array.mem_push.mp hu
    · exact hm.tables u hu
    · exact ht
  · show m.tables.size ≤ (m.tables.push t).size
    omega
  · show m.tables.size < (m.tables.push t).size
    omega

theorem Safe.newFunction {f : Function} (hm : m.Whole) (hf : f.Known m.sizes) :
    Safe S (newFunction f) m fun v m' => v.Known m'.sizes := by
  have hsize : (m.functions.push f).size = m.functions.size + 1 := Array.size_push ..
  refine ⟨hm.withFunction hf, ⟨⟨Nat.le_refl _, Nat.le_refl _, Nat.le_refl _, ?_⟩, rfl, rfl⟩, ?_⟩
  · show m.functions.size ≤ (m.functions.push f).size
    omega
  · show m.functions.size < (m.functions.push f).size
    omega

theorem Safe.table (hm : m.Whole) (h : id < m.tables.size) :
    Safe S (table id) m fun t m' => t.Holds (Value.Known m'.sizes) := by
  have ht := hm.tables _ (Array.getElem_mem h)
  refine Safe.get ?_
  rw [Array.getElem?_eq_getElem h]
  exact Safe.pure hm ht

theorem Safe.changeTable {g : Table → Table} (hm : m.Whole)
    (hg : ∀ t, t.Holds (Value.Known m.sizes) → (g t).Holds (Value.Known m.sizes)) :
    Safe S (modify fun m => { m with tables := m.tables.modify id g }) m fun _ _ => True := by
  have hsize : (m.tables.modify id g).size = m.tables.size := Array.size_modify
  refine Safe.update (hm.withTables (Nat.le_of_eq hsize.symm) fun t ht => ?_)
    ⟨⟨Nat.le_refl _, Nat.le_refl _, Nat.le_of_eq hsize.symm, Nat.le_refl _⟩, rfl, rfl⟩ trivial
  obtain ht | ⟨u, hu, rfl⟩ := mem_modify ht
  · exact hm.tables t ht
  · exact hg u (hm.tables u hu)

theorem Safe.setKey (hm : m.Whole) (hk : key.Known m.sizes) (hv : v.Known m.sizes) :
    Safe S (setKey id key v) m fun _ _ => True := by
  unfold Exec.setKey
  split
  · exact Safe.fail hm rfl
  · exact Safe.changeTable hm fun t ht => ht.setInt trivial (fun _ => trivial) hv _
  · next k hn =>
    exact Safe.changeTable hm fun t ht => ht.setEntry (Table.normalize_of (fun _ => trivial) hk hn) hv

theorem Safe.newCells (hm : m.Whole) (hv : v.Known m.sizes) {acc : Array Nat} {us : List UpvalueDesc}
    (hacc : ∀ c ∈ acc, c < m.cells.size) :
    Safe S (newCells v acc us) m fun cells m' =>
      cells.size = acc.size + us.length ∧ ∀ c ∈ cells, c < m'.cells.size := by
  induction us generalizing m v acc with
  | nil => exact Safe.pure hm ⟨rfl, hacc⟩
  | cons u us ih =>
    have hcell : (Cell.closed v).Known m.sizes := hv
    refine (Safe.newCell hm hcell).bind fun c m' hm' hcalm ⟨hc, _⟩ => ?_
    refine (ih (v := .nil) hm' trivial fun d hd => ?_).imp fun cells _ _ _ ⟨hsize, hcells⟩ => ⟨?_, hcells⟩
    · obtain hd | rfl := Array.mem_push.mp hd
      · exact Nat.lt_of_lt_of_le (hacc d hd) hcalm.sizes.cells
      · exact hc
    · rw [hsize, Array.size_push, List.length_cons]
      omega

theorem Safe.ofMain {p : Proto} (hm : m.Whole) (hp : p.All Proto.Viable) (hv : v.Known m.sizes) :
    Safe S (ofMain p v) m fun f m' => f.Known m'.sizes := by
  refine (Safe.newCells hm hv (by simp)).bind fun cells m' hm' _ ⟨hsize, hcells⟩ => ?_
  exact Safe.newFunction hm' ⟨hp, by simpa using hsize, hcells⟩

end

end Exec

end LuaMachine
