/-
  WHAT WORK ON THE STACK COMES TO. As long as there is room, values are read and written; behind the last
  place, room is made.
-/
import LuaMachine.Proofs.Machine.Safe

namespace LuaMachine.Exec

variable {α β : Type} {m m' : Machine} {start n : Nat}

theorem bind_of_ok {x : Exec α} {k : α → Exec β} {a : α} (h : x m = .ok a m') : (x >>= k) m = k a m' := by
  show EStateM.bind x k m = _
  rw [EStateM.bind, h]

theorem ensure_ok (n : Nat) (m : Machine) :
    ∃ stack, Exec.ensure n m = .ok () { m with stack := stack } ∧ n ≤ stack.size ∧ m.stack.size ≤ stack.size ∧
      ∀ i < m.stack.size, stack[i]? = m.stack[i]? := by
  by_cases h : m.stack.size < n
  · refine ⟨m.stack ++ Array.replicate (n - m.stack.size) .nil, ?_, ?_, ?_, fun i hi => ?_⟩
    · show EStateM.Result.ok () (if m.stack.size < n then _ else _) = _
      rw [if_pos h]
    · rw [Array.size_append, Array.size_replicate]
      omega
    · rw [Array.size_append]
      omega
    · exact Array.getElem?_append_left hi
  · refine ⟨m.stack, ?_, Nat.le_of_not_lt h, Nat.le_refl _, fun _ _ => rfl⟩
    show EStateM.Result.ok () (if m.stack.size < n then _ else _) = _
    rw [if_neg h]

theorem read_ok {i : Nat} {v : Value} (h : m.stack[i]? = some v) : Exec.read i m = .ok v m := by
  show Exec.need m.stack[i]? m = _
  rw [h]
  rfl

theorem write_ok {i : Nat} {v : Value} (h : i < m.stack.size) :
    Exec.write i v m = .ok () { m with stack := m.stack.set i v } := dif_pos h

theorem writeMany_ok {vs : List Value} (h : start + vs.length ≤ m.stack.size) :
    ∃ stack, Exec.writeMany start vs m = .ok () { m with stack := stack } ∧ stack.size = m.stack.size ∧
      (∀ i < start, stack[i]? = m.stack[i]?) ∧ ∀ k < vs.length, stack[start + k]? = vs[k]? := by
  induction vs generalizing start m with
  | nil => exact ⟨m.stack, rfl, rfl, fun _ _ => rfl, nofun⟩
  | cons v vs ih =>
    rw [List.length_cons] at h
    have hlt : start < m.stack.size := by omega
    have hroom : start + 1 + vs.length ≤ (m.stack.set start v).size := by
      rw [Array.size_set]
      omega
    obtain ⟨stack, hok, hsize, hlow, hnew⟩ := ih (m := { m with stack := m.stack.set start v }) hroom
    refine ⟨stack, ?_, ?_, fun i hi => ?_, fun k hk => ?_⟩
    · unfold Exec.writeMany
      rw [bind_of_ok (write_ok hlt), hok]
    · rw [hsize, Array.size_set]
    · rw [hlow i (by omega), Array.getElem?_set, if_neg (by omega)]
    · cases k with
      | zero => rw [Nat.add_zero, hlow start (by omega), Array.getElem?_set, if_pos rfl, List.getElem?_cons_zero]
      | succ k =>
        rw [List.length_cons] at hk
        rw [List.getElem?_cons_succ, ← hnew k (by omega), Nat.add_assoc, Nat.add_comm 1 k]

theorem clear_ok (h : start + n ≤ m.stack.size) :
    ∃ stack, Exec.clear start n m = .ok () { m with stack := stack } ∧ stack.size = m.stack.size ∧
      (∀ k < n, stack[start + k]? = some .nil) ∧ ∀ i, i < start ∨ start + n ≤ i → stack[i]? = m.stack[i]? := by
  induction n generalizing m with
  | zero => exact ⟨m.stack, rfl, rfl, fun _ h => absurd h (Nat.not_lt_zero _), fun _ _ => rfl⟩
  | succ n ih =>
    have hlt : start + n < m.stack.size := by omega
    have hroom : start + n ≤ (m.stack.set (start + n) .nil).size := by
      rw [Array.size_set]
      omega
    obtain ⟨stack, hok, hsize, hnil, hsame⟩ := ih (m := { m with stack := m.stack.set (start + n) .nil }) hroom
    refine ⟨stack, ?_, by rw [hsize, Array.size_set], fun k hk => ?_, fun i hi => ?_⟩
    · unfold Exec.clear
      rw [bind_of_ok (write_ok hlt), hok]
    · obtain hk | rfl := Nat.lt_succ_iff_lt_or_eq.mp hk
      · exact hnil k hk
      · exact (hsame (start + k) (.inr (Nat.le_refl _))).trans (Array.getElem?_set_self hlt)
    · have hi' : i < start ∨ start + n ≤ i := hi.imp_right fun h => by omega
      have hne : start + n ≠ i := by omega
      exact (hsame i hi').trans (Array.getElem?_set_ne hlt hne)

theorem readMany_ok (vs : List Value) (h : start + vs.length ≤ m.stack.size)
    (hv : ∀ k < vs.length, m.stack[start + k]? = vs[k]?) : Exec.readMany start vs.length m = .ok vs m := by
  have hread : (m.stack.extract start (start + vs.length)).toList = vs := by
    refine List.ext_getElem? fun k => ?_
    rw [Array.getElem?_toList, Array.getElem?_extract, Nat.min_eq_left h, Nat.add_sub_cancel_left]
    split
    · next hk => exact hv k hk
    · next hk => rw [List.getElem?_eq_none (Nat.le_of_not_lt hk)]
  show (if start + vs.length ≤ m.stack.size then _ else stuck : Exec (List Value)) m = _
  rw [if_pos h, hread]
  rfl

theorem getElem?_adjust {vs : List Value} {r : Nat} (hr : r < n) : (Exec.adjust n vs)[r]? = some (vs[r]?.getD .nil) := by
  unfold Exec.adjust
  by_cases hlt : r < vs.length
  · have htake : r < (vs.take n).length := by
      rw [List.length_take]
      omega
    rw [List.getElem?_append_left htake, List.getElem?_take_of_lt hr, List.getElem?_eq_getElem hlt, Option.getD_some]
  · have htake : (vs.take n).length ≤ r := Nat.le_trans (List.length_take_le' ..) (Nat.le_of_not_lt hlt)
    rw [List.getElem?_append_right htake, List.getElem?_eq_none (Nat.le_of_not_lt hlt), Option.getD_none,
      List.getElem?_replicate, List.length_take, if_pos (by omega)]

def granted (vs : List Value) : Option Nat → List Value
  | some n => adjust n vs
  | none => vs

theorem place_all (dest : Nat) (vs : List Value) (wanted : Option Nat) (m : Machine) :
    ∃ stack, Exec.place dest vs wanted m =
        .ok () { m with stack := stack, top := if wanted.isSome then m.top else dest + vs.length } ∧
      dest + (granted vs wanted).length ≤ stack.size ∧ m.stack.size ≤ stack.size ∧
      (∀ i < dest, i < m.stack.size → stack[i]? = m.stack[i]?) ∧
      ∀ k < (granted vs wanted).length, stack[dest + k]? = (granted vs wanted)[k]? := by
  -- room is made for the values, then they are written
  have hboth : ∀ ws : List Value, ∃ stack, (do Exec.ensure (dest + ws.length); Exec.writeMany dest ws : Exec Unit) m =
      .ok () { m with stack := stack } ∧ dest + ws.length ≤ stack.size ∧ m.stack.size ≤ stack.size ∧
      (∀ i < dest, i < m.stack.size → stack[i]? = m.stack[i]?) ∧ ∀ k < ws.length, stack[dest + k]? = ws[k]? := by
    intro ws
    obtain ⟨stack1, hok1, hroom, hsize1, hold1⟩ := ensure_ok (dest + ws.length) m
    obtain ⟨stack, hok, hsize, hlow, hnew⟩ := writeMany_ok (m := { m with stack := stack1 }) hroom
    have hsize' : stack.size = stack1.size := hsize
    refine ⟨stack, (bind_of_ok hok1).trans hok, by omega, by omega, fun i hi hlt => ?_, hnew⟩
    exact (hlow i hi).trans (hold1 i hlt)
  cases wanted with
  | some n =>
    obtain ⟨stack, hok, h⟩ := hboth (adjust n vs)
    refine ⟨stack, ?_, h⟩
    rw [length_adjust] at hok
    exact hok
  | none =>
    obtain ⟨stack, hok, h⟩ := hboth vs
    refine ⟨stack, ?_, h⟩
    show (do
      Exec.ensure (dest + vs.length)
      Exec.writeMany dest vs
      modify fun m => { m with top := dest + vs.length } : Exec Unit) m = _
    have hassoc : (do
        Exec.ensure (dest + vs.length)
        Exec.writeMany dest vs
        modify fun m => { m with top := dest + vs.length } : Exec Unit) = (do
        (do Exec.ensure (dest + vs.length); Exec.writeMany dest vs)
        modify fun m => { m with top := dest + vs.length }) := (bind_assoc _ _ _).symm
    rw [hassoc, bind_of_ok hok]
    rfl

theorem closeFrom_all (level : Nat) {es : List (Nat × Nat)} (h : ∀ e ∈ es, e.1 < m.stack.size) :
    ∃ es' cells, es' <:+ es ∧ ∀ n : Machine, n.cells = m.cells → (∀ e ∈ es, n.stack[e.1]? = m.stack[e.1]?) →
      Exec.closeFrom level es n = .ok es' { n with cells := cells } := by
  induction es generalizing m with
  | nil => exact ⟨[], m.cells, List.suffix_rfl, fun n hc _ => by rw [← hc]; rfl⟩
  | cons e es ih =>
    obtain ⟨he, hes⟩ := List.forall_mem_cons.mp h
    by_cases hlt : e.1 < level
    · refine ⟨e :: es, m.cells, List.suffix_rfl, fun n hc _ => ?_⟩
      rw [Exec.closeFrom, if_pos hlt, ← hc]
      rfl
    · obtain ⟨es', cells, hsub, hall⟩ :=
        ih (m := { m with cells := m.cells.modify e.2 fun _ => .closed m.stack[e.1] }) hes
      refine ⟨es', cells, hsub.trans (List.suffix_cons ..), fun n hc hs => ?_⟩
      obtain ⟨hfirst, hs⟩ := List.forall_mem_cons.mp hs
      rw [Exec.closeFrom, if_neg hlt, bind_of_ok (read_ok (hfirst.trans (Array.getElem?_eq_getElem he)))]
      exact hall { n with cells := n.cells.modify e.2 fun _ => .closed m.stack[e.1] } (by rw [hc]) hs

theorem close_all (level : Nat) (h : ∀ e ∈ m.openCells, e.1 < m.stack.size) :
    ∃ es cells, es <:+ m.openCells ∧ ∀ n : Machine, n.cells = m.cells → n.openCells = m.openCells →
      (∀ e ∈ m.openCells, n.stack[e.1]? = m.stack[e.1]?) →
        Exec.close level n = .ok () { n with openCells := es, cells := cells } := by
  obtain ⟨es, cells, hsub, hall⟩ := closeFrom_all level h
  refine ⟨es, cells, hsub, fun n hc ho hs => ?_⟩
  show (Exec.closeFrom level n.openCells >>= _) n = _
  rw [ho, bind_of_ok (hall n hc hs)]
  rfl

theorem capture_found {slot c : Nat} (h : findOpen slot m.openCells = some c) : Exec.capture slot m = .ok c m := by
  unfold Exec.capture
  rw [bind_of_ok (show (get : Exec Machine) m = .ok m m from rfl)]
  simp only [h]
  rfl

theorem capture_new {slot : Nat} (h : findOpen slot m.openCells = none) :
    Exec.capture slot m = .ok m.cells.size
      { m with cells := m.cells.push (.live slot), openCells := insertOpen slot m.cells.size m.openCells } := by
  unfold Exec.capture
  rw [bind_of_ok (show (get : Exec Machine) m = .ok m m from rfl)]
  simp only [h]
  rfl

theorem endCall_of_frames {f : Frame} {rest : List Frame} {a : Activation} {as : List Activation} (vs : List Value)
    (hf : m.frames = f :: rest) (ha : m.activations = a :: as) :
    Exec.endCall vs m = (if rest.length ≤ a.depth then Pure.pure (.deliver vs) else do
      Exec.place f.slot vs f.wanted
      return .run : Exec Mode) { m with frames := rest } := by
  unfold Exec.endCall
  rw [bind_of_ok (show (get : Exec Machine) m = .ok m m from rfl)]
  simp only [hf, ha]
  rfl

end LuaMachine.Exec
