/-
  THE LENGTH OF A TABLE IS A BORDER: a place with a value, or 0, before a place without one. An array that
  ends with a hole is searched by halves; otherwise the entries are asked for the keys that follow the
  array, and have none of them.

  * `length_is_border` -- **whatever was written before, a table's length is a border**.
-/
import LuaMachine.Proofs.Value.TableMap

namespace LuaMachine

namespace Table

/-! ## 1. The searches -/

inductive Halves (array : Array Value) : Nat → Nat → Nat → Prop where
  | close {lo hi : Nat} (h : hi - lo ≤ 1) : Halves array lo hi lo
  | lower {lo hi n : Nat} (h : 1 < hi - lo) (hnil : (array[(lo + hi) / 2 - 1]?.getD .nil).isNil = true)
    (hn : Halves array lo ((lo + hi) / 2) n) : Halves array lo hi n
  | upper {lo hi n : Nat} (h : 1 < hi - lo) (hlive : (array[(lo + hi) / 2 - 1]?.getD .nil).isNil = false)
    (hn : Halves array ((lo + hi) / 2) hi n) : Halves array lo hi n

inductive Climbs (t : Table) : Nat → Nat → Prop where
  | stay {j : Nat} (h : (t.getEntry (.int (Int64.ofNat (j + 1)))).isNil = true) : Climbs t j j
  | rise {j n : Nat} (h : (t.getEntry (.int (Int64.ofNat (j + 1)))).isNil = false) (hn : Climbs t (j + 1) n) :
    Climbs t j n

inductive Measures (t : Table) : Nat → Prop where
  | halved {n : Nat} (h : t.array.back? = some .nil) (hn : Halves t.array 0 t.array.size n) : Measures t n
  | full (h : t.array.back? ≠ some .nil) (hfull : t.isFull = true) : Measures t t.array.size
  | climbed {n : Nat} (h : t.array.back? ≠ some .nil) (hfull : t.isFull = false) (hn : Climbs t t.array.size n) : Measures t n

structure IsBorder (t : Table) (j : Nat) : Prop where
  isKey : j ≤ Int64.maxValue.toInt
  live : j = 0 ∨ t.getInt (Int64.ofNat j) ≠ .nil
  hole : ∀ i : Int64, i.toInt = j + 1 → t.getInt i = .nil

variable {t : Table} {array : Array Value} {lo hi j n : Nat}

theorem search_halves (h : hi - lo ≤ n) : Halves array lo hi (search array n lo hi) := by
  induction n generalizing lo hi with
  | zero => exact .close (by omega)
  | succ n ih =>
    unfold search
    split
    · next hclose => exact .close hclose
    · next hfar =>
      have hfar : 1 < hi - lo := Nat.lt_of_not_le hfar
      dsimp only
      split
      · next hnil => exact .lower hfar hnil (ih (by omega))
      · next hlive => exact .upper hfar (Bool.eq_false_iff.mpr hlive) (ih (by omega))

/-! ## 2. Where they end -/

def Filled (array : Array Value) (j : Nat) : Prop := j = 0 ∨ (array[j - 1]?.getD .nil).isNil = false

theorem eq_nil_of_isNil {v : Value} (h : v.isNil = true) : v = .nil := by
  cases v with
  | nil => rfl
  | _ => cases h

theorem ne_nil_of_not_isNil {v : Value} (h : v.isNil = false) : v ≠ .nil := by
  intro hv
  rw [hv] at h
  cases h

theorem Halves.border (h : Halves array lo hi n) (hlt : lo < hi) (hlo : Filled array lo)
    (hhi : (array[hi - 1]?.getD .nil).isNil = true) :
    Filled array n ∧ (array[n]?.getD .nil).isNil = true ∧ n < hi := by
  induction h with
  | @close lo hi h =>
    rw [show hi - 1 = lo by omega] at hhi
    exact ⟨hlo, hhi, hlt⟩
  | lower h hnil _ ih =>
    obtain ⟨hfilled, hhole, hbelow⟩ := ih (by omega) hlo hnil
    exact ⟨hfilled, hhole, by omega⟩
  | upper h hlive _ ih => exact ih (by omega) (.inr hlive) hhi

theorem Valid.getEntry_next (h : t.Valid) (hfull : t.isFull = false) : (t.getEntry t.nextKey).isNil = true := by
  have hsize := isFull_iff.mp hfull
  rw [maxValue_toInt] at hsize
  have htoInt : (Int64.ofNat (t.array.size + 1)).toInt = (t.array.size : Int) + 1 := by
    rw [Int64.toInt_ofNat_of_lt (by omega)]
    rfl
  rw [nextKey, h.next _ htoInt]
  rfl

theorem Valid.climb_eq (h : t.Valid) (hfull : t.isFull = false) : climb t (t.entries.length + 1) t.array.size = t.array.size :=
  if_pos (h.getEntry_next hfull)

theorem Valid.measures (h : t.Valid) : Measures t t.length := by
  unfold length
  split
  · next hback => exact .halved hback (search_halves (Nat.sub_le ..))
  · next hback =>
    have hback : t.array.back? ≠ some .nil := hback
    split
    · next hfull => exact .full hback hfull
    · next hfull =>
      have hfull : t.isFull = false := Bool.eq_false_iff.mpr hfull
      rw [h.climb_eq hfull]
      exact .climbed hback hfull (.stay (h.getEntry_next hfull))

theorem getInt_of_mem {i : Int64} (hi : i.toInt = j) (hpos : 0 < j) (hle : j ≤ t.array.size) :
    t.getInt i = t.array[j - 1]?.getD .nil := by
  have hin : t.inArray i = true := inArray_iff.mpr (by omega)
  rw [getInt, if_pos hin, hi, Int.toNat_natCast]

theorem Tidy.toInt_place (h : t.Tidy) (hle : j ≤ t.array.size) : (Int64.ofNat j).toInt = j := by
  have hsize := h.size
  rw [maxValue_toInt] at hsize
  exact Int64.toInt_ofNat_of_lt (by omega)

theorem Tidy.live_of_filled (h : t.Tidy) (hj : Filled t.array j) (hle : j ≤ t.array.size) :
    j = 0 ∨ t.getInt (Int64.ofNat j) ≠ .nil := by
  obtain rfl | hpos := Nat.eq_zero_or_pos j
  · exact .inl rfl
  · refine hj.imp_right fun hlive => ?_
    rw [getInt_of_mem (h.toInt_place hle) hpos hle]
    exact ne_nil_of_not_isNil hlive

theorem filled_size (h : t.array.back? ≠ some .nil) : Filled t.array t.array.size := by
  rw [Array.back?] at h
  obtain hsize | hpos := Nat.eq_zero_or_pos t.array.size
  · exact .inl hsize
  · refine .inr ?_
    rw [Array.getElem?_eq_getElem (by omega)] at h ⊢
    rw [Bool.eq_false_iff]
    exact fun hnil => h (congrArg some (eq_nil_of_isNil hnil))

/-- **The search for a length ends at a border.** -/
theorem Valid.border (h : t.Valid) (hn : Measures t n) : IsBorder t n := by
  have hsize := h.size
  cases hn with
  | halved hback hn =>
    rw [Array.back?] at hback
    have hpos : 0 < t.array.size := by
      have hlt := (Array.getElem?_eq_some_iff.mp hback).1
      omega
    obtain ⟨hfilled, hhole, hlt⟩ := hn.border hpos (.inl rfl) (by rw [hback]; rfl)
    refine ⟨by omega, h.live_of_filled hfilled (by omega), fun i hi => ?_⟩
    have hnext : i.toInt = (n + 1 : Nat) := hi
    rw [getInt_of_mem hnext (Nat.succ_pos n) hlt]
    exact eq_nil_of_isNil hhole
  | full hback hfull =>
    refine ⟨hsize, h.live_of_filled (filled_size hback) (Nat.le_refl _), fun i hi => ?_⟩
    have hmax := i.toInt_lt
    simp only [isFull, decide_eq_true_eq, maxValue_toInt] at hfull
    omega
  | climbed hback hfull hn =>
    -- no key among the entries follows the array
    cases hn with
    | rise hlive _ =>
      have hnil := h.getEntry_next hfull
      rw [nextKey, hlive] at hnil
      cases hnil
    | stay _ =>
      refine ⟨hsize, h.live_of_filled (filled_size hback) (Nat.le_refl _), fun i hi => ?_⟩
      have hout : t.inArray i = false := by
        rw [Bool.eq_false_iff]
        exact fun hin => by
          have := (inArray_iff.mp hin).2
          omega
      rw [getInt, hout]
      exact h.next i hi

/-- **A table's length is a border**, whatever was written, in whatever order, and cleared again: the search
    comes to an end, and it ends at a key that has a value, or 0, before a key that has none. -/
theorem length_is_border (vs : List Value) (ws : List Write) :
    let t := (ofList vs).after ws
    Measures t t.length ∧ IsBorder t t.length := by
  intro t
  have hvalid : t.Valid := (valid_ofList vs).after ws
  exact ⟨hvalid.measures, hvalid.border hvalid.measures⟩

end Table

end LuaMachine
