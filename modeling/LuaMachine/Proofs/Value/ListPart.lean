/-
  TABLES THAT HOLD A LIST AND FIELDS. The items of a list are under the integer keys from 1 on, fields are
  under strings, and there is nothing else. Values that are written after the list, and fields that are set,
  keep it that way.

  * `Table.Lists` -- **a table that holds a list and fields, and nothing else**.
-/
import LuaMachine.Proofs.Value.TableMap

namespace LuaMachine

namespace Table

/-- What is under a key in normal form, if there are only the items of a list and fields; the last field of a name
    is in force. -/
def listed (items : List Value) (fields : List (Bytes × Value)) : Value → Value
  | .int i => if 1 ≤ i.toInt then items[i.toInt.toNat - 1]?.getD .nil else .nil
  | .str x => (fields.reverse.lookup x).getD .nil
  | _ => .nil

def listing (items : List Value) (fields : List (Bytes × Value)) (key : Value) : Value :=
  match normalize key with
  | .ok k => listed items fields k
  | .error _ => .nil

structure Lists (t : Table) (items : List Value) (fields : List (Bytes × Value)) : Prop where
  valid : t.Valid
  get : ∀ key, t.get key = listing items fields key

def setInts (first : Int) : List Value → Table → Table
  | [], t => t
  | v :: vs, t => setInts (first + 1) vs (t.setInt (Int64.ofInt (first + 1)) v)

variable {t : Table} {items vs : List Value} {fields : List (Bytes × Value)} {key k v : Value} {x : Bytes}

theorem listing_of_normalize (h : normalize key = .ok k) : listing items fields key = listed items fields k := by
  rw [listing, h]

theorem lists_of_find (hv : t.Valid) (hfind : ∀ k, normalize k = .ok k → t.find k = listed items fields k) :
    t.Lists items fields := by
  refine ⟨hv, fun key => ?_⟩
  cases hk : normalize key with
  | error f => rw [get_of_error hk, listing, hk]
  | ok k => rw [get_of_normalize hk, listing_of_normalize hk, hfind k (normalize_normal hk)]

theorem Lists.find (h : t.Lists items fields) (hk : normalize k = .ok k) : t.find k = listed items fields k := by
  rw [← get_of_normalize hk, h.get, listing_of_normalize hk]

theorem Lists.setField (h : t.Lists items fields) (x : Bytes) (v : Value) :
    ∃ t', t.set (.str x) v = .ok t' ∧ t'.Lists items (fields ++ [(x, v)]) := by
  have hset : t.set (.str x) v = .ok (t.setEntry (.str x) v) := rfl
  refine ⟨_, hset, lists_of_find (h.valid.set hset) fun k hk => ?_⟩
  rw [h.valid.find_set (show normalize (.str x) = .ok (.str x) from rfl) hset, h.find hk]
  cases k with
  | str y =>
    simp only [listed, List.reverse_append, List.reverse_singleton, List.singleton_append, List.lookup_cons, Value.str.injEq]
    by_cases hxy : x = y
    · subst hxy
      simp
    · have hyx : (y == x) = false := by simpa using Ne.symm hxy
      rw [if_neg hxy, hyx]
  | _ => rfl

theorem Lists.setInt (h : t.Lists items fields) (v : Value) (hlt : items.length < Int64.maxValue.toInt) :
    (t.setInt (Int64.ofInt (items.length + 1)) v).Lists (items ++ [v]) fields := by
  rw [maxValue_toInt] at hlt
  have hkey : (Int64.ofInt ((items.length : Int) + 1)).toInt = items.length + 1 :=
    Int64.toInt_ofInt_of_le (by omega) (by omega)
  refine lists_of_find h.valid.setInt fun k hk => ?_
  rw [h.valid.find_setInt, h.find hk]
  cases k with
  | int i =>
    simp only [listed, Value.int.injEq, ← Int64.toInt_inj, hkey]
    by_cases hi : (items.length : Int) + 1 = i.toInt
    · have hlast : i.toInt.toNat - 1 = items.length := by omega
      rw [if_pos hi, if_pos (by omega), hlast, List.getElem?_concat_length, Option.getD_some]
    · rw [if_neg hi]
      refine ite_congr rfl (fun hpos => ?_) fun _ => rfl
      by_cases hle : i.toInt.toNat - 1 < items.length
      · rw [List.getElem?_append_left hle]
      · rw [List.getElem?_eq_none (by omega), List.getElem?_eq_none (by rw [List.length_append, List.length_singleton]; omega)]
  | _ => rfl

/-- **Values are written after the list**, as long as integers can be their keys. -/
theorem Lists.setInts (h : t.Lists items fields) (hle : items.length + vs.length ≤ Int64.maxValue.toInt) :
    (setInts items.length vs t).Lists (items ++ vs) fields := by
  induction vs generalizing t items with
  | nil =>
    rw [List.append_nil]
    exact h
  | cons v vs ih =>
    rw [List.length_cons, Int.natCast_add] at hle
    have hrest := ih (h.setInt v (by omega)) (by rw [List.length_append, List.length_singleton]; omega)
    rw [List.append_assoc, List.length_append, List.length_singleton, Int.natCast_add] at hrest
    exact hrest

end Table

end LuaMachine
