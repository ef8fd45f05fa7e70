/-
  THE PARTS OF A TABLE. Array and entries never speak of the same key, and the count of cleared entries, on
  which three decisions rest, is exact.

  * `parts_after` -- **the parts of a table after any writes**.
-/
import LuaMachine.Proofs.Value.Border
import LuaMachine.Proofs.Value.Order

namespace LuaMachine

namespace Table

def cleared (t : Table) : Nat := t.entries.countP (·.2.isNil)

/-- What holds of the parts of a table. -/
structure Parts (t : Table) : Prop where
  /-- The cleared entries are counted. -/
  dead : t.dead = t.cleared
  /-- A cleared entry that gets a value is one of those counted: the count never falls below zero. -/
  revived : ∀ key value, lookup key t.entries = some .nil → value.isNil = false →
    (t.setEntry key value).dead + 1 = t.dead
  /-- Entries are dropped if more than eight, and more than half of them, are cleared; then all that are
      cleared go. -/
  compacted : t.compact =
    if 8 < t.cleared ∧ t.entries.length < t.cleared * 2 then
      { t with entries := t.entries.filter fun e => !e.2.isNil, dead := 0 }
    else t
  /-- Once a value has been appended, nothing is looked for among the entries exactly if all are cleared. -/
  spared : ∀ value, t.isFull = false →
    ((t.push value).entries.length = (t.push value).dead ↔ ∀ e ∈ (t.push value).entries, e.2 = .nil)
  /-- No key is nil, NaN, or a double that is an integer. -/
  normal : ∀ e ∈ t.entries, e.1 ≠ .nil ∧ ∀ d, e.1 = .float d →
    d.isNaN = false ∧ ∀ i : Int64, ¬ (Number.float d).Compares (· = ·) (.int i)
  /-- No two keys are the same, as objects or as numbers. -/
  distinct : (t.entries.map (·.1)).Pairwise fun a b => a ≠ b ∧ a.rawEqual b = false
  /-- The keys of the array, and the next one, have no values among the entries. -/
  apart : ∀ e ∈ t.entries, ∀ i : Int64, e.1 = .int i → 1 ≤ i.toInt → i.toInt ≤ t.array.size + 1 → e.2 = .nil
  /-- No key has values in both parts. -/
  once : ∀ (i : Int64) (value : Value), t.inArray i = true → t.getInt i = value → value ≠ .nil →
    ∀ e ∈ t.entries, e.1.rawEqual (.int i) = true → e.2 = .nil

variable {t : Table} {key value : Value}

theorem Tidy.mem_getEntry (h : t.Tidy) {e : Value × Value} (he : e ∈ t.entries) : t.getEntry e.1 = e.2 := by
  rw [getEntry, lookup_of_mem h.keys he]
  rfl

theorem Tidy.length_eq_dead_iff (h : t.Tidy) : t.entries.length = t.dead ↔ ∀ e ∈ t.entries, e.2 = .nil := by
  rw [h.dead, eq_comm, List.countP_eq_length]
  exact forall₂_congr fun e _ => ⟨eq_nil_of_isNil, fun hnil => by rw [hnil]; rfl⟩

theorem Tidy.revived (h : t.Tidy) (hkey : lookup key t.entries = some .nil) (hv : value.isNil = false) :
    (t.setEntry key value).dead + 1 = t.dead := by
  have hpos : 0 < t.entries.countP (·.2.isNil) := List.countP_pos_iff.mpr ⟨_, mem_of_lookup hkey, rfl⟩
  have hdead : (t.setEntry key value).dead = t.dead - 1 := by
    simp only [Table.setEntry, hkey, hv, isNil_nil]
  rw [hdead, h.dead]
  omega

theorem Tidy.normal_key (h : t.Tidy) {e : Value × Value} (he : e ∈ t.entries) :
    e.1 ≠ .nil ∧ ∀ d, e.1 = .float d → d.isNaN = false ∧ ∀ i : Int64, ¬ (Number.float d).Compares (· = ·) (.int i) := by
  have hn := h.normal e he
  refine ⟨fun hnil => ?_, fun d hd => ?_⟩
  · rw [hnil] at hn
    cases hn
  · rw [hd] at hn
    cases hnan : d.isNaN with
    | true =>
      rw [normalize_nan hnan] at hn
      cases hn
    | false =>
      refine ⟨rfl, fun i hi => ?_⟩
      rw [normalize_float hnan, (Value.toInt64?_iff i).mpr hi] at hn
      cases hn

theorem Tidy.distinct (h : t.Tidy) : (t.entries.map (·.1)).Pairwise fun a b => a ≠ b ∧ a.rawEqual b = false := by
  refine h.keys.imp_of_mem fun {a b} ha hb hne => ⟨hne, ?_⟩
  obtain ⟨e, he, rfl⟩ := List.mem_map.mp ha
  obtain ⟨f, hf, rfl⟩ := List.mem_map.mp hb
  rw [Bool.eq_false_iff]
  exact mt (rawEqual_iff (h.normal e he) (h.normal f hf)).mp hne

/-- **What every write keeps says all of this about the parts.** -/
theorem Valid.parts (h : t.Valid) : t.Parts where
  dead := h.dead
  revived := fun _ _ => h.toTidy.revived
  compacted := by rw [compact, h.dead]; rfl
  spared := fun _ hfull => (h.toTidy.push hfull).length_eq_dead_iff
  normal := fun _ => h.toTidy.normal_key
  distinct := h.toTidy.distinct
  apart := by
    intro e he i hi hlow hhigh
    rw [← h.toTidy.mem_getEntry he, hi]
    by_cases hnext : i.toInt = t.array.size + 1
    · exact h.next i hnext
    · exact h.apart i (inArray_iff.mpr (by omega))
  once := by
    intro i value hin _ _ e he heq
    have hkey := (rawEqual_iff (h.normal e he) rfl).mp heq
    rw [← h.toTidy.mem_getEntry he, hkey]
    exact h.apart i hin

/-- **The parts of a table after any writes**, whether they append to the array, move entries into it, change
    values in place or make new entries. -/
theorem parts_after (ws : List Write) : (empty.after ws).Parts := (valid_empty.after ws).parts

end Table

end LuaMachine
