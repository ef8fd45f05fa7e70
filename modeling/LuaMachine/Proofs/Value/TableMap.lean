/-
  TABLES ARE MAPS. A key may move from the entries to the array, leave a cleared entry behind or vanish with
  one; its value is always the one written last.

  * `get_after` -- **the value of a key is the one written last under an equal key**.
-/
import LuaMachine.Proofs.Value.Key

namespace LuaMachine

namespace Table

/-! ## 1. Lists of entries -/

section

variable {key key' value old : Value} {es : List (Value × Value)}

theorem keys_replace : (replace key value es).map (·.1) = es.map (·.1) := by
  induction es with
  | nil => rfl
  | cons e es ih =>
    unfold replace
    split <;> simp [ih]

theorem lookup_replace :
    lookup key' (replace key value es) =
      if key = key' then (lookup key es).map fun _ => value else lookup key' es := by
  induction es with
  | nil => simp [replace, lookup]
  | cons e es ih =>
    obtain ⟨k, v⟩ := e
    by_cases hk : k = key
    · subst hk
      by_cases hk' : k = key' <;> simp [replace, lookup, hk']
    · by_cases hk' : k = key'
      · subst hk'
        simp [replace, lookup, hk, Ne.symm hk]
      · simp [replace, lookup, hk, hk', ih]

theorem replace_of_none (h : lookup key es = none) : replace key value es = es := by
  induction es with
  | nil => rfl
  | cons e es ih =>
    unfold lookup at h
    split at h
    · cases h
    · next hk => rw [replace, if_neg hk, ih h]

theorem lookup_append :
    lookup key (es ++ [(key', value)]) = (lookup key es).or (if key' = key then some value else none) := by
  induction es with
  | nil => simp [lookup]
  | cons e es ih =>
    simp only [List.cons_append, lookup, ih]
    split <;> simp

theorem lookup_eq_none_iff : lookup key es = none ↔ key ∉ es.map (·.1) := by
  induction es with
  | nil => simp [lookup]
  | cons e es ih =>
    simp only [lookup, List.map_cons, List.mem_cons, not_or, ← ih, eq_comm (a := key)]
    split <;> simp_all

theorem mem_of_lookup (h : lookup key es = some value) : (key, value) ∈ es := by
  induction es with
  | nil => cases h
  | cons e es ih =>
    unfold lookup at h
    split at h
    · next hk =>
      cases h
      subst hk
      exact List.mem_cons_self ..
    · exact List.mem_cons_of_mem _ (ih h)

theorem lookup_of_mem (hn : (es.map (·.1)).Nodup) (h : (key, value) ∈ es) : lookup key es = some value := by
  induction es with
  | nil => cases h
  | cons e es ih =>
    rw [List.map_cons, List.nodup_cons] at hn
    obtain rfl | h := List.mem_cons.mp h
    · simp [lookup]
    · have hne : e.1 ≠ key := fun he => hn.1 (he ▸ List.mem_map_of_mem h)
      rw [lookup, if_neg hne]
      exact ih hn.2 h

theorem lookup_live (hn : (es.map (·.1)).Nodup) :
    (lookup key (es.filter fun e => !e.2.isNil)).getD .nil = (lookup key es).getD .nil := by
  induction es with
  | nil => rfl
  | cons e es ih =>
    obtain ⟨k, v⟩ := e
    rw [List.map_cons, List.nodup_cons] at hn
    have hmem : k ∉ (es.filter fun e => !e.2.isNil).map (·.1) := fun hm => by
      obtain ⟨e', he', hk⟩ := List.mem_map.mp hm
      exact hn.1 (List.mem_map.mpr ⟨e', (List.mem_filter.mp he').1, hk⟩)
    by_cases hv : v.isNil = true
    · rw [List.filter_cons_of_neg (by simpa using hv), lookup]
      split
      · next hk =>
        subst hk
        rw [lookup_eq_none_iff.mpr hmem]
        cases v <;> first | rfl | cases hv
      · exact ih hn.2
    · rw [List.filter_cons_of_pos (by simpa using hv), lookup, lookup]
      split
      · rfl
      · exact ih hn.2

theorem count_replace (h : lookup key es = some old) :
    (replace key value es).countP (·.2.isNil) + (if old.isNil then 1 else 0) =
      es.countP (·.2.isNil) + if value.isNil then 1 else 0 := by
  induction es with
  | nil => cases h
  | cons e es ih =>
    obtain ⟨k, v⟩ := e
    simp only [lookup] at h
    by_cases hk : k = key
    · rw [if_pos hk] at h
      cases h
      rw [replace, if_pos hk, List.countP_cons, List.countP_cons]
      dsimp only
      omega
    · rw [if_neg hk] at h
      have := ih h
      rw [replace, if_neg hk, List.countP_cons, List.countP_cons]
      omega

end

/-! ## 2. The parts of a table -/

def nextKey (t : Table) : Value := .int (Int64.ofNat (t.array.size + 1))

/-- A table in the midst of a write: entries have different keys in normal form, the cleared ones are
    counted, and the keys of the array have no values among the entries. -/
structure Tidy (t : Table) : Prop where
  size : (t.array.size : Int) ≤ Int64.maxValue.toInt
  keys : (t.entries.map (·.1)).Nodup
  normal : ∀ e ∈ t.entries, normalize e.1 = .ok e.1
  dead : t.dead = t.entries.countP (·.2.isNil)
  apart : ∀ i : Int64, t.inArray i = true → t.getEntry (.int i) = .nil

structure Valid (t : Table) : Prop extends Tidy t where
  next : ∀ i : Int64, i.toInt = t.array.size + 1 → t.getEntry (.int i) = .nil

@[simp] theorem isNil_nil : Value.nil.isNil = true := rfl

theorem maxValue_toInt : Int64.maxValue.toInt = 9223372036854775807 := by decide

section

variable {t : Table} {key key' value : Value} {i j : Int64}

theorem inArray_iff : t.inArray i = true ↔ 1 ≤ i.toInt ∧ i.toInt ≤ t.array.size := by
  simp [inArray]

theorem isFull_iff : t.isFull = false ↔ (t.array.size : Int) < Int64.maxValue.toInt := by
  simp [isFull]

theorem nextKey_eq_iff (h : t.isFull = false) : t.nextKey = .int i ↔ i.toInt = t.array.size + 1 := by
  have := isFull_iff.mp h
  rw [maxValue_toInt] at this
  rw [nextKey, Value.int.injEq, ← Int64.toInt_inj, Int64.toInt_ofNat_of_lt (by omega), eq_comm]
  exact Iff.of_eq (by congr 1)

def find (t : Table) : Value → Value
  | .int i => t.getInt i
  | k => t.getEntry k

theorem get_of_normalize {k : Value} (h : normalize key = .ok k) : t.get key = t.find k := by
  unfold get find
  rw [h]
  cases k <;> rfl

theorem get_of_error {f : TableFault} (h : normalize key = .error f) : t.get key = .nil := by
  unfold get
  rw [h]

theorem find_eq_getEntry (h : ∀ i, key = .int i → t.inArray i = false) : t.find key = t.getEntry key := by
  cases key with
  | int i => simp [find, getInt, h i rfl]
  | _ => rfl

/-! ## 3. Entries -/

@[simp] theorem array_compact : t.compact.array = t.array := by
  unfold compact
  split <;> rfl

@[simp] theorem array_setEntry : (t.setEntry key value).array = t.array := by
  unfold setEntry
  split
  · rfl
  · split <;> simp

theorem getEntry_compact (h : (t.entries.map (·.1)).Nodup) : t.compact.getEntry key = t.getEntry key := by
  unfold compact
  split
  · exact lookup_live h
  · rfl

theorem getEntry_of_lookup (h : lookup key t.entries = none) : t.getEntry key = .nil := by
  rw [getEntry, h]
  rfl

theorem getEntry_setEntry (h : (t.entries.map (·.1)).Nodup) :
    (t.setEntry key value).getEntry key' = if key = key' then value else t.getEntry key' := by
  unfold setEntry
  split
  · next old hold =>
    show (lookup key' (replace key value t.entries)).getD .nil = _
    rw [lookup_replace]
    split
    · rw [hold]
      rfl
    · rfl
  · next hnone =>
    split
    · next hv =>
      split
      · next hk =>
        subst hk
        rw [getEntry_of_lookup hnone]
        cases value <;> first | rfl | cases hv
      · rfl
    · show (lookup key' (t.compact.entries ++ [(key, value)])).getD .nil = _
      rw [lookup_append]
      have hcompact : t.compact.getEntry key' = t.getEntry key' := getEntry_compact h
      unfold getEntry at hcompact ⊢
      split
      · next hk =>
        subst hk
        have hno : lookup key t.compact.entries = none := by
          rw [lookup_eq_none_iff] at hnone ⊢
          unfold compact
          split
          · exact fun hm => hnone (by
              obtain ⟨e, he, hk⟩ := List.mem_map.mp hm
              exact List.mem_map.mpr ⟨e, (List.mem_filter.mp he).1, hk⟩)
          · exact hnone
        rw [hno]
        rfl
      · rw [← hcompact, Option.or_none]

theorem Tidy.compact (h : t.Tidy) : t.compact.Tidy := by
  have hget : ∀ k, t.compact.getEntry k = t.getEntry k := fun k => getEntry_compact h.keys
  have harray := array_compact (t := t)
  have hin : ∀ i, t.compact.inArray i = t.inArray i := fun i => by rw [inArray, harray]; rfl
  refine ⟨by rw [harray]; exact h.size, ?_, ?_, ?_, fun i hi => by rw [hget, h.apart i (hin i ▸ hi)]⟩
  all_goals
    unfold Table.compact
    split
  · exact h.keys.sublist (List.filter_sublist.map _)
  · exact h.keys
  · exact fun e he => h.normal e (List.mem_filter.mp he).1
  · exact h.normal
  · refine (List.countP_eq_zero.mpr fun e he => ?_).symm
    simpa using (List.mem_filter.mp he).2
  · exact h.dead

theorem Tidy.setEntry (h : t.Tidy) (hk : normalize key = .ok key)
    (hin : ∀ i, key = .int i → t.inArray i = false) : (t.setEntry key value).Tidy := by
  refine ⟨by rw [array_setEntry]; exact h.size, ?_, ?_, ?_, fun i hi => ?_⟩
  · unfold Table.setEntry
    split
    · simp only [keys_replace]
      exact h.keys
    · next hnone =>
      split
      · exact h.keys
      · have hno : key ∉ t.compact.entries.map (·.1) := fun hm => by
          refine lookup_eq_none_iff.mp hnone ?_
          unfold Table.compact at hm
          split at hm
          · obtain ⟨e, he, hek⟩ := List.mem_map.mp hm
            exact List.mem_map.mpr ⟨e, (List.mem_filter.mp he).1, hek⟩
          · exact hm
        simp only [List.map_append, List.map_cons, List.map_nil]
        refine List.nodup_append.mpr ⟨h.compact.keys, by simp, fun a ha b hb => ?_⟩
        rw [List.mem_singleton.mp hb]
        exact fun hak => hno (hak ▸ ha)
  · unfold Table.setEntry
    split
    · intro e he
      have hm : e.1 ∈ (replace key value t.entries).map (·.1) := List.mem_map_of_mem he
      rw [keys_replace] at hm
      obtain ⟨e', he', hek⟩ := List.mem_map.mp hm
      rw [← hek]
      exact h.normal e' he'
    · split
      · exact h.normal
      · intro e he
        obtain he | he := List.mem_append.mp he
        · exact h.compact.normal e he
        · rw [List.mem_singleton.mp he]
          exact hk
  · unfold Table.setEntry
    split
    · next old hold =>
      have hcount : (replace key value t.entries).countP (·.2.isNil) + (if old.isNil then 1 else 0) =
          t.entries.countP (·.2.isNil) + if value.isNil then 1 else 0 := count_replace hold
      have hpos : old.isNil = true → 0 < t.entries.countP (·.2.isNil) := fun hn =>
        List.countP_pos_iff.mpr ⟨_, mem_of_lookup hold, hn⟩
      have hdead := h.dead
      dsimp only
      cases ho : old.isNil <;> cases hv : value.isNil <;> simp [ho, hv] at hcount hpos ⊢ <;> omega
    · split
      · exact h.dead
      · next hv => simp [List.countP_append, h.compact.dead, hv]
  · have hi' : t.inArray i = true := by rwa [inArray, array_setEntry] at hi
    rw [getEntry_setEntry h.keys, h.apart i hi', if_neg]
    intro hki
    rw [hin i hki] at hi'
    cases hi'

/-- **A write among the entries changes the value of its key alone.** -/
theorem Tidy.find_setEntry (h : t.Tidy) (hin : ∀ i, key = .int i → t.inArray i = false) :
    (t.setEntry key value).find key' = if key = key' then value else t.find key' := by
  have hget : (t.setEntry key value).getEntry key' = if key = key' then value else t.getEntry key' :=
    getEntry_setEntry h.keys
  have hsame : ∀ i, (t.setEntry key value).inArray i = t.inArray i := fun i => by
    rw [inArray, array_setEntry]
    rfl
  cases key' with
  | int i =>
    simp only [find, getInt, hsame, array_setEntry]
    split
    · next hi =>
      rw [if_neg]
      intro hk
      rw [hin i hk] at hi
      cases hi
    · exact hget
  | _ => exact hget

/-! ## 4. The array -/

theorem push_eq :
    t.push value =
      { array := t.array.push value
        entries := replace t.nextKey .nil t.entries
        dead := if (t.getEntry t.nextKey).isNil then t.dead else t.dead + 1 } := by
  cases hl : lookup t.nextKey t.entries with
  | some old =>
    unfold nextKey at hl
    simp only [push, getEntry, nextKey, hl, Option.getD_some]
  | none =>
    rw [replace_of_none hl]
    unfold nextKey at hl
    simp [push, getEntry, nextKey, Value.isNil, hl, -Int64.ofNat_add]

theorem array_push : (t.push value).array = t.array.push value := by
  rw [push_eq]

theorem getEntry_push :
    (t.push value).getEntry key = if t.nextKey = key then .nil else t.getEntry key := by
  rw [push_eq]
  show (lookup key (replace t.nextKey .nil t.entries)).getD .nil = _
  rw [lookup_replace]
  split
  · cases lookup t.nextKey t.entries <;> rfl
  · rfl

theorem inArray_push : (t.push value).inArray i = (t.inArray i || i.toInt = (t.array.size : Int) + 1) := by
  rw [Bool.eq_iff_iff]
  simp only [inArray, array_push, Array.size_push, Bool.or_eq_true, decide_eq_true_eq]
  omega

theorem find_push (hfull : t.isFull = false) :
    (t.push value).find key = if t.nextKey = key then value else t.find key := by
  cases key with
  | int i =>
    have hnext := nextKey_eq_iff (i := i) hfull
    simp only [find, getInt, inArray_push, array_push, getEntry_push]
    by_cases hi : i.toInt = (t.array.size : Int) + 1
    · simp [hi, hnext]
    · have hk : t.nextKey ≠ .int i := fun hk => hi (hnext.mp hk)
      by_cases hin : t.inArray i = true
      · obtain ⟨h1, h2⟩ := inArray_iff.mp hin
        rw [Array.getElem?_push, if_neg (show ¬ i.toInt.toNat - 1 = t.array.size by omega)]
        simp [hin, hk]
      · simp [hin, hi, hk]
  | _ => simp [find, getEntry_push, nextKey]

def liveCount (t : Table) : Nat := t.entries.countP fun e => !e.2.isNil

theorem getEntry_of_liveCount (h : t.liveCount = 0) : t.getEntry key = .nil := by
  unfold getEntry
  cases hl : lookup key t.entries with
  | none => rfl
  | some v =>
    have := List.countP_eq_zero.mp h _ (mem_of_lookup hl)
    cases v <;> first | rfl | exact (this rfl).elim

theorem liveCount_add_dead (h : t.Tidy) : t.liveCount + t.dead = t.entries.length := by
  rw [h.dead, liveCount, Nat.add_comm]
  have := List.length_eq_countP_add_countP (l := t.entries) (fun e => e.2.isNil)
  simp only [Bool.not_eq_true] at this
  rw [this]
  congr 2
  funext e
  cases e.2.isNil <;> rfl

theorem Tidy.push (h : t.Tidy) (hfull : t.isFull = false) : (t.push value).Tidy := by
  have hsize := isFull_iff.mp hfull
  refine ⟨by rw [array_push, Array.size_push]; omega, ?_, ?_, ?_, fun i hi => ?_⟩
  · rw [push_eq]
    simp only [keys_replace]
    exact h.keys
  · rw [push_eq]
    intro e he
    have hm : e.1 ∈ (replace t.nextKey .nil t.entries).map (·.1) := List.mem_map_of_mem he
    rw [keys_replace] at hm
    obtain ⟨e', he', hek⟩ := List.mem_map.mp hm
    rw [← hek]
    exact h.normal e' he'
  · rw [push_eq, h.dead]
    show (if (t.getEntry t.nextKey).isNil then _ else _) = (replace t.nextKey .nil t.entries).countP (·.2.isNil)
    unfold getEntry
    cases hl : lookup t.nextKey t.entries with
    | none => simp [replace_of_none hl]
    | some old =>
      have hcount : (replace t.nextKey .nil t.entries).countP (·.2.isNil) + (if old.isNil then 1 else 0) =
          t.entries.countP (·.2.isNil) + if Value.nil.isNil then 1 else 0 := count_replace hl
      rw [isNil_nil, if_pos rfl] at hcount
      rw [Option.getD_some]
      split at hcount
      · next ho => rw [if_pos ho]; omega
      · next ho => rw [if_neg ho]; omega
  · rw [getEntry_push]
    split
    · rfl
    · next hk =>
      rw [inArray_push] at hi
      have hne : ¬ i.toInt = (t.array.size : Int) + 1 := fun hi => hk ((nextKey_eq_iff hfull).mpr hi)
      simp [hne] at hi
      exact h.apart i hi

theorem liveCount_push (h : t.Tidy) (hfull : t.isFull = false) (hlive : t.getEntry t.nextKey ≠ .nil) :
    (t.push value).liveCount + 1 = t.liveCount := by
  have hbefore := liveCount_add_dead h
  have hafter : (t.push value).liveCount + (t.push value).dead = (t.push value).entries.length :=
    liveCount_add_dead (h.push hfull)
  have hlen : (replace t.nextKey Value.nil t.entries).length = t.entries.length := by
    have hkeys : (replace t.nextKey Value.nil t.entries).map (·.1) = t.entries.map (·.1) := keys_replace
    simpa using congrArg List.length hkeys
  have hnil : ¬ (t.getEntry t.nextKey).isNil = true := fun hn => hlive (by
    generalize t.getEntry t.nextKey = v at hn
    cases v <;> first | rfl | cases hn)
  rw [push_eq] at hafter ⊢
  simp only [hlen, if_neg hnil] at hafter ⊢
  omega

theorem find_migrate (n : Nat) (h : t.Tidy) : (migrate n t).find key = t.find key := by
  induction n generalizing t with
  | zero => rfl
  | succ n ih =>
    unfold migrate
    split
    · rfl
    · next hfull =>
      have hfull : t.isFull = false := by simpa using hfull
      split
      · rfl
      · rw [ih (h.push hfull), find_push hfull]
        split
        · next hk =>
          subst hk
          have hout : ∀ i, t.nextKey = .int i → t.inArray i = false := fun i hi => by
            have := (nextKey_eq_iff hfull).mp hi
            rw [Bool.eq_false_iff]
            exact fun hin => by
              have := (inArray_iff.mp hin).2
              omega
          exact (find_eq_getEntry hout).symm
        · rfl

theorem Tidy.migrate {n : Nat} (h : t.Tidy) (hn : t.liveCount ≤ n) : (migrate n t).Valid := by
  induction n generalizing t with
  | zero => exact ⟨h, fun i _ => getEntry_of_liveCount (Nat.le_zero.mp hn)⟩
  | succ n ih =>
    unfold Table.migrate
    split
    · next hfull =>
      refine ⟨h, fun i hi => ?_⟩
      have := i.toInt_lt
      simp only [isFull, decide_eq_true_eq, maxValue_toInt] at hfull
      omega
    · next hfull =>
      have hfull : t.isFull = false := by simpa using hfull
      split
      · next hnil =>
        refine ⟨h, fun i hi => ?_⟩
        rw [← (nextKey_eq_iff hfull).mpr hi]
        exact hnil
      · next hlive =>
        have hless : (t.push (t.getEntry t.nextKey)).liveCount + 1 = t.liveCount :=
          liveCount_push h hfull hlive
        exact ih (h.push hfull) (show (t.push (t.getEntry t.nextKey)).liveCount ≤ n by omega)

/-! ## 5. Writes by integer -/

theorem not_full_of_next (h : i.toInt = (t.array.size : Int) + 1) : t.isFull = false := by
  have := i.toInt_lt
  rw [isFull_iff, maxValue_toInt]
  omega

/-- **A write under an integer keeps a table in order.** -/
theorem Valid.setInt (h : t.Valid) : (t.setInt i value).Valid := by
  unfold Table.setInt
  split
  · have hsize : ∀ n, (t.array.modify n fun _ => value).size = t.array.size := fun n => Array.size_modify
    have hin : ∀ j, Table.inArray { t with array := t.array.modify (i.toInt.toNat - 1) fun _ => value } j =
        t.inArray j := fun j => by rw [inArray, inArray, hsize]
    exact ⟨⟨by rw [hsize]; exact h.size, h.keys, h.normal, h.dead,
      fun j hj => h.apart j (by rwa [← hin])⟩, fun j hj => h.next j (by rw [hj, hsize])⟩
  · next hout =>
    split
    · next hnext =>
      have htidy : (t.push value).Tidy := h.toTidy.push (not_full_of_next hnext.1)
      have hcount := liveCount_add_dead htidy
      dsimp only
      split
      · exact ⟨htidy, fun j _ => getEntry_of_liveCount (by omega)⟩
      · exact htidy.migrate (by omega)
    · next hnext =>
      have hkey : ∀ j, Value.int i = .int j → t.inArray j = false := fun j hj => by
        cases hj
        simpa using hout
      refine ⟨h.toTidy.setEntry rfl hkey, fun j hj => ?_⟩
      rw [array_setEntry] at hj
      rw [getEntry_setEntry h.keys]
      split
      · next hij =>
        cases hij
        rw [Classical.not_and_iff_not_or_not] at hnext
        obtain hn | hv := hnext
        · exact (hn hj).elim
        · cases value <;> first | rfl | exact (hv rfl).elim
      · exact h.next j hj

/-- **A write under an integer changes the value of this key alone.** -/
theorem Valid.find_setInt (h : t.Valid) :
    (t.setInt i value).find key = if .int i = key then value else t.find key := by
  unfold Table.setInt
  split
  · next hin =>
    obtain ⟨h1, h2⟩ := inArray_iff.mp hin
    cases key with
    | int j =>
      have hsize : ∀ n, (t.array.modify n fun _ => value).size = t.array.size := fun n => Array.size_modify
      simp only [find, getInt, inArray, hsize]
      split
      · next hj =>
        simp only [decide_eq_true_eq] at hj
        rw [Array.getElem?_modify]
        by_cases hij : i = j
        · subst hij
          have hlt : i.toInt.toNat - 1 < t.array.size := by omega
          rw [if_pos rfl, if_pos rfl, Array.getElem?_eq_getElem hlt]
          rfl
        · have hne : i.toInt ≠ j.toInt := fun he => hij (Int64.toInt_inj.mp he)
          rw [if_neg (show ¬ i.toInt.toNat - 1 = j.toInt.toNat - 1 by omega), if_neg]
          · exact (if_pos (inArray_iff.mpr hj)).symm
          · exact fun he => hij (Value.int.inj he)
      · next hj =>
        rw [if_neg]
        · exact (if_neg hj).symm
        · rintro he
          cases he
          exact hj (by simp [h1, h2])
    | _ => rfl
  · next hout =>
    split
    · next hnext =>
      have hfull := not_full_of_next hnext.1
      have hkey := (nextKey_eq_iff hfull).mpr hnext.1
      dsimp only
      split
      · rw [find_push hfull, hkey]
      · rw [find_migrate _ (h.toTidy.push hfull), find_push hfull, hkey]
    · exact h.toTidy.find_setEntry fun j hj => by
        cases hj
        simpa using hout

theorem Valid.setEntry (h : t.Valid) (hk : normalize key = .ok key) (hint : ∀ i, key ≠ .int i) :
    (t.setEntry key value).Valid := by
  refine ⟨h.toTidy.setEntry hk fun i hi => (hint i hi).elim, fun i hi => ?_⟩
  rw [array_setEntry] at hi
  rw [getEntry_setEntry h.keys, if_neg (hint i), h.next i hi]

theorem valid_empty : empty.Valid :=
  ⟨⟨by decide, by simp [empty], by simp [empty], by simp [empty], fun _ _ => rfl⟩, fun _ _ => rfl⟩

/-! ## 6. Writes by key -/

def put (t : Table) (value : Value) : Value → Table
  | .int i => t.setInt i value
  | k => t.setEntry k value

theorem set_eq (h : normalize key = .ok key') : t.set key value = .ok (t.put value key') := by
  unfold set
  rw [h]
  cases key' <;> rfl

theorem set_eq_error_iff {f : TableFault} : t.set key value = .error f ↔ normalize key = .error f := by
  cases h : normalize key with
  | ok k => simp [set_eq h]
  | error g => simp [set, h]

theorem normalize_eq_nilKey_iff : normalize key = .error .nilKey ↔ key = .nil := by
  cases key with
  | float d =>
    cases hd : d.isNaN with
    | true => simp [normalize_nan hd]
    | false => simp [normalize_float hd]
  | _ => simp [normalize]

theorem normalize_eq_nanKey_iff :
    normalize key = .error .nanKey ↔ ∃ d, key = .float d ∧ d.isNaN = true := by
  cases key with
  | float d =>
    cases hd : d.isNaN with
    | true => simp [normalize_nan hd, hd]
    | false => simp [normalize_float hd, hd]
  | _ => simp [normalize]

theorem normalize_ne_unknownKey : normalize key ≠ .error .unknownKey := by
  cases key with
  | float d =>
    cases hd : d.isNaN with
    | true => simp [normalize_nan hd]
    | false => simp [normalize_float hd]
  | _ => simp [normalize]

theorem Valid.set {t' : Table} (h : t.Valid) (hs : t.set key value = .ok t') : t'.Valid := by
  cases hn : normalize key with
  | error f =>
    rw [set_eq_error_iff.mpr hn] at hs
    cases hs
  | ok k =>
    rw [set_eq hn] at hs
    cases hs
    cases k with
    | int i => exact h.setInt
    | _ => exact h.setEntry (normalize_normal hn) (by simp)

theorem Valid.find_set {t' : Table} {k l : Value} (h : t.Valid) (hn : normalize key = .ok k)
    (hs : t.set key value = .ok t') : t'.find l = if k = l then value else t.find l := by
  rw [set_eq hn] at hs
  cases hs
  cases k with
  | int i => exact h.find_setInt
  | _ => exact h.toTidy.find_setEntry (by simp)

/-- **A write changes the value of all keys that equal its own, and of no others.** -/
theorem Valid.get_set {t' : Table} (h : t.Valid) (hs : t.set key value = .ok t') :
    t'.get key' = if key.rawEqual key' then value else t.get key' := by
  cases hn : normalize key with
  | error f =>
    rw [set_eq_error_iff.mpr hn] at hs
    cases hs
  | ok k =>
    cases hn' : normalize key' with
    | error f =>
      rw [rawEqual_error hn hn', get_of_error hn', get_of_error hn']
      rfl
    | ok l =>
      rw [get_of_normalize hn', get_of_normalize hn', h.find_set hn hs]
      simp only [rawEqual_iff hn hn']

end

/-! ## 7. Histories -/

inductive Write where
  | key (k v : Value)
  | int (i : Int64) (v : Value)
  | name (s : String) (v : Value)

namespace Write

def target : Write → Value
  | key k _ => k
  | int i _ => .int i
  | name s _ => .ofString s

def value : Write → Value
  | key _ v | int _ v | name _ v => v

def apply (t : Table) : Write → Except TableFault Table
  | key k v => t.set k v
  | int i v => .ok (t.setInt i v)
  | name s v => .ok (t.setName s v)

theorem apply_eq (t : Table) (w : Write) : w.apply t = t.set w.target w.value := by
  cases w <;> rfl

end Write

def after (t : Table) : List Write → Table
  | [] => t
  | w :: ws =>
    match w.apply t with
    | .ok t' => after t' ws
    | .error _ => after t ws

def record (t : Table) : List Write → List (Value × Value)
  | [] => []
  | w :: ws =>
    match w.apply t with
    | .ok t' => (w.target, w.value) :: record t' ws
    | .error _ => record t ws

def numbered (vs : List Value) : List (Value × Value) :=
  (vs.zipIdx 1).map fun (v, i) => (.int (Int64.ofNat i), v)

def lastWritten (key : Value) (log : List (Value × Value)) : Value :=
  ((log.reverse.find? fun e => e.1.rawEqual key).map (·.2)).getD .nil

theorem lastWritten_append (key : Value) (log : List (Value × Value)) (e : Value × Value) :
    lastWritten key (log ++ [e]) = if e.1.rawEqual key then e.2 else lastWritten key log := by
  unfold lastWritten
  rw [List.reverse_append, List.reverse_singleton, List.singleton_append, List.find?_cons]
  cases e.1.rawEqual key <;> rfl

theorem Valid.after {t : Table} (h : t.Valid) (ws : List Write) : (t.after ws).Valid := by
  induction ws generalizing t with
  | nil => exact h
  | cons w ws ih =>
    unfold Table.after
    split
    · next hw => exact ih (h.set (w.apply_eq t ▸ hw))
    · exact ih h

theorem get_after_of {t : Table} {log : List (Value × Value)} (h : t.Valid)
    (hlog : ∀ key, t.get key = lastWritten key log) (ws : List Write) (key : Value) :
    (t.after ws).get key = lastWritten key (log ++ t.record ws) := by
  induction ws generalizing t log with
  | nil => rw [after, record, List.append_nil, hlog]
  | cons w ws ih =>
    unfold after record
    cases hw : w.apply t with
    | error f => exact ih h hlog
    | ok t' =>
      have hset : t.set w.target w.value = .ok t' := w.apply_eq t ▸ hw
      rw [List.append_cons]
      refine ih (h.set hset) fun key' => ?_
      rw [h.get_set hset, hlog, lastWritten_append]

theorem ofList_eq (vs : List Value) :
    ofList vs = empty.after ((vs.zipIdx 1).map fun (v, i) => .int (Int64.ofNat i) v) := by
  have hgo : ∀ (t : Table) (i : Nat),
      ofList.go t i vs = t.after ((vs.zipIdx i).map fun (v, i) => .int (Int64.ofNat i) v) := by
    induction vs with
    | nil => exact fun _ _ => rfl
    | cons v vs ih => exact fun t i => ih _ _
  exact hgo empty 1

theorem record_ofList (vs : List Value) :
    empty.record ((vs.zipIdx 1).map fun (v, i) => .int (Int64.ofNat i) v) = numbered vs := by
  have hgo : ∀ (t : Table) (i : Nat),
      t.record ((vs.zipIdx i).map fun (v, i) => .int (Int64.ofNat i) v) =
        (vs.zipIdx i).map fun (v, i) => (.int (Int64.ofNat i), v) := by
    induction vs with
    | nil => exact fun _ _ => rfl
    | cons v vs ih => exact fun t i => congrArg _ (ih _ _)
  exact hgo empty 1

theorem valid_ofList (vs : List Value) : (ofList vs).Valid := by
  rw [ofList_eq]
  exact valid_empty.after _

theorem get_ofList (vs : List Value) (key : Value) : (ofList vs).get key = lastWritten key (numbered vs) := by
  have hempty : ∀ key, empty.get key = lastWritten key [] := fun key => by
    cases hn : normalize key with
    | error f => exact get_of_error hn
    | ok k =>
      rw [get_of_normalize hn]
      cases k with
      | int i => exact if_neg (by simp [inArray, empty]; omega)
      | _ => rfl
  rw [ofList_eq, get_after_of valid_empty hempty, List.nil_append, record_ofList]

/-- **The value of a key is the one written last under an equal key**, whatever was written, to
    whatever part of the table, in between; a table begins with a list of values, which may be empty.
    Nil and NaN are refused as keys, and nothing else is. -/
theorem get_after (vs : List Value) (ws : List Write) :
    let t := (ofList vs).after ws
    let log := numbered vs ++ (ofList vs).record ws
    (∀ key, t.get key = lastWritten key log) ∧
      (∀ i, t.getInt i = lastWritten (.int i) log) ∧
      (∀ name, t.getName name = lastWritten (.ofString name) log) ∧
      ∀ key value,
        (t.set key value = .error .nilKey ↔ key = .nil) ∧
          (t.set key value = .error .nanKey ↔ ∃ d, key = .float d ∧ d.isNaN = true) ∧
          t.set key value ≠ .error .unknownKey := by
  intro t log
  have hget : ∀ key, t.get key = lastWritten key log :=
    get_after_of (valid_ofList vs) (get_ofList vs) ws
  refine ⟨hget, fun i => hget (.int i), fun name => hget (.ofString name), fun key value => ⟨?_, ?_, ?_⟩⟩
  · rw [set_eq_error_iff, normalize_eq_nilKey_iff]
  · rw [set_eq_error_iff, normalize_eq_nanKey_iff]
  · rw [Ne, set_eq_error_iff]
    exact normalize_ne_unknownKey

end Table

end LuaMachine
