/-
  WALKS OVER TABLES, also over tables that change on the way. All places of a table stand in one row, array
  first; a write to a live field moves none of them, so a walk that goes on from a key goes on from its
  place.

  * `walk_under_writes` -- **no step fails, no key comes twice, every key that was live and is not cleared
    before its turn comes with its value, and nothing else comes**.
-/
import LuaMachine.Proofs.Value.TableMap

namespace LuaMachine

namespace Table

/-! ## 1. Places -/

def slots (t : Table) : List (Value × Value) := numbered t.array.toList ++ t.entries

def isLive (e : Value × Value) : Bool := !e.2.isNil

theorem isLive_iff {e : Value × Value} : isLive e = true ↔ e.2 ≠ .nil := by
  obtain ⟨k, v⟩ := e
  cases v <;> simp [isLive, Value.isNil]

section

variable {t : Table} {key k v : Value} {j : Nat}

@[simp] theorem length_numbered (vs : List Value) : (numbered vs).length = vs.length := by
  simp [numbered]

theorem getElem?_numbered {vs : List Value} :
    (numbered vs)[j]? = vs[j]?.map fun v => (.int (Int64.ofNat (j + 1)), v) := by
  simp only [numbered, List.getElem?_map, List.getElem?_zipIdx, Option.map_map]
  rw [Nat.add_comm 1 j]
  rfl

theorem getElem?_slots :
    t.slots[j]? = if j < t.array.size then t.array[j]?.map fun v => (.int (Int64.ofNat (j + 1)), v)
      else t.entries[j - t.array.size]? := by
  rw [slots, List.getElem?_append, length_numbered, Array.length_toList, getElem?_numbered,
    Array.getElem?_toList]

theorem toList_go (vs : List Value) (i : Nat) :
    toList.go vs i = ((vs.zipIdx i).map fun (v, i) => (Value.int (Int64.ofNat i), v)).filter isLive := by
  induction vs generalizing i with
  | nil => rfl
  | cons v vs ih =>
    rw [toList.go, List.zipIdx_cons, List.map_cons, ih]
    cases hv : v.isNil <;> simp [isLive, hv]

theorem toList_eq : t.toList = t.slots.filter isLive := by
  rw [slots, List.filter_append, toList, toList_go]
  rfl

theorem toInt_index (h : t.Tidy) (hj : j < t.array.size) : (Int64.ofNat (j + 1)).toInt = j + 1 := by
  have := h.size
  rw [maxValue_toInt] at this
  rw [Int64.toInt_ofNat_of_lt (by omega)]
  rfl

theorem indexOf_of_getElem? {es : List (Value × Value)} (hn : (es.map (·.1)).Nodup)
    (h : es[j]? = some (k, v)) : indexOf k es = some j := by
  induction es generalizing j with
  | nil => cases h
  | cons e es ih =>
    rw [List.map_cons, List.nodup_cons] at hn
    cases j with
    | zero =>
      cases h
      simp [indexOf]
    | succ j =>
      have hne : e.1 ≠ k := fun he =>
        hn.1 (he ▸ List.mem_map_of_mem (List.mem_of_getElem? (l := es) h))
      rw [indexOf, if_neg hne, ih hn.2 h]
      rfl

theorem Valid.not_inArray {i : Int64} (h : t.Valid) (hm : (.int i, v) ∈ t.entries) (hv : v ≠ .nil) :
    t.inArray i = false := by
  rw [Bool.eq_false_iff]
  intro hin
  have hnil := h.apart i hin
  rw [getEntry, lookup_of_mem h.keys hm] at hnil
  exact hv hnil

/-! ## 2. Keys and their places -/

theorem Valid.of_slot (h : t.Valid) (hs : t.slots[j]? = some (k, v)) (hv : v ≠ .nil) :
    normalize k = .ok k ∧ t.find k = v ∧ t.placeAfter k = .ok (j + 1) := by
  rw [getElem?_slots] at hs
  split at hs
  · next hj =>
    obtain ⟨v', hv', hk⟩ := Option.map_eq_some_iff.mp hs
    cases hk
    have htoInt := toInt_index h.toTidy hj
    have hin : t.inArray (Int64.ofNat (j + 1)) = true := inArray_iff.mpr (by omega)
    refine ⟨rfl, ?_, ?_⟩
    · rw [find, getInt, if_pos hin, htoInt, show ((j : Int) + 1).toNat - 1 = j by omega, hv']
      rfl
    · show (if t.inArray (Int64.ofNat (j + 1)) then _ else _) = _
      rw [if_pos hin, htoInt]
      rfl
  · next hj =>
    have hm := List.mem_of_getElem? hs
    have hk := h.normal _ hm
    have hout : ∀ i, k = .int i → t.inArray i = false := fun i hi => h.not_inArray (hi ▸ hm) hv
    refine ⟨hk, ?_, ?_⟩
    · rw [find_eq_getEntry hout, getEntry, lookup_of_mem h.keys hm]
      rfl
    · have hidx := indexOf_of_getElem? h.keys hs
      have hplace : t.array.size + (j - t.array.size) + 1 = j + 1 := by omega
      unfold placeAfter
      rw [hk]
      cases k with
      | int i =>
        dsimp only
        rw [if_neg (by simp [hout i rfl]), hidx]
        simp only [hplace]
      | _ =>
        dsimp only
        rw [hidx]
        simp only [hplace]

theorem Valid.slot_of_find (h : t.Valid) (hk : normalize k = .ok k) (hv : t.find k ≠ .nil) :
    ∃ j : Nat, t.slots[j]? = some (k, t.find k) := by
  have hentry : t.find k = t.getEntry k → ∃ j : Nat, t.slots[j]? = some (k, t.find k) := by
    intro he
    have hmem : (k, t.find k) ∈ t.entries := by
      rw [he] at hv ⊢
      unfold getEntry at hv ⊢
      cases hl : lookup k t.entries with
      | none =>
        rw [hl] at hv
        exact (hv rfl).elim
      | some v => exact mem_of_lookup hl
    obtain ⟨idx, hidx⟩ := List.getElem?_of_mem hmem
    refine ⟨t.array.size + idx, ?_⟩
    rw [getElem?_slots, if_neg (by omega), Nat.add_sub_cancel_left, hidx]
  cases k with
  | int i =>
    by_cases hin : t.inArray i = true
    · obtain ⟨h1, h2⟩ := inArray_iff.mp hin
      have hlt : i.toInt.toNat - 1 < t.array.size := by omega
      refine ⟨i.toInt.toNat - 1, ?_⟩
      have hi : Int64.ofNat (i.toInt.toNat - 1 + 1) = i := by
        rw [← Int64.toInt_inj, toInt_index h.toTidy hlt]
        omega
      rw [getElem?_slots, if_pos hlt, hi, find, getInt, if_pos hin, Array.getElem?_eq_getElem hlt]
      rfl
    · exact hentry (find_eq_getEntry fun j hj => by cases hj; simpa using hin)
  | _ => exact hentry rfl

theorem placeAfter_normal (hk : normalize key = .ok k) : t.placeAfter key = t.placeAfter k := by
  unfold placeAfter
  rw [hk, normalize_normal hk]

theorem get_ne_nil (h : t.get key ≠ .nil) : ∃ k, normalize key = .ok k ∧ t.find k ≠ .nil := by
  cases hn : normalize key with
  | error f => exact (h (get_of_error hn)).elim
  | ok k => exact ⟨k, rfl, by rwa [get_of_normalize hn] at h⟩

theorem Valid.place_of_live (h : t.Valid) (hl : t.get key ≠ .nil) :
    ∃ j k, normalize key = .ok k ∧ t.slots[j]? = some (k, t.get key) ∧ t.placeAfter key = .ok (j + 1) := by
  obtain ⟨k, hk, hv⟩ := get_ne_nil hl
  obtain ⟨j, hj⟩ := h.slot_of_find (normalize_normal hk) hv
  refine ⟨j, k, hk, by rwa [get_of_normalize hk], ?_⟩
  rw [placeAfter_normal hk]
  exact (h.of_slot hj hv).2.2

theorem Valid.rawEqual_of_place {a b : Value} {n : Nat} (h : t.Valid) (ha : t.get a ≠ .nil)
    (hb : t.get b ≠ .nil) (hpa : t.placeAfter a = .ok n) (hpb : t.placeAfter b = .ok n) :
    a.rawEqual b = true := by
  obtain ⟨i, k, hk, hsk, hpk⟩ := h.place_of_live ha
  obtain ⟨j, l, hl, hsl, hpl⟩ := h.place_of_live hb
  rw [hpa] at hpk
  rw [hpb] at hpl
  cases hpk
  cases hpl
  rw [hsk] at hsl
  exact (rawEqual_iff hk hl).mpr (congrArg Prod.fst (Option.some.inj hsl))

theorem get_congr {a b : Value} (h : a.rawEqual b = true) (ha : t.get a ≠ .nil) : t.get a = t.get b := by
  obtain ⟨k, hk, _⟩ := get_ne_nil ha
  cases hl : normalize b with
  | error f =>
    rw [rawEqual_error hk hl] at h
    cases h
  | ok l =>
    have hkl := (rawEqual_iff hk hl).mp h
    rw [get_of_normalize hk, get_of_normalize hl, hkl]

theorem placeAfter_congr {a b : Value} {n : Nat} (h : a.rawEqual b = true) (hb : t.get b ≠ .nil)
    (ha : t.placeAfter a = .ok n) : t.placeAfter b = .ok n := by
  obtain ⟨l, hl, _⟩ := get_ne_nil hb
  cases hk : normalize a with
  | error f =>
    rw [placeAfter, hk] at ha
    cases ha
  | ok k => rw [placeAfter_normal hl, ← (rawEqual_iff hk hl).mp h, ← placeAfter_normal hk, ha]

/-! ## 3. Steps of a walk -/

def At (t : Table) (key : Value) (n : Nat) : Prop :=
  if key = .nil then n = 0 else t.placeAfter key = .ok n

theorem firstInArray_eq (n : Nat) (h : j + n = t.array.size) :
    t.firstInArray n j = ((numbered t.array.toList).drop j).find? isLive := by
  induction n generalizing j with
  | zero =>
    rw [List.drop_eq_nil_of_le (by simp; omega)]
    rfl
  | succ n ih =>
    have hj : j < t.array.size := by omega
    have hdrop : (numbered t.array.toList).drop j =
        (.int (Int64.ofNat (j + 1)), t.array[j]) :: (numbered t.array.toList).drop (j + 1) := by
      rw [List.drop_eq_getElem_cons (by simpa using hj)]
      congr 1
      refine Option.some.inj ?_
      rw [← List.getElem?_eq_getElem, getElem?_numbered, Array.getElem?_toList, Array.getElem?_eq_getElem hj]
      rfl
    rw [hdrop, List.find?_cons, firstInArray, Array.getElem?_eq_getElem hj, Option.getD_some]
    split
    · next hv =>
      rw [hv]
      exact ih (by omega)
    · next hv => rw [isLive_iff.mpr hv]

theorem firstFrom_eq (n : Nat) : (match t.firstInArray (t.array.size - n) n with
    | some e => (.ok (some e) : Except TableFault (Option (Value × Value)))
    | none => .ok (firstLive (t.entries.drop (n - t.array.size)))) = .ok ((t.slots.drop n).find? isLive) := by
  rw [slots, List.drop_append, length_numbered, Array.length_toList, List.find?_append]
  by_cases hn : n ≤ t.array.size
  · rw [firstInArray_eq _ (Nat.add_sub_cancel' hn)]
    cases ((numbered t.array.toList).drop n).find? isLive <;> rfl
  · have harray : (numbered t.array.toList).drop n = [] := List.drop_eq_nil_of_le (by simp; omega)
    rw [show t.array.size - n = 0 by omega, harray]
    rfl

/-- **A walk goes on to the first live place behind a key's.** -/
theorem next_eq {n : Nat} (h : t.At key n) : t.next key = .ok ((t.slots.drop n).find? isLive) := by
  unfold At at h
  unfold next
  split at h
  · next hk =>
    subst hk
    subst h
    exact firstFrom_eq 0
  · next hk =>
    have hnil : ¬ key.isNil = true := fun hn => hk (by cases key <;> first | rfl | cases hn)
    rw [if_neg hnil, h]
    exact firstFrom_eq n

theorem Valid.next_some {n : Nat} (h : t.Valid) (hat : t.At key n) (hn : t.next key = .ok (some (k, v))) :
    t.get k = v ∧ v ≠ .nil ∧ normalize k = .ok k ∧
      ∃ j, n ≤ j ∧ t.slots[j]? = some (k, v) ∧ t.placeAfter k = .ok (j + 1) ∧
        ∀ i, n ≤ i → i < j → ∀ e, t.slots[i]? = some e → isLive e = false := by
  rw [next_eq hat] at hn
  obtain ⟨hlive, i, hi, he, hbefore⟩ := List.find?_eq_some_iff_getElem.mp (Except.ok.inj hn)
  have hv := isLive_iff.mp hlive
  have hslot : t.slots[n + i]? = some (k, v) := by
    rw [← List.getElem?_drop, List.getElem?_eq_getElem hi, he]
  obtain ⟨hk, hfind, hplace⟩ := h.of_slot hslot hv
  refine ⟨by rw [get_of_normalize hk, hfind], hv, hk, n + i, Nat.le_add_right .., hslot, hplace, ?_⟩
  intro m hnm hmj e hm
  have hlt : m - n < i := by omega
  have hdrop : (t.slots.drop n)[m - n]? = some e := by
    rw [List.getElem?_drop, show n + (m - n) = m by omega, hm]
  have hdead := hbefore (m - n) hlt
  rw [(List.getElem?_eq_some_iff.mp hdrop).2] at hdead
  simpa using hdead

theorem next_none {n : Nat} (hat : t.At key n) (hn : t.next key = .ok none) {i : Nat} (hi : n ≤ i)
    {e : Value × Value} (he : t.slots[i]? = some e) : isLive e = false := by
  rw [next_eq hat] at hn
  have hall := List.find?_eq_none.mp (Except.ok.inj hn)
  have hdrop : (t.slots.drop n)[i - n]? = some e := by
    rw [List.getElem?_drop, show n + (i - n) = i by omega, he]
  simpa using hall e (List.mem_of_getElem? hdrop)

/-! ## 4. Writes to live fields -/

structure SameShape (t t' : Table) : Prop where
  size : t'.array.size = t.array.size
  keys : t'.entries.map (·.1) = t.entries.map (·.1)

theorem SameShape.refl (t : Table) : SameShape t t := ⟨rfl, rfl⟩

theorem SameShape.trans {t t' t'' : Table} (h : SameShape t t') (h' : SameShape t' t'') : SameShape t t'' :=
  ⟨h'.size.trans h.size, h'.keys.trans h.keys⟩

theorem indexOf_congr {es es' : List (Value × Value)} (h : es'.map (·.1) = es.map (·.1)) :
    indexOf key es' = indexOf key es := by
  induction es generalizing es' with
  | nil =>
    rw [List.map_nil, List.map_eq_nil_iff] at h
    rw [h]
  | cons e es ih =>
    cases es' with
    | nil => cases h
    | cons e' es' =>
      rw [List.map_cons, List.map_cons, List.cons.injEq] at h
      rw [indexOf, indexOf, h.1, ih h.2]

theorem SameShape.placeAfter {t' : Table} (h : SameShape t t') : t'.placeAfter key = t.placeAfter key := by
  unfold Table.placeAfter inArray
  simp only [h.size, indexOf_congr h.keys]

theorem SameShape.at {t' : Table} {n : Nat} (h : SameShape t t') (hat : t.At key n) : t'.At key n := by
  unfold At at *
  rwa [h.placeAfter]

/-- **A write to a live field moves nothing.** -/
theorem Valid.sameShape {t' : Table} (h : t.Valid) (hl : t.get key ≠ .nil) (hs : t.set key v = .ok t') :
    SameShape t t' := by
  obtain ⟨k, hk, hv⟩ := get_ne_nil hl
  rw [set_eq hk] at hs
  cases hs
  have hentry : t.find k = t.getEntry k → SameShape t (t.setEntry k v) := by
    intro he
    refine ⟨by rw [array_setEntry], ?_⟩
    unfold Table.setEntry
    split
    · exact keys_replace
    · next hnone =>
      rw [he, getEntry_of_lookup hnone] at hv
      exact (hv rfl).elim
  cases k with
  | int i =>
    show SameShape t (t.setInt i v)
    unfold Table.setInt
    split
    · exact ⟨Array.size_modify, rfl⟩
    · next hout =>
      have he : t.find (.int i) = t.getEntry (.int i) :=
        find_eq_getEntry fun j hj => by cases hj; simpa using hout
      split
      · next hnext =>
        -- the next key of the array is never live
        rw [he, h.next i hnext.1] at hv
        exact (hv rfl).elim
      · exact hentry he
  | _ => exact hentry rfl

end

/-! ## 5. Walks -/

inductive Event where
  /-- The walk comes to a key, with its value. -/
  | visit (key value : Value)
  | write (w : Write)

/-- Walks from the start on, over a table whose live fields are written between the steps: what
    has happened, the table now and the key come to last. -/
inductive Walks (t₀ : Table) : List Event → Table → Value → Prop where
  | start : Walks t₀ [] t₀ .nil
  | visit {es : List Event} {t : Table} {key k v : Value} (h : Walks t₀ es t key)
      (hn : t.next key = .ok (some (k, v))) : Walks t₀ (es ++ [.visit k v]) t k
  | write {es : List Event} {t t' : Table} {key : Value} {w : Write} (h : Walks t₀ es t key)
      (hl : t.get w.target ≠ .nil) (hw : w.apply t = .ok t') : Walks t₀ (es ++ [.write w]) t' key

def visited (es : List Event) : List Value :=
  es.filterMap fun
    | .visit k _ => some k
    | .write _ => none

def Visited (key : Value) (es : List Event) : Prop := ∃ k ∈ visited es, k.rawEqual key = true

def Lost (key : Value) (es : List Event) : Prop :=
  ∃ before w behind, es = before ++ .write w :: behind ∧ w.value = .nil ∧ w.target.rawEqual key = true ∧
    ¬ Visited key before

section

variable {key k v : Value} {es : List Event} {w : Write}

theorem visited_append (es es' : List Event) : visited (es ++ es') = visited es ++ visited es' :=
  List.filterMap_append

theorem Visited.append (h : Visited key es) (e : Event) : Visited key (es ++ [e]) := by
  obtain ⟨k, hk, hr⟩ := h
  exact ⟨k, by rw [visited_append]; exact List.mem_append_left _ hk, hr⟩

theorem visited_visit : Visited key (es ++ [.visit k v]) ↔ Visited key es ∨ k.rawEqual key = true := by
  unfold Visited
  rw [visited_append]
  simp [visited, or_and_right, exists_or]

theorem visited_write : Visited key (es ++ [.write w]) ↔ Visited key es := by
  unfold Visited
  rw [visited_append]
  simp [visited]

theorem Lost.append (h : Lost key es) (e : Event) : Lost key (es ++ [e]) := by
  obtain ⟨before, w, behind, rfl, hw⟩ := h
  exact ⟨before, w, behind ++ [e], by simp, hw⟩

theorem lost_append {e : Event} (h : Lost key (es ++ [e])) :
    Lost key es ∨ ∃ w, e = .write w ∧ w.value = .nil ∧ w.target.rawEqual key = true ∧ ¬ Visited key es := by
  obtain ⟨before, w, behind, heq, hw⟩ := h
  obtain rfl | ⟨behind', e', rfl⟩ := List.eq_nil_or_concat behind
  · obtain ⟨rfl, he⟩ := List.append_inj' heq rfl
    exact .inr ⟨w, by simpa using he, hw⟩
  · rw [List.concat_eq_append, ← List.cons_append, ← List.append_assoc] at heq
    exact .inl ⟨before, w, behind', (List.append_inj' heq rfl).1, hw⟩

end

/-- What holds on the way: where the walk is, and for each key that was live at the start whether it
    has come, is lost or is still to come. -/
structure Walked (t₀ : Table) (es : List Event) (t : Table) (key : Value) (n : Nat) : Prop where
  valid : t.Valid
  shape : SameShape t₀ t
  here : t.At key n
  dead : ∀ a, t₀.get a = .nil → t.get a = .nil
  came : ∀ a ∈ visited es, a ∈ t₀.toList.map (·.1) ∧ ∃ j, j < n ∧ t₀.placeAfter a = .ok (j + 1)
  nodup : (visited es).Nodup
  passed : ∀ a j, t₀.get a ≠ .nil → t₀.placeAfter a = .ok (j + 1) → j < n → Visited a es ∨ Lost a es
  ahead : ∀ a j, t₀.get a ≠ .nil → t₀.placeAfter a = .ok (j + 1) → n ≤ j → t.get a = .nil → Lost a es
  lost : ∀ a, Lost a es → t.get a = .nil ∧ ¬ Visited a es

section

variable {t₀ t : Table} {key : Value} {es : List Event} {n : Nat}

theorem Walked.start (h : t₀.Valid) : Walked t₀ [] t₀ .nil 0 where
  valid := h
  shape := .refl t₀
  here := rfl
  dead := fun _ ha => ha
  came := fun _ ha => (List.not_mem_nil ha).elim
  nodup := List.nodup_nil
  passed := fun _ _ _ _ hj => (Nat.not_lt_zero _ hj).elim
  ahead := fun _ _ hl _ _ hn => (hl hn).elim
  lost := fun _ ⟨_, _, _, h, _⟩ => by simp at h

theorem Walked.fresh (h : Walked t₀ es t key n) (h0 : t₀.Valid) {k v : Value}
    (hn : t.next key = .ok (some (k, v))) :
    t.get k = v ∧ v ≠ .nil ∧ t₀.get k ≠ .nil ∧ k ∈ t₀.toList.map (·.1) ∧ ¬ Visited k es := by
  obtain ⟨hget, hv, hk, j, hj, hslot, hplace, _⟩ := h.valid.next_some h.here hn
  have hlive : t₀.get k ≠ .nil := fun hnil => hv (by rw [← hget, h.dead k hnil])
  have hplace0 : t₀.placeAfter k = .ok (j + 1) := by rw [← h.shape.placeAfter, hplace]
  refine ⟨hget, hv, hlive, ?_, ?_⟩
  · obtain ⟨i, k', hk', hs, _⟩ := h0.place_of_live hlive
    rw [hk] at hk'
    cases hk'
    rw [toList_eq]
    exact List.mem_map.mpr ⟨_, List.mem_filter.mpr ⟨List.mem_of_getElem? hs, isLive_iff.mpr hlive⟩, rfl⟩
  · rintro ⟨a, ha, hr⟩
    obtain ⟨hmem, i, hi, hpa⟩ := h.came a ha
    -- the places of keys that came are behind, and this one is ahead
    have hpk := placeAfter_congr hr hlive hpa
    rw [hplace0] at hpk
    cases hpk
    omega

theorem Walked.visit (h : Walked t₀ es t key n) (h0 : t₀.Valid) {k v : Value}
    (hn : t.next key = .ok (some (k, v))) : ∃ m, Walked t₀ (es ++ [.visit k v]) t k m := by
  obtain ⟨hget, hv, hlive, hmem, hfresh⟩ := h.fresh h0 hn
  obtain ⟨_, _, hk, j, hj, hslot, hplace, hbetween⟩ := h.valid.next_some h.here hn
  have hplace0 : t₀.placeAfter k = .ok (j + 1) := by rw [← h.shape.placeAfter, hplace]
  have hself : k.rawEqual k = true := (rawEqual_iff hk hk).mpr rfl
  -- a key that was live at the start, behind the place reached and not beyond the new one
  have hpassed : ∀ a i, t₀.get a ≠ .nil → t₀.placeAfter a = .ok (i + 1) → n ≤ i → i ≤ j →
      Visited a (es ++ [.visit k v]) ∨ Lost a es := by
    intro a i hla hpa hni hij
    by_cases hnil : t.get a = .nil
    · exact .inr (h.ahead a i hla hpa hni hnil)
    · obtain rfl | hlt := Nat.eq_or_lt_of_le hij
      · exact .inl (visited_visit.mpr (.inr (h0.rawEqual_of_place hlive hla hplace0 hpa)))
      · obtain ⟨m, l, _, hsl, hpl⟩ := h.valid.place_of_live hnil
        rw [h.shape.placeAfter, hpa] at hpl
        cases hpl
        have hdead := hbetween i hni hlt _ hsl
        rw [isLive_iff.mpr hnil] at hdead
        cases hdead
  refine ⟨j + 1, h.valid, h.shape, ?_, h.dead, ?_, ?_, ?_, ?_, ?_⟩
  · unfold At
    rw [if_neg (by rintro rfl; cases hk)]
    exact hplace
  · intro a ha
    rw [visited_append] at ha
    obtain ha | ha := List.mem_append.mp ha
    · obtain ⟨hma, i, hi, hpa⟩ := h.came a ha
      exact ⟨hma, i, by omega, hpa⟩
    · cases List.mem_singleton.mp ha
      exact ⟨hmem, j, by omega, hplace0⟩
  · rw [visited_append]
    refine List.nodup_append.mpr ⟨h.nodup, by simp [visited], fun a ha b hb => ?_⟩
    rw [show b = k from List.mem_singleton.mp hb]
    rintro rfl
    exact hfresh ⟨a, ha, hself⟩
  · intro a i hla hpa hi
    by_cases hni : n ≤ i
    · exact (hpassed a i hla hpa hni (by omega)).imp_right fun hl => hl.append _
    · exact (h.passed a i hla hpa (by omega)).imp (fun hv => hv.append _) fun hl => hl.append _
  · exact fun a i hla hpa hi hnil => (h.ahead a i hla hpa (by omega) hnil).append _
  · intro a hl
    obtain hl | ⟨w, hw, _⟩ := lost_append hl
    · obtain ⟨hnil, hnv⟩ := h.lost a hl
      refine ⟨hnil, fun hva => ?_⟩
      obtain hva | hr := visited_visit.mp hva
      · exact hnv hva
      · rw [← get_congr hr (hget ▸ hv), hget] at hnil
        exact hv hnil
    · cases hw

theorem Walked.write (h : Walked t₀ es t key n) {w : Write} {t' : Table} (hl : t.get w.target ≠ .nil)
    (hw : w.apply t = .ok t') : Walked t₀ (es ++ [.write w]) t' key n := by
  rw [w.apply_eq] at hw
  have hshape := h.valid.sameShape hl hw
  have hget : ∀ a, t'.get a = if w.target.rawEqual a then w.value else t.get a := fun a =>
    h.valid.get_set hw
  -- what is cleared stays cleared: only live fields are written
  have hdead : ∀ a, t.get a = .nil → t'.get a = .nil := by
    intro a ha
    rw [hget, ha]
    split
    · next hr => exact (hl (by rw [get_congr hr hl, ha])).elim
    · rfl
  refine ⟨h.valid.set hw, h.shape.trans hshape, hshape.at h.here, fun a ha => hdead a (h.dead a ha),
    ?_, ?_, ?_, ?_, ?_⟩
  · simpa [visited_append, visited] using h.came
  · simpa [visited_append, visited] using h.nodup
  · exact fun a j hla hpa hj => (h.passed a j hla hpa hj).imp (fun hv => hv.append _) fun hl => hl.append _
  · intro a j hla hpa hj hnil
    by_cases hold : t.get a = .nil
    · exact (h.ahead a j hla hpa hj hold).append _
    · rw [hget] at hnil
      split at hnil
      · next hr =>
        refine ⟨es, w, [], rfl, hnil, hr, ?_⟩
        rintro ⟨b, hb, hrb⟩
        obtain ⟨_, i, hi, hpb⟩ := h.came b hb
        have hpi := placeAfter_congr hrb hla hpb
        rw [hpa] at hpi
        cases hpi
        omega
      · exact (hold hnil).elim
  · intro a hla
    rw [visited_write]
    obtain hla | ⟨w', hw', hnil, hr, hnv⟩ := lost_append hla
    · exact ⟨hdead a (h.lost a hla).1, (h.lost a hla).2⟩
    · cases hw'
      exact ⟨by rw [hget, if_pos hr, hnil], hnv⟩

/-- **What holds on the way holds on every walk.** -/
theorem Walks.walked (h0 : t₀.Valid) (h : Walks t₀ es t key) : ∃ n, Walked t₀ es t key n := by
  induction h with
  | start => exact ⟨0, .start h0⟩
  | visit _ hn ih =>
    obtain ⟨n, hw⟩ := ih
    exact hw.visit h0 hn
  | write _ hl hw ih =>
    obtain ⟨n, hwalked⟩ := ih
    exact ⟨n, hwalked.write hl hw⟩

theorem walks_quiet (h0 : t₀.Valid) (hw : Walks t₀ (((t₀.slots.take n).filter isLive).map fun e => .visit e.1 e.2) t₀ key)
    (hat : t₀.At key n) :
    ∃ key', Walks t₀ (t₀.toList.map fun e => .visit e.1 e.2) t₀ key' ∧ t₀.next key' = .ok none := by
  generalize hm : t₀.slots.length - n = m
  induction m using Nat.strongRecOn generalizing n key with
  | _ m ih =>
    cases hnext : (t₀.slots.drop n).find? isLive with
    | none =>
      have hdead : (t₀.slots.drop n).filter isLive = [] :=
        List.filter_eq_nil_iff.mpr (List.find?_eq_none.mp hnext)
      refine ⟨key, ?_, by rw [next_eq hat, hnext]⟩
      rw [toList_eq, ← List.take_append_drop n t₀.slots, List.filter_append, hdead, List.append_nil]
      exact hw
    | some e =>
      obtain ⟨k, v⟩ := e
      have hstep : t₀.next key = .ok (some (k, v)) := by rw [next_eq hat, hnext]
      obtain ⟨_, hv, hk, j, hj, hslot, hplace, hbetween⟩ := h0.next_some hat hstep
      have hlt := (List.getElem?_eq_some_iff.mp hslot).1
      have htake : (t₀.slots.take (j + 1)).filter isLive = (t₀.slots.take n).filter isLive ++ [(k, v)] := by
        have hmiddle : ((t₀.slots.take j).drop n).filter isLive = [] := by
          refine List.filter_eq_nil_iff.mpr fun e he => ?_
          obtain ⟨i, hi⟩ := List.getElem?_of_mem he
          rw [List.getElem?_drop, List.getElem?_take] at hi
          split at hi
          · simp [hbetween (n + i) (by omega) (by omega) e hi]
          · cases hi
        rw [List.take_add_one, hslot, List.filter_append, ← List.take_append_drop n (t₀.slots.take j),
          List.filter_append, hmiddle, List.take_take, Nat.min_eq_left hj]
        simp [isLive_iff (e := (k, v)).mpr hv]
      have hwalks : Walks t₀ (((t₀.slots.take (j + 1)).filter isLive).map fun e => .visit e.1 e.2) t₀ k := by
        rw [htake, List.map_append]
        exact hw.visit hstep
      have hat' : At t₀ k (j + 1) := by
        unfold At
        rw [if_neg (by rintro rfl; cases hk)]
        exact hplace
      exact ih (t₀.slots.length - (j + 1)) (by omega) hwalks hat' rfl

end

/-- **Walks over tables that change.** Over a table with any history, whatever live fields are
    written between the steps: no step fails; the key that a step comes to has the value given, was
    live at the start and has not come before, and no more keys come than were live; at the end each key
    that was live at the start has come or was cleared before its turn, and not both. Without writes the
    walk lists the live fields of the array, then those of the entries in the order of insertion. -/
theorem walk_under_writes (vs : List Value) (ws : List Write) :
    let t₀ := (ofList vs).after ws
    (∀ es t key, Walks t₀ es t key →
      (∃ e, t.next key = .ok e) ∧
      (∀ k v, t.next key = .ok (some (k, v)) →
        t.get k = v ∧ v ≠ .nil ∧ t₀.get k ≠ .nil ∧ ¬ Visited k es ∧ ¬ Lost k es) ∧
      (visited es).Nodup ∧ (visited es).length ≤ t₀.toList.length ∧
      (t.next key = .ok none → ∀ a, t₀.get a ≠ .nil → (Visited a es ↔ ¬ Lost a es))) ∧
    ∃ key, Walks t₀ (t₀.toList.map fun e => .visit e.1 e.2) t₀ key ∧ t₀.next key = .ok none := by
  intro t₀
  have h₀ : t₀.Valid := (valid_ofList vs).after ws
  refine ⟨fun es t key h => ?_, walks_quiet (n := 0) h₀ .start rfl⟩
  obtain ⟨n, hw⟩ := h.walked h₀
  refine ⟨⟨_, next_eq hw.here⟩, fun k v hn => ?_, hw.nodup, ?_, fun hend a ha => ?_⟩
  · obtain ⟨hget, hv, hlive, _, hfresh⟩ := hw.fresh h₀ hn
    exact ⟨hget, hv, hlive, hfresh, fun hl => hv (by rw [← hget, (hw.lost k hl).1])⟩
  · have hlength : (t₀.toList.map (·.1)).length = t₀.toList.length := List.length_map ..
    rw [← hlength]
    exact hw.nodup.length_le_of_subset fun a ha => (hw.came a ha).1
  · refine ⟨fun hv hl => (hw.lost a hl).2 hv, fun hl => ?_⟩
    obtain ⟨j, _, _, _, hplace⟩ := h₀.place_of_live ha
    by_cases hj : j < n
    · exact (hw.passed a j ha hplace hj).resolve_right hl
    · -- a key ahead of the end of the walk is not live any more
      refine (hl (hw.ahead a j ha hplace (by omega) ?_)).elim
      refine Classical.byContradiction fun hlive => ?_
      obtain ⟨i, k, _, hslot, hpi⟩ := hw.valid.place_of_live hlive
      rw [hw.shape.placeAfter, hplace] at hpi
      cases hpi
      have hdead := next_none hw.here hend (by omega) hslot
      rw [isLive_iff.mpr hlive] at hdead
      cases hdead

end Table

end LuaMachine
