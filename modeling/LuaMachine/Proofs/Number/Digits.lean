/-
  DIGITS AND BLANKS. What a run of digits denotes, how numbers are written in a base, and what is left of a
  text without the blanks around it.
-/
import LuaMachine.Number.Decimal
import LuaMachine.Number.Numeral
import Mathlib.Data.List.Induction
import Mathlib.Data.List.TakeWhile
import Mathlib.Data.Nat.Digits.Defs

namespace LuaMachine

namespace Numeral

/-! ## 1. Runs of digits -/

variable {base : Nat} {s t : Bytes}

def digitOf (base : Nat) (b : UInt8) : Nat := (digit? base b).getD 0

def IsDigits (base : Nat) (s : Bytes) : Prop := ∀ b ∈ s, (digit? base b).isSome = true

instance (base : Nat) (s : Bytes) : Decidable (IsDigits base s) := List.decidableBAll _ s

def value (base : Nat) (s : Bytes) : Nat := Nat.ofDigits base (s.reverse.map (digitOf base))

theorem isDigits_cons {b : UInt8} : IsDigits base (b :: s) ↔ (digit? base b).isSome = true ∧ IsDigits base s :=
  List.forall_mem_cons

theorem isDigits_append : IsDigits base (s ++ t) ↔ IsDigits base s ∧ IsDigits base t := List.forall_mem_append

theorem value_concat (b : UInt8) : value base (s ++ [b]) = value base s * base + digitOf base b := by
  simp only [value, List.reverse_append, List.reverse_singleton, List.singleton_append, List.map_cons,
    Nat.ofDigits_cons]
  rw [Nat.mul_comm, Nat.add_comm]

theorem foldl_value : s.foldl (fun acc b => acc * base + digitOf base b) 0 = value base s := by
  induction s using List.reverseRecOn with
  | nil => rfl
  | append_singleton s b ih => rw [List.foldl_append, List.foldl_cons, List.foldl_nil, ih, value_concat]

theorem foldDigits?_eq {α : Type} (step : α → Nat → α) (start : α) (h : IsDigits base s) :
    foldDigits? base step start s = some (s.foldl (fun acc b => step acc (digitOf base b)) start) := by
  unfold foldDigits?
  induction s generalizing start with
  | nil => rfl
  | cons b s ih =>
    obtain ⟨hb, hs⟩ := isDigits_cons.mp h
    obtain ⟨d, hd⟩ := Option.isSome_iff_exists.mp hb
    simp only [List.foldlM_cons, List.foldl_cons, digitOf, hd, Option.map_some, Option.getD_some]
    exact ih _ hs

theorem isDigits_of_foldDigits? {α : Type} {step : α → Nat → α} {start r : α}
    (h : foldDigits? base step start s = some r) : IsDigits base s := by
  unfold foldDigits? at h
  induction s generalizing start with
  | nil => exact List.forall_mem_nil _
  | cons b s ih =>
    rw [List.foldlM_cons] at h
    obtain ⟨a, ha, hs⟩ := Option.bind_eq_some_iff.mp h
    obtain ⟨d, hd, -⟩ := Option.map_eq_some_iff.mp ha
    exact isDigits_cons.mpr ⟨Option.isSome_iff_exists.mpr ⟨d, hd⟩, ih hs⟩

theorem digitsValue?_eq (h : IsDigits base s) : digitsValue? base s = some (value base s) := by
  rw [digitsValue?, foldDigits?_eq _ _ h, foldl_value]

theorem wordValue?_eq (h : IsDigits base s) : wordValue? base s = some (UInt64.ofNat (value base s)) := by
  rw [wordValue?, foldDigits?_eq _ _ h, ← foldl_value]
  congr 1
  induction s using List.reverseRecOn with
  | nil => rfl
  | append_singleton s b ih =>
    simp only [List.foldl_append, List.foldl_cons, List.foldl_nil, ih (isDigits_append.mp h).1, UInt64.ofNat_add,
      UInt64.ofNat_mul]

theorem wordValue?_isSome_iff : (wordValue? base s).isSome = true ↔ IsDigits base s :=
  ⟨fun h => isDigits_of_foldDigits? (Option.isSome_iff_exists.mp h).choose_spec, fun h => by simp [wordValue?_eq h]⟩

theorem value_le_concat (b : UInt8) (hbase : 0 < base) : value base s ≤ value base (s ++ [b]) := by
  rw [value_concat]
  exact (Nat.le_mul_of_pos_right _ hbase).trans (Nat.le_add_right ..)

theorem checkedValue?_eq (h : IsDigits 10 s) :
    checkedValue? s = if value 10 s < UInt64.size then some (value 10 s) else none := by
  unfold checkedValue?
  induction s using List.reverseRecOn with
  | nil => rfl
  | append_singleton s b ih =>
    obtain ⟨hs, hb⟩ := isDigits_append.mp h
    obtain ⟨d, hd⟩ := Option.isSome_iff_exists.mp (hb b (List.mem_singleton_self b))
    have hle : value 10 s ≤ value 10 (s ++ [b]) := value_le_concat b (by decide)
    rw [List.foldlM_append, ih hs]
    rw [value_concat, digitOf, hd, Option.getD_some] at hle ⊢
    split
    · simp [hd]
    · rw [if_neg (by omega)]
      rfl

theorem isDigits_of_checkedValue? {n : Nat} (h : checkedValue? s = some n) : IsDigits 10 s := by
  unfold checkedValue? at h
  induction s using List.reverseRecOn generalizing n with
  | nil => exact List.forall_mem_nil _
  | append_singleton s b ih =>
    rw [List.foldlM_append] at h
    obtain ⟨m, hm, hb⟩ := Option.bind_eq_some_iff.mp h
    rw [List.foldlM_cons] at hb
    obtain ⟨_, hb, -⟩ := Option.bind_eq_some_iff.mp hb
    obtain ⟨d, hd, -⟩ := Option.bind_eq_some_iff.mp hb
    exact isDigits_append.mpr ⟨ih hm, by simpa [IsDigits] using Option.isSome_iff_exists.mpr ⟨d, hd⟩⟩

/-! ## 2. Bytes of digits -/

theorem digit?_eq_some_iff {b : UInt8} {v : Nat} : digit? base b = some v ↔
    v < base ∧ (0x30 ≤ b.toNat ∧ b.toNat ≤ 0x39 ∧ v = b.toNat - 0x30 ∨
      0x61 ≤ b.toNat ∧ b.toNat ≤ 0x7A ∧ v = b.toNat - 0x61 + 10 ∨
      0x41 ≤ b.toNat ∧ b.toNat ≤ 0x5A ∧ v = b.toNat - 0x41 + 10) := by
  simp only [digit?, isDigit, Bool.and_eq_true, decide_eq_true_eq, UInt8.le_iff_toNat_le, UInt8.reduceToNat]
  split_ifs <;> simp <;> omega

theorem isDigit_iff {b : UInt8} : isDigit b = true ↔ (digit? 10 b).isSome = true := by
  simp only [Option.isSome_iff_exists, digit?_eq_some_iff, isDigit, Bool.and_eq_true, decide_eq_true_eq,
    UInt8.le_iff_toNat_le, UInt8.reduceToNat]
  constructor
  · rintro ⟨h1, h₂⟩
    exact ⟨b.toNat - 0x30, by omega⟩
  · rintro ⟨v, h⟩
    omega

def lower (b : UInt8) : UInt8 := if 0x41 ≤ b ∧ b ≤ 0x5A then b + 0x20 else b

theorem digit?_lower (b : UInt8) : digit? base (lower b) = digit? base b := by
  refine Option.ext fun v => ?_
  unfold lower
  split
  · next h =>
    have h' : 0x41 ≤ b.toNat ∧ b.toNat ≤ 0x5A := h
    have hsum : (b + 0x20).toNat = b.toNat + 0x20 := by
      rw [UInt8.toNat_add]
      exact Nat.mod_eq_of_lt (by simp; omega)
    rw [digit?_eq_some_iff, digit?_eq_some_iff, hsum]
    omega
  · rfl

def digitByte (d : Nat) : UInt8 := UInt8.ofNat (if d < 10 then 0x30 + d else 0x61 + (d - 10))

theorem digit?_digitByte {d : Nat} (hd : d < base) (hbase : base ≤ 36) : digit? base (digitByte d) = some d := by
  have hbyte : (digitByte d).toNat = if d < 10 then 0x30 + d else 0x61 + (d - 10) := by
    unfold digitByte
    split <;> exact UInt8.toNat_ofNat_of_lt' (by simp [UInt8.size]; omega)
  rw [digit?_eq_some_iff, hbyte]
  split <;> omega

def written (base n : Nat) : Bytes :=
  if n = 0 then [digitByte 0] else ((Nat.digits base n).map digitByte).reverse

theorem written_ne_nil (base n : Nat) : written base n ≠ [] := by
  unfold written
  split
  · simp
  · next h => simpa [Nat.digits_ne_nil_iff_ne_zero] using h

theorem isDigits_written (h2 : 2 ≤ base) (h36 : base ≤ 36) (n : Nat) : IsDigits base (written base n) := by
  have hzero : digit? base (digitByte 0) = some 0 := digit?_digitByte (by omega) h36
  unfold written IsDigits
  split
  · simp [hzero]
  · simp only [List.mem_reverse, List.mem_map]
    rintro b ⟨d, hd, rfl⟩
    rw [digit?_digitByte (Nat.digits_lt_base h2 hd) h36]
    rfl

theorem written_of_lt {n : Nat} (h : n < base) : written base n = [digitByte n] := by
  unfold written
  split
  · next h0 => rw [h0]
  · next h0 => rw [Nat.digits_of_lt base n h0 h, List.map_singleton, List.reverse_singleton]

theorem written_of_le {n : Nat} (h2 : 2 ≤ base) (h : base ≤ n) :
    written base n = written base (n / base) ++ [digitByte (n % base)] := by
  have hpos : 0 < n / base := Nat.div_pos h (by omega)
  rw [written, written, if_neg (by omega), if_neg hpos.ne', Nat.digits_def' (by omega) (by omega), List.map_cons,
    List.reverse_cons]

theorem value_written (h2 : 2 ≤ base) (h36 : base ≤ 36) (n : Nat) : value base (written base n) = n := by
  have hzero : digit? base (digitByte 0) = some 0 := digit?_digitByte (by omega) h36
  unfold written value
  split
  · next h => simp [digitOf, hzero, h]
  · have hdigits : ((Nat.digits base n).map digitByte).map (digitOf base) = Nat.digits base n := by
      rw [List.map_map]
      refine (List.map_congr_left fun d hd => ?_).trans (List.map_id _)
      simp [digitOf, digit?_digitByte (Nat.digits_lt_base h2 hd) h36]
    rw [List.reverse_reverse, hdigits, Nat.ofDigits_digits]

theorem isDigits_map_lower : IsDigits base (s.map lower) ↔ IsDigits base s := by
  simp [IsDigits, digit?_lower]

theorem value_map_lower : value base (s.map lower) = value base s := by
  have h : digitOf base ∘ lower = digitOf base := funext fun b => by simp [digitOf, digit?_lower]
  rw [value, value, ← List.map_reverse, List.map_map, h]

theorem reads_written (h2 : 2 ≤ base) (h36 : base ≤ 36) {n : Nat} (h : s.map lower = written base n) :
    s ≠ [] ∧ IsDigits base s ∧ value base s = n := by
  refine ⟨?_, ?_, ?_⟩
  · rintro rfl
    exact written_ne_nil base n h.symm
  · rw [← isDigits_map_lower, h]
    exact isDigits_written h2 h36 n
  · rw [← value_map_lower, h, value_written h2 h36]

/-! ## 3. Text of integers -/

theorem toList_eq (bs : ByteArray) : bs.toList = bs.data.toList := by
  have hloop : ∀ (n i : Nat) (r : List UInt8), bs.size - i = n →
      ByteArray.toList.loop bs i r = r.reverse ++ bs.data.toList.drop i := by
    intro n
    induction n with
    | zero =>
      intro i r h
      rw [ByteArray.toList.loop, if_neg (by omega), List.drop_of_length_le (by simp; omega), List.append_nil]
    | succ n ih =>
      intro i r h
      have hi : i < bs.data.toList.length := by
        have : bs.size = bs.data.toList.length := rfl
        omega
      rw [ByteArray.toList.loop, if_pos (by omega), ih _ _ (by omega), List.drop_eq_getElem_cons hi, List.reverse_cons,
        List.append_assoc, List.singleton_append]
      congr 2
      exact getElem!_pos bs.data i hi
  exact hloop _ 0 [] rfl

theorem ofString_ofList (cs : List Char) : Bytes.ofString (String.ofList cs) = cs.flatMap String.utf8EncodeChar := by
  rw [Bytes.ofString, toList_eq]
  exact List.toList_data_toByteArray

theorem encode_digitChar {d : Nat} (h : d < 10) : String.utf8EncodeChar d.digitChar = [digitByte d] := by
  revert d
  decide

theorem ofString_repr (n : Nat) : Bytes.ofString n.repr = written 10 n := by
  rw [Nat.repr_eq_ofList_toDigits, ofString_ofList]
  induction n using Nat.strong_induction_on with
  | _ n ih =>
    by_cases hn : n < 10
    · rw [Nat.toDigits_of_lt_base hn, written_of_lt hn, List.flatMap_singleton, encode_digitChar hn]
    · rw [Nat.toDigits_of_base_le (by decide) (by omega), List.flatMap_append, ih (n / 10) (by omega),
        List.flatMap_singleton, encode_digitChar (Nat.mod_lt n (by decide)), ← written_of_le (by decide) (by omega)]

def writtenInt (base : Nat) (i : Int) : Bytes := (if i < 0 then [0x2D] else []) ++ written base i.natAbs

theorem ofString_text (i : Int64) : Bytes.ofString (Number.int i).text = writtenInt 10 i.toInt := by
  have hminus : ∀ n : Nat, Bytes.ofString ("-" ++ n.repr) = 0x2D :: written 10 n := fun n => by
    rw [← ofString_repr, Nat.repr_eq_ofList_toDigits, ofString_ofList, show "-" = String.ofList ['-'] from rfl,
      ← String.ofList_append, ofString_ofList]
    rfl
  show Bytes.ofString (toString i.toInt) = writtenInt 10 i.toInt
  unfold writtenInt
  cases i.toInt with
  | ofNat n => exact ofString_repr n
  | negSucc n =>
    rw [if_pos (Int.negSucc_lt_zero n)]
    exact hminus (n + 1)

/-! ## 4. Blanks -/

variable {p : UInt8 → Bool}

def Within (p : UInt8 → Bool) (t s : Bytes) : Prop :=
  ∃ before behind, s = before ++ t ++ behind ∧ (∀ b ∈ before, p b = true) ∧ ∀ b ∈ behind, p b = true

theorem within_trimBy (p : UInt8 → Bool) (s : Bytes) : Within p (trimBy p s) s := by
  refine ⟨s.takeWhile p, ((s.dropWhile p).reverse.takeWhile p).reverse, ?_, fun b => List.mem_takeWhile_imp,
    fun b hb => List.mem_takeWhile_imp (List.mem_reverse.mp hb)⟩
  rw [trimBy, List.append_assoc, ← List.reverse_append, List.takeWhile_append_dropWhile, List.reverse_reverse,
    List.takeWhile_append_dropWhile]

theorem dropWhile_of_not (h : ∀ b ∈ t, p b = false) : t.dropWhile p = t := by
  cases t with
  | nil => rfl
  | cons c t => exact List.dropWhile_cons_of_neg (by simp [h c (List.mem_cons_self ..)])

theorem trimBy_eq (h : Within p t s) (ht : ∀ b ∈ t, p b = false) : trimBy p s = t := by
  obtain ⟨before, behind, rfl, hbefore, hbehind⟩ := h
  rw [trimBy, List.append_assoc, List.dropWhile_append_of_pos hbefore]
  cases t with
  | nil =>
    rw [List.nil_append, List.dropWhile_eq_nil_iff.mpr hbehind]
    rfl
  | cons c t =>
    have hc : ¬ p c = true := by simp [ht c (List.mem_cons_self ..)]
    rw [List.cons_append, List.dropWhile_cons_of_neg hc, ← List.cons_append, List.reverse_append,
      List.dropWhile_append_of_pos fun b hb => hbehind b (List.mem_reverse.mp hb),
      dropWhile_of_not fun b hb => ht b (List.mem_reverse.mp hb), List.reverse_reverse]

end Numeral

end LuaMachine
