/-
  THE GRAMMAR OF NUMERALS. What is read as a number is a numeral with blanks around it, and it is read as an
  integer exactly when it is digits alone that denote one.

  * **`Numeral.read_grammar`** -- what is read, and as what.
-/
import LuaMachine.Proofs.Number.Digits

namespace LuaMachine

namespace Numeral

/-! ## 1. The grammar -/

def blanks : Bytes := [0x20, 0x09, 0x0A, 0x0B, 0x0C, 0x0D]

inductive Sign : Bool → Bytes → Prop
  | none : Sign false []
  | plus : Sign false [0x2B]
  | minus : Sign true [0x2D]

inductive HexMark : Bytes → Prop
  | small : HexMark [0x30, 0x78]
  | capital : HexMark [0x30, 0x58]

inductive Mantissa (base : Nat) : Bytes → Prop
  | whole {s} : IsDigits base s → s ≠ [] → Mantissa base s
  | pointed {s t} : IsDigits base s → IsDigits base t → s ++ t ≠ [] → Mantissa base (s ++ 0x2E :: t)

inductive Exponent (small capital : UInt8) : Bytes → Prop
  | none : Exponent small capital []
  | marked {mark neg sign s} : mark = small ∨ mark = capital → Sign neg sign → IsDigits 10 s → s ≠ [] →
      Exponent small capital (mark :: (sign ++ s))

inductive Body : Bytes → Prop
  | hex {x m e} : HexMark x → Mantissa 16 m → Exponent 0x70 0x50 e → Body (x ++ (m ++ e))
  | decimal {m e} : Mantissa 10 m → Exponent 0x65 0x45 e → Body (m ++ e)

/-- Digits alone with the integer that they denote, negative or not. Hexadecimal digits wrap, decimal
    digits denote the integer exactly. -/
inductive Whole : Bool → Bytes → Int64 → Prop
  | hex {neg x s} : HexMark x → IsDigits 16 s → s ≠ [] →
      Whole neg (x ++ s) (if neg then -Int64.ofNat (value 16 s) else Int64.ofNat (value 16 s))
  | decimal {neg s i} : IsDigits 10 s → s ≠ [] →
      i.toInt = (if neg then -(value 10 s : Int) else value 10 s) → Whole neg s i

def Spells (s : Bytes) (P : Bool → Bytes → Prop) : Prop :=
  ∃ neg sign body, Sign neg sign ∧ P neg body ∧ Within (blanks.contains ·) (sign ++ body) s

variable {base : Nat} {s t u v : Bytes}

/-! ## 2. Signs and marks -/

theorem isSpace_eq (b : UInt8) : isSpace b = blanks.contains b := by
  rw [Bool.eq_iff_iff]
  simp only [isSpace, blanks, List.contains_cons, List.contains_nil, Bool.or_eq_true, Bool.and_eq_true, beq_iff_eq,
    decide_eq_true_eq, Bool.or_false, UInt8.le_iff_toNat_le, ← UInt8.toNat_inj, UInt8.reduceToNat]
  omega

def Unsigned (s : Bytes) : Prop := ∀ b, s.head? = some b → b ≠ 0x2B ∧ b ≠ 0x2D

theorem splitSign_eq {neg : Bool} {sign : Bytes} (h : Sign neg sign) (hs : Unsigned s) :
    splitSign (sign ++ s) = (neg, s) := by
  cases h with
  | none =>
    cases s with
    | nil => rfl
    | cons b s => simp [splitSign, hs b rfl]
  | plus => rfl
  | minus => rfl

theorem splitSign_cut (s : Bytes) : ∃ sign, Sign (splitSign s).1 sign ∧ s = sign ++ (splitSign s).2 := by
  cases s with
  | nil => exact ⟨[], .none, rfl⟩
  | cons b s =>
    rw [splitSign]
    split
    · next h => exact ⟨[0x2D], .minus, by simp [eq_of_beq h]⟩
    · split
      · next h => exact ⟨[0x2B], .plus, by simp [eq_of_beq h]⟩
      · exact ⟨[], .none, rfl⟩

theorem afterHexMark?_eq {x : Bytes} (h : HexMark x) (s : Bytes) : afterHexMark? (x ++ s) = some s := by
  cases h <;> rfl

theorem hexMark_of_afterHexMark? (h : afterHexMark? s = some t) : ∃ x, HexMark x ∧ s = x ++ t := by
  unfold afterHexMark? at h
  split at h
  · next z x rest =>
    obtain ⟨hmark, ht⟩ := Option.ite_none_right_eq_some.mp h
    cases ht
    simp only [Bool.and_eq_true, Bool.or_eq_true, beq_iff_eq] at hmark
    obtain ⟨rfl, rfl | rfl⟩ := hmark
    · exact ⟨_, .small, rfl⟩
    · exact ⟨_, .capital, rfl⟩
  · cases h

/-! ## 3. Digits -/

theorem not_digit {b : UInt8} (h : b = 0x2B ∨ b = 0x2D ∨ b = 0x2E ∨ blanks.contains b = true) :
    digit? base b = none := by
  refine Option.eq_none_iff_forall_ne_some.mpr fun v hv => ?_
  have := (digit?_eq_some_iff.mp hv).2
  simp only [blanks, List.contains_cons, List.contains_nil, Bool.or_eq_true, beq_iff_eq, Bool.or_false] at h
  rcases h with rfl | rfl | rfl | rfl | rfl | rfl | rfl | rfl | rfl <;> simp at this

theorem isDigits_ne {b c : UInt8} (h : IsDigits base s) (hb : b ∈ s) (hc : digit? base c = none) : b ≠ c := by
  rintro rfl
  have := h b hb
  rw [hc] at this
  cases this

theorem IsDigits.unsigned (h : IsDigits base s) : Unsigned s := fun b hb => by
  have hmem : b ∈ s := List.mem_of_mem_head? hb
  exact ⟨isDigits_ne h hmem (not_digit (.inl rfl)), isDigits_ne h hmem (not_digit (.inr (.inl rfl)))⟩

theorem IsDigits.afterHexMark? (h : IsDigits 10 s) : afterHexMark? s = none := by
  refine Option.eq_none_iff_forall_ne_some.mpr fun t ht => ?_
  obtain ⟨x, hx, rfl⟩ := hexMark_of_afterHexMark? ht
  cases hx
  · exact isDigits_ne h (b := 0x78) (by simp) (by decide) rfl
  · exact isDigits_ne h (b := 0x58) (by simp) (by decide) rfl

theorem HexMark.unsigned {x : Bytes} (h : HexMark x) (s : Bytes) : Unsigned (x ++ s) := by
  cases h <;> simp [Unsigned]

/-! ## 4. Integers -/

theorem signed_eq (neg : Bool) (n : Nat) :
    signed neg (UInt64.ofNat n) = if neg then -Int64.ofNat n else Int64.ofNat n := rfl

theorem signed_ofInt (neg : Bool) (n : Nat) :
    signed neg (UInt64.ofNat n) = Int64.ofInt (if neg then -(n : Int) else n) := by
  cases neg with
  | false => exact (Int64.ofInt_eq_ofNat ..).symm
  | true =>
    rw [signed_eq, if_pos rfl, if_pos rfl, Int64.ofInt_neg, Int64.ofInt_eq_ofNat]

/-- **The reader of integers takes signed digits, and nothing else.** -/
theorem int?_eq_some_iff {i : Int64} :
    int? s = some i ↔ ∃ neg sign body, Sign neg sign ∧ s = sign ++ body ∧ Whole neg body i := by
  constructor
  · intro h
    obtain ⟨sign, hsign, hs⟩ := splitSign_cut s
    refine ⟨_, sign, _, hsign, hs, ?_⟩
    simp only [int?] at h
    generalize (splitSign s).1 = neg at *
    generalize (splitSign s).2 = body at *
    split at h
    · next t ht =>
      obtain ⟨x, hx, rfl⟩ := hexMark_of_afterHexMark? ht
      obtain ⟨hne, hword⟩ := Option.ite_none_left_eq_some.mp h
      obtain ⟨w, hw, rfl⟩ := Option.map_eq_some_iff.mp hword
      have hdigits := isDigits_of_foldDigits? hw
      rw [wordValue?_eq hdigits] at hw
      cases hw
      exact .hex hx hdigits (by simpa using hne)
    · obtain ⟨hne, hbound⟩ := Option.ite_none_left_eq_some.mp h
      obtain ⟨n, hn, hrange⟩ := Option.bind_eq_some_iff.mp hbound
      have hdigits := isDigits_of_checkedValue? hn
      rw [checkedValue?_eq hdigits] at hn
      obtain ⟨-, hn⟩ := Option.ite_none_right_eq_some.mp hn
      cases hn
      obtain ⟨hle, hi⟩ := Option.ite_none_left_eq_some.mp hrange
      cases hi
      refine .decimal hdigits (by simpa using hne) ?_
      rw [signed_ofInt]
      have hmax : value 10 body ≤ maxInt64 + neg.toNat := Nat.le_of_not_lt hle
      simp only [maxInt64] at hmax
      refine Int64.toInt_ofInt_of_le ?_ ?_ <;> cases neg <;> simp at hmax ⊢ <;> omega
  · rintro ⟨neg, sign, body, hsign, rfl, hwhole⟩
    cases hwhole with
    | @hex x t hx hdigits hne =>
      simp only [int?, splitSign_eq hsign (hx.unsigned t), afterHexMark?_eq hx]
      rw [if_neg (by simpa using hne), wordValue?_eq hdigits]
      rfl
    | decimal hdigits hne hi =>
      have hlo := i.le_toInt
      have hhi := i.toInt_lt
      simp only [int?, splitSign_eq hsign hdigits.unsigned, hdigits.afterHexMark?]
      have hmax : value 10 body ≤ maxInt64 + neg.toNat := by
        simp only [maxInt64]
        cases neg <;> simp at hi ⊢ <;> omega
      have hsize : value 10 body < UInt64.size := by
        have : neg.toNat ≤ 1 := Bool.toNat_le _
        simp only [maxInt64, UInt64.size] at *
        omega
      rw [if_neg (by simpa using hne), checkedValue?_eq hdigits, if_pos hsize, Option.bind_some, if_neg (by omega),
        signed_ofInt, ← hi, Int64.ofInt_toInt]

/-! ## 5. Exponents -/

theorem exponent?_isSome_iff {step : Nat → Nat → Nat} :
    (exponent? step s).isSome = true ↔ ∃ neg sign t, Sign neg sign ∧ IsDigits 10 t ∧ t ≠ [] ∧ s = sign ++ t := by
  constructor
  · intro h
    obtain ⟨e, he⟩ := Option.isSome_iff_exists.mp h
    obtain ⟨sign, hsign, hs⟩ := splitSign_cut s
    simp only [exponent?] at he
    obtain ⟨hne, hdigits⟩ := Option.ite_none_left_eq_some.mp he
    obtain ⟨n, hn, -⟩ := Option.map_eq_some_iff.mp hdigits
    exact ⟨_, sign, _, hsign, isDigits_of_foldDigits? hn, by simpa using hne, hs⟩
  · rintro ⟨neg, sign, t, hsign, hdigits, hne, rfl⟩
    simp only [exponent?, splitSign_eq hsign hdigits.unsigned]
    rw [if_neg (by simpa using hne), foldDigits?_eq _ _ hdigits]
    rfl

theorem scaled?_isSome_iff {small capital : UInt8} {step : Nat → Nat → Nat} {scale : Int → Double} :
    (scaled? small capital step scale s).isSome = true ↔ Exponent small capital s := by
  cases s with
  | nil => exact iff_of_true rfl .none
  | cons b t =>
    rw [scaled?]
    constructor
    · intro h
      obtain ⟨v, hv⟩ := Option.isSome_iff_exists.mp h
      obtain ⟨hmark, he⟩ := Option.ite_none_right_eq_some.mp hv
      obtain ⟨neg, sign, u, hsign, hdigits, hne, rfl⟩ :=
        exponent?_isSome_iff.mp (by simpa using Option.isSome_iff_exists.mpr ⟨v, he⟩)
      exact .marked (by simpa using hmark) hsign hdigits hne
    · intro h
      cases h with
      | marked hmark hsign hdigits hne =>
        rw [if_pos (by simpa using hmark), Option.isSome_map]
        exact exponent?_isSome_iff.mpr ⟨_, _, _, hsign, hdigits, hne, rfl⟩

/-! ## 6. Decimal doubles -/

def Ends (p : UInt8 → Bool) (s : Bytes) : Prop := ∀ b, s.head? = some b → p b = false

theorem span_digits (hs : IsDigits 10 s) (ht : Ends isDigit t) :
    (s ++ t).takeWhile isDigit = s ∧ (s ++ t).dropWhile isDigit = t := by
  have hall : ∀ b ∈ s, isDigit b = true := fun b hb => isDigit_iff.mpr (hs b hb)
  rw [List.takeWhile_append_of_pos hall, List.dropWhile_append_of_pos hall]
  cases t with
  | nil => simp
  | cons b t =>
    have hb : ¬ isDigit b = true := by simp [ht b rfl]
    rw [List.takeWhile_cons_of_neg hb, List.dropWhile_cons_of_neg hb, List.append_nil]
    exact ⟨rfl, rfl⟩

theorem isDigits_takeWhile (s : Bytes) : IsDigits 10 (s.takeWhile isDigit) := fun _ hb =>
  isDigit_iff.mp (List.mem_takeWhile_imp hb)

theorem exists_significand (h : IsDigits 10 s) : ∃ p, significand? s = some p := by
  have hsub : IsDigits 10 ((s.dropWhile (· == 0x30)).take digitLimit) := fun b hb =>
    h b ((List.dropWhile_suffix _).subset (List.mem_of_mem_take hb))
  rw [significand?, digitsValue?_eq hsub]
  exact ⟨_, rfl⟩

theorem ends_dropWhile (p : UInt8 → Bool) (s : Bytes) : Ends p (s.dropWhile p) := fun b hb => by
  have := List.head?_dropWhile_not p s
  rw [hb] at this
  simpa using this

theorem decimalParts_whole (hs : IsDigits 10 s) (ht : Ends isDigit t) (hdot : t.head? ≠ some 0x2E) :
    decimalParts (s ++ t) = (s, [], t) := by
  obtain ⟨htake, hdrop⟩ := span_digits hs ht
  rw [decimalParts, htake, hdrop]
  split
  · exact absurd rfl hdot
  · rfl

theorem decimalParts_pointed (hs : IsDigits 10 s) (ht : IsDigits 10 t) (hu : Ends isDigit u) :
    decimalParts (s ++ 0x2E :: (t ++ u)) = (s, t, u) := by
  obtain ⟨htake, hdrop⟩ := span_digits hs (t := 0x2E :: (t ++ u)) (fun b hb => by cases hb; rfl)
  obtain ⟨htake', hdrop'⟩ := span_digits ht hu
  rw [decimalParts, htake, hdrop]
  simp only [htake', hdrop']

theorem decimalParts_cut (s : Bytes) : ∃ whole part rest, decimalParts s = (whole, part, rest) ∧
    IsDigits 10 whole ∧ IsDigits 10 part ∧ (part = [] ∧ s = whole ++ rest ∨ s = whole ++ 0x2E :: (part ++ rest)) := by
  have hs := List.takeWhile_append_dropWhile (p := isDigit) (l := s)
  unfold decimalParts
  split
  · next t ht =>
    refine ⟨_, _, _, rfl, isDigits_takeWhile s, isDigits_takeWhile t, .inr ?_⟩
    rw [List.takeWhile_append_dropWhile, ← ht, hs]
  · exact ⟨_, _, _, rfl, isDigits_takeWhile s, List.forall_mem_nil _, .inl ⟨rfl, hs.symm⟩⟩

theorem decimalFloat?_isSome (hs : decimalParts s = (t, u, v)) (ht : IsDigits 10 t) (hu : IsDigits 10 u) :
    (decimalFloat? s).isSome = true ↔ t ++ u ≠ [] ∧ Exponent 0x65 0x45 v := by
  obtain ⟨⟨m, cut⟩, hp⟩ := exists_significand (isDigits_append.mpr ⟨ht, hu⟩)
  simp only [decimalFloat?, hs, hp]
  split
  · next h => simp_all
  · next h =>
    rw [scaled?_isSome_iff, and_iff_right (by simpa using h)]

theorem Exponent.ends {small capital : UInt8} {p : UInt8 → Bool} (h : Exponent small capital s)
    (hs : p small = false) (hc : p capital = false) : Ends p s := by
  intro b hb
  cases h with
  | none => cases hb
  | marked hmark =>
    cases hb
    obtain rfl | rfl := hmark
    · exact hs
    · exact hc

theorem Ends.ne {c : UInt8} (h : Ends (· == c) s) : s.head? ≠ some c := fun hc => by
  have := h c hc
  simp at this

/-- **Decimal doubles are mantissas with exponents.** -/
theorem decimalFloat?_isSome_iff :
    (decimalFloat? s).isSome = true ↔ ∃ m e, Mantissa 10 m ∧ Exponent 0x65 0x45 e ∧ s = m ++ e := by
  constructor
  · intro h
    obtain ⟨whole, part, rest, hparts, hwhole, hpart, hs⟩ := decimalParts_cut s
    obtain ⟨hne, hexp⟩ := (decimalFloat?_isSome hparts hwhole hpart).mp h
    obtain ⟨rfl, rfl⟩ | rfl := hs
    · exact ⟨whole, rest, .whole hwhole (by simpa using hne), hexp, rfl⟩
    · exact ⟨whole ++ 0x2E :: part, rest, .pointed hwhole hpart hne, hexp, by simp⟩
  · rintro ⟨m, e, hm, he, rfl⟩
    have hends : Ends isDigit e := he.ends rfl rfl
    cases hm with
    | whole hs hne =>
      have hdot : Ends (· == 0x2E) e := he.ends rfl rfl
      refine (decimalFloat?_isSome (decimalParts_whole hs hends hdot.ne) hs (List.forall_mem_nil _)).mpr ⟨?_, he⟩
      simpa using hne
    | pointed hs ht hne =>
      rw [List.append_assoc, List.cons_append]
      exact (decimalFloat?_isSome (decimalParts_pointed hs ht hends) hs ht).mpr ⟨hne, he⟩

/-! ## 7. Hexadecimal doubles -/

section Hex

variable {dot any : Bool} {m : Double} {n : Nat}

theorem hexMantissa?_digits (dot any : Bool) (m : Double) (n : Nat) (t : Bytes) (hs : IsDigits 16 s) :
    ∃ m' n', hexMantissa? dot m n any (s ++ t) = hexMantissa? dot m' n' (any || !s.isEmpty) t := by
  induction s generalizing m n any with
  | nil => exact ⟨m, n, by simp⟩
  | cons b s ih =>
    obtain ⟨hb, hs⟩ := isDigits_cons.mp hs
    obtain ⟨d, hd⟩ := Option.isSome_iff_exists.mp hb
    have hdot : ¬ (b == 0x2E) = true := fun h => by
      rw [eq_of_beq h, not_digit (by simp)] at hd
      cases hd
    rw [List.cons_append, hexMantissa?, if_neg hdot, hd]
    obtain ⟨m', n', h⟩ := ih true ((m.mul (Double.ofInt64 16)).add (Double.ofInt64 (Int64.ofNat d)))
      (if dot then n + 1 else n) hs
    exact ⟨m', n', by simpa using h⟩

theorem hexMantissa?_stop (ht : Ends isHexDigit t) (hdot : t.head? ≠ some 0x2E) :
    hexMantissa? dot m n any t = some (m, n, any, t) := by
  cases t with
  | nil => rfl
  | cons b t =>
    have hb : digit? 16 b = none := by
      have := ht b rfl
      simpa [isHexDigit] using this
    rw [hexMantissa?, if_neg (by simpa using hdot), hb]

theorem hexMantissa?_dot (t : Bytes) :
    hexMantissa? dot m n any (0x2E :: t) = if dot then none else hexMantissa? true m n any t := by
  rw [hexMantissa?, if_pos (by rfl)]

end Hex

theorem hexFloat?_isSome {m : Double} {n : Nat} {any : Bool}
    (h : hexMantissa? false Double.zero 0 false s = some (m, n, any, t)) :
    (hexFloat? s).isSome = true ↔ any = true ∧ Exponent 0x70 0x50 t := by
  rw [hexFloat?, h]
  cases any with
  | false => simp
  | true => simp [scaled?_isSome_iff]

theorem hexFloat?_whole (hs : IsDigits 16 s) (ht : Ends isHexDigit t) (hdot : t.head? ≠ some 0x2E) :
    (hexFloat? (s ++ t)).isSome = true ↔ s ≠ [] ∧ Exponent 0x70 0x50 t := by
  obtain ⟨m, n, h⟩ := hexMantissa?_digits false false Double.zero 0 t hs
  rw [hexMantissa?_stop ht hdot] at h
  rw [hexFloat?_isSome h]
  simp

theorem hexFloat?_pointed (hs : IsDigits 16 s) (ht : IsDigits 16 t) (hu : Ends isHexDigit u) :
    (hexFloat? (s ++ 0x2E :: (t ++ u))).isSome = true ↔
      u.head? ≠ some 0x2E ∧ s ++ t ≠ [] ∧ Exponent 0x70 0x50 u := by
  obtain ⟨m, n, h⟩ := hexMantissa?_digits false false Double.zero 0 (0x2E :: (t ++ u)) hs
  obtain ⟨m', n', h'⟩ := hexMantissa?_digits true (false || !s.isEmpty) m n u ht
  rw [hexMantissa?_dot, if_neg Bool.false_ne_true, h'] at h
  by_cases hdot : u.head? = some 0x2E
  · obtain ⟨v, rfl⟩ := List.head?_eq_some_iff.mp hdot
    rw [hexMantissa?_dot, if_pos rfl] at h
    simp [hexFloat?, h]
  · rw [hexMantissa?_stop hu hdot] at h
    rw [hexFloat?_isSome h]
    simp [hdot, List.append_eq_nil_iff]
    tauto

theorem isDigits_takeWhile_hex (s : Bytes) : IsDigits 16 (s.takeWhile isHexDigit) := fun _ hb =>
  List.mem_takeWhile_imp (p := isHexDigit) hb

/-- **Hexadecimal doubles are mantissas with exponents.** -/
theorem hexFloat?_isSome_iff :
    (hexFloat? s).isSome = true ↔ ∃ m e, Mantissa 16 m ∧ Exponent 0x70 0x50 e ∧ s = m ++ e := by
  constructor
  · intro h
    have hcut := List.takeWhile_append_dropWhile (p := isHexDigit) (l := s)
    have hdigits := isDigits_takeWhile_hex s
    have hends := ends_dropWhile isHexDigit s
    generalize s.takeWhile isHexDigit = whole at *
    generalize s.dropWhile isHexDigit = rest at *
    subst hcut
    by_cases hdot : rest.head? = some 0x2E
    · obtain ⟨t, rfl⟩ := List.head?_eq_some_iff.mp hdot
      have hcut := List.takeWhile_append_dropWhile (p := isHexDigit) (l := t)
      rw [← hcut] at h ⊢
      obtain ⟨-, hne, hexp⟩ := (hexFloat?_pointed hdigits (isDigits_takeWhile_hex t) (ends_dropWhile isHexDigit t)).mp h
      exact ⟨_, _, .pointed hdigits (isDigits_takeWhile_hex t) hne, hexp, by simp⟩
    · obtain ⟨hne, hexp⟩ := (hexFloat?_whole hdigits hends hdot).mp h
      exact ⟨whole, rest, .whole hdigits hne, hexp, rfl⟩
  · rintro ⟨m, e, hm, he, rfl⟩
    have hends : Ends isHexDigit e := he.ends rfl rfl
    have hdot : Ends (· == 0x2E) e := he.ends rfl rfl
    cases hm with
    | whole hs hne => exact (hexFloat?_whole hs hends hdot.ne).mpr ⟨hne, he⟩
    | pointed hs ht hne =>
      rw [List.append_assoc, List.cons_append]
      exact (hexFloat?_pointed hs ht hends).mpr ⟨hdot.ne, hne, he⟩

/-! ## 8. Bytes of numerals -/

theorem Mantissa.mem {b : UInt8} (h : Mantissa base s) (hb : b ∈ s) : (digit? base b).isSome = true ∨ b = 0x2E := by
  cases h with
  | whole hs => exact .inl (hs b hb)
  | pointed hs ht =>
    rcases List.mem_append.mp hb with hb | hb
    · exact .inl (hs b hb)
    · rcases List.mem_cons.mp hb with rfl | hb
      · exact .inr rfl
      · exact .inl (ht b hb)

theorem Mantissa.ne_nil (h : Mantissa base s) : s ≠ [] := by
  cases h with
  | whole _ hne => exact hne
  | pointed => simp

theorem Sign.mem {neg : Bool} {b : UInt8} (h : Sign neg s) (hb : b ∈ s) : b = 0x2B ∨ b = 0x2D := by
  cases h with
  | none => cases hb
  | plus => exact .inl (List.mem_singleton.mp hb)
  | minus => exact .inr (List.mem_singleton.mp hb)

theorem Exponent.mem {small capital b : UInt8} (h : Exponent small capital s) (hb : b ∈ s) :
    b = small ∨ b = capital ∨ b = 0x2B ∨ b = 0x2D ∨ (digit? 10 b).isSome = true := by
  cases h with
  | none => cases hb
  | marked hmark hsign hdigits =>
    rcases List.mem_cons.mp hb with rfl | hb
    · exact hmark.imp_right .inl
    · rcases List.mem_append.mp hb with hb | hb
      · exact .inr (.inr ((hsign.mem hb).imp_right .inl))
      · exact .inr (.inr (.inr (.inr (hdigits b hb))))

theorem Mantissa.unsigned (h : Mantissa base s) (t : Bytes) : Unsigned (s ++ t) := fun b hb => by
  obtain ⟨c, s, rfl⟩ := List.exists_cons_of_ne_nil h.ne_nil
  cases hb
  rcases h.mem (List.mem_cons_self ..) with hd | rfl
  · refine ⟨?_, ?_⟩ <;> rintro rfl <;> rw [not_digit (by simp)] at hd <;> cases hd
  · decide

theorem Mantissa.afterHexMark? {e : Bytes} (hm : Mantissa 10 s) (he : Exponent 0x65 0x45 e) :
    afterHexMark? (s ++ e) = none := by
  refine Option.eq_none_iff_forall_ne_some.mpr fun t ht => ?_
  have hmem : ∀ b ∈ s ++ e, b ≠ 0x78 ∧ b ≠ 0x58 := fun b hb => by
    rcases List.mem_append.mp hb with hb | hb
    · rcases hm.mem hb with hd | rfl
      · exact ⟨(by rintro rfl; cases hd), (by rintro rfl; cases hd)⟩
      · decide
    · rcases he.mem hb with rfl | rfl | rfl | rfl | hd
      · decide
      · decide
      · decide
      · decide
      · exact ⟨(by rintro rfl; cases hd), (by rintro rfl; cases hd)⟩
  obtain ⟨x, hx, hs⟩ := hexMark_of_afterHexMark? ht
  rw [hs] at hmem
  cases hx
  · exact (hmem 0x78 (by simp)).1 rfl
  · exact (hmem 0x58 (by simp)).2 rfl

theorem isSpace_of_digit {b : UInt8} (h : (digit? base b).isSome = true) : isSpace b = false := by
  rw [isSpace_eq, ← Bool.not_eq_true]
  intro hb
  rw [not_digit (.inr (.inr (.inr hb)))] at h
  cases h

theorem Body.not_isSpace {neg : Bool} {sign : Bytes} (hsign : Sign neg sign) (h : Body s) :
    ∀ b ∈ sign ++ s, isSpace b = false := by
  have hmantissa : ∀ {base : Nat} {m : Bytes} {b : UInt8}, Mantissa base m → b ∈ m → isSpace b = false := fun hm hb => by
    rcases hm.mem hb with hd | rfl
    · exact isSpace_of_digit hd
    · rfl
  have hexponent : ∀ {small capital : UInt8} {e : Bytes} {b : UInt8}, Exponent small capital e → isSpace small = false →
      isSpace capital = false → b ∈ e → isSpace b = false := fun he hs hc hb => by
    rcases he.mem hb with rfl | rfl | rfl | rfl | hd
    · exact hs
    · exact hc
    · rfl
    · rfl
    · exact isSpace_of_digit hd
  intro b hb
  rcases List.mem_append.mp hb with hb | hb
  · rcases hsign.mem hb with rfl | rfl <;> rfl
  · cases h with
    | hex hx hm he =>
      rcases List.mem_append.mp hb with hb | hb
      · cases hx <;> simp at hb <;> rcases hb with rfl | rfl <;> rfl
      · rcases List.mem_append.mp hb with hb | hb
        · exact hmantissa hm hb
        · exact hexponent he rfl rfl hb
    | decimal hm he =>
      rcases List.mem_append.mp hb with hb | hb
      · exact hmantissa hm hb
      · exact hexponent he rfl rfl hb

/-! ## 9. Numbers -/

theorem float?_isSome_iff :
    (float? s).isSome = true ↔ ∃ neg sign body, Sign neg sign ∧ s = sign ++ body ∧ Body body := by
  constructor
  · intro h
    obtain ⟨sign, hsign, hs⟩ := splitSign_cut s
    refine ⟨_, sign, _, hsign, hs, ?_⟩
    simp only [float?, Option.isSome_map] at h
    split at h
    · next t ht =>
      obtain ⟨m, e, hm, he, rfl⟩ := hexFloat?_isSome_iff.mp h
      obtain ⟨x, hx, hbody⟩ := hexMark_of_afterHexMark? ht
      rw [hbody]
      exact .hex hx hm he
    · obtain ⟨m, e, hm, he, hbody⟩ := decimalFloat?_isSome_iff.mp h
      rw [hbody]
      exact .decimal hm he
  · rintro ⟨neg, sign, body, hsign, rfl, hbody⟩
    cases hbody with
    | hex hx hm he =>
      simp only [float?, splitSign_eq hsign (hx.unsigned _), afterHexMark?_eq hx, Option.isSome_map]
      exact hexFloat?_isSome_iff.mpr ⟨_, _, hm, he, rfl⟩
    | decimal hm he =>
      simp only [float?, splitSign_eq hsign (hm.unsigned _), hm.afterHexMark? he, Option.isSome_map]
      exact decimalFloat?_isSome_iff.mpr ⟨_, _, hm, he, rfl⟩

theorem Whole.body {neg : Bool} {i : Int64} (h : Whole neg s i) : Body s := by
  cases h with
  | @hex x t hx hdigits hne => simpa using Body.hex hx (.whole hdigits hne) .none
  | decimal hdigits hne => simpa using Body.decimal (.whole hdigits hne) .none

theorem read?_eq (s : Bytes) : read? s =
    match int? (trimBy isSpace s) with
    | some i => some (.int i)
    | none => (float? (trimBy isSpace s)).map .float := by
  unfold read?
  generalize trimBy isSpace s = t
  cases t with
  | nil => rfl
  | cons b t => rfl

theorem spells_iff {P : Bool → Bytes → Prop} (hP : ∀ neg body, P neg body → Body body) :
    Spells s P ↔ ∃ neg sign body, Sign neg sign ∧ trimBy isSpace s = sign ++ body ∧ P neg body := by
  have hspace : isSpace = (blanks.contains ·) := funext isSpace_eq
  constructor
  · rintro ⟨neg, sign, body, hsign, hbody, hwithin⟩
    refine ⟨neg, sign, body, hsign, ?_, hbody⟩
    exact trimBy_eq (hspace ▸ hwithin) ((hP neg body hbody).not_isSpace hsign)
  · rintro ⟨neg, sign, body, hsign, htrim, hbody⟩
    refine ⟨neg, sign, body, hsign, hbody, ?_⟩
    rw [← htrim, ← hspace]
    exact within_trimBy isSpace s

theorem read?_int_iff {i : Int64} : read? s = some (.int i) ↔ Spells s fun neg body => Whole neg body i := by
  rw [spells_iff fun _ _ => Whole.body, ← int?_eq_some_iff, read?_eq]
  cases int? (trimBy isSpace s) <;> simp

theorem read?_isSome_iff : (read? s).isSome = true ↔ Spells s fun _ => Body := by
  rw [spells_iff fun _ _ h => h, ← float?_isSome_iff, read?_eq]
  cases h : int? (trimBy isSpace s) with
  | none => simp
  | some i =>
    obtain ⟨neg, sign, body, hsign, hs, hwhole⟩ := int?_eq_some_iff.mp h
    exact iff_of_true rfl (float?_isSome_iff.mpr ⟨neg, sign, body, hsign, hs, hwhole.body⟩)

theorem whole_writtenInt (i : Int64) : ∃ neg sign body, Sign neg sign ∧ Whole neg body i ∧
    sign ++ body = writtenInt 10 i.toInt := by
  have hdigits : IsDigits 10 (written 10 i.toInt.natAbs) := isDigits_written (by decide) (by decide) _
  have hvalue : value 10 (written 10 i.toInt.natAbs) = i.toInt.natAbs := value_written (by decide) (by decide) _
  have hne := written_ne_nil 10 i.toInt.natAbs
  by_cases hneg : i.toInt < 0
  · refine ⟨true, _, _, .minus, .decimal hdigits hne ?_, by rw [writtenInt, if_pos hneg]⟩
    rw [hvalue, if_pos rfl]
    omega
  · refine ⟨false, _, _, .none, .decimal hdigits hne ?_, by rw [writtenInt, if_neg hneg]⟩
    rw [hvalue, if_neg Bool.false_ne_true]
    omega

/-- **What is read, and as what.** A text is read as a number if it is a numeral within blanks, as an integer if
    the numeral is digits alone that denote it, and as a double otherwise; so the decimal text of an integer,
    whatever the blanks around it, is read as that integer. -/
theorem read_grammar (s : Bytes) :
    ((read? s).isSome = true ↔ Spells s fun _ body => Body body) ∧
    (∀ i, read? s = some (.int i) ↔ Spells s fun neg body => Whole neg body i) ∧
    ((∃ d, read? s = some (.float d)) ↔
      (Spells s fun _ body => Body body) ∧ ¬ ∃ i, Spells s fun neg body => Whole neg body i) ∧
    ∀ i before behind, (∀ b ∈ before, b ∈ blanks) → (∀ b ∈ behind, b ∈ blanks) →
      read? (before ++ Bytes.ofString (Number.int i).text ++ behind) = some (.int i) := by
  refine ⟨read?_isSome_iff, fun i => read?_int_iff, ?_, fun i before behind hbefore hbehind => ?_⟩
  · simp only [← read?_isSome_iff, ← read?_int_iff]
    cases read? s with
    | none => simp
    | some n => cases n <;> simp
  · obtain ⟨neg, sign, body, hsign, hwhole, htext⟩ := whole_writtenInt i
    refine read?_int_iff.mpr ⟨neg, sign, body, hsign, hwhole, before, behind, ?_, ?_, ?_⟩
    · rw [htext, ofString_text]
    · simpa using hbefore
    · simpa using hbehind

theorem read_grammar_minValue :
    read? ([0x0B] ++ Bytes.ofString (Number.int Int64.minValue).text ++ [0x20]) = some (.int Int64.minValue) := by
  obtain ⟨-, -, -, htext⟩ := read_grammar []
  exact htext Int64.minValue [0x0B] [0x20] (by simp [blanks]) (by simp [blanks])

end Numeral

end LuaMachine
