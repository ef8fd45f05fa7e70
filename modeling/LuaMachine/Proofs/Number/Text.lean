/-
  THE TEXT OF DOUBLES. A finite double is written with fourteen significant digits, in one of two layouts,
  and what is written is read as a double with the same sign.

  * **`Double.text_rounded`** -- the text of a finite double, and what it is read as.
-/
import LuaMachine.Proofs.Number.Rounding
import LuaMachine.Proofs.Number.Sign
import LuaMachine.Proofs.Value.LoopLimit
import Mathlib.Tactic.IntervalCases

namespace LuaMachine

namespace Decimal

/-! ## 1. Decimals -/

def decimals : Nat → Nat → List Char
  | 0, _ => []
  | k + 1, n => decimals k (n / 10) ++ [(n % 10).digitChar]

def fixed (n places : Nat) : List Char :=
  Nat.toDigits 10 (n / 10 ^ places) ++ if places = 0 then [] else '.' :: decimals places n

def trimFraction (cs : List Char) : List Char :=
  if '.' ∈ cs then ((cs.reverse.dropWhile (· == '0')).dropWhile (· == '.')).reverse else cs

variable {n k : Nat} {e : Int} {whole part cs : List Char}

theorem length_decimals (k n : Nat) : (decimals k n).length = k := by
  induction k generalizing n with
  | zero => rfl
  | succ k ih => rw [decimals, List.length_append, ih, List.length_singleton]

theorem isDigit_decimals (k n : Nat) : ∀ c ∈ decimals k n, c.isDigit = true := by
  induction k generalizing n with
  | zero => exact List.forall_mem_nil _
  | succ k ih =>
    intro c hc
    rcases List.mem_append.mp hc with hc | hc
    · exact ih _ c hc
    · have hone : Nat.toDigits 10 (n % 10) = [(n % 10).digitChar] :=
        Nat.toDigits_of_lt_base (Nat.mod_lt n (by decide))
      rw [← hone] at hc
      exact Nat.isDigit_of_mem_toDigits (by decide) (by decide) hc

theorem toDigits_split (h : 10 ^ k ≤ n) : Nat.toDigits 10 n = Nat.toDigits 10 (n / 10 ^ k) ++ decimals k n := by
  induction k generalizing n with
  | zero => simp [decimals]
  | succ k ih =>
    have hten : 10 ≤ n := (Nat.le_self_pow (Nat.succ_ne_zero k) 10).trans h
    have hdiv : 10 ^ k ≤ n / 10 := by
      rw [Nat.le_div_iff_mul_le (by decide), ← Nat.pow_succ]
      exact h
    rw [Nat.toDigits_of_base_le (by decide) hten, ih hdiv, Nat.div_div_eq_div_mul, ← Nat.pow_succ', decimals,
      List.append_assoc]

theorem padded_eq (h : n < 10 ^ (k + 1)) : padded (k + 1) n = decimals (k + 1) n := by
  induction k generalizing n with
  | zero =>
    rw [padded, Nat.toDigits_of_lt_base (by simpa using h)]
    simp [decimals, Nat.mod_eq_of_lt (show n < 10 by simpa using h)]
  | succ k ih =>
    by_cases hn : n < 10
    · have hzero : decimals (k + 1) (n / 10) = List.replicate (k + 1) '0' := by
        rw [Nat.div_eq_of_lt hn, ← ih (Nat.pow_pos (by decide)), padded, Nat.toDigits_zero, ← List.replicate_succ']
        simp
      rw [decimals, hzero, Nat.mod_eq_of_lt hn, padded, Nat.toDigits_of_lt_base hn]
      simp
    · have hdiv : n / 10 < 10 ^ (k + 1) := Nat.div_lt_of_lt_mul (by rw [← Nat.pow_succ']; exact h)
      rw [decimals, ← ih hdiv, padded, padded, Nat.toDigits_of_base_le (by decide) (Nat.le_of_not_lt hn),
        ← List.append_assoc]
      simp

/-! ## 2. Layouts -/

theorem not_mem_of_digits (h : ∀ c ∈ part, c.isDigit = true) {c : Char} (hc : c.isDigit = false) : c ∉ part := by
  intro hmem
  rw [h c hmem] at hc
  cases hc

theorem pointed_eq (hwhole : ∀ c ∈ whole, c.isDigit = true) (hpart : ∀ c ∈ part, c.isDigit = true) :
    pointed whole part = trimFraction (whole ++ '.' :: part) := by
  have hdot : ∀ {cs : List Char}, '.' ∉ cs → cs.dropWhile (· == '.') = cs := fun h =>
    List.dropWhile_eq_self_iff.mpr fun hpos heq => h (eq_of_beq heq ▸ List.getElem_mem hpos)
  have hmem : '.' ∈ whole ++ '.' :: part := by simp
  rw [trimFraction, if_pos hmem, List.reverse_append, List.reverse_cons, List.append_assoc, List.dropWhile_append]
  simp only [pointed, trimZeros, List.isEmpty_reverse]
  split
  · have hwhole' : '.' ∉ whole.reverse := by simpa using not_mem_of_digits hwhole rfl
    simp [hdot hwhole']
  · next hne =>
    have hkept : '.' ∉ part.reverse.dropWhile (· == '0') := fun h =>
      not_mem_of_digits hpart rfl (List.mem_reverse.mp ((List.dropWhile_suffix _).subset h))
    generalize part.reverse.dropWhile (· == '0') = kept at *
    cases kept with
    | nil => exact absurd rfl hne
    | cons c kept =>
      have hc : ¬ (c == '.') = true := fun h => hkept (by simp [eq_of_beq h])
      rw [List.cons_append, List.dropWhile_cons_of_neg (p := (· == '.')) hc]
      simp

theorem toDigits_isDigit (n : Nat) : ∀ c ∈ Nat.toDigits 10 n, c.isDigit = true := fun _ hc =>
  Nat.isDigit_of_mem_toDigits (by decide) (by decide) hc

theorem pointed_fixed (n k : Nat) : pointed (Nat.toDigits 10 (n / 10 ^ k)) (decimals k n) = trimFraction (fixed n k) := by
  cases k with
  | zero =>
    have hdot : '.' ∉ Nat.toDigits 10 (n / 10 ^ 0) ++ [] := by
      rw [List.append_nil]
      exact not_mem_of_digits (toDigits_isDigit _) rfl
    rw [fixed, if_pos rfl, trimFraction, if_neg hdot, List.append_nil]
    rfl
  | succ k =>
    rw [fixed, if_neg (Nat.succ_ne_zero k)]
    exact pointed_eq (toDigits_isDigit _) (isDigit_decimals _ _)

section Layout

variable (hlo : 10 ^ k ≤ n) (hhi : n < 10 ^ (k + 1))

include hlo hhi

theorem length_toDigits : (Nat.toDigits 10 n).length = k + 1 := by
  have hone : n / 10 ^ k < 10 := Nat.div_lt_of_lt_mul (by rw [← Nat.pow_succ]; exact hhi)
  rw [toDigits_split hlo, Nat.toDigits_of_lt_base hone, List.length_append, length_decimals, List.length_singleton,
    Nat.add_comm]

theorem padded_cut {i : Nat} (hi : i ≤ k) :
    (padded (k + 1) n).take (i + 1) = Nat.toDigits 10 (n / 10 ^ (k - i)) ∧
      (padded (k + 1) n).drop (i + 1) = decimals (k - i) n := by
  have hpow : 10 ^ (k - i) ≤ n := (Nat.pow_le_pow_right (by decide) (Nat.sub_le k i)).trans hlo
  have hpadded : padded (k + 1) n = Nat.toDigits 10 n := by
    rw [padded, length_toDigits hlo hhi, Nat.sub_self]
    rfl
  have hlength := length_toDigits hlo hhi
  rw [toDigits_split hpow, List.length_append, length_decimals] at hlength
  have hcut : (Nat.toDigits 10 (n / 10 ^ (k - i))).length = i + 1 := by omega
  rw [hpadded, toDigits_split hpow, ← hcut, List.take_left, List.drop_left]
  exact ⟨rfl, rfl⟩

/-- **The positional layout** writes digits as the number of their last place. -/
theorem positional_eq (he : e ≤ k) : positional (k + 1) n e = trimFraction (fixed n (k - e).toNat) := by
  simp only [positional]
  split
  · next hpos =>
    obtain ⟨i, rfl⟩ := Int.eq_ofNat_of_zero_le hpos
    obtain ⟨htake, hdrop⟩ := padded_cut hlo hhi (i := i) (by omega)
    rw [show ((i : Int)).toNat = i from rfl, htake, hdrop, show ((k : Int) - i).toNat = k - i by omega]
    exact pointed_fixed n (k - i)
  · next hneg =>
    obtain ⟨i, hi⟩ := Int.eq_ofNat_of_zero_le (show 0 ≤ -e - 1 by omega)
    have hplaces : ((k : Int) - e).toNat = k + i + 1 := by omega
    have hwhole : n / 10 ^ (k + i + 1) = 0 :=
      Nat.div_eq_of_lt (hhi.trans_le (Nat.pow_le_pow_right (by decide) (by omega)))
    have hpart : List.replicate (e.natAbs - 1) '0' ++ padded (k + 1) n = decimals (k + i + 1) n := by
      have hpow : n < 10 ^ (k + i + 1) := hhi.trans_le (Nat.pow_le_pow_right (by decide) (by omega))
      rw [← padded_eq hpow, padded, padded, length_toDigits hlo hhi, Nat.sub_self,
        show e.natAbs - 1 = k + i + 1 - (k + 1) by omega]
      rfl
    rw [hpart, hplaces, ← pointed_fixed, hwhole, Nat.toDigits_zero]

/-- **The scientific layout** writes digits with all but the first as decimals. -/
theorem scientific_eq : scientific (k + 1) n e =
    trimFraction (fixed n k) ++ 'e' :: (if e < 0 then '-' else '+') :: padded 2 e.natAbs := by
  obtain ⟨htake, hdrop⟩ := padded_cut hlo hhi (i := 0) (Nat.zero_le k)
  rw [scientific, htake, hdrop]
  rw [Nat.sub_zero, pointed_fixed]

end Layout

/-! ## 3. What is left of the decimals -/

theorem isDigit_padded (k n : Nat) : ∀ c ∈ padded k n, c.isDigit = true := by
  intro c hc
  rcases List.mem_append.mp hc with hc | hc
  · rw [List.eq_of_mem_replicate hc]
    rfl
  · exact toDigits_isDigit n c hc

theorem trimFraction_cases (n k : Nat) :
    trimFraction (fixed n k) = Nat.toDigits 10 (n / 10 ^ k) ∨
      ∃ kept, kept ≠ [] ∧ (∀ c ∈ kept, c.isDigit = true) ∧
        trimFraction (fixed n k) = Nat.toDigits 10 (n / 10 ^ k) ++ '.' :: kept := by
  have hdigits : ∀ c ∈ trimZeros (decimals k n), c.isDigit = true := by
    intro c hc
    rw [trimZeros, List.mem_reverse] at hc
    exact isDigit_decimals k n c (List.mem_reverse.mp ((List.dropWhile_suffix _).subset hc))
  rw [← pointed_fixed]
  simp only [pointed]
  split
  · exact .inl rfl
  · next hne => exact .inr ⟨_, by simpa using hne, hdigits, rfl⟩

end Decimal

namespace Numeral

/-! ## 4. Reading numerals -/

variable {neg : Bool} {sign m e s : Bytes} {cs : List Char}

theorem not_isDigits {b : UInt8} (hb : b ∈ s) (h : digit? 10 b = none) : ¬ IsDigits 10 s := fun hs => by
  have := hs b hb
  rw [h] at this
  cases this

theorem read?_digits {n : Nat} (hsign : Sign neg sign) (h : n ≤ maxInt64) :
    ∃ i, read? (sign ++ written 10 n) = some (.int i) := by
  have hvalue : value 10 (written 10 n) = n := value_written (by decide) (by decide) n
  have hwhole : Whole neg (written 10 n) (Int64.ofInt (if neg then -(n : Int) else n)) := by
    refine .decimal (isDigits_written (by decide) (by decide) n) (written_ne_nil 10 n) ?_
    rw [hvalue]
    simp only [maxInt64] at h
    refine Int64.toInt_ofInt_of_le ?_ ?_ <;> cases neg <;> simp <;> omega
  exact ⟨_, read?_int_iff.mpr ⟨neg, sign, _, hsign, hwhole, [], [], by simp, by simp, by simp⟩⟩

theorem read?_double (hsign : Sign neg sign) (hm : Mantissa 10 m) (he : Exponent 0x65 0x45 e) (h : ¬ IsDigits 10 (m ++ e)) :
    ∃ x, read? (sign ++ (m ++ e)) = some (.float x) ∧ x.negative = neg := by
  have hbody : Body (m ++ e) := .decimal hm he
  have htrim : trimBy isSpace (sign ++ (m ++ e)) = sign ++ (m ++ e) :=
    trimBy_eq ⟨[], [], by simp, by simp, by simp⟩ (hbody.not_isSpace hsign)
  have hint : int? (sign ++ (m ++ e)) = none := by
    refine Option.eq_none_iff_forall_ne_some.mpr fun i hi => ?_
    obtain ⟨neg', sign', body, hsign', hs, hwhole⟩ := int?_eq_some_iff.mp hi
    have hsplit := splitSign_eq hsign (hm.unsigned e)
    rw [hs] at hsplit
    cases hwhole with
    | hex hx =>
      rw [splitSign_eq hsign' (hx.unsigned _)] at hsplit
      have hmark := hm.afterHexMark? he
      rw [← (Prod.mk.inj hsplit).2, afterHexMark?_eq hx] at hmark
      cases hmark
    | decimal hdigits =>
      rw [splitSign_eq hsign' hdigits.unsigned] at hsplit
      exact h ((Prod.mk.inj hsplit).2 ▸ hdigits)
  obtain ⟨x, hx⟩ := Option.isSome_iff_exists.mp (float?_isSome_iff.mpr ⟨neg, sign, _, hsign, rfl, hbody⟩)
  refine ⟨x, ?_, float?_negative hsign hm he hx⟩
  rw [read?_eq, htrim, hint]
  simp only [hx, Option.map_some]

/-! ## 5. Bytes of text -/

def encode (cs : List Char) : Bytes := cs.flatMap String.utf8EncodeChar

theorem encode_append (cs ds : List Char) : encode (cs ++ ds) = encode cs ++ encode ds := List.flatMap_append

theorem encode_toDigits (n : Nat) : encode (Nat.toDigits 10 n) = written 10 n := by
  rw [encode, ← ofString_ofList, ← Nat.repr_eq_ofList_toDigits, ofString_repr]

theorem encode_digit {c : Char} (h : c.isDigit = true) : ∃ b, String.utf8EncodeChar c = [b] ∧ (digit? 10 b).isSome = true := by
  have hrange : 48 ≤ c.toNat ∧ c.toNat ≤ 57 := by
    rw [Char.isDigit, Bool.and_eq_true, decide_eq_true_eq, decide_eq_true_eq] at h
    exact h
  rw [← Char.ofNat_toNat c]
  generalize c.toNat = n at *
  obtain ⟨hlo, hhi⟩ := hrange
  interval_cases n <;> exact ⟨_, rfl, rfl⟩

theorem encode_digits (h : ∀ c ∈ cs, c.isDigit = true) : IsDigits 10 (encode cs) := by
  intro b hb
  obtain ⟨c, hc, hb⟩ := List.mem_flatMap.mp hb
  obtain ⟨b', hb', hdigit⟩ := encode_digit (h c hc)
  rw [hb', List.mem_singleton] at hb
  rw [hb]
  exact hdigit

theorem encode_ne_nil (h : ∀ c ∈ cs, c.isDigit = true) (hne : cs ≠ []) : encode cs ≠ [] := by
  obtain ⟨c, cs, rfl⟩ := List.exists_cons_of_ne_nil hne
  obtain ⟨b, hb, -⟩ := encode_digit (h c (List.mem_cons_self ..))
  rw [encode, List.flatMap_cons, hb]
  simp

theorem mantissa_fixed (n k : Nat) : Mantissa 10 (encode (Decimal.trimFraction (Decimal.fixed n k))) := by
  have hdigits := encode_digits (Decimal.toDigits_isDigit (n / 10 ^ k))
  have hne := encode_ne_nil (Decimal.toDigits_isDigit (n / 10 ^ k)) Nat.toDigits_ne_nil
  rcases Decimal.trimFraction_cases n k with heq | ⟨kept, hkept, hpart, heq⟩
  · rw [heq]
    exact .whole hdigits hne
  · rw [heq, encode_append]
    exact .pointed hdigits (encode_digits hpart) (by simp [hne])

end Numeral

namespace Double

open Decimal Numeral

/-! ## 6. Doubles -/

def absolute (d : Double) : ℚ := d.units / unitsPerOne

def signText (d : Double) : List Char := if d.negative then ['-'] else []

/-- The digits `n` of fourteen, the first of them with the exponent `e`, without idle zeros: scientific with an exponent
    of at least two digits below -4 and from 14 on, otherwise positional. -/
def layout (n : Nat) (e : Int) : List Char :=
  if e < -4 ∨ 14 ≤ e then trimFraction (fixed n 13) ++ 'e' :: (if e < 0 then '-' else '+') :: padded 2 e.natAbs
  else trimFraction (fixed n (13 - e).toNat)

variable {d : Double} {n : Nat} {e : Int}

theorem units_pos (h : d.magnitude ≠ 0) : 0 < d.units := by
  have hlt : zero.units < d.units := units_lt (Nat.pos_iff_ne_zero.mpr h)
  rwa [units_zero (show zero.magnitude = 0 from rfl)] at hlt

theorem unitsPerOne_le (h : 0 < n) : unitsPerOne ≤ n * 10 ^ (400 + 1) := by
  have hpow (k m : Nat) (hk : k ≤ m) : 1 <<< (3 * k) ≤ 10 ^ m := by
    rw [Nat.one_shiftLeft, pow_mul]
    exact (Nat.pow_le_pow_left (by decide) k).trans (Nat.pow_le_pow_right (by decide) hk)
  have hone : unitsPerOne ≤ 10 ^ (400 + 1) := hpow 358 (400 + 1) (by decide)
  exact hone.trans (Nat.le_mul_of_pos_left _ h)

theorem layout_eq (hlo : 10 ^ 13 ≤ n) (hhi : n < 10 ^ 14) :
    (if e < -4 ∨ (precision : Int) ≤ e then scientific precision n e else positional precision n e) = layout n e := by
  unfold layout precision
  split
  · next h => rw [if_pos (by exact h), scientific_eq hlo hhi]
  · next h =>
    have he : e ≤ (13 : Nat) := by omega
    rw [if_neg (by exact h), positional_eq hlo hhi he]
    rfl

/-- **Fourteen significant digits in one of two layouts.** -/
theorem magnitudeText_layout (d : Double) : ∃ n e, d.magnitudeText = layout n e ∧ n < 10 ^ 14 ∧
    (d.units = 0 ∧ n = 0 ∧ e = 0 ∨ Significand 14 d.absolute n e) ∧ RoundsTo (d.absolute * (10 : ℚ) ^ (13 - e)) n := by
  unfold magnitudeText
  split
  · next hzero =>
    have hunits := units_zero hzero
    refine ⟨0, 0, by decide, by decide, .inl ⟨hunits, rfl, rfl⟩, ?_⟩
    simp [RoundsTo, absolute, hunits]
  · next hne =>
    have hdigits := significand_significant (k := 14) (by decide) unitsPerOne_pos (unitsPerOne_le (units_pos hne))
    obtain ⟨hlo, hhi, hrounds⟩ := hdigits.roundsTo (by decide)
    exact ⟨_, _, layout_eq hlo hhi, hhi, .inr hdigits, hrounds⟩

theorem layout_cases (e : Int) (hn : n < 10 ^ 14) :
    (∃ w, w < 10 ^ 14 ∧ layout n e = Nat.toDigits 10 w) ∨
      (layout n e).all Char.isDigit = false ∧ ∃ m x, encode (layout n e) = m ++ x ∧ Mantissa 10 m ∧
        Exponent 0x65 0x45 x ∧ ¬ IsDigits 10 (m ++ x) := by
  unfold layout
  split
  · right
    have hdigits := isDigit_padded 2 e.natAbs
    have hsign : ∃ neg sign, Sign neg sign ∧ String.utf8EncodeChar (if e < 0 then '-' else '+') = sign := by
      split
      · exact ⟨true, _, .minus, rfl⟩
      · exact ⟨false, _, .plus, rfl⟩
    obtain ⟨neg, sign, hsign, hencode⟩ := hsign
    have hexponent : encode ('e' :: (if e < 0 then '-' else '+') :: padded 2 e.natAbs) =
        0x65 :: (sign ++ encode (padded 2 e.natAbs)) := by
      rw [encode, List.flatMap_cons, List.flatMap_cons, hencode]
      rfl
    refine ⟨by simp, _, _, encode_append .., mantissa_fixed .., ?_, ?_⟩
    · rw [hexponent]
      exact .marked (.inl rfl) hsign (encode_digits hdigits) (encode_ne_nil hdigits (by simp [padded]))
    · rw [hexponent]
      exact not_isDigits (b := 0x65) (List.mem_append_right _ (List.mem_cons_self ..)) (by decide)
  · rcases trimFraction_cases n (13 - e).toNat with heq | ⟨kept, hkept, hpart, heq⟩
    · exact .inl ⟨_, (Nat.div_le_self ..).trans_lt hn, heq⟩
    · right
      refine ⟨?_, _, [], (List.append_nil _).symm, mantissa_fixed .., .none, ?_⟩
      · rw [heq]
        simp
      · rw [List.append_nil, heq, encode_append]
        exact not_isDigits (b := 0x2E) (List.mem_append_right _ (List.mem_cons_self ..)) (by decide)

theorem text_finite (h : d.isFinite = true) :
    d.text = String.ofList (d.signText ++ d.magnitudeText ++ if d.magnitudeText.all Char.isDigit then ['.', '0'] else []) := by
  have hlt : d.exponentField < 2047 := by simpa [isFinite] using h
  have hnan : d.isNaN = false := by
    simp [isNaN]
    omega
  have hinf : d.isInfinite = false := by
    simp [isInfinite]
    omega
  simp only [text, hnan, hinf, signText]
  rfl

theorem encode_signText (d : Double) : Sign d.negative (encode d.signText) := by
  unfold signText
  split
  · next h =>
    rw [h]
    exact .minus
  · next h =>
    rw [Bool.not_eq_true] at h
    rw [h]
    exact .none

/-- **The text of doubles.** A finite double is written as its exact value rounded to fourteen significant digits, which
    is the rounding at the place of the last of them too; the exponent of the rounded value sets the layout. `.0` stands
    behind what would be read as an integer, and only there; so what is written is read as a double, and its sign is that
    of the double. -/
theorem text_rounded (d : Double) (h : d.isFinite = true) :
    (∃ x, read? (Bytes.ofString d.text) = some (.float x) ∧ x.negative = d.negative) ∧
    ∃ n e tail, d.text = String.ofList (d.signText ++ layout n e ++ tail) ∧
      (d.units = 0 ∧ n = 0 ∧ e = 0 ∨ Significand 14 d.absolute n e) ∧ RoundsTo (d.absolute * (10 : ℚ) ^ (13 - e)) n ∧
      (tail = ['.', '0'] ∧ (∃ i, read? (Bytes.ofString (String.ofList (d.signText ++ layout n e))) = some (.int i)) ∨
        tail = [] ∧ ¬ ∃ i, read? (Bytes.ofString (String.ofList (d.signText ++ layout n e))) = some (.int i)) := by
  obtain ⟨n, e, hlayout, hn, hdigits, hrounds⟩ := magnitudeText_layout d
  have htext := text_finite h
  have hsign := encode_signText d
  rw [hlayout] at htext
  have hbytes : ∀ cs, Bytes.ofString (String.ofList (d.signText ++ cs)) = encode d.signText ++ encode cs := fun cs => by
    rw [ofString_ofList, ← encode_append]
    rfl
  rcases layout_cases e hn with ⟨w, hw, heq⟩ | ⟨hall, m, x, hmx, hm, hx, hne⟩
  · have hall : (layout n e).all Char.isDigit = true := by
      rw [heq]
      exact List.all_eq_true.mpr (toDigits_isDigit w)
    rw [if_pos hall] at htext
    refine ⟨?_, n, e, _, htext, hdigits, hrounds, .inl ⟨rfl, ?_⟩⟩
    · have hpointed : Mantissa 10 (written 10 w ++ 0x2E :: [0x30]) :=
        .pointed (isDigits_written (by decide) (by decide) w) (List.forall_mem_singleton.mpr rfl) (by simp)
      rw [htext, List.append_assoc, hbytes, encode_append, heq, encode_toDigits]
      have hread := read?_double hsign hpointed .none
        (not_isDigits (b := 0x2E) (by simp) (by decide))
      rwa [List.append_nil] at hread
    · rw [hbytes, heq, encode_toDigits]
      exact read?_digits hsign (by unfold maxInt64; omega)
  · rw [if_neg (by rw [hall]; exact Bool.false_ne_true), List.append_nil] at htext
    have hread := read?_double hsign hm hx hne
    rw [← hmx, ← hbytes] at hread
    refine ⟨by rw [htext]; exact hread, n, e, [], by rw [htext, List.append_nil], hdigits, hrounds, .inr ⟨rfl, ?_⟩⟩
    rintro ⟨i, hi⟩
    obtain ⟨y, hy, -⟩ := hread
    rw [hi] at hy
    cases hy

theorem text_rounded_carry : (Double.mk 0xC2D6BCC41E8FFFFF).text = "-1e+14" ∧
    ∃ x, read? (Bytes.ofString (Double.mk 0xC2D6BCC41E8FFFFF).text) = some (.float x) ∧ x.negative = true := by
  have hfinite : (Double.mk 0xC2D6BCC41E8FFFFF).isFinite = true := by decide
  have htext : (Double.mk 0xC2D6BCC41E8FFFFF).text = "-1e+14" := by rfl
  exact ⟨htext, (text_rounded _ hfinite).1⟩

end Double

end LuaMachine
