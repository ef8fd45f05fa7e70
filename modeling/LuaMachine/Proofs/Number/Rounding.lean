/-
  ROUNDING TO SIGNIFICANT DIGITS. A ratio is rounded at the place that its first digit sets; where that
  carries into a new first digit, a place further left gives the same digits.

  * **`Decimal.significand_significant`** -- `significant` rounds so.
-/
import LuaMachine.Number.Decimal
import Mathlib.Algebra.Order.Field.Basic
import Mathlib.Algebra.Order.Field.Power
import Mathlib.Data.Rat.Cast.Order
import Mathlib.Tactic.FieldSimp
import Mathlib.Tactic.Linarith
import Mathlib.Tactic.Positivity
import Mathlib.Tactic.Ring

namespace LuaMachine

namespace Decimal

def RoundsTo (x : ℚ) (n : Nat) : Prop := |x - n| ≤ 1 / 2 ∧ (|x - n| = 1 / 2 → n % 2 = 0)

/-- `x` rounded to `k` significant digits is the number `n` of `k` digits, the first of them with the exponent `e`.
    The place of the last digit is set by the first digit of `x`; rounding may carry beyond it. -/
def Significand (k : Nat) (x : ℚ) (n : Nat) (e : Int) : Prop :=
  ∃ f m, (10 : ℚ) ^ f ≤ x ∧ x < (10 : ℚ) ^ (f + 1) ∧ RoundsTo (x * (10 : ℚ) ^ ((k : Int) - 1 - f)) m ∧
    (m < 10 ^ k ∧ n = m ∧ e = f ∨ m = 10 ^ k ∧ n = 10 ^ (k - 1) ∧ e = f + 1)

variable {num den k n : Nat} {x : ℚ} {e : Int}

/-! ## 1. The nearest integer -/

theorem roundsTo_roundDiv (num : Nat) (h : 0 < den) : RoundsTo (num / den : ℚ) (roundDiv num den) := by
  have hden : (0 : ℚ) < den := Nat.cast_pos.mpr h
  have hsplit : (num : ℚ) / den = (num / den : Nat) + (num % den : Nat) / (den : ℚ) := by
    field_simp
    exact_mod_cast (Nat.div_add_mod num den).symm
  have hrem : ((num % den : Nat) : ℚ) / den < 1 := by
    rw [div_lt_one hden]
    exact_mod_cast Nat.mod_lt num h
  have hnonneg : (0 : ℚ) ≤ (num % den : Nat) / (den : ℚ) := by positivity
  -- twice the remainder against the divisor, as the quotient against one half
  have hhalf : ((num % den : Nat) : ℚ) / den < 1 / 2 ↔ 2 * (num % den) < den := by
    rw [div_lt_div_iff₀ hden two_pos, one_mul, mul_comm]
    exact_mod_cast Iff.rfl
  have htie : ((num % den : Nat) : ℚ) / den = 1 / 2 ↔ 2 * (num % den) = den := by
    rw [div_eq_div_iff hden.ne' two_ne_zero, one_mul, mul_comm]
    exact_mod_cast Iff.rfl
  simp only [roundDiv]
  rw [hsplit]
  generalize num / den = q at *
  generalize ((num % den : Nat) : ℚ) / den = r at *
  split
  · next hup =>
    have hle : 1 / 2 ≤ r := by
      by_contra hlt
      have := hhalf.mp (not_le.mp hlt)
      omega
    rw [RoundsTo, Nat.cast_succ]
    constructor
    · rw [abs_le]
      constructor <;> linarith
    · intro heq
      rw [abs_of_nonpos (by linarith)] at heq
      have := htie.mp (by linarith)
      omega
  · next hdown =>
    have hle : r ≤ 1 / 2 := by
      rcases lt_or_eq_of_le (show 2 * (num % den) ≤ den by omega) with hlt | heq
      · exact (hhalf.mpr hlt).le
      · exact (htie.mpr heq).le
    constructor
    · rw [abs_le]
      constructor <;> linarith
    · intro heq
      rw [abs_of_nonneg (by linarith)] at heq
      have := htie.mp (by linarith)
      omega

/-! ## 2. The first digit -/

theorem leadingZeros_spec {b : Nat} (h : num < den) (hreach : den ≤ num * 10 ^ (b + 1)) :
    1 ≤ leadingZeros b num den ∧ den ≤ num * 10 ^ leadingZeros b num den ∧
      num * 10 ^ (leadingZeros b num den - 1) < den := by
  induction b generalizing num with
  | zero => simpa [leadingZeros] using ⟨hreach, h⟩
  | succ b ih =>
    rw [leadingZeros]
    split
    · next hten => simpa using ⟨hten, h⟩
    · next hten =>
      obtain ⟨hpos, hle, hlt⟩ := ih (Nat.lt_of_not_le hten) (by rw [pow_succ'] at hreach; linarith)
      refine ⟨by omega, ?_, ?_⟩
      · rw [pow_succ', ← mul_assoc]
        exact hle
      · obtain ⟨j, hj⟩ := Nat.exists_eq_succ_of_ne_zero (Nat.pos_iff_ne_zero.mp hpos)
        rw [hj, Nat.succ_sub_one] at hlt
        rw [hj, Nat.succ_eq_add_one, Nat.add_sub_cancel, pow_succ', ← mul_assoc]
        exact hlt

theorem magnitude_spec (hden : 0 < den) (hsmall : den ≤ num * 10 ^ (400 + 1)) :
    (10 : ℚ) ^ magnitude num den ≤ num / den ∧ (num / den : ℚ) < (10 : ℚ) ^ (magnitude num den + 1) := by
  have hpos : (0 : ℚ) < den := Nat.cast_pos.mpr hden
  rw [magnitude]
  split
  · next hle =>
    obtain ⟨l, hl⟩ := Nat.exists_eq_succ_of_ne_zero
      (Nat.pos_iff_ne_zero.mp (Nat.length_toDigits_pos (b := 10) (n := num / den)))
    have hupper : num / den < 10 ^ (l + 1) :=
      (Nat.length_toDigits_le_iff (by decide) (Nat.succ_pos l)).mp hl.le
    have hlower : 10 ^ l ≤ num / den := by
      cases l with
      | zero => exact Nat.div_pos hle hden
      | succ l =>
        by_contra hlt
        have := (Nat.length_toDigits_le_iff (b := 10) (by decide) (Nat.succ_pos l)).mpr (Nat.lt_of_not_le hlt)
        omega
    have hexp : ((Nat.toDigits 10 (num / den)).length : Int) - 1 = (l : Int) := by omega
    rw [hexp, zpow_natCast, ← Nat.cast_succ, zpow_natCast]
    rw [le_div_iff₀ hpos, div_lt_iff₀ hpos]
    constructor
    · exact_mod_cast (Nat.le_div_iff_mul_le hden).mp hlower
    · exact_mod_cast (Nat.div_lt_iff_lt_mul hden).mp hupper
  · next hlt =>
    obtain ⟨h1, hle, hlt'⟩ := leadingZeros_spec (b := 400) (Nat.lt_of_not_le hlt) hsmall
    obtain ⟨j, hj⟩ := Nat.exists_eq_succ_of_ne_zero (Nat.pos_iff_ne_zero.mp h1)
    rw [hj] at hle hlt' ⊢
    have hexp : -((j.succ : Nat) : Int) + 1 = -(j : Int) := by omega
    rw [hexp, zpow_neg, zpow_neg, zpow_natCast, zpow_natCast]
    rw [le_div_iff₀ hpos, div_lt_iff₀ hpos]
    constructor
    · rw [inv_mul_le_iff₀ (by positivity), mul_comm]
      exact_mod_cast hle
    · rw [lt_inv_mul_iff₀ (by positivity), mul_comm]
      exact_mod_cast hlt'

/-! ## 3. The digits -/

theorem RoundsTo.le {m : Nat} (h : RoundsTo x n) (hx : x ≤ m) : n ≤ m := by
  have := (abs_le.mp h.1).1
  have hlt : (n : ℚ) < m + 1 := by linarith
  exact Nat.lt_succ_iff.mp (by exact_mod_cast hlt)

theorem RoundsTo.ge {m : Nat} (h : RoundsTo x n) (hx : (m : ℚ) ≤ x) : m ≤ n := by
  have := (abs_le.mp h.1).2
  have hlt : (m : ℚ) < n + 1 := by linarith
  exact Nat.lt_succ_iff.mp (by exact_mod_cast hlt)

theorem RoundsTo.digits {f : Int} (hk : 0 < k) (hle : (10 : ℚ) ^ f ≤ x) (hlt : x < (10 : ℚ) ^ (f + 1))
    (h : RoundsTo (x * (10 : ℚ) ^ ((k : Int) - 1 - f)) n) : 10 ^ (k - 1) ≤ n ∧ n ≤ 10 ^ k := by
  have hpos : (0 : ℚ) < (10 : ℚ) ^ ((k : Int) - 1 - f) := by positivity
  have hlower : ((10 ^ (k - 1) : Nat) : ℚ) = (10 : ℚ) ^ f * (10 : ℚ) ^ ((k : Int) - 1 - f) := by
    rw [← zpow_add₀ (by norm_num), show f + ((k : Int) - 1 - f) = ((k - 1 : Nat) : Int) by omega, zpow_natCast]
    push_cast
    rfl
  have hupper : ((10 ^ k : Nat) : ℚ) = (10 : ℚ) ^ (f + 1) * (10 : ℚ) ^ ((k : Int) - 1 - f) := by
    rw [← zpow_add₀ (by norm_num), show f + 1 + ((k : Int) - 1 - f) = ((k : Nat) : Int) by omega, zpow_natCast]
    push_cast
    rfl
  constructor
  · refine h.ge ?_
    rw [hlower]
    exact mul_le_mul_of_nonneg_right hle hpos.le
  · refine h.le ?_
    rw [hupper]
    exact mul_le_mul_of_nonneg_right hlt.le hpos.le

theorem roundsTo_shifted (num : Nat) (hden : 0 < den) (shift : Int) :
    RoundsTo (num / den * (10 : ℚ) ^ shift)
      (if 0 ≤ shift then roundDiv (num * 10 ^ shift.toNat) den else roundDiv num (den * 10 ^ (-shift).toNat)) := by
  split
  · next h =>
    obtain ⟨s, rfl⟩ := Int.eq_ofNat_of_zero_le h
    have := roundsTo_roundDiv (num * 10 ^ s) hden
    push_cast at this
    rwa [mul_div_right_comm] at this
  · next h =>
    obtain ⟨s, hs⟩ := Int.eq_ofNat_of_zero_le (show 0 ≤ -shift by omega)
    have := roundsTo_roundDiv num (Nat.mul_pos hden (Nat.pow_pos (n := s) (by decide : 0 < 10)))
    push_cast at this
    rw [hs, show shift = -(s : Int) by omega, zpow_neg, zpow_natCast]
    rwa [← div_div, div_eq_mul_inv (num / den : ℚ)] at this

/-- **A ratio is rounded to its first significant digits.** -/
theorem significand_significant (hk : 0 < k) (hden : 0 < den) (hsmall : den ≤ num * 10 ^ (400 + 1)) :
    Significand k (num / den) (significant k num den).1 (significant k num den).2 := by
  obtain ⟨hle, hlt⟩ := magnitude_spec hden hsmall
  have hrounds := roundsTo_shifted num hden ((k : Int) - 1 - magnitude num den)
  obtain ⟨-, hupper⟩ := hrounds.digits hk hle hlt
  refine ⟨_, _, hle, hlt, hrounds, ?_⟩
  show _ ∨ _
  unfold significant
  simp only [Nat.pow_eq]
  generalize (if 0 ≤ (k : Int) - 1 - magnitude num den then _ else _ : Nat) = d at *
  split
  · next hcarry =>
    have hd : d = 10 ^ k := Nat.le_antisymm hupper hcarry
    exact .inr ⟨hd, by rw [hd, Nat.pow_div hk (by decide)], rfl⟩
  · next hfits => exact .inl ⟨Nat.lt_of_not_le hfits, rfl, rfl⟩

/-- The digits are also those at the place of the last of them: what is rounded up to a power of ten is so at the
    next place too. -/
theorem Significand.roundsTo (hk : 0 < k) (h : Significand k x n e) :
    10 ^ (k - 1) ≤ n ∧ n < 10 ^ k ∧ RoundsTo (x * (10 : ℚ) ^ ((k : Int) - 1 - e)) n := by
  obtain ⟨f, m, hle, hlt, hrounds, ⟨hm, rfl, rfl⟩ | ⟨rfl, rfl, rfl⟩⟩ := h
  · exact ⟨(hrounds.digits hk hle hlt).1, hm, hrounds⟩
  · refine ⟨Nat.le_refl _, Nat.pow_lt_pow_right (by decide) (by omega), ?_⟩
    have hplace : x * (10 : ℚ) ^ ((k : Int) - 1 - f) = 10 * (x * (10 : ℚ) ^ ((k : Int) - 1 - (f + 1))) := by
      rw [show (k : Int) - 1 - f = (k : Int) - 1 - (f + 1) + 1 by omega, zpow_add_one₀ (by norm_num)]
      ring
    have hten : ((10 ^ k : Nat) : ℚ) = 10 * (10 ^ (k - 1) : Nat) := by
      obtain ⟨j, rfl⟩ := Nat.exists_eq_succ_of_ne_zero (Nat.pos_iff_ne_zero.mp hk)
      push_cast
      rw [pow_succ']
    have hnear := hrounds.1
    rw [hplace, hten, ← mul_sub, abs_mul, abs_of_pos (by norm_num : (0 : ℚ) < 10)] at hnear
    exact ⟨by linarith, fun heq => by linarith⟩

end Decimal

end LuaMachine
