/-
  KEYS AND EQUALITY. A table keeps a value under its normal form; two values have the same normal form
  exactly when scripts call them equal.

  * `Table.rawEqual_iff` -- **equal values have equal normal forms**.
-/
import LuaMachine.Value.Table

namespace LuaMachine

namespace Double

/-! ## 1. Bits and exact values -/

theorem magnitude_eq (d : Double) : d.magnitude = d.exponentField * exponentWeight + d.fraction := by
  unfold exponentField fraction
  rw [Nat.mul_comm]
  exact (Nat.div_add_mod ..).symm

theorem fraction_lt (d : Double) : d.fraction < exponentWeight := Nat.mod_lt _ (by decide)

theorem units_lt {a b : Double} (h : a.magnitude < b.magnitude) : a.units < b.units := by
  have ha := magnitude_eq a
  have hb := magnitude_eq b
  have hfa := fraction_lt a
  have hfb := fraction_lt b
  unfold units
  simp only [Nat.shiftLeft_eq]
  generalize a.exponentField = e at *
  generalize b.exponentField = e' at *
  have hle : e ≤ e' := by
    refine Nat.le_of_not_lt fun hlt => ?_
    have : (e' + 1) * exponentWeight ≤ e * exponentWeight := Nat.mul_le_mul_right _ hlt
    rw [Nat.add_mul] at this
    omega
  obtain rfl | hlt := Nat.eq_or_lt_of_le hle
  · have hf : a.fraction < b.fraction := by omega
    split
    · exact hf
    · exact Nat.mul_lt_mul_of_pos_right (by omega) (Nat.two_pow_pos _)
  · -- the next exponent begins where this one ends
    rw [if_neg (show e' ≠ 0 by omega)]
    have hstep : exponentWeight * 2 ^ e ≤ (exponentWeight + b.fraction) * 2 ^ (e' - 1) :=
      Nat.mul_le_mul (by omega) (Nat.pow_le_pow_right (by decide) (by omega))
    refine Nat.lt_of_lt_of_le ?_ hstep
    split
    · next h0 =>
      subst h0
      omega
    · next h0 =>
      obtain ⟨k, rfl⟩ := Nat.exists_eq_succ_of_ne_zero h0
      have : 0 < 2 ^ k := Nat.two_pow_pos k
      calc (exponentWeight + a.fraction) * 2 ^ k
          < (exponentWeight + exponentWeight) * 2 ^ k := Nat.mul_lt_mul_of_pos_right (by omega) this
        _ = exponentWeight * 2 ^ (k + 1) := by rw [Nat.pow_succ, ← Nat.mul_two]; ac_rfl

theorem magnitude_of_units {a b : Double} (h : a.units = b.units) : a.magnitude = b.magnitude := by
  refine Nat.le_antisymm (Nat.le_of_not_lt fun hlt => ?_) (Nat.le_of_not_lt fun hlt => ?_)
  · have := units_lt hlt
    omega
  · have := units_lt hlt
    omega

theorem units_zero {d : Double} (h : d.magnitude = 0) : d.units = 0 := by
  have := magnitude_eq d
  have hf : d.fraction = 0 := by omega
  have he : d.exponentField = 0 := by
    unfold exponentField
    rw [h]
    decide
  rw [units, if_pos he, hf]

theorem eq_of_magnitude {a b : Double} (hm : a.magnitude = b.magnitude) (hs : a.negative = b.negative) :
    a = b := by
  have ha := a.bits.toNat_lt
  have hb := b.bits.toNat_lt
  have hsign : signWeight ≤ a.bits.toNat ↔ signWeight ≤ b.bits.toNat := decide_eq_decide.mp hs
  have hbits : a.bits.toNat = b.bits.toNat := by
    simp only [magnitude, signWeight] at *
    omega
  exact congrArg Double.mk (UInt64.toNat_inj.mp hbits)

theorem rank_eq_iff {a b : Double} :
    a.rank = b.rank ↔ a = b ∨ a.magnitude = 0 ∧ b.magnitude = 0 := by
  constructor
  · intro h
    unfold rank at h
    by_cases hs : a.negative = b.negative
    · refine .inl (eq_of_magnitude ?_ hs)
      rw [hs] at h
      split at h <;> omega
    · refine .inr ?_
      cases ha : a.negative <;> cases hb : b.negative <;> simp [ha, hb] at h hs <;> omega
  · rintro (rfl | ⟨ha, hb⟩)
    · rfl
    · simp [rank, ha, hb]

theorem rank_of_signedUnits {a b : Double} (h : a.signedUnits = b.signedUnits) : a.rank = b.rank := by
  have hzero : ∀ {d : Double}, d.units = 0 → d.magnitude = 0 := fun {d} hd =>
    magnitude_of_units (a := d) (b := zero) (hd.trans (by decide))
  unfold signedUnits at h
  by_cases hs : a.negative = b.negative
  · rw [hs] at h
    refine rank_eq_iff.mpr (.inl (eq_of_magnitude (magnitude_of_units ?_) hs))
    split at h <;> omega
  · refine rank_eq_iff.mpr (.inr ?_)
    cases ha : a.negative <;> cases hb : b.negative <;> simp [ha, hb] at h hs
    · exact ⟨hzero (by omega), hzero (by omega)⟩
    · exact ⟨hzero (by omega), hzero (by omega)⟩

theorem toInt64?_eq_some_iff {d : Double} {i : Int64} :
    d.toInt64? = some i ↔ d.isFinite = true ∧ i.toInt * unitsPerOne = d.signedUnits := by
  have hpos : (0 : Int) < unitsPerOne := by decide
  have hlo := i.le_toInt
  have hhi := i.toInt_lt
  unfold toInt64? floor?
  constructor
  · intro h
    split at h
    · next n hn =>
      obtain ⟨hfin, hfloor⟩ := Option.ite_none_right_eq_some.mp hn
      obtain ⟨⟨hval, hin⟩, hi⟩ := Option.ite_none_right_eq_some.mp h
      simp only [inRange, decide_eq_true_eq] at hin
      cases hi
      rw [Int64.toInt_ofInt_of_le (by omega) (by omega)]
      exact ⟨hfin, hval⟩
    · cases h
  · rintro ⟨hfin, hval⟩
    have hfloor : d.signedUnits.fdiv unitsPerOne = i.toInt := by
      rw [← hval]
      exact Int.mul_fdiv_cancel _ (by omega)
    have hin : inRange i.toInt = true := by
      simp only [inRange, decide_eq_true_eq]
      omega
    simp [hfin, hfloor, hval, hin]

theorem toInt64?_zero {d : Double} (h : d.magnitude = 0) : d.toInt64? = some 0 := by
  refine toInt64?_eq_some_iff.mpr ⟨?_, ?_⟩
  · simp [isFinite, exponentField, h, exponentWeight]
  · simp [signedUnits, units_zero h]

theorem isNaN_of_toInt64? {d : Double} {i : Int64} (h : d.toInt64? = some i) : d.isNaN = false := by
  have := (toInt64?_eq_some_iff.mp h).1
  simp only [isFinite, decide_eq_true_eq] at this
  simp only [isNaN, decide_eq_false_iff_not]
  omega

theorem eqv_iff {a b : Double} (ha : a.isNaN = false) (hb : b.isNaN = false) :
    a.eqv b = true ↔ (a.toInt64? = none ∧ a = b) ∨ ∃ i, a.toInt64? = some i ∧ b.toInt64? = some i := by
  have heq : a.eqv b = true ↔ a.rank = b.rank := by simp [eqv, ha, hb]
  rw [heq]
  constructor
  · intro h
    obtain rfl | ⟨h₀, h1⟩ := rank_eq_iff.mp h
    · cases hi : a.toInt64? with
      | none => exact .inl ⟨rfl, rfl⟩
      | some i => exact .inr ⟨i, rfl, rfl⟩
    · exact .inr ⟨0, toInt64?_zero h₀, toInt64?_zero h1⟩
  · rintro (⟨_, rfl⟩ | ⟨i, h₀, h1⟩)
    · rfl
    · exact rank_of_signedUnits
        ((toInt64?_eq_some_iff.mp h₀).2.symm.trans (toInt64?_eq_some_iff.mp h1).2)

end Double

namespace Table

/-! ## 2. Normal forms -/

theorem normalize_float {d : Double} (h : d.isNaN = false) :
    normalize (.float d) = .ok ((d.toInt64?.map Value.int).getD (.float d)) := by
  simp only [normalize, h, Bool.false_eq_true, if_false]
  cases d.toInt64? <;> rfl

theorem normalize_nan {d : Double} (h : d.isNaN = true) : normalize (.float d) = .error .nanKey := by
  simp [normalize, h]

theorem rawEqual_error {a b k : Value} {f : TableFault} (ha : normalize a = .ok k)
    (hb : normalize b = .error f) : a.rawEqual b = false := by
  cases b with
  | nil => cases a <;> first | rfl | cases ha
  | float d =>
    have hd : d.isNaN = true := by
      cases hd : d.isNaN with
      | true => rfl
      | false => rw [normalize_float hd] at hb; cases hb
    cases a with
    | float d' => simp [Value.rawEqual, Double.eqv, hd]
    | int i =>
      have : d.toInt64? ≠ some i := fun hi => by
        rw [Double.isNaN_of_toInt64? hi] at hd
        cases hd
      simp [Value.rawEqual, this]
    | _ => rfl
  | _ => cases hb

/-- **Equal values have equal normal forms.** -/
theorem rawEqual_iff {a b k l : Value} (ha : normalize a = .ok k) (hb : normalize b = .ok l) :
    a.rawEqual b = true ↔ k = l := by
  -- an integer and a double
  have hmixed : ∀ {i : Int64} {d : Double} {l : Value}, normalize (.float d) = .ok l →
      (d.toInt64? = some i ↔ Value.int i = l) := by
    intro i d l hl
    cases hd : d.isNaN with
    | true => rw [normalize_nan hd] at hl; cases hl
    | false =>
      rw [normalize_float hd] at hl
      cases hl
      cases d.toInt64? with
      | none => simp
      | some j => simp [eq_comm]
  -- a double and what is neither integer nor double
  have hother : ∀ {d : Double} {k l : Value}, normalize (.float d) = .ok k → l.number? = none → k ≠ l := by
    intro d k l hk hl
    cases hd : d.isNaN with
    | true => rw [normalize_nan hd] at hk; cases hk
    | false =>
      rw [normalize_float hd] at hk
      cases hk
      cases d.toInt64? with
      | none => rintro rfl; cases hl
      | some j => rintro rfl; cases hl
  cases a with
  | nil => cases ha
  | float d =>
    cases b with
    | nil => cases hb
    | float d' =>
      cases hd : d.isNaN with
      | true => rw [normalize_nan hd] at ha; cases ha
      | false =>
      cases hd' : d'.isNaN with
      | true => rw [normalize_nan hd'] at hb; cases hb
      | false =>
        rw [normalize_float hd] at ha
        rw [normalize_float hd'] at hb
        cases ha
        cases hb
        show d.eqv d' = true ↔ _
        rw [Double.eqv_iff hd hd']
        cases hi : d.toInt64? with
        | none =>
          cases hj : d'.toInt64? with
          | none => simp
          | some j =>
            have : d ≠ d' := fun h => by rw [h, hj] at hi; cases hi
            simp [this]
        | some i =>
          cases hj : d'.toInt64? with
          | none => simp
          | some j => simp [eq_comm]
    | int i =>
      cases hb
      simp only [Value.rawEqual, decide_eq_true_eq]
      rw [hmixed ha, eq_comm]
    | _ => cases hb; simpa [Value.rawEqual] using hother ha rfl
  | int i =>
    cases ha
    cases b with
    | nil => cases hb
    | float d =>
      simp only [Value.rawEqual, decide_eq_true_eq]
      exact hmixed hb
    | _ => cases hb; simp [Value.rawEqual]
  | _ =>
    cases ha
    cases b with
    | nil => cases hb
    | float d => simpa [Value.rawEqual] using (hother hb rfl).symm
    | _ => cases hb; simp [Value.rawEqual]

theorem normalize_normal {a k : Value} (h : normalize a = .ok k) : normalize k = .ok k := by
  cases a with
  | nil => cases h
  | float d =>
    cases hd : d.isNaN with
    | true => rw [normalize_nan hd] at h; cases h
    | false =>
      rw [normalize_float hd] at h
      cases hi : d.toInt64? with
      | none =>
        rw [hi] at h
        cases h
        show normalize (.float d) = .ok (.float d)
        rw [normalize_float hd, hi]
        rfl
      | some i =>
        rw [hi] at h
        cases h
        rfl
  | _ => cases h; rfl

end Table

end LuaMachine
