/-
  THE ORDER OF NUMBERS. Integers and doubles are compared as the exact numbers they are: no integer is
  rounded, an infinity is beyond all numbers, NaN compares with nothing.

  * **`Value.comparison_exact`** -- order and equality of numbers are those of their exact values.
-/
import LuaMachine.Proofs.Value.LoopLimit

namespace LuaMachine

def Number.Compares (S : WithBot (WithTop ℚ) → WithBot (WithTop ℚ) → Prop) (a b : Number) : Prop :=
  ∃ x y, a.extended? = some x ∧ b.extended? = some y ∧ S x y

namespace Double

variable {d a b : Double} {x y : WithBot (WithTop ℚ)}

/-! ## 1. Positions of doubles -/

theorem extended_finite (h : d.isFinite = true) :
    d.extended? = some (((d.signedUnits / unitsPerOne : ℚ) : WithTop ℚ) : WithBot (WithTop ℚ)) := if_pos h

theorem extended_cases (h : d.extended? = some x) :
    (d.isFinite = true ∧ x = (((d.signedUnits / unitsPerOne : ℚ) : WithTop ℚ) : WithBot (WithTop ℚ))) ∨
      (d.isInfinite = true ∧ x = if d.negative then ⊥ else ⊤) := by
  unfold extended? at h
  split at h
  · next hfin => exact .inl ⟨hfin, (Option.some.inj h).symm⟩
  · next hfin =>
    split at h
    · cases h
    · next hnan =>
      refine .inr ⟨?_, (Option.some.inj h).symm⟩
      have hfield : d.exponentField < 2048 := by
        have := Nat.mod_lt d.bits.toNat (show 0 < signWeight by decide)
        simp only [exponentField, magnitude, exponentWeight, signWeight] at *
        omega
      simp only [isFinite, isNaN, isInfinite, decide_eq_true_eq] at *
      omega

theorem extended_eq_none_iff : d.extended? = none ↔ d.isNaN = true := by
  unfold extended?
  split
  · next hfin =>
    simp only [isFinite, isNaN, decide_eq_true_eq] at *
    simp only [reduceCtorEq, false_iff]
    omega
  · split <;> simp_all

theorem isNaN_of_extended (h : d.extended? = some x) : d.isNaN = false :=
  Bool.eq_false_iff.mpr fun hnan => by
    rw [extended_eq_none_iff.mpr hnan] at h
    cases h

theorem exists_extended (h : d.isNaN = false) : ∃ x, d.extended? = some x :=
  Option.ne_none_iff_exists'.mp fun hnone => by
    rw [extended_eq_none_iff.mp hnone] at h
    cases h

theorem units_congr (h : a.magnitude = b.magnitude) : a.units = b.units := by
  unfold units exponentField fraction
  rw [h]

theorem units_lt_iff : a.units < b.units ↔ a.magnitude < b.magnitude := by
  refine ⟨fun h => Nat.lt_of_not_le fun hle => ?_, units_lt⟩
  obtain hlt | heq := Nat.lt_or_eq_of_le hle
  · exact Nat.lt_asymm h (units_lt hlt)
  · exact Nat.ne_of_gt h (units_congr heq)

theorem signedUnits_lt_iff : a.signedUnits < b.signedUnits ↔ a.rank < b.rank := by
  have hzero : zero.units = 0 ∧ zero.magnitude = 0 := by decide
  have ha : 0 < a.units ↔ 0 < a.magnitude := by simpa [hzero] using units_lt_iff (a := zero) (b := a)
  have hb : 0 < b.units ↔ 0 < b.magnitude := by simpa [hzero] using units_lt_iff (a := zero) (b := b)
  have hab := units_lt_iff (a := a) (b := b)
  have hba := units_lt_iff (a := b) (b := a)
  unfold signedUnits rank
  split <;> split <;> omega

theorem magnitude_finite (h : d.isFinite = true) : d.magnitude < 2047 * exponentWeight := by
  have hfield : d.exponentField < 2047 := of_decide_eq_true h
  exact Nat.lt_of_not_le fun hle => Nat.not_le.mpr hfield ((Nat.le_div_iff_mul_le (by decide)).mpr hle)

theorem magnitude_infinite (h : d.isInfinite = true) : d.magnitude = 2047 * exponentWeight := by
  obtain ⟨hfield, hfraction⟩ := of_decide_eq_true h
  rw [magnitude_eq, hfield, hfraction, Nat.add_zero]

theorem rational_lt_top (q : ℚ) : ((q : WithTop ℚ) : WithBot (WithTop ℚ)) < ⊤ := by
  rw [← WithBot.coe_top, WithBot.coe_lt_coe]
  exact WithTop.coe_lt_top q

/-- **The rank of a double is its position on the rational line.** -/
theorem extended_lt_iff (ha : a.extended? = some x) (hb : b.extended? = some y) : x < y ↔ a.rank < b.rank := by
  have hpos : (0 : ℚ) < unitsPerOne := Nat.cast_pos.mpr unitsPerOne_pos
  have hrank : ∀ d : Double, d.rank = if d.negative then -(d.magnitude : Int) else d.magnitude := fun _ => rfl
  obtain ⟨hfa, rfl⟩ | ⟨hia, rfl⟩ := extended_cases ha
  · obtain ⟨hfb, rfl⟩ | ⟨hib, rfl⟩ := extended_cases hb
    · rw [WithBot.coe_lt_coe, WithTop.coe_lt_coe, div_lt_div_iff_of_pos_right hpos, Int.cast_lt, signedUnits_lt_iff]
    · have hm := magnitude_finite hfa
      rw [← magnitude_infinite hib] at hm
      rw [hrank, hrank]
      cases b.negative
      · simp only [Bool.false_eq_true, if_false, rational_lt_top, true_iff]
        split <;> omega
      · simp only [if_true, not_lt_bot, false_iff]
        split <;> omega
  · obtain ⟨hfb, rfl⟩ | ⟨hib, rfl⟩ := extended_cases hb
    · have hm := magnitude_finite hfb
      rw [← magnitude_infinite hia] at hm
      rw [hrank, hrank]
      cases a.negative
      · simp only [Bool.false_eq_true, if_false, not_top_lt, false_iff]
        split <;> omega
      · simp only [if_true, WithBot.bot_lt_coe, true_iff]
        split <;> omega
    · have hm := (magnitude_infinite hia).trans (magnitude_infinite hib).symm
      have hm0 : 0 < a.magnitude := by
        rw [magnitude_infinite hia]
        decide
      rw [hrank, hrank]
      cases a.negative <;> cases b.negative <;> simp <;> omega

theorem extended_le_iff (ha : a.extended? = some x) (hb : b.extended? = some y) : x ≤ y ↔ a.rank ≤ b.rank := by
  rw [← not_lt, ← not_lt, extended_lt_iff hb ha]

theorem extended_eq_iff (ha : a.extended? = some x) (hb : b.extended? = some y) : x = y ↔ a.rank = b.rank := by
  rw [le_antisymm_iff, le_antisymm_iff, extended_le_iff ha hb, extended_le_iff hb ha]

theorem compares_iff {test : Bool} {S : WithBot (WithTop ℚ) → WithBot (WithTop ℚ) → Prop}
    (h : ∀ {x y}, a.extended? = some x → b.extended? = some y → (S x y ↔ test = true)) :
    (!a.isNaN && !b.isNaN && test) = true ↔ (Number.float a).Compares S (.float b) := by
  simp only [Bool.and_eq_true, Bool.not_eq_true']
  constructor
  · rintro ⟨⟨ha, hb⟩, htest⟩
    obtain ⟨x, hx⟩ := exists_extended ha
    obtain ⟨y, hy⟩ := exists_extended hb
    exact ⟨x, y, hx, hy, (h hx hy).mpr htest⟩
  · rintro ⟨x, y, hx, hy, hS⟩
    exact ⟨⟨isNaN_of_extended hx, isNaN_of_extended hy⟩, (h hx hy).mp hS⟩

theorem lt_iff : a.lt b = true ↔ (Number.float a).Compares (· < ·) (.float b) :=
  compares_iff fun ha hb => (extended_lt_iff ha hb).trans decide_eq_true_iff.symm

theorem le_iff : a.le b = true ↔ (Number.float a).Compares (· ≤ ·) (.float b) :=
  compares_iff fun ha hb => (extended_le_iff ha hb).trans decide_eq_true_iff.symm

theorem eqv_compares_iff : a.eqv b = true ↔ (Number.float a).Compares (· = ·) (.float b) :=
  compares_iff fun ha hb => (extended_eq_iff ha hb).trans beq_iff_eq.symm

/-! ## 2. The ends of the words -/

def wordsLast : Double := ⟨0x43DFFFFFFFFFFFFF⟩

theorem extended_of_units {n : Int} (h : d.isFinite = true) (hn : d.signedUnits = n * unitsPerOne) :
    d.extended? = some (((n : ℚ) : WithTop ℚ) : WithBot (WithTop ℚ)) := by
  have hne : (unitsPerOne : ℚ) ≠ 0 := Nat.cast_ne_zero.mpr unitsPerOne_pos.ne'
  rw [extended_finite h, hn, Int.cast_mul, Int.cast_natCast, mul_div_cancel_right₀ _ hne]

theorem extended_wordsEnd : wordsEnd.extended? = some (((2 ^ 63 : ℚ) : WithTop ℚ) : WithBot (WithTop ℚ)) := by
  have h := extended_of_units (d := wordsEnd) (n := 2 ^ 63) (by decide) rfl
  exact_mod_cast h

theorem extended_wordsStart :
    wordsStart.extended? = some (((-2 ^ 63 : ℚ) : WithTop ℚ) : WithBot (WithTop ℚ)) := by
  have h := extended_of_units (d := wordsStart) (n := -2 ^ 63) (by decide) rfl
  exact_mod_cast h

theorem extended_wordsLast :
    wordsLast.extended? = some (((2 ^ 63 - 1024 : ℚ) : WithTop ℚ) : WithBot (WithTop ℚ)) := by
  have h := extended_of_units (d := wordsLast) (n := 2 ^ 63 - 1024) (by decide) rfl
  exact_mod_cast h

theorem le_wordsLast (h : d.rank < wordsEnd.rank) : d.rank ≤ wordsLast.rank := by
  have : wordsEnd.rank = wordsLast.rank + 1 := by decide
  omega

theorem castPart_toInt {c : Int} (h : inRange c = true) : (d.castPart (some c)).toInt = c := by
  rw [castPart, if_pos h]
  exact Value.toInt_ofInt_inRange h

theorem le_floorWord_iff (hfin : d.isFinite = true) (hlo : (-2 ^ 63 : ℚ) ≤ d.signedUnits / unitsPerOne)
    (hhi : (d.signedUnits / unitsPerOne : ℚ) ≤ 2 ^ 63 - 1024) (i : Int64) :
    i.toInt ≤ d.floorWord.toInt ↔ (i.toInt : ℚ) ≤ d.signedUnits / unitsPerOne := by
  obtain ⟨c, hc⟩ : ∃ c, d.floor? = some c := ⟨_, if_pos hfin⟩
  have hmin : -2 ^ 63 ≤ c := (le_floor_iff hc _).mpr (by exact_mod_cast hlo)
  have hmax : c ≤ 2 ^ 63 - 1024 := by
    have := ((le_floor_iff hc c).mp le_rfl).trans hhi
    exact_mod_cast this
  have hin : inRange c = true := decide_eq_true ⟨by omega, by omega⟩
  rw [floorWord, hc, castPart_toInt hin]
  exact le_floor_iff hc _

theorem ceilWord_le_iff (hfin : d.isFinite = true) (hlo : (-2 ^ 63 : ℚ) ≤ d.signedUnits / unitsPerOne)
    (hhi : (d.signedUnits / unitsPerOne : ℚ) ≤ 2 ^ 63 - 1024) (i : Int64) :
    d.ceilWord.toInt ≤ i.toInt ↔ (d.signedUnits / unitsPerOne : ℚ) ≤ i.toInt := by
  obtain ⟨c, hc⟩ : ∃ c, d.ceil? = some c := ⟨_, if_pos hfin⟩
  have hmin : -2 ^ 63 ≤ c := by
    have := hlo.trans ((ceil_le_iff hc c).mp le_rfl)
    exact_mod_cast this
  have hmax : c ≤ 2 ^ 63 - 1024 := (ceil_le_iff hc _).mpr (by exact_mod_cast hhi)
  have hin : inRange c = true := decide_eq_true ⟨by omega, by omega⟩
  rw [ceilWord, hc, castPart_toInt hin]
  exact ceil_le_iff hc _

end Double

namespace Value

variable {d : Double}

/-! ## 3. A word and a double -/

/-- **The range tests of a word with a double change no answer**: they agree with what holds of the
    numbers beyond the words, and leave the doubles for which the integer part is a word. -/
theorem mixed_iff {above inside : Bool} {S : WithBot (WithTop ℚ) → Prop}
    (hup : ∀ x, (((2 ^ 63 : ℚ) : WithTop ℚ) : WithBot (WithTop ℚ)) ≤ x → (S x ↔ above = true))
    (hdown : ∀ x, x < (((-2 ^ 63 : ℚ) : WithTop ℚ) : WithBot (WithTop ℚ)) → (S x ↔ above = false))
    (hin : d.isFinite = true → (-2 ^ 63 : ℚ) ≤ d.signedUnits / Double.unitsPerOne →
      (d.signedUnits / Double.unitsPerOne : ℚ) ≤ 2 ^ 63 - 1024 →
      (S (((d.signedUnits / Double.unitsPerOne : ℚ) : WithTop ℚ) : WithBot (WithTop ℚ)) ↔ inside = true)) :
    mixed d above inside = true ↔ ∃ x, d.extended? = some x ∧ S x := by
  unfold mixed
  split
  · next hnan => simp [Double.extended_eq_none_iff.mpr hnan]
  · next hnan =>
    obtain ⟨x, hx⟩ := Double.exists_extended (Bool.eq_false_iff.mpr hnan)
    have hS : (∃ y, d.extended? = some y ∧ S y) ↔ S x := by simp [hx]
    rw [hS]
    have hend : Double.wordsEnd.le d = true ↔ (((2 ^ 63 : ℚ) : WithTop ℚ) : WithBot (WithTop ℚ)) ≤ x := by
      simp [Double.le_iff, Number.Compares, Number.extended?, Double.extended_wordsEnd, hx]
    have hstart : d.lt Double.wordsStart = true ↔ x < (((-2 ^ 63 : ℚ) : WithTop ℚ) : WithBot (WithTop ℚ)) := by
      simp [Double.lt_iff, Number.Compares, Number.extended?, Double.extended_wordsStart, hx]
    split
    · next hle => exact (hup x (hend.mp hle)).symm
    · next hle =>
      split
      · next hlt =>
        rw [hdown x (hstart.mp hlt)]
        simp
      · next hlt =>
        have hrank : d.rank ≤ Double.wordsLast.rank := by
          refine Double.le_wordsLast ((Double.extended_lt_iff hx Double.extended_wordsEnd).mp ?_)
          exact not_le.mp (mt hend.mpr hle)
        have hlast := (Double.extended_le_iff hx Double.extended_wordsLast).mpr hrank
        have hfirst := not_lt.mp (mt hstart.mpr hlt)
        obtain ⟨hfin, rfl⟩ | ⟨-, rfl⟩ := Double.extended_cases hx
        · rw [WithBot.coe_le_coe, WithTop.coe_le_coe] at hlast hfirst
          exact (hin hfin hfirst hlast).symm
        · -- the ends of the line are beyond the words
          cases hneg : d.negative with
          | false =>
            rw [hneg] at hlast
            exact absurd hlast (not_le.mpr (Double.rational_lt_top _))
          | true =>
            rw [hneg] at hfirst
            exact absurd hfirst (not_le.mpr (WithBot.bot_lt_coe _))

theorem below_wordsEnd (i : Int64) : (i.toInt : ℚ) < 2 ^ 63 := by exact_mod_cast i.toInt_lt

theorem wordsStart_le (i : Int64) : (-2 ^ 63 : ℚ) ≤ i.toInt := by exact_mod_cast i.le_toInt

theorem ofInteger_lt {i : Int64} {x : WithBot (WithTop ℚ)}
    (h : (((2 ^ 63 : ℚ) : WithTop ℚ) : WithBot (WithTop ℚ)) ≤ x) : Number.ofInteger i < x := by
  refine lt_of_lt_of_le ?_ h
  rw [Number.ofInteger, WithBot.coe_lt_coe, WithTop.coe_lt_coe]
  exact below_wordsEnd i

theorem lt_ofInteger {i : Int64} {x : WithBot (WithTop ℚ)}
    (h : x < (((-2 ^ 63 : ℚ) : WithTop ℚ) : WithBot (WithTop ℚ))) : x < Number.ofInteger i := by
  refine lt_of_lt_of_le h ?_
  rw [Number.ofInteger, WithBot.coe_le_coe, WithTop.coe_le_coe]
  exact wordsStart_le i

theorem compares_int_float {S : WithBot (WithTop ℚ) → WithBot (WithTop ℚ) → Prop} {i : Int64} :
    (Number.int i).Compares S (.float d) ↔ ∃ x, d.extended? = some x ∧ S (Number.ofInteger i) x := by
  simp [Number.Compares, Number.extended?, Number.ofInteger]

theorem compares_float_int {S : WithBot (WithTop ℚ) → WithBot (WithTop ℚ) → Prop} {i : Int64} :
    (Number.float d).Compares S (.int i) ↔ ∃ x, d.extended? = some x ∧ S x (Number.ofInteger i) := by
  simp [Number.Compares, Number.extended?, Number.ofInteger]

theorem intLess_iff (i : Int64) : intLess i d = true ↔ (Number.int i).Compares (· < ·) (.float d) := by
  refine (mixed_iff (fun x h => ?_) (fun x h => ?_) fun hfin hlo hhi => ?_).trans compares_int_float.symm
  · exact iff_of_true (ofInteger_lt h) rfl
  · exact iff_of_false (lt_asymm (lt_ofInteger h)) Bool.noConfusion
  · rw [Number.ofInteger, WithBot.coe_lt_coe, WithTop.coe_lt_coe, decide_eq_true_iff, Int64.lt_iff_toInt_lt,
      ← not_le, ← not_le, Double.ceilWord_le_iff hfin hlo hhi]

theorem intLessEq_iff (i : Int64) : intLessEq i d = true ↔ (Number.int i).Compares (· ≤ ·) (.float d) := by
  refine (mixed_iff (fun x h => ?_) (fun x h => ?_) fun hfin hlo hhi => ?_).trans compares_int_float.symm
  · exact iff_of_true (ofInteger_lt h).le rfl
  · exact iff_of_false (not_le.mpr (lt_ofInteger h)) Bool.noConfusion
  · rw [Number.ofInteger, WithBot.coe_le_coe, WithTop.coe_le_coe, decide_eq_true_iff, Int64.le_iff_toInt_le,
      Double.le_floorWord_iff hfin hlo hhi]

theorem floatLess_iff (i : Int64) : floatLess d i = true ↔ (Number.float d).Compares (· < ·) (.int i) := by
  refine (mixed_iff (S := (· < Number.ofInteger i)) (fun x h => ?_) (fun x h => ?_) fun hfin hlo hhi => ?_).trans
    compares_float_int.symm
  · exact iff_of_false (lt_asymm (ofInteger_lt h)) Bool.noConfusion
  · exact iff_of_true (lt_ofInteger h) rfl
  · rw [Number.ofInteger, WithBot.coe_lt_coe, WithTop.coe_lt_coe, decide_eq_true_iff, Int64.lt_iff_toInt_lt,
      ← not_le, ← not_le, Double.le_floorWord_iff hfin hlo hhi]

theorem floatLessEq_iff (i : Int64) : floatLessEq d i = true ↔ (Number.float d).Compares (· ≤ ·) (.int i) := by
  refine (mixed_iff (S := (· ≤ Number.ofInteger i)) (fun x h => ?_) (fun x h => ?_) fun hfin hlo hhi => ?_).trans
    compares_float_int.symm
  · exact iff_of_false (not_le.mpr (ofInteger_lt h)) Bool.noConfusion
  · exact iff_of_true (lt_ofInteger h).le rfl
  · rw [Number.ofInteger, WithBot.coe_le_coe, WithTop.coe_le_coe, decide_eq_true_iff, Int64.le_iff_toInt_le,
      Double.ceilWord_le_iff hfin hlo hhi]

theorem toInt64?_iff (i : Int64) : d.toInt64? = some i ↔ (Number.float d).Compares (· = ·) (.int i) := by
  have hpos : (0 : ℚ) < Double.unitsPerOne := Nat.cast_pos.mpr Double.unitsPerOne_pos
  rw [compares_float_int, Double.toInt64?_eq_some_iff]
  constructor
  · rintro ⟨hfin, hval⟩
    exact ⟨_, Double.extended_of_units hfin hval.symm, rfl⟩
  · rintro ⟨x, hx, rfl⟩
    obtain ⟨hfin, hq⟩ | ⟨-, hend⟩ := Double.extended_cases hx
    · refine ⟨hfin, ?_⟩
      rw [Number.ofInteger, WithBot.coe_inj, WithTop.coe_inj, eq_div_iff hpos.ne'] at hq
      exact_mod_cast hq
    · cases hneg : d.negative with
      | false =>
        rw [hneg] at hend
        exact absurd hend (Double.rational_lt_top _).ne
      | true =>
        rw [hneg] at hend
        exact absurd hend (WithBot.bot_lt_coe _).ne'

/-! ## 4. Two numbers -/

variable (a b c : Number)

theorem less?_exact : ∃ r, less? (ofNumber a) (ofNumber b) = some r ∧ (r = true ↔ a.Compares (· < ·) b) := by
  cases a <;> cases b
  · exact ⟨_, rfl, by simp [Number.Compares, Number.extended?, Int64.lt_iff_toInt_lt]⟩
  · exact ⟨_, rfl, intLess_iff _⟩
  · exact ⟨_, rfl, floatLess_iff _⟩
  · exact ⟨_, rfl, Double.lt_iff⟩

theorem lessEq?_exact : ∃ r, lessEq? (ofNumber a) (ofNumber b) = some r ∧ (r = true ↔ a.Compares (· ≤ ·) b) := by
  cases a <;> cases b
  · exact ⟨_, rfl, by simp [Number.Compares, Number.extended?, Int64.le_iff_toInt_le]⟩
  · exact ⟨_, rfl, intLessEq_iff _⟩
  · exact ⟨_, rfl, floatLessEq_iff _⟩
  · exact ⟨_, rfl, Double.le_iff⟩

theorem rawEqual_exact : rawEqual (ofNumber a) (ofNumber b) = true ↔ a.Compares (· = ·) b := by
  cases a with
  | int i =>
    cases b with
    | int j => simp [rawEqual, ofNumber, Number.Compares, Number.extended?, Int64.toInt_inj]
    | float d =>
      refine decide_eq_true_iff.trans ((toInt64?_iff i).trans ?_)
      rw [compares_float_int, compares_int_float]
      simp only [eq_comm]
  | float d =>
    cases b with
    | int j => exact decide_eq_true_iff.trans (toInt64?_iff j)
    | float d' => exact Double.eqv_compares_iff

end Value

/-! ## 5. The order of numbers -/

namespace Number

variable {a b c : Number} {S T U : WithBot (WithTop ℚ) → WithBot (WithTop ℚ) → Prop}

def Less (a b : Number) : Prop := Value.less? (.ofNumber a) (.ofNumber b) = some true

def AtMost (a b : Number) : Prop := Value.lessEq? (.ofNumber a) (.ofNumber b) = some true

def Equal (a b : Number) : Prop := Value.rawEqual (.ofNumber a) (.ofNumber b) = true

instance : Decidable (a.Less b) := inferInstanceAs (Decidable (_ = some true))

instance : Decidable (a.AtMost b) := inferInstanceAs (Decidable (_ = some true))

instance : Decidable (a.Equal b) := inferInstanceAs (Decidable (_ = true))

def isNaN : Number → Bool
  | int _ => false
  | float d => d.isNaN

theorem less_iff : a.Less b ↔ a.Compares (· < ·) b := by
  obtain ⟨r, h, hr⟩ := Value.less?_exact a b
  rw [Less, h, Option.some_inj, hr]

theorem atMost_iff : a.AtMost b ↔ a.Compares (· ≤ ·) b := by
  obtain ⟨r, h, hr⟩ := Value.lessEq?_exact a b
  rw [AtMost, h, Option.some_inj, hr]

theorem equal_iff : a.Equal b ↔ a.Compares (· = ·) b := Value.rawEqual_exact a b

theorem exists_extended_iff : (∃ x, a.extended? = some x) ↔ a.isNaN = false := by
  cases a with
  | int i => simp [extended?, isNaN]
  | float d => exact ⟨fun h => h.elim fun _ => Double.isNaN_of_extended, Double.exists_extended⟩

theorem Compares.isNaN (h : a.Compares S b) : a.isNaN = false ∧ b.isNaN = false := by
  obtain ⟨x, y, hx, hy, -⟩ := h
  exact ⟨exists_extended_iff.mp ⟨x, hx⟩, exists_extended_iff.mp ⟨y, hy⟩⟩

theorem Compares.trans (hST : ∀ {x y z}, S x y → T y z → U x z) (hab : a.Compares S b) (hbc : b.Compares T c) :
    a.Compares U c := by
  obtain ⟨x, y, hx, hy, hS⟩ := hab
  obtain ⟨y', z, hy', hz, hT⟩ := hbc
  cases hy.symm.trans hy'
  exact ⟨x, z, hx, hz, hST hS hT⟩

theorem Compares.trichotomy (ha : a.isNaN = false) (hb : b.isNaN = false) :
    (a.Compares (· < ·) b ∧ ¬ a.Compares (· = ·) b ∧ ¬ b.Compares (· < ·) a) ∨
      (¬ a.Compares (· < ·) b ∧ a.Compares (· = ·) b ∧ ¬ b.Compares (· < ·) a) ∨
      (¬ a.Compares (· < ·) b ∧ ¬ a.Compares (· = ·) b ∧ b.Compares (· < ·) a) := by
  obtain ⟨x, hx⟩ := exists_extended_iff.mpr ha
  obtain ⟨y, hy⟩ := exists_extended_iff.mpr hb
  simp only [Compares, hx, hy, Option.some.injEq, exists_and_left, exists_eq_left']
  rcases lt_trichotomy x y with h | h | h
  · exact .inl ⟨h, h.ne, lt_asymm h⟩
  · exact .inr (.inl ⟨h.not_lt, h, h.symm.not_lt⟩)
  · exact .inr (.inr ⟨lt_asymm h, h.ne', h⟩)

theorem Compares.le_iff : a.Compares (· ≤ ·) b ↔ a.Compares (· < ·) b ∨ a.Compares (· = ·) b := by
  simp only [Compares, le_iff_lt_or_eq, and_or_left, exists_or]

theorem equal_iff_normalize :
    a.Equal b ↔ ∃ k, Table.normalize (.ofNumber a) = .ok k ∧ Table.normalize (.ofNumber b) = .ok k := by
  cases ha : Table.normalize (.ofNumber a) with
  | error f =>
    simp only [reduceCtorEq, false_and, exists_false, iff_false]
    intro h
    have hnan := (equal_iff.mp h).isNaN.1
    cases a with
    | int i => cases ha
    | float d => cases (Table.normalize_float hnan).symm.trans ha
  | ok k =>
    cases hb : Table.normalize (.ofNumber b) with
    | error f =>
      have h := Table.rawEqual_error ha hb
      simp [Equal, h]
    | ok l => simp [Equal, Table.rawEqual_iff ha hb, eq_comm]

/-- **Order and equality of numbers are those of their exact values.** Any two numbers are ordered, as their
    positions on the rational line with both ends are, and NaN, which is nowhere on it, is neither before, at
    nor after any number. So on all others the order is linear, whatever the subtypes, and numbers are equal
    if they are one key of a table. -/
theorem comparison_exact (a b c : Number) :
    ((∃ r, Value.less? (.ofNumber a) (.ofNumber b) = some r ∧ (r = true ↔ a.Compares (· < ·) b)) ∧
      (∃ r, Value.lessEq? (.ofNumber a) (.ofNumber b) = some r ∧ (r = true ↔ a.Compares (· ≤ ·) b)) ∧
      (Value.rawEqual (.ofNumber a) (.ofNumber b) = true ↔ a.Compares (· = ·) b)) ∧
    (a.isNaN = true ∨ b.isNaN = true → ¬ a.Less b ∧ ¬ a.AtMost b ∧ ¬ a.Equal b) ∧
    (a.isNaN = false → b.isNaN = false →
      (a.Less b ∧ ¬ a.Equal b ∧ ¬ b.Less a) ∨ (¬ a.Less b ∧ a.Equal b ∧ ¬ b.Less a) ∨
        (¬ a.Less b ∧ ¬ a.Equal b ∧ b.Less a)) ∧
    (a.AtMost b ↔ a.Less b ∨ a.Equal b) ∧
    ((a.Less b → b.Less c → a.Less c) ∧ (a.AtMost b → b.AtMost c → a.AtMost c) ∧ (a.Equal b → b.Equal c → a.Equal c) ∧
      (a.Less b → b.AtMost c → a.Less c) ∧ (a.AtMost b → b.Less c → a.Less c)) ∧
    (a.Equal b ↔ ∃ k, Table.normalize (.ofNumber a) = .ok k ∧ Table.normalize (.ofNumber b) = .ok k) := by
  refine ⟨⟨Value.less?_exact a b, Value.lessEq?_exact a b, Value.rawEqual_exact a b⟩, fun hnan => ?_, fun ha hb => ?_,
    ?_, ?_, equal_iff_normalize⟩
  · have hnot : ∀ {S}, ¬ a.Compares S b := fun h => by
      obtain ⟨ha, hb⟩ := h.isNaN
      rw [ha, hb] at hnan
      simp at hnan
    exact ⟨mt less_iff.mp hnot, mt atMost_iff.mp hnot, mt equal_iff.mp hnot⟩
  · simp only [less_iff, equal_iff]
    exact Compares.trichotomy ha hb
  · rw [less_iff, atMost_iff, equal_iff]
    exact Compares.le_iff
  · simp only [less_iff, atMost_iff, equal_iff]
    exact ⟨Compares.trans lt_trans, Compares.trans le_trans, Compares.trans Eq.trans, Compares.trans lt_of_lt_of_le,
      Compares.trans lt_of_le_of_lt⟩

theorem comparison_exact_maxValue :
    (int Int64.maxValue).Less (float Double.wordsEnd) ∧ (float Double.wordsEnd).Less (float (Double.infinity false)) ∧
      (int Int64.maxValue).Less (float (Double.infinity false)) := by
  have hmax : (int Int64.maxValue).Less (float Double.wordsEnd) := by decide
  have hend : (float Double.wordsEnd).Less (float (Double.infinity false)) := by decide
  obtain ⟨-, -, -, -, ⟨htrans, -⟩, -⟩ :=
    comparison_exact (int Int64.maxValue) (float Double.wordsEnd) (float (Double.infinity false))
  exact ⟨hmax, hend, htrans hmax hend⟩

end Number

end LuaMachine
