/-
  LIMITS OF LOOPS OVER INTEGERS, compared with exact numbers. A limit that is no integer is rounded towards
  the start of the loop and clipped, so that the integers it admits stay the same, but for limits that are
  NaN and for loops whose step is zero.

  * **`Value.loopLimit_admits`** -- what a clipped limit lets through.
-/
import LuaMachine.Proofs.Value.Key
import LuaMachine.Value.Arith
import Mathlib.Data.Rat.Floor
import Mathlib.Order.WithBot

namespace LuaMachine

/-! ## 1. Exact values -/

def Double.extended? (d : Double) : Option (WithBot (WithTop ℚ)) :=
  if d.isFinite then some (((d.signedUnits / Double.unitsPerOne : ℚ) : WithTop ℚ) : WithBot (WithTop ℚ))
  else if d.isNaN then none
  else some (if d.negative then ⊥ else ⊤)

def Number.extended? : Number → Option (WithBot (WithTop ℚ))
  | .int i => some (((i.toInt : ℚ) : WithTop ℚ) : WithBot (WithTop ℚ))
  | .float d => d.extended?

def Number.ofInteger (i : Int64) : WithBot (WithTop ℚ) := (((i.toInt : ℚ) : WithTop ℚ) : WithBot (WithTop ℚ))

def Number.Admits (limit : Number) (step v : Int64) : Prop :=
  ∃ x, limit.extended? = some x ∧ if 0 < step then Number.ofInteger v ≤ x else x ≤ Number.ofInteger v

/-- The integers that are let through although the limit does not admit them. In loops that do not go up,
    NaN lets every integer through; when the step is zero, a limit lets the greatest integer below it through. -/
def Number.Strays (limit : Number) (step v : Int64) : Prop :=
  step ≤ 0 ∧ ∀ x, limit.extended? = some x →
    step = 0 ∧ Number.ofInteger v < x ∧ (x < (((v.toInt + 1 : ℚ) : WithTop ℚ) : WithBot (WithTop ℚ)) ∨ v = Int64.maxValue)

def Value.Passes (limit : Int64 × Bool) (step v : Int64) : Prop :=
  limit.2 = false ∧ if 0 < step then v ≤ limit.1 else limit.1 ≤ v

def Value.clip (rounded : Option Int64) (above : Bool) (step : Int64) : Int64 × Bool :=
  match rounded with
  | some i => (i, false)
  | none => if above then (Int64.maxValue, step < 0) else (Int64.minValue, 0 < step)

namespace Double

theorem unitsPerOne_pos : 0 < unitsPerOne := by decide

/-! ## 2. Rounding -/

variable {d : Double} {c : Int}

theorem le_floor_iff (h : d.floor? = some c) (i : Int) : i ≤ c ↔ (i : ℚ) ≤ d.signedUnits / unitsPerOne := by
  have hpos : (0 : Int) < unitsPerOne := Int.natCast_pos.mpr unitsPerOne_pos
  have hposq : (0 : ℚ) < unitsPerOne := Nat.cast_pos.mpr unitsPerOne_pos
  unfold floor? at h
  split at h
  · cases h
    rw [Int.fdiv_eq_ediv_of_nonneg _ hpos.le, Int.le_ediv_iff_mul_le hpos, le_div_iff₀ hposq]
    exact_mod_cast Iff.rfl
  · cases h

theorem ceil_le_iff (h : d.ceil? = some c) (i : Int) : c ≤ i ↔ (d.signedUnits / unitsPerOne : ℚ) ≤ i := by
  have hpos : (0 : Int) < unitsPerOne := Int.natCast_pos.mpr unitsPerOne_pos
  have hposq : (0 : ℚ) < unitsPerOne := Nat.cast_pos.mpr unitsPerOne_pos
  unfold ceil? at h
  split at h
  · cases h
    rw [Int.fdiv_eq_ediv_of_nonneg _ hpos.le, neg_le, Int.le_ediv_iff_mul_le hpos, div_le_iff₀ hposq,
      Int.neg_mul, Int.neg_le_neg_iff]
    exact_mod_cast Iff.rfl
  · cases h

theorem zero_lt_iff (h : d.isFinite = true) : zero.lt d = true ↔ (0 : ℚ) < d.signedUnits / unitsPerOne := by
  have hposq : (0 : ℚ) < unitsPerOne := Nat.cast_pos.mpr unitsPerOne_pos
  have hnan : d.isNaN = false := by
    simp only [isFinite, decide_eq_true_eq] at h
    simp only [isNaN, decide_eq_false_iff_not]
    omega
  have hlt : zero.lt d = true ↔ 0 < d.rank := by
    have hzero : zero.rank = 0 := by decide
    simp [lt, hnan, hzero, show zero.isNaN = false by decide]
  have hunits : 0 < d.units ↔ 0 < d.magnitude := by
    refine ⟨fun hu => Nat.pos_of_ne_zero fun hm => ?_, fun hm => ?_⟩
    · rw [units_zero hm] at hu
      exact Nat.lt_irrefl 0 hu
    · exact Nat.lt_of_le_of_lt (Nat.zero_le _) (units_lt (a := zero) (b := d) hm)
  rw [hlt, lt_div_iff₀ hposq, zero_mul, Int.cast_pos]
  unfold rank signedUnits
  split <;> omega

theorem floorInt64?_eq (h : d.floor? = some c) :
    d.floorInt64? = if inRange c then some (Int64.ofInt c) else none := by
  unfold floorInt64?
  rw [h]

theorem ceilInt64?_eq (h : d.ceil? = some c) :
    d.ceilInt64? = if inRange c then some (Int64.ofInt c) else none := by
  unfold ceilInt64?
  rw [h]

end Double

namespace Number

variable {d : Double} {step v : Int64} {q : ℚ}

/-! ## 3. What limits admit -/

theorem admits_rational {n : Number} (h : n.extended? = some ((q : WithTop ℚ) : WithBot (WithTop ℚ))) :
    n.Admits step v ↔ if 0 < step then (v.toInt : ℚ) ≤ q else q ≤ v.toInt := by
  simp [Admits, h, ofInteger]

theorem strays_rational {n : Number} (h : n.extended? = some ((q : WithTop ℚ) : WithBot (WithTop ℚ))) :
    n.Strays step v ↔ step = 0 ∧ (v.toInt : ℚ) < q ∧ (q < v.toInt + 1 ∨ v = Int64.maxValue) := by
  simp only [Strays, h, ofInteger, Option.some.injEq, forall_eq', WithBot.coe_lt_coe, WithTop.coe_lt_coe]
  exact ⟨And.right, fun hs => ⟨hs.1 ▸ Int64.le_refl 0, hs⟩⟩

end Number

namespace Value

variable {d : Double} {step v : Int64} {c : Int} {q : ℚ}

/-! ## 4. Clipped limits -/

theorem toInt_maxValue : Int64.maxValue.toInt = 0x7FFFFFFFFFFFFFFF := by decide

theorem toInt_minValue : Int64.minValue.toInt = -0x8000000000000000 := by decide

theorem toInt_ofInt_inRange (h : Double.inRange c = true) : (Int64.ofInt c).toInt = c := by
  simp only [Double.inRange, decide_eq_true_eq] at h
  exact Int64.toInt_ofInt_of_le (by omega) (by omega)

def fitting (c : Int) : Option Int64 := if Double.inRange c then some (Int64.ofInt c) else none

theorem passes_iff {last : Int64} : Passes (last, false) step v ↔
    if 0 < step then v.toInt ≤ last.toInt else last.toInt ≤ v.toInt := by
  simp only [Passes, true_and, Int64.le_iff_toInt_le]

theorem not_passes {last : Int64} {skips : Bool} (h : skips = true) : ¬ Passes (last, skips) step v :=
  fun hp => Bool.noConfusion (h.symm.trans hp.1)

theorem clip_up {above : Bool} (hstep : 0 < step) (hq : ∀ i : Int, i ≤ c ↔ (i : ℚ) ≤ q) (ha : above = true ↔ 0 < q) :
    Passes (clip (fitting c) above step) step v ↔ (v.toInt : ℚ) ≤ q := by
  have hlo := v.le_toInt
  have hhi := v.toInt_lt
  rw [← hq, fitting]
  by_cases hc : Double.inRange c = true
  · rw [if_pos hc, clip, passes_iff, if_pos hstep, toInt_ofInt_inRange hc]
  · rw [if_neg hc, clip]
    simp only [Double.inRange, decide_eq_true_eq] at hc
    by_cases hpos : 0 ≤ c
    · have hq0 : (0 : ℚ) < q := lt_of_lt_of_le one_pos (by exact_mod_cast (hq 1).mp (by omega))
      have hdown : ¬ step < 0 := Int64.not_lt.mpr (Int64.le_of_lt hstep)
      rw [if_pos (ha.mpr hq0), decide_eq_false hdown, passes_iff, if_pos hstep, toInt_maxValue]
      omega
    · have hq0 : ¬ (0 : ℚ) < q := fun h => hpos ((hq 0).mpr (by exact_mod_cast h.le))
      rw [if_neg (mt ha.mp hq0)]
      exact ⟨fun hp => absurd hp (not_passes (decide_eq_true hstep)), fun hle => by omega⟩

theorem clip_down {above : Bool} (hstep : step < 0) (hq : ∀ i : Int, c ≤ i ↔ q ≤ (i : ℚ)) (ha : above = true ↔ 0 < q) :
    Passes (clip (fitting c) above step) step v ↔ q ≤ (v.toInt : ℚ) := by
  have hlo := v.le_toInt
  have hhi := v.toInt_lt
  have hup : ¬ 0 < step := Int64.not_lt.mpr (Int64.le_of_lt hstep)
  rw [← hq, fitting]
  by_cases hc : Double.inRange c = true
  · rw [if_pos hc, clip, passes_iff, if_neg hup, toInt_ofInt_inRange hc]
  · rw [if_neg hc, clip]
    simp only [Double.inRange, decide_eq_true_eq] at hc
    by_cases hpos : c ≤ 0
    · have hq0 : ¬ (0 : ℚ) < q := not_lt.mpr (by exact_mod_cast (hq 0).mp hpos)
      rw [if_neg (mt ha.mp hq0), decide_eq_false hup, passes_iff, if_neg hup, toInt_minValue]
      omega
    · have hq0 : (0 : ℚ) < q := not_le.mp fun h => hpos ((hq 0).mpr (by exact_mod_cast h))
      rw [if_pos (ha.mpr hq0)]
      exact ⟨fun hp => absurd hp (not_passes (decide_eq_true hstep)), fun hle => by omega⟩

theorem clip_still {above : Bool} (hq : ∀ i : Int, i ≤ c ↔ (i : ℚ) ≤ q) (ha : above = true ↔ 0 < q) :
    Passes (clip (fitting c) above 0) 0 v ↔
      q ≤ v.toInt ∨ (v.toInt : ℚ) < q ∧ (q < v.toInt + 1 ∨ v = Int64.maxValue) := by
  have hlo := v.le_toInt
  have hhi := v.toInt_lt
  have hnot : ¬ (0 : Int64) < 0 := Int64.lt_irrefl
  have hnext : c ≤ v.toInt ↔ q < v.toInt + 1 := by
    rw [← not_le, ← Int.cast_one, ← Int.cast_add, ← hq]
    omega
  have hmax : v = Int64.maxValue ↔ v.toInt = 0x7FFFFFFFFFFFFFFF := by
    rw [← Int64.toInt_inj, toInt_maxValue]
  -- below the next integer is at or below this one, or between the two
  have hbetween : q ≤ v.toInt ∨ (v.toInt : ℚ) < q ∧ (q < v.toInt + 1 ∨ v = Int64.maxValue) ↔
      c ≤ v.toInt ∨ v = Int64.maxValue := by
    rw [hnext]
    constructor
    · rintro (h | ⟨-, h⟩)
      · exact .inl (lt_of_le_of_lt h (lt_add_one _))
      · exact h
    · intro h
      rcases le_or_gt q v.toInt with hle | hlt
      · exact .inl hle
      · exact .inr ⟨hlt, h⟩
  rw [hbetween, hmax, fitting]
  by_cases hc : Double.inRange c = true
  · rw [if_pos hc, clip, passes_iff, if_neg hnot, toInt_ofInt_inRange hc]
    simp only [Double.inRange, decide_eq_true_eq] at hc
    omega
  · rw [if_neg hc, clip, decide_eq_false hnot]
    simp only [Double.inRange, decide_eq_true_eq] at hc
    by_cases hpos : 0 ≤ c
    · have hq0 : (0 : ℚ) < q := lt_of_lt_of_le one_pos (by exact_mod_cast (hq 1).mp (by omega))
      rw [if_pos (ha.mpr hq0), passes_iff, if_neg hnot, toInt_maxValue]
      omega
    · have hq0 : ¬ (0 : ℚ) < q := fun h => hpos ((hq 0).mpr (by exact_mod_cast h.le))
      rw [if_neg (mt ha.mp hq0), passes_iff, if_neg hnot, toInt_minValue]
      omega

theorem step_cases (step : Int64) : step < 0 ∨ step = 0 ∨ 0 < step := by
  rw [Int64.lt_iff_toInt_lt, Int64.lt_iff_toInt_lt, ← Int64.toInt_inj]
  exact Int.lt_trichotomy ..

theorem loopLimit_float {limit : Value} (hn : limit.toNumber? = some (.float d)) (step : Int64) :
    limit.loopLimit? step = some (clip (if step < 0 then d.ceilInt64? else d.floorInt64?) (Double.zero.lt d) step) := by
  unfold loopLimit? clip
  rw [hn]
  dsimp only
  cases (if step < 0 then d.ceilInt64? else d.floorInt64?) with
  | some i => rfl
  | none =>
    dsimp only
    split <;> rfl

theorem clip_finite (h : d.isFinite = true) :
    Passes (clip (if step < 0 then d.ceilInt64? else d.floorInt64?) (Double.zero.lt d) step) step v ↔
      (Number.float d).Admits step v ∨ (Number.float d).Strays step v := by
  have hx : (Number.float d).extended? =
      some (((d.signedUnits / Double.unitsPerOne : ℚ) : WithTop ℚ) : WithBot (WithTop ℚ)) := if_pos h
  have hzero : ¬ (0 : Int64) < 0 := Int64.lt_irrefl
  have hfloor : d.floor? = some (d.signedUnits.fdiv Double.unitsPerOne) := if_pos h
  have hceil : d.ceil? = some (-((-d.signedUnits).fdiv Double.unitsPerOne)) := if_pos h
  rw [Number.admits_rational hx, Number.strays_rational hx]
  rcases step_cases step with hneg | rfl | hpos
  · have hup : ¬ 0 < step := Int64.not_lt.mpr (Int64.le_of_lt hneg)
    rw [if_pos hneg, if_neg hup, Double.ceilInt64?_eq hceil,
      or_iff_left fun hs => Int64.ne_of_lt hneg hs.1]
    exact clip_down hneg (Double.ceil_le_iff hceil) (Double.zero_lt_iff h)
  · rw [if_neg hzero, if_neg hzero, Double.floorInt64?_eq hfloor, eq_self, true_and]
    exact clip_still (Double.le_floor_iff hfloor) (Double.zero_lt_iff h)
  · have hdown : ¬ step < 0 := Int64.not_lt.mpr (Int64.le_of_lt hpos)
    rw [if_neg hdown, if_pos hpos, Double.floorInt64?_eq hfloor,
      or_iff_left fun hs => Int64.ne_of_lt hpos hs.1.symm]
    exact clip_up hpos (Double.le_floor_iff hfloor) (Double.zero_lt_iff h)

theorem rounded_none (h : d.isFinite = false) : (if step < 0 then d.ceilInt64? else d.floorInt64?) = none := by
  simp [Double.ceilInt64?, Double.floorInt64?, Double.ceil?, Double.floor?, h]

theorem clip_nan (h : d.isFinite = false) (hnan : d.isNaN = true) :
    Passes (clip (if step < 0 then d.ceilInt64? else d.floorInt64?) (Double.zero.lt d) step) step v ↔
      (Number.float d).Admits step v ∨ (Number.float d).Strays step v := by
  have hlo := v.le_toInt
  have hx : (Number.float d).extended? = none := by simp [Number.extended?, Double.extended?, h, hnan]
  have hlt : Double.zero.lt d = false := by simp [Double.lt, hnan]
  rw [rounded_none h, clip]
  simp only [Number.Admits, Number.Strays, hx, hlt, reduceCtorEq, false_and, exists_false, false_or, forall_const,
    and_true, Bool.false_eq_true, if_false, false_implies]
  by_cases hup : 0 < step
  · exact ⟨fun hp => absurd hp (not_passes (decide_eq_true hup)), fun hle => absurd hup (Int64.not_lt.mpr hle)⟩
  · rw [decide_eq_false hup, passes_iff, if_neg hup, toInt_minValue]
    exact ⟨fun _ => Int64.not_lt.mp hup, fun _ => by omega⟩

theorem clip_infinite (h : d.isFinite = false) (hnan : d.isNaN = false) :
    Passes (clip (if step < 0 then d.ceilInt64? else d.floorInt64?) (Double.zero.lt d) step) step v ↔
      (Number.float d).Admits step v ∨ (Number.float d).Strays step v := by
  have hlo := v.le_toInt
  have hhi := v.toInt_lt
  have hx : (Number.float d).extended? = some (if d.negative then ⊥ else ⊤) := by
    simp [Number.extended?, Double.extended?, h, hnan]
  have hmax : v = Int64.maxValue ↔ v.toInt = 0x7FFFFFFFFFFFFFFF := by
    rw [← Int64.toInt_inj, toInt_maxValue]
  have hpos : 0 < d.magnitude := by
    refine Nat.pos_of_ne_zero fun h0 => ?_
    simp [Double.isFinite, Double.exponentField, h0] at h
  have hlt : Double.zero.lt d = !d.negative := by
    have hzero : Double.zero.rank = 0 := by decide
    have hrank : 0 < d.rank ↔ d.negative = false := by
      unfold Double.rank
      cases d.negative
      · simp [hpos]
      · simp
    cases hs : d.negative <;> simp [Double.lt, hnan, hzero, show Double.zero.isNaN = false by decide, hrank, hs]
  rw [rounded_none h, clip, hlt]
  have hbot : ¬ Number.ofInteger v ≤ ⊥ := by simp [Number.ofInteger]
  have htop : ¬ ⊤ ≤ Number.ofInteger v := by
    unfold Number.ofInteger
    rw [← WithBot.coe_top, WithBot.coe_le_coe]
    simp
  cases hs : d.negative with
  | false =>
    have hadmits : (Number.float d).Admits step v ↔ 0 < step := by
      simp [Number.Admits, hx, hs, htop]
    have hstrays : (Number.float d).Strays step v ↔ step = 0 ∧ v = Int64.maxValue := by
      have hlow : Number.ofInteger v < ⊤ := lt_of_not_ge htop
      simp only [Number.Strays, hx, hs, Bool.false_eq_true, if_false, Option.some.injEq, forall_eq', hlow, not_top_lt,
        false_or, true_and]
      exact ⟨And.right, fun h0 => ⟨h0.1 ▸ Int64.le_refl 0, h0⟩⟩
    rw [hadmits, hstrays, hmax, Bool.not_false, if_pos rfl]
    rcases step_cases step with hneg | rfl | hup
    · have hdown : ¬ 0 < step := Int64.not_lt.mpr (Int64.le_of_lt hneg)
      rw [iff_false_intro (not_passes (decide_eq_true hneg)), iff_false_intro hdown, false_or, false_iff]
      exact fun h0 => Int64.ne_of_lt hneg h0.1
    · have hnot : ¬ (0 : Int64) < 0 := Int64.lt_irrefl
      rw [decide_eq_false hnot, passes_iff, if_neg hnot, toInt_maxValue, iff_false_intro hnot]
      simp only [false_or, true_and]
      omega
    · rw [decide_eq_false (Int64.not_lt.mpr (Int64.le_of_lt hup)), passes_iff, if_pos hup, toInt_maxValue]
      exact ⟨fun _ => .inl hup, fun _ => by omega⟩
  | true =>
    have hadmits : (Number.float d).Admits step v ↔ ¬ 0 < step := by
      simp [Number.Admits, hx, hs, hbot]
    have hstrays : ¬ (Number.float d).Strays step v := by
      simp [Number.Strays, hx, hs]
    rw [hadmits, or_iff_left hstrays, Bool.not_true, if_neg Bool.false_ne_true]
    by_cases hup : 0 < step
    · exact ⟨fun hp => absurd hp (not_passes (decide_eq_true hup)), fun hn => absurd hup hn⟩
    · rw [decide_eq_false hup, passes_iff, if_neg hup, toInt_minValue]
      exact ⟨fun _ => hup, fun _ => by omega⟩

/-- **What a clipped limit lets through**: the integers that the limit admits, compared as exact numbers;
    and those that stray past limits that are NaN, and past limits of loops whose step is zero. -/
theorem loopLimit_admits {limit : Value} {n : Number} (hn : limit.toNumber? = some n) (step v : Int64) :
    ∃ last skips, limit.loopLimit? step = some (last, skips) ∧
      ((skips = false ∧ if 0 < step then v ≤ last else last ≤ v) ↔ n.Admits step v ∨ n.Strays step v) := by
  cases n with
  | int i =>
    refine ⟨i, false, by rw [loopLimit?, hn], ?_⟩
    have hx : (Number.int i).extended? = some (((i.toInt : ℚ) : WithTop ℚ) : WithBot (WithTop ℚ)) := rfl
    rw [Number.admits_rational hx, Number.strays_rational hx, or_iff_left (fun hs => ?_)]
    · simp only [true_and, Int64.le_iff_toInt_le, Int.cast_le]
    · obtain ⟨-, hlt, hnext | rfl⟩ := hs
      · norm_cast at hlt hnext
        omega
      · have := i.toInt_lt
        rw [toInt_maxValue] at hlt
        norm_cast at hlt
        omega
  | float d =>
    refine ⟨_, _, loopLimit_float hn step, ?_⟩
    cases h : d.isFinite with
    | true => exact clip_finite h
    | false =>
      cases hnan : d.isNaN with
      | true => exact clip_nan h hnan
      | false => exact clip_infinite h hnan

theorem loopLimit_admits_nan :
    (Value.float Double.nan).toNumber? = some (.float Double.nan) ∧
      (∃ last skips, (Value.float Double.nan).loopLimit? (-1) = some (last, skips) ∧ skips = false ∧ last ≤ 7) ∧
      ¬ (Number.float Double.nan).Admits (-1) 7 := by
  have hn : (Value.float Double.nan).toNumber? = some (.float Double.nan) := rfl
  have hx : (Number.float Double.nan).extended? = none := by decide
  have hdown : ¬ (0 : Int64) < -1 := by decide
  have hstrays : (Number.float Double.nan).Strays (-1) 7 := by
    refine ⟨by decide, fun x h => ?_⟩
    rw [hx] at h
    cases h
  obtain ⟨last, skips, hlimit, hpasses⟩ := loopLimit_admits hn (-1) 7
  obtain ⟨hskips, hlast⟩ := hpasses.mpr (.inr hstrays)
  rw [if_neg hdown] at hlast
  refine ⟨hn, ⟨last, skips, hlimit, hskips, hlast⟩, ?_⟩
  rintro ⟨x, h, -⟩
  rw [hx] at h
  cases h

end Value

end LuaMachine
