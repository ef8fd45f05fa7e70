/-
  DIVISION AND SHIFTS OF WORDS. The corrections by sign bits make the quotient the one that is rounded down,
  and shifts are products and quotients by powers of two.

  * **`Number.integer_operators`** -- all of it, for all pairs of words.
-/
import LuaMachine.Proofs.Value.LoopLimit
import Mathlib.Data.Int.ModEq
import Mathlib.Data.Rat.Floor

namespace LuaMachine

namespace Word

variable {a b : Int64}

/-! ## 1. Steps that may trap -/

def quotient? (a b : Int64) : Option Int64 := if b = 0 then none else Value.fitting (a.toInt.tdiv b.toInt)

def remainder? (a b : Int64) : Option Int64 := (quotient? a b).bind fun _ => Value.fitting (a.toInt.tmod b.toInt)

def floorDiv? (a b : Int64) : Option (Except ArithFault Int64) :=
  if b = 0 then some (.error .divByZero)
  else if b = -1 then some (.ok (-a))
  else
    (quotient? a b).bind fun q => (remainder? a b).bind fun r =>
      if r ≠ 0 ∧ a ^^^ b < 0 then (Value.fitting (q.toInt - 1)).map .ok else some (.ok q)

def floorMod? (a b : Int64) : Option (Except ArithFault Int64) :=
  if b = 0 then some (.error .modByZero)
  else if b = -1 then some (.ok 0)
  else
    (remainder? a b).bind fun r =>
      if r ≠ 0 ∧ r ^^^ b < 0 then (Value.fitting (r.toInt + b.toInt)).map .ok else some (.ok r)

/-! ## 2. Signs and ranges -/

theorem floor_div (a : Int) {b : Int} (hb : b ≠ 0) : ⌊(a : ℚ) / b⌋ = a.fdiv b := by
  rcases Int.lt_or_gt_of_ne hb with hneg | hpos
  · have hnat : ((b.natAbs : Int) : ℚ) = -(b : ℚ) := by
      rw [Int.ofNat_natAbs_of_nonpos (Int.le_of_lt hneg), Int.cast_neg]
    have hfloor := Rat.floor_intCast_div_natCast (-a) b.natAbs
    rw [← Int.cast_natCast (R := ℚ), hnat, Int.cast_neg, neg_div_neg_eq] at hfloor
    rw [hfloor, Int.ofNat_natAbs_of_nonpos (Int.le_of_lt hneg), ← Int.fdiv_eq_ediv_of_nonneg _ (by omega),
      Int.neg_fdiv_neg]
  · have hfloor := Rat.floor_intCast_div_natCast a b.natAbs
    rw [← Int.cast_natCast (R := ℚ), Int.natAbs_of_nonneg (Int.le_of_lt hpos)] at hfloor
    rw [hfloor, Int.fdiv_eq_ediv_of_nonneg _ (Int.le_of_lt hpos)]

theorem xor_neg_iff : a ^^^ b < 0 ↔ (a.toInt < 0 ↔ 0 ≤ b.toInt) := by
  have hmsb : (a ^^^ b).toBitVec.msb = (a.toBitVec.msb ^^ b.toBitVec.msb) := by
    rw [Int64.toBitVec_xor, BitVec.msb_xor]
  simp only [BitVec.msb_eq_toInt, Int64.toInt_toBitVec] at hmsb
  rw [Int64.lt_iff_toInt_lt]
  simp only [Int64.toInt_zero]
  grind

theorem toInt_ne_zero (hb : b ≠ 0) : b.toInt ≠ 0 := fun h => hb (Int64.toInt_inj.mp (h.trans Int64.toInt_zero.symm))

theorem toInt_ne_neg_one (hb : b ≠ -1) : b.toInt ≠ -1 := fun h => hb (Int64.toInt_inj.mp h)

/-- The rounded quotient is at most one below the processor's, and is below it where there is a remainder and the
    signs differ. -/
theorem fdiv_cases (x : Int) {y : Int} (hy : y ≠ 0) :
    x.fdiv y = if x.tmod y ≠ 0 ∧ (x < 0 ↔ 0 ≤ y) then x.tdiv y - 1 else x.tdiv y := by
  have h := Int.fdiv_eq_tdiv (a := x) (b := y)
  have hdvd : y ∣ x ↔ x.tmod y = 0 := Int.dvd_iff_tmod_eq_zero
  have hsign : y.sign = if 0 < y then 1 else if y < 0 then -1 else 0 := by
    grind [Int.sign_eq_one_of_pos, Int.sign_eq_neg_one_of_neg]
  grind

theorem fmod_cases (x y : Int) :
    x.fmod y = if x.tmod y ≠ 0 ∧ (x.tmod y < 0 ↔ 0 ≤ y) then x.tmod y + y else x.tmod y := by
  have h := Int.fmod_eq_tmod (a := x) (b := y)
  have hdvd : y ∣ x ↔ x.tmod y = 0 := Int.dvd_iff_tmod_eq_zero
  have hpos : 0 ≤ x → 0 ≤ x.tmod y := Int.tmod_nonneg y
  have hneg : x < 0 → x.tmod y ≤ 0 := fun hx => by
    have := Int.tmod_nonneg (a := -x) y (by omega)
    rw [Int.neg_tmod] at this
    omega
  grind

theorem fmod_bounds (x : Int) {y : Int} (hy : y ≠ 0) :
    0 ≤ x.fmod y ∧ x.fmod y < y ∨ y < x.fmod y ∧ x.fmod y ≤ 0 := by
  rcases Int.lt_or_gt_of_ne hy with hneg | hpos
  · right
    have hlow := Int.fmod_nonneg_of_pos (-x) (b := -y) (by omega)
    have hhigh := Int.fmod_lt_of_pos (-x) (b := -y) (by omega)
    rw [Int.neg_fmod_neg] at hlow hhigh
    omega
  · exact .inl ⟨Int.fmod_nonneg_of_pos x hpos, Int.fmod_lt_of_pos x hpos⟩

/-! ## 3. Division -/

theorem fitting_toInt (i : Int64) : Value.fitting i.toInt = some i := by
  have hlo := i.le_toInt
  have hhi := i.toInt_lt
  rw [Value.fitting, if_pos, Int64.ofInt_toInt]
  simp only [Double.inRange, decide_eq_true_eq]
  omega

theorem fitting_of_range {c : Int} (hlo : -0x8000000000000000 ≤ c) (hhi : c < 0x8000000000000000) :
    Value.fitting c = some (Int64.ofInt c) ∧ (Int64.ofInt c).toInt = c := by
  have hrange : Double.inRange c = true := by
    simp only [Double.inRange, decide_eq_true_eq]
    exact ⟨hlo, hhi⟩
  exact ⟨if_pos hrange, Value.toInt_ofInt_inRange hrange⟩

theorem quotient?_eq (h0 : b ≠ 0) (h1 : b ≠ -1) : quotient? a b = some (a / b) := by
  rw [quotient?, if_neg h0, ← Int64.toInt_div_of_ne_right a b h1, fitting_toInt]

theorem remainder?_eq (h0 : b ≠ 0) (h1 : b ≠ -1) : remainder? a b = some (a % b) := by
  rw [remainder?, quotient?_eq h0 h1, Option.bind_some, ← Int64.toInt_mod, fitting_toInt]

theorem rem_ne_zero : a % b ≠ 0 ↔ a.toInt.tmod b.toInt ≠ 0 := by
  rw [ne_eq, ← Int64.toInt_inj, Int64.toInt_mod, Int64.toInt_zero]

theorem fdiv_range (h0 : b ≠ 0) (h1 : b ≠ -1) :
    -0x8000000000000000 ≤ a.toInt.fdiv b.toInt ∧ a.toInt.fdiv b.toInt < 0x8000000000000000 := by
  have hlo := a.le_toInt
  have hhi := a.toInt_lt
  have hy0 := toInt_ne_zero h0
  have hy1 := toInt_ne_neg_one h1
  generalize a.toInt = x at *
  generalize b.toInt = y at *
  rw [fdiv_cases x hy0]
  by_cases hone : y = 1
  · subst hone
    simp only [Int.tmod_one, Int.tdiv_one, ne_eq, not_true_eq_false, false_and, if_false]
    omega
  · have habs : (x.tdiv y).natAbs ≤ x.natAbs / 2 := by
      rw [Int.natAbs_tdiv]
      exact Nat.div_le_div_left (by omega) (by decide)
    split <;> omega

theorem floorDiv_neg_one (a : Int64) : -a = Int64.ofInt (a.toInt.fdiv (-1)) ∧
    ((-a).toInt = a.toInt.fdiv (-1) ↔ a ≠ Int64.minValue) := by
  have hneg : a.toInt.fdiv (-1) = -a.toInt := by simp [fdiv_cases]
  have hwrap := Int64.toInt_neg a
  have hlo := a.le_toInt
  have hhi := a.toInt_lt
  have hmin : a ≠ Int64.minValue ↔ a.toInt ≠ -0x8000000000000000 := by
    rw [ne_eq, ← Int64.toInt_inj, Value.toInt_minValue]
  rw [hneg, hmin, Int64.ofInt_neg, Int64.ofInt_toInt, hwrap]
  refine ⟨rfl, ?_⟩
  constructor
  · intro h heq
    rw [heq] at h
    revert h
    decide
  · intro h
    exact Int.bmod_eq_of_le (by omega) (by omega)

theorem floorDiv_exact (h0 : b ≠ 0) : ∃ q, floorDiv a b = .ok q ∧ floorDiv? a b = some (.ok q) ∧
    q = Int64.ofInt (a.toInt.fdiv b.toInt) ∧
    (q.toInt = a.toInt.fdiv b.toInt ↔ ¬ (a = Int64.minValue ∧ b = -1)) := by
  by_cases h1 : b = -1
  · subst h1
    obtain ⟨hneg, hwrap⟩ := floorDiv_neg_one a
    exact ⟨-a, rfl, rfl, hneg, by simpa using hwrap⟩
  · have hy0 := toInt_ne_zero h0
    have hdiv := Int64.toInt_div_of_ne_right a b h1
    obtain ⟨hlo, hhi⟩ := fdiv_range (a := a) h0 h1
    obtain ⟨hfit, hword⟩ := fitting_of_range hlo hhi
    have hq : Int64.ofInt (a.toInt.fdiv b.toInt) = if a % b ≠ 0 ∧ a ^^^ b < 0 then a / b - 1 else a / b := by
      rw [fdiv_cases _ hy0]
      simp only [rem_ne_zero, xor_neg_iff]
      split
      · rw [Int64.ofInt_sub, ← hdiv, Int64.ofInt_toInt]
        rfl
      · rw [← hdiv, Int64.ofInt_toInt]
    refine ⟨Int64.ofInt (a.toInt.fdiv b.toInt), ?_, ?_, rfl, ?_⟩
    · rw [floorDiv, if_neg h0, if_neg h1, hq]
    · rw [floorDiv?, if_neg h0, if_neg h1, quotient?_eq h0 h1, Option.bind_some, remainder?_eq h0 h1, Option.bind_some]
      rw [fdiv_cases _ hy0] at hfit ⊢
      simp only [rem_ne_zero, xor_neg_iff]
      split
      · next hdown =>
        rw [if_pos hdown] at hfit
        rw [hdiv, hfit]
        rfl
      · rw [← hdiv, Int64.ofInt_toInt]
    · simp [hword, h1]

/-- The remainder goes with the quotient rounded down and has the sign of the divisor; no step traps or leaves the
    words. -/
theorem floorMod_exact (h0 : b ≠ 0) : ∃ r, floorMod a b = .ok r ∧ floorMod? a b = some (.ok r) ∧
    r.toInt = a.toInt - b.toInt * a.toInt.fdiv b.toInt ∧ (0 ≤ r ∧ r < b ∨ b < r ∧ r ≤ 0) := by
  have hbounds := fmod_bounds a.toInt (toInt_ne_zero h0)
  have hword : ∀ r : Int64, r.toInt = a.toInt.fmod b.toInt →
      r.toInt = a.toInt - b.toInt * a.toInt.fdiv b.toInt ∧ (0 ≤ r ∧ r < b ∨ b < r ∧ r ≤ 0) := by
    intro r hr
    refine ⟨by rw [hr, Int.fmod_def], ?_⟩
    simpa only [Int64.le_iff_toInt_le, Int64.lt_iff_toInt_lt, Int64.toInt_zero, hr] using hbounds
  by_cases h1 : b = -1
  · subst h1
    exact ⟨0, rfl, rfl, hword 0 (by simp [fmod_cases])⟩
  · have hlo := b.le_toInt
    have hhi := b.toInt_lt
    have hmod := Int64.toInt_mod a b
    obtain ⟨hfit, htoInt⟩ := fitting_of_range (c := a.toInt.fmod b.toInt) (by omega) (by omega)
    have hr : Int64.ofInt (a.toInt.fmod b.toInt) = if a % b ≠ 0 ∧ a % b ^^^ b < 0 then a % b + b else a % b := by
      rw [fmod_cases]
      simp only [rem_ne_zero, xor_neg_iff, hmod]
      split
      · rw [Int64.ofInt_add, ← hmod, Int64.ofInt_toInt, Int64.ofInt_toInt]
      · rw [← hmod, Int64.ofInt_toInt]
    refine ⟨Int64.ofInt (a.toInt.fmod b.toInt), ?_, ?_, hword _ htoInt⟩
    · rw [floorMod, if_neg h0, if_neg h1, hr]
    · rw [floorMod?, if_neg h0, if_neg h1, remainder?_eq h0 h1, Option.bind_some]
      rw [fmod_cases] at hfit ⊢
      simp only [rem_ne_zero, xor_neg_iff, hmod]
      split
      · next hup =>
        rw [if_pos hup] at hfit
        rw [hfit]
        rfl
      · rw [← hmod, Int64.ofInt_toInt]

theorem floorDiv_error_iff {f : ArithFault} : floorDiv a b = .error f ↔ b = 0 ∧ f = .divByZero := by
  by_cases h0 : b = 0
  · rw [floorDiv, if_pos h0]
    grind
  · obtain ⟨q, hq, -⟩ := floorDiv_exact (a := a) h0
    simp [hq, h0]

theorem floorMod_error_iff {f : ArithFault} : floorMod a b = .error f ↔ b = 0 ∧ f = .modByZero := by
  by_cases h0 : b = 0
  · rw [floorMod, if_pos h0]
    grind
  · obtain ⟨r, hr, -⟩ := floorMod_exact (a := a) h0
    simp [hr, h0]

/-! ## 4. Shifts -/

theorem toInt_eq_bmod (x : Int64) : x.toInt = (x.toUInt64.toNat : Int).bmod (2 ^ 64) := BitVec.toInt_eq_toNat_bmod _

theorem toNat_places {n : Int64} (hlo : 0 ≤ n.toInt) (hhi : n.toInt < 64) : n.toUInt64.toNat = n.toInt.toNat := by
  have hcond := BitVec.toInt_eq_toNat_cond n.toBitVec
  have hbits : n.toBitVec.toNat < 2 ^ 64 := n.toBitVec.isLt
  rw [Int64.toInt_toBitVec] at hcond
  show n.toBitVec.toNat = n.toInt.toNat
  split at hcond <;> omega

theorem not_far {n : Int64} (hlo : -64 < n.toInt) (hhi : n.toInt < 64) : ¬ (n ≤ -64 ∨ 64 ≤ n) := by
  simp only [Int64.le_iff_toInt_le, show (-64 : Int64).toInt = -64 from rfl, show (64 : Int64).toInt = 64 from rfl]
  omega

theorem shift_left (x : Int64) {n : Int64} (hlo : 0 ≤ n.toInt) (hhi : n.toInt < 64) :
    (shift x n).toInt ≡ x.toInt * 2 ^ n.toInt.toNat [ZMOD 2 ^ 64] := by
  have hn := toNat_places hlo hhi
  have hnat : (x.toUInt64 <<< n.toUInt64).toNat = x.toUInt64.toNat * 2 ^ n.toInt.toNat % 2 ^ 64 := by
    rw [UInt64.toNat_shiftLeft, hn, Nat.mod_eq_of_lt (show n.toInt.toNat < 64 by omega), Nat.shiftLeft_eq]
  have hshift : shift x n = (x.toUInt64 <<< n.toUInt64).toInt64 := by
    rw [shift, if_neg (not_far (by omega) hhi), if_pos (Int64.le_iff_toInt_le.mpr (by simpa using hlo))]
  have hbmod : ∀ i : Int, i.bmod (2 ^ 64) ≡ i [ZMOD 2 ^ 64] := fun i => Int.bmod_emod
  have hcast : (((x.toUInt64.toNat * 2 ^ n.toInt.toNat % 2 ^ 64 : Nat) : Int)) =
      (x.toUInt64.toNat : Int) * 2 ^ n.toInt.toNat % 2 ^ 64 := by norm_cast
  calc (shift x n).toInt
      = ((x.toUInt64 <<< n.toUInt64).toNat : Int).bmod (2 ^ 64) := by rw [hshift, toInt_eq_bmod]; rfl
    _ ≡ (x.toUInt64.toNat : Int) * 2 ^ n.toInt.toNat % 2 ^ 64 [ZMOD 2 ^ 64] := by rw [hnat, hcast]; exact hbmod _
    _ ≡ (x.toUInt64.toNat : Int) * 2 ^ n.toInt.toNat [ZMOD 2 ^ 64] := Int.mod_modEq _ _
    _ ≡ x.toInt * 2 ^ n.toInt.toNat [ZMOD 2 ^ 64] := by
      rw [toInt_eq_bmod x]
      exact (hbmod _).symm.mul_right _

/-- Shifted right by fewer places than a word has: the quotient of the unsigned word by a power of two, rounded
    down. -/
theorem shift_right (x : Int64) {n : Int64} (hlo : 0 ≤ n.toInt) (hhi : n.toInt < 64) :
    ((shift x (-n)).toUInt64.toNat : Int) = ⌊(x.toUInt64.toNat / 2 ^ n.toInt.toNat : ℚ)⌋ := by
  have hn := toNat_places hlo hhi
  have hneg : (-n).toInt = -n.toInt := by
    rw [Int64.toInt_neg]
    exact Int.bmod_eq_of_le (by omega) (by omega)
  have hshift : (shift x (-n)).toUInt64 = x.toUInt64 >>> n.toUInt64 := by
    rw [shift, if_neg (not_far (by omega) (by omega))]
    by_cases hzero : n = 0
    · subst hzero
      have hnone : x.toUInt64 <<< (0 : UInt64) = x.toUInt64 >>> (0 : UInt64) := by
        rw [← UInt64.toNat_inj, UInt64.toNat_shiftLeft, UInt64.toNat_shiftRight]
        exact Nat.mod_eq_of_lt x.toUInt64.toNat_lt
      exact hnone
    · have hpos := toInt_ne_zero hzero
      rw [if_neg, Int64.neg_neg]
      · rfl
      · rw [Int64.le_iff_toInt_le, hneg, Int64.toInt_zero]
        omega
  have hfloor := Rat.floor_natCast_div_natCast x.toUInt64.toNat (2 ^ n.toInt.toNat)
  rw [Nat.cast_pow, Nat.cast_ofNat] at hfloor
  rw [hfloor, hshift, UInt64.toNat_shiftRight, hn, Nat.mod_eq_of_lt (show n.toInt.toNat < 64 by omega),
    Nat.shiftRight_eq_div_pow]
  norm_cast

theorem shift_far (x : Int64) {n : Int64} (h : 64 ≤ |n.toInt|) : shift x n = 0 ∧ shift x (-n) = 0 := by
  have hfar : ∀ m : Int64, 64 ≤ |m.toInt| → shift x m = 0 := fun m hm => by
    refine if_pos ?_
    simp only [Int64.le_iff_toInt_le, show (-64 : Int64).toInt = -64 from rfl, show (64 : Int64).toInt = 64 from rfl]
    rcases abs_cases m.toInt with ⟨habs, -⟩ | ⟨habs, -⟩ <;> omega
  refine ⟨hfar n h, hfar (-n) ?_⟩
  rw [Int64.toInt_neg]
  by_cases hmin : n.toInt = -0x8000000000000000
  · rw [hmin]
    decide
  · have hlo := n.le_toInt
    have hhi := n.toInt_lt
    rw [Int.bmod_eq_of_le (by omega) (by omega), abs_neg]
    exact h

end Word

/-- **Integer operators are what they are in mathematics.** For a divisor that is not zero the quotient is rounded
    down and wraps for the least word by -1 alone, its remainder lies between zero and the divisor, and none of the
    steps traps or leaves the words; zero is refused. A shift is the product by a power of two, or the unsigned
    quotient by it, and leaves nothing from 64 places on; a shift to the right is the one to the left by the negated
    count, the least word included. -/
theorem Number.integer_operators (a b : Int64) :
    (b ≠ 0 → ∃ q r, Word.floorDiv a b = .ok q ∧ Word.floorMod a b = .ok r ∧
      q = Int64.ofInt ⌊(a.toInt / b.toInt : ℚ)⌋ ∧
      (q.toInt = ⌊(a.toInt / b.toInt : ℚ)⌋ ↔ ¬ (a = Int64.minValue ∧ b = -1)) ∧
      r.toInt = a.toInt - b.toInt * ⌊(a.toInt / b.toInt : ℚ)⌋ ∧ (0 ≤ r ∧ r < b ∨ b < r ∧ r ≤ 0) ∧
      Word.floorDiv? a b = some (.ok q) ∧ Word.floorMod? a b = some (.ok r)) ∧
    (∀ f, Word.floorDiv a b = .error f ↔ b = 0 ∧ f = .divByZero) ∧
    (∀ f, Word.floorMod a b = .error f ↔ b = 0 ∧ f = .modByZero) ∧
    (∃ l r, Number.apply .shl (.int a) (.int b) = .ok (.int l) ∧ Number.apply .shr (.int a) (.int b) = .ok (.int r) ∧
      (0 ≤ b.toInt → b.toInt < 64 → l.toInt ≡ a.toInt * 2 ^ b.toInt.toNat [ZMOD 2 ^ 64] ∧
        (r.toUInt64.toNat : Int) = ⌊(a.toUInt64.toNat / 2 ^ b.toInt.toNat : ℚ)⌋) ∧
      (64 ≤ |b.toInt| → l = 0 ∧ r = 0)) ∧
    Number.apply .shl (.int a) (.int b) = Number.apply .shr (.int a) (.int (-b)) := by
  refine ⟨?_, fun f => Word.floorDiv_error_iff, fun f => Word.floorMod_error_iff, ?_, ?_⟩
  · intro h0
    obtain ⟨q, hq, hsafe, hword, hwrap⟩ := Word.floorDiv_exact (a := a) h0
    obtain ⟨r, hr, hsafe', hrest, hsign⟩ := Word.floorMod_exact (a := a) h0
    rw [Word.floor_div _ (Word.toInt_ne_zero h0)]
    exact ⟨q, r, hq, hr, hword, hwrap, hrest, hsign, hsafe, hsafe'⟩
  · refine ⟨Word.shift a b, Word.shift a (-b), rfl, rfl, ?_, Word.shift_far a⟩
    intro hlo hhi
    exact ⟨Word.shift_left a hlo hhi, Word.shift_right a hlo hhi⟩
  · show Except.ok (Number.int (Word.shift a b)) = .ok (.int (Word.shift a (- -b)))
    rw [Int64.neg_neg]

theorem Number.integer_operators_minValue :
    Word.floorDiv Int64.minValue (-1) = .ok Int64.minValue ∧ Word.floorMod Int64.minValue (-1) = .ok 0 ∧
      Number.apply .shr (.int (-1)) (.int Int64.minValue) = .ok (.int 0) := by
  obtain ⟨hdivision, -⟩ := Number.integer_operators Int64.minValue (-1)
  obtain ⟨q, r, hq, hr, -, -, -, -, hsafe, hsafe'⟩ := hdivision (by decide)
  obtain ⟨-, -, -, ⟨l, s, -, hs, -, hfar⟩, -⟩ := Number.integer_operators (-1) Int64.minValue
  obtain ⟨-, rfl⟩ := hfar (by decide)
  cases hsafe
  cases hsafe'
  exact ⟨hq, hr, hs⟩

end LuaMachine
