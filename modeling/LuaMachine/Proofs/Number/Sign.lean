/-
  SIGNS OF DOUBLES THAT ARE READ. Products and quotients of doubles without sign have none, so the double
  nearest to an unsigned numeral has none, however near to zero it is.

  * **`Numeral.decimal_unsigned`** -- decimal numerals denote doubles without sign.
-/
import Mathlib
import LuaMachine.Proofs.Number.Numeral

namespace LuaMachine

namespace Double

open Float.Model

def Unsigned : UnpackedFloat → Prop
  | .infinity sign | .zero sign | .finite sign _ _ _ => sign = .positive
  | .notANumber => True

/-! ## 1. Bits -/

theorem packComponents_positive (e : BitVec 11) (m : BitVec 52) :
    (UnpackedFloat.packComponents Format.binary64 .positive e m).toNat < signWeight := by
  have hpack : (UnpackedFloat.packComponents Format.binary64 .positive e m).toNat = e.toNat <<< 52 ||| m.toNat := by
    show (0#1 ++ e ++ m).toNat = _
    rw [BitVec.toNat_append, BitVec.toNat_append]
    simp
  have he : e.toNat <<< 52 < 2 ^ 63 := by
    have := e.isLt
    rw [Nat.shiftLeft_eq]
    omega
  rw [hpack]
  exact Nat.or_lt_two_pow he (m.isLt.trans (by decide))

theorem pack_unsigned {f : UnpackedFloat} (h : Unsigned f) :
    (UnpackedFloat.pack Format.binary64 f).toNat < signWeight := by
  cases f with
  | notANumber => exact packComponents_positive ..
  | infinity sign =>
    cases h
    exact packComponents_positive ..
  | zero sign =>
    cases h
    exact packComponents_positive ..
  | finite sign m e hm =>
    cases h
    simp only [UnpackedFloat.pack]
    split
    · exact packComponents_positive ..
    · split
      · exact packComponents_positive ..
      · exact packComponents_positive ..

theorem unpack_unsigned {b : BitVec 64} (h : b.toNat < signWeight) : Unsigned (UnpackedFloat.unpack Format.binary64 b) := by
  have hsign : @UnpackedFloat.unpackSign Format.binary64 b = 0#1 := by
    refine BitVec.eq_of_toNat_eq ?_
    simp only [UnpackedFloat.unpackSign, BitVec.toNat_cast, BitVec.extractLsb_toNat]
    rw [Nat.shiftRight_eq_div_pow, Nat.div_eq_of_lt (show b.toNat < 2 ^ (52 + 11) from h)]
    rfl
  simp only [UnpackedFloat.unpack, hsign]
  split
  · split
    · rfl
    · trivial
  · split
    · split <;> rfl
    · rfl

/-! ## 2. Arithmetic -/

theorem round_unsigned (m : Nat) (e : Int) (a : UnpackedFloat.Accuracy) :
    Unsigned (UnpackedFloat.roundWithAccuracy Format.binary64 .positive m e a) := by
  simp only [UnpackedFloat.roundWithAccuracy]
  split <;> rfl

variable {f g : UnpackedFloat}

theorem mul_unsigned (hf : Unsigned f) (hg : Unsigned g) : Unsigned (UnpackedFloat.mul Format.binary64 f g) := by
  cases f <;> cases g <;> first | trivial | (cases hf; cases hg; first | rfl | exact round_unsigned ..)

theorem div_unsigned (hf : Unsigned f) (hg : Unsigned g) : Unsigned (UnpackedFloat.div Format.binary64 f g) := by
  cases f <;> cases g <;> first | trivial | (cases hf; cases hg; first | rfl | exact round_unsigned ..)

theorem ofNat_unsigned (n : Nat) : Unsigned (UnpackedFloat.ofNat Format.binary64 n) := by
  simp only [UnpackedFloat.ofNat, UnpackedFloat.ofInt, UnpackedFloat.normalize]
  split
  · next h => rw [Int.compare_eq_lt] at h; omega
  · rfl
  · exact round_unsigned ..

theorem ofScientific_unsigned (m : Nat) (e : Int) : Unsigned (UnpackedFloat.ofScientific Format.binary64 m e) := by
  unfold UnpackedFloat.ofScientific
  split
  · rfl
  · split
    · rfl
    · split
      · rfl
      · split
        · exact mul_unsigned rfl rfl
        · exact div_unsigned rfl rfl

/-! ## 3. Doubles -/

theorem powers_unsigned : ∀ f ∈ Float.exactlyRepresentablePowersOfTen, f.toBits.toNat < signWeight := by
  have hbits : ∀ w : UInt64, w.toNat < signWeight → (Float.ofBits w).toBits.toNat < signWeight := fun w hw =>
    pack_unsigned (unpack_unsigned hw)
  intro f hf
  simp only [Float.exactlyRepresentablePowersOfTen, List.mem_toArray, List.mem_cons, List.not_mem_nil, or_false] at hf
  casesm* _ ∨ _
  all_goals
    subst f
    exact hbits _ (by decide)

theorem float_unsigned (m : Nat) (neg : Bool) (e : Nat) : (Float.ofScientific m neg e).toBits.toNat < signWeight := by
  unfold Float.ofScientific
  split
  · next h =>
    have hlt : e < Float.exactlyRepresentablePowersOfTen.size := by
      simp [Float.exactlyRepresentablePowersOfTen]
      omega
    have hpower := unpack_unsigned (powers_unsigned _ (Array.getElem_mem hlt))
    have hint := unpack_unsigned (pack_unsigned (ofNat_unsigned m.toUInt64.toNat))
    simp only
    split
    · exact pack_unsigned (div_unsigned hint hpower)
    · exact pack_unsigned (mul_unsigned hint hpower)
  · exact pack_unsigned (ofScientific_unsigned ..)

theorem negative_eq_false_iff {d : Double} : d.negative = false ↔ d.bits.toNat < signWeight := by
  simp [negative]

theorem negative_neg (d : Double) : d.neg.negative = !d.negative := by
  have hmagnitude : d.magnitude < signWeight := Nat.mod_lt _ (by decide)
  have hbits : (if !d.negative then signWeight + d.magnitude else d.magnitude) < UInt64.size := by
    unfold signWeight UInt64.size at *
    split <;> omega
  rw [neg, ofSigned, negative]
  simp only [UInt64.toNat_ofNat_of_lt' hbits]
  cases d.negative
  · simp
  · simpa using hmagnitude

end Double

namespace Numeral

/-- **A decimal numeral denotes a double without sign.** -/
theorem decimal_unsigned (m : Nat) (e : Int) : (decimal m e).negative = false := by
  simp only [decimal]
  split
  · rfl
  · split
    · rfl
    · split
      · rfl
      · exact Double.negative_eq_false_iff.mpr (Double.float_unsigned ..)

theorem decimalFloat?_unsigned {s : Bytes} {d : Double} (h : decimalFloat? s = some d) : d.negative = false := by
  simp only [decimalFloat?] at h
  split at h
  · cases h
  · split at h
    · cases h
    · next m cut _ =>
      generalize (decimalParts s).2.2 = rest at h
      cases rest with
      | nil =>
        cases h
        exact decimal_unsigned ..
      | cons b t =>
        obtain ⟨-, hb⟩ := Option.ite_none_right_eq_some.mp h
        obtain ⟨e, -, rfl⟩ := Option.map_eq_some_iff.mp hb
        exact decimal_unsigned ..

theorem float?_negative {neg : Bool} {sign m e : Bytes} {d : Double} (hsign : Sign neg sign) (hm : Mantissa 10 m)
    (he : Exponent 0x65 0x45 e) (h : float? (sign ++ (m ++ e)) = some d) : d.negative = neg := by
  simp only [float?, splitSign_eq hsign (hm.unsigned e), hm.afterHexMark? he] at h
  obtain ⟨v, hv, rfl⟩ := Option.map_eq_some_iff.mp h
  have hplus := decimalFloat?_unsigned hv
  cases neg with
  | false => exact hplus
  | true => simp [Double.negative_neg, hplus]

end Numeral

end LuaMachine
