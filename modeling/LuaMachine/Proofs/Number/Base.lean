/-
  THE TWO READERS OF INTEGERS. Digits in a given base and decimal numerals are read alike, but for one
  blank: the vertical tab is blank around numerals and not around digits in a given base.

  * **`Numeral.readers_agree`** -- both readers, and numbers written in a base.
-/
import LuaMachine.Proofs.Number.Numeral
import LuaMachine.Proofs.Value.LoopLimit

namespace LuaMachine

namespace Numeral

variable {base : Nat} {s t : Bytes} {n : Int64} {neg : Bool}

/-! ## 1. Digits in a base -/

def verticalTab : UInt8 := 0x0B

structure Based (base : Nat) (n : Int64) (neg : Bool) (s : Bytes) : Prop where
  digits : IsDigits base s
  ne_nil : s ≠ []
  denotes : n = if neg then -Int64.ofNat (value base s) else Int64.ofNat (value base s)

theorem isBaseSpace_iff {b : UInt8} : isBaseSpace b = true ↔ blanks.contains b = true ∧ b ≠ verticalTab := by
  rw [isBaseSpace, isSpace_eq, Bool.and_eq_true, bne_iff_ne]
  rfl

theorem Based.not_isSpace {sign : Bytes} (h : Based base n neg s) (hsign : Sign neg sign) :
    ∀ b ∈ sign ++ s, isSpace b = false := fun b hb => by
  rcases List.mem_append.mp hb with hb | hb
  · rcases hsign.mem hb with rfl | rfl <;> rfl
  · exact isSpace_of_digit (h.digits b hb)

theorem within_iff {p : UInt8 → Bool} (ht : ∀ b ∈ t, p b = false) : Within p t s ↔ trimBy p s = t :=
  ⟨fun h => trimBy_eq h ht, fun h => h ▸ within_trimBy p s⟩

/-- **What is read in a given base**: signed digits within blanks other than the vertical tab. -/
theorem readBase?_eq_some_iff : readBase? s base = some n ↔
    ∃ neg sign body, Sign neg sign ∧ Based base n neg body ∧ Within isBaseSpace (sign ++ body) s := by
  constructor
  · intro h
    obtain ⟨sign, hsign, hs⟩ := splitSign_cut (trimBy isBaseSpace s)
    simp only [readBase?] at h
    obtain ⟨hne, hword⟩ := Option.ite_none_left_eq_some.mp h
    obtain ⟨w, hw, hn⟩ := Option.map_eq_some_iff.mp hword
    have hdigits := isDigits_of_foldDigits? hw
    rw [wordValue?_eq hdigits] at hw
    cases hw
    refine ⟨_, sign, _, hsign, ⟨hdigits, by simpa using hne, hn.symm⟩, ?_⟩
    rw [← hs]
    exact within_trimBy isBaseSpace s
  · rintro ⟨neg, sign, body, hsign, hbody, hwithin⟩
    have hnot : ∀ b ∈ sign ++ body, isBaseSpace b = false := fun b hb => by
      rw [isBaseSpace, hbody.not_isSpace hsign b hb]
      rfl
    simp only [readBase?, (within_iff hnot).mp hwithin, splitSign_eq hsign hbody.digits.unsigned]
    rw [if_neg (by simpa using hbody.ne_nil), wordValue?_eq hbody.digits, hbody.denotes]
    rfl

theorem not_mem_of_readBase? (h : readBase? s base = some n) : verticalTab ∉ s := by
  obtain ⟨neg, sign, body, hsign, hbody, before, behind, rfl, hbefore, hbehind⟩ := readBase?_eq_some_iff.mp h
  intro hmem
  rcases List.mem_append.mp hmem with hmem | hmem
  · rcases List.mem_append.mp hmem with hmem | hmem
    · exact (isBaseSpace_iff.mp (hbefore _ hmem)).2 rfl
    · have := hbody.not_isSpace hsign _ hmem
      cases this
  · exact (isBaseSpace_iff.mp (hbehind _ hmem)).2 rfl

/-- **Signed digits within blanks are read in their base, unless there is a vertical tab.** -/
theorem readBase?_spelled (h : Spells s (Based base n)) :
    readBase? s base = if verticalTab ∈ s then none else some n := by
  split
  · next htab => exact Option.eq_none_iff_forall_ne_some.mpr fun m hm => not_mem_of_readBase? hm htab
  · next htab =>
    obtain ⟨neg, sign, body, hsign, hbody, before, behind, rfl, hbefore, hbehind⟩ := h
    refine readBase?_eq_some_iff.mpr ⟨neg, sign, body, hsign, hbody, before, behind, rfl, fun b hb => ?_, fun b hb => ?_⟩
    · refine isBaseSpace_iff.mpr ⟨hbefore b hb, ?_⟩
      rintro rfl
      exact htab (by simp [hb])
    · refine isBaseSpace_iff.mpr ⟨hbehind b hb, ?_⟩
      rintro rfl
      exact htab (by simp [hb])

/-! ## 2. Numerals and numbers in a base -/

theorem signed_natAbs (n : Int64) :
    n = if n.toInt < 0 then -Int64.ofNat n.toInt.natAbs else Int64.ofNat n.toInt.natAbs := by
  have h := signed_ofInt (decide (n.toInt < 0)) n.toInt.natAbs
  rw [signed_eq] at h
  by_cases hneg : n.toInt < 0
  · simp only [hneg, decide_true, if_true] at h ⊢
    rw [h, show -(n.toInt.natAbs : Int) = n.toInt by omega, Int64.ofInt_toInt]
  · simp only [hneg, decide_false, Bool.false_eq_true, if_false] at h ⊢
    rw [h, show (n.toInt.natAbs : Int) = n.toInt by omega, Int64.ofInt_toInt]

theorem spells_based (h : read? s = some (.int n)) (hx : 0x78 ∉ s) (hX : 0x58 ∉ s) : Spells s (Based 10 n) := by
  obtain ⟨neg, sign, body, hsign, hbody, hwithin⟩ := read?_int_iff.mp h
  refine ⟨neg, sign, body, hsign, ?_, hwithin⟩
  cases hbody with
  | hex hmark =>
    obtain ⟨before, behind, rfl, -⟩ := hwithin
    cases hmark
    · simp at hx
    · simp at hX
  | decimal hdigits hne hn =>
    refine ⟨hdigits, hne, ?_⟩
    rw [← signed_eq, signed_ofInt, ← hn, Int64.ofInt_toInt]

theorem based_written {digits : Bytes} (h2 : 2 ≤ base) (h36 : base ≤ 36)
    (h : digits.map lower = written base n.toInt.natAbs) : Based base n (decide (n.toInt < 0)) digits := by
  obtain ⟨hne, hdigits, hvalue⟩ := reads_written h2 h36 h
  refine ⟨hdigits, hne, ?_⟩
  rw [hvalue]
  simpa only [decide_eq_true_eq] using signed_natAbs n

theorem sign_of_decide (c : Prop) [Decidable c] : Sign (decide c) (if c then [0x2D] else []) := by
  by_cases h : c
  · rw [decide_eq_true h, if_pos h]
    exact .minus
  · rw [decide_eq_false h, if_neg h]
    exact .none

/-- **Both readers, and numbers written in a base.** An integer that is read from a numeral without an `x` is read
    alike in base ten; what is read in base ten, if its digits denote an integer, is read alike as a numeral; and
    an integer written in a base is read back in it. In a given base there is one exception: nothing is read where
    there is a vertical tab, which is a blank around numerals. -/
theorem readers_agree (s : Bytes) :
    (∀ n, read? s = some (.int n) → 0x78 ∉ s → 0x58 ∉ s →
      readBase? s 10 = if verticalTab ∈ s then none else some n) ∧
    (∀ n, readBase? s 10 = some n →
      (Spells s fun neg body => IsDigits 10 body ∧ body ≠ [] ∧
        Double.inRange (if neg then -(value 10 body : Int) else value 10 body) = true) →
      read? s = some (.int n)) ∧
    ∀ base (n : Int64) digits before behind, 2 ≤ base → base ≤ 36 → digits.map lower = written base n.toInt.natAbs →
      (∀ b ∈ before, b ∈ blanks) → (∀ b ∈ behind, b ∈ blanks) →
      readBase? (before ++ ((if n.toInt < 0 then [0x2D] else []) ++ digits) ++ behind) base =
        if verticalTab ∈ before ++ behind then none else some n := by
  refine ⟨fun n h hx hX => readBase?_spelled (spells_based h hx hX), fun n h hspells => ?_,
    fun base n digits before behind h2 h36 h hbefore hbehind => ?_⟩
  · obtain ⟨neg, sign, body, hsign, ⟨hdigits, hne, hrange⟩, hwithin⟩ := hspells
    have hvalue := Value.toInt_ofInt_inRange hrange
    generalize Int64.ofInt _ = m at hvalue
    have hread : read? s = some (.int m) :=
      read?_int_iff.mpr ⟨neg, sign, body, hsign, .decimal hdigits hne hvalue, hwithin⟩
    have hbased : Based 10 m neg body :=
      ⟨hdigits, hne, by rw [← signed_eq, signed_ofInt, ← hvalue, Int64.ofInt_toInt]⟩
    have hbase := readBase?_spelled ⟨neg, sign, body, hsign, hbased, hwithin⟩
    rw [if_neg (not_mem_of_readBase? h), h] at hbase
    rw [hread, Option.some.inj hbase]
  · have hsign := sign_of_decide (n.toInt < 0)
    have hbased := based_written h2 h36 h
    rw [readBase?_spelled ⟨_, _, _, hsign, hbased, before, behind, rfl, by simpa using hbefore, by simpa using hbehind⟩]
    have htab : verticalTab ∉ (if n.toInt < 0 then [0x2D] else []) ++ digits := fun hmem => by
      have := hbased.not_isSpace hsign _ hmem
      cases this
    refine if_congr ?_ rfl rfl
    simp only [List.mem_append] at htab ⊢
    tauto

theorem readers_agree_tab :
    readBase? ([0x0A] ++ ([0x2D] ++ [0x5A, 0x5A]) ++ []) 36 = some (-1295) ∧
      readBase? ([0x0B] ++ ([0x2D] ++ [0x5A, 0x5A]) ++ []) 36 = none := by
  obtain ⟨-, -, hwritten⟩ := readers_agree []
  have hdigits : [(0x5A : UInt8), 0x5A].map lower = written 36 (-1295 : Int64).toInt.natAbs := by decide
  exact ⟨hwritten 36 (-1295) [0x5A, 0x5A] [0x0A] [] (by decide) (by decide) hdigits (by simp [blanks]) (by simp),
    hwritten 36 (-1295) [0x5A, 0x5A] [0x0B] [] (by decide) (by decide) hdigits (by simp [blanks]) (by simp)⟩

end Numeral

end LuaMachine
