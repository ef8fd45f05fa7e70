/-
  TOKENS BY THEMSELVES. Readers look at bytes behind what they take, but never more depends on them than
  where a token ends: cut off there, a token is read as the same token.

  * **`Cursor.scanHere_alone`** -- the bytes of a token, scanned by themselves.
-/
import LuaMachine.Proofs.Lexer.Passage

namespace LuaMachine

namespace Scan

variable {p t : Bytes} {e e' : Extent} {b : UInt8}

/-! ## 1. Line breaks and blanks -/

theorem breakLength_alone (h : breakLength (b :: (p ++ t)) ≤ 1 + p.length) :
    breakLength (b :: p) = breakLength (b :: (p ++ t)) := by
  cases p with
  | nil =>
    cases t with
    | nil => rfl
    | cons c t =>
      simp only [List.nil_append, List.length_nil, breakLength] at h ⊢
      split <;> grind
  | cons c p => rfl

theorem whiteExtent_blank (hb : ¬ isBreak b = true) (hw : isBlank b = true) (s : Bytes) :
    whiteExtent (b :: s) = (whiteExtent s).more 1 := by
  cases s <;> simp [whiteExtent, hb, hw]

theorem whiteExtent_other (hb : ¬ isBreak b = true) (hw : ¬ isBlank b = true) (s : Bytes) :
    whiteExtent (b :: s) = Extent.none := by
  cases s <;> simp [whiteExtent, hb, hw]

theorem whiteExtent_zero (h : (whiteExtent t).bytes = 0) : whiteExtent t = Extent.none := by
  fun_induction whiteExtent t with
  | case1 => rfl
  | case2 => cases h
  | case3 => cases h
  | case4 => cases h
  | case5 => cases h
  | case6 => rfl

theorem whiteExtent_alone (h : (whiteExtent (p ++ t)).bytes ≤ p.length) : whiteExtent p = whiteExtent (p ++ t) := by
  fun_induction whiteExtent p with
  | case1 => exact (whiteExtent_zero (Nat.le_zero.mp h)).symm
  | case2 b hb c rest hc e ih =>
    simp only [List.cons_append, whiteExtent, hb, hc, if_true, List.length_cons] at h ⊢
    rw [← ih (by omega)]
  | case3 b hb c rest hc e ih =>
    rw [List.cons_append, List.cons_append, whiteExtent, if_pos hb] at h ⊢
    simp only [hc, if_false, Bool.false_eq_true, List.length_cons] at h ⊢
    rw [List.cons_append, List.length_cons] at ih
    rw [← ih (by omega)]
  | case4 b hb =>
    cases t with
    | nil => simp [whiteExtent, hb]
    | cons c t =>
      rw [List.singleton_append, whiteExtent, if_pos hb] at h ⊢
      by_cases hc : (isBreak c && c != b) = true
      · simp only [hc, if_true, List.length_singleton] at h
        omega
      · simp only [hc, if_false, Bool.false_eq_true, List.length_singleton] at h ⊢
        rw [whiteExtent_zero (by omega)]
        rfl
  | case5 b rest hb hw ih =>
    rw [List.cons_append, whiteExtent_blank hb hw] at h ⊢
    rw [← ih (Nat.le_of_succ_le_succ h)]
  | case6 b rest hb hw => rw [List.cons_append, whiteExtent_other hb hw]

/-! ## 2. Long brackets -/

theorem closes_alone {n : Nat} (h : closes n (p ++ t) = true) (hlen : n < p.length) : closes n p = true := by
  induction n generalizing p with
  | zero =>
    cases p with
    | nil => cases hlen
    | cons b p => exact h
  | succ n ih =>
    cases p with
    | nil => cases hlen
    | cons b p =>
      rw [List.cons_append, closes, Bool.and_eq_true] at h
      rw [closes, h.1, ih h.2 (Nat.lt_of_succ_lt_succ hlen)]
      rfl

theorem closes_append {n : Nat} (h : closes n p = true) (t : Bytes) : closes n (p ++ t) = true := by
  induction n generalizing p with
  | zero =>
    cases p with
    | nil => cases h
    | cons b p => exact h
  | succ n ih =>
    cases p with
    | nil => cases h
    | cons b p =>
      rw [closes, Bool.and_eq_true] at h
      rw [List.cons_append, closes, h.1, ih h.2]
      rfl

theorem longLevel?_signs (n : Nat) (rest : Bytes) : longLevel? (List.replicate n 0x3D ++ 0x5B :: rest) = some n := by
  have hsigns : (List.replicate n 0x3D ++ 0x5B :: rest).takeWhile (· == 0x3D) = List.replicate n 0x3D := by
    rw [List.takeWhile_append_of_pos (by simp)]
    simp
  simp only [longLevel?, hsigns]
  simp

theorem longLevel?_alone {n : Nat} (h : longLevel? (p ++ t) = some n) (hlen : n < p.length) : longLevel? p = some n := by
  obtain ⟨rest, hrest⟩ := longLevel?_eq h
  rcases List.append_eq_append_iff.mp hrest with ⟨q, hq, -⟩ | ⟨q, rfl, hq⟩
  · have := congrArg List.length hq
    simp only [List.length_append, List.length_replicate] at this
    omega
  · cases q with
    | nil => simp at hlen
    | cons c q =>
      cases hq
      exact longLevel?_signs n q

section Body

variable {level : Nat} {s acc : Bytes}

theorem longBody_close (h : (b == 0x5D && closes level s) = true) :
    longBody level (b :: s) acc e = (true, acc.reverse, e.more (level + 2)) := by
  cases s <;> simp [longBody, h]

theorem longBody_other (h : ¬ (b == 0x5D && closes level s) = true) (hb : ¬ isBreak b = true) :
    longBody level (b :: s) acc e = longBody level s (b :: acc) (e.more 1) := by
  cases s <;> simp [longBody, h, hb]

end Body

theorem longBody_alone {level : Nat} {acc text : Bytes} (h : longBody level (p ++ t) acc e = (true, text, e'))
    (hlen : e'.bytes ≤ e.bytes + p.length) : longBody level p acc e = (true, text, e') := by
  fun_induction longBody level p acc e with
  | case1 acc e =>
    obtain ⟨f, _, rfl, hpos, -⟩ := longBody_passes h
    simp only [Extent.append, List.length_nil] at hlen
    omega
  | case2 b rest acc e hclose =>
    have hclose' : (b == 0x5D && closes level (rest ++ t)) = true := by
      rw [Bool.and_eq_true] at hclose ⊢
      exact ⟨hclose.1, closes_append hclose.2 t⟩
    rw [List.cons_append, longBody_close hclose'] at h
    exact h
  | case3 b acc e hb c rest hc hopen ih =>
    have hne : ¬ (b == 0x5D && closes level (c :: (rest ++ t))) = true := by
      rcases isBreak_cases hb with rfl | rfl <;> simp
    rw [List.cons_append, List.cons_append, longBody, if_neg hne, if_pos hb] at h
    simp only [hc, if_true] at h
    refine ih h ?_
    simp only [List.length_cons] at hlen ⊢
    omega
  | case4 b acc e hb c rest hc hopen ih =>
    have hne : ¬ (b == 0x5D && closes level (c :: (rest ++ t))) = true := by
      rcases isBreak_cases hb with rfl | rfl <;> simp
    rw [List.cons_append, List.cons_append, longBody, if_neg hne, if_pos hb] at h
    simp only [hc, if_false, Bool.false_eq_true] at h
    refine ih h ?_
    simp only [List.length_cons] at hlen ⊢
    omega
  | case5 b acc e hb hopen ih =>
    exfalso
    rw [List.length_singleton] at hlen
    cases t with
    | nil =>
      rw [List.append_nil, longBody, if_neg hopen, if_pos hb] at h
      cases h
    | cons c t =>
      have hne : ¬ (b == 0x5D && closes level (c :: t)) = true := by
        rcases isBreak_cases hb with rfl | rfl <;> simp
      rw [List.singleton_append, longBody, if_neg hne, if_pos hb] at h
      split at h
      · obtain ⟨f, _, rfl, hpos, -⟩ := longBody_passes h
        simp only [Extent.append] at hlen
        omega
      · obtain ⟨f, _, rfl, hpos, -⟩ := longBody_passes h
        simp only [Extent.append] at hlen
        omega
  | case6 b rest acc e hopen hb ih =>
    by_cases hclose : (b == 0x5D && closes level (rest ++ t)) = true
    · -- a closing bracket that is not all within `p` would end behind it
      rw [List.cons_append, longBody_close hclose] at h
      cases h
      rw [Bool.and_eq_true] at hclose
      simp only [Extent.more, List.length_cons] at hlen
      exact absurd (by rw [hclose.1, closes_alone hclose.2 (by omega)]; rfl) hopen
    · rw [List.cons_append, longBody_other hclose hb] at h
      refine ih h ?_
      simp only [Extent.more, List.length_cons] at hlen ⊢
      omega

theorem longText_alone {level : Nat} {text : Bytes} (h : longText level (p ++ t) = (true, text, e))
    (hlen : e.bytes ≤ p.length) : longText level p = (true, text, e) := by
  rw [longText] at h ⊢
  obtain ⟨f, _, rfl, hpos, -⟩ := longBody_passes h
  have hbreak : breakLength (p ++ t) < p.length := by
    simp only [Extent.append] at hlen
    omega
  cases p with
  | nil => cases hbreak
  | cons b p =>
    have hsame : breakLength (b :: p) = breakLength (b :: p ++ t) := by
      refine breakLength_alone (t := t) ?_
      rw [List.cons_append, List.length_cons] at hbreak
      omega
    rw [List.drop_append_of_le_length (Nat.le_of_lt hbreak)] at h
    rw [hsame]
    refine longBody_alone h ?_
    rw [List.length_drop]
    simp only [Extent.append] at hlen ⊢
    omega

/-! ## 3. Quoted strings -/

theorem codeDigits_alone {code n code' m : Nat} (h : codeDigits code n (p ++ t) = (true, code', m))
    (hlen : m < n + p.length) : codeDigits code n p = (true, code', m) := by
  fun_induction codeDigits code n p with
  | case1 code n b rest d hd hroom => simp [codeDigits, hd, hroom] at h
  | case2 code n b rest d hd hroom ih =>
    simp only [List.cons_append, codeDigits, hd, hroom, if_false] at h
    refine ih h ?_
    rw [List.length_cons] at hlen
    omega
  | case3 code n b rest hd =>
    simp only [List.cons_append, codeDigits, hd] at h
    exact h
  | case4 code n =>
    obtain ⟨_, _, -, rfl, -⟩ := codeDigits_eq h
    simp only [List.length_nil] at hlen
    omega

variable {out : Bytes}

theorem hexEscape_alone (h : hexEscape (p ++ t) = .ok (out, e)) (hlen : e.bytes ≤ 1 + p.length) :
    hexEscape p = .ok (out, e) := by
  have hthree : e.bytes = 3 := by
    unfold hexEscape at h
    grind
  cases p with
  | nil => simp [hthree] at hlen
  | cons c p =>
    cases p with
    | nil => simp [hthree] at hlen
    | cons d p => exact h

theorem codeEscape_alone (h : codeEscape (p ++ t) = .ok (out, e)) (hlen : e.bytes ≤ 1 + p.length) :
    codeEscape p = .ok (out, e) := by
  cases p with
  | nil =>
    unfold codeEscape at h
    grind
  | cons o p =>
    rw [List.length_cons] at hlen
    simp only [List.cons_append, codeEscape] at h ⊢
    by_cases ho : (o == 0x7B) = true
    · rw [if_pos ho] at h ⊢
      rcases hdigits : codeDigits 0 0 (p ++ t) with ⟨fits, code, n⟩
      rw [hdigits] at h
      cases fits with
      | false => cases h
      | true =>
        simp only at h
        by_cases hn : n = 0
        · rw [if_pos hn] at h
          cases h
        rw [if_neg hn] at h
        by_cases hclose : (((p ++ t).drop n).head? == some 0x7D) = true
        · rw [if_pos hclose] at h
          cases h
          have hin : n < p.length := by
            have : 3 + n ≤ 1 + (p.length + 1) := hlen
            omega
          rw [codeDigits_alone hdigits (by omega)]
          have hdrop : ((p ++ t).drop n).head? = (p.drop n).head? := by
            rw [List.head?_drop, List.head?_drop, List.getElem?_append_left hin]
          rw [hdrop] at hclose
          simp only [hn, hclose, if_true, if_false]
        · rw [if_neg hclose] at h
          cases h
    · rw [if_neg ho] at h
      cases h

theorem takeWhile_alone {q : UInt8 → Bool} (h : ((p ++ t).takeWhile q).length ≤ p.length) :
    p.takeWhile q = (p ++ t).takeWhile q := by
  induction p with
  | nil => exact (List.eq_nil_of_length_eq_zero (Nat.le_zero.mp h)).symm
  | cons b p ih =>
    by_cases hb : q b = true
    · rw [List.cons_append, List.takeWhile_cons_of_pos hb, List.length_cons] at h
      rw [List.cons_append, List.takeWhile_cons_of_pos hb, List.takeWhile_cons_of_pos hb,
        ih (Nat.le_of_succ_le_succ h)]
    · rw [List.cons_append, List.takeWhile_cons_of_neg hb, List.takeWhile_cons_of_neg hb]

theorem decimalEscape_alone (h : decimalEscape (p ++ t) = .ok (out, e)) (hlen : e.bytes ≤ p.length) :
    decimalEscape p = .ok (out, e) := by
  have hdigits : e.bytes = (((p ++ t).take 3).takeWhile Numeral.isDigit).length := by
    simp only [decimalEscape] at h
    grind
  have hthree : (((p ++ t).take 3).takeWhile Numeral.isDigit).length ≤ 3 :=
    (List.takeWhile_prefix _).length_le.trans (List.length_take_le ..)
  have hsame : (p.take 3).takeWhile Numeral.isDigit = ((p ++ t).take 3).takeWhile Numeral.isDigit := by
    rw [List.take_append] at hdigits hthree ⊢
    refine takeWhile_alone ?_
    rw [List.length_take]
    omega
  simp only [decimalEscape] at h ⊢
  rw [hsame]
  split at h
  · cases h
  · next hvalue =>
    rw [if_neg hvalue]
    exact h

theorem escape_alone (h : escape b (p ++ t) = .ok (out, e)) (hlen : e.bytes ≤ 1 + p.length) :
    escape b p = .ok (out, e) := by
  unfold escape at h ⊢
  cases hsimple : simpleEscape? b with
  | some c =>
    rw [hsimple] at h
    exact h
  | none =>
    rw [hsimple] at h
    simp only at h ⊢
    by_cases hb : isBreak b = true
    · rw [if_pos hb] at h ⊢
      cases h
      rw [breakLength_alone hlen]
    rw [if_neg hb] at h ⊢
    by_cases hx : (b == 0x78) = true
    · rw [if_pos hx] at h ⊢
      exact hexEscape_alone h hlen
    rw [if_neg hx] at h ⊢
    by_cases hu : (b == 0x75) = true
    · rw [if_pos hu] at h ⊢
      exact codeEscape_alone h hlen
    rw [if_neg hu] at h ⊢
    by_cases hz : (b == 0x7A) = true
    · rw [if_pos hz] at h ⊢
      cases h
      rw [whiteExtent_alone (p := p) (t := t)]
      simp only [Extent.more] at hlen
      omega
    rw [if_neg hz] at h ⊢
    by_cases hd : Numeral.isDigit b = true
    · rw [if_pos hd] at h ⊢
      refine decimalEscape_alone (t := t) h ?_
      rw [List.length_cons]
      omega
    · rw [if_neg hd] at h
      cases h

section Body

variable {quote : UInt8} {s acc : Bytes}

theorem shortBody_break (hb : isBreak b = true) :
    shortBody quote 0 (b :: s) acc e = (.fault .unfinishedString false, e) := by
  cases s <;> simp [shortBody, hb]

theorem shortBody_close (hb : ¬ isBreak b = true) (h : (b == quote) = true) :
    shortBody quote 0 (b :: s) acc e = (.closed acc.reverse, e.more 1) := by
  cases s <;> simp [shortBody, hb, h]

theorem shortBody_other (hb : ¬ isBreak b = true) (h : ¬ (b == quote) = true) (hslash : ¬ (b == 0x5C) = true) :
    shortBody quote 0 (b :: s) acc e = shortBody quote 0 s (b :: acc) (e.more 1) := by
  cases s <;> simp [shortBody, hb, h, hslash]

theorem shortBody_escape {c : UInt8} {x : Extent} (hb : ¬ isBreak b = true) (h : ¬ (b == quote) = true)
    (hslash : (b == 0x5C) = true) (hescape : escape c s = .ok (out, x)) :
    shortBody quote 0 (b :: c :: s) acc e =
      shortBody quote x.bytes (c :: s) (out.reverse ++ acc) ((e.more 1).append x) := by
  simp only [shortBody, if_neg hb, if_neg h, if_pos hslash, hescape]

theorem shortBody_fault {c : UInt8} {f : LexFault} {x : Extent} (hb : ¬ isBreak b = true) (h : ¬ (b == quote) = true)
    (hslash : (b == 0x5C) = true) (hescape : escape c s = .error (f, x)) :
    shortBody quote 0 (b :: c :: s) acc e = (.fault f false, (e.more 1).append x) := by
  simp only [shortBody, if_neg hb, if_neg h, if_pos hslash, hescape]

theorem escape_within {c : UInt8} {text : Bytes} (hb : ¬ isBreak b = true) (hquote : ¬ (b == quote) = true)
    (hslash : (b == 0x5C) = true) (h : shortBody quote 0 (b :: c :: p ++ t) acc e = (.closed text, e'))
    (hlen : e'.bytes + 0 ≤ e.bytes + (b :: c :: p).length) :
    ∃ out x, escape c (p ++ t) = .ok (out, x) ∧ x.bytes ≤ 1 + p.length := by
  rw [List.cons_append, List.cons_append] at h
  rcases hescape : escape c (p ++ t) with ⟨f, x⟩ | ⟨out, x⟩
  · rw [shortBody_fault hb hquote hslash hescape] at h
    cases h
  · rw [shortBody_escape hb hquote hslash hescape] at h
    obtain ⟨f, _, rfl, hpos, -⟩ := shortBody_passes h
    refine ⟨out, x, rfl, ?_⟩
    simp only [Extent.append, Extent.more, List.length_cons] at hlen
    omega

end Body

theorem shortBody_alone {quote : UInt8} {skip : Nat} {acc text : Bytes}
    (h : shortBody quote skip (p ++ t) acc e = (.closed text, e')) (hlen : e'.bytes + skip ≤ e.bytes + p.length) :
    shortBody quote skip p acc e = (.closed text, e') := by
  fun_induction shortBody quote skip p acc e with
  | case1 skip acc e =>
    obtain ⟨f, _, rfl, hpos, -⟩ := shortBody_passes h
    simp only [Extent.append, List.length_nil] at hlen
    omega
  | case2 skip b rest acc e ih => exact ih h (by rw [List.length_cons] at hlen; omega)
  | case3 b rest acc e hb =>
    rw [List.cons_append, shortBody_break hb] at h
    cases h
  | case4 b rest acc e hb hclose =>
    rw [List.cons_append, shortBody_close hb hclose] at h
    exact h
  | case5 b acc e hb hclose hslash =>
    exfalso
    cases t with
    | nil => simp [shortBody, hb, hclose, hslash] at h
    | cons c t =>
      rw [List.singleton_append] at h
      rcases hescape : escape c t with ⟨f, x⟩ | ⟨out, x⟩
      · rw [shortBody_fault hb hclose hslash hescape] at h
        cases h
      · rw [shortBody_escape hb hclose hslash hescape] at h
        obtain ⟨f, _, rfl, hpos, -⟩ := shortBody_passes h
        simp only [Extent.append, Extent.more, List.length_singleton] at hlen
        omega
  | case6 b acc e hb hclose hslash c rest out x hescape ih =>
    obtain ⟨out', x', hescape', hx⟩ := escape_within hb hclose hslash h hlen
    rw [List.cons_append, List.cons_append, shortBody_escape hb hclose hslash hescape'] at h
    rw [escape_alone hescape' hx] at hescape
    cases hescape
    refine ih h ?_
    simp only [Extent.append, Extent.more, List.length_cons] at hlen ⊢
    omega
  | case7 b acc e hb hclose hslash c rest f x hescape =>
    obtain ⟨out', x', hescape', hx⟩ := escape_within hb hclose hslash h hlen
    rw [escape_alone hescape' hx] at hescape
    cases hescape
  | case8 b rest acc e hb hclose hslash ih =>
    rw [List.cons_append, shortBody_other hb hclose hslash] at h
    refine ih h ?_
    simp only [Extent.more, List.length_cons] at hlen ⊢
    omega

/-! ## 4. Numerals and symbols -/

theorem numeralLength_mark {isMark : UInt8 → Bool} {c : UInt8} (hb : isMark b = true) (s : Bytes) :
    numeralLength isMark (b :: c :: s) =
      if (c == 0x2B || c == 0x2D) = true then 2 + numeralLength isMark s else 1 + numeralLength isMark (c :: s) := by
  rw [numeralLength, if_pos hb]

theorem numeralLength_digit {isMark : UInt8 → Bool} (hm : ¬ isMark b = true)
    (hb : (Numeral.isHexDigit b || b == 0x2E) = true) (s : Bytes) :
    numeralLength isMark (b :: s) = 1 + numeralLength isMark s := by
  cases s <;> simp [numeralLength, hm, hb]

theorem numeralLength_other {isMark : UInt8 → Bool} (hm : ¬ isMark b = true)
    (hb : ¬ (Numeral.isHexDigit b || b == 0x2E) = true) (s : Bytes) : numeralLength isMark (b :: s) = 0 := by
  cases s <;> simp [numeralLength, hm, hb]

theorem numeralLength_alone {isMark : UInt8 → Bool} (h : numeralLength isMark (p ++ t) ≤ p.length) :
    numeralLength isMark p = numeralLength isMark (p ++ t) := by
  fun_induction numeralLength isMark p with
  | case1 => exact (Nat.le_zero.mp h).symm
  | case2 b hb c rest hc ih =>
    rw [List.cons_append, List.cons_append, numeralLength_mark hb, if_pos hc] at h ⊢
    rw [List.length_cons, List.length_cons] at h
    rw [ih (by omega)]
  | case3 b hb c rest hc ih =>
    rw [List.cons_append, List.cons_append, numeralLength_mark hb, if_neg hc] at h ⊢
    rw [List.length_cons] at h
    rw [ih (by rw [List.cons_append]; omega), List.cons_append]
  | case4 b hb =>
    cases t with
    | nil => simp [numeralLength, hb]
    | cons c t =>
      rw [List.singleton_append, numeralLength_mark hb] at h ⊢
      rw [List.length_singleton] at h
      by_cases hc : (c == 0x2B || c == 0x2D) = true
      · rw [if_pos hc] at h
        omega
      · rw [if_neg hc] at h ⊢
        omega
  | case5 b rest hm hb ih =>
    rw [List.cons_append, numeralLength_digit hm hb] at h ⊢
    rw [List.length_cons] at h
    rw [ih (by omega)]
  | case6 b rest hm hb => rw [List.cons_append, numeralLength_other hm hb]

theorem numeralLength_le (isMark : UInt8 → Bool) (s : Bytes) : numeralLength isMark s ≤ s.length := by
  fun_induction numeralLength isMark s with
  | case1 => exact Nat.le_refl 0
  | case2 => simp only [List.length_cons]; omega
  | case3 => simp only [List.length_cons] at *; omega
  | case4 => exact Nat.le_refl 1
  | case5 => simp only [List.length_cons]; omega
  | case6 => exact Nat.zero_le _

theorem numeralLength_take (isMark : UInt8 → Bool) (s : Bytes) :
    numeralLength isMark (s.take (numeralLength isMark s)) = numeralLength isMark s := by
  have hlen := numeralLength_le isMark s
  have hsplit := List.take_append_drop (numeralLength isMark s) s
  have := numeralLength_alone (p := s.take (numeralLength isMark s)) (t := s.drop (numeralLength isMark s))
    (by rw [hsplit, List.length_take, Nat.min_eq_left hlen])
  rwa [hsplit] at this

theorem numeral_prefix (s : Bytes) : numeral s <+: s := by
  unfold numeral
  split <;> exact List.take_prefix ..

theorem numeral_hex {x : UInt8} (hx : x = 0x78 ∨ x = 0x58) (s : Bytes) :
    numeral (0x30 :: x :: s) = 0x30 :: x :: s.take (numeralLength (fun b => b == 0x70 || b == 0x50) s) := by
  have hmark : Numeral.afterHexMark? (0x30 :: x :: s) = some s := by
    rcases hx with rfl | rfl <;> rfl
  unfold numeral
  rw [hmark]
  simp only [Nat.add_comm 2, List.take_succ_cons]

theorem numeral_alone (s : Bytes) : numeral (numeral s) = numeral s := by
  cases hhex : Numeral.afterHexMark? s with
  | some rest =>
    obtain ⟨x, rfl, hx⟩ := afterHexMark?_eq hhex
    rw [numeral_hex hx, numeral_hex hx, numeralLength_take, List.take_take, Nat.min_self]
  | none =>
    have hplain : ∀ n, Numeral.afterHexMark? (s.take n) = none := fun n => by
      cases hn : Numeral.afterHexMark? (s.take n) with
      | none => rfl
      | some q =>
        obtain ⟨x, hs, hx⟩ := afterHexMark?_eq hn
        have hs' := List.take_append_drop n s
        rw [hs] at hs'
        rw [← hs'] at hhex
        rcases hx with rfl | rfl <;> cases hhex
    have hnumeral : numeral s = s.take (numeralLength (fun b => b == 0x65 || b == 0x45) s) := by
      rw [numeral, hhex]
    rw [hnumeral, numeral, hplain]
    simp only [numeralLength_take, List.take_take, Nat.min_self]

theorem digit_isHexDigit (h : Numeral.isDigit b = true) : Numeral.isHexDigit b = true := by
  have hlt : b.toNat - 0x30 < 16 := by
    simp only [Numeral.isDigit, Bool.and_eq_true, decide_eq_true_eq, UInt8.le_iff_toNat_le, UInt8.reduceToNat] at h
    omega
  simp [Numeral.isHexDigit, Numeral.digit?, h, hlt]

theorem numeralLength_first (h : Numeral.isDigit b = true) (s : Bytes) :
    numeralLength (fun b => b == 0x65 || b == 0x45) (b :: s) =
      1 + numeralLength (fun b => b == 0x65 || b == 0x45) s := by
  refine numeralLength_digit ?_ (by rw [digit_isHexDigit h]; rfl) s
  intro hmark
  rw [Bool.or_eq_true, beq_iff_eq, beq_iff_eq] at hmark
  rcases hmark with rfl | rfl <;> cases h

theorem numeral_digit (h : Numeral.isDigit b = true) (s : Bytes) : ∃ q, numeral (b :: s) = b :: q := by
  cases hhex : Numeral.afterHexMark? (b :: s) with
  | some rest =>
    obtain ⟨x, hs, hx⟩ := afterHexMark?_eq hhex
    cases hs
    exact ⟨_, numeral_hex hx rest⟩
  | none =>
    unfold numeral
    rw [hhex]
    simp only [numeralLength_first h, Nat.add_comm 1, List.take_succ_cons]
    exact ⟨_, rfl⟩

theorem numeral_point (h : Numeral.isDigit b = true) (s : Bytes) :
    ∃ q, numeral (0x2E :: b :: s) = 0x2E :: b :: q := by
  have hpoint : numeralLength (fun b => b == 0x65 || b == 0x45) (0x2E :: b :: s) =
      1 + numeralLength (fun b => b == 0x65 || b == 0x45) (b :: s) := numeralLength_digit (by decide) rfl (b :: s)
  have hhex : Numeral.afterHexMark? (0x2E :: b :: s) = none := rfl
  unfold numeral
  rw [hhex]
  simp only [hpoint, numeralLength_first h, Nat.add_comm 1, List.take_succ_cons]
  exact ⟨_, rfl⟩

theorem dotSymbol_pos (s : Bytes) : 0 < (dotSymbol s).2 := by
  unfold dotSymbol
  grind

theorem symbol?_alone {y : Symbol × Nat} (h : symbol? b (p ++ t).head? = some y) (hwidth : y.2 = 1 + p.length) :
    symbol? b p.head? = some y := by
  obtain ⟨y, n⟩ := y
  rcases symbol?_width h with ⟨rfl, hone⟩ | ⟨rfl, -⟩
  · have hp : p = [] := List.eq_nil_of_length_eq_zero (by simp only at hwidth; omega)
    rw [hp]
    exact hone
  · cases p with
    | nil => simp at hwidth
    | cons c p => exact h

theorem dotSymbol_alone (h : (dotSymbol (p ++ t)).2 = 1 + p.length) : dotSymbol p = dotSymbol (p ++ t) := by
  cases p with
  | nil =>
    unfold dotSymbol at h ⊢
    grind
  | cons b p =>
    cases p with
    | nil =>
      unfold dotSymbol at h ⊢
      grind
    | cons c p => rfl

end Scan

namespace Cursor

open Scan

variable {c c' : Cursor} {x : Lexeme} {scan : Cursor → Except LexError Lexeme × Cursor} {offset line : Nat}

def Rereads (scan : Cursor → Except LexError Lexeme × Cursor) (x : Lexeme) : Prop :=
  ∀ offset line, ∃ n, scan ⟨x.raw, offset, line⟩ =
    (.ok ⟨x.token, line + n, offset, x.raw⟩, ⟨[], offset + x.raw.length, line + n⟩)

theorem take_alone {y : Token} {e : Extent} {p : Bytes} (h : p.length = e.bytes) :
    Cursor.take ⟨p, offset, line⟩ y e =
      (.ok ⟨y, line + e.lines, offset, p⟩, ⟨[], offset + p.length, line + e.lines⟩) := by
  simp [Cursor.take, past, ← h]

theorem take_raw {y : Token} {e : Extent} (h : c.take y e = (.ok x, c')) (hlen : e.bytes ≤ c.rest.length) :
    x.raw = c.rest.take e.bytes ∧ x.raw.length = e.bytes ∧ c.rest = x.raw ++ c'.rest ∧ x.token = y := by
  cases h
  refine ⟨rfl, ?_, (List.take_append_drop e.bytes c.rest).symm, rfl⟩
  show (c.rest.take e.bytes).length = e.bytes
  rw [List.length_take, Nat.min_eq_left hlen]

theorem rereads_of_take {y : Token} {e : Extent} (hlen : x.raw.length = e.bytes) (htoken : x.token = y)
    (h : ∀ offset line, scan ⟨x.raw, offset, line⟩ = Cursor.take ⟨x.raw, offset, line⟩ y e) : Rereads scan x :=
  fun offset line => ⟨e.lines, by rw [h, take_alone hlen, htoken]⟩

theorem scanNumeral_alone (h : c.scanNumeral = (.ok x, c')) :
    x.raw = numeral c.rest ∧ Rereads scanNumeral x := by
  have hprefix := numeral_prefix c.rest
  have hnumeral : c.rest.take (numeral c.rest).length = numeral c.rest := (List.prefix_iff_eq_take.mp hprefix).symm
  simp only [scanNumeral] at h
  cases hread : Numeral.read? (numeral c.rest) with
  | none =>
    rw [hread] at h
    cases h
  | some v =>
    rw [hread] at h
    cases v with
    | int i =>
      obtain ⟨hraw, hlen, -, htoken⟩ := take_raw h hprefix.length_le
      rw [hnumeral] at hraw
      refine ⟨hraw, rereads_of_take hlen htoken fun offset line => ?_⟩
      simp only [hraw, scanNumeral, numeral_alone, hread]
    | float d =>
      obtain ⟨hraw, hlen, -, htoken⟩ := take_raw h hprefix.length_le
      rw [hnumeral] at hraw
      refine ⟨hraw, rereads_of_take hlen htoken fun offset line => ?_⟩
      simp only [hraw, scanNumeral, numeral_alone, hread]

theorem scanWord_alone (h : c.scanWord = (.ok x, c')) :
    x.raw = c.rest.takeWhile isNamePart ∧ Rereads scanWord x := by
  have hprefix : c.rest.takeWhile isNamePart <+: c.rest := List.takeWhile_prefix _
  have hword : c.rest.take (c.rest.takeWhile isNamePart).length = c.rest.takeWhile isNamePart :=
    (List.prefix_iff_eq_take.mp hprefix).symm
  have hagain : (c.rest.takeWhile isNamePart).takeWhile isNamePart = c.rest.takeWhile isNamePart :=
    List.takeWhile_eq_self_iff.mpr fun _ hb => List.mem_takeWhile_imp hb
  simp only [scanWord] at h
  cases hkey : Keyword.ofBytes? (c.rest.takeWhile isNamePart) with
  | none =>
    rw [hkey] at h
    obtain ⟨hraw, hlen, -, htoken⟩ := take_raw h hprefix.length_le
    rw [hword] at hraw
    refine ⟨hraw, rereads_of_take hlen htoken fun offset line => ?_⟩
    simp only [hraw, scanWord, hagain, hkey]
  | some k =>
    rw [hkey] at h
    obtain ⟨hraw, hlen, -, htoken⟩ := take_raw h hprefix.length_le
    rw [hword] at hraw
    refine ⟨hraw, rereads_of_take hlen htoken fun offset line => ?_⟩
    simp only [hraw, scanWord, hagain, hkey]

theorem raw_cons {b : UInt8} {rest : Bytes} (hrest : c.rest = b :: rest) (hsplit : c.rest = x.raw ++ c'.rest)
    (hpos : 0 < x.raw.length) : ∃ p, x.raw = b :: p ∧ rest = p ++ c'.rest := by
  cases hx : x.raw with
  | nil => simp [hx] at hpos
  | cons d p =>
    rw [hrest, hx] at hsplit
    cases hsplit
    exact ⟨p, rfl, rfl⟩

theorem scanBracket_alone {rest : Bytes} (hrest : c.rest = 0x5B :: rest) (h : c.scanBracket rest = (.ok x, c')) :
    ∃ p, x.raw = 0x5B :: p ∧ Rereads (fun c => c.scanBracket p) x := by
  simp only [scanBracket] at h
  cases hlevel : longLevel? rest with
  | some level =>
    rcases htext : longText level (rest.drop (level + 1)) with ⟨closed, text, e⟩
    simp only [hlevel, htext] at h
    cases closed with
    | false => cases h
    | true =>
      simp only [if_true] at h
      obtain ⟨t, hpass⟩ := bracket_passes hlevel htext
      have hle : e.bytes + (level + 2) ≤ c.rest.length := by
        have : e.bytes + (level + 1) ≤ rest.length := hpass.rest_eq.1
        rw [hrest, List.length_cons]
        omega
      obtain ⟨-, hlen, hsplit, htoken⟩ := take_raw h hle
      have hlen' : x.raw.length = e.bytes + (level + 2) := hlen
      obtain ⟨p, hp, rfl⟩ := raw_cons hrest hsplit (by omega)
      rw [hp, List.length_cons] at hlen'
      have hlevel' := longLevel?_alone hlevel (by omega)
      have htext' : longText level (p.drop (level + 1)) = (true, text, e) := by
        rw [List.drop_append_of_le_length (by omega)] at htext
        refine longText_alone htext ?_
        rw [List.length_drop]
        omega
      refine ⟨p, hp, rereads_of_take hlen htoken fun offset line => ?_⟩
      simp only [scanBracket, hlevel', htext', if_true]
  | none =>
    simp only [hlevel] at h
    by_cases hsign : (rest.head? == some 0x3D) = true
    · rw [if_pos hsign] at h
      cases h
    · rw [if_neg hsign] at h
      obtain ⟨-, hlen, hsplit, htoken⟩ := take_raw h (by rw [hrest]; exact Nat.succ_pos _)
      obtain ⟨p, hp, -⟩ := raw_cons hrest hsplit (by rw [hlen]; exact Nat.one_pos)
      have hnil : p = [] := by
        rw [hp] at hlen
        exact List.eq_nil_of_length_eq_zero (Nat.succ.inj hlen)
      subst hnil
      exact ⟨[], hp, rereads_of_take hlen htoken fun offset line => rfl⟩

theorem scanQuoted_alone {quote : UInt8} {rest : Bytes} (hrest : c.rest = quote :: rest)
    (h : c.scanQuoted quote rest = (.ok x, c')) :
    ∃ p, x.raw = quote :: p ∧ Rereads (fun c => c.scanQuoted quote p) x := by
  unfold scanQuoted at h
  split at h
  · next text e hbody =>
    obtain ⟨f, t, rfl, -, hpass⟩ := shortBody_passes hbody
    have hle : 1 + f.bytes ≤ c.rest.length := by
      have : f.bytes ≤ rest.length := hpass.rest_eq.1
      rw [hrest, List.length_cons]
      omega
    obtain ⟨-, hlen, hsplit, htoken⟩ := take_raw h hle
    have hlen' : x.raw.length = 1 + f.bytes := hlen
    obtain ⟨p, hp, rfl⟩ := raw_cons hrest hsplit (by omega)
    rw [hp, List.length_cons] at hlen'
    have hbody' := shortBody_alone hbody (by simp only [Extent.append]; omega)
    refine ⟨p, hp, rereads_of_take hlen htoken fun offset line => ?_⟩
    simp only [scanQuoted, hbody']
  · cases h
  · cases h

theorem takeSymbol_alone {b : UInt8} {rest : Bytes} {y : Symbol × Nat} (hrest : c.rest = b :: rest)
    (h : c.takeSymbol y = (.ok x, c')) (hpass : ∃ t, Passes (b :: rest) ⟨y.2, 0⟩ t) (hpos : 0 < y.2) :
    ∃ p, x.raw = b :: p ∧ rest = p ++ c'.rest ∧ y.2 = 1 + p.length ∧ Rereads (fun c => c.takeSymbol y) x := by
  obtain ⟨t, hpass⟩ := hpass
  obtain ⟨-, hlen, hsplit, htoken⟩ := take_raw h (by rw [hrest]; exact hpass.rest_eq.1)
  have hlen' : x.raw.length = y.2 := hlen
  obtain ⟨p, hp, hrest'⟩ := raw_cons hrest hsplit (by omega)
  rw [hp, List.length_cons, Nat.add_comm] at hlen'
  exact ⟨p, hp, hrest', hlen'.symm, rereads_of_take hlen htoken fun offset line => rfl⟩

theorem Rereads.here {b : UInt8} {p : Bytes} (h : Rereads scan x) (hp : x.raw = b :: p)
    (hscan : ∀ offset line, scanHere ⟨b :: p, offset, line⟩ = scan ⟨b :: p, offset, line⟩) : Rereads scanHere x := by
  intro offset line
  obtain ⟨n, hn⟩ := h offset line
  rw [hp] at hn ⊢
  exact ⟨n, by rw [hscan, hn]⟩

/-- **The bytes of a token, scanned by themselves, are that token again, and nothing is left.** -/
theorem scanHere_alone (h : c.scanHere = (.ok x, c')) : Rereads scanHere x := by
  unfold scanHere at h
  cases hrest : c.rest with
  | nil =>
    rw [hrest] at h
    cases h
    exact fun offset line => ⟨0, by simp [scanHere, Cursor.take, past, Extent.none, hrest]⟩
  | cons b rest =>
    rw [hrest] at h
    simp only at h
    by_cases hbracket : (b == 0x5B) = true
    · rw [if_pos hbracket] at h
      obtain ⟨p, hp, hreads⟩ := scanBracket_alone (by rw [hrest, eq_of_beq hbracket]) h
      exact hreads.here hp fun offset line => rfl
    rw [if_neg hbracket] at h
    by_cases hquote : (b == 0x22 || b == 0x27) = true
    · rw [if_pos hquote] at h
      obtain ⟨p, hp, hreads⟩ := scanQuoted_alone hrest h
      exact hreads.here hp fun offset line => by simp only [scanHere, if_neg hbracket, if_pos hquote]
    rw [if_neg hquote] at h
    by_cases hdot : (b == 0x2E) = true
    · rw [if_pos hdot] at h
      rw [eq_of_beq hdot] at hrest
      by_cases hdigit : rest.head?.any Numeral.isDigit = true
      · rw [if_pos hdigit] at h
        obtain ⟨hraw, hreads⟩ := scanNumeral_alone h
        cases rest with
        | nil => cases hdigit
        | cons d rest =>
          obtain ⟨q, hq⟩ := numeral_point hdigit rest
          rw [hrest, hq] at hraw
          exact hreads.here hraw fun offset line => if_pos hdigit
      · rw [if_neg hdigit] at h
        obtain ⟨p, hp, rfl, hwidth, hreads⟩ := takeSymbol_alone hrest h (dots_passes rest) (dotSymbol_pos rest)
        rw [← dotSymbol_alone hwidth] at hreads
        have hnodigit : ¬ p.head?.any Numeral.isDigit = true := by
          cases p with
          | nil => simp
          | cons d p => exact hdigit
        exact hreads.here hp fun offset line => if_neg hnodigit
    rw [if_neg hdot] at h
    by_cases hdigit : Numeral.isDigit b = true
    · rw [if_pos hdigit] at h
      obtain ⟨hraw, hreads⟩ := scanNumeral_alone h
      obtain ⟨q, hq⟩ := numeral_digit hdigit rest
      rw [hrest, hq] at hraw
      exact hreads.here hraw fun offset line => by
        simp only [scanHere, if_neg hbracket, if_neg hquote, if_neg hdot, if_pos hdigit]
    rw [if_neg hdigit] at h
    by_cases hname : isNameStart b = true
    · rw [if_pos hname] at h
      obtain ⟨hraw, hreads⟩ := scanWord_alone h
      rw [hrest, List.takeWhile_cons_of_pos (by rw [isNamePart, hname]; rfl)] at hraw
      exact hreads.here hraw fun offset line => by
        simp only [scanHere, if_neg hbracket, if_neg hquote, if_neg hdot, if_neg hdigit, if_pos hname]
    rw [if_neg hname] at h
    cases hsymbol : symbol? b rest.head? with
    | none =>
      rw [hsymbol] at h
      cases h
    | some y =>
      rw [hsymbol] at h
      have hpos : 0 < y.2 := by
        rcases symbol?_width (y := y.1) (n := y.2) hsymbol with ⟨hn, -⟩ | ⟨hn, -⟩ <;> omega
      obtain ⟨p, hp, rfl, hwidth, hreads⟩ := takeSymbol_alone hrest h (symbol_passes hsymbol) hpos
      have halone := symbol?_alone hsymbol hwidth
      exact hreads.here hp fun offset line => by
        simp only [scanHere, if_neg hbracket, if_neg hquote, if_neg hdot, if_neg hdigit, if_neg hname, halone]

end Cursor

end LuaMachine
