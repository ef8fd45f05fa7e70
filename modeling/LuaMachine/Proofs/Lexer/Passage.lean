/-
  PASSING OVER SOURCE TEXT. However a part of the source is read, its bytes are passed one after the other
  and every line break is passed whole and counted once.

  * **`Cursor.scan_passes`** -- a token ends where its scan does, in bytes and in lines.
-/
import LuaMachine.Lexer.Scan
import Mathlib.Data.List.TakeWhile

namespace LuaMachine

namespace Scan

/-- Line breaks, read greedily from the left: `\n` and `\r` that meet in either order are one. -/
def lineBreaks : Bytes → Nat
  | [] => 0
  | b :: rest =>
    if isBreak b then
      match rest with
      | c :: rest' => if isBreak c && b != c then 1 + lineBreaks rest' else 1 + lineBreaks (c :: rest')
      | [] => 1
    else lineBreaks rest

inductive Passes : Bytes → Extent → Bytes → Prop
  | stay (s : Bytes) : Passes s Extent.none s
  | byte {b s e t} : isBreak b = false → Passes s e t → Passes (b :: s) ⟨e.bytes + 1, e.lines⟩ t
  | lineBreak {b s e t} : isBreak b = true → Passes ((b :: s).drop (breakLength (b :: s))) e t →
      Passes (b :: s) ⟨e.bytes + breakLength (b :: s), e.lines + 1⟩ t

variable {s t u : Bytes} {e f : Extent} {b : UInt8}

/-! ## 1. Line breaks -/

theorem lineBreaks_plain (h : isBreak b = false) (s : Bytes) : lineBreaks (b :: s) = lineBreaks s := by
  cases s <;> simp [lineBreaks, h]

theorem breakLength_cases (h : isBreak b = true) (s : Bytes) :
    breakLength (b :: s) = 1 ∧ lineBreaks (b :: s) = 1 + lineBreaks s ∨
      ∃ c rest, s = c :: rest ∧ isBreak c = true ∧ b ≠ c ∧ breakLength (b :: s) = 2 ∧
        lineBreaks (b :: s) = 1 + lineBreaks rest := by
  cases s with
  | nil => simp [breakLength, lineBreaks, h]
  | cons c rest =>
    by_cases hc : isBreak c = true ∧ b ≠ c
    · right
      exact ⟨c, rest, rfl, hc.1, hc.2, by simp [breakLength, h, hc], by simp [lineBreaks, h, hc]⟩
    · left
      have hone : (isBreak c && b != c) = false := by grind
      constructor
      · simp [breakLength, h, hone]
      · rw [lineBreaks]
        simp [h, hone]

theorem breakLength_pos (h : isBreak b = true) (s : Bytes) : 0 < breakLength (b :: s) := by
  rcases breakLength_cases h s with ⟨h1, -⟩ | ⟨_, _, -, -, -, h2, -⟩ <;> omega

theorem breakLength_le (s : Bytes) : breakLength s ≤ s.length := by
  cases s with
  | nil => simp [breakLength]
  | cons b s =>
    by_cases hb : isBreak b = true
    · rcases breakLength_cases hb s with ⟨h1, -⟩ | ⟨c, rest, rfl, -, -, h2, -⟩
      · rw [h1, List.length_cons]
        omega
      · rw [h2, List.length_cons, List.length_cons]
        omega
    · cases s <;> simp [breakLength, hb]

/-! ## 2. Passing -/

namespace Passes

theorem trans (h : Passes s e t) (h' : Passes t f u) : Passes s (e.append f) u := by
  induction h with
  | stay => simpa [Extent.append, Extent.none] using h'
  | byte hb _ ih => simpa [Extent.append, Nat.add_right_comm] using Passes.byte hb (ih h')
  | lineBreak hb _ ih => simpa [Extent.append, Nat.add_right_comm] using Passes.lineBreak hb (ih h')

theorem plain {p : Bytes} (h : ∀ b ∈ p, isBreak b = false) (rest : Bytes) : Passes (p ++ rest) ⟨p.length, 0⟩ rest := by
  induction p with
  | nil => exact stay rest
  | cons b p ih => exact byte (h b (List.mem_cons_self ..)) (ih fun c hc => h c (List.mem_cons_of_mem _ hc))

theorem newline (hb : isBreak b = true) (s : Bytes) :
    Passes (b :: s) ⟨breakLength (b :: s), 1⟩ ((b :: s).drop (breakLength (b :: s))) := by
  simpa [Extent.none] using lineBreak hb (stay _)

theorem pair {c : UInt8} (hb : isBreak b = true) (hc : (isBreak c && c != b) = true) (h : Passes s e t) :
    Passes (b :: c :: s) ⟨e.bytes + 2, e.lines + 1⟩ t := by
  have htwo : breakLength (b :: c :: s) = 2 := by
    rw [Bool.and_eq_true, bne_iff_ne] at hc
    simp [breakLength, hb, hc.1, hc.2.symm]
  have := Passes.lineBreak (b := b) (s := c :: s) hb (by rw [htwo]; exact h)
  rwa [htwo] at this

theorem single {c : UInt8} (hb : isBreak b = true) (hc : ¬ (isBreak c && c != b) = true) (h : Passes (c :: s) e t) :
    Passes (b :: c :: s) ⟨e.bytes + 1, e.lines + 1⟩ t := by
  have hone : breakLength (b :: c :: s) = 1 := by
    have hne : (isBreak c && b != c) = false := by grind
    simp [breakLength, hb, hne]
  have := Passes.lineBreak (b := b) (s := c :: s) hb (by rw [hone]; exact h)
  rwa [hone] at this

theorem last (hb : isBreak b = true) : Passes [b] ⟨1, 1⟩ [] := by
  have hone : breakLength [b] = 1 := by simp [breakLength, hb]
  have := newline hb []
  rwa [hone] at this

theorem rest_eq (h : Passes s e t) : e.bytes ≤ s.length ∧ t = s.drop e.bytes := by
  induction h with
  | stay => exact ⟨Nat.zero_le _, rfl⟩
  | byte _ _ ih => exact ⟨Nat.succ_le_succ ih.1, by simpa using ih.2⟩
  | @lineBreak b s e t hb _ ih =>
    have hle := breakLength_le (b :: s)
    obtain ⟨hlen, ht⟩ := ih
    rw [List.length_drop] at hlen
    refine ⟨by show e.bytes + breakLength (b :: s) ≤ (b :: s).length; omega, ?_⟩
    rw [ht, List.drop_drop, Nat.add_comm]

/-- **A passage counts the line breaks of the text that is passed.** -/
theorem lines (h : Passes s e t) : e.lines = lineBreaks (s.take e.bytes) := by
  induction h with
  | stay => rfl
  | byte hb _ ih => rw [List.take_succ_cons, lineBreaks_plain hb, ← ih]
  | @lineBreak b s e t hb _ ih =>
    show e.lines + 1 = lineBreaks ((b :: s).take (e.bytes + breakLength (b :: s)))
    -- the break at the front is also the first one of the text that is cut behind the passage
    rcases breakLength_cases hb s with ⟨h1, -⟩ | ⟨c, rest, rfl, hc, hne, h2, -⟩
    · rw [h1, List.drop_one, List.tail_cons] at ih
      rw [h1, List.take_succ_cons, ih]
      rcases breakLength_cases hb (s.take e.bytes) with ⟨-, hcut⟩ | ⟨c, rest, hs, hc, hne, -, -⟩
      · rw [hcut, Nat.add_comm]
      · have hfront : s.head? = some c := by
          have := congrArg List.head? hs
          rw [List.head?_take] at this
          grind
        cases s with
        | nil => cases hfront
        | cons d s =>
          cases hfront
          simp [breakLength, hb, hc, hne] at h1
    · rw [h2, List.drop_succ_cons, List.drop_one, List.tail_cons] at ih
      rw [h2, List.take_succ_cons, List.take_succ_cons, lineBreaks, if_pos hb, ih]
      simp [hc, hne, Nat.add_comm]

end Passes

/-! ## 3. Long brackets -/

theorem closes_eq {n : Nat} (h : closes n s = true) : ∃ rest, s = List.replicate n 0x3D ++ 0x5D :: rest := by
  induction n generalizing s with
  | zero =>
    cases s with
    | nil => cases h
    | cons b rest =>
      rw [closes, beq_iff_eq] at h
      exact ⟨rest, by rw [h]; rfl⟩
  | succ n ih =>
    cases s with
    | nil => cases h
    | cons b rest =>
      rw [closes, Bool.and_eq_true, beq_iff_eq] at h
      obtain ⟨rest', hrest⟩ := ih h.2
      exact ⟨rest', by rw [h.1, hrest]; rfl⟩

theorem drop_takeWhile (p : UInt8 → Bool) (s : Bytes) : s.drop (s.takeWhile p).length = s.dropWhile p := by
  have hsplit := List.takeWhile_append_dropWhile (p := p) (l := s)
  generalize s.takeWhile p = before at *
  generalize s.dropWhile p = rest at *
  rw [← hsplit, List.drop_left]

theorem longLevel?_eq {n : Nat} (h : longLevel? s = some n) : ∃ rest, s = List.replicate n 0x3D ++ 0x5B :: rest := by
  have hsplit := List.takeWhile_append_dropWhile (p := (· == 0x3D)) (l := s)
  have hsigns : s.takeWhile (· == 0x3D) = List.replicate (s.takeWhile (· == 0x3D)).length 0x3D :=
    List.eq_replicate_of_mem fun b hb => by simpa using List.mem_takeWhile_imp hb
  simp only [longLevel?, drop_takeWhile] at h
  split at h
  · next b rest hrest =>
    obtain ⟨hb, hn⟩ := Option.ite_none_right_eq_some.mp h
    cases hn
    rw [hrest, eq_of_beq hb, hsigns] at hsplit
    exact ⟨rest, hsplit.symm⟩
  · cases h

theorem append_more (e f : Extent) (n : Nat) : (e.more n).append f = e.append ⟨f.bytes + n, f.lines⟩ := by
  simp only [Extent.more, Extent.append, Nat.add_assoc, Nat.add_comm n]

theorem append_step (e f : Extent) (n k : Nat) :
    Extent.append ⟨e.bytes + n, e.lines + k⟩ f = e.append ⟨f.bytes + n, f.lines + k⟩ := by
  simp only [Extent.append, Nat.add_assoc, Nat.add_comm n, Nat.add_comm k]

theorem bracket_plain (n : Nat) (last : UInt8) (h : isBreak last = false) :
    ∀ b ∈ List.replicate n 0x3D ++ [last], isBreak b = false := by
  intro b hb
  rcases List.mem_append.mp hb with hb | hb
  · rw [List.eq_of_mem_replicate hb]
    decide
  · rw [List.mem_singleton.mp hb]
    exact h

theorem longBody_passes {level : Nat} {acc text : Bytes} {e' : Extent} (h : longBody level s acc e = (true, text, e')) :
    ∃ f t, e' = e.append f ∧ 0 < f.bytes ∧ Passes s f t := by
  fun_induction longBody level s acc e with
  | case1 => cases h
  | case2 b rest acc e hclose =>
    cases h
    rw [Bool.and_eq_true, beq_iff_eq] at hclose
    obtain ⟨rest', hrest⟩ := closes_eq hclose.2
    refine ⟨⟨level + 2, 0⟩, rest', rfl, Nat.succ_pos _, ?_⟩
    have hplain := Passes.plain (bracket_plain level 0x5D rfl) rest'
    rw [hrest, hclose.1]
    simpa using Passes.byte (b := 0x5D) rfl hplain
  | case3 b acc e hb c rest hc _ ih =>
    obtain ⟨f, t, rfl, -, hpass⟩ := ih h
    exact ⟨_, t, append_step .., Nat.succ_pos _, hpass.pair hb hc⟩
  | case4 b acc e hb c rest hc _ ih =>
    obtain ⟨f, t, rfl, -, hpass⟩ := ih h
    exact ⟨_, t, append_step .., Nat.succ_pos _, hpass.single hb hc⟩
  | case5 b acc e hb _ ih =>
    obtain ⟨f, t, rfl, -, hpass⟩ := ih h
    cases hpass with
    | stay => exact ⟨_, [], append_step .., Nat.succ_pos _, .last hb⟩
  | case6 b rest acc e _ hb ih =>
    obtain ⟨f, t, rfl, -, hpass⟩ := ih h
    exact ⟨_, t, append_more .., Nat.succ_pos _, .byte (by simpa using hb) hpass⟩

theorem longText_passes {level : Nat} {text : Bytes} (h : longText level s = (true, text, e)) : ∃ t, Passes s e t := by
  rw [longText] at h
  obtain ⟨f, t, rfl, -, hpass⟩ := longBody_passes h
  cases s with
  | nil =>
    refine ⟨t, ?_⟩
    simpa [breakLength, Extent.append] using hpass
  | cons b s =>
    by_cases hb : isBreak b = true
    · have hne : breakLength (b :: s) ≠ 0 := Nat.pos_iff_ne_zero.mp (breakLength_pos hb s)
      rw [if_neg hne]
      exact ⟨t, (Passes.newline hb s).trans hpass⟩
    · have hzero : breakLength (b :: s) = 0 := by
        cases s <;> simp [breakLength, hb]
      rw [hzero] at hpass ⊢
      refine ⟨t, ?_⟩
      simpa [Extent.append] using hpass

theorem bracket_passes {level : Nat} {text : Bytes} (hlevel : longLevel? s = some level)
    (h : longText level (s.drop (level + 1)) = (true, text, e)) : ∃ t, Passes s (e.more (level + 1)) t := by
  obtain ⟨rest, rfl⟩ := longLevel?_eq hlevel
  have hplain := Passes.plain (bracket_plain level 0x5B rfl) rest
  simp only [List.append_assoc, List.singleton_append, List.length_append, List.length_replicate,
    List.length_singleton] at hplain
  obtain ⟨t, hpass⟩ := longText_passes h
  rw [← hplain.rest_eq.2] at hpass
  refine ⟨t, ?_⟩
  simpa [Extent.append, Extent.more, Nat.add_comm] using hplain.trans hpass

/-! ## 4. Quoted strings -/

theorem whiteExtent_passes (s : Bytes) : ∃ t, Passes s (whiteExtent s) t := by
  fun_induction whiteExtent s with
  | case1 => exact ⟨[], .stay []⟩
  | case2 b hb c rest hc e ih =>
    obtain ⟨t, hpass⟩ := ih
    exact ⟨t, hpass.pair hb hc⟩
  | case3 b hb c rest hc e ih =>
    obtain ⟨t, hpass⟩ := ih
    exact ⟨t, hpass.single hb hc⟩
  | case4 b hb => exact ⟨[], .last hb⟩
  | case5 b rest hb _ ih =>
    obtain ⟨t, hpass⟩ := ih
    exact ⟨t, .byte (by simpa using hb) hpass⟩
  | case6 b rest => exact ⟨_, .stay _⟩

theorem isBreak_cases (h : isBreak b = true) : b = 0x0A ∨ b = 0x0D := by
  simpa [isBreak] using h

theorem not_break {p : UInt8 → Bool} (hlf : p 0x0A = false) (hcr : p 0x0D = false) (h : p b = true) :
    isBreak b = false := by
  refine Bool.eq_false_iff.mpr fun hb => ?_
  rcases isBreak_cases hb with rfl | rfl
  · rw [hlf] at h
    cases h
  · rw [hcr] at h
    cases h

theorem isDigit_plain (h : Numeral.isDigit b = true) : isBreak b = false := not_break rfl rfl h

theorem digit?_plain {d : Nat} (h : Numeral.digit? 16 b = some d) : isBreak b = false :=
  not_break (p := fun b => (Numeral.digit? 16 b).isSome) rfl rfl (by simp [h])

theorem simpleEscape?_plain {c : UInt8} (h : simpleEscape? b = some c) : isBreak b = false :=
  not_break (p := fun b => (simpleEscape? b).isSome) rfl rfl (by simp [h])

theorem codeDigits_eq {code n code' m : Nat} (h : codeDigits code n s = (true, code', m)) :
    ∃ p rest, s = p ++ rest ∧ m = n + p.length ∧ ∀ b ∈ p, isBreak b = false := by
  fun_induction codeDigits code n s with
  | case1 => cases h
  | case2 code n b rest d hd _ ih =>
    obtain ⟨p, rest', rfl, hm, hplain⟩ := ih h
    refine ⟨b :: p, rest', rfl, by simp [hm]; omega, ?_⟩
    exact List.forall_mem_cons.mpr ⟨digit?_plain hd, hplain⟩
  | case3 code n b rest =>
    cases h
    exact ⟨[], b :: rest, rfl, rfl, List.forall_mem_nil _⟩
  | case4 code n =>
    cases h
    exact ⟨[], [], rfl, rfl, List.forall_mem_nil _⟩

variable {out : Bytes}

theorem hexEscape_passes (h : hexEscape s = .ok (out, e)) : ∃ t, Passes (0x78 :: s) e t := by
  unfold hexEscape at h
  split at h
  · next c rest =>
    split at h
    · cases h
    · next hc =>
      split at h
      · next d rest' =>
        split at h
        · cases h
        · next hd =>
          cases h
          exact ⟨rest', .byte rfl (.byte (digit?_plain hc) (.byte (digit?_plain hd) (.stay rest')))⟩
      · cases h
  · cases h

theorem codeEscape_passes (h : codeEscape s = .ok (out, e)) : ∃ t, Passes (0x75 :: s) e t := by
  unfold codeEscape at h
  split at h
  · next o rest =>
    split at h
    · next ho =>
      split at h
      · cases h
      · next code n hdigits =>
        obtain ⟨p, rest', rfl, hn, hplain⟩ := codeDigits_eq hdigits
        rw [Nat.zero_add] at hn
        subst hn
        simp only [List.drop_left] at h
        split at h
        · cases h
        · split at h
          · next hclose =>
            cases h
            cases rest' with
            | nil => simp at hclose
            | cons c rest' =>
              have hc : c = 0x7D := by simpa using hclose
              have hbody : ∀ b ∈ 0x75 :: o :: (p ++ [c]), isBreak b = false := by
                have := eq_of_beq ho
                grind [isBreak]
              have hlen : (0x75 :: o :: (p ++ [c])).length = 3 + p.length := by
                simp only [List.length_cons, List.length_append, List.length_nil]
                omega
              have := Passes.plain hbody rest'
              rw [hlen, List.cons_append, List.cons_append, List.append_assoc] at this
              exact ⟨rest', this⟩
          · cases h
    · cases h
  · cases h

theorem decimalEscape_passes (h : decimalEscape s = .ok (out, e)) : ∃ t, Passes s e t := by
  simp only [decimalEscape] at h
  split at h
  · cases h
  · cases h
    have hplain : ∀ b ∈ (s.take 3).takeWhile Numeral.isDigit, isBreak b = false := fun b hb =>
      isDigit_plain (List.mem_takeWhile_imp hb)
    have hfront : (s.take 3).takeWhile Numeral.isDigit <+: s := (List.takeWhile_prefix _).trans (List.take_prefix ..)
    obtain ⟨rest, hrest⟩ := hfront
    refine ⟨rest, ?_⟩
    have := Passes.plain hplain rest
    rwa [hrest] at this

theorem escape_passes (h : escape b s = .ok (out, e)) : ∃ t, Passes (b :: s) e t := by
  unfold escape at h
  split at h
  · next hsimple =>
    cases h
    exact ⟨s, .byte (simpleEscape?_plain hsimple) (.stay s)⟩
  · split at h
    · next hb =>
      cases h
      exact ⟨_, .newline hb s⟩
    · next hb =>
      split at h
      · next hx =>
        rw [eq_of_beq hx]
        exact hexEscape_passes h
      · split at h
        · next hu =>
          rw [eq_of_beq hu]
          exact codeEscape_passes h
        · split at h
          · cases h
            obtain ⟨t, hpass⟩ := whiteExtent_passes s
            exact ⟨t, .byte (by simpa using hb) hpass⟩
          · split at h
            · exact decimalEscape_passes h
            · cases h

theorem shortBody_passes {quote : UInt8} {skip : Nat} {acc text : Bytes} {e' : Extent}
    (h : shortBody quote skip s acc e = (.closed text, e')) :
    ∃ f t, e' = e.append f ∧ 0 < f.bytes ∧ Passes (s.drop skip) f t := by
  fun_induction shortBody quote skip s acc e with
  | case1 => cases h
  | case2 skip b rest acc e ih => exact ih h
  | case3 => cases h
  | case4 b rest acc e hb hclose =>
    cases h
    exact ⟨⟨1, 0⟩, rest, rfl, Nat.succ_pos _, .byte (by simpa using hb) (.stay rest)⟩
  | case5 => cases h
  | case6 b acc e hb _ _ c rest out x hescape ih =>
    obtain ⟨f, t, rfl, -, hpass⟩ := ih h
    obtain ⟨t', hfirst⟩ := escape_passes hescape
    refine ⟨(Extent.mk 1 0).append (x.append f), t, ?_, by simp only [Extent.append]; omega, ?_⟩
    · simp [Extent.append, Extent.more, Nat.add_assoc]
    · rw [← hfirst.rest_eq.2] at hpass
      simpa [Extent.append, Nat.add_comm] using Passes.byte (by simpa using hb) (hfirst.trans hpass)
  | case7 => cases h
  | case8 b rest acc e hb _ _ ih =>
    obtain ⟨f, t, rfl, -, hpass⟩ := ih h
    exact ⟨_, t, append_more .., Nat.succ_pos _, .byte (by simpa using hb) hpass⟩

/-! ## 5. Between tokens -/

theorem line_passes (s : Bytes) : ∃ t, Passes s ⟨(s.takeWhile (! isBreak ·)).length, 0⟩ t := by
  have hplain : ∀ b ∈ s.takeWhile (! isBreak ·), isBreak b = false := fun b hb => by
    simpa using List.mem_takeWhile_imp hb
  refine ⟨s.dropWhile (! isBreak ·), ?_⟩
  have := Passes.plain hplain (s.dropWhile (! isBreak ·))
  rwa [List.takeWhile_append_dropWhile] at this

theorem comment_passes (h : comment s = (true, e)) : ∃ t, Passes s e t := by
  unfold comment at h
  split at h
  · next b rest =>
    split at h
    · next hb =>
      split at h
      · next level hlevel =>
        rcases htext : longText level (rest.drop (level + 1)) with ⟨closed, text, x⟩
        simp only [htext, Prod.mk.injEq] at h
        obtain ⟨rfl, rfl⟩ := h
        obtain ⟨t, hpass⟩ := bracket_passes hlevel htext
        rw [eq_of_beq hb]
        exact ⟨t, .byte rfl hpass⟩
      · cases h
        exact line_passes _
    · cases h
      exact line_passes _
  · cases h
    exact ⟨[], .stay []⟩

theorem blanks_passes {skip : Nat} {e' : Extent} (h : blanks skip s e = (true, e')) :
    ∃ f t, e' = e.append f ∧ Passes (s.drop skip) f t := by
  fun_induction blanks skip s e with
  | case1 skip e =>
    cases h
    exact ⟨Extent.none, [], rfl, by rw [List.drop_nil]; exact .stay []⟩
  | case2 skip b rest e ih => exact ih h
  | case3 b rest e hb n ih =>
    obtain ⟨f, t, rfl, hpass⟩ := ih h
    have hpos : 0 < n := breakLength_pos hb rest
    refine ⟨⟨f.bytes + n, f.lines + 1⟩, t, append_step .., .lineBreak hb ?_⟩
    have hdrop : (b :: rest).drop n = rest.drop (n - 1) := by
      obtain ⟨k, hk⟩ := Nat.exists_eq_succ_of_ne_zero (Nat.pos_iff_ne_zero.mp hpos)
      rw [hk]
      rfl
    rw [hdrop]
    exact hpass
  | case4 b rest e hb _ ih =>
    obtain ⟨f, t, rfl, hpass⟩ := ih h
    exact ⟨_, t, append_more .., .byte (by simpa using hb) hpass⟩
  | case5 b e hb _ hdash c rest hc x hcomment ih =>
    obtain ⟨f, t, rfl, hpass⟩ := ih h
    obtain ⟨t', hfirst⟩ := comment_passes hcomment
    rw [List.drop_succ_cons, ← hfirst.rest_eq.2] at hpass
    refine ⟨(Extent.mk 2 0).append (x.append f), t, ?_, ?_⟩
    · simp [Extent.append, Extent.more, Nat.add_assoc]
    · have hdashes : Passes (b :: c :: rest) ⟨2, 0⟩ rest := by
        rw [eq_of_beq hc]
        exact .byte (by simpa using hb) (.byte rfl (.stay rest))
      exact hdashes.trans (hfirst.trans hpass)
  | case6 => simp_all
  | case7 => cases h; exact ⟨Extent.none, _, rfl, .stay _⟩
  | case8 => cases h; exact ⟨Extent.none, _, rfl, .stay _⟩
  | case9 => cases h; exact ⟨Extent.none, _, rfl, .stay _⟩

/-! ## 6. Words, numerals and symbols -/

theorem word_plain (h : isNamePart b = true) : isBreak b = false := not_break (p := isNamePart) rfl rfl h

theorem word_passes (s : Bytes) : ∃ t, Passes s ⟨(s.takeWhile isNamePart).length, 0⟩ t := by
  have hplain : ∀ b ∈ s.takeWhile isNamePart, isBreak b = false := fun b hb => word_plain (List.mem_takeWhile_imp hb)
  have := Passes.plain hplain (s.dropWhile isNamePart)
  rw [List.takeWhile_append_dropWhile] at this
  exact ⟨_, this⟩

theorem numeralLength_passes (isMark : UInt8 → Bool) (hmark : ∀ b, isMark b = true → isBreak b = false) (s : Bytes) :
    ∃ t, Passes s ⟨numeralLength isMark s, 0⟩ t := by
  fun_induction numeralLength isMark s with
  | case1 => exact ⟨[], .stay []⟩
  | case2 b hb c rest hc ih =>
    obtain ⟨t, hpass⟩ := ih
    have hsign : isBreak c = false := not_break (p := fun c => c == 0x2B || c == 0x2D) rfl rfl hc
    have := (Passes.byte (hmark b hb) (.byte hsign (.stay rest))).trans hpass
    exact ⟨t, this⟩
  | case3 b hb c rest _ ih =>
    obtain ⟨t, hpass⟩ := ih
    rw [Nat.add_comm]
    exact ⟨t, .byte (hmark b hb) hpass⟩
  | case4 b hb => exact ⟨[], .byte (hmark b hb) (.stay [])⟩
  | case5 b rest _ hb ih =>
    obtain ⟨t, hpass⟩ := ih
    have hplain : isBreak b = false := not_break (p := fun b => Numeral.isHexDigit b || b == 0x2E) rfl rfl hb
    rw [Nat.add_comm]
    exact ⟨t, .byte hplain hpass⟩
  | case6 b rest => exact ⟨_, .stay _⟩

theorem afterHexMark?_eq (h : Numeral.afterHexMark? s = some t) :
    ∃ x, s = 0x30 :: x :: t ∧ (x = 0x78 ∨ x = 0x58) := by
  unfold Numeral.afterHexMark? at h
  split at h
  · next z x rest =>
    obtain ⟨hmark, ht⟩ := Option.ite_none_right_eq_some.mp h
    cases ht
    simp only [Bool.and_eq_true, Bool.or_eq_true, beq_iff_eq] at hmark
    obtain ⟨rfl, hx⟩ := hmark
    exact ⟨x, rfl, hx⟩
  · cases h

theorem numeral_passes (s : Bytes) : ∃ t, Passes s ⟨(numeral s).length, 0⟩ t := by
  unfold numeral
  split
  · next rest hmark =>
    obtain ⟨x, rfl, hx⟩ := afterHexMark?_eq hmark
    obtain ⟨t, hpass⟩ := numeralLength_passes (fun b => b == 0x70 || b == 0x50)
      (fun b hb => not_break (p := fun b => b == 0x70 || b == 0x50) rfl rfl hb) rest
    have hx : isBreak x = false := not_break (p := fun x => x == 0x78 || x == 0x58) rfl rfl (by simpa using hx)
    have hall : Passes (0x30 :: x :: rest) ⟨2 + numeralLength (fun b => b == 0x70 || b == 0x50) rest, 0⟩ t :=
      (Passes.byte rfl (.byte hx (.stay rest))).trans hpass
    rw [List.length_take, Nat.min_eq_left hall.rest_eq.1]
    exact ⟨t, hall⟩
  · obtain ⟨t, hpass⟩ := numeralLength_passes (fun b => b == 0x65 || b == 0x45)
      (fun b hb => not_break (p := fun b => b == 0x65 || b == 0x45) rfl rfl hb) s
    rw [List.length_take, Nat.min_eq_left hpass.rest_eq.1]
    exact ⟨t, hpass⟩

theorem symbol?_break (h : isBreak b = true) (next : Option UInt8) : symbol? b next = none := by
  rcases isBreak_cases h with rfl | rfl
  · rfl
  · rfl

theorem symbol?_width {next : Option UInt8} {y : Symbol} {n : Nat} (h : symbol? b next = some (y, n)) :
    n = 1 ∧ symbol? b none = some (y, 1) ∨ n = 2 ∧ ∃ c, next = some c ∧ isBreak c = false := by
  have hnext : ∀ c : Char, Option.map (fun n : UInt8 => Char.ofNat n.toNat) next = some c → c ≠ '\n' → c ≠ '\r' →
      ∃ c, next = some c ∧ isBreak c = false := by
    intro c hc hlf hcr
    obtain ⟨d, rfl, rfl⟩ := Option.map_eq_some_iff.mp hc
    refine ⟨d, rfl, Bool.eq_false_iff.mpr fun hd => ?_⟩
    rcases isBreak_cases hd with rfl | rfl
    · exact hlf rfl
    · exact hcr rfl
  unfold symbol? at h
  split at h <;> cases h
  all_goals first
    | exact .inr ⟨rfl, hnext _ ‹_› (by decide) (by decide)⟩
    | refine .inl ⟨rfl, ?_⟩; unfold symbol?; rw [Option.map_none]; simp only [*]

theorem symbol_passes {y : Symbol} {n : Nat} (h : symbol? b s.head? = some (y, n)) : ∃ t, Passes (b :: s) ⟨n, 0⟩ t := by
  have hb : isBreak b = false := Bool.eq_false_iff.mpr fun hb => by
    rw [symbol?_break hb] at h
    cases h
  rcases symbol?_width h with ⟨rfl, -⟩ | ⟨rfl, c, hc, hplain⟩
  · exact ⟨s, .byte hb (.stay s)⟩
  · cases s with
    | nil => cases hc
    | cons d rest =>
      cases hc
      exact ⟨rest, .byte hb (.byte hplain (.stay rest))⟩

theorem dots_passes (s : Bytes) : ∃ t, Passes (0x2E :: s) ⟨(dotSymbol s).2, 0⟩ t := by
  have hone : Passes (0x2E :: s) ⟨1, 0⟩ s := .byte rfl (.stay s)
  unfold dotSymbol
  split
  · next b c rest =>
    split
    · next hb =>
      rw [eq_of_beq hb] at hone ⊢
      split
      · next hc =>
        rw [eq_of_beq hc]
        exact ⟨rest, .byte rfl (.byte rfl (.byte rfl (.stay rest)))⟩
      · exact ⟨c :: rest, .byte rfl (.byte rfl (.stay (c :: rest)))⟩
    · exact ⟨_, hone⟩
  · next b =>
    split
    · next hb =>
      rw [eq_of_beq hb]
      exact ⟨[], .byte rfl (.byte rfl (.stay []))⟩
    · exact ⟨_, hone⟩
  · exact ⟨_, hone⟩

end Scan

namespace Cursor

open Scan

variable {c c' : Cursor} {x : Lexeme}

/-! ## 7. Tokens -/

def Advances (c c' : Cursor) : Prop :=
  ∃ e, Passes c.rest e c'.rest ∧ c'.offset = c.offset + e.bytes ∧ c'.line = c.line + e.lines

structure Takes (c : Cursor) (x : Lexeme) (c' : Cursor) : Prop where
  advances : c.Advances c'
  start : x.start = c.offset
  split : c.rest = x.raw ++ c'.rest
  line : x.line = c'.line

theorem advances_past {e : Extent} {t : Bytes} (h : Passes c.rest e t) : c.Advances (c.past e) :=
  ⟨e, by rw [past, ← h.rest_eq.2]; exact h, rfl, rfl⟩

theorem Advances.trans {c'' : Cursor} (h : c.Advances c') (h' : c'.Advances c'') : c.Advances c'' := by
  obtain ⟨e, hpass, hoffset, hline⟩ := h
  obtain ⟨f, hpass', hoffset', hline'⟩ := h'
  refine ⟨e.append f, hpass.trans hpass', ?_, ?_⟩
  · rw [hoffset', hoffset, Nat.add_assoc]
    rfl
  · rw [hline', hline, Nat.add_assoc]
    rfl

theorem Takes.stop (h : c.Takes x c') : x.stop = c'.offset := by
  obtain ⟨e, hpass, hoffset, -⟩ := h.advances
  obtain ⟨hle, hrest⟩ := hpass.rest_eq
  have hlength := congrArg List.length h.split
  rw [hrest, List.length_append, List.length_drop] at hlength
  rw [Lexeme.stop, h.start, hoffset]
  omega

theorem take_passes {y : Token} {e : Extent} (h : c.take y e = (.ok x, c')) (hpass : ∃ t, Passes c.rest e t) :
    c.Takes x c' := by
  obtain ⟨t, hpass⟩ := hpass
  cases h
  exact ⟨advances_past hpass, rfl, (List.take_append_drop e.bytes c.rest).symm, rfl⟩

theorem scanNumeral_passes (h : c.scanNumeral = (.ok x, c')) : c.Takes x c' := by
  simp only [scanNumeral] at h
  split at h
  · exact take_passes h (numeral_passes _)
  · exact take_passes h (numeral_passes _)
  · cases h

theorem scanWord_passes (h : c.scanWord = (.ok x, c')) : c.Takes x c' := by
  simp only [scanWord] at h
  split at h
  · exact take_passes h (word_passes _)
  · exact take_passes h (word_passes _)

theorem scanBracket_passes {rest : Bytes} (hrest : c.rest = 0x5B :: rest) (h : c.scanBracket rest = (.ok x, c')) :
    c.Takes x c' := by
  simp only [scanBracket] at h
  split at h
  · next level hlevel =>
    rcases htext : longText level (rest.drop (level + 1)) with ⟨closed, text, e⟩
    simp only [htext] at h
    cases closed with
    | false => cases h
    | true =>
      refine take_passes h ?_
      obtain ⟨t, hpass⟩ := bracket_passes hlevel htext
      rw [hrest]
      exact ⟨t, .byte rfl hpass⟩
  · split at h
    · cases h
    · refine take_passes h ?_
      rw [hrest]
      exact ⟨rest, .byte rfl (.stay rest)⟩

theorem scanQuoted_passes {quote : UInt8} {rest : Bytes} (hrest : c.rest = quote :: rest)
    (hquote : isBreak quote = false) (h : c.scanQuoted quote rest = (.ok x, c')) : c.Takes x c' := by
  unfold scanQuoted at h
  split at h
  · next text e hbody =>
    refine take_passes h ?_
    obtain ⟨f, t, rfl, -, hpass⟩ := shortBody_passes hbody
    rw [hrest]
    exact ⟨t, (Passes.byte hquote (.stay rest)).trans hpass⟩
  · cases h
  · cases h

theorem scanHere_passes (h : c.scanHere = (.ok x, c')) : c.Takes x c' := by
  unfold scanHere at h
  split at h
  · next hrest =>
    refine take_passes h ?_
    rw [hrest]
    exact ⟨[], .stay []⟩
  · next b rest hrest =>
    split at h
    · next hb =>
      rw [eq_of_beq hb] at hrest
      exact scanBracket_passes hrest h
    · split at h
      · next hb =>
        exact scanQuoted_passes hrest (not_break (p := fun b => b == 0x22 || b == 0x27) rfl rfl hb) h
      · split at h
        · next hb =>
          rw [eq_of_beq hb] at hrest
          split at h
          · exact scanNumeral_passes h
          · refine take_passes h ?_
            rw [hrest]
            exact dots_passes rest
        · split at h
          · exact scanNumeral_passes h
          · split at h
            · exact scanWord_passes h
            · split at h
              · next s hs =>
                refine take_passes h ?_
                rw [hrest]
                exact symbol_passes hs
              · cases h

theorem scan_cases (h : c.scan = (.ok x, c')) :
    ∃ e t, blanks 0 c.rest Extent.none = (true, e) ∧ Passes c.rest e t ∧ (c.past e).scanHere = (.ok x, c') := by
  unfold scan at h
  split at h
  · next e hblanks =>
    obtain ⟨f, t, he, hpass⟩ := blanks_passes hblanks
    have hf : e = f := by rw [he]; simp [Extent.append, Extent.none]
    exact ⟨e, t, hblanks, by rw [hf]; exact hpass, h⟩
  · cases h

/-- **A token ends where its scan does, in bytes and in lines.** -/
theorem scan_passes (h : c.scan = (.ok x, c')) : c.Advances c' ∧ x.stop = c'.offset ∧ x.line = c'.line := by
  obtain ⟨e, t, -, hpass, hhere⟩ := scan_cases h
  have htakes := scanHere_passes hhere
  exact ⟨(advances_past hpass).trans htakes.advances, htakes.stop, htakes.line⟩

theorem start_passes (source : Bytes) : Advances ⟨source, 0, 1⟩ (start source) := by
  unfold start
  split
  · obtain ⟨t, hpass⟩ := line_passes source
    exact advances_past hpass
  · exact ⟨Extent.none, .stay _, rfl, rfl⟩

end Cursor

end LuaMachine
