/-
  QUOTED STRINGS. Between quotes stand pieces: bytes that are meant as they stand, and escapes. A string is
  read where the source has pieces up to a quote, and nowhere else.

  * **`Cursor.quoted_strings`** -- which strings are read, and as what.
-/
import LuaMachine.Proofs.Lexer.Approach
import LuaMachine.Proofs.Number.Digits

namespace LuaMachine

open Numeral Scan

/-! ## 1. Pieces -/

def Scan.isWhite (b : UInt8) : Bool := isBlank b || isBreak b

/-- A piece of a quoted string: a byte that is meant as it stands, or what stands behind a backslash. That is a letter
    with the byte it names, `x` and two digits, up to three decimal digits, `u` and digits in braces, a line break, or
    `z` and blanks and line breaks that are left out. -/
inductive Piece where
  | raw (b : UInt8)
  | letter (name byte : UInt8)
  | hex (high low : UInt8)
  | decimal (digits : Bytes)
  | code (digits : Bytes)
  | newline (ending : Bytes)
  | skip (white : Bytes)

namespace Piece

def letters : List (UInt8 × UInt8) :=
  [(0x61, 0x07), (0x62, 0x08), (0x66, 0x0C), (0x6E, 0x0A), (0x72, 0x0D), (0x74, 0x09), (0x76, 0x0B),
    (0x5C, 0x5C), (0x22, 0x22), (0x27, 0x27)]

def endings : List Bytes := [[0x0A], [0x0D], [0x0A, 0x0D], [0x0D, 0x0A]]

/-- A piece as it is written. -/
def bytes : Piece → Bytes
  | raw b => [b]
  | letter name _ => [0x5C, name]
  | hex high low => [0x5C, 0x78, high, low]
  | decimal digits => 0x5C :: digits
  | code digits => 0x5C :: 0x75 :: 0x7B :: (digits ++ [0x7D])
  | newline ending => 0x5C :: ending
  | skip white => 0x5C :: 0x7A :: white

/-- The bytes that a piece stands for. -/
def meaning : Piece → Bytes
  | raw b => [b]
  | letter _ byte => [byte]
  | hex high low => [UInt8.ofNat (value 16 [high, low])]
  | decimal digits => [UInt8.ofNat (value 10 digits)]
  | code digits => Utf8.extended (value 16 digits)
  | newline _ => [0x0A]
  | skip _ => []

/-- A piece between two quotes, with some bytes behind it. A decimal escape of fewer than three digits has no digit
    behind it, and a skip has passed all blanks and line breaks. -/
def Proper (quote : UInt8) (behind : Bytes) : Piece → Prop
  | raw b => b ≠ quote ∧ b ≠ 0x5C ∧ b ≠ 0x0A ∧ b ≠ 0x0D
  | letter name byte => (name, byte) ∈ letters
  | hex high low => IsDigits 16 [high, low]
  | decimal digits => 1 ≤ digits.length ∧ digits.length ≤ 3 ∧ IsDigits 10 digits ∧ value 10 digits ≤ 255 ∧
      (digits.length < 3 → ∀ b ∈ behind.head?, isDigit b = false)
  | code digits => digits ≠ [] ∧ IsDigits 16 digits ∧ value 16 digits ≤ 0x7FFFFFFF
  | newline ending => ending ∈ endings
  | skip white => (∀ b ∈ white, isWhite b = true) ∧ ∀ b ∈ behind.head?, isWhite b = false

instance decidableFront (s : Bytes) (q : UInt8 → Bool) : Decidable (∀ b ∈ s.head?, q b = false) :=
  Option.decidableForallMem _

instance decidableProper (quote : UInt8) (behind : Bytes) : (p : Piece) → Decidable (p.Proper quote behind)
  | raw _ => inferInstanceAs (Decidable (_ ∧ _ ∧ _ ∧ _))
  | letter name byte => inferInstanceAs (Decidable ((name, byte) ∈ letters))
  | hex high low => inferInstanceAs (Decidable (IsDigits 16 [high, low]))
  | decimal _ =>
    have := decidableFront behind isDigit
    inferInstanceAs (Decidable (_ ∧ _ ∧ _ ∧ _ ∧ _))
  | code digits => inferInstanceAs (Decidable (digits ≠ [] ∧ _ ∧ _))
  | newline ending => inferInstanceAs (Decidable (ending ∈ endings))
  | skip white =>
    have := decidableFront behind isWhite
    have : Decidable (∀ b ∈ white, isWhite b = true) := List.decidableBAll _ white
    inferInstanceAs (Decidable (_ ∧ _))

def written (ps : List Piece) : Bytes := ps.flatMap bytes

def meanings (ps : List Piece) : Bytes := ps.flatMap meaning

theorem written_cons (p : Piece) (ps : List Piece) (t : Bytes) :
    written (p :: ps) ++ t = p.bytes ++ (written ps ++ t) := by
  rw [written, List.flatMap_cons, List.append_assoc]
  rfl

def AllProper (quote : UInt8) : List Piece → Prop
  | [] => True
  | p :: ps => p.Proper quote (written ps) ∧ AllProper quote ps

instance decidableAllProper (quote : UInt8) : (ps : List Piece) → Decidable (AllProper quote ps)
  | [] => inferInstanceAs (Decidable True)
  | p :: ps =>
    have := decidableAllProper quote ps
    inferInstanceAs (Decidable (p.Proper quote (written ps) ∧ AllProper quote ps))

end Piece

def IsQuote (quote : UInt8) : Prop := quote = 0x22 ∨ quote = 0x27

namespace IsQuote

variable {quote : UInt8}

theorem plain (h : IsQuote quote) : isBreak quote = false := by
  rcases h with rfl | rfl <;> rfl

theorem not_digit (h : IsQuote quote) : isDigit quote = false := by
  rcases h with rfl | rfl <;> rfl

theorem not_white (h : IsQuote quote) : isWhite quote = false := by
  rcases h with rfl | rfl <;> rfl

theorem ne_slash (h : IsQuote quote) : quote ≠ 0x5C := by
  rcases h with rfl | rfl <;> decide

theorem proper_iff (hquote : IsQuote quote) (p : Piece) (s rest : Bytes) :
    p.Proper quote (s ++ quote :: rest) ↔ p.Proper quote s := by
  cases s with
  | cons b s => cases p <;> exact Iff.rfl
  | nil =>
    have hhead : ∀ {q : UInt8 → Bool}, q quote = false → ∀ b ∈ ([] ++ quote :: rest).head?, q b = false := by
      rintro q hq b ⟨⟩
      exact hq
    cases p with
    | decimal => simp [Piece.Proper, hquote.not_digit]
    | skip => simp [Piece.Proper, hquote.not_white]
    | _ => exact Iff.rfl

end IsQuote

namespace Scan

variable {quote b c : UInt8} {s t acc out rest text ds : Bytes} {e x : Extent} {p : Piece} {ps : List Piece} {n m : Nat}

/-! ## 2. Escapes, as they are read -/

theorem simpleEscape?_iff : simpleEscape? b = some c ↔ (b, c) ∈ Piece.letters := by
  constructor
  · intro h
    unfold simpleEscape? at h
    split at h <;> cases h
    all_goals simp [Piece.letters, ← UInt8.toNat_inj, *]
  · intro h
    have hall : Piece.letters.all (fun p => simpleEscape? p.1 == some p.2) = true := by decide
    exact eq_of_beq (List.all_eq_true.mp hall (b, c) h)

theorem decimal_value (h : ∀ b ∈ ds, isDigit b = true) :
    ds.foldl (fun acc b => acc * 10 + (b.toNat - 0x30)) 0 = value 10 ds := by
  induction ds using List.reverseRecOn with
  | nil => rfl
  | append_singleton s b ih =>
    obtain ⟨hs, hb⟩ := List.forall_mem_append.mp h
    have hb := hb b (List.mem_singleton_self b)
    have hdigit : digitOf 10 b = b.toNat - 0x30 := by
      obtain ⟨v, hv⟩ := Option.isSome_iff_exists.mp (isDigit_iff.mp hb)
      have := digit?_eq_some_iff.mp hv
      rw [digitOf, hv, Option.getD_some]
      omega
    rw [List.foldl_append, List.foldl_cons, List.foldl_nil, ih hs, value_concat, hdigit]

theorem value_pair (high low : UInt8) : value 16 [high, low] = digitOf 16 high * 16 + digitOf 16 low := by
  have hone : value 16 [high] = digitOf 16 high := by
    rw [← foldl_value, List.foldl_cons, List.foldl_nil, Nat.zero_mul, Nat.zero_add]
  rw [← hone]
  exact value_concat (s := [high]) low

theorem hexEscape_ok_iff : hexEscape s = .ok (out, x) ↔
    ∃ high low rest, s = high :: low :: rest ∧ IsDigits 16 [high, low] ∧
      out = [UInt8.ofNat (value 16 [high, low])] ∧ x = ⟨3, 0⟩ := by
  constructor
  · intro h
    unfold hexEscape at h
    split at h
    · next high rest =>
      split at h
      · cases h
      · next i hi =>
        split at h
        · next low rest =>
          split at h
          · cases h
          · next j hj =>
            cases h
            refine ⟨high, low, rest, rfl, by simp [IsDigits, hi, hj], ?_, rfl⟩
            rw [value_pair, digitOf, digitOf, hi, hj]
            rfl
        · cases h
    · cases h
  · rintro ⟨high, low, rest, rfl, hdigits, rfl, rfl⟩
    obtain ⟨i, hi⟩ := Option.isSome_iff_exists.mp (hdigits high (by simp))
    obtain ⟨j, hj⟩ := Option.isSome_iff_exists.mp (hdigits low (by simp))
    rw [value_pair, digitOf, digitOf, hexEscape]
    simp only [hi, hj, Option.getD_some]

def digitsAfter (code : Nat) (ds : Bytes) : Nat := ds.foldl (fun acc b => acc * 16 + digitOf 16 b) code

theorem le_digitsAfter (code : Nat) (ds : Bytes) : code ≤ digitsAfter code ds := by
  induction ds generalizing code with
  | nil => exact Nat.le_refl code
  | cons b ds ih =>
    refine Nat.le_trans ?_ (ih (code * 16 + digitOf 16 b))
    omega

theorem codeDigits_reads {code : Nat} (hds : IsDigits 16 ds) (ht : ∀ b ∈ t.head?, digit? 16 b = none)
    (hmax : digitsAfter code ds ≤ 0x7FFFFFFF) :
    codeDigits code n (ds ++ t) = (true, digitsAfter code ds, n + ds.length) := by
  induction ds generalizing code n with
  | nil =>
    cases t with
    | nil => rfl
    | cons b t =>
      rw [List.nil_append, codeDigits, ht b rfl]
      rfl
  | cons b ds ih =>
    obtain ⟨hb, hds⟩ := isDigits_cons.mp hds
    obtain ⟨d, hd⟩ := Option.isSome_iff_exists.mp hb
    have hdigit : digitOf 16 b = d := by rw [digitOf, hd, Option.getD_some]
    have hnext : digitsAfter code (b :: ds) = digitsAfter (code * 16 + d) ds := by rw [← hdigit]; rfl
    have hroom : ¬ codeRoom < code := by
      have := le_digitsAfter (code * 16 + d) ds
      rw [codeRoom]
      omega
    rw [hnext] at hmax ⊢
    rw [List.cons_append, codeDigits, hd]
    simp only [if_neg hroom, ih hds hmax, List.length_cons, Nat.add_assoc, Nat.add_comm 1]

theorem codeDigits_cut {code code' : Nat} (h : codeDigits code n s = (true, code', m)) :
    ∃ ds rest, s = ds ++ rest ∧ m = n + ds.length ∧ IsDigits 16 ds ∧ code' = digitsAfter code ds ∧
      (code ≤ 0x7FFFFFFF → code' ≤ 0x7FFFFFFF) := by
  fun_induction codeDigits code n s with
  | case1 => cases h
  | case2 code n b rest d hd hroom ih =>
    obtain ⟨ds, rest', rfl, rfl, hds, rfl, hmax⟩ := ih h
    have hdigit : digitOf 16 b = d := by rw [digitOf, hd, Option.getD_some]
    have hlt := (digit?_eq_some_iff.mp hd).1
    rw [codeRoom] at hroom
    refine ⟨b :: ds, rest', rfl, ?_, isDigits_cons.mpr ⟨by rw [hd]; rfl, hds⟩, ?_, fun _ => hmax (by omega)⟩
    · rw [List.length_cons]
      omega
    · rw [← hdigit]
      rfl
  | case3 code n b rest =>
    cases h
    exact ⟨[], b :: rest, rfl, rfl, List.forall_mem_nil _, rfl, id⟩
  | case4 code n =>
    cases h
    exact ⟨[], [], rfl, rfl, List.forall_mem_nil _, rfl, id⟩

theorem codeEscape_ok_iff : codeEscape s = .ok (out, x) ↔
    ∃ ds rest, s = 0x7B :: (ds ++ 0x7D :: rest) ∧ ds ≠ [] ∧ IsDigits 16 ds ∧ value 16 ds ≤ 0x7FFFFFFF ∧
      out = Utf8.extended (value 16 ds) ∧ x = ⟨3 + ds.length, 0⟩ := by
  constructor
  · intro h
    unfold codeEscape at h
    split at h
    · next o t =>
      split at h
      · next ho =>
        rw [eq_of_beq ho]
        split at h
        · cases h
        · next code n hdigits =>
          obtain ⟨ds, rest, rfl, hn, hds, hcode, hmax⟩ := codeDigits_cut hdigits
          rw [Nat.zero_add] at hn
          subst hn
          simp only [List.drop_left] at h
          split at h
          · cases h
          · next hne =>
            split at h
            · next hclose =>
              cases h
              cases rest with
              | nil => simp at hclose
              | cons c rest =>
                have hc : c = 0x7D := by simpa using hclose
                have hvalue : digitsAfter 0 ds = value 16 ds := foldl_value
                rw [hvalue] at hcode
                refine ⟨ds, rest, by rw [hc], ?_, hds, hcode ▸ hmax (Nat.zero_le _), by rw [hcode], rfl⟩
                rintro rfl
                exact hne rfl
            · cases h
      · cases h
    · cases h
  · rintro ⟨ds, rest, rfl, hne, hds, hmax, rfl, rfl⟩
    have hvalue : digitsAfter 0 ds = value 16 ds := foldl_value
    have hdigits : codeDigits 0 0 (ds ++ 0x7D :: rest) = (true, digitsAfter 0 ds, 0 + ds.length) :=
      codeDigits_reads hds (by rintro b ⟨⟩; rfl) (hvalue ▸ hmax)
    have hlen : ds.length ≠ 0 := fun h => hne (List.eq_nil_of_length_eq_zero h)
    simp only [codeEscape, hdigits, hvalue, Nat.zero_add, if_neg hlen, List.drop_left]
    rfl

def frontDigits (s : Bytes) : Bytes := (s.take 3).takeWhile isDigit

theorem frontDigits_eq (hlen : ds.length ≤ 3) (hds : ∀ b ∈ ds, isDigit b = true)
    (ht : ds.length < 3 → ∀ b ∈ t.head?, isDigit b = false) : frontDigits (ds ++ t) = ds := by
  rw [frontDigits, List.take_append, List.take_of_length_le hlen]
  refine takeWhile_front hds fun b hb => ?_
  rcases Nat.lt_or_eq_of_le hlen with hlt | heq
  · refine ht hlt b ?_
    rwa [List.head?_take, if_neg (by omega)] at hb
  · rw [heq] at hb
    cases hb

theorem frontDigits_cut (s : Bytes) : ∃ rest, s = frontDigits s ++ rest ∧ (frontDigits s).length ≤ 3 ∧
    (∀ b ∈ frontDigits s, isDigit b = true) ∧
    ((frontDigits s).length < 3 → ∀ b ∈ rest.head?, isDigit b = false) := by
  have hsplit := List.takeWhile_append_dropWhile (p := isDigit) (l := s.take 3)
  have hfront : frontDigits s = (s.take 3).takeWhile isDigit := rfl
  refine ⟨(s.take 3).dropWhile isDigit ++ s.drop 3, ?_, ?_, fun b hb => List.mem_takeWhile_imp hb, ?_⟩
  · rw [hfront, ← List.append_assoc, hsplit, List.take_append_drop]
  · exact (List.takeWhile_prefix _).length_le.trans (List.length_take_le ..)
  · intro hshort b hb
    have hstop := List.head?_dropWhile_not isDigit (s.take 3)
    cases hrest : (s.take 3).dropWhile isDigit with
    | nil =>
      -- all that were looked at are digits: fewer than three of them only where the text ends
      rw [hrest, List.append_nil, ← hfront] at hsplit
      have hlen := congrArg List.length hsplit
      rw [List.length_take] at hlen
      rw [hrest, List.nil_append, List.drop_of_length_le (by omega)] at hb
      cases hb
    | cons c q =>
      rw [hrest] at hb hstop
      cases hb
      simpa using hstop

theorem decimalEscape_ok_iff : decimalEscape s = .ok (out, x) ↔
    ∃ ds rest, s = ds ++ rest ∧ ds.length ≤ 3 ∧ (∀ b ∈ ds, isDigit b = true) ∧ value 10 ds ≤ 255 ∧
      (ds.length < 3 → ∀ b ∈ rest.head?, isDigit b = false) ∧ out = [UInt8.ofNat (value 10 ds)] ∧
      x = ⟨ds.length, 0⟩ := by
  have heq : decimalEscape s = if 255 < value 10 (frontDigits s) then
      .error (.decimalEscapeTooLarge, ⟨(frontDigits s).length + oneIfAny (s.drop (frontDigits s).length), 0⟩)
      else .ok ([UInt8.ofNat (value 10 (frontDigits s))], ⟨(frontDigits s).length, 0⟩) := by
    have hdigits : ∀ b ∈ frontDigits s, isDigit b = true := fun b hb => List.mem_takeWhile_imp hb
    rw [← decimal_value hdigits]
    rfl
  rw [heq]
  constructor
  · intro h
    split at h
    · cases h
    · next hmax =>
      cases h
      obtain ⟨rest, hs, hlen, hds, hrest⟩ := frontDigits_cut s
      exact ⟨frontDigits s, rest, hs, hlen, hds, Nat.not_lt.mp hmax, hrest, rfl, rfl⟩
  · rintro ⟨ds, rest, rfl, hlen, hds, hmax, hrest, rfl, rfl⟩
    rw [frontDigits_eq hlen hds hrest, if_neg (Nat.not_lt.mpr hmax)]

theorem isWhite_break (hb : isBreak b = true) : isWhite b = true := by rw [isWhite, hb, Bool.or_true]

theorem whiteExtent_bytes (s : Bytes) : (whiteExtent s).bytes = (s.takeWhile isWhite).length := by
  fun_induction whiteExtent s with
  | case1 => rfl
  | case2 b hb c rest hc e ih =>
    have hc : isBreak c = true := (Bool.and_eq_true_iff.mp hc).1
    rw [List.takeWhile_cons_of_pos (isWhite_break hb), List.takeWhile_cons_of_pos (isWhite_break hc)]
    exact congrArg (· + 2) ih
  | case3 b hb c rest hc e ih =>
    rw [List.takeWhile_cons_of_pos (isWhite_break hb)]
    exact congrArg (· + 1) ih
  | case4 b hb =>
    rw [List.takeWhile_cons_of_pos (isWhite_break hb)]
    rfl
  | case5 b rest hb hw ih =>
    have hwhite : isWhite b = true := by rw [isWhite, hw, Bool.true_or]
    rw [List.takeWhile_cons_of_pos hwhite]
    exact congrArg (· + 1) ih
  | case6 b rest hb hw =>
    have hwhite : ¬ isWhite b = true := by simp [isWhite, hb, hw]
    rw [List.takeWhile_cons_of_neg hwhite]
    rfl

theorem breakLength_ending {ending : Bytes} (h : ending ∈ Piece.endings) (ht : Level t) :
    breakLength (ending ++ t) = ending.length := by
  rw [breakLength_level ht]
  have hall : ∀ ending ∈ Piece.endings, breakLength ending = ending.length := by decide
  exact hall ending h

theorem ending_front {ending : Bytes} (h : ending ∈ Piece.endings) :
    ∃ b q, ending = b :: q ∧ isBreak b = true ∧ simpleEscape? b = none := by
  simp only [Piece.endings, List.mem_cons, List.not_mem_nil, or_false] at h
  rcases h with rfl | rfl | rfl | rfl <;> exact ⟨_, _, rfl, rfl, rfl⟩

theorem ending_of_break (hb : isBreak b = true) (s : Bytes) : (b :: s).take (breakLength (b :: s)) ∈ Piece.endings := by
  rcases breakLength_cases hb s with ⟨h1, -⟩ | ⟨c, s, rfl, hc, hne, h2, -⟩
  · rw [h1]
    rcases isBreak_cases hb with rfl | rfl <;> simp [Piece.endings]
  · rw [h2]
    rcases isBreak_cases hb with rfl | rfl <;> rcases isBreak_cases hc with rfl | rfl
    · exact absurd rfl hne
    · simp [Piece.endings]
    · simp [Piece.endings]
    · exact absurd rfl hne

/-! ## 3. Pieces, as they are read -/

theorem isDigits_iff : IsDigits 10 ds ↔ ∀ b ∈ ds, isDigit b = true := by
  simp only [IsDigits, isDigit_iff]

theorem escape_digit (h : isDigit b = true) (s : Bytes) : escape b s = decimalEscape (b :: s) := by
  have hsimple : simpleEscape? b = none := by
    cases hb : simpleEscape? b with
    | none => rfl
    | some c =>
      have hall : Piece.letters.all (fun p => ! isDigit p.1) = true := by decide
      have hnone := List.all_eq_true.mp hall (b, c) (simpleEscape?_iff.mp hb)
      rw [h] at hnone
      cases hnone
  have hne : ∀ c, isDigit c = false → ¬ (b == c) = true := by
    intro c hc hb
    rw [eq_of_beq hb, hc] at h
    cases h
  rw [escape, hsimple]
  simp only [isDigit_plain h, hne 0x78 rfl, hne 0x75 rfl, hne 0x7A rfl, h, Bool.false_eq_true, if_false, if_true]

theorem escape_piece (h : escape c s = .ok (out, x)) :
    ∃ (p : Piece) (q t : Bytes), c :: s = q ++ t ∧ p.bytes = 0x5C :: q ∧ x.bytes = q.length ∧ p.Proper quote t ∧
      p.meaning = out := by
  unfold escape at h
  split at h
  · next byte hsimple =>
    cases h
    exact ⟨.letter c byte, [c], s, rfl, rfl, rfl, simpleEscape?_iff.mp hsimple, rfl⟩
  · split at h
    · next hb =>
      cases h
      refine ⟨.newline ((c :: s).take (breakLength (c :: s))), _, _, (List.take_append_drop _ _).symm, rfl, ?_,
        ending_of_break hb s, rfl⟩
      rw [List.length_take, Nat.min_eq_left (breakLength_le _)]
    · split at h
      · next hx =>
        obtain ⟨high, low, rest, rfl, hdigits, rfl, rfl⟩ := hexEscape_ok_iff.mp h
        rw [eq_of_beq hx]
        exact ⟨.hex high low, [0x78, high, low], rest, rfl, rfl, rfl, hdigits, rfl⟩
      · split at h
        · next hu =>
          obtain ⟨ds, rest, rfl, hne, hds, hmax, rfl, rfl⟩ := codeEscape_ok_iff.mp h
          rw [eq_of_beq hu]
          refine ⟨.code ds, 0x75 :: 0x7B :: (ds ++ [0x7D]), rest, by simp, rfl, ?_, ⟨hne, hds, hmax⟩, rfl⟩
          simp [Nat.add_comm 3]
        · split at h
          · next hz =>
            cases h
            rw [eq_of_beq hz]
            refine ⟨.skip (s.takeWhile isWhite), 0x7A :: s.takeWhile isWhite, s.dropWhile isWhite, ?_, rfl, ?_, ?_, rfl⟩
            · rw [List.cons_append, List.takeWhile_append_dropWhile]
            · rw [List.length_cons, ← whiteExtent_bytes]
              rfl
            · refine ⟨fun b hb => List.mem_takeWhile_imp hb, fun b hb => ?_⟩
              have hstop := List.head?_dropWhile_not isWhite s
              rw [Option.mem_def.mp hb] at hstop
              simpa using hstop
          · split at h
            · next hd =>
              obtain ⟨ds, rest, hs, hlen, hds, hmax, hrest, rfl, rfl⟩ := decimalEscape_ok_iff.mp h
              cases ds with
              | nil =>
                rw [List.nil_append] at hs
                have := hrest (by decide) c (by rw [← hs]; rfl)
                rw [hd] at this
                cases this
              | cons d ds =>
                exact ⟨.decimal (d :: ds), d :: ds, rest, hs, rfl, rfl,
                  ⟨Nat.succ_pos _, hlen, isDigits_iff.mpr hds, hmax, hrest⟩, rfl⟩
            · cases h

theorem escape_reads (hp : p.Proper quote t) (ht : Level t) (hraw : ∀ b, p ≠ .raw b) :
    ∃ c q k, p.bytes = 0x5C :: c :: q ∧ escape c (q ++ t) = .ok (p.meaning, ⟨(c :: q).length, k⟩) := by
  cases p with
  | raw b => exact absurd rfl (hraw b)
  | letter name byte =>
    refine ⟨name, [], 0, rfl, ?_⟩
    rw [escape, simpleEscape?_iff.mpr hp]
    rfl
  | hex high low => exact ⟨0x78, [high, low], 0, rfl, hexEscape_ok_iff.mpr ⟨high, low, t, rfl, hp, rfl, rfl⟩⟩
  | decimal digits =>
    obtain ⟨hpos, hlen, hdigits, hmax, hbehind⟩ := hp
    cases digits with
    | nil => cases hpos
    | cons c ds =>
      have hall := isDigits_iff.mp hdigits
      refine ⟨c, ds, 0, rfl, ?_⟩
      rw [escape_digit (hall c List.mem_cons_self)]
      exact decimalEscape_ok_iff.mpr ⟨c :: ds, t, rfl, hlen, hall, hmax, hbehind, rfl, rfl⟩
  | code digits =>
    obtain ⟨hne, hdigits, hmax⟩ := hp
    refine ⟨0x75, 0x7B :: (digits ++ [0x7D]), 0, rfl, ?_⟩
    have hread := codeEscape_ok_iff.mpr ⟨digits, t, rfl, hne, hdigits, hmax, rfl, rfl⟩
    have hsplit : 0x7B :: (digits ++ [0x7D]) ++ t = 0x7B :: (digits ++ 0x7D :: t) := by simp
    have hlength : (0x75 :: 0x7B :: (digits ++ [0x7D])).length = 3 + digits.length := by simp [Nat.add_comm 3]
    rw [hsplit, hlength]
    exact hread
  | newline ending =>
    have hlength := breakLength_ending hp ht
    obtain ⟨b, q, rfl, hb, hsimple⟩ := ending_front hp
    refine ⟨b, q, 1, rfl, ?_⟩
    rw [escape, hsimple]
    simp only [hb, if_true]
    rw [← List.cons_append, hlength]
    rfl
  | skip white =>
    obtain ⟨hwhite, hbehind⟩ := hp
    refine ⟨0x7A, white, (whiteExtent (white ++ t)).lines, rfl, ?_⟩
    have hextent : (whiteExtent (white ++ t)).bytes = white.length := by
      rw [whiteExtent_bytes, takeWhile_front hwhite hbehind]
    show Except.ok ([], (whiteExtent (white ++ t)).more 1) = _
    rw [Extent.more, hextent]
    rfl

theorem shortBody_skip (p s : Bytes) :
    shortBody quote p.length (p ++ s) acc e = shortBody quote 0 s acc e := by
  induction p with
  | nil => rfl
  | cons b p ih => exact ih

/-! ## 4. Strings -/

theorem level_written (hquote : IsQuote quote) (h : Piece.AllProper quote ps) (rest : Bytes) :
    Level (Piece.written ps ++ quote :: rest) := by
  cases ps with
  | nil =>
    rintro b ⟨⟩
    exact hquote.plain
  | cons p ps =>
    cases p with
    | raw b =>
      obtain ⟨⟨-, -, hlf, hcr⟩, -⟩ := h
      rintro b ⟨⟩
      simp [isBreak, hlf, hcr]
    | _ =>
      rintro b ⟨⟩
      rfl

theorem piece_reads (hquote : IsQuote quote) (hp : p.Proper quote t) (ht : Level t) (acc : Bytes) (e : Extent) :
    ∃ n, shortBody quote 0 (p.bytes ++ t) acc e =
      shortBody quote 0 t (p.meaning.reverse ++ acc) ⟨e.bytes + p.bytes.length, e.lines + n⟩ := by
  by_cases hraw : ∃ b, p = .raw b
  · obtain ⟨b, rfl⟩ := hraw
    obtain ⟨hne, hslash, hlf, hcr⟩ := hp
    have hplain : ¬ isBreak b = true := by simp [isBreak, hlf, hcr]
    exact ⟨0, shortBody_other hplain (by simpa using hne) (by simpa using hslash)⟩
  · obtain ⟨c, q, n, hbytes, hescape⟩ := escape_reads hp ht fun b hb => hraw ⟨b, hb⟩
    refine ⟨n, ?_⟩
    rw [hbytes, List.cons_append, List.cons_append,
      shortBody_escape (by decide) (by simpa using hquote.ne_slash.symm) rfl hescape]
    refine (shortBody_skip (c :: q) t).trans ?_
    simp only [Extent.append, Extent.more, List.length_cons, Nat.add_assoc, Nat.add_comm 1]

theorem shortBody_reads (hquote : IsQuote quote) (h : Piece.AllProper quote ps) (rest acc : Bytes) (e : Extent) :
    ∃ n, shortBody quote 0 (Piece.written ps ++ quote :: rest) acc e =
      (.closed (acc.reverse ++ Piece.meanings ps), ⟨e.bytes + ((Piece.written ps).length + 1), e.lines + n⟩) := by
  induction ps generalizing acc e with
  | nil =>
    refine ⟨0, ?_⟩
    rw [Piece.written, List.flatMap_nil, List.nil_append, shortBody_close (by simp [hquote.plain]) (beq_self_eq_true quote)]
    simp [Piece.meanings, Extent.more]
  | cons p ps ih =>
    obtain ⟨hp, hps⟩ := h
    obtain ⟨n, hn⟩ := piece_reads hquote ((hquote.proper_iff p _ rest).mpr hp) (level_written hquote hps rest) acc e
    obtain ⟨m, hm⟩ := ih hps (p.meaning.reverse ++ acc) ⟨e.bytes + p.bytes.length, e.lines + n⟩
    refine ⟨n + m, ?_⟩
    rw [Piece.written_cons]
    refine hn.trans (hm.trans ?_)
    simp [Piece.written, Piece.meanings, Nat.add_assoc]

theorem shortBody_pieces {skip : Nat} (hquote : IsQuote quote) (h : shortBody quote skip s acc e = (.closed text, x)) :
    ∃ ps rest, Piece.AllProper quote ps ∧ s.drop skip = Piece.written ps ++ quote :: rest := by
  fun_induction shortBody quote skip s acc e with
  | case1 => cases h
  | case2 skip b s acc e ih => exact ih h
  | case3 => cases h
  | case4 b s acc e hb hclose =>
    rw [eq_of_beq hclose]
    exact ⟨[], s, trivial, rfl⟩
  | case5 => cases h
  | case6 b acc e hb _ hslash c s out x hescape ih =>
    obtain ⟨ps, rest, hps, hs⟩ := ih h
    obtain ⟨p, q, t, hsplit, hbytes, hx, hp, -⟩ := escape_piece hescape
    rw [hx, hsplit, List.drop_left] at hs
    rw [hs] at hp
    refine ⟨p :: ps, rest, ⟨(hquote.proper_iff p _ rest).mp hp, hps⟩, ?_⟩
    rw [eq_of_beq hslash, hsplit, hs, Piece.written_cons, hbytes]
    rfl
  | case7 => cases h
  | case8 b s acc e hb hclose hslash ih =>
    obtain ⟨ps, rest, hps, hs⟩ := ih h
    rw [List.drop_zero] at hs
    refine ⟨.raw b :: ps, rest, ⟨⟨by simpa using hclose, by simpa using hslash, ?_, ?_⟩, hps⟩, ?_⟩
    · rintro rfl
      exact hb rfl
    · rintro rfl
      exact hb rfl
    · rw [hs]
      rfl

end Scan

namespace Cursor

open Scan

variable {quote : UInt8} {ps : List Piece} {s : Bytes} {offset line : Nat}

theorem scanHere_quote (hquote : IsQuote quote) (s : Bytes) (offset line : Nat) :
    Cursor.scanHere ⟨quote :: s, offset, line⟩ = Cursor.scanQuoted ⟨quote :: s, offset, line⟩ quote s := by
  rcases hquote with rfl | rfl <;> rfl

theorem halts_quote (hquote : IsQuote quote) (s : Bytes) : Halts (quote :: s) := by
  rcases hquote with rfl | rfl
  all_goals
    refine ⟨?_, ?_⟩
    · rintro b ⟨⟩
      exact ⟨rfl, rfl⟩
    · rw [dashes_iff]
      rintro ⟨h, -⟩
      cases h

theorem scan_quoted (hquote : IsQuote quote) (h : Piece.AllProper quote ps) (rest : Bytes) (offset line : Nat) :
    ∃ n, Cursor.scanHere ⟨quote :: (Piece.written ps ++ quote :: rest), offset, line⟩ =
      (.ok ⟨.str (Piece.meanings ps), line + n, offset, quote :: (Piece.written ps ++ [quote])⟩,
        ⟨rest, offset + ((Piece.written ps).length + 2), line + n⟩) := by
  obtain ⟨n, hn⟩ := shortBody_reads hquote h rest [] ⟨1, 0⟩
  refine ⟨n, ?_⟩
  have hlength : (quote :: (Piece.written ps ++ [quote])).length = (Piece.written ps).length + 2 := by simp
  have hsplit : quote :: (Piece.written ps ++ quote :: rest) = quote :: (Piece.written ps ++ [quote]) ++ rest := by simp
  rw [scanHere_quote hquote, scanQuoted, hn, ← hlength, ← take_front, ← hsplit, hlength]
  simp only [List.reverse_nil, List.nil_append, Nat.zero_add, Nat.add_comm 1]

theorem pieces_of_scan {x : Lexeme} {c : Cursor} (hquote : IsQuote quote)
    (h : Cursor.scanHere ⟨quote :: s, offset, line⟩ = (.ok x, c)) :
    ∃ ps rest, Piece.AllProper quote ps ∧ s = Piece.written ps ++ quote :: rest := by
  rw [scanHere_quote hquote, scanQuoted] at h
  split at h
  · next text e hbody => exact shortBody_pieces hquote hbody
  · cases h
  · cases h

/-- **Quoted strings.** Pieces between quotes are one string, of what the pieces mean one after another. A source whose
    first token begins with a quote, and that does not go on with pieces up to a closing quote, is refused. -/
theorem quoted_strings {quote : UInt8} (hquote : IsQuote quote) :
    (∀ ps, Piece.AllProper quote ps →
      (∀ rest offset line, ∃ n,
        Cursor.scan ⟨quote :: (Piece.written ps ++ quote :: rest), offset, line⟩ =
          (.ok ⟨.str (Piece.meanings ps), line + n, offset, quote :: (Piece.written ps ++ [quote])⟩,
            ⟨rest, offset + ((Piece.written ps).length + 2), line + n⟩)) ∧
      ∃ x y, Lexer.tokenize (quote :: (Piece.written ps ++ [quote])) = ([x, y], none) ∧
        x.token = .str (Piece.meanings ps) ∧ y.token = .eof) ∧
    ∀ first gap s : Bytes, Lexer.FirstLine first (gap ++ quote :: s) → Gap gap (quote :: s) →
      ((∃ e, Lexer.start (first ++ (gap ++ quote :: s)) = .error e) ↔
        ¬ ∃ ps rest, Piece.AllProper quote ps ∧ s = Piece.written ps ++ quote :: rest) := by
  have hscan : ∀ s offset line, Cursor.scan ⟨quote :: s, offset, line⟩ = Cursor.scanHere ⟨quote :: s, offset, line⟩ :=
    fun s offset line => by
      rw [scan, blanks_halts (halts_quote hquote s)]
      rfl
  refine ⟨fun ps hps => ⟨fun rest offset line => ?_, ?_⟩, fun first gap s hfirst hgap => ?_⟩
  · rw [hscan]
    exact scan_quoted hquote hps rest offset line
  · obtain ⟨n, hn⟩ := scan_quoted hquote hps [] 0 1
    rw [← hscan] at hn
    have hfirst : (quote :: (Piece.written ps ++ [quote])).head? ≠ some 0x23 := by
      rcases hquote with rfl | rfl <;> simp
    exact ⟨_, _, Lexer.tokenize_single hfirst hn (by simp), rfl, rfl⟩
  · obtain ⟨line, hline⟩ := scan_start hfirst hgap (halts_quote hquote s)
    rw [Lexer.start, hline]
    constructor
    · rintro ⟨e, he⟩ ⟨ps, rest, hps, rfl⟩
      obtain ⟨n, hn⟩ := scan_quoted hquote hps rest (first.length + gap.length) line
      rw [hn] at he
      cases he
    · intro hnone
      rcases hread : scanHere ⟨quote :: s, first.length + gap.length, line⟩ with ⟨e | x, c⟩
      · exact ⟨e, rfl⟩
      · exact absurd (pieces_of_scan hquote hread) hnone

/-- A piece of each kind: a decimal escape of one digit and a skip end where a byte does not go on with them. What
    stands between the quotes of a source that fails, here a decimal escape above 255, is no pieces. -/
theorem quoted_strings_mixed :
    (∃ x y, Lexer.tokenize [0x22, 0x5C, 0x37, 0x61, 0x5C, 0x6E, 0x5C, 0x78, 0x34, 0x31, 0x5C, 0x75, 0x7B, 0x45, 0x39,
        0x7D, 0x5C, 0x0D, 0x0A, 0x5C, 0x7A, 0x20, 0x0A, 0x62, 0x22] = ([x, y], none) ∧
      x.token = .str [0x07, 0x61, 0x0A, 0x41, 0xC3, 0xA9, 0x0A, 0x62] ∧ y.token = .eof) ∧
    ¬ ∃ ps rest, Piece.AllProper 0x27 ps ∧ [0x5C, 0x34, 0x30, 0x30, 0x27] = Piece.written ps ++ 0x27 :: rest := by
  have hproper : Piece.AllProper 0x22 [.decimal [0x37], .raw 0x61, .letter 0x6E 0x0A, .hex 0x34 0x31, .code [0x45, 0x39],
      .newline [0x0D, 0x0A], .skip [0x20, 0x0A], .raw 0x62] := by
    decide
  exact ⟨((quoted_strings (Or.inl rfl)).1 _ hproper).2,
    ((quoted_strings (Or.inr rfl)).2 [] [] _ (Or.inl ⟨rfl, by decide⟩) (.none _)).mp ⟨_, rfl⟩⟩

end Cursor

end LuaMachine
