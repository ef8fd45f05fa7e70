/-
  LONG BRACKETS. Between brackets of a level stands the text up to the first bracket that closes it,
  whatever other brackets and line breaks it holds.

  * **`Cursor.long_brackets`** -- long strings and long comments, and those that are not closed.
-/
import LuaMachine.Proofs.Lexer.Tiling

namespace LuaMachine

namespace Scan

/-! ## 1. Texts in brackets -/

def bracketed (level : Nat) (body : Bytes) : Bytes := opening level ++ (body ++ closing level)

/-- A text with each of its line breaks, read greedily from the left, as `\n`. -/
def unified : Bytes → Bytes
  | [] => []
  | b :: rest =>
    if isBreak b then
      match rest with
      | c :: rest' => if isBreak c && b != c then 0x0A :: unified rest' else 0x0A :: unified (c :: rest')
      | [] => [0x0A]
    else b :: unified rest

def Level (s : Bytes) : Prop := ∀ b ∈ s.head?, isBreak b = false

variable {level : Nat} {s t acc body rest : Bytes} {e f x : Extent} {b c : UInt8}

theorem level_closing (level : Nat) (rest : Bytes) : Level (closing level ++ rest) := by
  intro b hb
  cases hb
  rfl

theorem Open.tail {n : Nat} (h : Open level (n + 1) (b :: s)) : Open level n s :=
  fun k hk => h (k + 1) (Nat.succ_lt_succ hk)

theorem Open.drop {n : Nat} (h : Open level n s) (m : Nat) : Open level (n - m) (s.drop m) := by
  intro k hk
  rw [List.drop_drop]
  exact h (m + k) (by omega)

theorem open_append (h : Open level body.length (body ++ closing level)) (rest : Bytes) :
    Open level body.length (body ++ (closing level ++ rest)) := by
  intro k hk hclose
  refine h k hk ?_
  have hlong : (closing level).length ≤ ((body ++ closing level).drop k).length := by
    rw [List.length_drop, List.length_append]
    omega
  rw [← List.append_assoc, List.drop_append_of_le_length (by rw [List.length_append]; omega)] at hclose
  exact List.prefix_of_prefix_length_le hclose (List.prefix_append _ rest) hlong

theorem open_of_not_infix (h : ¬ closing level <:+: s) (n : Nat) : Open level n s := by
  intro k _ hclose
  refine h ?_
  exact hclose.isInfix.trans (List.drop_suffix k s).isInfix

/-! ## 2. Reading up to the closing bracket -/

theorem longBody_pair (hb : isBreak b = true) (hc : (isBreak c && b != c) = true) :
    longBody level (b :: c :: s) acc e = longBody level s (0x0A :: acc) ⟨e.bytes + 2, e.lines + 1⟩ := by
  have hopen : ¬ (b == 0x5D && closes level (c :: s)) = true := by
    rw [← closing_iff]
    exact not_closing_break hb
  rw [bne_comm] at hc
  rw [longBody, if_neg hopen, if_pos hb]
  simp only [hc, if_true]

theorem longBody_single (hb : isBreak b = true) (hs : ∀ c ∈ s.head?, (isBreak c && b != c) = false) :
    longBody level (b :: s) acc e = longBody level s (0x0A :: acc) ⟨e.bytes + 1, e.lines + 1⟩ := by
  have hopen : ¬ (b == 0x5D && closes level s) = true := by
    rw [← closing_iff]
    exact not_closing_break hb
  rw [longBody.eq_def]
  simp only [if_neg hopen, if_pos hb]
  cases s with
  | nil => rfl
  | cons c s =>
    have hc := hs c rfl
    rw [bne_comm] at hc
    simp only [hc, Bool.false_eq_true, if_false]

theorem longBody_reads (hopen : Open level s.length (s ++ t)) (ht : Level t) :
    longBody level (s ++ t) acc e =
      longBody level t ((unified s).reverse ++ acc) ⟨e.bytes + s.length, e.lines + lineBreaks s⟩ := by
  fun_induction unified s generalizing acc e with
  | case1 => simp [lineBreaks]
  | case2 b hb c s hc ih =>
    rw [List.cons_append, List.cons_append, longBody_pair hb hc, ih hopen.tail.tail, lineBreaks, if_pos hb]
    simp [hc, Nat.add_assoc, Nat.add_comm 2]
  | case3 b hb c s hc ih =>
    have hsingle : ∀ d ∈ (c :: s ++ t).head?, (isBreak d && b != d) = false := by
      rintro d ⟨⟩
      simpa using hc
    rw [List.cons_append, longBody_single hb hsingle, ih hopen.tail, lineBreaks, if_pos hb]
    simp [hc, Nat.add_assoc, Nat.add_comm 1]
  | case4 b hb =>
    have hsingle : ∀ d ∈ t.head?, (isBreak d && b != d) = false := fun d hd => by rw [ht d hd]; rfl
    rw [List.singleton_append, longBody_single hb hsingle]
    simp [lineBreaks, hb]
  | case5 b s hb ih =>
    have hclose : ¬ (b == 0x5D && closes level (s ++ t)) = true := by
      rw [← closing_iff]
      exact hopen 0 (Nat.succ_pos _)
    rw [List.cons_append, longBody_other hclose hb, ih hopen.tail, lineBreaks_plain (by simpa using hb)]
    simp [Extent.more, Nat.add_assoc, Nat.add_comm 1]

theorem breakLength_level (hs : Level t) (s : Bytes) : breakLength (s ++ t) = breakLength s := by
  cases s with
  | nil =>
    cases t with
    | nil => rfl
    | cons c t =>
      have hc := hs c rfl
      cases t <;> simp [breakLength, hc]
  | cons b s =>
    cases s with
    | nil =>
      cases t with
      | nil => rfl
      | cons c t => simp [breakLength, hs c rfl]
    | cons c s => rfl

theorem lineBreaks_drop (s : Bytes) :
    lineBreaks s = (if breakLength s = 0 then 0 else 1) + lineBreaks (s.drop (breakLength s)) := by
  cases s with
  | nil => rfl
  | cons b s =>
    by_cases hb : isBreak b = true
    · rw [if_neg (Nat.pos_iff_ne_zero.mp (breakLength_pos hb s))]
      rcases breakLength_cases hb s with ⟨h1, hlines⟩ | ⟨c, s, rfl, -, -, h2, hlines⟩
      · rw [h1, hlines]
        rfl
      · rw [h2, hlines]
        rfl
    · have hzero : breakLength (b :: s) = 0 := by
        cases s <;> simp [breakLength, hb]
      rw [hzero, if_pos rfl, Nat.zero_add]
      rfl

theorem longText_reads (hopen : Open level s.length (s ++ t)) (ht : Level t) :
    longText level (s ++ t) =
      longBody level t (unified (s.drop (breakLength s))).reverse ⟨s.length, lineBreaks s⟩ := by
  have hle := breakLength_le s
  have hrest : Open level (s.drop (breakLength s)).length (s.drop (breakLength s) ++ t) := by
    have := hopen.drop (breakLength s)
    rwa [List.drop_append_of_le_length hle, ← List.length_drop] at this
  rw [longText, breakLength_level ht, List.drop_append_of_le_length hle, longBody_reads hrest ht, lineBreaks_drop s]
  simp only [List.append_nil, List.length_drop]
  rw [Nat.add_sub_cancel' hle]

theorem longBody_closing (rest : Bytes) :
    longBody level (closing level ++ rest) acc e = (true, acc.reverse, e.more (level + 2)) :=
  longBody_close (closing_iff.mp (List.prefix_append (closing level) rest))

theorem longText_closed_reads (hopen : Open level body.length (body ++ closing level)) (rest : Bytes) :
    longText level (body ++ (closing level ++ rest)) =
      (true, unified (body.drop (breakLength body)), ⟨body.length + (level + 2), lineBreaks body⟩) := by
  rw [longText_reads (open_append hopen rest) (level_closing level rest), longBody_closing, List.reverse_reverse]
  rfl

theorem longText_unfinished (h : ¬ closing level <:+: s) :
    longText level s = (false, unified (s.drop (breakLength s)), ⟨s.length, lineBreaks s⟩) := by
  have hlevel : Level [] := by simp [Level]
  have hopen : Open level s.length (s ++ []) := by
    rw [List.append_nil]
    exact open_of_not_infix h _
  have := longText_reads hopen hlevel
  rw [List.append_nil] at this
  rw [this, longBody, List.reverse_reverse]

theorem opening_level (level : Nat) (s : Bytes) :
    longLevel? (List.replicate level 0x3D ++ 0x5B :: s) = some level ∧
      (List.replicate level 0x3D ++ 0x5B :: s).drop (level + 1) = s := by
  refine ⟨longLevel?_signs level s, ?_⟩
  simp [List.drop_append]

theorem opening_append (level : Nat) (s : Bytes) :
    opening level ++ s = 0x5B :: (List.replicate level 0x3D ++ 0x5B :: s) := by
  simp [opening]

theorem length_opening (level : Nat) : (opening level).length = level + 2 := by simp [opening]

theorem length_closing (level : Nat) : (closing level).length = level + 2 := by simp [closing]

theorem length_bracketed (level : Nat) (body : Bytes) :
    (bracketed level body).length = body.length + (level + 2) + (level + 2) := by
  rw [bracketed, List.length_append, List.length_append, length_opening, length_closing]
  omega

theorem bracketed_append (level : Nat) (body rest : Bytes) :
    bracketed level body ++ rest = opening level ++ (body ++ (closing level ++ rest)) := by
  simp [bracketed]

/-! ## 3. Comments -/

theorem comment_opening (level : Nat) (s : Bytes) :
    comment (opening level ++ s) = ((longText level s).1, (longText level s).2.2.more (level + 2)) := by
  obtain ⟨hlevel, hdrop⟩ := opening_level level s
  rw [opening_append, comment]
  simp only [hlevel, hdrop]
  rfl

theorem comment_bracketed (hopen : Open level body.length (body ++ closing level)) (rest : Bytes) :
    comment (bracketed level body ++ rest) = (true, ⟨(bracketed level body).length, lineBreaks body⟩) := by
  rw [bracketed_append, comment_opening, longText_closed_reads hopen rest, length_bracketed]
  rfl

theorem blanks_skip (p s : Bytes) (e : Extent) : blanks p.length (p ++ s) e = blanks 0 s e := by
  induction p with
  | nil => rfl
  | cons b p ih => exact ih

theorem blanks_break (hb : isBreak b = true) (s : Bytes) (e : Extent) :
    blanks 0 (b :: s) e =
      blanks (breakLength (b :: s) - 1) s ⟨e.bytes + breakLength (b :: s), e.lines + 1⟩ := by
  cases s <;> simp [blanks, hb]

theorem blanks_blank (hb : ¬ isBreak b = true) (hw : isBlank b = true) (s : Bytes) (e : Extent) :
    blanks 0 (b :: s) e = blanks 0 s (e.more 1) := by
  cases s <;> simp [blanks, hb, hw]

theorem blanks_dashes (s : Bytes) (e : Extent) :
    blanks 0 (0x2D :: 0x2D :: s) e =
      if (comment s).1 then blanks ((comment s).2.bytes + 1) (0x2D :: s) ((e.more 2).append (comment s).2)
      else (false, (e.more 2).append (comment s).2) := rfl

theorem blanks_comment (h : comment (s ++ rest) = (true, x)) (hx : x.bytes = s.length) :
    blanks 0 (0x2D :: 0x2D :: (s ++ rest)) e = blanks 0 rest ((e.more 2).append x) := by
  have hskip := blanks_skip (0x2D :: s) rest ((e.more 2).append x)
  rw [List.length_cons, ← hx, List.cons_append] at hskip
  rw [blanks_dashes, h, ← hskip]
  rfl

theorem blanks_unfinished (h : comment s = (false, x)) :
    blanks 0 (0x2D :: 0x2D :: s) e = (false, (e.more 2).append x) := by
  rw [blanks_dashes, h]
  rfl

theorem append_append (e f x : Extent) : (e.append f).append x = e.append (f.append x) := by
  simp only [Extent.append, Nat.add_assoc]

theorem more_append (e f : Extent) (n : Nat) : (e.append f).more n = e.append (f.more n) := by
  simp only [Extent.append, Extent.more, Nat.add_assoc]

theorem blanks_append (skip : Nat) (s : Bytes) (e f : Extent) :
    blanks skip s (e.append f) = ((blanks skip s f).1, e.append (blanks skip s f).2) := by
  fun_induction blanks skip s f with
  | case1 skip f => cases skip <;> rfl
  | case2 skip b s f ih => exact ih
  | case3 b s f hb n ih =>
    rw [blanks_break hb, ← ih]
    simp only [Extent.append, Nat.add_assoc]
    rfl
  | case4 b s f hb hw ih => rw [blanks_blank hb hw, more_append, ih]
  | case5 b f hb hw hdash c s hc x hcomment ih =>
    rw [eq_of_beq hc] at ih
    rw [eq_of_beq hdash, eq_of_beq hc, blanks_dashes, hcomment, if_pos rfl, more_append, append_append]
    exact ih
  | case6 b f hb hw hdash c s hc complete x hcomment hcomplete =>
    rw [eq_of_beq hdash, eq_of_beq hc, blanks_dashes, hcomment, if_neg hcomplete, more_append, append_append]
  | case7 b f hb hw hdash c s hc => simp [blanks, hb, hw, hdash, hc]
  | case8 b f hb hw hdash => simp [blanks, hb, hw, hdash]
  | case9 b s f hb hw hdash => cases s <;> simp [blanks, hb, hw, hdash]

end Scan

theorem Lexer.tokenize_single {source : Bytes} {x : Lexeme} {offset line : Nat} (hfirst : source.head? ≠ some 0x23)
    (h : Cursor.scan ⟨source, 0, 1⟩ = (.ok x, ⟨[], offset, line⟩)) (htoken : x.token ≠ .eof) :
    tokenize source = ([x, ⟨.eof, line, offset, []⟩], none) := by
  have hstart : Cursor.start source = ⟨source, 0, 1⟩ := by
    rw [Cursor.start]
    simp [hfirst]
  cases source with
  | nil =>
    cases h
    exact absurd rfl htoken
  | cons b s =>
    rw [tokenize, hstart, List.length_cons, tokensFrom, h]
    simp only [if_neg htoken]
    rfl

namespace Cursor

open Scan

variable {c : Cursor} {e : Extent} {level : Nat} {body s : Bytes}

/-! ## 4. Scans -/

theorem past_append (c : Cursor) (e f : Extent) : c.past (e.append f) = (c.past e).past f := by
  simp only [past, Extent.append, List.drop_drop, Nat.add_assoc]

theorem scan_behind (h : blanks 0 c.rest Extent.none = blanks 0 (c.rest.drop e.bytes) e) : c.scan = (c.past e).scan := by
  have hnone : e.append Extent.none = e := rfl
  have hcounts := blanks_append 0 (c.rest.drop e.bytes) e Extent.none
  rw [hnone, ← h] at hcounts
  have hrest : (c.past e).rest = c.rest.drop e.bytes := rfl
  rw [scan, scan, hrest, hcounts]
  rcases blanks 0 (c.rest.drop e.bytes) Extent.none with ⟨complete | complete, f⟩
  · simp only [failAtEnd, past_append]
  · simp only [past_append]

variable {offset line : Nat}

theorem take_front {p rest : Bytes} (y : Token) (n : Nat) :
    Cursor.take ⟨p ++ rest, offset, line⟩ y ⟨p.length, n⟩ =
      (.ok ⟨y, line + n, offset, p⟩, ⟨rest, offset + p.length, line + n⟩) := by
  simp [Cursor.take, past]

theorem scan_opening (level : Nat) (s : Bytes) :
    Cursor.scan ⟨opening level ++ s, offset, line⟩ =
      Cursor.scanBracket ⟨opening level ++ s, offset, line⟩ (List.replicate level 0x3D ++ 0x5B :: s) := by
  have hhalts : Halts (opening level ++ s) := by
    constructor
    · rintro b ⟨⟩
      exact ⟨rfl, rfl⟩
    · rw [opening_append, dashes_iff]
      rintro ⟨h, -⟩
      cases h
  rw [scan, blanks_halts hhalts, opening_append]
  rfl

theorem scan_bracketed (hopen : Open level body.length (body ++ closing level)) (rest : Bytes) :
    Cursor.scan ⟨bracketed level body ++ rest, offset, line⟩ =
      (.ok ⟨.str (unified (body.drop (breakLength body))), line + lineBreaks body, offset, bracketed level body⟩,
        ⟨rest, offset + (bracketed level body).length, line + lineBreaks body⟩) := by
  rw [← take_front, length_bracketed, bracketed_append, scan_opening, scanBracket]
  obtain ⟨hlevel, hdrop⟩ := opening_level level (body ++ (closing level ++ rest))
  simp only [hlevel, hdrop, longText_closed_reads hopen rest, if_true]
  rfl

theorem scan_comment (hopen : Open level body.length (body ++ closing level)) (rest : Bytes) :
    Cursor.scan ⟨0x2D :: 0x2D :: (bracketed level body ++ rest), offset, line⟩ =
      Cursor.scan ⟨rest, offset + (2 + (bracketed level body).length), line + lineBreaks body⟩ := by
  have hblanks := blanks_comment (e := Extent.none) (comment_bracketed hopen rest) rfl
  have hextent : (Extent.none.more 2).append ⟨(bracketed level body).length, lineBreaks body⟩ =
      ⟨2 + (bracketed level body).length, lineBreaks body⟩ := by
    simp [Extent.none, Extent.more, Extent.append]
  rw [hextent] at hblanks
  have hdrop : (0x2D :: 0x2D :: (bracketed level body ++ rest)).drop (2 + (bracketed level body).length) = rest := by
    rw [Nat.add_comm 2, List.drop_succ_cons, List.drop_succ_cons, List.drop_left]
  rw [scan_behind (e := ⟨2 + (bracketed level body).length, lineBreaks body⟩) (by rw [hdrop]; exact hblanks), past, hdrop]

theorem scan_unclosed (h : ¬ closing level <:+: s) :
    Cursor.scan ⟨opening level ++ s, offset, line⟩ =
      (.error ⟨.unfinishedLongString, line + lineBreaks s, "<eof>"⟩,
        ⟨[], offset + (opening level ++ s).length, line + lineBreaks s⟩) := by
  rw [scan_opening, scanBracket]
  obtain ⟨hlevel, hdrop⟩ := opening_level level s
  simp only [hlevel, hdrop, longText_unfinished h, Bool.false_eq_true, if_false]
  simp [failAtEnd, past, Extent.more, length_opening, Nat.add_comm s.length, List.drop_of_length_le]

theorem scan_unclosed_comment (h : ¬ closing level <:+: s) :
    Cursor.scan ⟨0x2D :: 0x2D :: (opening level ++ s), offset, line⟩ =
      (.error ⟨.unfinishedLongComment, line + lineBreaks s, "<eof>"⟩,
        ⟨[], offset + (2 + (opening level ++ s).length), line + lineBreaks s⟩) := by
  have hcomment : comment (opening level ++ s) = (false, ⟨(opening level ++ s).length, lineBreaks s⟩) := by
    rw [comment_opening, longText_unfinished h, List.length_append, length_opening, Nat.add_comm (level + 2)]
    rfl
  rw [scan, blanks_unfinished hcomment]
  simp [failAtEnd, past, Extent.more, Extent.append, Extent.none, List.drop_of_length_le, Nat.add_comm 2]

/-- **Long brackets.** Between brackets of a level, behind a line break that is left out, a text that nothing closes
    earlier is one string, with its line breaks as `\n`; behind two dashes it is passed, and the scan goes on from
    behind it. Where nothing closes the bracket the string or the comment is unfinished. -/
theorem long_brackets (level : Nat) :
    (∀ s : Bytes, s.head? ≠ some 0x0D → (∀ k < s.length, ¬ closing level <+: (s ++ closing level).drop k) →
      (∀ rest offset line,
        Cursor.scan ⟨bracketed level (0x0A :: s) ++ rest, offset, line⟩ =
          (.ok ⟨.str (unified s), line + (1 + lineBreaks s), offset, bracketed level (0x0A :: s)⟩,
            ⟨rest, offset + (bracketed level (0x0A :: s)).length, line + (1 + lineBreaks s)⟩) ∧
        Cursor.scan ⟨0x2D :: 0x2D :: (bracketed level (0x0A :: s) ++ rest), offset, line⟩ =
          Cursor.scan ⟨rest, offset + (2 + (bracketed level (0x0A :: s)).length), line + (1 + lineBreaks s)⟩) ∧
      ∃ x y, Lexer.tokenize (bracketed level (0x0A :: s)) = ([x, y], none) ∧ x.token = .str (unified s) ∧
        y.token = .eof) ∧
    ∀ s : Bytes, ¬ closing level <:+: s → ∀ offset line,
      Cursor.scan ⟨opening level ++ s, offset, line⟩ =
        (.error ⟨.unfinishedLongString, line + lineBreaks s, "<eof>"⟩,
          ⟨[], offset + (opening level ++ s).length, line + lineBreaks s⟩) ∧
      Cursor.scan ⟨0x2D :: 0x2D :: (opening level ++ s), offset, line⟩ =
        (.error ⟨.unfinishedLongComment, line + lineBreaks s, "<eof>"⟩,
          ⟨[], offset + (2 + (opening level ++ s).length), line + lineBreaks s⟩) := by
  refine ⟨fun s hs hopen => ?_, fun s h offset line => ⟨scan_unclosed h, scan_unclosed_comment h⟩⟩
  have hbody : Open level (0x0A :: s).length (0x0A :: s ++ closing level) := .cons (not_closing_break rfl) hopen
  have hfront : breakLength (0x0A :: s) = 1 ∧ lineBreaks (0x0A :: s) = 1 + lineBreaks s := by
    rcases breakLength_cases (b := 0x0A) rfl s with h | ⟨c, rest, rfl, hc, hne, -, -⟩
    · exact h
    · rcases isBreak_cases hc with rfl | rfl
      · exact absurd rfl hne
      · exact absurd rfl hs
  have hstring : ∀ rest offset line, Cursor.scan ⟨bracketed level (0x0A :: s) ++ rest, offset, line⟩ =
      (.ok ⟨.str (unified s), line + (1 + lineBreaks s), offset, bracketed level (0x0A :: s)⟩,
        ⟨rest, offset + (bracketed level (0x0A :: s)).length, line + (1 + lineBreaks s)⟩) := fun rest offset line => by
    rw [scan_bracketed hbody, hfront.1, hfront.2]
    rfl
  refine ⟨fun rest offset line => ⟨hstring rest offset line, ?_⟩, ?_⟩
  · rw [scan_comment hbody, hfront.2]
  · have hscan := hstring [] 0 1
    rw [List.append_nil] at hscan
    exact ⟨_, _, Lexer.tokenize_single (by simp [bracketed, opening]) hscan (by simp), rfl, rfl⟩

/-- At level one brackets of level zero and a part of a closing one are text, as is a line break of two bytes; at level
    zero a bracket of level one does not close. -/
theorem long_brackets_levels :
    (∃ x y, Lexer.tokenize (bracketed 1 (0x0A :: [0x0A, 0x5D, 0x5D, 0x3D, 0x0D, 0x0A])) = ([x, y], none) ∧
      x.token = .str [0x0A, 0x5D, 0x5D, 0x3D, 0x0A] ∧ y.token = .eof) ∧
    Cursor.scan ⟨opening 0 ++ [0x5D, 0x3D, 0x5D], 0, 1⟩ =
      (.error ⟨.unfinishedLongString, 1, "<eof>"⟩, ⟨[], 5, 1⟩) :=
  ⟨((long_brackets 1).1 [0x0A, 0x5D, 0x5D, 0x3D, 0x0D, 0x0A] (by decide) (by decide)).2,
    ((long_brackets 0).2 [0x5D, 0x3D, 0x5D] (by decide) 0 1).1⟩

end Cursor

end LuaMachine
