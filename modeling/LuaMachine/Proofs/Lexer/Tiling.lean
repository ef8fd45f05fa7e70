/-
  TOKENS TILE THE SOURCE. Whatever is read of a source is either in a token or in the gap before one, and a
  token is what its own bytes say, whatever stands around it.

  * **`Lexer.tokens_tile`** -- the tokens of a source that is read without a fault.
-/
import LuaMachine.Lexer.Stream
import LuaMachine.Proofs.Lexer.Alone

namespace LuaMachine

namespace Scan

/-! ## 1. Gaps -/

def opening (level : Nat) : Bytes := 0x5B :: (List.replicate level 0x3D ++ [0x5B])

def closing (level : Nat) : Bytes := 0x5D :: (List.replicate level 0x3D ++ [0x5D])

def Closed (level : Nat) (text : Bytes) : Prop :=
  ∃ body, text = body ++ closing level ∧ ∀ k < body.length, ¬ closing level <+: text.drop k

def LineEnds (s : Bytes) : Prop := ∀ b ∈ s.head?, isBreak b = true

/-- A gap, before a rest: blanks, line breaks, comments up to the end of the line and long comments. -/
inductive Gap : Bytes → Bytes → Prop
  | none (rest : Bytes) : Gap [] rest
  | white {b s rest} : isBreak b = true ∨ isBlank b = true → Gap s rest → Gap (b :: s) rest
  | line {text s rest} : (∀ b ∈ text, isBreak b = false) → (∀ level, ¬ opening level <+: text) → LineEnds (s ++ rest) →
      Gap s rest → Gap (0x2D :: 0x2D :: (text ++ s)) rest
  | long {level text s rest} : Closed level text → Gap s rest →
      Gap (0x2D :: 0x2D :: (opening level ++ (text ++ s))) rest

def Halts (s : Bytes) : Prop := (∀ b ∈ s.head?, isBreak b = false ∧ isBlank b = false) ∧ ¬ [0x2D, 0x2D] <+: s

variable {s t p rest : Bytes} {e e' : Extent} {b : UInt8} {level : Nat}

theorem Gap.newline (hb : isBreak b = true) (h : Gap p rest) (hs : (b :: s).drop (breakLength (b :: s)) = p ++ rest) :
    ∃ q, b :: s = q ++ rest ∧ Gap q rest ∧ q.length = breakLength (b :: s) + p.length := by
  rcases breakLength_cases hb s with ⟨h1, -⟩ | ⟨c, s, rfl, hc, -, h2, -⟩
  · rw [h1, List.drop_one, List.tail_cons] at hs
    exact ⟨b :: p, by rw [hs]; rfl, .white (.inl hb) h, by rw [h1, List.length_cons, Nat.add_comm]⟩
  · rw [h2, List.drop_succ_cons, List.drop_one, List.tail_cons] at hs
    exact ⟨b :: c :: p, by rw [hs]; rfl, .white (.inl hb) (.white (.inl hc) h),
      by rw [h2, List.length_cons, List.length_cons]; omega⟩

theorem dashes_iff : [0x2D, 0x2D] <+: b :: s ↔ b = 0x2D ∧ s.head? = some 0x2D := by
  rw [List.cons_prefix_cons, eq_comm]
  cases s with
  | nil => simp
  | cons c s => simp [List.cons_prefix_cons, eq_comm]

theorem Halts.take (h : Halts (p ++ t)) : Halts p := by
  constructor
  · cases p with
    | nil => simp
    | cons b p => exact h.1
  · exact fun hp => h.2 (hp.trans (List.prefix_append p t))

/-! ## 2. Comments -/

theorem closes_iff : closes level s = true ↔ List.replicate level 0x3D ++ [0x5D] <+: s := by
  constructor
  · intro h
    obtain ⟨rest, rfl⟩ := closes_eq h
    exact ⟨rest, by simp⟩
  · rintro ⟨rest, rfl⟩
    induction level with
    | zero => rfl
    | succ n ih =>
      rw [List.append_assoc] at ih ⊢
      exact ih

theorem closing_iff : closing level <+: b :: s ↔ (b == 0x5D && closes level s) = true := by
  rw [closing, List.cons_prefix_cons, Bool.and_eq_true, beq_iff_eq, closes_iff, eq_comm]

theorem not_closing_break (h : isBreak b = true) : ¬ closing level <+: b :: s := by
  rw [closing_iff]
  rcases isBreak_cases h with rfl | rfl <;> simp

def Open (level n : Nat) (s : Bytes) : Prop := ∀ k < n, ¬ closing level <+: s.drop k

theorem Open.cons {n : Nat} (hb : ¬ closing level <+: b :: s) (h : Open level n s) : Open level (n + 1) (b :: s) := by
  intro k hk
  cases k with
  | zero => exact hb
  | succ k => exact h k (Nat.lt_of_succ_lt_succ hk)

theorem closed_of_open {body : Bytes} (h : Open level body.length s) (hs : s = body ++ closing level ++ rest) :
    Closed level (body ++ closing level) := by
  refine ⟨body, rfl, fun k hk hclose => h k hk (hclose.trans ?_)⟩
  have hcut : (body ++ closing level ++ rest).drop k = (body ++ closing level).drop k ++ rest :=
    List.drop_append_of_le_length (by rw [List.length_append]; omega)
  rw [hs, hcut]
  exact List.prefix_append ..

theorem longBody_open {acc text : Bytes} (h : longBody level s acc e = (true, text, e')) :
    ∃ body rest, s = body ++ closing level ++ rest ∧ e'.bytes = e.bytes + (body ++ closing level).length ∧
      Open level body.length s := by
  fun_induction longBody level s acc e with
  | case1 => cases h
  | case2 b rest acc e hclose =>
    cases h
    obtain ⟨rest', hrest⟩ := closing_iff.mpr hclose
    exact ⟨[], rest', hrest.symm, by simp [closing, Extent.more], by simp [Open]⟩
  | case3 b acc e hb c rest hc _ ih =>
    obtain ⟨body, rest', rfl, he, hopen⟩ := ih h
    have hc : isBreak c = true := (Bool.and_eq_true_iff.mp hc).1
    refine ⟨b :: c :: body, rest', rfl, ?_, .cons (not_closing_break hb) (.cons (not_closing_break hc) hopen)⟩
    rw [he, List.cons_append, List.cons_append, List.length_cons, List.length_cons, Nat.add_assoc, Nat.add_comm 2]
  | case4 b acc e hb c rest hc _ ih =>
    obtain ⟨body, rest', hs, he, hopen⟩ := ih h
    refine ⟨b :: body, rest', by rw [hs]; rfl, ?_, .cons (not_closing_break hb) hopen⟩
    rw [he, List.cons_append, List.length_cons, Nat.add_assoc, Nat.add_comm 1]
  | case5 b acc e hb _ ih =>
    obtain ⟨body, rest', hs, -, -⟩ := ih h
    simp [closing] at hs
  | case6 b rest acc e hne _ ih =>
    obtain ⟨body, rest', rfl, he, hopen⟩ := ih h
    refine ⟨b :: body, rest', rfl, ?_, .cons (mt closing_iff.mp hne) hopen⟩
    rw [he, List.cons_append, List.length_cons]
    simp only [Extent.more]
    omega

theorem longText_closed {text : Bytes} (h : longText level s = (true, text, e)) :
    ∃ body rest, s = body ++ rest ∧ e.bytes = body.length ∧ Closed level body := by
  rw [longText] at h
  obtain ⟨body, rest, hs, he, hopen⟩ := longBody_open h
  simp only at he
  cases s with
  | nil => simp [closing, breakLength] at hs
  | cons b s =>
    by_cases hb : isBreak b = true
    · rcases breakLength_cases hb s with ⟨h1, -⟩ | ⟨c, s, rfl, hc, -, h2, -⟩
      · rw [h1] at hs he hopen
        have hs' : b :: s = b :: body ++ closing level ++ rest := by simpa using hs
        have hopen' : Open level (b :: body).length (b :: s) := .cons (not_closing_break hb) hopen
        exact ⟨_, rest, hs', by rw [he]; simp; omega, closed_of_open hopen' hs'⟩
      · rw [h2] at hs he hopen
        have hs' : b :: c :: s = b :: c :: body ++ closing level ++ rest := by simpa using hs
        have hopen' : Open level (b :: c :: body).length (b :: c :: s) :=
          .cons (not_closing_break hb) (.cons (not_closing_break hc) hopen)
        exact ⟨_, rest, hs', by rw [he]; simp; omega, closed_of_open hopen' hs'⟩
    · have hzero : breakLength (b :: s) = 0 := by
        cases s <;> simp [breakLength, hb]
      rw [hzero] at hs he hopen
      exact ⟨_, rest, hs, by rw [he, Nat.zero_add], closed_of_open hopen hs⟩

theorem lineEnds_dropWhile (s : Bytes) : LineEnds (s.dropWhile (! isBreak ·)) := by
  intro b hb
  have := List.head?_dropWhile_not (! isBreak ·) s
  rw [Option.mem_def.mp hb] at this
  simpa using this

theorem line_gap (h : ∀ level, ¬ opening level <+: s) :
    ∃ text rest, s = text ++ rest ∧ (s.takeWhile (! isBreak ·)).length = text.length ∧
      ∀ p t, rest = p ++ t → Gap p t → Gap (0x2D :: 0x2D :: (text ++ p)) t := by
  refine ⟨s.takeWhile (! isBreak ·), s.dropWhile (! isBreak ·), List.takeWhile_append_dropWhile.symm, rfl, ?_⟩
  intro p t hrest hgap
  refine .line (fun b hb => by simpa using List.mem_takeWhile_imp hb) ?_ (hrest ▸ lineEnds_dropWhile s) hgap
  exact fun level hopen => h level (hopen.trans (List.takeWhile_prefix _))

theorem comment_gap (h : comment s = (true, e)) :
    ∃ text rest, s = text ++ rest ∧ e.bytes = text.length ∧
      ∀ p t, rest = p ++ t → Gap p t → Gap (0x2D :: 0x2D :: (text ++ p)) t := by
  unfold comment at h
  split at h
  · next b rest =>
    split at h
    · next hb =>
      rw [eq_of_beq hb] at *
      split at h
      · next level hlevel =>
        rcases htext : longText level (rest.drop (level + 1)) with ⟨closed, text, x⟩
        simp only [htext, Prod.mk.injEq] at h
        obtain ⟨rfl, rfl⟩ := h
        obtain ⟨rest, rfl⟩ := longLevel?_eq hlevel
        have hdrop : (List.replicate level 0x3D ++ 0x5B :: rest).drop (level + 1) = rest := by
          simp [List.drop_append]
        rw [hdrop] at htext
        obtain ⟨body, rest', rfl, he, hclosed⟩ := longText_closed htext
        refine ⟨opening level ++ body, rest', by simp [opening], ?_, ?_⟩
        · simp only [Extent.more, he, opening]
          simp
          omega
        · intro p t _ hgap
          rw [List.append_assoc]
          exact .long hclosed hgap
      · next hlevel =>
        cases h
        refine line_gap fun level hopen => ?_
        obtain ⟨t, ht⟩ := hopen
        rw [opening, List.cons_append, List.cons_inj_right, List.append_assoc] at ht
        rw [← ht] at hlevel
        simp [longLevel?_signs] at hlevel
    · next hb =>
      cases h
      refine line_gap fun level hopen => hb ?_
      rw [opening, List.cons_prefix_cons] at hopen
      rw [← hopen.1]
      rfl
  · cases h
    exact ⟨[], [], rfl, rfl, fun p t hrest hgap => .line (List.forall_mem_nil _) (by simp [opening])
      (by rw [← hrest]; simp [LineEnds]) hgap⟩

/-! ## 3. Gaps are what is passed -/

theorem blanks_gap {skip : Nat} (h : blanks skip s e = (true, e')) :
    ∃ p rest, s.drop skip = p ++ rest ∧ e'.bytes = e.bytes + p.length ∧ Gap p rest ∧ Halts rest := by
  fun_induction blanks skip s e with
  | case1 skip e =>
    cases h
    exact ⟨[], [], by simp, rfl, .none [], by simp [Halts]⟩
  | case2 skip b rest e ih => exact ih h
  | case3 b s e hb n ih =>
    obtain ⟨p, rest, hs, he, hgap, hhalts⟩ := ih h
    have hpos : 0 < n := breakLength_pos hb s
    have hdrop : (b :: s).drop n = s.drop (n - 1) := by
      obtain ⟨k, hk⟩ := Nat.exists_eq_succ_of_ne_zero (Nat.pos_iff_ne_zero.mp hpos)
      rw [hk]
      rfl
    obtain ⟨q, hq, hgap', hlen⟩ := hgap.newline hb (hdrop.trans hs)
    exact ⟨q, rest, hq, by rw [he, hlen]; simp only [n]; omega, hgap', hhalts⟩
  | case4 b s e _ hb ih =>
    obtain ⟨p, rest, rfl, he, hgap, hhalts⟩ := ih h
    refine ⟨b :: p, rest, rfl, ?_, .white (.inr hb) hgap, hhalts⟩
    rw [he, List.length_cons]
    simp only [Extent.more]
    omega
  | case5 b e _ _ hdash c s hc x hcomment ih =>
    obtain ⟨p, rest, hs, he, hgap, hhalts⟩ := ih h
    obtain ⟨text, s', rfl, hx, hbefore⟩ := comment_gap hcomment
    rw [List.drop_succ_cons, hx, List.drop_left] at hs
    rw [eq_of_beq hdash, eq_of_beq hc]
    refine ⟨0x2D :: 0x2D :: (text ++ p), rest, by simp [hs], ?_, hbefore p rest hs hgap, hhalts⟩
    rw [he, List.length_cons, List.length_cons, List.length_append]
    simp only [Extent.append, Extent.more]
    omega
  | case6 => simp_all
  | case7 b e hb hw hdash c s hc =>
    cases h
    refine ⟨[], b :: c :: s, rfl, rfl, .none _, by simpa using And.intro hb hw, ?_⟩
    exact fun hdashes => hc (by simpa using (dashes_iff.mp hdashes).2)
  | case8 b e hb hw hdash =>
    cases h
    refine ⟨[], [b], rfl, rfl, .none _, by simpa using And.intro hb hw, ?_⟩
    exact fun hdashes => absurd (dashes_iff.mp hdashes).2 (by simp)
  | case9 b s e hb hw hdash =>
    cases h
    refine ⟨[], b :: s, rfl, rfl, .none _, by simpa using And.intro hb hw, ?_⟩
    exact fun hdashes => hdash (by rw [(dashes_iff.mp hdashes).1]; rfl)

theorem blanks_halts (h : Halts s) : blanks 0 s e = (true, e) := by
  cases s with
  | nil => rfl
  | cons b s =>
    obtain ⟨hhead, hdashes⟩ := h
    obtain ⟨hb, hw⟩ := hhead b rfl
    rw [dashes_iff] at hdashes
    cases s with
    | nil => simp [blanks, hb, hw]
    | cons c s =>
      simp only [List.head?_cons, Option.some_inj] at hdashes
      simp only [blanks, hb, hw, Bool.false_eq_true, if_false]
      grind

theorem blanks_space (s : Bytes) (e : Extent) : blanks 0 (0x20 :: s) e = blanks 0 s (e.more 1) := by
  cases s <;> rfl

end Scan

namespace Cursor

open Scan

variable {c c' : Cursor} {x : Lexeme} {rest : Bytes}

/-! ## 4. One token -/

theorem take_token {y : Token} {e : Extent} (h : c.take y e = (.ok x, c')) : x.token = y := by
  cases h
  rfl

theorem scanNumeral_token (h : c.scanNumeral = (.ok x, c')) : x.token ≠ .eof := by
  simp only [scanNumeral] at h
  split at h
  · simp [take_token h]
  · simp [take_token h]
  · cases h

theorem scanWord_token (h : c.scanWord = (.ok x, c')) : x.token ≠ .eof := by
  simp only [scanWord] at h
  split at h
  · simp [take_token h]
  · simp [take_token h]

theorem scanBracket_token (h : c.scanBracket rest = (.ok x, c')) : x.token ≠ .eof := by
  simp only [scanBracket] at h
  split at h
  · split at h
    · simp [take_token h]
    · cases h
  · split at h
    · cases h
    · simp [take_token h]

theorem scanQuoted_token {quote : UInt8} (h : c.scanQuoted quote rest = (.ok x, c')) : x.token ≠ .eof := by
  unfold scanQuoted at h
  split at h
  · simp [take_token h]
  · cases h
  · cases h

theorem scanHere_eof (h : c.scanHere = (.ok x, c')) (heof : x.token = .eof) : c.rest = [] := by
  unfold scanHere at h
  split at h
  · assumption
  · exfalso
    refine absurd heof ?_
    split at h
    · exact scanBracket_token h
    · split at h
      · exact scanQuoted_token h
      · split at h
        · split at h
          · exact scanNumeral_token h
          · simp [take_token h]
        · split at h
          · exact scanNumeral_token h
          · split at h
            · exact scanWord_token h
            · split at h
              · simp [take_token h]
              · cases h

theorem Rereads.eof_iff (h : Rereads scanHere x) (hend : x.token = .eof → x.raw = []) : x.token = .eof ↔ x.raw = [] := by
  constructor
  · exact hend
  · intro hraw
    obtain ⟨n, hn⟩ := h 0 1
    rw [hraw] at hn
    have htoken : Token.eof = x.token := congrArg (fun r => r.1.toOption.elim .eof Lexeme.token) hn
    exact htoken.symm

/-- What a scan takes: a gap, and behind it a token whose own bytes are read as that token. -/
structure Lays (c : Cursor) (x : Lexeme) (c' : Cursor) (gap : Bytes) : Prop where
  split : c.rest = gap ++ (x.raw ++ c'.rest)
  idle : Gap gap (x.raw ++ c'.rest)
  start : x.start = c.offset + gap.length
  stop : x.stop = c'.offset
  halts : Halts x.raw
  rereads : Rereads scanHere x
  eof_iff : x.token = .eof ↔ x.raw = []
  atEnd : x.token = .eof → c'.rest = []

theorem scan_lays (h : c.scan = (.ok x, c')) : ∃ gap, c.Lays x c' gap := by
  obtain ⟨e, t, hblanks, -, hhere⟩ := scan_cases h
  obtain ⟨gap, rest, hrest, hlen, hgap, hhalts⟩ := blanks_gap hblanks
  simp only [List.drop_zero, Extent.none, Nat.zero_add] at hrest hlen
  have htakes := scanHere_passes hhere
  have hbehind : (c.past e).rest = rest := by rw [past, hrest, hlen, List.drop_left]
  have hsplit : rest = x.raw ++ c'.rest := hbehind ▸ htakes.split
  have hreads := scanHere_alone hhere
  have hend : x.token = .eof → x.raw = [] ∧ c'.rest = [] := fun heof => by
    have := scanHere_eof hhere heof
    rw [hbehind, hsplit] at this
    exact List.append_eq_nil_iff.mp this
  refine ⟨gap, ?_⟩
  rw [hsplit] at hgap hhalts hrest
  exact {
    split := hrest
    idle := hgap
    start := by rw [htakes.start, past, hlen]
    stop := htakes.stop
    halts := hhalts.take
    rereads := hreads
    eof_iff := hreads.eof_iff fun heof => (hend heof).1
    atEnd := fun heof => (hend heof).2 }

end Cursor

namespace Lexer

open Scan

variable {source rest : Bytes} {offset n : Nat} {c c' : Cursor} {x : Lexeme} {xs acc : List Lexeme}

/-! ## 5. All tokens -/

inductive Tiles : Bytes → Nat → List Lexeme → Prop
  | finish {gap offset x} : Gap gap [] → x.token = .eof → x.raw = [] → x.start = offset + gap.length →
      Tiles gap offset [x]
  | token {gap rest offset x xs} : Gap gap (x.raw ++ rest) → x.token ≠ .eof → x.raw ≠ [] →
      x.start = offset + gap.length → Tiles rest x.stop xs → Tiles (gap ++ (x.raw ++ rest)) offset (x :: xs)

theorem tokensFrom_tiles (hn : c.rest.length < n) (h : (tokensFrom n c acc).2 = none) :
    ∃ xs, (tokensFrom n c acc).1 = acc.reverse ++ xs ∧ Tiles c.rest c.offset xs := by
  induction n generalizing c acc with
  | zero => cases hn
  | succ n ih =>
    rw [tokensFrom] at h ⊢
    rcases hscan : c.scan with ⟨e | x, c'⟩
    · rw [hscan] at h
      cases h
    · rw [hscan] at h
      simp only at h ⊢
      obtain ⟨gap, hlays⟩ := Cursor.scan_lays hscan
      by_cases heof : x.token = .eof
      · rw [if_pos heof]
        refine ⟨[x], by simp, ?_⟩
        have hraw := hlays.eof_iff.mp heof
        have hsplit := hlays.split
        have hgap := hlays.idle
        simp only [hraw, hlays.atEnd heof, List.append_nil] at hsplit hgap
        rw [hsplit]
        exact .finish hgap heof hraw hlays.start
      · rw [if_neg heof] at h ⊢
        have hraw : x.raw ≠ [] := mt hlays.eof_iff.mpr heof
        have hshort : c'.rest.length < n := by
          have := congrArg List.length hlays.split
          have := List.length_pos_iff.mpr hraw
          simp only [List.length_append] at *
          omega
        obtain ⟨xs, hxs, htiles⟩ := ih hshort h
        refine ⟨x :: xs, by simp [hxs], ?_⟩
        rw [hlays.split]
        rw [← hlays.stop] at htiles
        exact .token hlays.idle heof hraw hlays.start htiles

theorem tokenize_alone (hreads : Cursor.Rereads Cursor.scanHere x) (hhalts : Halts x.raw) (htoken : x.token ≠ .eof)
    (hraw : x.raw ≠ []) :
    ∃ y z, tokenize (0x20 :: x.raw) = ([y, z], none) ∧ y.token = x.token ∧ y.raw = x.raw ∧ z.token = .eof := by
  obtain ⟨n, hn⟩ := hreads 1 1
  obtain ⟨b, p, hb⟩ := List.exists_cons_of_ne_nil hraw
  have hspace : Cursor.scan ⟨0x20 :: x.raw, 0, 1⟩ = Cursor.scanHere ⟨x.raw, 1, 1⟩ := by
    rw [Cursor.scan, blanks_space, blanks_halts hhalts]
    rfl
  refine ⟨⟨x.token, 1 + n, 1, x.raw⟩, ⟨.eof, 1 + n, 1 + x.raw.length, []⟩, ?_, rfl, rfl, rfl⟩
  show tokensFrom ((0x20 :: x.raw).length + 1) ⟨0x20 :: x.raw, 0, 1⟩ [] = _
  have htwo : (0x20 :: x.raw).length + 1 = p.length + 1 + 1 + 1 := by rw [hb]; rfl
  rw [htwo, tokensFrom, hspace, hn]
  simp only [if_neg htoken]
  rfl

theorem tokensFrom_lays (h : x ∈ (tokensFrom n c acc).1) : x ∈ acc ∨ ∃ c' c'' gap, Cursor.Lays c' x c'' gap := by
  induction n generalizing c acc with
  | zero => exact .inl (List.mem_reverse.mp h)
  | succ n ih =>
    rw [tokensFrom] at h
    split at h
    · exact .inl (List.mem_reverse.mp h)
    · next y c' hscan =>
      have hy : x ∈ y :: acc → x ∈ acc ∨ ∃ c' c'' gap, Cursor.Lays c' x c'' gap := by
        intro hx
        rcases List.mem_cons.mp hx with rfl | hx
        · exact .inr ⟨c, c', Cursor.scan_lays hscan⟩
        · exact .inl hx
      split at h
      · exact hy (List.mem_reverse.mp h)
      · rcases ih h with hx | hlays
        · exact hy hx
        · exact .inr hlays

namespace Tiles

variable {s : Bytes}

theorem start_le (h : Tiles s offset xs) : ∀ x ∈ xs, offset ≤ x.start := by
  induction h with
  | finish _ _ _ hstart => simp [hstart]
  | token _ _ _ hstart _ ih =>
    intro y hy
    rcases List.mem_cons.mp hy with rfl | hy
    · omega
    · have := ih y hy
      rw [Lexeme.stop] at this
      omega

theorem pairwise (h : Tiles s offset xs) : xs.Pairwise fun x y => x.stop ≤ y.start := by
  induction h with
  | finish => exact List.pairwise_singleton ..
  | token _ _ _ _ hrest ih => exact List.pairwise_cons.mpr ⟨hrest.start_le, ih⟩

theorem within (h : Tiles s offset xs) (hs : s = source.drop offset) (hoffset : offset ≤ source.length) :
    ∀ x ∈ xs, x.stop ≤ source.length ∧ (source.drop x.start).take x.raw.length = x.raw := by
  induction h with
  | @finish gap offset x _ _ hraw hstart =>
    intro y hy
    rw [List.mem_singleton.mp hy, Lexeme.stop, hraw, hstart, hs, List.length_drop]
    constructor
    · simp only [List.length_nil]
      omega
    · rfl
  | @token gap rest offset x xs _ _ _ hstart _ ih =>
    have hbehind : source.drop x.start = x.raw ++ rest := by
      rw [hstart, ← List.drop_drop, ← hs, List.drop_left]
    have hlength := congrArg List.length hs
    simp only [List.length_append, List.length_drop] at hlength
    have hstop : x.stop ≤ source.length := by
      rw [Lexeme.stop]
      omega
    intro y hy
    rcases List.mem_cons.mp hy with rfl | hy
    · exact ⟨hstop, by rw [hbehind, List.take_left]⟩
    · refine ih ?_ hstop y hy
      rw [Lexeme.stop, ← List.drop_drop, hbehind, List.drop_left]

theorem last (h : Tiles s offset xs) :
    ∃ ys z, xs = ys ++ [z] ∧ z.token = .eof ∧ z.raw = [] ∧ ∀ y ∈ ys, y.token ≠ .eof ∧ y.raw ≠ [] := by
  induction h with
  | @finish gap offset x _ htoken hraw _ => exact ⟨[], x, rfl, htoken, hraw, List.forall_mem_nil _⟩
  | @token gap rest offset x xs _ htoken hraw _ _ ih =>
    obtain ⟨ys, z, rfl, hz, hzraw, hys⟩ := ih
    exact ⟨x :: ys, z, rfl, hz, hzraw, List.forall_mem_cons.mpr ⟨⟨htoken, hraw⟩, hys⟩⟩

end Tiles

def FirstLine (first rest : Bytes) : Prop :=
  (first = [] ∧ rest.head? ≠ some 0x23) ∨
    (first.head? = some 0x23 ∧ (∀ b ∈ first, isBreak b = false) ∧ LineEnds rest)

theorem start_firstLine (source : Bytes) :
    ∃ first, source = first ++ (Cursor.start source).rest ∧ (Cursor.start source).offset = first.length ∧
      FirstLine first (Cursor.start source).rest := by
  by_cases hash : source.head? = some 0x23
  · have hstart : Cursor.start source =
        Cursor.past ⟨source, 0, 1⟩ ⟨(source.takeWhile (! isBreak ·)).length, 0⟩ := by
      rw [Cursor.start]
      simp [hash]
    have hrest : (Cursor.start source).rest = source.dropWhile (! isBreak ·) := by
      rw [hstart]
      exact drop_takeWhile ..
    refine ⟨source.takeWhile (! isBreak ·), ?_, by rw [hstart, Cursor.past, Nat.zero_add], .inr ⟨?_, ?_, ?_⟩⟩
    · rw [hrest, List.takeWhile_append_dropWhile]
    · cases source with
      | nil => cases hash
      | cons b source =>
        cases hash
        rfl
    · exact fun b hb => by simpa using List.mem_takeWhile_imp hb
    · rw [hrest]
      exact lineEnds_dropWhile source
  · have hstart : Cursor.start source = ⟨source, 0, 1⟩ := by
      rw [Cursor.start]
      simp [hash]
    exact ⟨[], by rw [hstart]; rfl, by rw [hstart]; rfl, .inl ⟨rfl, by rw [hstart]; exact hash⟩⟩

/-- **Tokens tile the source.** A source that is read without a fault is a first line, if it has one that begins with
    `#`, and then gaps and tokens in turn. The tokens are in order, apart from one another and within the source; all
    but the last, the end, have bytes; and behind one space the bytes of a token are read as that token and the end. -/
theorem tokens_tile (source : Bytes) (h : (tokenize source).2 = none) :
    (∃ first rest, source = first ++ rest ∧ FirstLine first rest ∧ Tiles rest first.length (tokenize source).1) ∧
    (tokenize source).1.Pairwise (fun x y => x.stop ≤ y.start) ∧
    (∀ x ∈ (tokenize source).1, x.stop ≤ source.length ∧ (source.drop x.start).take x.raw.length = x.raw) ∧
    ∃ ys z, (tokenize source).1 = ys ++ [z] ∧ z.token = .eof ∧ z.raw = [] ∧
      ∀ x ∈ ys, x.token ≠ .eof ∧ x.raw ≠ [] ∧
        ∃ y z, tokenize (0x20 :: x.raw) = ([y, z], none) ∧ y.token = x.token ∧ y.raw = x.raw ∧ z.token = .eof := by
  obtain ⟨first, hsource, hoffset, hfirst⟩ := start_firstLine source
  have hlength := congrArg List.length hsource
  rw [List.length_append] at hlength
  obtain ⟨xs, hxs, htiles⟩ := tokensFrom_tiles (by omega) h
  rw [List.reverse_nil, List.nil_append] at hxs
  rw [hoffset] at htiles
  have htokens : (tokenize source).1 = xs := hxs
  rw [htokens]
  refine ⟨⟨first, _, hsource, hfirst, htiles⟩, htiles.pairwise, ?_, ?_⟩
  · have hdrop := congrArg (List.drop first.length) hsource
    rw [List.drop_left] at hdrop
    exact htiles.within hdrop.symm (by omega)
  · obtain ⟨ys, z, rfl, hz, hzraw, hys⟩ := htiles.last
    refine ⟨ys, z, rfl, hz, hzraw, fun x hx => ?_⟩
    obtain ⟨htoken, hraw⟩ := hys x hx
    refine ⟨htoken, hraw, ?_⟩
    have hmem : x ∈ (tokenize source).1 := htokens ▸ List.mem_append_left _ hx
    rcases tokensFrom_lays hmem with hx | ⟨_, _, _, hlays⟩
    · cases hx
    · exact tokenize_alone hlays.rereads hlays.halts htoken hraw

def mixedGaps : Bytes :=
  [0x23, 0x21, 0x0A, 0x2E, 0x2D, 0x2D, 0x5B, 0x5B, 0x0A, 0x5D, 0x5D, 0x2E, 0x2E, 0x27, 0x61, 0x27, 0x2D, 0x2D, 0x63]

theorem tokens_tile_mixed :
    (tokenize mixedGaps).1.map (fun x => (x.start, x.stop)) = [(3, 4), (11, 13), (13, 16), (19, 19)] ∧
      ∃ first rest, mixedGaps = first ++ rest ∧ FirstLine first rest ∧ Tiles rest first.length (tokenize mixedGaps).1 := by
  have hread : (tokenize mixedGaps).2 = none := rfl
  exact ⟨rfl, (tokens_tile mixedGaps hread).1⟩

end Lexer

end LuaMachine
