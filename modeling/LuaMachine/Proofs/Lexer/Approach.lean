/-
  THE WAY TO A TOKEN. A first line and a gap, said without the readers, are what is passed before a token is
  read: the converse of what is laid before one.
-/
import LuaMachine.Proofs.Lexer.LongBracket

namespace LuaMachine

namespace Scan

variable {s t p gap rest text : Bytes} {e : Extent} {b : UInt8} {level : Nat}

theorem takeWhile_front {q : UInt8 → Bool} (h : ∀ b ∈ p, q b = true) (ht : ∀ b ∈ t.head?, q b = false) :
    (p ++ t).takeWhile q = p := by
  rw [List.takeWhile_append_of_pos h]
  cases t with
  | nil => simp
  | cons c t => simp [ht c rfl]

theorem takeWhile_line (h : ∀ b ∈ text, isBreak b = false) (ht : LineEnds t) :
    (text ++ t).takeWhile (! isBreak ·) = text :=
  takeWhile_front (fun b hb => by rw [h b hb]; rfl) fun b hb => by rw [ht b hb]; rfl

theorem opening_within (ht : LineEnds t) (h : opening level <+: text ++ t) : opening level <+: text := by
  by_cases hlen : (opening level).length ≤ text.length
  · exact List.prefix_of_prefix_length_le h (List.prefix_append text t) hlen
  · exfalso
    have htext : text <+: opening level :=
      List.prefix_of_prefix_length_le (List.prefix_append text t) h (Nat.le_of_not_le hlen)
    obtain ⟨q, hq⟩ := htext
    cases q with
    | nil =>
      rw [List.append_nil] at hq
      exact hlen (by rw [hq])
    | cons c q =>
      rw [← hq, List.prefix_append_right_inj] at h
      obtain ⟨r, hr⟩ := h
      have hbreak : isBreak c = true := ht c (by rw [← hr]; rfl)
      have hmem : c ∈ opening level := by
        rw [← hq]
        exact List.mem_append_right _ List.mem_cons_self
      have hplain : isBreak c = false := by
        rcases List.mem_cons.mp hmem with rfl | hmem
        · rfl
        · exact bracket_plain level 0x5B rfl c hmem
      rw [hplain] at hbreak
      cases hbreak

theorem comment_line (h : ∀ b ∈ text, isBreak b = false) (hopen : ∀ level, ¬ opening level <+: text) (ht : LineEnds t) :
    comment (text ++ t) = (true, ⟨text.length, 0⟩) := by
  have hline := takeWhile_line h ht
  cases hs : text ++ t with
  | nil =>
    obtain ⟨rfl, -⟩ := List.append_eq_nil_iff.mp hs
    rfl
  | cons b s =>
    rw [hs] at hline
    rw [comment]
    split
    · next hb =>
      split
      · next n hlevel =>
        obtain ⟨r, hr⟩ := longLevel?_eq hlevel
        refine absurd (opening_within ht ?_) (hopen n)
        rw [hs, eq_of_beq hb, hr, ← opening_append]
        exact List.prefix_append _ r
      · rw [hline]
    · rw [hline]

theorem blanks_newline (hb : isBreak b = true) (s : Bytes) (e : Extent) :
    blanks 0 (b :: s) e =
      blanks 0 ((b :: s).drop (breakLength (b :: s))) ⟨e.bytes + breakLength (b :: s), e.lines + 1⟩ := by
  rw [blanks_break hb]
  rcases breakLength_cases hb s with ⟨h1, -⟩ | ⟨c, s, rfl, -, -, h2, -⟩
  · rw [h1]
    rfl
  · rw [h2]
    exact blanks_skip [c] s _

theorem Gap.behind_break (h : Gap (b :: s) rest) (hb : isBreak b = true) (hhalts : Halts rest) :
    ∃ p, (b :: (s ++ rest)).drop (breakLength (b :: (s ++ rest))) = p ++ rest ∧ Gap p rest ∧
      breakLength (b :: (s ++ rest)) + p.length = s.length + 1 := by
  have hs : Gap s rest := by
    cases h with
    | white _ hs => exact hs
    | line => cases hb
    | long => cases hb
  rcases breakLength_cases hb (s ++ rest) with ⟨h1, -⟩ | ⟨c, t, ht, hc, -, h2, -⟩
  · rw [h1]
    exact ⟨s, rfl, hs, Nat.add_comm 1 s.length⟩
  · rw [h2]
    cases s with
    | nil =>
      rw [List.nil_append] at ht
      rw [ht] at hhalts
      rw [(hhalts.1 c rfl).1] at hc
      cases hc
    | cons d s =>
      cases ht
      cases hs with
      | white _ hs => exact ⟨s, rfl, hs, by rw [List.length_cons]; omega⟩
      | line => cases hc
      | long => cases hc

theorem blanks_reads (hgap : Gap gap rest) (hhalts : Halts rest) (e : Extent) :
    ∃ n, blanks 0 (gap ++ rest) e = (true, ⟨e.bytes + gap.length, e.lines + n⟩) := by
  -- a line break of two bytes is passed at once: the induction is on the length, not on the gap
  induction hlen : gap.length using Nat.strong_induction_on generalizing gap e with
  | _ length ih =>
    subst hlen
    cases hgap with
    | none => exact ⟨0, blanks_halts hhalts⟩
    | @white b s _ hb hs =>
      by_cases hbreak : isBreak b = true
      · obtain ⟨p, hdrop, hp, hlength⟩ := Gap.behind_break (.white hb hs) hbreak hhalts
        have hpos := breakLength_pos hbreak (s ++ rest)
        obtain ⟨n, hn⟩ := ih p.length (by rw [List.length_cons]; omega) hp
          ⟨e.bytes + breakLength (b :: (s ++ rest)), e.lines + 1⟩ rfl
        refine ⟨1 + n, ?_⟩
        rw [List.cons_append, blanks_newline hbreak, hdrop, hn, List.length_cons, ← hlength, Nat.add_assoc, Nat.add_assoc]
      · obtain ⟨n, hn⟩ := ih s.length (Nat.lt_succ_self _) hs (e.more 1) rfl
        refine ⟨n, ?_⟩
        rw [List.cons_append, blanks_blank hbreak (hb.resolve_left hbreak), hn, List.length_cons]
        simp only [Extent.more, Nat.add_assoc, Nat.add_comm 1]
    | @line text s _ hplain hopen hends hs =>
      have hcomment := comment_line hplain hopen hends
      obtain ⟨n, hn⟩ := ih s.length (by simp; omega) hs ((e.more 2).append ⟨text.length, 0⟩) rfl
      refine ⟨n, ?_⟩
      rw [List.cons_append, List.cons_append, List.append_assoc, blanks_comment hcomment rfl, hn]
      simp only [Extent.append, Extent.more, List.length_cons, List.length_append, Nat.add_zero, Prod.mk.injEq,
        Extent.mk.injEq, true_and, and_true]
      omega
    | @long level text s _ hclosed hs =>
      obtain ⟨body, rfl, hopen⟩ := hclosed
      have hcomment : comment (bracketed level body ++ (s ++ rest)) =
          (true, ⟨(bracketed level body).length, lineBreaks body⟩) :=
        comment_bracketed hopen (s ++ rest)
      obtain ⟨n, hn⟩ := ih s.length (by simp; omega) hs
        ((e.more 2).append ⟨(bracketed level body).length, lineBreaks body⟩) rfl
      refine ⟨lineBreaks body + n, ?_⟩
      have hsplit : opening level ++ (body ++ closing level ++ s) ++ rest = bracketed level body ++ (s ++ rest) := by
        simp [bracketed]
      rw [List.cons_append, List.cons_append, hsplit, blanks_comment hcomment rfl, hn]
      simp only [Extent.append, Extent.more, List.length_cons, List.length_append, bracketed, Prod.mk.injEq,
        Extent.mk.injEq, true_and, Nat.add_assoc, and_true]
      omega

end Scan

namespace Cursor

open Scan

variable {source first gap rest : Bytes}

theorem start_reads (h : Lexer.FirstLine first rest) : start (first ++ rest) = ⟨rest, first.length, 1⟩ := by
  rcases h with ⟨rfl, hrest⟩ | ⟨hash, hplain, hends⟩
  · rw [List.nil_append, start]
    simp [hrest]
  · have hhash : ((first ++ rest).head? == some 0x23) = true := by
      cases first with
      | nil => cases hash
      | cons b first => simpa using hash
    rw [start, if_pos hhash, takeWhile_line hplain hends, past]
    simp

theorem scan_start (hfirst : Lexer.FirstLine first (gap ++ rest)) (hgap : Gap gap rest) (hhalts : Halts rest) :
    ∃ line, (start (first ++ (gap ++ rest))).scan = scanHere ⟨rest, first.length + gap.length, line⟩ := by
  obtain ⟨n, hn⟩ := blanks_reads hgap hhalts Extent.none
  refine ⟨1 + n, ?_⟩
  rw [start_reads hfirst, scan, hn]
  simp [past, Extent.none]

end Cursor

end LuaMachine
