/-
  CHUNK NAMES IN MESSAGES. What is cut off is cut between characters, and no more of it than the room
  demands.

  * `ChunkName.display_form` -- **the short form of any name**.
-/
import Mathlib.Data.String.Basic
import LuaMachine.Text.ChunkName

namespace LuaMachine

/-! ## 1. Lengths in bytes -/

namespace Text

variable {n : Nat} {cs ds : List Char} {c : Char}

theorem byteLength_cons : byteLength (c :: cs) = c.utf8Size + byteLength cs := rfl

theorem byteLength_append : byteLength (cs ++ ds) = byteLength cs + byteLength ds := by
  induction cs with
  | nil => simp [byteLength]
  | cons c cs ih => rw [List.cons_append, byteLength_cons, byteLength_cons, ih, Nat.add_assoc]

theorem byteLength_reverse : byteLength cs.reverse = byteLength cs := by
  induction cs with
  | nil => rfl
  | cons c cs ih =>
    rw [List.reverse_cons, byteLength_append, byteLength_cons, ih]
    exact Nat.add_comm ..

theorem byteLength_toList (s : String) : byteLength s.toList = s.utf8ByteSize := by
  have hsize : ∀ cs, (String.ofList cs).utf8ByteSize = byteLength cs := by
    intro cs
    induction cs with
    | nil => rfl
    | cons c cs ih => rw [String.utf8ByteSize_ofList] at ih ⊢; rw [String.utf8Len_cons, ih, byteLength_cons, Nat.add_comm]
  rw [← hsize, String.ofList_toList]

theorem byteLength_le (h : cs <+: ds) : byteLength cs ≤ byteLength ds := by
  obtain ⟨rest, rfl⟩ := h
  rw [byteLength_append]
  exact Nat.le_add_right ..

/-! ## 2. Cuts -/

theorem takeBytes_prefix : takeBytes n cs <+: cs := by
  induction cs generalizing n with
  | nil => exact List.prefix_refl _
  | cons c cs ih =>
    rw [takeBytes]
    split
    · exact List.cons_prefix_cons.mpr ⟨rfl, ih⟩
    · exact List.nil_prefix

theorem byteLength_takeBytes : byteLength (takeBytes n cs) ≤ n := by
  induction cs generalizing n with
  | nil => exact Nat.zero_le _
  | cons c cs ih =>
    rw [takeBytes]
    split
    · next hfits =>
      rw [byteLength_cons]
      have := ih (n := n - c.utf8Size)
      omega
    · exact Nat.zero_le _

theorem prefix_takeBytes (h : ds <+: cs) (hfits : byteLength ds ≤ n) : ds <+: takeBytes n cs := by
  induction ds generalizing n cs with
  | nil => exact List.nil_prefix
  | cons d ds ih =>
    cases cs with
    | nil => exact absurd (List.prefix_nil.mp h) (by simp)
    | cons c cs =>
      obtain ⟨rfl, hrest⟩ := List.cons_prefix_cons.mp h
      rw [byteLength_cons] at hfits
      rw [takeBytes, if_pos (by omega)]
      exact List.cons_prefix_cons.mpr ⟨rfl, ih hrest (by omega)⟩

end Text

namespace ChunkName

open Text

structure LongestStart (n : Nat) (s p : String) : Prop where
  start : ∃ rest, s = p ++ rest
  fits : p.utf8ByteSize ≤ n
  longest : ∀ q rest, s = q ++ rest → q.utf8ByteSize ≤ n → q.utf8ByteSize ≤ p.utf8ByteSize

structure LongestEnd (n : Nat) (s p : String) : Prop where
  stop : ∃ front, s = front ++ p
  fits : p.utf8ByteSize ≤ n
  longest : ∀ q front, s = front ++ q → q.utf8ByteSize ≤ n → q.utf8ByteSize ≤ p.utf8ByteSize

structure FirstLine (s line : String) : Prop where
  oneLine : '\n' ∉ line.toList
  start : line = s ∨ ∃ rest, s = line ++ "\n" ++ rest

variable {n : Nat} {s : String} {cs : List Char}

theorem size_ofList : (String.ofList cs).utf8ByteSize = byteLength cs := by
  rw [← byteLength_toList, String.toList_ofList]

theorem longestStart_takeBytes : LongestStart n s (String.ofList (takeBytes n s.toList)) where
  start := by
    obtain ⟨rest, hrest⟩ : takeBytes n s.toList <+: s.toList := takeBytes_prefix
    exact ⟨String.ofList rest, by rw [← String.ofList_append, hrest, String.ofList_toList]⟩
  fits := size_ofList ▸ byteLength_takeBytes
  longest := by
    intro q rest hq hfits
    have hprefix : q.toList <+: s.toList := ⟨rest.toList, by rw [← String.toList_append, ← hq]⟩
    rw [size_ofList, ← byteLength_toList]
    exact byteLength_le (prefix_takeBytes hprefix (byteLength_toList q ▸ hfits))

theorem longestEnd_takeLastBytes : LongestEnd n s (String.ofList (takeLastBytes n s.toList)) where
  stop := by
    obtain ⟨rest, hrest⟩ : takeBytes n s.toList.reverse <+: s.toList.reverse := takeBytes_prefix
    refine ⟨String.ofList rest.reverse, ?_⟩
    rw [← String.ofList_append, takeLastBytes, ← List.reverse_append, hrest, List.reverse_reverse, String.ofList_toList]
  fits := by
    rw [size_ofList, takeLastBytes, byteLength_reverse]
    exact byteLength_takeBytes
  longest := by
    intro q front hq hfits
    have hprefix : q.toList.reverse <+: s.toList.reverse :=
      ⟨front.toList.reverse, by rw [← List.reverse_append, ← String.toList_append, ← hq]⟩
    rw [size_ofList, takeLastBytes, byteLength_reverse, ← byteLength_toList, ← byteLength_reverse]
    exact byteLength_le (prefix_takeBytes hprefix (by rwa [byteLength_reverse, byteLength_toList]))

def firstLine (s : String) : String := String.ofList (s.toList.takeWhile (· ≠ '\n'))

theorem firstLine_is : FirstLine s (firstLine s) where
  oneLine := by
    rw [firstLine, String.toList_ofList]
    exact fun hmem => by simpa using List.all_eq_true.mp List.all_takeWhile _ hmem
  start := by
    have hsplit := List.takeWhile_append_dropWhile (p := (· ≠ '\n')) (l := s.toList)
    cases hrest : s.toList.dropWhile (· ≠ '\n') with
    | nil =>
      rw [hrest, List.append_nil] at hsplit
      exact .inl (by rw [firstLine, hsplit, String.ofList_toList])
    | cons c rest =>
      -- what stops the first line is a line break
      have hc : c = '\n' := by
        have hhead := List.head?_dropWhile_not (· ≠ '\n') s.toList
        rw [hrest] at hhead
        simpa using hhead
      rw [hrest, hc] at hsplit
      refine .inr ⟨String.ofList rest, ?_⟩
      rw [← String.toList_inj]
      simpa [firstLine] using hsplit.symm

/-! ## 3. The short form -/

theorem display_equals (name : String) : display ("=" ++ name) = String.ofList (takeBytes room name.toList) := by
  rw [display, String.toList_append]
  rfl

theorem display_file (file : String) :
    display ("@" ++ file) =
      if byteLength file.toList ≤ room then String.ofList file.toList
      else "..." ++ String.ofList (takeLastBytes (room - 3) file.toList) := by
  rw [display, String.toList_append]
  rfl

theorem display_text (hname : ∀ rest, s ≠ "=" ++ rest) (hfile : ∀ rest, s ≠ "@" ++ rest) :
    display s =
      if byteLength s.toList < textRoom ∧ '\n' ∉ s.toList then "[string \"" ++ s ++ "\"]"
      else "[string \"" ++ String.ofList (takeBytes textRoom (firstLine s).toList) ++ "...\"]" := by
  have hno : ∀ (c : Char) (rest : List Char), s.toList = c :: rest → s = String.singleton c ++ String.ofList rest := by
    intro c rest h
    rw [← String.toList_inj, h]
    simp
  unfold display
  split
  · next rest h => exact absurd (hno _ _ h) (hname _)
  · next rest h => exact absurd (hno _ _ h) (hfile _)
  · rw [String.ofList_toList, firstLine, String.toList_ofList]

theorem forms (s : String) : (∃ name, s = "=" ++ name) ∨ (∃ file, s = "@" ++ file) ∨
    ((∀ name, s ≠ "=" ++ name) ∧ ∀ file, s ≠ "@" ++ file) := by
  by_cases hname : ∃ name, s = "=" ++ name
  · exact .inl hname
  · by_cases hfile : ∃ file, s = "@" ++ file
    · exact .inr (.inl hfile)
    · exact .inr (.inr ⟨not_exists.mp hname, not_exists.mp hfile⟩)

/-- **The short form fits into the room.** -/
theorem size_display : (display s).utf8ByteSize ≤ room := by
  have hcut : ∀ n cs, (String.ofList (takeBytes n cs)).utf8ByteSize ≤ n := fun n cs =>
    size_ofList ▸ byteLength_takeBytes
  rcases forms s with ⟨name, rfl⟩ | ⟨file, rfl⟩ | ⟨hname, hfile⟩
  · rw [display_equals]
    exact hcut ..
  · rw [display_file]
    split
    · rwa [size_ofList]
    · have htail : (String.ofList (takeLastBytes (room - 3) file.toList)).utf8ByteSize ≤ room - 3 :=
        longestEnd_takeLastBytes.fits
      have hdots : ("..." : String).utf8ByteSize = 3 := rfl
      rw [String.utf8ByteSize_append, hdots, room] at *
      omega
  · have hopen : ("[string \"" : String).utf8ByteSize = 9 := rfl
    have hclose : ("\"]" : String).utf8ByteSize = 2 := rfl
    have hdots : ("...\"]" : String).utf8ByteSize = 5 := rfl
    rw [display_text hname hfile]
    split
    · next hshort =>
      have := hshort.1
      rw [byteLength_toList, textRoom] at this
      rw [String.utf8ByteSize_append, String.utf8ByteSize_append, hopen, hclose, room]
      omega
    · have := hcut textRoom (firstLine s).toList
      rw [textRoom] at this
      rw [String.utf8ByteSize_append, String.utf8ByteSize_append, hopen, hdots, room, textRoom]
      omega

theorem oneLine_display (hname : ∀ rest, s ≠ "=" ++ rest) (hfile : ∀ rest, s ≠ "@" ++ rest) :
    '\n' ∉ (display s).toList := by
  have happend : ∀ a b c : String, '\n' ∉ a.toList → '\n' ∉ b.toList → '\n' ∉ c.toList → '\n' ∉ (a ++ b ++ c).toList := by
    intro a b c ha hb hc
    simp [ha, hb, hc]
  rw [display_text hname hfile]
  split
  · next hshort => exact happend _ _ _ (by decide) hshort.2 (by decide)
  · refine happend _ _ _ (by decide) (fun hmem => (firstLine_is (s := s)).oneLine ?_) (by decide)
    rw [String.toList_ofList] at hmem
    exact takeBytes_prefix.subset hmem

/-- **The short form of any name** takes at most 59 bytes and is cut only between characters: `=name` at its
    end, `@file` at its beginning, with `...` in front. Any other name is source text: short text of one line
    is shown whole, of all other text the start of its first line. -/
theorem display_form (s : String) :
    (display s).utf8ByteSize ≤ 59 ∧
      (∀ name, s = "=" ++ name → LongestStart 59 name (display s)) ∧
      (∀ file, s = "@" ++ file →
        (file.utf8ByteSize ≤ 59 → display s = file) ∧
          (59 < file.utf8ByteSize → ∃ tail, display s = "..." ++ tail ∧ LongestEnd 56 file tail)) ∧
      ((∀ name, s ≠ "=" ++ name) → (∀ file, s ≠ "@" ++ file) →
        '\n' ∉ (display s).toList ∧
          (s.utf8ByteSize < 45 ∧ '\n' ∉ s.toList → display s = "[string \"" ++ s ++ "\"]") ∧
          (¬ (s.utf8ByteSize < 45 ∧ '\n' ∉ s.toList) →
            ∃ line start, FirstLine s line ∧ LongestStart 45 line start ∧
              display s = "[string \"" ++ start ++ "...\"]")) := by
  have hshort : s.utf8ByteSize < 45 ∧ '\n' ∉ s.toList ↔ byteLength s.toList < textRoom ∧ '\n' ∉ s.toList := by
    rw [byteLength_toList, textRoom]
  refine ⟨size_display, ?_, ?_, fun hname hfile => ⟨oneLine_display hname hfile, fun h => ?_, fun h => ?_⟩⟩
  · rintro name rfl
    rw [display_equals]
    exact longestStart_takeBytes
  · rintro file rfl
    rw [display_file, byteLength_toList, String.ofList_toList]
    refine ⟨fun h => if_pos h, fun h => ⟨_, if_neg (Nat.not_le.mpr h), ?_⟩⟩
    exact longestEnd_takeLastBytes
  · rw [display_text hname hfile, if_pos (hshort.mp h)]
  · rw [display_text hname hfile, if_neg (fun h' => h (hshort.mpr h'))]
    exact ⟨firstLine s, _, firstLine_is, longestStart_takeBytes, rfl⟩

end ChunkName

end LuaMachine
