/-
  LINES OF TOKENS. A token is on the line that the breaks up to its end make, in whatever order tokens are
  passed and looked ahead at.

  * **`Lexer.token_lines`** -- the line of every token that is read.
-/
import LuaMachine.Lexer.Stream
import LuaMachine.Proofs.Lexer.Passage

namespace LuaMachine

open Scan

def Cursor.At (source : Bytes) (c : Cursor) : Prop := Cursor.Advances ⟨source, 0, 1⟩ c

def Lexeme.OnLine (source : Bytes) (x : Lexeme) : Prop := x.line = 1 + lineBreaks (source.take x.stop)

namespace Cursor

variable {source : Bytes} {c c' : Cursor} {x : Lexeme}

theorem At.line (h : c.At source) : c.line = 1 + lineBreaks (source.take c.offset) := by
  obtain ⟨e, hpass, hoffset, hline⟩ := h
  rw [hline, hoffset, Nat.zero_add, hpass.lines]

theorem At.scan (h : c.At source) (hscan : c.scan = (.ok x, c')) : c'.At source ∧ x.OnLine source := by
  obtain ⟨hadvances, hstop, hline⟩ := scan_passes hscan
  have hat : c'.At source := h.trans hadvances
  refine ⟨hat, ?_⟩
  rw [Lexeme.OnLine, hline, hstop]
  exact hat.line

end Cursor

namespace Lexer

inductive Reads (source : Bytes) : Lexer → Prop
  | start {l} : Lexer.start source = .ok l → Reads source l
  | next {l l' x} : Reads source l → l.next = (.ok x, l') → Reads source l'
  | peek {l l' t} : Reads source l → l.peek = (.ok t, l') → Reads source l'

variable {source : Bytes} {l l' : Lexer} {x : Lexeme} {t : Token}

structure Placed (source : Bytes) (l : Lexer) : Prop where
  cursor : l.cursor.At source
  current : l.current.OnLine source
  ahead : ∀ x, l.ahead = some x → x.OnLine source

theorem placed_start (h : Lexer.start source = .ok l) : Placed source l := by
  unfold Lexer.start at h
  split at h
  · next x c hscan =>
    cases h
    obtain ⟨hcursor, hx⟩ := Cursor.At.scan (Cursor.start_passes source) hscan
    exact ⟨hcursor, hx, by simp⟩
  · cases h

theorem Placed.next (h : Placed source l) (hnext : l.next = (.ok x, l')) : Placed source l' := by
  unfold Lexer.next at hnext
  split at hnext
  · next y hy =>
    cases hnext
    exact ⟨h.cursor, h.ahead y hy, by simp⟩
  · split at hnext
    · next y c hscan =>
      cases hnext
      obtain ⟨hcursor, hy⟩ := h.cursor.scan hscan
      exact ⟨hcursor, hy, by simp⟩
    · cases hnext

theorem Placed.peek (h : Placed source l) (hpeek : l.peek = (.ok t, l')) : Placed source l' := by
  unfold Lexer.peek at hpeek
  split at hpeek
  · cases hpeek
    exact h
  · split at hpeek
    · next y c hscan =>
      cases hpeek
      obtain ⟨hcursor, hy⟩ := h.cursor.scan hscan
      exact ⟨hcursor, h.current, by simpa using hy⟩
    · cases hpeek

theorem Reads.placed (h : Reads source l) : Placed source l := by
  induction h with
  | start hstart => exact placed_start hstart
  | next _ hnext ih => exact ih.next hnext
  | peek _ hpeek ih => exact ih.peek hpeek

theorem tokensFrom_lines {n : Nat} {c : Cursor} {acc : List Lexeme} (hc : c.At source)
    (hacc : ∀ x ∈ acc, x.OnLine source) : ∀ x ∈ (tokensFrom n c acc).1, x.OnLine source := by
  induction n generalizing c acc with
  | zero => exact fun x hx => hacc x (List.mem_reverse.mp hx)
  | succ n ih =>
    rw [tokensFrom]
    split
    · exact fun x hx => hacc x (List.mem_reverse.mp hx)
    · next y c' hscan =>
      obtain ⟨hc', hy⟩ := hc.scan hscan
      have hall : ∀ x ∈ y :: acc, x.OnLine source := List.forall_mem_cons.mpr ⟨hy, hacc⟩
      split
      · exact fun x hx => hall x (List.mem_reverse.mp hx)
      · exact ih hc' hall

/-- **Lines of tokens.** Every token that is read before a fault is met is on the line that the breaks up to its end
    make: the one at hand and the one looked ahead at, however passing and looking ahead take turns, and every one
    of a whole source. -/
theorem token_lines (source : Bytes) :
    (∀ l, Reads source l → l.current.line = 1 + lineBreaks (source.take l.current.stop) ∧
      ∀ x, l.ahead = some x → x.line = 1 + lineBreaks (source.take x.stop)) ∧
    ∀ x ∈ (tokenize source).1, x.line = 1 + lineBreaks (source.take x.stop) := by
  constructor
  · intro l h
    exact ⟨h.placed.current, h.placed.ahead⟩
  · exact tokensFrom_lines (Cursor.start_passes source) (List.forall_mem_nil _)

def mixedBreaks : Bytes :=
  [0x2D, 0x2D, 0x5B, 0x5B, 0x0D, 0x0A, 0x5D, 0x5D, 0x0A, 0x0D, 0x27, 0x5C, 0x7A, 0x0A, 0x20, 0x5C, 0x0D,
   0x0A, 0x27]

theorem token_lines_mixed : ∃ l, Reads mixedBreaks l ∧ l.current.line = 5 ∧
    lineBreaks (mixedBreaks.take l.current.stop) = 4 := by
  have hreads : ∃ l, Reads mixedBreaks l ∧ l.current.line = 5 := ⟨_, .start rfl, rfl⟩
  obtain ⟨l, hl, hline⟩ := hreads
  obtain ⟨hcurrent, -⟩ := (token_lines mixedBreaks).1 l hl
  exact ⟨l, hl, hline, by omega⟩

end Lexer

end LuaMachine
