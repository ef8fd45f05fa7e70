/-
  LOOKING AHEAD. A lexer that is asked for the token behind the current one has read further, but what it
  says of the tokens that are passed is what it would say without.

  * **`Lexer.lookahead_transparent`** -- all of this for the requests to a source.
-/
import LuaMachine.Proofs.Lexer.Tiling

namespace LuaMachine

theorem Cursor.scan_eof {c c' : Cursor} {x : Lexeme} (h : c.scan = (.ok x, c')) (heof : x.token = .eof) :
    c'.scan = (.ok x, c') := by
  obtain ⟨e, t, -, -, hhere⟩ := scan_cases h
  have hrest := scanHere_eof hhere heof
  generalize c.past e = place at hhere hrest
  obtain ⟨rest, offset, line⟩ := place
  cases hrest
  cases hhere
  rfl

namespace Lexer

/-! ## 1. Requests -/

inductive Request where
  | pass
  | look
deriving DecidableEq

structure Report where
  passed : Lexeme
  current : Token
  line : Nat
  lastLine : Nat
  near : String

def report (x : Lexeme) (l : Lexer) : Report := ⟨x, l.current.token, l.current.line, l.lastLine, l.current.near⟩

structure Service where
  reports : List Report
  fault : Option LexError
  after : Lexer

def Service.reporting (s : Service) (r : Report) : Service := ⟨r :: s.reports, s.fault, s.after⟩

/-- Serve requests one after another, up to the first fault. -/
def serve : List Request → Lexer → Service
  | [], l => ⟨[], none, l⟩
  | .pass :: rs, l =>
    match l.next with
    | (.ok x, l') => (serve rs l').reporting (report x l')
    | (.error e, l') => ⟨[], some e, l'⟩
  | .look :: rs, l =>
    match l.peek with
    | (.ok _, l') => serve rs l'
    | (.error e, l') => ⟨[], some e, l'⟩

def passes (rs : List Request) : List Request := rs.filter (· = .pass)

variable {l l' l₀ : Lexer} {x : Lexeme} {t : Token} {e : LexError} {rs : List Request}

theorem serve_pass (h : l.next = (.ok x, l')) :
    serve (.pass :: rs) l = (serve rs l').reporting (report x l') := by
  rw [serve, h]

theorem serve_pass_error (h : l.next = (.error e, l')) : serve (.pass :: rs) l = ⟨[], some e, l'⟩ := by
  rw [serve, h]

theorem serve_look (h : l.peek = (.ok t, l')) : serve (.look :: rs) l = serve rs l' := by
  rw [serve, h]

theorem serve_look_error (h : l.peek = (.error e, l')) : serve (.look :: rs) l = ⟨[], some e, l'⟩ := by
  rw [serve, h]

theorem passes_pass (rs : List Request) : passes (.pass :: rs) = .pass :: passes rs := rfl

theorem passes_look (rs : List Request) : passes (.look :: rs) = passes rs := rfl

/-! ## 2. One look -/

theorem peek_cases (h : l.peek = (.ok t, l')) :
    ∃ x, x.token = t ∧ l' = { l with cursor := l'.cursor, ahead := some x } ∧
      (l.ahead = some x ∧ l' = l ∨ l.ahead = none ∧ l.cursor.scan = (.ok x, l'.cursor)) := by
  unfold peek at h
  split at h
  · next x hx =>
    cases h
    exact ⟨x, rfl, by rw [← hx], .inl ⟨hx, rfl⟩⟩
  · next hnone =>
    split at h
    · next x c hscan =>
      cases h
      exact ⟨x, rfl, rfl, .inr ⟨hnone, hscan⟩⟩
    · cases h

theorem peek_error (h : l.peek = (.error e, l')) :
    l.ahead = none ∧ l.cursor.scan = (.error e, l'.cursor) ∧ l' = { l with cursor := l'.cursor } := by
  unfold peek at h
  split at h
  · cases h
  · next hnone =>
    split at h
    · cases h
    · next f c hscan =>
      cases h
      exact ⟨hnone, hscan, rfl⟩

theorem next_ahead (h : l.ahead = some x) : l.next = (.ok l.current, ⟨l.cursor, x, none, l.current.line⟩) := by
  rw [next, h]

theorem next_scan {c : Cursor} (h : l.ahead = none) (hscan : l.cursor.scan = (.ok x, c)) :
    l.next = (.ok l.current, ⟨c, x, none, l.current.line⟩) := by
  rw [next, h]
  simp only [hscan]

theorem next_of_peek (h : l.peek = (.ok t, l')) :
    ∃ after, l.next = (.ok l.current, after) ∧ l'.next = l.next ∧ after.current.token = t := by
  obtain ⟨x, rfl, hl', hcases⟩ := peek_cases h
  have hcurrent : l'.current = l.current := by rw [hl']
  have hahead : l'.ahead = some x := by rw [hl']
  rcases hcases with ⟨hx, rfl⟩ | ⟨hnone, hscan⟩
  · exact ⟨_, next_ahead hx, rfl, rfl⟩
  · refine ⟨_, next_scan hnone hscan, ?_, rfl⟩
    rw [next_scan hnone hscan, next_ahead hahead, hcurrent]

theorem peek_of_peek (h : l.peek = (.ok t, l')) : l'.peek = (.ok t, l') := by
  obtain ⟨x, rfl, hl', -⟩ := peek_cases h
  have hahead : l'.ahead = some x := by rw [hl']
  rw [peek, hahead]

theorem next_of_peek_error (h : l.peek = (.error e, l')) : ∃ after, l.next = (.error e, after) := by
  obtain ⟨hnone, hscan, -⟩ := peek_error h
  refine ⟨⟨l'.cursor, l.current, none, l.current.line⟩, ?_⟩
  rw [next, hnone]
  simp only [hscan]

theorem next_ok (h : l.next = (.ok x, l')) : x = l.current ∧ l'.lastLine = l.current.line ∧
    (l.ahead = some l'.current ∧ l'.cursor = l.cursor ∨ l.cursor.scan = (.ok l'.current, l'.cursor)) ∧
    l'.ahead = none := by
  unfold next at h
  split at h
  · next y hy =>
    cases h
    exact ⟨rfl, rfl, .inl ⟨hy, rfl⟩, rfl⟩
  · split at h
    · next y c hscan =>
      cases h
      exact ⟨rfl, rfl, .inr hscan, rfl⟩
    · cases h

theorem next_error (h : l.next = (.error e, l')) : l'.current = l.current := by
  unfold next at h
  split at h
  · cases h
  · split at h
    · cases h
    · cases h
      rfl

/-! ## 3. With looks and without -/

def Ahead (l₀ l : Lexer) : Prop := l = l₀ ∨ ∃ t, l₀.peek = (.ok t, l)

theorem Ahead.next (h : Ahead l₀ l) : l.next = l₀.next := by
  rcases h with rfl | ⟨t, ht⟩
  · rfl
  · obtain ⟨_, -, heq, -⟩ := next_of_peek ht
    exact heq

theorem Ahead.current (h : Ahead l₀ l) : l.current = l₀.current ∧ l.lastLine = l₀.lastLine := by
  rcases h with rfl | ⟨t, ht⟩
  · exact ⟨rfl, rfl⟩
  · obtain ⟨x, -, hl, -⟩ := peek_cases ht
    rw [hl]
    exact ⟨rfl, rfl⟩

theorem Ahead.peek (h : Ahead l₀ l) (hpeek : l.peek = (.ok t, l')) : Ahead l₀ l' := by
  rcases h with rfl | ⟨u, hu⟩
  · exact .inr ⟨t, hpeek⟩
  · rw [peek_of_peek hu] at hpeek
    cases hpeek
    exact .inr ⟨_, hu⟩

theorem Ahead.peek_error (h : Ahead l₀ l) (hpeek : l.peek = (.error e, l')) : l = l₀ := by
  rcases h with rfl | ⟨u, hu⟩
  · rfl
  · rw [peek_of_peek hu] at hpeek
    cases hpeek

theorem serve_passes_error (h : l.next = (.error e, l')) (rs : List Request) :
    (serve (passes rs) l).reports = [] ∧
      ((serve (passes rs) l).fault = some e ∨ passes rs = []) := by
  cases hrs : passes rs with
  | nil => exact ⟨rfl, .inr rfl⟩
  | cons r ps =>
    have hr : r = .pass := by
      have hmem : r ∈ passes rs := by
        rw [hrs]
        exact List.mem_cons_self
      simpa [passes] using (List.mem_filter.mp hmem).2
    rw [hr, serve_pass_error h]
    exact ⟨rfl, .inl rfl⟩

theorem serve_passes (h : Ahead l₀ l) (rs : List Request) :
    (serve rs l).reports = (serve (passes rs) l₀).reports ∧
      ((serve rs l).fault = none → (serve (passes rs) l₀).fault = none ∧
        Ahead (serve (passes rs) l₀).after (serve rs l).after) := by
  induction rs generalizing l l₀ with
  | nil => exact ⟨rfl, fun _ => ⟨rfl, h⟩⟩
  | cons r rs ih =>
    cases r with
    | pass =>
      rw [passes_pass]
      rcases hnext : l.next with ⟨f | x, l'⟩
      · rw [serve_pass_error hnext, serve_pass_error (h.next ▸ hnext)]
        exact ⟨rfl, fun hfault => by cases hfault⟩
      · rw [serve_pass hnext, serve_pass (h.next ▸ hnext)]
        obtain ⟨hreports, hquiet⟩ := ih (.inl rfl : Ahead l' l')
        exact ⟨congrArg (report x l' :: ·) hreports, hquiet⟩
    | look =>
      rw [passes_look]
      rcases hpeek : l.peek with ⟨f | t, l'⟩
      · obtain rfl := h.peek_error hpeek
        obtain ⟨after, hnext⟩ := next_of_peek_error hpeek
        rw [serve_look_error hpeek]
        exact ⟨(serve_passes_error hnext rs).1.symm, fun hfault => by cases hfault⟩
      · rw [serve_look hpeek]
        exact ih (h.peek hpeek)

theorem serve_fault (h : Ahead l₀ l) (rs : List Request) :
    (serve (rs ++ [.pass]) l).fault = (serve (passes (rs ++ [.pass])) l₀).fault := by
  induction rs generalizing l l₀ with
  | nil =>
    show (serve [.pass] l).fault = (serve [.pass] l₀).fault
    rcases hnext : l.next with ⟨f | x, l'⟩
    · rw [serve_pass_error hnext, serve_pass_error (h.next ▸ hnext)]
    · rw [serve_pass hnext, serve_pass (h.next ▸ hnext)]
  | cons r rs ih =>
    cases r with
    | pass =>
      rw [List.cons_append, passes_pass]
      rcases hnext : l.next with ⟨f | x, l'⟩
      · rw [serve_pass_error hnext, serve_pass_error (h.next ▸ hnext)]
      · rw [serve_pass hnext, serve_pass (h.next ▸ hnext)]
        exact ih (.inl rfl)
    | look =>
      rw [List.cons_append, passes_look]
      rcases hpeek : l.peek with ⟨f | t, l'⟩
      · obtain rfl := h.peek_error hpeek
        obtain ⟨after, hnext⟩ := next_of_peek_error hpeek
        rw [serve_look_error hpeek]
        rcases (serve_passes_error hnext (rs ++ [.pass])).2 with hfault | hnil
        · exact hfault.symm
        · simp [passes] at hnil
      · rw [serve_look hpeek]
        exact ih (h.peek hpeek)

theorem serve_looks (h : l.peek = (.ok t, l')) (n : Nat) :
    ∃ r after, serve (List.replicate n .look ++ [.pass]) l' = ⟨[r], none, after⟩ ∧ r.current = t := by
  induction n with
  | zero =>
    obtain ⟨after, hnext, heq, htoken⟩ := next_of_peek h
    rw [List.replicate_zero, List.nil_append, serve_pass (heq ▸ hnext)]
    exact ⟨_, _, rfl, htoken⟩
  | succ n ih =>
    rw [List.replicate_succ, List.cons_append, serve_look (peek_of_peek h)]
    exact ih

/-! ## 4. At the end -/

structure Lasting (l : Lexer) : Prop where
  current : l.current.token = .eof →
    l.cursor.scan = (.ok l.current, l.cursor) ∧ ∀ x, l.ahead = some x → x = l.current
  ahead : ∀ x, l.ahead = some x → x.token = .eof → l.cursor.scan = (.ok x, l.cursor)

theorem lasting_start {source : Bytes} (h : Lexer.start source = .ok l) : Lasting l := by
  unfold Lexer.start at h
  split at h
  · next x c hscan =>
    cases h
    exact ⟨fun heof => ⟨Cursor.scan_eof hscan heof, by simp⟩, by simp⟩
  · cases h

theorem Lasting.next (h : Lasting l) (hnext : l.next = (.ok x, l')) : Lasting l' := by
  obtain ⟨-, -, hcases, hnone⟩ := next_ok hnext
  refine ⟨fun heof => ⟨?_, by simp [hnone]⟩, by simp [hnone]⟩
  rcases hcases with ⟨hahead, hcursor⟩ | hscan
  · rw [hcursor]
    exact h.ahead _ hahead heof
  · exact Cursor.scan_eof hscan heof

theorem Lasting.peek (h : Lasting l) (hpeek : l.peek = (.ok t, l')) : Lasting l' := by
  obtain ⟨x, -, hl', hcases⟩ := peek_cases hpeek
  rcases hcases with ⟨-, rfl⟩ | ⟨hnone, hscan⟩
  · exact h
  · have hcurrent : l'.current = l.current := by rw [hl']
    have hahead : l'.ahead = some x := by rw [hl']
    refine ⟨fun heof => ?_, fun y hy heof => ?_⟩
    · rw [hcurrent] at heof ⊢
      obtain ⟨hsame, -⟩ := h.current heof
      rw [hsame, Prod.mk.injEq, Except.ok.injEq] at hscan
      obtain ⟨rfl, hcursor⟩ := hscan
      refine ⟨hcursor ▸ hsame, fun y hy => ?_⟩
      rw [hahead] at hy
      cases hy
      rfl
    · rw [hahead] at hy
      cases hy
      exact Cursor.scan_eof hscan heof

theorem Lasting.serve (h : Lasting l) (hfault : (serve rs l).fault = none) : Lasting (serve rs l).after := by
  induction rs generalizing l with
  | nil => exact h
  | cons r rs ih =>
    cases r with
    | pass =>
      rcases hnext : l.next with ⟨f | x, l'⟩
      · rw [serve_pass_error hnext] at hfault
        cases hfault
      · rw [serve_pass hnext] at hfault ⊢
        exact ih (h.next hnext) hfault
    | look =>
      rcases hpeek : l.peek with ⟨f | t, l'⟩
      · rw [serve_look_error hpeek] at hfault
        cases hfault
      · rw [serve_look hpeek] at hfault ⊢
        exact ih (h.peek hpeek) hfault

theorem Lasting.next_end (h : Lasting l) (heof : l.current.token = .eof) :
    ∃ l', l.next = (.ok l.current, l') ∧ l'.current = l.current := by
  obtain ⟨hscan, hsame⟩ := h.current heof
  cases hahead : l.ahead with
  | none => exact ⟨_, next_scan hahead hscan, rfl⟩
  | some x => exact ⟨_, next_ahead hahead, hsame x hahead⟩

theorem Lasting.peek_end (h : Lasting l) (heof : l.current.token = .eof) :
    ∃ l', l.peek = (.ok .eof, l') ∧ l'.current = l.current := by
  obtain ⟨hscan, hsame⟩ := h.current heof
  cases hahead : l.ahead with
  | none =>
    refine ⟨{ l with ahead := some l.current }, ?_, rfl⟩
    rw [Lexer.peek, hahead]
    simp only [hscan, heof]
  | some x =>
    refine ⟨l, ?_, rfl⟩
    rw [Lexer.peek, hahead]
    simp only [hsame x hahead, heof]

theorem serve_end (h : Lasting l) (heof : l.current.token = .eof) (rs : List Request) :
    (serve rs l).fault = none ∧ (serve rs l).after.current = l.current ∧
      (serve rs l).reports.length = rs.count .pass ∧
      ∀ r ∈ (serve rs l).reports, r.passed = l.current ∧ r.current = .eof := by
  induction rs generalizing l with
  | nil => exact ⟨rfl, rfl, rfl, List.forall_mem_nil _⟩
  | cons r rs ih =>
    cases r with
    | pass =>
      obtain ⟨l', hnext, hcurrent⟩ := h.next_end heof
      obtain ⟨hfault, hafter, hlength, hreports⟩ := ih (h.next hnext) (hcurrent ▸ heof)
      rw [hcurrent] at hafter hreports
      rw [serve_pass hnext]
      refine ⟨hfault, hafter, ?_, List.forall_mem_cons.mpr ⟨⟨rfl, ?_⟩, hreports⟩⟩
      · rw [List.count_cons_self, ← hlength]
        rfl
      · show l'.current.token = .eof
        rw [hcurrent, heof]
    | look =>
      obtain ⟨l', hpeek, hcurrent⟩ := h.peek_end heof
      obtain ⟨hfault, hafter, hlength, hreports⟩ := ih (h.peek hpeek) (hcurrent ▸ heof)
      rw [hcurrent] at hafter hreports
      rw [serve_look hpeek]
      exact ⟨hfault, hafter, by simpa using hlength, hreports⟩

/-- **Looking ahead is transparent.** Whatever is asked of a lexer, the tokens that are passed and what the lexer says
    after each are those without the looks, up to the first fault, and so is that fault; a token that was seen is the one
    that becomes current, a step that fails keeps the current token, and behind the end there is only the end. -/
theorem lookahead_transparent (source : Bytes) (l : Lexer) (hstart : Lexer.start source = .ok l) (rs : List Request) :
    (serve rs l).reports = (serve (passes rs) l).reports ∧
    (serve (rs ++ [.pass]) l).fault = (serve (passes (rs ++ [.pass])) l).fault ∧
    ((serve rs l).fault = none →
      ((serve (passes rs) l).fault = none ∧ (serve rs l).after.current = (serve (passes rs) l).after.current ∧
        (serve rs l).after.lastLine = (serve (passes rs) l).after.lastLine) ∧
      (∀ t l', (serve rs l).after.peek = (.ok t, l') → ∀ n, ∃ r after,
        serve (List.replicate n .look ++ [.pass]) l' = ⟨[r], none, after⟩ ∧ r.current = t) ∧
      (∀ e l', (serve rs l).after.next = (.error e, l') → l'.current = (serve rs l).after.current) ∧
      ((serve rs l).after.current.token = .eof → ∀ more,
        (serve more (serve rs l).after).fault = none ∧
        (serve more (serve rs l).after).reports.length = more.count .pass ∧
        ∀ r ∈ (serve more (serve rs l).after).reports,
          r.passed = (serve rs l).after.current ∧ r.current = .eof)) := by
  obtain ⟨hreports, hquiet⟩ := serve_passes (.inl rfl : Ahead l l) rs
  refine ⟨hreports, serve_fault (.inl rfl) rs, fun hfault => ?_⟩
  obtain ⟨hfault', hahead⟩ := hquiet hfault
  refine ⟨⟨hfault', hahead.current⟩, ?_, ?_, ?_⟩
  · exact fun t l' hpeek n => serve_looks hpeek n
  · exact fun e l' hnext => next_error hnext
  · intro heof more
    obtain ⟨hmore, -, hlength, hall⟩ := serve_end ((lasting_start hstart).serve hfault) heof more
    exact ⟨hmore, hlength, hall⟩

def twoTokens : Bytes := [0x2B, 0x0A, 0x27, 0x61, 0x27]

theorem lookahead_transparent_twice : ∃ l, Lexer.start twoTokens = .ok l ∧
    (serve [.look, .look, .pass, .look, .pass] l).reports = (serve [.pass, .pass] l).reports ∧
    (serve [.pass, .pass] l).reports.map (fun r => (r.passed.start, r.current, r.line, r.lastLine)) =
      [(0, .str [0x61], 2, 1), (2, .eof, 2, 2)] := by
  have hstart : ∃ l, Lexer.start twoTokens = .ok l ∧
      (serve [.pass, .pass] l).reports.map (fun r => (r.passed.start, r.current, r.line, r.lastLine)) =
        [(0, .str [0x61], 2, 1), (2, .eof, 2, 2)] := ⟨_, rfl, rfl⟩
  obtain ⟨l, hl, hreports⟩ := hstart
  obtain ⟨hsame, -⟩ := lookahead_transparent twoTokens l hl [.look, .look, .pass, .look, .pass]
  exact ⟨l, hl, hsame, hreports⟩

end Lexer

end LuaMachine
