/-
  WHAT A STEP OF THE COMPILATION LEAVES BEHIND. Tokens are read and forgotten; what the proofs are about are
  the drafts. Two judgements say what holds of them if a step does not end the compilation.
-/
import LuaMachine.Compiler.State

namespace LuaMachine

structure Drafts where
  fn : Draft
  outer : List Draft
  source : Bytes

def Compiler.drafts (s : Compiler) : Drafts := ⟨s.fn, s.outer, s.source⟩

namespace Compile

variable {α β : Type}

def Leads (x : Compile α) (w : Drafts) (Q : α → Drafts → Prop) : Prop :=
  ∀ s a s', s.drafts = w → x s = .ok (a, s') → Q a s'.drafts

/-- From this innermost draft the step fails, or leads to an answer and an innermost draft with `Q`;
    it touches no other draft and reads no token. -/
def Writes (x : Compile α) (d : Draft) (Q : α → Draft → Prop) : Prop :=
  ∀ s a s', s.fn = d → x s = .ok (a, s') → s' = { s with fn := s'.fn } ∧ Q a s'.fn

/-! ## 1. Steps one after another -/

theorem bind_ok {x : Compile α} {f : α → Compile β} {s s' : Compiler} {b : β}
    (h : (x >>= f) s = .ok (b, s')) : ∃ a t, x s = .ok (a, t) ∧ f a t = .ok (b, s') := by
  change (x s >>= fun v => f v.1 v.2) = _ at h
  cases hx : x s with
  | error e =>
    rw [hx] at h
    exact nomatch h
  | ok v =>
    rw [hx] at h
    exact ⟨v.1, v.2, rfl, h⟩

theorem map_ok {x : Compile α} {f : α → β} {s s' : Compiler} {b : β}
    (h : (f <$> x) s = .ok (b, s')) : ∃ a, x s = .ok (a, s') ∧ f a = b := by
  change (x s >>= fun v => pure (f v.1, v.2)) = _ at h
  cases hx : x s with
  | error e =>
    rw [hx] at h
    exact nomatch h
  | ok v =>
    rw [hx] at h
    cases h
    exact ⟨v.1, rfl, rfl⟩

theorem pure_ok {a b : α} {s s' : Compiler} (h : (pure a : Compile α) s = .ok (b, s')) :
    b = a ∧ s' = s := by
  change Except.ok (a, s) = _ at h
  simp only [Except.ok.injEq, Prod.mk.injEq] at h
  exact ⟨h.1.symm, h.2.symm⟩

namespace Writes

variable {x : Compile α} {f : α → Compile β} {d : Draft}

theorem bind {Q : β → Draft → Prop} (h : Writes x d fun a d' => Writes (f a) d' Q) :
    Writes (x >>= f) d Q := by
  intro s b s' hs h'
  obtain ⟨a, t, hx, hf⟩ := bind_ok h'
  obtain ⟨ht, hq⟩ := h s a t hs hx
  obtain ⟨ht', hq'⟩ := hq t b s' rfl hf
  exact ⟨by rw [ht', ht], hq'⟩

theorem imp {Q Q' : α → Draft → Prop} (h : Writes x d Q) (hQ : ∀ a d', Q a d' → Q' a d') :
    Writes x d Q' := by
  intro s a s' hs h'
  obtain ⟨ht, hq⟩ := h s a s' hs h'
  exact ⟨ht, hQ _ _ hq⟩

theorem andThen {P : α → Draft → Prop} {Q : β → Draft → Prop} (h : Writes x d P)
    (hf : ∀ a d', P a d' → Writes (f a) d' Q) : Writes (x >>= f) d Q :=
  (h.imp hf).bind

theorem pure {Q : α → Draft → Prop} {a : α} (h : Q a d) : Writes (Pure.pure a) d Q := by
  intro s b s' hs h'
  obtain ⟨rfl, rfl⟩ := pure_ok h'
  exact ⟨rfl, by rw [hs]; exact h⟩

theorem discard {Q : Unit → Draft → Prop} (h : Writes x d fun _ d' => Q () d') :
    Writes (discard x) d Q := by
  intro s b s' hs h'
  obtain ⟨a, hx, -⟩ := map_ok h'
  exact h s a s' hs hx

theorem get {f : Compiler → Compile β} {Q : β → Draft → Prop}
    (h : ∀ s, s.fn = d → Writes (f s) d Q) : Writes (MonadState.get >>= f) d Q := by
  intro s b s' hs h'
  exact h s hs s b s' hs h'

theorem ofFn {g : Draft → α} {Q : α → Draft → Prop} (h : Q (g d) d) : Writes (ofFn g) d Q := by
  refine get fun s hs => pure ?_
  rw [hs]
  exact h

theorem modifyFn {g : Draft → Draft} {Q : Unit → Draft → Prop} (h : Q () (g d)) :
    Writes (modifyFn g) d Q := by
  intro s b s' hs h'
  change Except.ok ((), { s with fn := g s.fn }) = _ at h'
  simp only [Except.ok.injEq, Prod.mk.injEq] at h'
  rw [← h'.2]
  exact ⟨rfl, by rw [hs]; exact h⟩

theorem failNear {Q : α → Draft → Prop} {e : CompileFault} : Writes (failNear e) d Q := by
  intro s b s' _ h'
  exact nomatch h'

theorem failPlain {Q : α → Draft → Prop} {e : CompileFault} : Writes (failPlain e) d Q := by
  intro s b s' _ h'
  exact nomatch h'

theorem failLimit {Q : α → Draft → Prop} {what : Limited} {n : Nat} :
    Writes (failLimit what n) d Q := by
  intro s b s' _ h'
  exact nomatch h'

theorem demand {rule : RegisterRule} {keeps : Draft → Bool} :
    Writes (demand rule keeps) d fun _ d' => d' = d ∧ keeps d = true := by
  refine get fun s hs => ?_
  subst hs
  cases hk : keeps s.fn with
  | true => exact pure ⟨rfl, rfl⟩
  | false => exact failNear

theorem demanding {rule : RegisterRule} {keeps : Draft → Bool} {Q : β → Draft → Prop} {f : Unit → Compile β}
    (h : keeps d = true → Writes (f ()) d Q) : Writes (Compile.demand rule keeps >>= f) d Q := by
  refine demand.andThen fun _ d' hd => ?_
  obtain ⟨rfl, hk⟩ := hd
  exact h hk

end Writes

namespace Leads

variable {x : Compile α} {f : α → Compile β} {w : Drafts}

theorem bind {Q : β → Drafts → Prop} (h : Leads x w fun a w' => Leads (f a) w' Q) :
    Leads (x >>= f) w Q := by
  intro s b s' hs h'
  obtain ⟨a, t, hx, hf⟩ := bind_ok h'
  exact h s a t hs hx t b s' rfl hf

theorem imp {Q Q' : α → Drafts → Prop} (h : Leads x w Q) (hQ : ∀ a w', Q a w' → Q' a w') :
    Leads x w Q' :=
  fun s a s' hs h' => hQ _ _ (h s a s' hs h')

theorem andThen {P : α → Drafts → Prop} {Q : β → Drafts → Prop} (h : Leads x w P)
    (hf : ∀ a w', P a w' → Leads (f a) w' Q) : Leads (x >>= f) w Q :=
  (h.imp hf).bind

theorem pure {Q : α → Drafts → Prop} {a : α} (h : Q a w) : Leads (Pure.pure a) w Q := by
  intro s b s' hs h'
  obtain ⟨rfl, rfl⟩ := pure_ok h'
  rw [hs]
  exact h

theorem discard {Q : Unit → Drafts → Prop} (h : Leads x w fun _ w' => Q () w') :
    Leads (discard x) w Q := by
  intro s b s' hs h'
  obtain ⟨a, hx, -⟩ := map_ok h'
  exact h s a s' hs hx

theorem get {f : Compiler → Compile β} {Q : β → Drafts → Prop}
    (h : ∀ s, s.drafts = w → Leads (f s) w Q) : Leads (MonadState.get >>= f) w Q :=
  fun s b s' hs h' => h s hs s b s' hs h'

theorem failNear {Q : α → Drafts → Prop} {e : CompileFault} : Leads (failNear e) w Q := by
  intro s b s' _ h'
  exact nomatch h'

theorem set {t : Compiler} {Q : PUnit → Drafts → Prop} (h : Q ⟨⟩ t.drafts) :
    Leads (MonadStateOf.set t) w Q := by
  intro s b s' _ h'
  cases h'
  exact h

theorem modify {f : Compiler → Compiler} {Q : PUnit → Drafts → Prop}
    (h : ∀ s, s.drafts = w → Q ⟨⟩ (f s).drafts) : Leads (MonadStateOf.modifyGet fun s => (⟨⟩, f s)) w Q := by
  intro s b s' hs h'
  cases h'
  exact h s hs

theorem ofWrites {P : α → Draft → Prop} {Q : α → Drafts → Prop} (h : Writes x w.fn P)
    (hQ : ∀ a d, P a d → Q a { w with fn := d }) : Leads x w Q := by
  intro s a s' hs h'
  obtain ⟨ht, hp⟩ := h s a s' (by rw [← hs]; rfl) h'
  have := hQ a s'.fn hp
  rw [← hs] at this
  rw [ht]
  exact this

theorem modifyFn {g : Draft → Draft} {Q : Unit → Drafts → Prop} (h : Q () { w with fn := g w.fn }) :
    Leads (modifyFn g) w Q :=
  ofWrites (P := fun _ d => d = g w.fn) (Writes.modifyFn rfl) (by rintro _ _ rfl; exact h)

theorem failPlain {Q : α → Drafts → Prop} {e : CompileFault} : Leads (failPlain e) w Q := by
  intro s b s' _ h'
  exact nomatch h'

theorem failLimit {Q : α → Drafts → Prop} {what : Limited} {n : Nat} :
    Leads (failLimit what n) w Q := by
  intro s b s' _ h'
  exact nomatch h'

theorem demanding {rule : RegisterRule} {keeps : Draft → Bool} {f : Unit → Compile β} {Q : β → Drafts → Prop}
    (h : keeps w.fn = true → Leads (f ()) w Q) : Leads (Compile.demand rule keeps >>= f) w Q :=
  (ofWrites (P := fun _ d => d = w.fn ∧ keeps w.fn = true) Writes.demand
    (Q := fun _ w' => w' = w ∧ keeps w.fn = true) (by rintro _ _ ⟨rfl, hk⟩; exact ⟨rfl, hk⟩)).andThen
    (by rintro _ _ ⟨rfl, hk⟩; exact h hk)

theorem write {P : α → Draft → Prop} {Q : β → Drafts → Prop} (h : Writes x w.fn P)
    (hf : ∀ a d, P a d → Leads (f a) { w with fn := d } Q) : Leads (x >>= f) w Q :=
  (ofWrites h hf).bind

end Leads

/-! ## 2. Steps that read tokens -/

def Reads (x : Compile α) : Prop := ∀ s a s', x s = .ok (a, s') → s'.drafts = s.drafts

namespace Reads

variable {x : Compile α} {f : α → Compile β}

theorem bind (hx : Reads x) (hf : ∀ a, Reads (f a)) : Reads (x >>= f) := by
  intro s b s' h
  obtain ⟨a, t, ha, hb⟩ := bind_ok h
  exact (hf a t b s' hb).trans (hx s a t ha)

theorem pure {a : α} : Reads (Pure.pure a) := by
  intro s b s' h
  obtain ⟨-, rfl⟩ := pure_ok h
  rfl

theorem get : Reads (MonadState.get : Compile Compiler) := by
  intro s b s' h
  cases h
  rfl

theorem failNear {e : CompileFault} : Reads (failNear e : Compile α) := by
  intro s b s' h
  exact nomatch h

theorem failLexical {e : LexError} : Reads (failLexical e : Compile α) := by
  intro s b s' h
  exact nomatch h

theorem token : Reads token := get.bind fun _ => pure

theorem line : Reads line := get.bind fun _ => pure

theorem next : Reads next := by
  intro s b s' h
  unfold Compile.next at h
  obtain ⟨a, t, ha, hb⟩ := bind_ok h
  cases ha
  cases hs : s.ahead with
  | cons x rest =>
    simp only [hs] at hb
    cases hb
    rfl
  | nil =>
    cases hf : s.fault with
    | some e =>
      simp only [hs, hf] at hb
      exact nomatch hb
    | none =>
      simp only [hs, hf] at hb
      cases hb
      rfl

theorem peek : Reads peek := by
  refine get.bind fun s => ?_
  split
  · exact pure
  · split
    · exact failLexical
    · exact pure

theorem check {t : Token} : Reads (check t) := by
  refine token.bind fun _ => ?_
  split
  · exact failNear
  · exact pure

theorem checkNext {t : Token} : Reads (checkNext t) := check.bind fun _ => next

theorem testNext {t : Token} : Reads (testNext t) := by
  refine token.bind fun _ => ?_
  split
  · exact next.bind fun _ => pure
  · exact pure

theorem checkMatch {what opener : Token} {n : Nat} : Reads (checkMatch what opener n) := by
  refine testNext.bind fun _ => ?_
  split
  · refine line.bind fun _ => ?_
    split <;> exact failNear
  · exact pure

theorem checkName : Reads checkName := by
  refine token.bind fun _ => ?_
  split
  · exact next.bind fun _ => pure
  · exact failNear

theorem atBlockEnd {b : Bool} : Reads (atBlockEnd b) := token.bind fun _ => pure

end Reads

theorem Leads.ofReads {x : Compile α} {w : Drafts} {Q : α → Drafts → Prop} (h : Reads x)
    (hq : ∀ a, Q a w) : Leads x w Q := by
  intro s a s' hs h'
  rw [h s a s' h', hs]
  exact hq a

theorem Leads.read {x : Compile α} {f : α → Compile β} {w : Drafts} {Q : β → Drafts → Prop}
    (h : Reads x) (hf : ∀ a, Leads (f a) w Q) : Leads (x >>= f) w Q := by
  intro s b s' hs h'
  obtain ⟨a, t, hx, hb⟩ := bind_ok h'
  exact hf a t b s' ((h s a t hx).trans hs) hb

end Compile

end LuaMachine
