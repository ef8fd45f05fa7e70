/-
  NAMES LOOKED UP. What reading a name gives in one state of the compiler, and which names a computation
  reads in which states.
-/
import LuaMachine.Proofs.Lexical.Quiet
import LuaMachine.Proofs.Lexical.Resolution

namespace LuaMachine.Lexical

/-! ## 1. The names that are read -/

abbrev Reader := Bytes → Compile Expr

structure Lookup where
  name : Bytes
  state : Compiler

def Agrees (f : Reader) (q : Lookup) : Prop := f q.name q.state = Compile.named q.name q.state

/-- **The names that a computation reads**, in order, each in its state: it depends on how these are read only,
    and if one of them fails, those before being read as always, then so does the computation. -/
structure Asks {α : Type} (c : Reader → Except CompileError α) (log : List Lookup) : Prop where
  only : ∀ f : Reader, (∀ q ∈ log, Agrees f q) → c f = c Compile.named
  each : ∀ (f : Reader) (before : List Lookup) (q : Lookup) (after : List Lookup) (e : CompileError),
    log = before ++ q :: after → (∀ r ∈ before, Agrees f r) → f q.name q.state = .error e → c f = .error e

namespace Asks

variable {α β : Type} {c : Reader → Except CompileError α} {log log' : List Lookup}

theorem none (r : Except CompileError α) : Asks (fun _ => r) [] :=
  ⟨fun _ _ => rfl, fun _ before _ _ _ h => by cases before <;> cases h⟩

theorem one (n : Bytes) (s : Compiler) : Asks (fun f : Reader => f n s) [⟨n, s⟩] := by
  refine ⟨fun f h => h _ (List.mem_singleton_self _), fun f before q after e h _ he => ?_⟩
  cases before with
  | nil =>
    cases h
    exact he
  | cons r before => cases before <;> cases h

theorem stop {k : α → Reader → Except CompileError β} {e : CompileError} (h : Asks c log) (hc : c Compile.named = .error e) :
    Asks (fun f => c f >>= fun a => k a f) log := by
  refine ⟨fun f hf => ?_, fun f before q after e' hlog hb he => ?_⟩
  · rw [h.only f hf, hc]
    rfl
  · rw [h.each f before q after e' hlog hb he]
    rfl

theorem bind {k : α → Reader → Except CompileError β} {a : α} (h : Asks c log) (hc : c Compile.named = .ok a)
    (hk : Asks (k a) log') : Asks (fun f => c f >>= fun a => k a f) (log ++ log') := by
  have hok : ∀ f : Reader, (∀ q ∈ log, Agrees f q) → (c f >>= fun a => k a f) = k a f := by
    intro f hf
    rw [h.only f hf, hc]
    rfl
  refine ⟨fun f hf => ?_, fun f before q after e hlog hb he => ?_⟩
  · show (c f >>= fun a => k a f) = (c Compile.named >>= fun a => k a Compile.named)
    rw [hok f fun q hq => hf q (List.mem_append_left _ hq), hok Compile.named fun _ _ => rfl]
    exact hk.only f fun q hq => hf q (List.mem_append_right _ hq)
  · show (c f >>= fun a => k a f) = .error e
    rcases List.append_eq_append_iff.mp hlog with ⟨mid, rfl, hafter⟩ | ⟨mid, hfirst, hsecond⟩
    · rw [hok f fun q hq => hb q (List.mem_append_left _ hq)]
      exact hk.each f mid q after e hafter (fun r hr => hb r (List.mem_append_right _ hr)) he
    · cases mid with
      | nil =>
        rw [List.append_nil] at hfirst
        rw [hok f fun q hq => hb q (hfirst ▸ hq)]
        exact hk.each f [] q after e hsecond.symm (fun _ hr => absurd hr List.not_mem_nil) he
      | cons r mid =>
        cases hsecond
        rw [h.each f before q mid e hfirst hb he]
        rfl

theorem followed (h : Asks c log) (k : α → Except CompileError β) : Asks (fun f => c f >>= k) log := by
  cases hc : c Compile.named with
  | error e => exact h.stop (k := fun a _ => k a) hc
  | ok a => exact List.append_nil log ▸ h.bind (k := fun a _ => k a) hc (none _)

end Asks

/-! ## 2. What reading a name gives -/

def Stands (fs : List Scope) (k r : Nat) : Place → Prop
  | .localVar r' => k = 0 ∧ r' = r
  | .upvalue i => Reaches fs i k r ∧ ∀ j, Reaches fs j k r → j = i
  | _ => False

/-- A name is looked up, and found to be its innermost variable. If that is a local of a function further out,
    then the block of the local is marked. -/
structure Finds (fs : List Scope) (name : Bytes) (s : Compiler) (p : Place) (s' : Compiler) : Prop where
  lookup : Compile.lookup name s = .ok (some p, s')
  stands : ∃ k r, Binds name fs k r ∧ Stands fs k r p ∧
    (0 < k → ∀ d, (s'.fn :: s'.outer)[k]? = some d → d.CapturedAt r)

def fieldOf (p : Place) (name : Bytes) : Compile Expr := do
  let k ← Compile.addConstant (.str name)
  Compile.indexed (.plain p) (.plain (.constant k))

/-- **Reading a name gives its innermost variable**; if it has none, the field of that name of what the name of
    the environment denotes. -/
inductive Resolved (fs : List Scope) (q : Lookup) : Prop where
  | bound {p : Place} {s' : Compiler} (found : Finds fs q.name q.state p s')
      (read : Compile.named q.name q.state = .ok (.plain p, s'))
  | free {p : Place} {s' : Compiler} (unbound : ∀ k r, ¬ Binds q.name fs k r)
      (found : Finds fs Compile.environmentName q.state p s')
      (read : Compile.named q.name q.state = fieldOf p q.name s')

def Overflows (q : Lookup) : Prop :=
  ∃ d ∈ q.state.fn :: q.state.outer, Compile.maxUpvalues ≤ d.upvalues.size ∧
    ∃ e, Compile.named q.name q.state = .error e ∧ e.fault = .tooMany .upvalues Compile.maxUpvalues d.lineDefined

/-- Reading the name gives the variable that is visible to the functions being written, or there is no room for
    another upvalue. -/
def Answered (q : Lookup) : Prop :=
  Overflows q ∨ ∃ fs, fs.map (·.names) = (scopes (q.state.fn :: q.state.outer)).map (·.names) ∧ Resolved fs q

/-! ## 3. Every name is answered -/

variable {name : Bytes} {s s' : Compiler} {p : Place} {e : CompileError}

theorem lookup_run (name : Bytes) (s : Compiler) : Compile.lookup name s = (match resolve name true (s.fn :: s.outer) with
    | .error line => Compile.failNear (.tooMany .upvalues Compile.maxUpvalues line)
    | .ok (some (v, fn :: outer)) => do
      set { s with fn := fn, outer := outer }
      return some v.place
    | .ok _ => return none : Compile (Option Place)) s := rfl

theorem lookup_eq (name : Bytes) (s : Compiler) : Compile.lookup name s = match resolve name true (s.fn :: s.outer) with
    | .error line => .error ⟨.tooMany .upvalues Compile.maxUpvalues line, s.chunk, s.current.line, some s.current.near⟩
    | .ok (some (v, fn :: outer)) => .ok (some v.place, { s with fn := fn, outer := outer })
    | .ok _ => .ok (none, s) := by
  rw [lookup_run]
  cases resolve name true (s.fn :: s.outer) with
  | error line => rfl
  | ok o =>
    cases o with
    | none => rfl
    | some x =>
      obtain ⟨v, ds⟩ := x
      cases ds <;> rfl

structure Takes (s s' : Compiler) : Prop where
  settled : Settled (s'.fn :: s'.outer)
  captured : CapturedAll (s.fn :: s.outer) (s'.fn :: s'.outer)
  rest : s' = { s with fn := s'.fn, outer := s'.outer }

/-- **A name that is found is its innermost variable.** -/
theorem lookup_finds (hs : Settled (s.fn :: s.outer)) (h : Compile.lookup name s = .ok (some p, s')) :
    Takes s s' ∧ ∀ fs, Grown (scopes (s'.fn :: s'.outer)) fs → Sound fs → Finds fs name s p s' := by
  have hlookup := h
  rw [lookup_eq] at h
  split at h
  · cases h
  · next v fn outer hres =>
    cases h
    obtain ⟨k, r, hv, -⟩ := resolve_resolves hres hs
    refine ⟨⟨hv.settled, hv.captured, rfl⟩, fun fs hg hsound => ⟨hlookup, k, r, ?_, ?_, ?_⟩⟩
    · exact hg.binds.mpr ((grown_scopes hv.captured).binds.mpr hv.binds)
    · have hleads := hv.leads
      cases v with
      | register r' => exact hleads
      | upvalue i =>
        have hreaches := hg.reaches hleads
        cases fs with
        | cons f around => exact ⟨hreaches, fun j hj => hsound.1.index_unique hreaches hj⟩
        | nil => cases hreaches
    · intro hk
      have hleads := hv.leads
      cases v with
      | register r' => omega
      | upvalue i => exact hv.settled.guarded.capturedAt hleads
  · cases h

/-- **A name that is not found is not bound.** -/
theorem lookup_unbound (hs : Settled (s.fn :: s.outer)) (h : Compile.lookup name s = .ok (none, s')) :
    s' = s ∧ ∀ k r, ¬ Binds name (scopes (s.fn :: s.outer)) k r := by
  rw [lookup_eq] at h
  split at h
  · cases h
  · cases h
  · next o hnot hres =>
    cases h
    refine ⟨rfl, ?_⟩
    cases o with
    | none => exact resolve_unbound hres hs
    | some x =>
      obtain ⟨v, ds'⟩ := x
      obtain ⟨k, r, hv, -⟩ := resolve_resolves hres hs
      cases hv.captured with
      | cons _ _ => exact absurd rfl (hnot v _ _)

/-- **There is no room for another upvalue** if looking a name up fails. -/
theorem lookup_overflows (h : Compile.lookup name s = .error e) :
    ∃ d ∈ s.fn :: s.outer, Compile.maxUpvalues ≤ d.upvalues.size ∧
      e.fault = .tooMany .upvalues Compile.maxUpvalues d.lineDefined := by
  rw [lookup_eq] at h
  split at h
  · next line hres =>
    cases h
    obtain ⟨d, hd, rfl, hfull⟩ := resolve_overflows hres
    exact ⟨d, hd, hfull, rfl⟩
  · cases h
  · cases h

theorem environment_bound {ds : List Draft} (ht : ∀ d ∈ ds, d.Tidy) :
    ∃ k r, Binds Compile.environmentName (scopes ds) k r := by
  induction ds with
  | nil =>
    refine ⟨0, 0, .own rfl fun r' hr' => ?_⟩
    rw [Scope.environment, List.getElem?_eq_none (by rw [List.length_singleton]; omega)]
    simp
  | cons d ds ih =>
    have hactive := (ht d (List.mem_cons_self ..)).active
    cases hd : d.findLocal? Compile.environmentName with
    | some r => exact ⟨0, r, Draft.binds_of_findLocal hactive hd⟩
    | none =>
      obtain ⟨k, r, hb⟩ := ih fun p hp => ht p (List.mem_cons_of_mem _ hp)
      exact ⟨k + 1, r, .outer (Draft.absent_of_findLocal hactive hd) hb⟩

theorem named_run (name : Bytes) (s : Compiler) : Compile.named name s =
    (Compile.lookup name s >>= fun v => (match v.1 with
      | some p => return .plain p
      | none => do
        let env ← Compile.lookup Compile.environmentName
        fieldOf (env.getD .void) name : Compile Expr) v.2) := rfl

theorem fieldOf_environment (name : Bytes) (s : Compiler) :
    (Compile.lookup Compile.environmentName s >>= fun v => fieldOf (v.1.getD .void) name v.2) =
      match Compile.lookup Compile.environmentName s with
      | .error e => .error e
      | .ok (env, s') => fieldOf (env.getD .void) name s' := by
  cases Compile.lookup Compile.environmentName s with
  | error e => rfl
  | ok v => rfl

theorem named_eq (name : Bytes) (s : Compiler) : Compile.named name s = match Compile.lookup name s with
    | .error e => .error e
    | .ok (some p, s') => .ok (.plain p, s')
    | .ok (none, s1) => match Compile.lookup Compile.environmentName s1 with
      | .error e => .error e
      | .ok (env, s') => fieldOf (env.getD .void) name s' := by
  rw [named_run]
  cases Compile.lookup name s with
  | error e => rfl
  | ok v =>
    obtain ⟨o, s1⟩ := v
    cases o with
    | some p => rfl
    | none => exact fieldOf_environment name s1

/-- **What reading a name gives**: there is no room for another upvalue, or it is resolved wherever the functions
    grow to. -/
theorem named_spec (name : Bytes) (hs : Settled (s.fn :: s.outer)) :
    Overflows ⟨name, s⟩ ∨ ∃ s1, Takes s s1 ∧
      (∀ fs, Grown (scopes (s1.fn :: s1.outer)) fs → Sound fs → Resolved fs ⟨name, s⟩) ∧
      ∃ p, Compile.named name s = .ok (.plain p, s1) ∨ Compile.named name s = fieldOf p name s1 := by
  have hnamed := named_eq name s
  cases hl : Compile.lookup name s with
  | error e =>
    rw [hl] at hnamed
    obtain ⟨d, hd, hfull, hfault⟩ := lookup_overflows hl
    exact .inl ⟨d, hd, hfull, e, hnamed, hfault⟩
  | ok v =>
    obtain ⟨o, s1⟩ := v
    rw [hl] at hnamed
    cases o with
    | some p =>
      obtain ⟨ht, hf⟩ := lookup_finds hs hl
      exact .inr ⟨s1, ht, fun fs hg hsound => .bound (hf fs hg hsound) hnamed, p, .inl hnamed⟩
    | none =>
      obtain ⟨rfl, hunbound⟩ := lookup_unbound hs hl
      dsimp only at hnamed
      cases he : Compile.lookup Compile.environmentName s1 with
      | error e =>
        rw [he] at hnamed
        obtain ⟨d, hd, hfull, hfault⟩ := lookup_overflows he
        exact .inl ⟨d, hd, hfull, e, hnamed, hfault⟩
      | ok v =>
        obtain ⟨env, s2⟩ := v
        rw [he] at hnamed
        cases env with
        | none =>
          obtain ⟨k, r, hb⟩ := environment_bound hs.tidy
          exact absurd hb ((lookup_unbound hs he).2 k r)
        | some p =>
          obtain ⟨ht, hf⟩ := lookup_finds hs he
          refine .inr ⟨s2, ht, fun fs hg hsound => .free (fun k r hb => ?_) (hf fs hg hsound) hnamed, p, .inr hnamed⟩
          exact hunbound k r ((grown_scopes ht.captured).binds.mp (hg.binds.mp hb))

theorem Grown.names {fs gs : List Scope} (h : Grown fs gs) : gs.map (·.names) = fs.map (·.names) := by
  induction h with
  | nil => rfl
  | cons head _ ih => rw [List.map_cons, List.map_cons, head.names, ih]

/-- **Every name is answered.** -/
theorem named_answered (name : Bytes) (hs : Settled (s.fn :: s.outer)) : Answered ⟨name, s⟩ := by
  rcases named_spec name hs with hover | ⟨s1, ht, hres, -⟩
  · exact .inl hover
  · exact .inr ⟨_, (grown_scopes ht.captured).names, hres _ (.refl _) ht.settled.sound⟩

end LuaMachine.Lexical
