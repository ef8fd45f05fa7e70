/-
  NAMES BECOME VARIABLES. A name is looked up in all functions being written. One that some of them has a
  variable of becomes a variable of the innermost one, and stays that variable from there on; a name of no
  variable never gets one by looking others up.

  * `Compile.Walks.lookup_finds` -- **a name is looked up**.
-/
import LuaMachine.Proofs.Assignment.Storing
import LuaMachine.Proofs.Compiler.Scope
import LuaMachine.Proofs.Meaning.Reading

namespace LuaMachine

/-! ## 1. Steps that take tokens -/

namespace Compile

variable {α β : Type}

def Walks (x : Compile α) (ts : List Token) (w : Drafts) (Q : α → List Token → Drafts → Prop) : Prop :=
  ∀ s a s', s.tokens = ts → s.drafts = w → x s = .ok (a, s') → Q a s'.tokens s'.drafts

namespace Walks

variable {x : Compile α} {f : α → Compile β} {ts rest : List Token} {t : Token} {w : Drafts}
  {P : α → List Token → Drafts → Prop} {Q : β → List Token → Drafts → Prop}

theorem bind (h : Walks x ts w fun a ts' w' => Walks (f a) ts' w' Q) : Walks (x >>= f) ts w Q := by
  intro s b s' hs hw h'
  obtain ⟨a, s1, hx, hf⟩ := bind_ok h'
  exact h s a s1 hs hw hx s1 b s' rfl rfl hf

theorem imp {P' : α → List Token → Drafts → Prop} (h : Walks x ts w P) (hP : ∀ a ts' w', P a ts' w' → P' a ts' w') :
    Walks x ts w P' := fun s a s' hs hw h' => hP _ _ _ (h s a s' hs hw h')

theorem andThen (h : Walks x ts w P) (hf : ∀ a ts' w', P a ts' w' → Walks (f a) ts' w' Q) : Walks (x >>= f) ts w Q :=
  (h.imp hf).bind

theorem pure {a : α} (h : P a ts w) : Walks (Pure.pure a) ts w P := by
  intro s b s' hs hw h'
  obtain ⟨rfl, rfl⟩ := pure_ok h'
  rw [hs, hw]
  exact h

theorem failNear {e : CompileFault} : Walks (failNear e) ts w P := by
  intro s b s' _ _ h'
  exact nomatch h'

theorem discard {Q : Unit → List Token → Drafts → Prop} (h : Walks x ts w fun _ ts' w' => Q () ts' w') :
    Walks (Functor.discard x) ts w Q := by
  intro s b s' hs hw h'
  obtain ⟨a, hx, -⟩ := map_ok h'
  exact h s a s' hs hw hx

theorem ofWrites {R : α → Draft → Prop} (h : Writes x w.fn R) (hP : ∀ a d, R a d → P a ts { w with fn := d }) :
    Walks x ts w P := by
  intro s a s' hs hw h'
  obtain ⟨hs', hr⟩ := h s a s' (by rw [← hw]; rfl) h'
  have htokens : s'.tokens = ts := by
    rw [hs']
    exact hs
  have hdrafts : s'.drafts = { w with fn := s'.fn } := by
    rw [hs', ← hw]
    rfl
  rw [htokens, hdrafts]
  exact hP a s'.fn hr

theorem write {R : α → Draft → Prop} (h : Writes x w.fn R) (hf : ∀ a d, R a d → Walks (f a) ts { w with fn := d } Q) :
    Walks (x >>= f) ts w Q := bind (ofWrites h hf)

theorem get {f : Compiler → Compile β} (h : ∀ s, s.tokens = ts → s.drafts = w → Walks (f s) ts w Q) :
    Walks (MonadState.get >>= f) ts w Q := fun s b s' hs hw h' => h s hs hw s b s' hs hw h'

theorem token {f : Token → Compile β} (h : Walks (f t) (t :: rest) w Q) :
    Walks (Compile.token >>= f) (t :: rest) w Q := by
  refine bind (get fun s hs _ => pure ?_)
  have : s.current.token = t := (List.cons.inj hs).1
  rw [this]
  exact h

theorem peek {t' : Token} {f : Token → Compile β} (h : Walks (f t') (t :: t' :: rest) w Q) :
    Walks (Compile.peek >>= f) (t :: t' :: rest) w Q := by
  refine bind (get fun s hs hw => ?_)
  obtain ⟨hcurrent, hahead⟩ := List.cons.inj hs
  obtain ⟨y, ys, hys, hy, hrest⟩ := List.map_eq_cons_iff.mp hahead
  rw [hys]
  refine pure ?_
  rw [hy]
  exact h

theorem line {f : Nat → Compile β} (h : ∀ n, Walks (f n) ts w Q) : Walks (Compile.line >>= f) ts w Q :=
  bind (get fun _ _ _ => pure (h _))

theorem pass {Q : Unit → List Token → Drafts → Prop} (hne : rest ≠ []) (h : Q () rest w) :
    Walks Compile.next (t :: rest) w Q := by
  intro s a s' hs hw h'
  have hrun : (Compile.next >>= fun _ => Pure.pure ()) s = .ok ((), s') := by
    show (Compile.next s >>= fun v => (Pure.pure () : Compile Unit) v.2) = _
    rw [h']
    rfl
  have htokens : s'.tokens = rest := Takes.next (t := t) (d := s.fn) (Q := fun _ ts' _ => ts' = rest) hne
    (Takes.pure rfl) s () s' hs rfl hrun
  rw [htokens, (Reads.next s a s' h').trans hw]
  exact h

theorem next {f : Unit → Compile β} (hne : rest ≠ []) (h : Walks (f ()) rest w Q) :
    Walks (Compile.next >>= f) (t :: rest) w Q := bind (pass hne h)

theorem checkName {y : Bytes} {f : Bytes → Compile β} (hne : rest ≠ []) (h : Walks (f y) rest w Q) :
    Walks (Compile.checkName >>= f) (.name y :: rest) w Q := bind (token (next hne (pure h)))

theorem testNext_pass {f : Bool → Compile β} (hne : rest ≠ []) (h : Walks (f true) rest w Q) :
    Walks (Compile.testNext t >>= f) (t :: rest) w Q := by
  refine bind (token ?_)
  rw [if_pos rfl]
  exact next hne (pure h)

theorem testNext_stay {t' : Token} {f : Bool → Compile β} (hne : t ≠ t') (h : Walks (f false) (t :: rest) w Q) :
    Walks (Compile.testNext t' >>= f) (t :: rest) w Q := by
  refine bind (token ?_)
  rw [if_neg hne]
  exact pure h

theorem checkNext {f : Unit → Compile β} (hne : rest ≠ []) (h : Walks (f ()) rest w Q) :
    Walks (Compile.checkNext t >>= f) (t :: rest) w Q := by
  refine bind (bind (token ?_))
  rw [if_neg (not_not_intro rfl)]
  exact pure (pass hne h)

theorem checkMatch {opener : Token} {n : Nat} {f : Unit → Compile β} (hne : rest ≠ []) (h : Walks (f ()) rest w Q) :
    Walks (Compile.checkMatch t opener n >>= f) (t :: rest) w Q := bind (testNext_pass hne (pure h))

end Walks

end Compile

/-! ## 2. Variables -/

namespace Draft

variable {d d' : Draft} {x y : Bytes} {v : Variable}

theorem variableOf?_congr (hl : d'.locals = d.locals) (hd : d'.declared = d.declared) (ha : d'.active = d.active)
    (hu : d'.upvalues = d.upvalues) : d'.variableOf? = d.variableOf? := by
  have hname : d'.localName = d.localName := by
    funext r
    simp only [localName, hl, hd]
  have hbelow : ∀ x n, d'.findBelow x n = d.findBelow x n := by
    intro x n
    induction n with
    | zero => rfl
    | succ n ih => rw [findBelow, findBelow, hname, ih]
  funext x
  unfold variableOf? findLocal? findUpvalue?
  rw [hbelow, ha, hu]

theorem variableOf?_markCaptured (d : Draft) (r : Nat) : (d.markCaptured r).variableOf? = d.variableOf? :=
  variableOf?_congr rfl rfl rfl rfl

theorem variableOf?_addUpvalue (d : Draft) (x : Bytes) (v : Variable) (y : Bytes) :
    (d.addUpvalue x v).variableOf? y = (d.variableOf? y).or (if y = x then some (.upvalue d.upvalues.size) else none) := by
  have hlocal : (d.addUpvalue x v).findLocal? y = d.findLocal? y := by
    have hbelow : ∀ n, (d.addUpvalue x v).findBelow y n = d.findBelow y n := by
      intro n
      induction n with
      | zero => rfl
      | succ n ih =>
        rw [findBelow, findBelow, ih]
        rfl
    exact hbelow _
  have hname : (some x == some y) = decide (y = x) := by
    by_cases hyx : y = x
    · simp [hyx]
    · simp [hyx, Ne.symm hyx]
  have hupvalue : (d.addUpvalue x v).findUpvalue? y =
      (d.findUpvalue? y).or (if y = x then some d.upvalues.size else none) := by
    unfold findUpvalue? addUpvalue
    rw [Array.findIdx?_push]
    congr 1
    cases v <;> simp only [hname, decide_eq_true_eq]
  unfold variableOf?
  rw [hlocal, hupvalue]
  cases d.findLocal? y with
  | some r => rfl
  | none =>
    cases d.findUpvalue? y with
    | some i => rfl
    | none => by_cases hyx : y = x <;> simp [hyx]

theorem variableOf?_bounds (h : d.variableOf? x = some v) :
    (∀ r, v = .register r → r < d.active) ∧ ∀ u, v = .upvalue u → u < d.upvalues.size := by
  unfold variableOf? at h
  cases hl : d.findLocal? x with
  | some r =>
    rw [hl] at h
    cases h
    refine ⟨fun r' hr => ?_, fun u hu => by cases hu⟩
    cases hr
    exact findLocal_lt hl
  | none =>
    rw [hl] at h
    obtain ⟨i, hi, hv⟩ := Option.map_eq_some_iff.mp h
    subst hv
    refine ⟨fun r hr => (by cases hr), fun u hu => ?_⟩
    cases hu
    exact findUpvalue_lt hi

end Draft

def Compile.Denotes (ds : List Draft) (x : Bytes) : Prop := ∃ d ∈ ds, (d.variableOf? x).isSome

section

open Compile

variable {x : Bytes} {b : Bool} {d : Draft} {ds ds' outer : List Draft} {v : Variable}

theorem denotes_cons : Denotes (d :: ds) x ↔ (d.variableOf? x).isSome ∨ Denotes ds x := by
  simp [Denotes]

theorem resolve_cons_none (h : d.variableOf? x = none) : resolve x b (d :: outer) =
    match resolve x false outer with
    | .error line => .error line
    | .ok none => .ok none
    | .ok (some (v, outer')) =>
      if maxUpvalues < d.upvalues.size + 1 then .error d.lineDefined
      else .ok (some (.upvalue d.upvalues.size, d.addUpvalue x v :: outer')) := by
  unfold Draft.variableOf? at h
  rw [resolve]
  cases hl : d.findLocal? x with
  | some r =>
    rw [hl] at h
    cases h
  | none =>
    rw [hl] at h
    have hu : d.findUpvalue? x = none := Option.map_eq_none_iff.mp h
    cases resolve x false outer with
    | error line => simp only [hu]
    | ok o => cases o <;> simp only [hu]

theorem resolve_cons_some (b : Bool) (outer : List Draft) (h : d.variableOf? x = some v) : ∃ d', resolve x b (d :: outer) = .ok (some (v, d' :: outer)) ∧
    (d' = d ∨ b = false ∧ ∃ r, d' = d.markCaptured r) := by
  unfold Draft.variableOf? at h
  rw [resolve]
  cases hl : d.findLocal? x with
  | some r =>
    rw [hl] at h
    cases h
    cases b with
    | true => exact ⟨d, rfl, .inl rfl⟩
    | false => exact ⟨_, rfl, .inr ⟨rfl, r, rfl⟩⟩
  | none =>
    rw [hl] at h
    obtain ⟨i, hi, rfl⟩ := Option.map_eq_some_iff.mp h
    rw [hi]
    exact ⟨d, rfl, .inl rfl⟩

theorem resolve_eq_none (h : resolve x b ds = .ok none) : ¬ Denotes ds x := by
  induction ds generalizing b with
  | nil => exact fun ⟨_, hd, _⟩ => List.not_mem_nil hd
  | cons d outer ih =>
    cases hv : d.variableOf? x with
    | some v =>
      obtain ⟨d', hres, -⟩ := resolve_cons_some b outer hv
      rw [hres] at h
      cases h
    | none =>
      rw [resolve_cons_none hv] at h
      rw [denotes_cons, hv]
      split at h
      · cases h
      · next hrec => exact fun hd => ih hrec (hd.resolve_left nofun)
      · split at h <;> cases h

/-- **A name that is found is one of a variable, and names are those of variables as before.** -/
theorem resolve_eq_some (h : resolve x b ds = .ok (some (v, ds'))) :
    Denotes ds x ∧ ∀ y, Denotes ds' y ↔ Denotes ds y := by
  induction ds generalizing b v ds' with
  | nil => cases h
  | cons d outer ih =>
    cases hv : d.variableOf? x with
    | some v' =>
      obtain ⟨d', hres, hd'⟩ := resolve_cons_some b outer hv
      rw [hres] at h
      cases h
      refine ⟨denotes_cons.mpr (.inl (by rw [hv]; rfl)), fun y => ?_⟩
      have hsame : d'.variableOf? = d.variableOf? := by
        rcases hd' with rfl | ⟨-, r, rfl⟩
        · rfl
        · exact d.variableOf?_markCaptured r
      rw [denotes_cons, denotes_cons, hsame]
    | none =>
      rw [resolve_cons_none hv] at h
      split at h
      · cases h
      · cases h
      · next v' outer' hrec =>
        split at h
        · cases h
        · cases h
          obtain ⟨hden, hiff⟩ := ih hrec
          refine ⟨denotes_cons.mpr (.inr hden), fun y => ?_⟩
          rw [denotes_cons, denotes_cons, hiff, Draft.variableOf?_addUpvalue]
          by_cases hyx : y = x
          · subst hyx
            simp [hden]
          · rw [if_neg hyx, Option.or_none]

theorem Linked.denotes (h : Linked (d :: outer)) : Denotes (d :: outer) environmentName := by
  induction outer generalizing d with
  | nil =>
    obtain ⟨u, hu, hname⟩ := h
    refine denotes_cons.mpr (.inl ?_)
    unfold Draft.variableOf?
    split
    · rfl
    · have hfound : (d.findUpvalue? environmentName).isSome := by
        rw [Draft.findUpvalue?, Array.findIdx?_isSome, Array.any_eq_true']
        exact ⟨u, hu, by simp [hname]⟩
      rw [Option.isSome_map]
      exact hfound
  | cons p rest ih => exact denotes_cons.mpr (.inr (ih h.2))

end

/-! ## 3. Drafts -/

namespace Drafts

def Denotes (w : Drafts) (x : Bytes) : Prop := Compile.Denotes (w.fn :: w.outer) x

/-- **Code for acts has been written**; variables are still found under their names, and names of no variable have
    got none. -/
structure Gains (q : Nat) (w : Drafts) (as : List Act) (w' : Drafts) : Prop extends w.fn.Kin w'.fn where
  codes : w.fn.Codes q as w'.fn
  steady : w'.fn.Apt q
  kept : ∀ (x : Bytes) (v : Variable), w.fn.variableOf? x = some v → w'.fn.variableOf? x = some v
  names : ∀ x, w'.Denotes x ↔ w.Denotes x

/-- What names may stand for in the end: the variables that have been found under them, and nothing if no function
    has a variable of the name. Locals are in scope. -/
structure Allows (w : Drafts) (N : Names) : Prop where
  found : ∀ (x : Bytes) (v : Variable), w.fn.variableOf? x = some v → N x = some v
  free : ∀ x, ¬ w.Denotes x → N x = none
  low : ∀ (x : Bytes) (r : Nat), N x = some (.register r) → r < w.fn.active

variable {q : Nat} {as bs : List Act} {w w' w'' : Drafts} {N : Names}

theorem allows_variableOf? (w : Drafts) : w.Allows w.fn.variableOf? where
  found _ _ := id
  free x hx := by
    cases hv : w.fn.variableOf? x with
    | none => rfl
    | some v => exact absurd (denotes_cons.mpr (.inl (by rw [hv]; rfl))) hx
  low x r hx := (Draft.variableOf?_bounds hx).1 r rfl

namespace Gains

theorem refl (h : w.fn.Apt q) : w.Gains q [] w := ⟨.refl _, .start, h, fun _ _ => id, fun _ => Iff.rfl⟩

theorem trans (h : w.Gains q as w') (h' : w'.Gains q bs w'') : w.Gains q (as ++ bs) w'' where
  toKin := h.toKin.trans h'.toKin
  codes := h.codes.trans h'.codes
  steady := h'.steady
  kept x v hx := h'.kept x v (h.kept x v hx)
  names x := (h'.names x).trans (h.names x)

theorem allows (h : w.Gains q as w') (hN : w'.Allows N) : w.Allows N where
  found x v hx := hN.found x v (h.kept x v hx)
  free x hx := hN.free x fun hd => hx ((h.names x).mp hd)
  low x r hx := h.active ▸ hN.low x r hx

end Gains

end Drafts

theorem Draft.Gains.lift {q : Nat} {as : List Act} {w : Drafts} {d : Draft} (h : w.fn.Gains q as d) :
    w.Gains q as { w with fn := d } := by
  have hsame : d.variableOf? = w.fn.variableOf? := Draft.variableOf?_congr h.locals h.declared h.active h.captured
  refine ⟨h.toKin, h.codes, h.steady, fun x v hx => by rw [hsame]; exact hx, fun x => ?_⟩
  unfold Drafts.Denotes
  rw [denotes_cons, denotes_cons, hsame]

def Variable.source : Variable → Origin
  | register r => .reg r
  | upvalue u => .upvalue u

namespace Variable

variable {q : Nat} {d : Draft} {x : Bytes} {v : Variable}

theorem value_source (v : Variable) (V : Vars) : v.source.value V = V.value v := by
  cases v <;> rfl

theorem gives (h : d.variableOf? x = some v) (hs : d.Apt q) :
    v.place.Gives d.constants v.source ∧ v.source.Below d.active ∧ v.place.cost d.active = v.source.cost d.active ∧
      v.place.Is d.constants (.var v) := by
  obtain ⟨hreg, hup⟩ := Draft.variableOf?_bounds h
  cases v with
  | register r =>
    have hlt := hreg r rfl
    have hr : r < 255 := by
      have := hs.roomy.lt hlt
      omega
    exact ⟨.localVar hr, hlt, (Operand.cost_lt hlt).symm, .localVar hr⟩
  | upvalue u =>
    have hu : u < 255 := Nat.lt_of_lt_of_le (hup u rfl) hs.upvalues
    exact ⟨.upvalue hu, trivial, rfl, .upvalue hu⟩

end Variable

namespace Compile

variable {q : Nat} {x : Bytes} {ts : List Token} {w : Drafts}

/-- **A name is looked up**: if no function has a variable of it, nothing happens; else it becomes a variable of the
    innermost function. -/
theorem Walks.lookup_finds (hs : w.fn.Apt q) :
    Walks (Compile.lookup x) ts w fun o ts' w' => ts' = ts ∧
      (o = none ∧ w' = w ∧ ¬ w.Denotes x ∨
        w.Denotes x ∧ ∃ v, o = some v.place ∧ w'.fn.variableOf? x = some v ∧ w.Gains q [] w' ∧ w'.fn.free = w.fn.free) := by
  refine Walks.get fun s hts hw => ?_
  have hfn : s.fn = w.fn := by
    rw [← hw]
    rfl
  have houter : s.outer = w.outer := by
    rw [← hw]
    rfl
  rw [hfn, houter]
  cases hres : resolve x true (w.fn :: w.outer) with
  | error line => exact Walks.failNear
  | ok o =>
    cases o with
    | none => exact Walks.pure ⟨rfl, .inl ⟨rfl, rfl, resolve_eq_none hres⟩⟩
    | some r =>
      obtain ⟨v, ds'⟩ := r
      obtain ⟨hden, hiff⟩ := resolve_eq_some hres
      -- what the innermost function has become
      have hshape : ∃ d' outer', ds' = d' :: outer' ∧ d'.variableOf? x = some v ∧ w.fn.Kin d' ∧ w.fn.SameCode d' ∧ d'.Apt q ∧
          d'.free = w.fn.free ∧ ∀ y v', w.fn.variableOf? y = some v' → d'.variableOf? y = some v' := by
        cases hv : w.fn.variableOf? x with
        | some v' =>
          obtain ⟨d', hres', hd'⟩ := resolve_cons_some true w.outer hv
          rw [hres'] at hres
          cases hres
          obtain rfl := hd'.resolve_right fun h => by cases h.1
          exact ⟨_, _, rfl, hv, .refl _, ⟨rfl, rfl, rfl⟩, hs, rfl, fun _ _ => id⟩
        | none =>
          rw [resolve_cons_none hv] at hres
          split at hres
          · cases hres
          · cases hres
          · next v0 outer' hrec =>
            split at hres
            · cases hres
            · next hlimit =>
              cases hres
              refine ⟨_, _, rfl, ?_, ⟨rfl, rfl, rfl, fun _ _ => id⟩, ⟨rfl, rfl, rfl⟩, ?_, rfl, fun y v' hy => ?_⟩
              · rw [Draft.variableOf?_addUpvalue, hv, if_pos rfl]
                rfl
              · refine ⟨hs.here, hs.tight, ⟨hs.roomy.active, hs.roomy.free, hs.roomy.stack, hs.roomy.constants⟩, ?_⟩
                simp only [Draft.addUpvalue, Array.size_push]
                simp only [Compile.maxUpvalues] at hlimit
                omega
              · rw [Draft.variableOf?_addUpvalue, hy]
                rfl
      obtain ⟨d', outer', rfl, hvar, hkin, hsame, hapt, hfree, hkept⟩ := hshape
      intro s1 o s' hts1 hw1 h'
      cases h'
      refine ⟨?_, .inr ⟨hden, v, rfl, hvar, ⟨hkin, .quiet .start hsame hkin.constants, hapt, hkept, hiff⟩, hfree⟩⟩
      exact hts

end Compile

end LuaMachine
