/-
  WHAT A STEP OF THE COMPILATION DOES TO A SKETCH. A judgement says that a computation that succeeds goes by
  steps of the sketch of the innermost function, and what holds then. Of the functions around only their
  captured variables change, and functions that are finished have sketches too.
-/
import LuaMachine.Proofs.Jumps.Scope
import LuaMachine.Proofs.Sketch.Sound

namespace LuaMachine

open Operand (noRegister)

/-! ## 1. The judgement -/

structure Draft.Aside (d d' : Draft) : Prop where
  same : d' = { d with blocks := d'.blocks, upvalues := d'.upvalues }
  blocks : d'.blocks.map (·.active) = d.blocks.map (·.active)

theorem Draft.Aside.refl (d : Draft) : d.Aside d := ⟨rfl, rfl⟩

theorem Draft.Aside.trans {d d' d'' : Draft} (h : d.Aside d') (h' : d'.Aside d'') : d.Aside d'' where
  same := by
    refine h'.same.trans ?_
    rw [h.same]
  blocks := h'.blocks.trans h.blocks

abbrev Aside (outer outer' : List Draft) : Prop := List.Forall₂ Draft.Aside outer outer'

theorem Aside.refl (outer : List Draft) : Aside outer outer := List.forall₂_same.mpr fun d _ => .refl d

theorem Aside.trans {ds ds' ds'' : List Draft} (h : Aside ds ds') (h' : Aside ds' ds'') : Aside ds ds'' := by
  induction h generalizing ds'' with
  | nil => exact h'
  | cons hd _ ih =>
    cases h' with
    | cons hd' hrest => exact .cons (hd.trans hd') (ih hrest)

def Proto.Wrought (p : Proto) : Prop :=
  ∃ (u : Sketch) (source : Bytes), u.Reachable ∧ u.draft.declared = #[] ∧ p = u.draft.finish source

structure Sketch.Passes (scope : Bool) (outer : List Draft) (u : Sketch) (outer' : List Draft) (u' : Sketch) : Prop where
  steps : Sketch.Steps scope u u'
  outer : Aside outer outer'
  protos : ∀ p ∈ u'.draft.protos, p ∈ u.draft.protos ∨ p.All Proto.Wrought

theorem Sketch.Passes.refl {scope : Bool} (outer : List Draft) (u : Sketch) : u.Passes scope outer outer u :=
  ⟨.refl, .refl outer, fun _ => .inl⟩

theorem Sketch.Passes.trans {scope : Bool} {o o' o'' : List Draft} {u u' u'' : Sketch} (h : u.Passes scope o o' u')
    (h' : u'.Passes scope o' o'' u'') : u.Passes scope o o'' u'' where
  steps := h.steps.trans h'.steps
  outer := h.outer.trans h'.outer
  protos := fun p hp => (h'.protos p hp).elim (h.protos p) .inr

namespace Compile

variable {α β : Type}

def Goes (scope : Bool) (x : Compile α) (u : Sketch) (Q : α → Sketch → Prop) : Prop :=
  u.Sound → ∀ s a s', s.fn = u.draft → x s = .ok (a, s') →
    ∃ u', s'.fn = u'.draft ∧ u.Passes scope s.outer s'.outer u' ∧ Q a u'

variable {scope : Bool} {x : Compile α} {f : α → Compile β} {u : Sketch} {P : α → Sketch → Prop} {Q : β → Sketch → Prop}

namespace Goes

theorem imp {P' : α → Sketch → Prop} (h : Goes scope x u P) (hP : ∀ a u', P a u' → P' a u') : Goes scope x u P' := by
  intro hu s a s' hs hrun
  obtain ⟨u', hs', hpasses, hp⟩ := h hu s a s' hs hrun
  exact ⟨u', hs', hpasses, hP a u' hp⟩

theorem sound (h : u.Sound → Goes scope x u P) : Goes scope x u P := fun hu => h hu hu

theorem stepped (h : Goes scope x u P) :
    Goes scope x u fun a u' => P a u' ∧ Sketch.Steps scope u u' ∧ u'.Sound := by
  intro hu s a s' hs hrun
  obtain ⟨u', hs', hpasses, hp⟩ := h hu s a s' hs hrun
  exact ⟨u', hs', hpasses, hp, hpasses.steps, hpasses.steps.sound hu⟩

theorem bind (h : Goes scope x u P) (hf : ∀ a u', Sketch.Steps scope u u' → P a u' → Goes scope (f a) u' Q) :
    Goes scope (x >>= f) u Q := by
  intro hu s b s' hs hrun
  obtain ⟨a, t, hx, hb⟩ := bind_ok hrun
  obtain ⟨u1, ht, hpasses, hp⟩ := h hu s a t hs hx
  obtain ⟨u2, hs', hpasses', hq⟩ := hf a u1 hpasses.steps hp (hpasses.steps.sound hu) t b s' ht hb
  exact ⟨u2, hs', hpasses.trans hpasses', hq⟩

theorem pure {a : α} (h : P a u) : Goes scope (Pure.pure a) u P := by
  intro _ s b s' hs hrun
  obtain ⟨rfl, rfl⟩ := pure_ok hrun
  exact ⟨u, hs, .refl _ u, h⟩

theorem discard {P : Unit → Sketch → Prop} (h : Goes scope x u fun _ u' => P () u') :
    Goes scope (Functor.discard x) u P := by
  intro hu s b s' hs hrun
  obtain ⟨a, hx, -⟩ := map_ok hrun
  exact h hu s a s' hs hx

theorem get {f : Compiler → Compile β} (h : ∀ s, s.fn = u.draft → Goes scope (f s) u Q) :
    Goes scope (MonadState.get >>= f) u Q :=
  fun hu s b s' hs hrun => h s hs hu s b s' hs hrun

theorem ofFn {g : Draft → α} (h : Goes scope (f (g u.draft)) u Q) : Goes scope (Compile.ofFn g >>= f) u Q := by
  intro hu s b s' hs hrun
  obtain ⟨a, t, hx, hb⟩ := bind_ok hrun
  cases hx
  rw [hs] at hb
  exact h hu s b s' hs hb

theorem failNear {e : CompileFault} : Goes scope (Compile.failNear e) u P := by
  intro _ s a s' _ hrun
  cases hrun

theorem failPlain {e : CompileFault} : Goes scope (Compile.failPlain e) u P := by
  intro _ s a s' _ hrun
  cases hrun

theorem failLimit {what : Limited} {n : Nat} : Goes scope (Compile.failLimit what n) u P := by
  intro _ s a s' _ hrun
  cases hrun

theorem ofReads (h : Reads x) (hp : ∀ a, P a u) : Goes scope x u P := by
  intro _ s a s' hs hrun
  have hdrafts := h s a s' hrun
  have hfn : s'.fn = s.fn := congrArg Drafts.fn hdrafts
  have houter : s'.outer = s.outer := congrArg Drafts.outer hdrafts
  refine ⟨u, hfn.trans hs, ?_, hp a⟩
  rw [houter]
  exact .refl _ u

theorem read (h : Reads x) (hf : ∀ a, Goes scope (f a) u Q) : Goes scope (x >>= f) u Q :=
  (ofReads (P := fun _ u' => u' = u) h fun _ => rfl).bind fun a u' _ hu' => by
    rw [hu']
    exact hf a

theorem modifySteps {g : Draft → Draft} {u' : Sketch} {P : Unit → Sketch → Prop} (hsteps : Sketch.Steps scope u u')
    (hd : g u.draft = u'.draft) (hprotos : u'.draft.protos = u.draft.protos) (hp : P () u') :
    Goes scope (Compile.modifyFn g) u P := by
  intro _ s a s' hs hrun
  cases hrun
  refine ⟨u', by rw [← hd, ← hs], ⟨hsteps, .refl _, fun p hp' => ?_⟩, hp⟩
  rw [hprotos] at hp'
  exact .inl hp'

theorem modifyFn {g : Draft → Draft} {u' : Sketch} {P : Unit → Sketch → Prop} (hstep : u.Step scope u')
    (hd : g u.draft = u'.draft) (hprotos : u'.draft.protos = u.draft.protos) (hp : P () u') :
    Goes scope (Compile.modifyFn g) u P := modifySteps (.single hstep) hd hprotos hp

theorem within (h : Goes false x u P) : Goes scope x u P := by
  intro hu s a s' hs hrun
  obtain ⟨u', hs', hpasses, hp⟩ := h hu s a s' hs hrun
  cases scope with
  | false => exact ⟨u', hs', hpasses, hp⟩
  | true => exact ⟨u', hs', ⟨hpasses.steps.within, hpasses.outer, hpasses.protos⟩, hp⟩

end Goes

/-! ## 2. Computations that write no code -/

end Compile

/-- The same code and the same scopes. -/
structure Draft.Resembles (d d' : Draft) : Prop where
  code : d'.code = d.code
  here : d'.here = d.here
  lastTarget : d'.lastTarget = d.lastTarget
  locals : d'.locals = d.locals
  declared : d'.declared = d.declared
  active : d'.active = d.active
  blocks : d'.blocks.map (·.active) = d.blocks.map (·.active)
  maxStack : d'.maxStack ≤ max d.maxStack 254
  labels : d'.labels = d.labels
  gotos : d'.gotos = d.gotos
  protos : d'.protos = d.protos

namespace Draft.Resembles

variable {d d' d'' : Draft}

theorem rest (h : d' = { d with
    lines := d'.lines, constants := d'.constants, upvalues := d'.upvalues, params := d'.params
    isVararg := d'.isVararg, lineDefined := d'.lineDefined, lastLine := d'.lastLine, free := d'.free }) :
    d.Resembles d' := by
  rw [h]
  exact ⟨rfl, rfl, rfl, rfl, rfl, rfl, rfl, Nat.le_max_left _ _, rfl, rfl, rfl⟩

theorem refl (d : Draft) : d.Resembles d := rest rfl

theorem trans (h : d.Resembles d') (h' : d'.Resembles d'') : d.Resembles d'' where
  code := h'.code.trans h.code
  here := h'.here.trans h.here
  lastTarget := h'.lastTarget.trans h.lastTarget
  locals := h'.locals.trans h.locals
  declared := h'.declared.trans h.declared
  active := h'.active.trans h.active
  blocks := h'.blocks.trans h.blocks
  maxStack := Nat.le_trans h'.maxStack (Nat.max_le.mpr ⟨h.maxStack, Nat.le_max_right _ _⟩)
  labels := h'.labels.trans h.labels
  gotos := h'.gotos.trans h.gotos
  protos := h'.protos.trans h.protos

theorem keeps {u : Sketch} (h : u.draft.Resembles d) : u.Keeps d where
  code := h.code
  here := h.here
  lastTarget := h.lastTarget
  locals := h.locals
  declared := h.declared
  active := h.active
  blocks := h.blocks
  maxStack := h.maxStack
  labels := fun _ hl => .inl (h.labels ▸ hl)
  gotos := fun _ hg => .inl (h.gotos ▸ hg)

theorem ofAside (h : d.Aside d') : d.Resembles d' := by
  obtain ⟨hsame, hblocks⟩ := h
  constructor <;> rw [hsame]
  · rw [← hblocks, hsame]
  · exact Nat.le_max_left _ _

end Draft.Resembles

structure Sketch.Similar (u u' : Sketch) : Prop where
  targets : u'.targets = u.targets
  heads : u'.heads = u.heads
  homes : u'.homes = u.homes
  draft : u.draft.Resembles u'.draft

theorem Sketch.Similar.refl (u : Sketch) : u.Similar u := ⟨rfl, rfl, rfl, .refl _⟩

theorem Sketch.Similar.trans {u u' u'' : Sketch} (h : u.Similar u') (h' : u'.Similar u'') : u.Similar u'' :=
  ⟨h'.targets.trans h.targets, h'.heads.trans h.heads, h'.homes.trans h.homes, h.draft.trans h'.draft⟩

theorem Sketch.Similar.pc {u u' : Sketch} (h : u.Similar u') : u'.draft.pc = u.draft.pc := by
  rw [Draft.pc, Draft.pc, h.draft.code]

namespace Compile

variable {α β : Type}

def Idle (x : Compile α) : Prop := ∀ d, Writes x d fun _ d' => d.Resembles d'

namespace Idle

variable {x : Compile α} {f : α → Compile β}

theorem bind (hx : Idle x) (hf : ∀ a, Idle (f a)) : Idle (x >>= f) := fun d =>
  (hx d).andThen fun a d1 h1 => (hf a d1).imp fun _ _ h2 => h1.trans h2

theorem pure {a : α} : Idle (Pure.pure a) := fun d => Writes.pure (.refl d)

theorem get {f : Compiler → Compile β} (hf : ∀ s, Idle (f s)) : Idle (MonadState.get >>= f) := fun d =>
  Writes.get fun s _ => hf s d

theorem modifyFn {g : Draft → Draft} (hg : ∀ d : Draft, d.Resembles (g d)) : Idle (Compile.modifyFn g) := fun d =>
  Writes.modifyFn (hg d)

theorem failNear {e : CompileFault} : Idle (Compile.failNear e : Compile α) := fun _ => Writes.failNear

theorem failLimit {what : Limited} {n : Nat} : Idle (Compile.failLimit what n : Compile α) := fun _ => Writes.failLimit

theorem demand {rule : RegisterRule} {keeps : Draft → Bool} : Idle (demand rule keeps) := by
  refine get fun s => ?_
  split
  · exact failNear
  · exact pure

theorem fixLine {line : Nat} : Idle (fixLine line) := modifyFn fun _ => .rest rfl

end Idle

namespace Goes

variable {scope : Bool} {x : Compile α} {f : α → Compile β} {u : Sketch} {P : α → Sketch → Prop} {Q : β → Sketch → Prop}

theorem ofResembles {R : α → Draft → Prop} (h : Writes x u.draft fun a d' => u.draft.Resembles d' ∧ R a d') :
    Goes scope x u fun a u' => u.Similar u' ∧ R a u'.draft := by
  intro _ s a s' hs hrun
  obtain ⟨hs', hd, hR⟩ := h s a s' hs hrun
  have houter : s'.outer = s.outer := by rw [hs']
  refine ⟨{ u with draft := s'.fn }, rfl, ⟨.single (.keep hd.keeps), ?_, fun p hp => ?_⟩, ⟨rfl, rfl, rfl, hd⟩, hR⟩
  · rw [houter]
    exact .refl _
  · rw [hd.protos] at hp
    exact .inl hp

theorem ofIdle (h : Idle x) : Goes scope x u fun _ u' => u.Similar u' :=
  (ofResembles (R := fun _ _ => True) ((h u.draft).imp fun _ _ hd => ⟨hd, trivial⟩)).imp fun _ _ hu => hu.1

theorem idle (h : Idle x) (hf : ∀ a u', u.Similar u' → Goes scope (f a) u' Q) : Goes scope (x >>= f) u Q :=
  (ofIdle h).bind fun a u' _ hu' => hf a u' hu'

theorem demand {rule : RegisterRule} {keeps : Draft → Bool} :
    Goes scope (Compile.demand rule keeps) u fun _ u' => keeps u.draft = true ∧ u' = u := by
  intro _ s a s' hs hrun
  obtain ⟨hs', hfn, hkeeps⟩ := Writes.demand (d := u.draft) s a s' hs hrun
  have houter : s'.outer = s.outer := by rw [hs']
  refine ⟨u, hfn, ?_, hkeeps, rfl⟩
  rw [houter]
  exact .refl _ u

theorem demanding {rule : RegisterRule} {keeps : Draft → Bool} {f : Unit → Compile β}
    (h : keeps u.draft = true → Goes scope (f ()) u Q) : Goes scope (Compile.demand rule keeps >>= f) u Q := by
  refine demand.bind ?_
  rintro _ _ - ⟨hkeeps, rfl⟩
  exact h hkeeps

/-! ## 3. Jumps are aimed -/

end Goes

end Compile

/-- The same sketch, apart from what has become of its instructions. -/
structure Sketch.Recoded (u u' : Sketch) : Prop where
  targets : u'.targets = u.targets
  heads : u'.heads = u.heads
  homes : u'.homes = u.homes
  draft : u'.draft = { u.draft with code := u'.draft.code }
  size : u'.draft.code.size = u.draft.code.size
  origin : ∀ (n : Nat) (j : Instr), u'.draft.code[n]? = some j →
    ∃ i, u.draft.code[n]? = some i ∧ (j.opcode = i.opcode ∨ i.opcode = .testSet ∧ j.opcode = .test ∨
      i.opcode = .call ∧ j.opcode = .tailCall)

namespace Sketch.Recoded

variable {u u' u'' : Sketch}

theorem refl (u : Sketch) : u.Recoded u := ⟨rfl, rfl, rfl, rfl, rfl, fun _ j hj => ⟨j, hj, .inl rfl⟩⟩

theorem trans (h : u.Recoded u') (h' : u'.Recoded u'') : u.Recoded u'' where
  targets := h'.targets.trans h.targets
  heads := h'.heads.trans h.heads
  homes := h'.homes.trans h.homes
  draft := by
    refine h'.draft.trans ?_
    rw [h.draft]
  size := h'.size.trans h.size
  origin := by
    intro n k hk
    obtain ⟨j, hj, hjk⟩ := h'.origin n k hk
    obtain ⟨i, hi, hij⟩ := h.origin n j hj
    refine ⟨i, hi, ?_⟩
    rcases hjk with hjk | ⟨hj1, hk1⟩ | ⟨hj1, hk1⟩
    · rwa [hjk]
    · rcases hij with hij | ⟨-, hij⟩ | ⟨-, hij⟩
      · exact .inr (.inl ⟨hij ▸ hj1, hk1⟩)
      · rw [hij] at hj1
        cases hj1
      · rw [hij] at hj1
        cases hj1
    · rcases hij with hij | ⟨-, hij⟩ | ⟨-, hij⟩
      · exact .inr (.inr ⟨hij ▸ hj1, hk1⟩)
      · rw [hij] at hj1
        cases hj1
      · rw [hij] at hj1
        cases hj1

theorem pc (h : u.Recoded u') : u'.draft.pc = u.draft.pc := h.size

theorem here (h : u.Recoded u') : u'.draft.here = u.draft.here :=
  (congrArg Draft.here h.draft :)

theorem locals (h : u.Recoded u') : u'.draft.locals = u.draft.locals :=
  (congrArg Draft.locals h.draft :)

theorem lastTarget (h : u.Recoded u') : u'.draft.lastTarget = u.draft.lastTarget :=
  (congrArg Draft.lastTarget h.draft :)

theorem free (h : u.Recoded u') : u'.draft.free = u.draft.free :=
  (congrArg Draft.free h.draft :)

theorem protos (h : u.Recoded u') : u'.draft.protos = u.draft.protos :=
  (congrArg Draft.protos h.draft :)

theorem turn {n : Nat} {f : Instr → Instr} (h : ∀ i, u.draft.code[n]? = some i → i.Turn u.targets n (f i)) :
    u.Recoded { u with draft := u.draft.mapInstr n f } where
  targets := rfl
  heads := rfl
  homes := rfl
  draft := rfl
  size := by simp [Draft.mapInstr]
  origin := by
    intro m j hj
    simp only [Draft.mapInstr, Array.getElem?_modify] at hj
    split at hj
    · next he =>
      subst he
      obtain ⟨i, hi, rfl⟩ := Option.map_eq_some_iff.mp hj
      exact ⟨i, hi, (h i hi).opcode⟩
    · exact ⟨j, hj, .inl rfl⟩

end Sketch.Recoded

namespace Compile

variable {α β : Type}

namespace Goes

variable {scope : Bool} {x : Compile α} {f : α → Compile β} {u : Sketch} {P : α → Sketch → Prop} {Q : β → Sketch → Prop}

theorem mapInstr {n : Draft → Nat} {g : Draft → Instr → Instr}
    (h : ∀ i, u.draft.code[n u.draft]? = some i → i.Turn u.targets (n u.draft) (g u.draft i)) :
    Goes scope (Compile.modifyFn fun d => d.mapInstr (n d) (g d)) u fun _ u' => u.Recoded u' :=
  modifyFn (.turn h) rfl rfl (Sketch.Recoded.turn h)

theorem aimTest (node reg : Nat) : Goes scope (Compile.aimTest node reg) u fun _ u' => u.Recoded u' := by
  refine get fun s hs => ?_
  split
  · next hcontrolled =>
    refine (mapInstr (n := fun d => controlOf d node) fun i hi => ?_).bind fun _ u' _ hu' => pure hu'
    have hop : i.opcode = .testSet := by
      have hcontrol : (u.draft.instr (controlOf u.draft node)).opcode = .testSet := by
        rw [← hs]
        exact of_decide_eq_true hcontrolled
      rwa [Draft.instr_eq hi] at hcontrol
    split
    · exact .register (by rw [hop]; decide)
    · exact .test hop (Instr.opcode_ofABC ..)
  · exact pure (.refl u)

theorem fixJump {node dest : Nat} (hnode : u.draft.JumpAt node) (hdest : dest ∈ u.targets) :
    Goes scope (Compile.fixJump node dest) u fun _ u' => u.Recoded u' := by
  unfold Compile.fixJump
  split
  · next hreach =>
    refine mapInstr (n := fun _ => node) fun i hi => ?_
    obtain ⟨j, hj, hlayout⟩ := hnode
    rw [hi] at hj
    cases hj
    exact .aim hlayout hdest hreach
  · exact failNear

/-- **Jumps are aimed** where they may go. -/
theorem aimJumps {valueTarget plainTarget : Nat} (reg : Nat) {l : JumpList} (hl : ∀ n ∈ l, u.draft.JumpAt n)
    (hvalue : valueTarget ∈ u.targets) (hplain : plainTarget ∈ u.targets) :
    Goes scope (Compile.aimJumps valueTarget reg plainTarget l) u fun _ u' => u.Recoded u' := by
  induction l generalizing u with
  | nil => exact pure (.refl u)
  | cons node rest ih =>
    have hfix : ∀ (u1 : Sketch) (dest : Nat), dest ∈ u1.targets → Sketch.Steps scope u u1 → u.Recoded u1 →
        Goes scope (do
          Compile.fixJump node dest
          Compile.aimJumps valueTarget reg plainTarget rest) u1 fun _ u' => u.Recoded u' := by
      intro u1 dest hdest hsteps h1
      have hnode := hsteps.jumpAt (hl node List.mem_cons_self)
      refine (fixJump hnode hdest).bind fun _ u2 hsteps2 h2 => ?_
      refine (ih (fun n hn => ?_) ?_ ?_).imp fun _ u3 h3 => (h1.trans h2).trans h3
      · exact Sketch.Steps.jumpAt (hsteps.trans hsteps2) (hl n (List.mem_cons_of_mem _ hn))
      · exact Sketch.Steps.targets_subset (hsteps.trans hsteps2) hvalue
      · exact Sketch.Steps.targets_subset (hsteps.trans hsteps2) hplain
    refine (aimTest node reg).bind fun aims u1 hsteps h1 => ?_
    dsimp only
    split
    · exact hfix u1 _ (hsteps.targets_subset hvalue) hsteps h1
    · exact hfix u1 _ (hsteps.targets_subset hplain) hsteps h1

theorem dropValues (l : JumpList) : Goes scope (Compile.dropValues l) u fun _ u' => u.Recoded u' := by
  induction l generalizing u with
  | nil => exact pure (.refl u)
  | cons node rest ih =>
    refine (discard (P := fun _ u' => u.Recoded u') (aimTest node noRegister)).bind fun _ u1 _ h1 => ?_
    exact ih.imp fun _ _ h2 => h1.trans h2

theorem closeOnJump {l : JumpList} (level : Nat) (hl : ∀ n ∈ l, u.draft.JumpAt n) :
    Goes scope (Compile.closeOnJump l level) u fun _ u' => u.Recoded u' := by
  have hfold : ∀ (l : JumpList) (u : Sketch), (∀ n ∈ l, u.draft.JumpAt n) → ∃ u', Sketch.Steps scope u u' ∧ u.Recoded u' ∧
      u'.draft = l.foldl (fun d node => d.mapInstr node (·.setA (level + 1))) u.draft := by
    intro l
    induction l with
    | nil => exact fun u _ => ⟨u, .refl, .refl u, rfl⟩
    | cons node rest ih =>
      intro u hl
      have hturn : ∀ i, u.draft.code[node]? = some i → i.Turn u.targets node (i.setA (level + 1)) := by
        intro i hi
        obtain ⟨j, hj, hlayout⟩ := hl node List.mem_cons_self
        rw [hi] at hj
        cases hj
        exact .register (by rintro hop; rw [hop] at hlayout; cases hlayout)
      have hstep : u.Step scope _ := .turn hturn
      obtain ⟨u', hsteps, hrecoded, hd⟩ := ih { u with draft := u.draft.mapInstr node (·.setA (level + 1)) } fun n hn =>
        hstep.jumpAt (hl n (List.mem_cons_of_mem _ hn))
      exact ⟨u', .head hstep hsteps, (Sketch.Recoded.turn hturn).trans hrecoded, hd⟩
  intro _ s a s' hs hrun
  cases hrun
  obtain ⟨u', hsteps, hrecoded, hd⟩ := hfold l u hl
  refine ⟨u', by rw [hd, ← hs], ⟨hsteps, .refl _, fun p hp => ?_⟩, hrecoded⟩
  rw [hrecoded.protos] at hp
  exact .inl hp

/-! ## 4. Instructions are written -/

end Goes

end Compile

structure Sketch.Arrived (u u' : Sketch) : Prop where
  targets : u'.targets = u.targets
  heads : u'.heads = u.heads
  homes : u'.homes = u.homes
  draft : u'.draft = { u.draft with code := u'.draft.code, here := [] }
  size : u'.draft.code.size = u.draft.code.size

theorem Sketch.Arrived.here {u u' : Sketch} (h : u.Arrived u') : u'.draft.here = [] :=
  (congrArg Draft.here h.draft :)

/-- One more instruction, and otherwise the same sketch. -/
structure Sketch.Written (u : Sketch) (i : Instr) (pc : Nat) (u' : Sketch) : Prop where
  place : pc = u.draft.pc
  instr : u'.draft.code[pc]? = some i
  pc_eq : u'.draft.pc = pc + 1
  targets : u'.targets = u.targets
  locals : u'.draft.locals = u.draft.locals
  here : u'.draft.here = []
  free : u'.draft.free = u.draft.free

def Sketch.marked (u : Sketch) : Sketch :=
  { u with draft := { u.draft with lastTarget := u.draft.pc }, targets := u.draft.pc :: u.targets }

theorem Sketch.Arrived.written {u u' : Sketch} (h : u.Arrived u') (i : Instr) (line : Nat) :
    u.Written i u'.draft.pc { u' with draft := u'.draft.push i line } where
  place := h.size
  instr := Array.getElem?_push_size
  pc_eq := Draft.pc_push ..
  targets := h.targets
  locals := (congrArg Draft.locals h.draft :)
  here := h.here
  free := (congrArg Draft.free h.draft :)

namespace Instr

variable {op : Op} {a b c : Nat} {i : Instr}

theorem raw_of_ne (hlayout : i.opcode.layout ≠ .asbx) (hnil : i.opcode ≠ .loadNil) : i.Raw :=
  ⟨fun h => absurd h hlayout, fun h => absurd h hnil⟩

theorem skipsNext_of_skips (h : i.opcode.skips = false) : i.skipsNext = false := by
  refine Bool.eq_false_iff.mpr fun hskip => ?_
  have hskips := skips_of_skipsNext hskip
  rw [h] at hskips
  cases hskips

theorem raw_of_isMild (h : i.opcode.isMild = true) : i.Raw :=
  raw_of_ne (Op.isMild_iff.mp h).1 (Op.isMild_iff.mp h).2.1

theorem skipsNext_of_isMild (h : i.opcode.isMild = true) : i.skipsNext = false :=
  skipsNext_of_skips (Op.isMild_iff.mp h).2.2

theorem raw_ofAsBx (hop : op.layout = .asbx) : (ofAsBx op a (-1)).Raw where
  aimless := fun _ => sbx_ofAsBx _ _ _ (by decide)
  clears := fun h => by
    rw [opcode_ofAsBx] at h
    rw [h] at hop
    cases hop

theorem skipsNext_ofAsBx {k : Int} (hop : op.layout = .asbx) : (ofAsBx op a k).skipsNext = false :=
  skipsNext_of_skips (by rw [opcode_ofAsBx, Op.skips_of_layout hop])

theorem raw_loadNil {start n : Nat} (hn : 1 ≤ n) (hroom : start + n ≤ 255) : (ofABC .loadNil start (n - 1) 0).Raw where
  aimless := fun h => by
    rw [opcode_ofABC] at h
    cases h
  clears := fun _ => by
    simp only [a_ofABC, b_ofABC]
    omega

end Instr

theorem Sketch.steps_boolPair (scope : Bool) {u : Sketch} (reg line : Nat) (hhere : u.draft.here = [])
    (hlow : u.draft.lastTarget ≤ u.draft.pc) :
    Sketch.Steps scope u { u with
      draft := { (u.draft.push (.ofABC .loadBool reg 0 1) line).push (.ofABC .loadBool reg 1 0) line with
        lastTarget := (u.draft.push (.ofABC .loadBool reg 0 1) line).pc }
      targets := (u.draft.push (.ofABC .loadBool reg 0 1) line).pc :: u.targets } := by
  have hraw : ∀ a b c, (Instr.ofABC .loadBool a b c).Raw := fun a b c =>
    Instr.raw_of_ne (by rw [Instr.opcode_ofABC]; decide) (by rw [Instr.opcode_ofABC]; decide)
  have hpc := Draft.pc_push u.draft (.ofABC .loadBool reg 0 1) line
  refine .tail (.single (.pair hhere (hraw reg 0 1) (hraw reg 1 0) ?_ ?_ ?_)) (.mark (.inr ⟨?_, ?_⟩) ?_)
  · simp [Instr.skipsNext]
  · rw [Instr.opcode_ofABC]
    decide
  · rw [Instr.opcode_ofABC]
    decide
  · exact (Draft.pc_push ..).symm
  · exact ⟨.ofABC .loadBool reg 1 0, Array.getElem?_push_size, Instr.opcode_ofABC ..⟩
  · rw [hpc]
    exact Nat.le_succ_of_le hlow

namespace Compile

variable {α β : Type}

theorem run_aimHere {s : Compiler} (h : s.fn.here = []) : aimHere s = .ok ((), s) := by
  have hs : { s with fn := { s.fn with here := [] } } = s := by rw [← h]
  show aimJumps s.fn.pc noRegister s.fn.pc s.fn.here { s with fn := { s.fn with here := [] } } = _
  rw [hs, h]
  rfl

theorem run_emit {s : Compiler} (i : Instr) (h : s.fn.here = []) :
    emit i s = .ok (s.fn.pc, { s with fn := s.fn.push i s.lastLine }) := by
  unfold emit
  rw [run_bind (run_aimHere h)]
  rfl

theorem emit_ok {s t : Compiler} {i : Instr} {pc : Nat} (h : emit i s = .ok (pc, t)) : ∃ s1,
    aimHere s = .ok ((), s1) ∧ pc = s1.fn.pc ∧ t = { s1 with fn := s1.fn.push i s1.lastLine } := by
  obtain ⟨_, s1, haim, hwrite⟩ := bind_ok h
  cases hwrite
  exact ⟨s1, haim, rfl, rfl⟩

theorem run_jump {s : Compiler} (h : s.fn.here = []) :
    jump s = .ok ([s.fn.pc], { s with fn := s.fn.push (.ofAsBx .jmp 0 (-1)) s.lastLine }) := by
  have hs : { s with fn := { s.fn with here := [] } } = s := by rw [← h]
  have hjoin : joinJumps [s.fn.pc] s.fn.here = Pure.pure [s.fn.pc] := by
    rw [h]
    rfl
  show (emit (.ofAsBx .jmp 0 (-1)) >>= fun pc => joinJumps [pc] s.fn.here) { s with fn := { s.fn with here := [] } } = _
  rw [hs, run_bind (run_emit _ h), hjoin]
  rfl

namespace Goes

variable {scope : Bool} {x : Compile α} {f : α → Compile β} {u : Sketch} {P : α → Sketch → Prop} {Q : β → Sketch → Prop}
  {i j : Instr}

/-- **The jumps that wait for the next instruction are aimed at it.** -/
theorem aimHere : Goes scope Compile.aimHere u fun _ u' => u.Arrived u' := by
  refine sound fun hu => get fun s hs => ?_
  rw [hs]
  have hgather : u.Step scope { u with draft := { u.draft with here := [] } } := .gather (by simp) (.inl rfl)
  refine (modifyFn (P := fun _ u' => u' = { u with draft := { u.draft with here := [] } }) hgather rfl rfl rfl).bind ?_
  rintro _ _ - rfl
  have harrived : ∀ u', Sketch.Recoded { u with draft := { u.draft with here := [] } } u' → u.Arrived u' := fun u' h =>
    ⟨h.targets, h.heads, h.homes, h.draft, h.size⟩
  rcases hu.aimed.arrives with hnone | hpc
  · rw [hnone]
    exact pure (harrived _ (.refl _))
  · exact (aimJumps noRegister (fun n hn => hgather.jumpAt (hu.aimed.here n hn)) hpc hpc).imp fun _ u' h => harrived u' h

/-- **An instruction is written.** -/
theorem emit (hi : i.Raw) (hskip : i.skipsNext = false) : Goes scope (Compile.emit i) u fun pc u' => u.Written i pc u' := by
  refine aimHere.bind fun _ u1 _ h1 => get fun s hs => ?_
  refine (modifyFn (P := fun _ u' => u.Written i s.fn.pc u')
    (Sketch.Step.write h1.here hi hskip : u1.Step scope { u1 with draft := u1.draft.push i s.lastLine }) rfl rfl ?_).bind
    fun _ u2 _ h2 => pure h2
  rw [hs]
  exact h1.written i s.lastLine

theorem emitABC {op : Op} {a b c : Nat} (hop : op.isMild = true) :
    Goes scope (Compile.emitABC op a b c) u fun pc u' => u.Written (.ofABC op a b c) pc u' :=
  emit (Instr.raw_of_isMild (by rwa [Instr.opcode_ofABC])) (Instr.skipsNext_of_isMild (by rwa [Instr.opcode_ofABC]))

theorem emitABx {op : Op} {a bx : Nat} (hop : op.isMild = true) :
    Goes scope (Compile.emitABx op a bx) u fun pc u' => u.Written (.ofABx op a bx) pc u' :=
  emit (Instr.raw_of_isMild (by rwa [Instr.opcode_ofABx])) (Instr.skipsNext_of_isMild (by rwa [Instr.opcode_ofABx]))

theorem writeABC {op : Op} {a b c : Nat} (hop : op.isMild = true) :
    Goes scope (Functor.discard (Compile.emitABC op a b c)) u fun _ _ => True :=
  discard ((emitABC hop).imp fun _ _ _ => trivial)

theorem writeBool (a b : Nat) : Goes scope (Functor.discard (Compile.emitABC .loadBool a b 0)) u fun _ _ => True := by
  refine discard ((emit ⟨?_, ?_⟩ ?_).imp fun _ _ _ => trivial)
  · simp [Op.layout]
  · simp
  · simp [Instr.skipsNext]

/-- **A jump is written** that goes nowhere yet. -/
theorem emitJump {op : Op} {a : Nat} (hop : op.layout = .asbx) :
    Goes scope (Compile.emitAsBx op a (-1)) u fun pc u' => u.Written (.ofAsBx op a (-1)) pc u' :=
  emit (Instr.raw_ofAsBx hop) (Instr.skipsNext_ofAsBx hop)

theorem pair {k : Unit → Compile β} {R : Nat → β → Prop} (hi : i.Raw) (hj : j.Raw) (hskip : j.skipsNext = false)
    (hpass : Sketch.Passable j)
    (hk : ∀ s b s', s.fn.here = [] → k () s = .ok (b, s') → s' = { s with fn := s.fn.push j s.lastLine } ∧ R s.fn.pc b) :
    Goes scope (Functor.discard (Compile.emit i) >>= k) u fun b u' => ∃ pc, R pc b ∧ u'.draft.code[pc]? = some j := by
  intro hu s b s' hs hrun
  obtain ⟨_, t, hwrite, hrest⟩ := bind_ok hrun
  obtain ⟨pc, hemit, -⟩ := map_ok hwrite
  obtain ⟨s1, haim, -, rfl⟩ := emit_ok hemit
  obtain ⟨u1, hs1, hpasses, h1⟩ := (aimHere : Goes scope _ u _) hu s () s1 hs haim
  obtain ⟨rfl, hR⟩ := hk _ b s' (by rw [← h1.here, ← hs1]; rfl) hrest
  refine ⟨{ u1 with draft := (u1.draft.push i s1.lastLine).push j s1.lastLine }, by rw [hs1], ?_, _, hR, ?_⟩
  · exact hpasses.trans ⟨.single (.pair h1.here hi hj hskip hpass.1 hpass.2), .refl _, fun _ => .inl⟩
  · rw [hs1]
    exact Array.getElem?_push_size

/-- **A test and its jump are written.** -/
theorem condJump {op : Op} {a b c : Nat} (hlayout : op.layout ≠ .asbx) (hnil : op ≠ .loadNil) :
    Goes scope (Compile.condJump op a b c) u fun l u' => ∀ n ∈ l, u'.draft.JumpAt n := by
  have htest : (Instr.ofABC op a b c).Raw :=
    Instr.raw_of_ne (by rwa [Instr.opcode_ofABC]) (by rwa [Instr.opcode_ofABC])
  have hpass : Sketch.Passable (.ofAsBx .jmp 0 (-1)) := by
    rw [Sketch.Passable, Instr.opcode_ofAsBx]
    decide
  refine (pair (k := fun _ => Compile.jump) (R := fun pc l => l = [pc]) htest (Instr.raw_ofAsBx rfl)
    (Instr.skipsNext_ofAsBx rfl) hpass ?_).imp ?_
  · intro s l s' hhere hrun
    rw [run_jump hhere] at hrun
    cases hrun
    exact ⟨rfl, rfl⟩
  · rintro l u' ⟨pc, rfl, hpc⟩ n hn
    rw [List.mem_singleton.mp hn]
    exact ⟨_, hpc, by rw [Instr.opcode_ofAsBx]; rfl⟩

theorem writeExtended {n : Nat} (hi : i.Raw) : Goes scope (do
    Functor.discard (Compile.emit i)
    Functor.discard (Compile.emit (.ofAx .extraArg n))) u fun _ _ => True := by
  have hmild : (Instr.ofAx .extraArg n).opcode.isMild = true := by
    rw [Instr.opcode_ofAx]
    rfl
  have hpass : Sketch.Passable (.ofAx .extraArg n) := by
    rw [Sketch.Passable, Instr.opcode_ofAx]
    decide
  refine (pair (R := fun _ _ => True) hi (Instr.raw_of_isMild hmild) (Instr.skipsNext_of_isMild hmild) hpass ?_).imp
    fun _ _ _ => trivial
  intro s _ s' hhere hrun
  rw [run_discard (run_emit _ hhere)] at hrun
  cases hrun
  exact ⟨rfl, trivial⟩

theorem loadConstant (reg k : Nat) : Goes scope (Compile.loadConstant reg k) u fun _ _ => True := by
  unfold Compile.loadConstant
  split
  · exact discard ((emitABx rfl).imp fun _ _ _ => trivial)
  · exact writeExtended (Instr.raw_of_ne (by rw [Instr.opcode_ofABx]; decide) (by rw [Instr.opcode_ofABx]; decide))

theorem emitReturn (first : Nat) (n : Option Nat) : Goes scope (Compile.emitReturn first n) u fun _ _ => True :=
  writeABC rfl

/-! ## 5. Places are marked, and jumps arrive -/

theorem joinJumps (l1 l2 : JumpList) :
    Goes scope (Compile.joinJumps l1 l2) u fun l u' => l = l1 ++ l2 ∧ u' = u := by
  intro _ s l s' hs hrun
  obtain ⟨hs', hl, hfn⟩ := Writes.joinJumps (d := u.draft) l1 l2 s l s' hs hrun
  have houter : s'.outer = s.outer := by rw [hs']
  refine ⟨u, hfn, ?_, hl, rfl⟩
  rw [houter]
  exact .refl _ u

theorem markTarget : Goes scope Compile.markTarget u fun pc u' => pc = u.draft.pc ∧ u' = u.marked := by
  refine sound fun hu => ?_
  refine (modifyFn (P := fun _ u' => u' = u.marked) (.mark (.inl rfl) hu.aimed.low) rfl rfl rfl).bind ?_
  rintro _ _ - rfl
  exact ofFn (f := Pure.pure) (pure ⟨rfl, rfl⟩)

theorem discardMark : Goes scope (Functor.discard Compile.markTarget) u fun _ u' => u' = u.marked :=
  discard (P := fun _ u' => u' = u.marked) (markTarget.imp fun _ _ h => h.2)

/-- **A jump is written**, and with it go the jumps that would arrive at it. -/
theorem jump : Goes scope Compile.jump u fun l u' =>
    (∀ n ∈ l, u'.draft.JumpAt n) ∧ l.head? = some u.draft.pc ∧ u'.draft.pc = u.draft.pc + 1 ∧
      u'.draft.free = u.draft.free := by
  refine sound fun hu => ofFn ?_
  refine (modifyFn (P := fun _ u' => u' = { u with draft := { u.draft with here := [] } })
    (.gather (by simp) (.inl rfl)) rfl rfl rfl).bind ?_
  rintro _ _ hsteps rfl
  refine (emitJump rfl).bind fun pc u1 hsteps1 h1 => (joinJumps _ _).imp ?_
  rintro l u2 ⟨rfl, rfl⟩
  refine ⟨fun n hn => ?_, congrArg some h1.place, h1.place ▸ h1.pc_eq, h1.free⟩
  rcases List.mem_cons.mp hn with rfl | hn
  · exact ⟨_, h1.instr, by rw [Instr.opcode_ofAsBx]; rfl⟩
  · exact Sketch.Steps.jumpAt (hsteps.trans hsteps1) (hu.aimed.here n hn)

/-- **Jumps are sent to the next instruction.** -/
theorem patchHere {l : JumpList} (hl : ∀ n ∈ l, u.draft.JumpAt n) :
    Goes scope (Compile.patchHere l) u fun _ u' => u'.draft.free = u.draft.free := by
  refine sound fun hu => discardMark.bind ?_
  rintro _ _ hsteps rfl
  refine ofFn ((joinJumps _ _).bind ?_)
  rintro _ _ - ⟨rfl, rfl⟩
  refine modifyFn (.gather (fun n hn => hsteps.jumpAt ?_) (.inr List.mem_cons_self)) rfl rfl rfl
  exact (List.mem_append.mp hn).elim (hu.aimed.here n) (hl n)

theorem patchTo {l : JumpList} {target : Nat} (hl : ∀ n ∈ l, u.draft.JumpAt n) (htarget : target ∈ u.targets) :
    Goes scope (Compile.patchTo l target) u fun _ u' => u'.draft.free = u.draft.free := by
  refine ofFn ?_
  split
  · exact patchHere hl
  · exact (aimJumps _ hl htarget htarget).imp fun _ _ h => h.free

/-- **False is written, and true behind it**; the place of the second is marked. -/
theorem boolPair {reg : Nat} {k : Nat → Nat → Compile β}
    (hk : ∀ f t u', Sketch.Steps scope u u' → f = u.draft.pc → t ∈ u'.targets → Goes scope (k f t) u' Q) :
    Goes scope (do
      let f ← Compile.emitABC .loadBool reg 0 1
      Functor.discard Compile.markTarget
      let t ← Compile.emitABC .loadBool reg 1 0
      k f t) u Q := by
  intro hu s b s' hs hrun
  obtain ⟨f, t1, hfalse, hrun⟩ := bind_ok hrun
  obtain ⟨_, t2, hmark, hrun⟩ := bind_ok hrun
  obtain ⟨t, t3, htrue, hrun⟩ := bind_ok hrun
  obtain ⟨s1, haim, rfl, rfl⟩ := emit_ok hfalse
  cases hmark
  obtain ⟨⟨d, targets, heads, homes⟩, hs1, hpasses, h1⟩ := (aimHere : Goes scope _ u _) hu s () s1 hs haim
  subst hs1
  have hwritten := htrue.symm.trans (run_emit _ h1.here)
  cases hwritten
  have hsteps := Sketch.steps_boolPair scope reg s1.lastLine h1.here
    (hpasses.steps.sound hu).aimed.low
  obtain ⟨u2, hs', hpasses2, hq⟩ := hk _ _ _ (hpasses.steps.trans hsteps) h1.size
    List.mem_cons_self (hsteps.sound (hpasses.steps.sound hu)) _ b s' rfl hrun
  exact ⟨u2, hs', (hpasses.trans ⟨hsteps, .refl _, fun _ => .inl⟩).trans hpasses2, hq⟩

theorem dropLast (hnot : u.draft.OpAt (u.draft.pc - 1) .not) (htargets : ∀ t ∈ u.targets, t < u.draft.pc)
    (hlocals : ∀ (k : Nat) (v : DraftLocal), u.draft.locals[k]? = some v → v.start < u.draft.pc ∧ v.stop < u.draft.pc) :
    Goes scope Compile.dropLast u fun _ _ => True :=
  modifyFn (.takeBack hnot htargets hlocals) rfl rfl trivial

end Goes

end Compile

/-! ## 6. Registers are cleared -/

structure Sketch.Clears (u : Sketch) (start n : Nat) : Prop where
  last : u.draft.HoldsAt (u.draft.pc - 1) fun i =>
    i.opcode = .loadNil ∧ i.a.val ≤ start ∧ start + n ≤ i.a.val + i.b.val + 1
  ahead : ∀ t ∈ u.targets, t < u.draft.pc

/-- **No jump may go behind an instruction that is widened.** -/
theorem Sketch.Aimed.ahead_of_merges {u : Sketch} {start n : Nat} (hu : u.Aimed) (h : u.draft.Merges start n) :
    ∀ t ∈ u.targets, t < u.draft.pc := by
  intro t ht
  have hnil := h.2.1
  rcases hu.marked t ht with hle | ⟨m, rfl, hm⟩
  · exact Nat.lt_of_le_of_lt hle h.1
  · have hlt : m < u.draft.pc := hm.lt
    refine Nat.lt_of_le_of_ne hlt fun hlast => ?_
    obtain ⟨j, hj, hlayout⟩ := hm
    rw [← hlast, Nat.add_sub_cancel, Draft.instr_eq hj] at hnil
    rw [hnil] at hlayout
    cases hlayout

theorem Sketch.Coded.last_of_merges {u : Sketch} {start n : Nat} (hu : u.Coded) (h : u.draft.Merges start n) :
    u.draft.HoldsAt (u.draft.pc - 1) fun i => i.a.val + i.b.val < 255 := by
  have hlt : u.draft.pc - 1 < u.draft.code.size := Draft.instr_lt (by rw [h.2.1]; decide)
  have hi := Array.getElem?_eq_getElem hlt
  exact ⟨_, hi, hu.clears _ _ hi (Draft.instr_eq hi ▸ h.2.1)⟩

namespace Compile.Goes

variable {scope : Bool} {u : Sketch} {start n : Nat}

/-- **Registers are cleared**, by an instruction of its own or by the last one: either way no jump may go behind it. -/
theorem loadNil (hn : 1 ≤ n) (hroom : start + n ≤ 255) :
    Goes scope (Compile.loadNil start n) u fun _ u' => u'.Clears start n := by
  refine sound fun hu => ofFn ?_
  extract_lets last prev prevStart prevLast
  split
  · next hmerge =>
    have hmerges : u.draft.Merges start n := hmerge
    have hprev := hu.coded.last_of_merges hmerges
    obtain ⟨i, j, -, hcode, hwidens, hcovers⟩ := hmerges.widens hn hroom hprev
    refine modifyFn (.merge hmerges hn hroom hprev : u.Step scope { u with draft := u.draft.widened start n }) rfl rfl ?_
    refine ⟨?_, ?_⟩
    · rw [Draft.pc_widened]
      refine ⟨j, by rw [hcode, if_pos rfl], hwidens.after, ((hcovers start).mpr (.inr ?_)).1, ?_⟩
      · omega
      · have hlast := (hcovers (start + n - 1)).mpr (.inr (by omega))
        omega
    · rw [Draft.pc_widened]
      exact hu.aimed.ahead_of_merges hmerges
  · refine discard ((emit (Instr.raw_loadNil hn hroom) ?_).imp fun pc u' h => ⟨?_, fun t ht => ?_⟩)
    · exact Instr.skipsNext_of_skips (by rw [Instr.opcode_ofABC]; rfl)
    · rw [h.pc_eq, Nat.add_sub_cancel]
      refine ⟨_, h.instr, Instr.opcode_ofABC .., ?_, ?_⟩
      · simp only [Instr.a_ofABC]
        omega
      · simp only [Instr.a_ofABC, Instr.b_ofABC]
        omega
    · rw [h.pc_eq, h.place]
      rw [h.targets] at ht
      exact Nat.lt_succ_of_le (hu.aimed.le ht)

end Compile.Goes

end LuaMachine
