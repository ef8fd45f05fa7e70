/-
  THE TEXT THAT A COMPUTATION READS. A judgement says of a step of the compilation which passage of the
  source it passes, which names it looks up on the way, and what is visible after it.
-/
import Mathlib.Data.List.Forall2
import LuaMachine.Proofs.Lexical.Lookup
import LuaMachine.Proofs.Lexical.Syntax

namespace LuaMachine

open Lexical

/-! ## 1. States -/

/-- The locals and blocks of a draft. -/
@[ext] structure Scoping where
  /-- The declared locals, by register. -/
  names : List Bytes
  /-- How many of them are visible. -/
  active : Nat
  /-- For each open block, innermost first, the locals that are visible outside it. -/
  levels : List Nat

namespace Scoping

def visible (sc : Scoping) : List Bytes := sc.names.take sc.active

def plain (names : List Bytes) (levels : List Nat) : Scoping := ⟨names, names.length, levels⟩

@[simp] theorem visible_plain (names : List Bytes) (levels : List Nat) : (plain names levels).visible = names :=
  List.take_length

/-- Locals are declared before they are visible, there are not too many of them, and the outermost block began before
    the first of them. -/
structure Tidy (sc : Scoping) : Prop where
  active : sc.active ≤ sc.names.length
  declared : sc.names.length ≤ Compile.maxLocals
  level : sc.levels.getLast? = some 0

end Scoping

namespace Draft

def scoping (d : Draft) : Scoping := ⟨d.names, d.active, d.blocks.map (·.active)⟩

def Known (d : Draft) : Prop := ∀ i ∈ d.declared, i < d.locals.size

variable {d d' : Draft}

theorem tidy_iff : d.Tidy ↔ d.Known ∧ d.upvalues.size ≤ Compile.maxUpvalues ∧ d.scoping.Tidy := by
  have hlength := d.length_names
  constructor
  · intro h
    exact ⟨h.known, h.upvalues, hlength ▸ h.active, hlength ▸ h.declared, h.level⟩
  · rintro ⟨hknown, hupvalues, hactive, hdeclared, hlevel⟩
    exact ⟨hlength ▸ hactive, hlength ▸ hdeclared, hknown, hupvalues, hlevel⟩

namespace Alike

theorem same_names (h : d.Alike d') : d'.names = d.names := by
  have hname : ∀ (d : Draft) (i : Nat), d.locals[i]?.map (·.name) = (d.locals.map (·.name))[i]? := fun d i =>
    (Array.getElem?_map ..).symm
  simp only [Draft.names, hname, h.declared, h.names]

theorem scoping (h : d.Alike d') : d'.scoping = d.scoping := by
  rw [Draft.scoping, Draft.scoping, h.same_names, h.active, h.blocks]

theorem known (h : d.Alike d') (hk : d.Known) : d'.Known := by
  have hsize : d'.locals.size = d.locals.size := by
    rw [← Array.size_map (f := (·.name)), h.names, Array.size_map]
  unfold Known
  rw [h.declared, hsize]
  exact hk

end Alike

namespace Captured

theorem levels (h : d.Captured d') : d'.blocks.map (·.active) = d.blocks.map (·.active) := by
  obtain ⟨blocks, upvalues, rfl, hb, -⟩ := h
  suffices hm : ∀ {level bs bs'}, Marked level bs bs' → bs'.map (·.active) = bs.map (·.active) from hm hb
  intro level bs bs' hm
  induction hm with
  | nil => rfl
  | cons head _ ih => rw [List.map_cons, List.map_cons, head.active, ih]

theorem scoping (h : d.Captured d') : d'.scoping = d.scoping := by
  have hlevels := h.levels
  obtain ⟨blocks, upvalues, rfl, -⟩ := h
  exact congrArg (Scoping.mk _ _) hlevels

theorem protos (h : d.Captured d') : d'.protos = d.protos := by
  obtain ⟨blocks, upvalues, rfl, -⟩ := h
  rfl

theorem upvalues (h : d.Captured d') : d.upvalues.toList <+: d'.upvalues.toList := by
  obtain ⟨blocks, upvalues, rfl, -, hu, -⟩ := h
  exact hu

end Captured

end Draft

theorem CapturedAll.head {d d' : Draft} {ds ds' : List Draft} (h : CapturedAll (d :: ds) (d' :: ds')) : d.Captured d' := by
  cases h with
  | cons head _ => exact head

theorem CapturedAll.tail {d d' : Draft} {ds ds' : List Draft} (h : CapturedAll (d :: ds) (d' :: ds')) : CapturedAll ds ds' := by
  cases h with
  | cons _ tail => exact tail

namespace Lexical

variable {α β : Type} {s s' s'' : Compiler}

structure Leaves (s s' : Compiler) : Prop where
  settled : Settled (s'.fn :: s'.outer)
  outer : CapturedAll s.outer s'.outer
  upvalues : s.fn.upvalues.toList <+: s'.fn.upvalues.toList

theorem Leaves.trans (h : Leaves s s') (h' : Leaves s' s'') : Leaves s s'' :=
  ⟨h'.settled, h.outer.trans h'.outer, h.upvalues.trans h'.upvalues⟩

/-- Functions as they will be when they are finished: the scopes of those being written have grown, and the end of
    the source is still to come. -/
structure Context.Fits (ctx : Context) (s : Compiler) : Prop where
  ends : Token.eof ∈ s.tokens
  upvalues : s.fn.upvalues.toList <+: ctx.upvalues
  around : Grown (Lexical.scopes s.outer) ctx.around
  sound : Sound (ctx.scopes [])

theorem Context.Fits.back {ctx : Context} (h : ctx.Fits s') (hl : Leaves s s') (he : Token.eof ∈ s.tokens) : ctx.Fits s :=
  ⟨he, hl.upvalues.trans h.upvalues, (grown_scopes hl.outer).trans h.around, h.sound⟩

theorem Context.Fits.grown {ctx : Context} (h : ctx.Fits s) :
    Grown (Lexical.scopes (s.fn :: s.outer)) (ctx.scopes s.fn.scoping.visible) :=
  .cons ⟨rfl, h.upvalues⟩ h.around

theorem Context.sound_scopes {ctx : Context} (h : Sound (ctx.scopes [])) (ns : List Bytes) : Sound (ctx.scopes ns) :=
  ⟨h.1.congr rfl, h.2⟩

/-- **The passage between two states**, with the names looked up on the way: each name of it is resolved. -/
structure Passes (s s' : Compiler) (log : List Lookup) (x : Passage) : Prop where
  tokens : s.tokens = x.tokens ++ s'.tokens
  protos : s'.fn.protos.toList = s.fn.protos.toList ++ x.protos
  names : List.Forall₂ (fun o q => q.name = o.name ∧ Resolved o.around q) x.names log

theorem Passes.append {log log' : List Lookup} {x y : Passage} (h : Passes s s' log x) (h' : Passes s' s'' log' y) :
    Passes s s'' (log ++ log') (x ++ y) where
  tokens := by rw [h.tokens, h'.tokens, Passage.tokens_append, List.append_assoc]
  protos := by rw [h'.protos, h.protos, Passage.protos_append, List.append_assoc]
  names := List.rel_append h.names h'.names

namespace Passage

def Starts (x : Passage) (t : Token) : Prop := ∀ t₀, x.tokens.head? = some t₀ → t₀ = t

def Between (x : Passage) (t t' : Token) : Prop := ∃ us us', t :: us = x.tokens ++ t' :: us'

theorem Between.starts {x y : Passage} {t t' : Token} (h : x.Between t t') (hy : y.Starts t') : (x ++ y).Starts t := by
  obtain ⟨us, us', heq⟩ := h
  intro t0 ht0
  rw [tokens_append] at ht0
  cases hx : x.tokens with
  | nil =>
    rw [hx] at heq ht0
    cases heq
    exact hy t0 ht0
  | cons t1 ts =>
    rw [hx] at heq ht0
    cases heq
    exact (Option.some.inj ht0).symm

theorem starts_empty (t : Token) : empty.Starts t := by
  rintro _ ⟨⟩

end Passage

/-! ## 2. The judgement -/

theorem ok_of_bind {x : Except CompileError α} {f : α → Except CompileError β} {b : β} (h : x >>= f = .ok b) :
    ∃ a, x = .ok a ∧ f a = .ok b := by
  cases x with
  | error e => cases h
  | ok a => exact ⟨a, rfl, h⟩

/-- **From a state with the token `t` and the locals `sc`, the computation** looks names up that are all answered; if
    it leads to an answer `a`, then to a token and locals with `Q`, and whatever the functions being written will be
    when they are finished, it passes a passage with `P`. -/
def Scans (c : Reader → Compile α) (t : Token) (sc : Scoping) (Q : α → Token → Scoping → Prop)
    (P : α → Token → Scoping → Context → Passage → Prop) : Prop :=
  ∀ s : Compiler, s.current.token = t → s.fn.scoping = sc → Settled (s.fn :: s.outer) →
    ∃ log, Asks (fun f => c f s) log ∧ (∀ q ∈ log, Answered q) ∧
      ∀ a s', c Compile.named s = .ok (a, s') → Leaves s s' ∧ Q a s'.current.token s'.fn.scoping ∧
        ∀ ctx : Context, ctx.Fits s' → ∃ x, Passes s s' log x ∧ P a s'.current.token s'.fn.scoping ctx x

namespace Scans

variable {c c' : Reader → Compile α} {k : α → Reader → Compile β} {t : Token} {sc : Scoping}
  {Q : α → Token → Scoping → Prop} {P : α → Token → Scoping → Context → Passage → Prop}
  {Q' : β → Token → Scoping → Prop} {P' : β → Token → Scoping → Context → Passage → Prop}

theorem congr (h : Scans c' t sc Q P) (hc : ∀ f, c f = c' f) : Scans c t sc Q P := by
  rw [show c = c' from funext hc]
  exact h

theorem imp {Q1 : α → Token → Scoping → Prop} {P1 : α → Token → Scoping → Context → Passage → Prop} (h : Scans c t sc Q1 P1)
    (hq : ∀ a t' sc', Q1 a t' sc' → Q a t' sc') (hp : ∀ a t' sc' ctx x, Q1 a t' sc' → P1 a t' sc' ctx x → P a t' sc' ctx x) :
    Scans c t sc Q P := by
  intro s ht hsc hs
  obtain ⟨log, hasks, hans, hok⟩ := h s ht hsc hs
  refine ⟨log, hasks, hans, fun a s' hrun => ?_⟩
  obtain ⟨hl, hqa, hpa⟩ := hok a s' hrun
  refine ⟨hl, hq _ _ _ hqa, fun ctx hfits => ?_⟩
  obtain ⟨x, hx, hpx⟩ := hpa ctx hfits
  exact ⟨x, hx, hp _ _ _ _ _ hqa hpx⟩

theorem tidy (h : sc.Tidy → Scans c t sc Q P) : Scans c t sc Q P := fun s ht hsc hs =>
  h (hsc ▸ (Draft.tidy_iff.mp (hs.tidy _ (List.mem_cons_self ..))).2.2) s ht hsc hs

theorem andThen (h : Scans c t sc Q P) (hk : ∀ a t' sc', Q a t' sc' →
      Scans (k a) t' sc' Q' fun b t'' sc'' ctx y => ∀ x, P a t' sc' ctx x → P' b t'' sc'' ctx (x ++ y)) :
    Scans (fun f => c f >>= fun a => k a f) t sc Q' P' := by
  intro s ht hsc hs
  obtain ⟨log, hasks, hans, hok⟩ := h s ht hsc hs
  have hrun : ∀ f, (c f >>= fun a => k a f) s = (c f s >>= fun v => k v.1 f v.2) := fun _ => rfl
  dsimp only
  simp only [hrun]
  cases hc : c Compile.named s with
  | error e =>
    refine ⟨log, hasks.stop (k := fun v f => k v.1 f v.2) hc, hans, fun b s' hb => ?_⟩
    cases hb
  | ok v =>
    obtain ⟨a, s1⟩ := v
    obtain ⟨hl, hq, hp⟩ := hok a s1 hc
    obtain ⟨log', hasks', hans', hok'⟩ := hk a _ _ hq s1 rfl rfl hl.settled
    refine ⟨log ++ log', hasks.bind (k := fun v f => k v.1 f v.2) hc hasks', ?_, fun b s' hb => ?_⟩
    · intro q hmem
      rcases List.mem_append.mp hmem with hmem | hmem
      · exact hans q hmem
      · exact hans' q hmem
    · obtain ⟨hl', hq', hp'⟩ := hok' b s' hb
      refine ⟨hl.trans hl', hq', fun ctx hfits => ?_⟩
      obtain ⟨y, hy, hpy⟩ := hp' ctx hfits
      have hends : Token.eof ∈ s1.tokens := by
        rw [hy.tokens]
        exact List.mem_append_right _ hfits.ends
      obtain ⟨x, hx, hpx⟩ := hp ctx (hfits.back hl' hends)
      exact ⟨x ++ y, hx.append hy, hpy x hpx⟩

theorem between (h : Scans c t sc Q P) : Scans c t sc Q fun a t' sc' ctx x => x.Between t t' ∧ P a t' sc' ctx x := by
  intro s ht hsc hs
  obtain ⟨log, hasks, hans, hok⟩ := h s ht hsc hs
  refine ⟨log, hasks, hans, fun a s' hrun => ?_⟩
  obtain ⟨hl, hq, hp⟩ := hok a s' hrun
  refine ⟨hl, hq, fun ctx hfits => ?_⟩
  obtain ⟨x, hx, hpx⟩ := hp ctx hfits
  subst ht
  exact ⟨x, hx, ⟨s.ahead.map Lexeme.token, s'.ahead.map Lexeme.token, hx.tokens⟩, hpx⟩

theorem fail {x : Compile α} (hx : ∀ s, ∃ e, x s = .error e) : Scans (fun _ => x) t sc Q P := by
  intro s _ _ _
  obtain ⟨e, he⟩ := hx s
  refine ⟨[], .none _, fun _ hq => absurd hq List.not_mem_nil, fun a s' h => ?_⟩
  cases he.symm.trans h

theorem failNear {e : CompileFault} : Scans (fun _ => Compile.failNear e) t sc Q P := fail fun _ => ⟨_, rfl⟩

theorem failPlain {e : CompileFault} : Scans (fun _ => Compile.failPlain e) t sc Q P := fail fun _ => ⟨_, rfl⟩

theorem get {k : Compiler → Reader → Compile β} (h : ∀ s, s.fn.scoping = sc → Scans (k s) t sc Q' P') :
    Scans (fun f => MonadState.get >>= fun s => k s f) t sc Q' P' := fun s ht hsc hs => h s hsc s ht hsc hs

theorem token {k : Token → Reader → Compile β} (h : Scans (k t) t sc Q' P') :
    Scans (fun f => Compile.token >>= fun t => k t f) t sc Q' P' := by
  intro s ht hsc hs
  have hrun : ∀ f, (Compile.token >>= fun t => k t f) s = k t f s := fun f => by
    rw [← ht]
    rfl
  simp only [hrun]
  exact h s ht hsc hs

end Scans

/-! ## 3. Steps that look no name up -/

/-- A step without tokens and names: it changes the innermost draft only, and of it neither upvalues nor finished
    functions. -/
def Turns (x : Compile α) (sc : Scoping) (R : α → Scoping → Prop) : Prop :=
  ∀ s a s', s.fn.scoping = sc → s.fn.Known → x s = .ok (a, s') → ∃ d, s' = { s with fn := d } ∧ d.Known ∧
    d.upvalues = s.fn.upvalues ∧ d.protos = s.fn.protos ∧ R a d.scoping

def Eats (x : Compile α) (t : Token) (R : α → Token → List Token → Prop) : Prop :=
  ∀ s a s', s.current.token = t → x s = .ok (a, s') → s'.fn = s.fn ∧ s'.outer = s.outer ∧
    ∃ ts, R a s'.current.token ts ∧ (Token.eof ∈ s'.tokens → s.tokens = ts ++ s'.tokens)

theorem Settled.turn {d d' : Draft} {outer : List Draft} (h : Settled (d :: outer)) (hk : d'.Known)
    (hsc : d'.scoping.Tidy) (hu : d'.upvalues = d.upvalues) : Settled (d' :: outer) := by
  refine ⟨fun p hp => ?_, ⟨h.sound.1.congr (congrArg Array.toList hu), h.sound.2⟩, h.guarded.head hu⟩
  rcases List.mem_cons.mp hp with rfl | hp
  · exact Draft.tidy_iff.mpr ⟨hk, hu ▸ (h.tidy _ (List.mem_cons_self ..)).upvalues, hsc⟩
  · exact h.tidy p (List.mem_cons_of_mem _ hp)

theorem Settled.known {d : Draft} {outer : List Draft} (h : Settled (d :: outer)) : d.Known :=
  (h.tidy d (List.mem_cons_self ..)).known

theorem Settled.scoping_tidy {d : Draft} {outer : List Draft} (h : Settled (d :: outer)) : d.scoping.Tidy :=
  (Draft.tidy_iff.mp (h.tidy d (List.mem_cons_self ..))).2.2

theorem Quiet.turns {x : Compile α} (hx : Quiet x) (sc : Scoping) : Turns x sc fun _ sc' => sc' = sc := by
  intro s a s' hsc hk hrun
  obtain ⟨d, hd, hsame⟩ := hx s a s' hrun
  exact ⟨d, hd, hsame.known hk, hsame.upvalues, hsame.protos, hsame.scoping.trans hsc⟩

namespace Turns

variable {x : Compile α} {k : α → Compile β} {sc : Scoping} {R : α → Scoping → Prop} {R' : β → Scoping → Prop}

theorem bind (hx : Turns x sc R) (hk : ∀ a sc', R a sc' → Turns (k a) sc' R') : Turns (x >>= k) sc R' := by
  intro s b s' hsc hknown hrun
  obtain ⟨a, s1, hxs, hrun⟩ := Compile.bind_ok hrun
  obtain ⟨d, rfl, hknown1, hu, hp, hr⟩ := hx s a s1 hsc hknown hxs
  obtain ⟨d', rfl, hknown', hu', hp', hr'⟩ := hk a _ hr _ b s' rfl hknown1 hrun
  exact ⟨d', rfl, hknown', hu'.trans hu, hp'.trans hp, hr'⟩

theorem quiet (hx : Quiet x) (hk : ∀ a, Turns (k a) sc R') : Turns (x >>= k) sc R' := by
  refine (hx.turns sc).bind ?_
  rintro a _ rfl
  exact hk a

theorem get {k : Compiler → Compile β} (h : ∀ s, s.fn.scoping = sc → Turns (k s) sc R') :
    Turns (MonadState.get >>= k) sc R' := fun s b s' hsc hk hrun => h s hsc s b s' hsc hk hrun

theorem modifyFn {g : Draft → Draft} {R : Unit → Scoping → Prop} (h : ∀ d : Draft, d.scoping = sc → d.Known →
      (g d).Known ∧ (g d).upvalues = d.upvalues ∧ (g d).protos = d.protos ∧ R () (g d).scoping) :
    Turns (Compile.modifyFn g) sc R := by
  intro s a s' hsc hk hrun
  cases hrun
  obtain ⟨hknown, hu, hp, hr⟩ := h s.fn hsc hk
  exact ⟨_, rfl, hknown, hu, hp, hr⟩

theorem fail (h : ∀ s, ∃ e, x s = .error e) : Turns x sc R := by
  intro s a s' _ _ hrun
  obtain ⟨e, he⟩ := h s
  cases he.symm.trans hrun

end Turns

namespace Scans

variable {c : Reader → Compile α} {k : α → Reader → Compile β} {x : Compile α} {t : Token} {sc : Scoping}
  {Q : β → Token → Scoping → Prop} {P : β → Token → Scoping → Context → Passage → Prop}

/-- **A step without tokens and names**, then the next. -/
theorem turn {R : α → Scoping → Prop} (hx : Turns x sc R) (htidy : ∀ a sc', R a sc' → sc.Tidy → sc'.Tidy)
    (hk : ∀ a sc', R a sc' → Scans (k a) t sc' Q P) : Scans (fun f => x >>= fun a => k a f) t sc Q P := by
  intro s ht hsc hs
  have hrun : ∀ f, (x >>= fun a => k a f) s = (x s >>= fun v => k v.1 f v.2) := fun _ => rfl
  dsimp only
  simp only [hrun]
  cases hxs : x s with
  | error e => exact ⟨[], .none _, fun _ hq => absurd hq List.not_mem_nil, fun b s' hb => by cases hb⟩
  | ok v =>
    obtain ⟨a, s1⟩ := v
    obtain ⟨d, rfl, hknown, hu, hp, hr⟩ := hx s a s1 hsc hs.known hxs
    have hsettled := hs.turn hknown (htidy a _ hr (hsc ▸ hs.scoping_tidy)) hu
    obtain ⟨log, hasks, hans, hok⟩ := hk a _ hr { s with fn := d } ht rfl hsettled
    refine ⟨log, hasks, hans, fun b s' hb => ?_⟩
    obtain ⟨hl, hq, hpass⟩ := hok b s' hb
    refine ⟨⟨hl.settled, hl.outer, hu ▸ hl.upvalues⟩, hq, fun ctx hfits => ?_⟩
    obtain ⟨y, hy, hpy⟩ := hpass ctx hfits
    exact ⟨y, ⟨hy.tokens, hp ▸ hy.protos, hy.names⟩, hpy⟩

theorem quiet (hx : Quiet x) (hk : ∀ a, Scans (k a) t sc Q P) : Scans (fun f => x >>= fun a => k a f) t sc Q P := by
  refine turn (hx.turns sc) (fun a sc' h ht => h ▸ ht) ?_
  rintro a _ rfl
  exact hk a

/-- **A step that reads tokens**, then the next. -/
theorem eat {R : α → Token → List Token → Prop} (hx : Eats x t R) (hk : ∀ a t' ts, R a t' ts →
      Scans (k a) t' sc Q fun b t'' sc' ctx y => P b t'' sc' ctx (.words ts ++ y)) :
    Scans (fun f => x >>= fun a => k a f) t sc Q P := by
  intro s ht hsc hs
  have hrun : ∀ f, (x >>= fun a => k a f) s = (x s >>= fun v => k v.1 f v.2) := fun _ => rfl
  dsimp only
  simp only [hrun]
  cases hxs : x s with
  | error e => exact ⟨[], .none _, fun _ hq => absurd hq List.not_mem_nil, fun b s' hb => by cases hb⟩
  | ok v =>
    obtain ⟨a, s1⟩ := v
    obtain ⟨hfn, houter, ts, hr, htokens⟩ := hx s a s1 ht hxs
    have hs1 : Settled (s1.fn :: s1.outer) := by rw [hfn, houter]; exact hs
    obtain ⟨log, hasks, hans, hok⟩ := hk a _ ts hr s1 rfl ((congrArg Draft.scoping hfn).trans hsc) hs1
    refine ⟨log, hasks, hans, fun b s' hb => ?_⟩
    obtain ⟨hl, hq, hpass⟩ := hok b s' hb
    refine ⟨⟨hl.settled, houter ▸ hl.outer, hfn ▸ hl.upvalues⟩, hq, fun ctx hfits => ?_⟩
    obtain ⟨y, hy, hpy⟩ := hpass ctx hfits
    have hends : Token.eof ∈ s1.tokens := by
      rw [hy.tokens]
      exact List.mem_append_right _ hfits.ends
    refine ⟨Passage.words ts ++ y, ⟨?_, ?_, hy.names⟩, hpy⟩
    · rw [htokens hends, hy.tokens, Passage.tokens_append, List.append_assoc]
      rfl
    · rw [hy.protos, hfn]
      rfl

theorem word {t0 : Token} (hx : Eats x t fun _ _ ts => ts = [t0]) (hk : ∀ a t',
      Scans (k a) t' sc Q fun b t'' sc' ctx y => P b t'' sc' ctx (.word t0 ++ y)) :
    Scans (fun f => x >>= fun a => k a f) t sc Q P := by
  refine eat hx ?_
  rintro a t' _ rfl
  exact hk a t'

theorem pure {a : α} {Q : α → Token → Scoping → Prop} {P : α → Token → Scoping → Context → Passage → Prop} (hq : Q a t sc)
    (hp : ∀ ctx, P a t sc ctx .empty) : Scans (fun _ => Pure.pure a) t sc Q P := by
  intro s ht hsc hs
  refine ⟨[], .none _, fun _ hq => absurd hq List.not_mem_nil, fun a s' hrun => ?_⟩
  cases hrun
  exact ⟨⟨hs, .refl _, List.prefix_refl _⟩, ht ▸ hsc ▸ hq, fun ctx _ =>
    ⟨.empty, ⟨rfl, (List.append_nil _).symm, .nil⟩, hsc ▸ ht ▸ hp ctx⟩⟩

theorem last {R : α → Scoping → Prop} {Q : α → Token → Scoping → Prop} {P : α → Token → Scoping → Context → Passage → Prop}
    (hx : Turns x sc R) (htidy : ∀ a sc', R a sc' → sc.Tidy → sc'.Tidy) (hq : ∀ a sc', R a sc' → Q a t sc')
    (hp : ∀ a sc' ctx, R a sc' → P a t sc' ctx .empty) : Scans (fun _ => x) t sc Q P := by
  have h : Scans (fun _ => x >>= fun a => Pure.pure a) t sc Q P :=
    turn hx htidy fun a sc' hr => pure (hq a sc' hr) fun ctx => hp a sc' ctx hr
  exact h.congr fun _ => (bind_pure x).symm

theorem still {Q : α → Token → Scoping → Prop} {P : α → Token → Scoping → Context → Passage → Prop} (hx : Quiet x)
    (hq : ∀ a, Q a t sc) (hp : ∀ a ctx, P a t sc ctx .empty) : Scans (fun _ => x) t sc Q P := by
  refine last (hx.turns sc) (fun a sc' h ht => h ▸ ht) ?_ ?_
  · rintro a _ rfl
    exact hq a
  · rintro a _ ctx rfl
    exact hp a ctx

theorem lastEat {R : α → Token → List Token → Prop} {Q : α → Token → Scoping → Prop}
    {P : α → Token → Scoping → Context → Passage → Prop} (hx : Eats x t R) (hq : ∀ a t' ts, R a t' ts → Q a t' sc)
    (hp : ∀ a t' ts ctx, R a t' ts → P a t' sc ctx (.words ts)) : Scans (fun _ => x) t sc Q P := by
  have h : Scans (fun _ => x >>= fun a => Pure.pure a) t sc Q P :=
    eat hx fun a t' ts hr => pure (hq a t' ts hr) fun ctx => by
      rw [Passage.append_empty]
      exact hp a t' ts ctx hr
  exact h.congr fun _ => (bind_pure x).symm

end Scans

/-! ## 4. Tokens -/

namespace Eats

variable {t : Token}

theorem nothing {x : Compile α} {R : α → Token → List Token → Prop}
    (hx : ∀ s a s', s.current.token = t → x s = .ok (a, s') → s' = s ∧ R a t []) : Eats x t R := by
  intro s a s' hs hrun
  obtain ⟨rfl, hr⟩ := hx s a s' hs hrun
  exact ⟨rfl, rfl, [], hs.symm ▸ hr, fun _ => rfl⟩

theorem pure (a : α) : Eats (Pure.pure a) t fun b t' ts => b = a ∧ t' = t ∧ ts = [] := nothing fun s b s' _ hrun => by
  cases hrun
  exact ⟨rfl, rfl, rfl, rfl⟩

theorem fail {x : Compile α} {R : α → Token → List Token → Prop} (h : ∀ s, ∃ e, x s = .error e) : Eats x t R := by
  intro s a s' _ hrun
  obtain ⟨e, he⟩ := h s
  cases he.symm.trans hrun

theorem imp {x : Compile α} {R R' : α → Token → List Token → Prop} (h : Eats x t R) (hr : ∀ a t' ts, R a t' ts → R' a t' ts) :
    Eats x t R' := by
  intro s a s' hs hrun
  obtain ⟨hfn, houter, ts, hts, htokens⟩ := h s a s' hs hrun
  exact ⟨hfn, houter, ts, hr _ _ _ hts, htokens⟩

theorem andThen {x : Compile α} {f : α → Compile β} {R : α → Token → List Token → Prop}
    {R' : β → Token → List Token → Prop} (hx : Eats x t R)
    (hf : ∀ a t' ts, R a t' ts → Eats (f a) t' fun b t'' us => R' b t'' (ts ++ us)) : Eats (x >>= f) t R' := by
  intro s b s' hs hrun
  obtain ⟨a, s1, hxs, hrun⟩ := Compile.bind_ok hrun
  obtain ⟨hfn, houter, ts, hr, htokens⟩ := hx s a s1 hs hxs
  obtain ⟨hfn', houter', us, hr', htokens'⟩ := hf a _ ts hr s1 b s' rfl hrun
  refine ⟨hfn'.trans hfn, houter'.trans houter, ts ++ us, hr', fun hends => ?_⟩
  have hus := htokens' hends
  rw [htokens (by rw [hus]; exact List.mem_append_right _ hends), hus, List.append_assoc]

theorem get {k : Compiler → Compile β} {R : β → Token → List Token → Prop} (h : ∀ s, Eats (k s) t R) :
    Eats (MonadState.get >>= k) t R := fun s => h s s

theorem token {k : Token → Compile β} {R : β → Token → List Token → Prop} (h : Eats (k t) t R) :
    Eats (Compile.token >>= k) t R := by
  intro s b s' hs hrun
  have hrun : k s.current.token s = .ok (b, s') := hrun
  exact h s b s' hs (hs ▸ hrun)

theorem next_run (s : Compiler) : Compile.next s = (match s.ahead with
    | x :: rest => set { s with current := x, ahead := rest, lastLine := s.current.line }
    | [] => match s.fault with
      | some e => Compile.failLexical e
      | none => set { s with lastLine := s.current.line } : Compile Unit) s := rfl

theorem next (ht : t ≠ .eof) : Eats Compile.next t fun _ _ ts => ts = [t] := by
  intro s a s' hs hrun
  rw [next_run] at hrun
  cases hahead : s.ahead with
  | cons x rest =>
    rw [hahead] at hrun
    cases hrun
    refine ⟨rfl, rfl, [t], rfl, fun _ => ?_⟩
    simp only [Compiler.tokens, hahead, hs, List.map_cons, List.singleton_append]
  | nil =>
    rw [hahead] at hrun
    cases hfault : s.fault with
    | some e =>
      rw [hfault] at hrun
      cases hrun
    | none =>
      rw [hfault] at hrun
      cases hrun
      refine ⟨rfl, rfl, [t], rfl, fun hends => ?_⟩
      -- the end is not behind this token, so it would be this token
      simp only [Compiler.tokens, hs, List.map_nil, List.mem_singleton] at hends
      exact absurd hends.symm ht

theorem check {t0 : Token} : Eats (Compile.check t0) t fun _ t' ts => ts = [] ∧ t' = t0 := by
  refine token ?_
  split
  · exact fail fun _ => ⟨_, rfl⟩
  · next heq =>
    refine (pure ()).imp ?_
    rintro _ _ _ ⟨-, rfl, rfl⟩
    exact ⟨rfl, Decidable.not_not.mp heq⟩

theorem checkNext {t0 : Token} (h0 : t0 ≠ .eof) : Eats (Compile.checkNext t0) t fun _ _ ts => ts = [t0] := by
  refine check.andThen ?_
  rintro _ _ _ ⟨rfl, rfl⟩
  exact next h0

theorem testNext {t0 : Token} (h0 : t0 ≠ .eof) : Eats (Compile.testNext t0) t fun b t' ts =>
    (b = true ∧ ts = [t0]) ∨ (b = false ∧ t' = t ∧ t ≠ t0 ∧ ts = []) := by
  refine token ?_
  split
  · next heq =>
    subst heq
    refine (next h0).andThen ?_
    rintro _ _ _ rfl
    refine (pure _).imp ?_
    rintro _ _ _ ⟨rfl, -, rfl⟩
    exact .inl ⟨rfl, rfl⟩
  · next hne =>
    refine (pure _).imp ?_
    rintro _ _ _ ⟨rfl, rfl, rfl⟩
    exact .inr ⟨rfl, rfl, hne, rfl⟩

theorem checkName : Eats Compile.checkName t fun n _ ts => ts = [.name n] := by
  refine token ?_
  cases t with
  | name n =>
    refine (next (t := .name n) (by simp)).andThen ?_
    rintro _ _ _ rfl
    refine (pure _).imp ?_
    rintro _ _ _ ⟨rfl, -, rfl⟩
    rfl
  | _ => exact fail fun _ => ⟨_, rfl⟩

theorem checkMatch (what : Token) (h : what ≠ .eof) (opener : Token) (line : Nat) :
    Eats (Compile.checkMatch what opener line) t fun _ _ ts => ts = [what] := by
  refine (testNext h).andThen fun b t' ts hr => ?_
  rcases hr with ⟨rfl, rfl⟩ | ⟨rfl, -, -, rfl⟩
  · refine (pure ()).imp ?_
    rintro _ _ _ ⟨-, -, rfl⟩
    rfl
  · refine get fun s => ?_
    split
    · exact fail fun _ => ⟨_, rfl⟩
    · exact fail fun _ => ⟨_, rfl⟩

end Eats

namespace Scans

variable {k : Bool → Reader → Compile β} {t : Token} {sc : Scoping} {Q : β → Token → Scoping → Prop}
  {P : β → Token → Scoping → Context → Passage → Prop}

theorem testNext {t0 : Token} (h0 : t0 ≠ .eof)
    (yes : ∀ t', Scans (k true) t' sc Q fun b t'' sc' ctx y => P b t'' sc' ctx (.word t0 ++ y))
    (no : t ≠ t0 → Scans (k false) t sc Q P) : Scans (fun f => Compile.testNext t0 >>= fun b => k b f) t sc Q P := by
  refine eat (.testNext h0) ?_
  rintro b t' ts (⟨rfl, rfl⟩ | ⟨rfl, rfl, hne, rfl⟩)
  · exact yes t'
  · exact (no hne).imp (fun _ _ _ h => h) fun _ _ _ _ _ _ h => h

end Scans

namespace Quiet

theorem line : Quiet Compile.line := get fun _ => pure _

theorem token : Quiet Compile.token := get fun _ => pure _

theorem atBlockEnd (withUntil : Bool) : Quiet (Compile.atBlockEnd withUntil) := token.bind fun _ => pure _

theorem peek : Quiet Compile.peek := get fun s => by
  split
  · exact pure _
  · split
    · exact fail fun _ => ⟨_, rfl⟩
    · exact pure _

end Quiet

/-! ## 5. Names -/

theorem Quiet.fieldOf (p : Place) (n : Bytes) : Quiet (fieldOf p n) := (addConstant _).bind fun _ => indexed _ _

/-- **A name is resolved where it stands.** -/
theorem Scans.named (n : Bytes) {t : Token} {sc : Scoping} : Scans (fun f => f n) t sc (fun _ t' sc' => t' = t ∧ sc' = sc)
    fun _ _ _ ctx x => x = ⟨[], [⟨n, ctx.scopes sc.visible⟩], []⟩ := by
  intro s ht hsc hs
  refine ⟨[⟨n, s⟩], .one n s, ?_, fun a s' hrun => ?_⟩
  · intro q hq
    rw [List.mem_singleton.mp hq]
    exact named_answered n hs
  · obtain hover | ⟨s1, htakes, hres, p, hp⟩ := named_spec n hs
    · obtain ⟨_, _, _, e, he, _⟩ := hover
      cases he.symm.trans hrun
    · -- what is left of the state after the name has been found
      have hafter : ∃ d, s' = { s1 with fn := d } ∧ s1.fn.Alike d := by
        rcases hp with hp | hp
        · cases hp.symm.trans hrun
          exact ⟨_, rfl, .refl _⟩
        · exact Quiet.fieldOf p n s1 a s' (hp.symm.trans hrun)
      obtain ⟨d, rfl, hsame⟩ := hafter
      have hfn := htakes.captured.head
      have hk : d.Known := hsame.known htakes.settled.known
      have hsettled : Settled (d :: s1.outer) :=
        htakes.settled.turn hk (hsame.scoping ▸ htakes.settled.scoping_tidy) hsame.upvalues
      have hscoping : d.scoping = sc := hsame.scoping.trans (hfn.scoping.trans hsc)
      refine ⟨⟨hsettled, htakes.captured.tail, ?_⟩, ⟨?_, hscoping⟩, fun ctx hfits => ⟨_, ⟨?_, ?_, ?_⟩, rfl⟩⟩
      · rw [hsame.upvalues]
        exact hfn.upvalues
      · rw [← ht, htakes.rest]
      · rw [htakes.rest]
        rfl
      · rw [hsame.protos, hfn.protos]
        exact (List.append_nil _).symm
      · refine .cons ⟨rfl, hres _ ?_ (Context.sound_scopes hfits.sound _)⟩ .nil
        have hvisible : sc.visible = s1.fn.scope.names := congrArg Scoping.visible (hscoping.symm.trans hsame.scoping)
        have hupvalues : s1.fn.upvalues.toList <+: ctx.upvalues := hsame.upvalues ▸ hfits.upvalues
        exact .cons ⟨hvisible, hupvalues⟩ hfits.around

end Lexical

end LuaMachine
