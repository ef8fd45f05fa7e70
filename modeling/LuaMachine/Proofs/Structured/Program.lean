/-
  PROGRAMS OVER LOCAL VARIABLES: declarations, assignments, blocks, conditionals and loops. How they are
  written and what they do, said without code and machine.

  * `Program.run` -- **what a program does**, with a bound on the rounds of every loop. Where the bound does
    not suffice, the trace is a beginning of what the program does (`Program.run_begins`).
-/
import LuaMachine.Machine.State
import LuaMachine.Proofs.Meaning.Formula

namespace LuaMachine

namespace Structured

/-! ## 1. Syntax -/

inductive Simple where
  | var (x : Bytes)
  | lit (k : Constant)
deriving DecidableEq

def Simple.formula : Simple → Formula
  | var x => .var x
  | lit k => .lit k

def Simple.value (vars : Bytes → Value) : Simple → Value
  | var x => vars x
  | lit k => .ofConstant k

mutual

/-- A statement about locals. -/
inductive Statement where
  /-- `local x, xs = es`, of any number of names and formulas. -/
  | declare (x : Bytes) (xs : List Bytes) (es : List Formula)
  | assign (x : Bytes) (a : Simple)
  /-- `do body end` -/
  | scope (body : Program)
  /-- `if c then body`, and what follows. -/
  | choose (c : Formula) (body : Program) (rest : Branches)
  /-- `while c do body end` -/
  | loop (c : Formula) (body : Program)
  /-- `repeat body until c` -/
  | again (body : Program) (c : Formula)
  /-- `break` -/
  | leave

inductive Program where
  | nil
  | cons (s : Statement) (rest : Program)

/-- What follows the first branch of a conditional. -/
inductive Branches where
  /-- `end` -/
  | done
  /-- `else body end` -/
  | otherwise (body : Program)
  /-- `elseif c then body`, and what follows. -/
  | also (c : Formula) (body : Program) (rest : Branches)

end

end Structured

def Formula.listTokens (first : Token) : List Formula → List Token
  | [] => []
  | e :: es => first :: (e.tokens ++ listTokens (.symbol .comma) es)

def Formula.Fits (names : List Bytes) (e : Formula) : Prop := e.Grouped ∧ e.Over names

instance (names : List Bytes) (e : Formula) : Decidable (e.Fits names) :=
  inferInstanceAs (Decidable (_ ∧ _))

namespace Structured

mutual

/-- The tokens of a statement, in order. -/
def Statement.tokens : Statement → List Token
  | .declare x xs es =>
    .keyword .local :: .name x ::
      (xs.flatMap (fun y => [.symbol .comma, .name y]) ++ Formula.listTokens (.symbol .assign) es)
  | .assign x a => .name x :: .symbol .assign :: a.formula.tokens
  | .scope body => .keyword .do :: (body.tokens ++ [.keyword .end])
  | .choose c body rest => .keyword .if :: (c.tokens ++ .keyword .then :: (body.tokens ++ rest.tokens))
  | .loop c body => .keyword .while :: (c.tokens ++ .keyword .do :: (body.tokens ++ [.keyword .end]))
  | .again body c => .keyword .repeat :: (body.tokens ++ .keyword .until :: c.tokens)
  | .leave => [.keyword .break]

def Program.tokens : Program → List Token
  | .nil => []
  | .cons s rest => s.tokens ++ rest.tokens

def Branches.tokens : Branches → List Token
  | .done => [.keyword .end]
  | .otherwise body => .keyword .else :: (body.tokens ++ [.keyword .end])
  | .also c body rest => .keyword .elseif :: (c.tokens ++ .keyword .then :: (body.tokens ++ rest.tokens))

end

def Statement.scoped (names : List Bytes) : Statement → List Bytes
  | .declare x xs _ => names ++ x :: xs
  | _ => names

def Program.scoped (names : List Bytes) : Program → List Bytes
  | .nil => names
  | .cons s rest => rest.scoped (s.scoped names)

mutual

/-- All variables of a statement are in scope. The condition of `repeat` sees the locals of the body. -/
def Statement.Fits (names : List Bytes) : Statement → Prop
  | .declare _ _ es => ∀ e ∈ es, e.Fits names
  | .assign x a => x ∈ names ∧ a.formula.Fits names
  | .scope body => body.Fits names
  | .choose c body rest => c.Fits names ∧ body.Fits names ∧ rest.Fits names
  | .loop c body => c.Fits names ∧ body.Fits names
  | .again body c => body.Fits names ∧ c.Fits (body.scoped names)
  | .leave => True

def Program.Fits (names : List Bytes) : Program → Prop
  | .nil => True
  | .cons s rest => s.Fits names ∧ rest.Fits (s.scoped names)

def Branches.Fits (names : List Bytes) : Branches → Prop
  | .done => True
  | .otherwise body => body.Fits names
  | .also c body rest => c.Fits names ∧ body.Fits names ∧ rest.Fits names

end

mutual

instance Statement.decidableFits (names : List Bytes) : (s : Statement) → Decidable (s.Fits names)
  | .declare _ _ es => inferInstanceAs (Decidable (∀ e ∈ es, e.Fits names))
  | .assign x a => inferInstanceAs (Decidable (x ∈ names ∧ a.formula.Fits names))
  | .scope body => Program.decidableFits names body
  | .choose c body rest =>
    have := Program.decidableFits names body
    have := Branches.decidableFits names rest
    inferInstanceAs (Decidable (c.Fits names ∧ body.Fits names ∧ rest.Fits names))
  | .loop c body =>
    have := Program.decidableFits names body
    inferInstanceAs (Decidable (c.Fits names ∧ body.Fits names))
  | .again body c =>
    have := Program.decidableFits names body
    inferInstanceAs (Decidable (body.Fits names ∧ c.Fits (body.scoped names)))
  | .leave => isTrue trivial

instance Program.decidableFits (names : List Bytes) : (b : Program) → Decidable (b.Fits names)
  | .nil => isTrue trivial
  | .cons s rest =>
    have := Statement.decidableFits names s
    have := Program.decidableFits (s.scoped names) rest
    inferInstanceAs (Decidable (s.Fits names ∧ rest.Fits (s.scoped names)))

instance Branches.decidableFits (names : List Bytes) : (r : Branches) → Decidable (r.Fits names)
  | .done => isTrue trivial
  | .otherwise body => Program.decidableFits names body
  | .also c body rest =>
    have := Program.decidableFits names body
    have := Branches.decidableFits names rest
    inferInstanceAs (Decidable (c.Fits names ∧ body.Fits names ∧ rest.Fits names))

end

/-! ## 2. Events and traces -/

/-- What can be seen of a run. Locals are known by their places, first declared first. -/
inductive Event where
  /-- Another local gets its first value. -/
  | declared (v : Value)
  /-- A local gets a value. -/
  | assigned (i : Nat) (v : Value)
  /-- All locals but the first `n` end. -/
  | left (n : Nat)

def Event.apply (vs : List Value) : Event → List Value
  | declared v => vs ++ [v]
  | assigned i v => vs.set i v
  | left n => vs.take n

/-- How a run of statements ends. -/
inductive Ending where
  /-- It has come to its end, with these values of the locals. -/
  | done (vs : List Value)
  /-- It has been left by a `break`. -/
  | broke (vs : List Value)
  /-- Two values were compared that have no order. -/
  | clash (c : Clash)
  /-- A loop did not end within the bound. -/
  | endless

structure Trace where
  events : List Event
  ending : Ending

namespace Trace

def stop (e : Ending) : Trace := ⟨[], e⟩

def after (es : List Event) (t : Trace) : Trace := ⟨es ++ t.events, t.ending⟩

def andThen (t : Trace) (next : List Value → Trace) : Trace :=
  match t.ending with
  | .done vs => (next vs).after t.events
  | _ => t

def leaving (n : Nat) (t : Trace) : Trace :=
  match t.ending with
  | .done vs => ⟨t.events ++ [.left n], .done (vs.take n)⟩
  | .broke vs => ⟨t.events ++ [.left n], .broke (vs.take n)⟩
  | _ => t

/-- Round after round of a loop, which a `break` leaves. -/
def loop (once : List Value → Trace) : Nat → List Value → Trace
  | 0, _ => stop .endless
  | n + 1, vs =>
    let t := once vs
    match t.ending with
    | .done vs' => (loop once n vs').after t.events
    | .broke vs' => ⟨t.events, .done vs'⟩
    | _ => t

end Trace

/-! ## 3. What programs do -/

end Structured

open Structured

def Formula.test (names : List Bytes) (vs : List Value) (c : Formula) (yes no : Trace) : Trace :=
  match c.eval (Scope.value names vs) with
  | .ok v => if v.isFalsy then no else yes
  | .error clash => .stop (.clash clash)

/-- The next `n` locals get their first values, one after another: those of formulas, and nil where there
    are too few. Formulas that are too many are computed all the same. -/
def Formula.give (names : List Bytes) (n : Nat) (vs : List Value) : List Formula → Trace
  | [] => ⟨(List.replicate n .nil).map .declared, .done (vs ++ List.replicate n .nil)⟩
  | e :: es =>
    match e.eval (Scope.value names vs) with
    | .error clash => .stop (.clash clash)
    | .ok v =>
      match n with
      | 0 => give names 0 vs es
      | n + 1 => (give names n (vs ++ [v]) es).after [.declared v]

namespace Structured

mutual

/-- What a statement does when the locals have these values. The formulas of a declaration do not see
    its locals. -/
def Statement.run (bound : Nat) (names : List Bytes) (vs : List Value) : Statement → Trace
  | .declare x xs es => Formula.give names (x :: xs).length vs es
  | .assign x a =>
    let v := a.value (Scope.value names vs)
    match Scope.slot? x names with
    | some i => ⟨[.assigned i v], .done (vs.set i v)⟩
    | none => .stop (.done vs)
  | .scope body => (body.run bound names vs).leaving vs.length
  | .choose c body rest =>
    c.test names vs ((body.run bound names vs).leaving vs.length) (rest.run bound names vs)
  | .loop c body =>
    Trace.loop (fun vs => c.test names vs ((body.run bound names vs).leaving vs.length) (.stop (.broke vs)))
      bound vs
  | .again body c =>
    Trace.loop (fun vs => ((body.run bound names vs).andThen fun ws =>
      c.test (body.scoped names) ws (.stop (.broke ws)) (.stop (.done ws))).leaving vs.length) bound vs
  | .leave => .stop (.broke vs)

def Program.run (bound : Nat) (names : List Bytes) (vs : List Value) : Program → Trace
  | .nil => .stop (.done vs)
  | .cons s rest => (s.run bound names vs).andThen fun ws => rest.run bound (s.scoped names) ws

def Branches.run (bound : Nat) (names : List Bytes) (vs : List Value) : Branches → Trace
  | .done => .stop (.done vs)
  | .otherwise body => (body.run bound names vs).leaving vs.length
  | .also c body rest =>
    c.test names vs ((body.run bound names vs).leaving vs.length) (rest.run bound names vs)

end

/-! ## 4. The bound -/

def Trace.Begins (t t' : Trace) : Prop := t = t' ∨ t.ending = .endless ∧ t.events <+: t'.events

namespace Trace.Begins

variable {t t' : Trace} {next next' : List Value → Trace}

theorem refl (t : Trace) : t.Begins t := .inl rfl

theorem after (h : t.Begins t') (es : List Event) : (t.after es).Begins (t'.after es) := by
  rcases h with rfl | ⟨he, hp⟩
  · exact .refl _
  · exact .inr ⟨he, (List.prefix_append_right_inj es).mpr hp⟩

theorem andThen (h : t.Begins t') (hn : ∀ vs, (next vs).Begins (next' vs)) : (t.andThen next).Begins (t'.andThen next') := by
  rcases h with rfl | ⟨he, hp⟩
  · unfold Trace.andThen
    split
    · exact (hn _).after _
    · exact .refl _
  · have hstop : t.andThen next = t := by
      unfold Trace.andThen
      rw [he]
    rw [hstop]
    refine .inr ⟨he, hp.trans ?_⟩
    unfold Trace.andThen
    split
    · exact List.prefix_append _ _
    · exact List.prefix_rfl

theorem leaving (h : t.Begins t') (n : Nat) : (t.leaving n).Begins (t'.leaving n) := by
  rcases h with rfl | ⟨he, hp⟩
  · exact .refl _
  · have hstop : t.leaving n = t := by
      unfold Trace.leaving
      rw [he]
    rw [hstop]
    refine .inr ⟨he, hp.trans ?_⟩
    unfold Trace.leaving
    split
    · exact List.prefix_append _ _
    · exact List.prefix_append _ _
    · exact List.prefix_rfl

theorem loop {once once' : List Value → Trace} (h : ∀ vs, (once vs).Begins (once' vs)) {n m : Nat} (hle : n ≤ m)
    (vs : List Value) : (Trace.loop once n vs).Begins (Trace.loop once' m vs) := by
  induction n generalizing m vs with
  | zero => exact .inr ⟨rfl, List.nil_prefix⟩
  | succ n ih =>
    obtain ⟨m, rfl⟩ := Nat.exists_eq_add_of_le' (Nat.le_trans (Nat.le_add_left 1 n) hle)
    have hle : n ≤ m := Nat.le_of_succ_le_succ hle
    unfold Trace.loop
    dsimp only
    rcases h vs with heq | ⟨he, hp⟩
    · rw [← heq]
      split
      · exact (ih hle _).after _
      · exact .refl _
      · exact .refl _
    · rw [he]
      refine .inr ⟨he, hp.trans ?_⟩
      split
      · exact List.prefix_append _ _
      · exact List.prefix_rfl
      · exact List.prefix_rfl

theorem test {yes yes' no no' : Trace} (hy : yes.Begins yes') (hn : no.Begins no') (names : List Bytes) (vs : List Value)
    (c : Formula) : (c.test names vs yes no).Begins (c.test names vs yes' no') := by
  unfold Formula.test
  split
  · split
    · exact hn
    · exact hy
  · exact .refl _

end Trace.Begins

/-- **With a greater bound a program goes on as before**, where the first bound did not suffice, and else does the
    same. -/
theorem Program.run_begins {bound bound' : Nat} (hle : bound ≤ bound') (body : Program) (names : List Bytes) (vs : List Value) :
    (body.run bound names vs).Begins (body.run bound' names vs) := by
  refine @Program.rec (fun s => ∀ names vs, (s.run bound names vs).Begins (s.run bound' names vs))
    (fun b => ∀ names vs, (b.run bound names vs).Begins (b.run bound' names vs))
    (fun r => ∀ names vs, (r.run bound names vs).Begins (r.run bound' names vs))
    ?declare ?assign ?scope ?choose ?loop ?again ?leave ?nil ?cons ?done ?otherwise ?also body names vs
  case declare => exact fun _ _ _ _ _ => .refl _
  case assign => exact fun _ _ _ _ => .refl _
  case scope => exact fun _ hb names vs => (hb names vs).leaving _
  case choose => exact fun c _ _ hb hr names vs => .test ((hb names vs).leaving _) (hr names vs) names vs c
  case loop => exact fun c _ hb names vs => .loop (fun ws => .test ((hb names ws).leaving _) (.refl _) names ws c) hle vs
  case again => exact fun _ _ hb names vs => .loop (fun ws => ((hb names ws).andThen fun _ => .refl _).leaving _) hle vs
  case leave => exact fun _ _ => .refl _
  case nil => exact fun _ _ => .refl _
  case cons => exact fun s _ hs hb names vs => (hs names vs).andThen fun ws => hb (s.scoped names) ws
  case done => exact fun _ _ => .refl _
  case otherwise => exact fun _ hb names vs => (hb names vs).leaving _
  case also => exact fun c _ _ hb hr names vs => .test ((hb names vs).leaving _) (hr names vs) names vs c

end Structured

end LuaMachine
