/-
  NAMES IN EXPRESSIONS are resolved where they stand. A function inside an expression begins with nothing of
  its own; when it ends, the one around it has only been captured from.

  * `Nested.functionBody` -- **a function sees what is visible where it stands**.
-/
import LuaMachine.Proofs.Lexical.Block

namespace LuaMachine.Lexical

open Compile Grammar Passage

variable {bound n : Nat}

@[simp] theorem bound_ofLevels (f : Reader) (bound n : Nat) : (ofLevels f bound n).bound = bound := by cases n <;> rfl

@[simp] theorem name_ofLevels (f : Reader) (bound n : Nat) : (ofLevels f bound n).name = f := by cases n <;> rfl

def ReadsOperand (c : Reader → Compile (Expr × Option BinOp)) : Prop :=
  ∀ t sc, Scans c t sc (fun r t' sc' => r.2 = BinOp.ofToken? t' ∧ sc' = sc) fun _ t' _ ctx x =>
    ∃ g, Expression ctx sc.visible g x ∧ (g = true → t' ≠ .symbol .lparen)

/-- **What is nested is read** one level deeper. -/
structure Nested (bound n : Nat) : Prop where
  statement : Runs fun f => (ofLevels f bound n).statement
  subexpr : ∀ limit, ReadsOperand fun f => (ofLevels f bound n).subexpr limit

/-! ## 1. Fields, items and parameters -/

theorem nameConstant : Reads (fun _ => Grammar.nameConstant) fun _ _ x => ∃ name, x = word (.name name) := fun t sc => by
  refine .eat .checkName ?_
  rintro name t' _ rfl
  exact .quiet (Quiet.addConstant _) fun k => .pure rfl fun ctx => ⟨name, append_empty _⟩

theorem field {t : Token} (ht : t ≠ .eof) (e : Expr) (sc : Scoping) : Scans (fun _ => Grammar.field e) t sc
    (fun _ _ sc' => sc' = sc) fun _ _ _ _ x => ∃ name, x = word t ++ word (.name name) := by
  refine .quiet (Quiet.toRegisterOrUpvalue e) fun table => .word (.next ht) fun _ t' => ?_
  refine .read nameConstant fun key t'' => .still (Quiet.indexed _ _) (fun _ => rfl) ?_
  rintro _ ctx _ ⟨name, rfl⟩
  exact ⟨name, rfl⟩

theorem Quiet.flushItem (x : Grammar.Items) : Quiet (Grammar.flushItem x) := by
  unfold Grammar.flushItem
  split
  · exact .pure _
  · refine (Quiet.toNextRegister _).discard.bind fun _ => ?_
    dsimp only
    split
    · exact (Quiet.setList _ _ _).bind fun _ => .pure _
    · exact .pure _

theorem Quiet.flushLast (x : Grammar.Items) : Quiet (Grammar.flushLast x) := by
  unfold Grammar.flushLast
  split
  · exact .pure _
  · split
    · exact (Quiet.setReturns _ _).bind fun _ => (Quiet.setList _ _ _).bind fun _ => .pure _
    · split
      · exact (Quiet.toNextRegister _).discard.bind fun _ => (Quiet.setList _ _ _).bind fun _ => .pure _
      · exact (Quiet.setList _ _ _).bind fun _ => .pure _

theorem parametersFrom (fuel count : Nat) (t : Token) (sc : Scoping) : Scans (fun _ => Grammar.parametersFrom fuel count) t sc
    (fun k _ sc' => ∃ params, k = count + params.length ∧ sc' = { sc with names := sc.names ++ params })
    fun _ _ sc' _ x => ∃ params ts, Parameters params ts ∧ sc'.names = sc.names ++ params ∧ x = words ts := by
  induction fuel generalizing count t sc with
  | zero => exact .failNear
  | succ fuel ih =>
    refine .token ?_
    cases t with
    | name m =>
      refine .eat .checkName ?_
      rintro p t' _ rfl
      refine .declare p (.testNext (by simp) (fun t'' => ?_) fun _ => ?_)
      · refine (ih (count + 1) t'' _).imp ?_ ?_
        · rintro k _ _ ⟨params, rfl, rfl⟩
          refine ⟨p :: params, by rw [List.length_cons]; omega, ?_⟩
          rw [List.append_assoc, List.singleton_append]
        · rintro k _ sc' ctx _ - ⟨params, ts, hparams, hnames, rfl⟩
          refine ⟨p :: params, _, .more hparams, ?_, rfl⟩
          rw [hnames, List.append_assoc, List.singleton_append]
      · exact .pure ⟨[p], rfl, rfl⟩ fun ctx => ⟨[p], _, .one, rfl, append_empty _⟩
    | symbol sym =>
      cases sym with
      | dots =>
        refine .word (.next (by simp)) fun _ t' => .quiet (.modifyFn fun _ => ⟨rfl, rfl, rfl, rfl, rfl, rfl⟩) fun _ => ?_
        refine .pure ⟨[], rfl, ?_⟩ fun ctx => ⟨[], [.symbol .dots], .dots, (List.append_nil _).symm, append_empty _⟩
        rw [List.append_nil]
      | _ => exact .failNear
    | _ => exact .failNear

theorem parameters (t : Token) (own : List Bytes) (ls : List Nat) : Scans (fun f => (ofLevels f bound n).parameters) t
    (.plain own ls) (fun _ _ sc' => ∃ params, sc' = .plain (own ++ params) ls)
    fun _ _ sc' _ x => ∃ params ts, (params = [] ∧ ts = [] ∨ Parameters params ts) ∧ sc'.names = own ++ params ∧ x = words ts := by
  have hrest : ∀ (t : Token) (params : List Bytes) (Q : Unit → Token → Scoping → Prop)
      (P : Unit → Token → Scoping → Context → Passage → Prop), (∀ t, Q () t (.plain (own ++ params) ls)) →
      (∀ ctx, P () t (.plain (own ++ params) ls) ctx .empty) → Scans (fun _ => do
        activate params.length
        modifyFn fun d => { d with params := d.active }
        reserve (← MonadState.get).fn.active) t ⟨own ++ params, own.length, ls⟩ Q P := by
    intro t params Q P hq hp
    have hlength : own.length + params.length = (own ++ params).length := List.length_append.symm
    refine .activate _ (Nat.le_of_eq hlength) ?_
    rw [show (⟨own ++ params, own.length + params.length, ls⟩ : Scoping) = .plain (own ++ params) ls from
      congrArg (Scoping.mk _ · _) hlength]
    refine .quiet (.modifyFn fun _ => ⟨rfl, rfl, rfl, rfl, rfl, rfl⟩) fun _ => .get fun s _ => ?_
    exact .still (Quiet.reserve _) (fun _ => hq t) fun _ ctx => hp ctx
  refine .token ?_
  by_cases hend : t = .symbol .rparen
  · simp only [if_pos hend]
    have hnil : own ++ [] = own := List.append_nil own
    have := hrest t [] (fun _ _ sc' => ∃ params, sc' = .plain (own ++ params) ls)
      (fun _ _ sc' _ x => ∃ params ts, (params = [] ∧ ts = [] ∨ Parameters params ts) ∧ sc'.names = own ++ params ∧ x = words ts)
      (fun _ => ⟨[], rfl⟩) fun ctx => ⟨[], [], .inl ⟨rfl, rfl⟩, rfl, rfl⟩
    rw [hnil] at this
    exact this
  · simp only [if_neg hend, bound_ofLevels]
    refine (parametersFrom bound 0 t _).andThen ?_
    rintro k t' _ ⟨params, rfl, rfl⟩
    rw [Nat.zero_add]
    refine hrest t' params _ _ (fun _ => ⟨params, rfl⟩) ?_
    rintro ctx _ ⟨params', ts, hparams, hnames, rfl⟩
    exact ⟨params', ts, .inr hparams, hnames, append_empty _⟩

def BodyText (ctx : Context) (own : List Bytes) (x : Passage) : Prop :=
  ∃ params ts y last, (params = [] ∧ ts = [] ∨ Parameters params ts) ∧ Statements ctx (own ++ params) y last ∧
    x = words (.symbol .lparen :: (ts ++ [.symbol .rparen])) ++ (y ++ word (.keyword .end))

theorem BodyText.functionBody {ctx : Context} {ns own : List Bytes} {p : Proto} {x : Passage}
    (h : BodyText ⟨p.upvalues, ctx.scopes ns⟩ own x) (hp : x.protos = p.protos) :
    FunctionBody ctx ns own ⟨x.tokens, x.names, [p]⟩ := by
  obtain ⟨params, ts, y, last, hparams, hy, rfl⟩ := h
  simp only [protos_append, protos_words, List.nil_append, List.append_nil] at hp
  have hbody : FunctionBody ctx ns own _ := .body hparams hy hp
  simpa using hbody

def ownParameters (isMethod : Bool) : List Bytes := if isMethod then self else []

/-- The text of a function is read. -/
def readBody (f : Reader) (bound n : Nat) (isMethod : Bool) (line : Nat) : Compile Unit := do
  checkNext (.symbol .lparen)
  if isMethod then
    declare (Bytes.ofString "self")
    activate 1
  (ofLevels f bound n).parameters
  checkNext (.symbol .rparen)
  (ofLevels f bound n).statements
  let last ← Compile.line
  modifyFn fun d => { d with lastLine := last }
  checkMatch (.keyword .end) (.keyword .function) line

/-! ## 2. The beginning and the end of a function -/

theorem functionBody_eq (f : Reader) (isMethod : Bool) (line : Nat) : (ofLevels f bound n).functionBody isMethod line =
    openFunction line >>= fun _ => readBody f bound n isMethod line >>= fun _ => closeFunction := by
  unfold Grammar.functionBody readBody
  cases isMethod with
  | true => simp only [bind_assoc, if_true]
  | false => simp only [bind_assoc, Bool.false_eq_true, if_false]

variable {s s' : Compiler}

def opened (s : Compiler) (line : Nat) : Compiler :=
  { s with fn := { Draft.new line with blocks := [⟨0, 0, 0, false, false⟩] }, outer := s.fn :: s.outer }

theorem openFunction_eq (s : Compiler) (line : Nat) : openFunction line s = .ok ((), opened s line) := rfl

theorem Settled.opened (hs : Settled (s.fn :: s.outer)) (line : Nat) :
    Settled ((opened s line).fn :: (opened s line).outer) := by
  refine ⟨fun d hd => ?_, ⟨⟨List.nodup_nil, fun i u hu => ?_, fun he => ?_⟩, hs.sound⟩, fun u hu => ?_, hs.guarded⟩
  · rcases List.mem_cons.mp hd with rfl | hd
    · exact ⟨Nat.le_refl _, Nat.zero_le _, fun i hi => absurd hi (Array.not_mem_empty i), Nat.zero_le _, rfl⟩
    · exact hs.tidy d hd
  · cases hu
  · obtain ⟨-, htail⟩ := List.cons.inj he
    exact absurd htail (List.append_ne_nil_of_right_ne_nil _ (List.cons_ne_nil _ _))
  · exact absurd hu (Array.not_mem_empty u)

theorem closeBody_turns {sc : Scoping} : Turns closeBody sc fun _ sc' => sc' = sc.outside :=
  .quiet (Quiet.emitReturn _ _) fun _ => .leaveBlock

/-- **A function ends**: the one around it gets the finished function. -/
theorem closeFunction_spec {reg : Nat} (hk : s.fn.Known) (hrun : closeFunction s = .ok (reg, s')) :
    ∃ parent outer p d, s.outer = parent :: outer ∧ p.upvalues = s.fn.upvalues.toList ∧ p.protos = s.fn.protos.toList ∧
      s' = { s with fn := d, outer := outer } ∧ ({ parent with protos := parent.protos.push p } : Draft).Alike d := by
  obtain ⟨_, s2, hclose, hrun⟩ := bind_ok hrun
  obtain ⟨d, rfl, -, hu, hp, -⟩ := closeBody_turns s _ s2 rfl hk hclose
  obtain ⟨s3, _, hget, hrun⟩ := bind_ok hrun
  cases hget
  cases houter : s.outer with
  | nil =>
    simp only [houter] at hrun
    cases hrun
  | cons parent outer =>
    simp only [houter] at hrun
    obtain ⟨_, _, hset, hrun⟩ := bind_ok hrun
    cases hset
    split at hrun
    · cases hrun
    · obtain ⟨_, _, hpush, hrun⟩ := bind_ok hrun
      cases hpush
      have hquiet : Quiet (do toNextRegister (.plain (.pending (← emitABx .closure 0 parent.protos.size)))) :=
        (Quiet.emitABx _ _ _).bind fun _ => Quiet.toNextRegister _
      obtain ⟨d', rfl, hsame⟩ := hquiet _ _ _ hrun
      exact ⟨parent, outer, d.finish s.source, d', rfl, congrArg Array.toList hu, congrArg Array.toList hp, rfl, hsame⟩

namespace Nested

variable (h : Nested bound n)

include h

theorem wholeExpr : ReadsWhole (fun f => (ofLevels f bound n).expr) Expression := fun t sc => by
  refine (h.subexpr 0 t sc).andThen (k := fun r _ => Pure.pure r.1) ?_
  rintro r t' _ ⟨-, rfl⟩
  refine .pure rfl fun ctx x hx => ?_
  rwa [append_empty]

theorem expr : Reads (fun f => (ofLevels f bound n).expr) fun ctx ns x => ∃ g, Expression ctx ns g x := h.wholeExpr.reads

/-! ## 3. Lists -/

theorem exprsFrom (fuel count : Nat) (e : Expr) (t : Token) (sc : Scoping) :
    Scans (fun f => (ofLevels f bound n).exprsFrom fuel count e) t sc (fun _ _ sc' => sc' = sc) fun _ t' _ ctx y =>
      ∀ g x, Expressions ctx sc.visible g x → (g = true → t ≠ .symbol .lparen) →
        ∃ g', Expressions ctx sc.visible g' (x ++ y) ∧ (g' = true → t' ≠ .symbol .lparen) := by
  induction fuel generalizing count e t with
  | zero => exact .failNear
  | succ fuel ih =>
    refine .testNext (by simp) (fun t' => ?_) fun _ => ?_
    · refine .quiet (Quiet.toNextRegister e).discard fun _ => .readWhole h.wholeExpr fun e' t'' => ?_
      refine (ih (count + 1) e' t'').imp (fun _ _ _ h => h) fun _ _ _ ctx z _ hz g' y hy hg' g x hx _ => ?_
      have := hz g' _ (.more hx hy) hg'
      simpa only [append_assoc] using this
    · refine .pure rfl fun ctx g x hx hg => ⟨g, ?_, hg⟩
      rw [append_empty]
      exact hx

theorem wholeExprs : ReadsWhole (fun f => (ofLevels f bound n).exprs) Expressions := fun t sc => by
  refine .readWhole (k := fun e f => (ofLevels f bound n).exprsFrom (ofLevels f bound n).bound 1 e) h.wholeExpr fun e t' => ?_
  simp only [bound_ofLevels]
  exact (h.exprsFrom bound 1 e t' sc).imp (fun _ _ _ h => h) fun _ _ _ ctx y _ hy g x hx hg => hy g x (.one hx) hg

theorem exprs : Reads (fun f => (ofLevels f bound n).exprs) fun ctx ns x => ∃ g, Expressions ctx ns g x := h.wholeExprs.reads

theorem statementsFrom (fuel : Nat) : Runs fun f => (ofLevels f bound n).statementsFrom fuel := by
  induction fuel with
  | zero => exact fun t ns l ls => .failNear
  | succ fuel ih =>
    intro t ns l ls
    refine .quiet (Quiet.atBlockEnd true) fun ends => ?_
    cases ends with
    | true => exact Runs.nothing t ns l ls
    | false =>
      refine .token (Scans.runMore h.statement fun _ t' more => ?_)
      by_cases hlast : t = .keyword .return
      · simp only [hlast, if_true]
        exact Runs.nothing t' _ l ls
      · simp only [hlast, if_false]
        exact ih t' _ l ls

theorem statements : Runs fun f => (ofLevels f bound n).statements := by
  have := h.statementsFrom bound
  unfold Grammar.statements
  simpa only [bound_ofLevels] using this

/-! ## 4. Constructors -/

theorem bracketKey (sc : Scoping) : Scans (fun f => (ofLevels f bound n).bracketKey) (.symbol .lbracket) sc
    (fun _ _ sc' => sc' = sc) fun _ _ _ ctx x => ∃ g y, Expression ctx sc.visible g y ∧
      x = word (.symbol .lbracket) ++ (y ++ word (.symbol .rbracket)) := by
  refine .word (.next (by simp)) fun _ t' => .read h.expr fun e t'' => ?_
  refine .quiet (Quiet.toValue e) fun e' => .word (.checkNext (by simp)) fun _ t3 => .pure rfl ?_
  rintro ctx y ⟨g, hy⟩
  exact ⟨g, y, hy, by rw [append_empty]⟩

theorem keyedItem {t : Token} (ht : (∃ name, t = .name name) ∨ t = .symbol .lbracket) (x : Grammar.Items) (sc : Scoping) :
    Scans (fun f => (ofLevels f bound n).keyedItem x) t sc (fun _ _ sc' => sc' = sc)
      fun _ _ _ ctx x => Item ctx sc.visible x := by
  -- the value, once the key has been read
  have hvalue : ∀ (free : Nat) (key : Expr) (t' : Token) (Pre : Context → Passage → Prop),
      (∀ ctx x g y, Pre ctx x → Expression ctx sc.visible g y → Item ctx sc.visible (x ++ (word (.symbol .assign) ++ y))) →
      Scans (fun f => do
        checkNext (.symbol .assign)
        let k ← toOperand key
        let v ← toOperand (← (ofLevels f bound n).expr)
        discard <| emitABC .setTable x.table k v
        modifyFn fun d => { d with free := free }
        return { x with keyed := x.keyed + 1 }) t' sc (fun _ _ sc' => sc' = sc)
        fun _ _ _ ctx y => ∀ x, Pre ctx x → Item ctx sc.visible (x ++ y) := by
    intro free key t' Pre hpre
    refine .word (.checkNext (by simp)) fun _ t'' => .quiet (Quiet.toOperand _) fun k => .read h.expr fun e t3 => ?_
    refine .quiet (Quiet.toOperand _) fun v => .quiet (Quiet.emitABC _ _ _ _).discard fun _ => ?_
    refine .quiet (.modifyFn fun _ => ⟨rfl, rfl, rfl, rfl, rfl, rfl⟩) fun _ => .pure rfl ?_
    rintro ctx y ⟨g, hy⟩ x hx
    rw [append_empty]
    exact hpre ctx x g y hx hy
  refine .get fun s _ => .token ?_
  obtain ⟨name, rfl⟩ | rfl := ht
  · refine .read nameConstant fun key t' => hvalue _ key t' (fun _ x => ∃ name, x = word (.name name)) ?_
    rintro ctx _ g y ⟨name, rfl⟩ hy
    exact .named name hy
  · refine (h.bracketKey sc).andThen ?_
    rintro key t' _ rfl
    refine hvalue _ key t' _ ?_
    rintro ctx _ g' z ⟨g, y, hy, rfl⟩ hz
    have := Item.keyed hy hz
    simpa only [append_assoc] using this

theorem item (x : Grammar.Items) : Reads (fun f => (ofLevels f bound n).item x) Item := fun t sc => by
  have hlist : ∀ t, Scans (fun f => (ofLevels f bound n).listItem x) t sc (fun _ _ sc' => sc' = sc)
      fun _ _ _ ctx x => Item ctx sc.visible x := by
    refine fun t => .read h.expr fun e t' => .pure rfl ?_
    rintro ctx y ⟨g, hy⟩
    rw [append_empty]
    exact .value hy
  refine .token ?_
  cases t with
  | name m =>
    refine .quiet Quiet.peek fun following => ?_
    by_cases hassign : following = .symbol .assign
    · simp only [if_pos hassign]
      exact h.keyedItem (.inl ⟨m, rfl⟩) x sc
    · simp only [if_neg hassign]
      exact hlist _
  | symbol sym =>
    cases sym with
    | lbracket => exact h.keyedItem (.inr rfl) x sc
    | _ => exact hlist _
  | _ => exact hlist _

theorem itemsFrom (fuel : Nat) (x : Grammar.Items) : Reads (fun f => (ofLevels f bound n).itemsFrom fuel x) Items := by
  induction fuel generalizing x with
  | zero => exact fun t sc => .failNear
  | succ fuel ih =>
    intro t sc
    have hmore : ∀ (sym : Symbol) (hs : sym = .comma ∨ sym = .semi) (x : Grammar.Items) (t : Token),
        Scans (fun f => (ofLevels f bound n).itemsFrom fuel x) t sc (fun _ _ sc' => sc' = sc)
          fun _ _ _ ctx z => ∀ y, Item ctx sc.visible y → Items ctx sc.visible (y ++ (word (.symbol sym) ++ z)) :=
      fun sym hs x t => (ih x t sc).imp (fun _ _ _ h => h) fun _ _ _ ctx z _ hz y hy => .more hy hs hz
    refine .token ?_
    by_cases hend : t = .symbol .rbrace
    · simp only [if_pos hend]
      exact .pure rfl fun ctx => .none
    · simp only [if_neg hend]
      refine .quiet (Quiet.flushItem x) fun x => .read (h.item x) fun x t' => ?_
      refine .testNext (by simp) (hmore .comma (.inl rfl) x) fun _ => ?_
      refine .testNext (by simp) (hmore .semi (.inr rfl) x) fun _ => .pure rfl fun ctx y hy => ?_
      rw [append_empty]
      exact .one hy

theorem constructor' (t : Token) (sc : Scoping) : Scans (fun f => (ofLevels f bound n).constructor') t sc
    (fun _ _ sc' => sc' = sc) fun _ _ _ ctx x => Table ctx sc.visible x := by
  refine .quiet Quiet.line fun line => .quiet (Quiet.emitABC _ _ _ _) fun pc => .quiet (Quiet.toNextRegister _) fun table => ?_
  refine .word (.checkNext (by simp)) fun _ t' => ?_
  simp only [bound_ofLevels]
  refine .read (h.itemsFrom bound _) fun x t'' => .word (.checkMatch (.symbol .rbrace) (by simp) _ _) fun _ t3 => .quiet (Quiet.flushLast x) fun x => ?_
  refine .quiet (.modifyFn fun _ => ⟨rfl, rfl, rfl, rfl, rfl, rfl⟩) fun _ => .pure rfl fun ctx y hy => ?_
  rw [append_empty]
  exact .braces hy

/-! ## 5. Functions -/

theorem readBody_scans (isMethod : Bool) (line : Nat) (t : Token) : Scans (fun f => readBody f bound n isMethod line) t
    (.plain [] [0]) (fun _ _ _ => True) fun _ _ _ ctx x => BodyText ctx (ownParameters isMethod) x := by
  -- from the parameters on
  have hrest : ∀ own t, Scans (fun f => do
      (ofLevels f bound n).parameters
      checkNext (.symbol .rparen)
      (ofLevels f bound n).statements
      let last ← Compile.line
      modifyFn fun d => { d with lastLine := last }
      checkMatch (.keyword .end) (.keyword .function) line) t (.plain own [0]) (fun _ _ _ => True)
      fun _ _ _ ctx x => BodyText ctx own (word (.symbol .lparen) ++ x) := by
    intro own t
    refine (parameters t own [0]).andThen ?_
    rintro _ t' _ ⟨params, rfl⟩
    refine .word (.checkNext (by simp)) fun _ t'' => .run h.statements fun _ t3 more => ?_
    refine .quiet Quiet.line fun last => .quiet (.modifyFn fun _ => ⟨rfl, rfl, rfl, rfl, rfl, rfl⟩) fun _ => ?_
    refine .lastEat (.checkMatch (.keyword .end) (by simp) _ _) (fun _ _ _ _ => trivial) ?_
    rintro _ _ _ ctx rfl y hy _ ⟨params', ts, hparams, hnames, rfl⟩
    cases List.append_cancel_left hnames
    refine ⟨_, ts, y, _, hparams, hy, ?_⟩
    rw [show words (.symbol .lparen :: (ts ++ [.symbol .rparen])) = word (.symbol .lparen) ++ (words ts ++ word (.symbol .rparen)) from rfl,
      append_assoc, append_assoc]
  refine .word (.checkNext (by simp)) fun _ t' => ?_
  cases isMethod with
  | true => exact .declare _ (.activate 1 (Nat.le_refl _) (hrest self t'))
  | false => exact hrest [] t'

/-- **A function sees what is visible where it stands.** -/
theorem functionBody (isMethod : Bool) (line : Nat) : Reads (fun f => (ofLevels f bound n).functionBody isMethod line)
    fun ctx ns x => FunctionBody ctx ns (ownParameters isMethod) x := by
  intro t sc s ht hsc hs
  have hrun : ∀ f, (ofLevels f bound n).functionBody isMethod line s =
      (readBody f bound n isMethod line (opened s line) >>= fun v => closeFunction v.2) := by
    intro f
    rw [functionBody_eq]
    rfl
  simp only [hrun]
  obtain ⟨log, hasks, hans, hok⟩ := h.readBody_scans isMethod line t (opened s line) ht rfl (hs.opened line)
  refine ⟨log, hasks.followed fun v => closeFunction v.2, hans, fun reg s' hclose => ?_⟩
  obtain ⟨⟨_, s1⟩, hbody, hclose⟩ := ok_of_bind hclose
  obtain ⟨hl, -, hp⟩ := hok _ s1 hbody
  obtain ⟨parent, outer, p, d, houter, hupvalues, hprotos, rfl, hsame⟩ := closeFunction_spec hl.settled.known hclose
  -- the functions around have only been captured from
  have hcaptured : CapturedAll (s.fn :: s.outer) (parent :: outer) := houter ▸ hl.outer
  have hparent := hcaptured.head
  have hsettled : Settled (parent :: outer) := houter ▸ hl.settled.tail
  have hscoping : d.scoping = sc := hsame.scoping.trans (hparent.scoping.trans hsc)
  have hdprotos : d.protos.toList = s.fn.protos.toList ++ [p] := by
    rw [hsame.protos, Array.toList_push, hparent.protos]
  have hdsettled : Settled (d :: outer) := hsettled.turn (hsame.known hsettled.known)
    (hsame.scoping ▸ hsettled.scoping_tidy) hsame.upvalues
  refine ⟨⟨hdsettled, hcaptured.tail, ?_⟩, hscoping, fun ctx hfits => ?_⟩
  · rw [hsame.upvalues]
    exact hparent.upvalues
  -- the function inside, as it is when it is finished
  have hvisible : sc.visible = parent.scope.names := congrArg Scoping.visible (hsc.symm.trans hparent.scoping.symm)
  have haround : Grown (scopes s1.outer) (ctx.scopes sc.visible) := by
    rw [houter]
    refine .cons ⟨hvisible, ?_⟩ hfits.around
    have hupvalues : parent.upvalues.toList <+: ctx.upvalues := hsame.upvalues ▸ hfits.upvalues
    exact hupvalues
  have hinner : (Context.mk p.upvalues (ctx.scopes sc.visible)).Fits s1 := by
    refine ⟨hfits.ends, hupvalues ▸ List.prefix_refl _, haround, ?_, Context.sound_scopes hfits.sound _⟩
    exact (hl.settled.sound.1.grown haround).congr hupvalues
  obtain ⟨x, hx, htext⟩ := hp _ hinner
  refine ⟨⟨x.tokens, x.names, [p]⟩, ⟨hx.tokens, hdprotos, hx.names⟩, htext.functionBody (hprotos.trans hx.protos).symm⟩

/-! ## 6. Calls -/

theorem arguments (line : Nat) (t : Token) (sc : Scoping) : Scans (fun f => (ofLevels f bound n).arguments line) t sc
    (fun _ _ sc' => sc' = sc) fun _ _ _ ctx x => Arguments ctx sc.visible x := by
  refine .token ?_
  cases t with
  | symbol sym =>
    cases sym with
    | lparen =>
      refine .word (.next (by simp)) fun _ t' => .token ?_
      by_cases hnone : t' = .symbol .rparen
      · simp only [if_pos hnone]
        refine .quiet (.pure _) fun args => .word (.checkMatch (.symbol .rparen) (by simp) _ _) fun _ t'' => .pure rfl fun ctx => ?_
        rw [append_empty]
        exact .none
      · simp only [if_neg hnone]
        refine .read h.exprs fun r t'' => .quiet (Quiet.setReturns _ _) fun _ => .quiet (.pure _) fun args => ?_
        refine .word (.checkMatch (.symbol .rparen) (by simp) _ _) fun _ t3 => .pure rfl ?_
        rintro ctx x ⟨g, hx⟩
        rw [append_empty]
        exact .list hx
    | lbrace => exact (h.constructor' _ sc).imp (fun _ _ _ h => h) fun _ _ _ _ _ _ hx => .table hx
    | _ => exact .failNear
  | str v =>
    refine .quiet (Quiet.addConstant _) fun k => .word (.next (by simp)) fun _ t' => .pure rfl fun ctx => ?_
    rw [append_empty]
    exact .string v
  | _ => exact .failNear

theorem call (base line : Nat) : Reads (fun f => (ofLevels f bound n).call base line) Arguments := fun t sc => by
  -- the code for the call is written after its arguments
  have hemit : ∀ count : Option Nat, Quiet (do
      let pc ← emitABC .call base (Operand.ofCount count) 2
      fixLine line
      modifyFn fun d => { d with free := base + 1 }
      return (.plain (.call pc) : Expr)) := fun count =>
    (Quiet.emitABC _ _ _ _).bind fun _ => (Quiet.fixLine _).bind fun _ =>
      Quiet.modifyThen (fun _ => ⟨rfl, rfl, rfl, rfl, rfl, rfl⟩) <| .pure _
  refine (h.arguments line t sc).andThen ?_
  rintro args t' _ rfl
  refine .still ?_ (fun _ => rfl) fun _ ctx x hx => by rwa [append_empty]
  dsimp only
  split
  · exact hemit none
  · have hcount : Quiet (do
        demand .arguments fun d => base + 1 ≤ d.free
        let s ← MonadState.get
        let pc ← emitABC .call base (Operand.ofCount (some (s.fn.free - (base + 1)))) 2
        fixLine line
        modifyFn fun d => { d with free := base + 1 }
        return (.plain (.call pc) : Expr)) := Quiet.demand.bind fun _ => .get fun _ => hemit _
    split
    · exact (Quiet.toNextRegister _).discard.bind fun _ => hcount
    · exact hcount

/-! ## 7. Expressions -/

theorem primary : Reads (fun f => (ofLevels f bound n).primary) Suffixed := fun t sc => by
  refine .token ?_
  cases t with
  | name m =>
    refine .eat .checkName ?_
    rintro p t' _ rfl
    simp only [name_ofLevels]
    refine (Scans.named p).imp (fun _ _ _ h => h.2) ?_
    rintro _ _ _ ctx _ - rfl
    exact .name p
  | symbol sym =>
    cases sym with
    | lparen =>
      refine .quiet Quiet.line fun line => .word (.next (by simp)) fun _ t' => .read h.expr fun e t'' => ?_
      refine .word (.checkMatch (.symbol .rparen) (by simp) _ _) fun _ t3 => .still (Quiet.readVariable e) (fun _ => rfl) ?_
      rintro _ ctx x ⟨g, hx⟩
      rw [append_empty]
      exact .parens hx
    | _ => exact .failNear
  | _ => exact .failNear

theorem suffixesFrom (line fuel : Nat) (e : Expr) (t : Token) (sc : Scoping) :
    Scans (fun f => (ofLevels f bound n).suffixesFrom line fuel e) t sc (fun _ _ sc' => sc' = sc) fun _ t' _ ctx y =>
      (∀ x, Suffixed ctx sc.visible x → Suffixed ctx sc.visible (x ++ y)) ∧ t' ≠ .symbol .lparen := by
  induction fuel generalizing e t with
  | zero => exact .failNear
  | succ fuel ih =>
    -- what follows a suffix
    have hmore : ∀ (e : Expr) (t : Token) (R : Context → Passage → Prop), (∀ ctx x y, Suffixed ctx sc.visible x → R ctx y →
          Suffixed ctx sc.visible (x ++ y)) → Scans (fun f => (ofLevels f bound n).suffixesFrom line fuel e) t sc
        (fun _ _ sc' => sc' = sc) fun _ t' _ ctx z => ∀ y, R ctx y → (∀ x, Suffixed ctx sc.visible x →
          Suffixed ctx sc.visible (x ++ (y ++ z))) ∧ t' ≠ .symbol .lparen := fun e t R hR => by
      refine (ih e t).imp (fun _ _ _ h => h) fun _ _ _ ctx z _ hz y hy => ⟨fun x hx => ?_, hz.2⟩
      have := hz.1 _ (hR ctx x y hx hy)
      rwa [append_assoc] at this
    have hcall : ∀ t, Scans (fun f => do
        let base ← toNextRegister e
        (ofLevels f bound n).suffixesFrom line fuel (← (ofLevels f bound n).call base line)) t sc (fun _ _ sc' => sc' = sc)
        fun _ t' _ ctx y => (∀ x, Suffixed ctx sc.visible x → Suffixed ctx sc.visible (x ++ y)) ∧ t' ≠ .symbol .lparen :=
      fun t => .quiet (Quiet.toNextRegister e) fun base => .read (h.call base line) fun e t' =>
        hmore e t' _ fun _ _ _ hx hy => .call hx hy
    have hstop : ∀ {t}, t ≠ .symbol .lparen → Scans (fun _ => Pure.pure e) t sc (fun _ _ sc' => sc' = sc)
        fun _ t' _ ctx y => (∀ x, Suffixed ctx sc.visible x → Suffixed ctx sc.visible (x ++ y)) ∧ t' ≠ .symbol .lparen := by
      refine fun ht => .pure rfl fun ctx => ⟨fun x hx => ?_, ht⟩
      rwa [append_empty]
    refine .token ?_
    cases t with
    | symbol sym =>
      cases sym with
      | dot =>
        refine (field (t := .symbol .dot) (by simp) e sc).andThen ?_
        rintro e t' _ rfl
        refine hmore e t' _ ?_
        rintro ctx x _ hx ⟨name, rfl⟩
        exact .field hx name
      | lbracket =>
        refine .quiet (Quiet.toRegisterOrUpvalue e) fun table => (h.bracketKey sc).andThen ?_
        rintro key t' _ rfl
        refine .quiet (Quiet.indexed _ _) fun e => hmore e t' _ ?_
        rintro ctx x _ hx ⟨g, y, hy, rfl⟩
        exact .key hx hy
      | colon =>
        refine .word (.next (by simp)) fun _ t' => .read nameConstant fun key t'' => .quiet (Quiet.method _ _) fun g => ?_
        refine .read (h.call _ line) fun e t3 => (ih e t3).imp (fun _ _ _ h => h) ?_
        rintro _ _ _ ctx z - ⟨hz, hend⟩ y hy _ ⟨name, rfl⟩
        refine ⟨fun x hx => ?_, hend⟩
        have := hz _ (.method hx name hy)
        simpa only [append_assoc] using this
      | lparen | lbrace => exact hcall _
      | _ => exact hstop (by simp)
    | str v => exact hcall _
    | _ => exact hstop (by simp)

theorem wholeSuffixed (t : Token) (sc : Scoping) : Scans (fun f => (ofLevels f bound n).suffixed) t sc (fun _ _ sc' => sc' = sc)
    fun _ t' _ ctx x => Suffixed ctx sc.visible x ∧ t' ≠ .symbol .lparen := by
  refine .quiet Quiet.line fun line => .read h.primary fun e t' => ?_
  simp only [bound_ofLevels]
  exact (h.suffixesFrom line bound e t' sc).imp (fun _ _ _ h => h) fun _ _ _ ctx y _ hy x hx => ⟨hy.1 x hx, hy.2⟩

theorem suffixed : Reads (fun f => (ofLevels f bound n).suffixed) Suffixed := fun t sc =>
  (h.wholeSuffixed t sc).imp (fun _ _ _ h => h) fun _ _ _ _ _ _ hx => hx.1

theorem simple : ReadsWhole (fun f => (ofLevels f bound n).simple) Expression := fun t sc => by
  have hliteral : ∀ {t : Token} (p : Place), t.isLiteral = true → Scans (fun _ => Grammar.simple.literal p) t sc
      (fun _ _ sc' => sc' = sc) fun _ t' _ ctx x => ∃ g, Expression ctx sc.visible g x ∧ (g = true → t' ≠ .symbol .lparen) := by
    intro t p ht
    refine .word (.next ?_) fun _ t' => .pure rfl fun ctx => ⟨false, ?_, by simp⟩
    · rintro rfl
      cases ht
    · rw [append_empty]
      exact .literal ht
  have hsuffixed : ∀ t, Scans (fun f => (ofLevels f bound n).suffixed) t sc (fun _ _ sc' => sc' = sc)
      fun _ t' _ ctx x => ∃ g, Expression ctx sc.visible g x ∧ (g = true → t' ≠ .symbol .lparen) := fun t =>
    (h.wholeSuffixed t sc).imp (fun _ _ _ h => h) fun _ _ _ _ _ _ hx => ⟨true, .suffixed hx.1, fun _ => hx.2⟩
  refine .token ?_
  cases t with
  | float d => exact hliteral _ rfl
  | int i => exact hliteral _ rfl
  | str v => exact .quiet (Quiet.addConstant _) fun k => hliteral _ rfl
  | keyword k =>
    cases k with
    | nil | true | false => exact hliteral _ rfl
    | function =>
      refine .word (.next (by simp)) fun _ t' => .quiet Quiet.line fun line => .read (h.functionBody false line) fun reg t'' => ?_
      refine .pure rfl fun ctx x hx => ⟨false, ?_, by simp⟩
      rw [append_empty]
      exact .function hx
    | _ => exact hsuffixed _
  | symbol sym =>
    cases sym with
    | dots =>
      refine .get fun s _ => ?_
      by_cases hvararg : s.fn.isVararg = true
      · simp only [if_pos hvararg]
        exact .quiet (Quiet.emitABC _ _ _ _) fun pc => hliteral _ rfl
      · simp only [if_neg hvararg]
        exact .failNear
    | lbrace => exact (h.constructor' _ sc).imp (fun _ _ _ h => h) fun _ _ _ _ _ _ hx => ⟨false, .table hx, by simp⟩
    | _ => exact hsuffixed _
  | _ => exact hsuffixed _

theorem operatorsFrom (limit fuel : Nat) (e : Expr) (op : Option BinOp) (t : Token) (sc : Scoping)
    (hop : op = BinOp.ofToken? t) : Scans (fun f => (ofLevels f bound n).operatorsFrom limit fuel e op) t sc
      (fun r t' sc' => r.2 = BinOp.ofToken? t' ∧ sc' = sc) fun _ t' _ ctx y =>
        ∀ g x, Expression ctx sc.visible g x → (g = true → t ≠ .symbol .lparen) →
          ∃ g', Expression ctx sc.visible g' (x ++ y) ∧ (g' = true → t' ≠ .symbol .lparen) := by
  have hstop : ∀ {e : Expr} {op : Option BinOp} {t : Token}, op = BinOp.ofToken? t → Scans (fun _ => Pure.pure (e, op)) t sc
      (fun r t' sc' => r.2 = BinOp.ofToken? t' ∧ sc' = sc) fun _ t' _ ctx y =>
        ∀ g x, Expression ctx sc.visible g x → (g = true → t ≠ .symbol .lparen) →
          ∃ g', Expression ctx sc.visible g' (x ++ y) ∧ (g' = true → t' ≠ .symbol .lparen) := by
    refine fun hop => .pure ⟨hop, rfl⟩ fun ctx g x hx hg => ⟨g, ?_, hg⟩
    rwa [append_empty]
  induction fuel generalizing e op t with
  | zero => exact .failNear
  | succ fuel ih =>
    cases op with
    | none => exact hstop hop
    | some op =>
      by_cases hlimit : op.priority.1 ≤ limit
      · simp only [Grammar.operatorsFrom, if_pos hlimit]
        exact hstop hop
      · simp only [Grammar.operatorsFrom, if_neg hlimit]
        have ht : t ≠ .eof := by
          rintro rfl
          cases hop
        refine .quiet Quiet.line fun line => .word (.next ht) fun _ t' => .quiet (Quiet.beforeRight op e) fun e1 => ?_
        refine (h.subexpr op.priority.2 t' sc).andThen ?_
        rintro ⟨e2, following⟩ t'' _ ⟨hfollowing, rfl⟩
        refine .quiet (Quiet.afterRight op e1 e2 line) fun e => (ih e following t'' hfollowing).imp (fun _ _ _ h => h) ?_
        rintro _ _ _ ctx z - hz y ⟨g', hy, hg'⟩ g x hx -
        have := hz g' _ (.binary hx hop.symm hy) hg'
        simpa only [append_assoc] using this

/-- **An expression**, for a given way to read what is nested in it. -/
theorem expressionBody (limit : Nat) : ReadsOperand fun f => (ofLevels f bound n).expressionBody limit := fun t sc => by
  have hrest : ∀ e t, Scans (fun f => do
      (ofLevels f bound n).operatorsFrom limit (ofLevels f bound n).bound e (BinOp.ofToken? (← token))) t sc
      (fun r t' sc' => r.2 = BinOp.ofToken? t' ∧ sc' = sc) fun _ t' _ ctx y =>
        ∀ g x, Expression ctx sc.visible g x → (g = true → t ≠ .symbol .lparen) →
          ∃ g', Expression ctx sc.visible g' (x ++ y) ∧ (g' = true → t' ≠ .symbol .lparen) := by
    intro e t
    simp only [bound_ofLevels]
    exact .token (h.operatorsFrom limit bound e _ t sc rfl)
  refine .token ?_
  cases hop : UnOp.ofToken? t with
  | none => exact .readWhole h.simple fun e t' => hrest e t'
  | some op =>
    have ht : t ≠ .eof := by
      rintro rfl
      cases hop
    refine .quiet Quiet.line fun line => .word (.next ht) fun _ t' => (h.subexpr UnOp.priority t' sc).andThen ?_
    rintro ⟨e, following⟩ t'' _ ⟨-, rfl⟩
    refine .quiet (Quiet.unary op e line) fun e => (hrest e t'').imp (fun _ _ _ h => h) ?_
    rintro _ _ _ ctx z - hz y ⟨g, hy, hg⟩
    have := hz g _ (.unary hop hy) hg
    simpa only [append_assoc] using this

end Nested

end LuaMachine.Lexical
