/-
  A FORMULA IS READ AS IT IS WRITTEN. Whatever follows its tokens, an operator that binds no more tightly, a
  closing parenthesis or the end, the code that is written for them computes the value of the formula.

  * **`Formula.parses`** -- by induction on the formula.
-/
import LuaMachine.Compiler.Statement
import LuaMachine.Proofs.Meaning.Computes

namespace LuaMachine

def Compiler.tokens (s : Compiler) : List Token := s.current.token :: s.ahead.map (·.token)

/-! ## 1. Steps that take tokens -/

namespace Compile

variable {α β : Type}

/-- From these tokens and this innermost draft the step fails, or leads to an answer, tokens and an
    innermost draft with `Q`. -/
def Takes (x : Compile α) (ts : List Token) (d : Draft) (Q : α → List Token → Draft → Prop) : Prop :=
  ∀ s a s', s.tokens = ts → s.fn = d → x s = .ok (a, s') → Q a s'.tokens s'.fn

namespace Takes

variable {x : Compile α} {f : α → Compile β} {ts rest : List Token} {t : Token} {d : Draft}

theorem bind {Q : β → List Token → Draft → Prop} (h : Takes x ts d fun a ts' d' => Takes (f a) ts' d' Q) :
    Takes (x >>= f) ts d Q := by
  intro s b s' hs hd h'
  obtain ⟨a, s1, hx, hf⟩ := bind_ok h'
  exact h s a s1 hs hd hx s1 b s' rfl rfl hf

theorem imp {Q Q' : α → List Token → Draft → Prop} (h : Takes x ts d Q)
    (hQ : ∀ a ts' d', Q a ts' d' → Q' a ts' d') : Takes x ts d Q' :=
  fun s a s' hs hd h' => hQ _ _ _ (h s a s' hs hd h')

theorem andThen {P : α → List Token → Draft → Prop} {Q : β → List Token → Draft → Prop} (h : Takes x ts d P)
    (hf : ∀ a ts' d', P a ts' d' → Takes (f a) ts' d' Q) : Takes (x >>= f) ts d Q :=
  (h.imp hf).bind

theorem pure {Q : α → List Token → Draft → Prop} {a : α} (h : Q a ts d) : Takes (Pure.pure a) ts d Q := by
  intro s b s' hs hd h'
  obtain ⟨rfl, rfl⟩ := pure_ok h'
  rw [hs, hd]
  exact h

theorem failNear {Q : α → List Token → Draft → Prop} {e : CompileFault} : Takes (failNear e) ts d Q := by
  intro s b s' _ _ h'
  exact nomatch h'

theorem ofWrites {P : α → Draft → Prop} {Q : α → List Token → Draft → Prop} (h : Writes x d P)
    (hq : ∀ a d', P a d' → Q a ts d') : Takes x ts d Q := by
  intro s a s' hs hd h'
  obtain ⟨hs', hp⟩ := h s a s' hd h'
  have htokens : s'.tokens = ts := by
    rw [hs']
    exact hs
  rw [htokens]
  exact hq a s'.fn hp

theorem write {P : α → Draft → Prop} {Q : β → List Token → Draft → Prop} (h : Writes x d P)
    (hf : ∀ a d', P a d' → Takes (f a) ts d' Q) : Takes (x >>= f) ts d Q :=
  bind (ofWrites h hf)

theorem get {f : Compiler → Compile β} {Q : β → List Token → Draft → Prop}
    (h : ∀ s, s.tokens = ts → s.fn = d → Takes (f s) ts d Q) : Takes (MonadState.get >>= f) ts d Q :=
  fun s b s' hs hd h' => h s hs hd s b s' hs hd h'

theorem set {s : Compiler} {Q : PUnit → List Token → Draft → Prop} (h : Q ⟨⟩ s.tokens s.fn) :
    Takes (MonadStateOf.set s) ts d Q := by
  intro _ b s' _ _ h'
  cases h'
  exact h

theorem token {f : Token → Compile β} {Q : β → List Token → Draft → Prop}
    (h : Takes (f t) (t :: rest) d Q) : Takes (Compile.token >>= f) (t :: rest) d Q := by
  refine bind (get fun s hs _ => pure ?_)
  have : s.current.token = t := (List.cons.inj hs).1
  rw [this]
  exact h

theorem line {f : Nat → Compile β} {Q : β → List Token → Draft → Prop} (h : ∀ n, Takes (f n) ts d Q) :
    Takes (Compile.line >>= f) ts d Q :=
  bind (get fun _ _ _ => pure (h _))

theorem next {f : Unit → Compile β} {Q : β → List Token → Draft → Prop} (hne : rest ≠ [])
    (h : Takes (f ()) rest d Q) : Takes (Compile.next >>= f) (t :: rest) d Q := by
  intro s b s' hs hd h'
  obtain ⟨_, s1, hx, hb⟩ := bind_ok h'
  have hrest : s.ahead.map (·.token) = rest := (List.cons.inj hs).2
  unfold Compile.next at hx
  obtain ⟨_, s2, hget, hx⟩ := bind_ok hx
  cases hget
  cases ha : s.ahead with
  | nil =>
    rw [ha] at hrest
    exact absurd hrest.symm hne
  | cons y more =>
    simp only [ha] at hx
    cases hx
    rw [ha] at hrest
    refine h _ b s' ?_ ?_ hb
    · exact hrest
    · exact hd

theorem checkName {y : Bytes} {f : Bytes → Compile β} {Q : β → List Token → Draft → Prop} (hne : rest ≠ [])
    (h : Takes (f y) rest d Q) : Takes (Compile.checkName >>= f) (.name y :: rest) d Q := by
  refine bind (token ?_)
  exact next hne (pure h)

theorem testNext_pass {f : Bool → Compile β} {Q : β → List Token → Draft → Prop} (hne : rest ≠ [])
    (h : Takes (f true) rest d Q) : Takes (Compile.testNext t >>= f) (t :: rest) d Q := by
  refine bind (token ?_)
  rw [if_pos rfl]
  exact next hne (pure h)

theorem testNext_stays {t' : Token} {Q : Bool → List Token → Draft → Prop} (hne : t ≠ t')
    (h : Q false (t :: rest) d) : Takes (Compile.testNext t') (t :: rest) d Q := by
  refine token ?_
  rw [if_neg hne]
  exact pure h

theorem testNext_stay {t' : Token} {f : Bool → Compile β} {Q : β → List Token → Draft → Prop} (hne : t ≠ t')
    (h : Takes (f false) (t :: rest) d Q) : Takes (Compile.testNext t' >>= f) (t :: rest) d Q :=
  bind (testNext_stays hne h)

theorem discard {Q : Unit → List Token → Draft → Prop} (h : Takes x ts d fun _ ts' d' => Q () ts' d') :
    Takes (Functor.discard x) ts d Q := by
  intro s b s' hs hd h'
  obtain ⟨a, hx, -⟩ := map_ok h'
  exact h s a s' hs hd hx

theorem checkMatch {opener : Token} {n : Nat} {f : Unit → Compile β} {Q : β → List Token → Draft → Prop}
    (hne : rest ≠ []) (h : Takes (f ()) rest d Q) :
    Takes (Compile.checkMatch t opener n >>= f) (t :: rest) d Q :=
  bind (testNext_pass hne (pure h))

end Takes

end Compile

/-! ## 2. What may follow, and what is in scope -/

def Token.isSuffix : Token → Bool
  | .symbol .dot | .symbol .lbracket | .symbol .colon | .symbol .lparen | .symbol .lbrace | .str _ => true
  | _ => false

/-- A token that may follow a formula: one that nothing goes on with, or an operator that binds no more
    tightly. -/
def Token.Ends (level : Nat) (t : Token) : Prop :=
  match BinOp.ofToken? t with
  | some op => op.priority.1 ≤ level
  | none => t.isSuffix = false

theorem Token.Ends.mono {level level' : Nat} {t : Token} (h : t.Ends level) (hl : level ≤ level') :
    t.Ends level' := by
  unfold Ends at h ⊢
  cases hop : BinOp.ofToken? t with
  | none =>
    rw [hop] at h
    exact h
  | some op =>
    rw [hop] at h
    exact Nat.le_trans h hl

structure Draft.Knows (names : List Bytes) (d : Draft) : Prop where
  active : d.active = names.length
  slot : ∀ x, d.findLocal? x = Scope.slot? x names

theorem Draft.Knows.moves {names : List Bytes} {list : List Nat} {d d' : Draft} (h : d.Knows names)
    (hm : d.Moves list d') : d'.Knows names := by
  have hname : ∀ r, d'.localName r = d.localName r := by
    intro r
    simp only [localName, hm.declared, hm.locals]
  have hfind : ∀ x n, d'.findBelow x n = d.findBelow x n := by
    intro x n
    induction n with
    | zero => rfl
    | succ n ih => simp only [findBelow, hname, ih]
  refine ⟨hm.active.trans h.active, fun x => ?_⟩
  rw [← h.slot x, findLocal?, findLocal?, hfind, hm.active]

def Formula.meaning (names : List Bytes) (e : Formula) : Meaning := fun vals =>
  e.eval fun x =>
    match Scope.slot? x names with
    | some i => vals i
    | none => .nil

theorem Formula.meaning_of_registers {names : List Bytes} {e : Formula} {args : List Value} {regs : Nat → Value}
    (h : ∀ r < names.length, regs r = args[r]?.getD .nil) :
    e.meaning names regs = e.eval (Scope.value names args) := by
  unfold Formula.meaning
  congr 1
  funext x
  unfold Scope.value
  cases hx : Scope.slot? x names with
  | none => rfl
  | some i => exact h i (Scope.slot?_lt hx)

namespace Formula

open Compile

/-- Reading a formula leads to going on behind it, with code for its value. -/
def Parses (names : List Bytes) (e : Formula) : Prop :=
  ∀ (bound n limit : Nat) (t : Token) (more : List Token) (d : Draft) (list : List Nat)
    (Q : Expr × Option BinOp → List Token → Draft → Prop),
    d.Begins list → d.Knows names → (limit < e.level ∨ UnOp.priority ≤ e.level) → t.Ends e.level →
    (∀ e' d' m, Computes list d (e.meaning names) e' d' →
      Takes ((Grammar.ofLevels Compile.named bound n).operatorsFrom limit m e' (BinOp.ofToken? t)) (t :: more) d' Q) →
    Takes ((Grammar.ofLevels Compile.named bound n).expressionBody limit) (e.tokens ++ t :: more) d Q

variable {names : List Bytes} {bound n limit m : Nat} {t : Token} {more : List Token} {d : Draft} {list : List Nat}
  {e : Formula} {e' : Expr}

theorem operators_stop {g : Grammar} {Q : Expr × Option BinOp → List Token → Draft → Prop}
    (ht : t.Ends limit) (hq : Q (e', BinOp.ofToken? t) (t :: more) d) :
    Takes (g.operatorsFrom limit m e' (BinOp.ofToken? t)) (t :: more) d Q := by
  unfold Token.Ends at ht
  cases m with
  | zero => exact Takes.failNear
  | succ m =>
    cases hop : BinOp.ofToken? t with
    | none =>
      rw [hop] at hq
      exact Takes.pure hq
    | some op =>
      rw [hop] at ht hq
      unfold Grammar.operatorsFrom
      rw [if_pos ht]
      exact Takes.pure hq

theorem Parses.operand (h : e.Parses names) (hd : d.Begins list) (hk : d.Knows names)
    (hlimit : limit < e.level ∨ UnOp.priority ≤ e.level) (ht : t.Ends limit) (ht' : t.Ends e.level) :
    Takes ((Grammar.ofLevels Compile.named bound n).subexpr limit) (e.tokens ++ t :: more) d fun a ts d' =>
      a.2 = BinOp.ofToken? t ∧ ts = t :: more ∧ Computes list d (e.meaning names) a.1 d' := by
  cases n with
  | zero => exact Takes.failNear
  | succ n =>
    refine h bound n limit t more d list _ hd hk hlimit ht' fun e' d' m hc => ?_
    exact operators_stop ht ⟨rfl, rfl, hc⟩

theorem parses_simple {first : Token} {others : List Token} (hfirst : e.tokens = first :: others)
    (hun : UnOp.ofToken? first = none)
    (h : ∀ (bound n : Nat) (t : Token) (more : List Token) (d : Draft) (list : List Nat), d.Begins list →
      d.Knows names → t.Ends e.level →
      Takes (Grammar.ofLevels Compile.named bound n).simple (e.tokens ++ t :: more) d fun e' ts d' =>
        ts = t :: more ∧ Computes list d (e.meaning names) e' d') : e.Parses names := by
  intro bound n limit t more d list Q hd hk _ ht hgo
  have hs := h bound n t more d list hd hk ht
  rw [hfirst, List.cons_append] at hs ⊢
  refine Takes.token ?_
  rw [hun]
  refine hs.andThen fun e' ts d' ⟨hts, hc⟩ => ?_
  subst hts
  exact Takes.token (hgo e' d' _ hc)

/-! ## 3. Variables, literals and parentheses -/

theorem slot_meaning {x : Bytes} {i : Nat} (h : Scope.slot? x names = some i) :
    (var x).meaning names = fun vals => .ok (vals i) := by
  funext vals
  simp only [meaning, eval, h]

theorem suffixes_stop {g : Grammar} {line : Nat} {level : Nat} {Q : Expr → List Token → Draft → Prop}
    (ht : t.Ends level) (hq : Q e' (t :: more) d) :
    Takes (g.suffixesFrom line m e') (t :: more) d Q := by
  cases m with
  | zero => exact Takes.failNear
  | succ m =>
    refine Takes.token ?_
    unfold Token.Ends at ht
    split <;> try simp [BinOp.ofToken?, Token.isSuffix] at ht
    exact Takes.pure hq

theorem named_local {x : Bytes} {i : Nat} {Q : Expr → List Token → Draft → Prop} {ts : List Token}
    (hi : d.findLocal? x = some i) (hq : Q (.plain (.localVar i)) ts d) : Takes (named x) ts d Q := by
  refine Takes.bind (Takes.get fun s hs hd => ?_)
  have hres : resolve x true (s.fn :: s.outer) = .ok (some (.register i, s.fn :: s.outer)) := by
    rw [resolve, hd, hi]
    rfl
  rw [hres]
  refine Takes.bind (Takes.set (Takes.pure ?_))
  refine Takes.pure ?_
  rw [← hs, ← hd] at hq
  exact hq

theorem name_ofLevels (name : Bytes → Compile Expr) (bound n : Nat) : (Grammar.ofLevels name bound n).name = name := by
  cases n with
  | zero => rfl
  | succ n => rfl

/-- **The name of a local is read.** -/
theorem suffixed_local {g : Grammar} {x : Bytes} {i : Nat} {level : Nat} {Q : Expr → List Token → Draft → Prop}
    (hg : g.name = Compile.named) (hi : d.findLocal? x = some i) (ht : t.Ends level) (hq : Q (.plain (.localVar i)) (t :: more) d) :
    Takes g.suffixed (.name x :: t :: more) d Q := by
  refine Takes.line fun line => ?_
  refine Takes.bind (Takes.token (Takes.checkName (by simp) ?_))
  rw [hg]
  exact named_local hi (suffixes_stop ht hq)

def Reads (names : List Bytes) (e : Formula) : Prop :=
  ∃ first g, e.tokens = [first] ∧ UnOp.ofToken? first = none ∧ e.meaning names = (fun vals => .ok (g vals)) ∧
    ∀ (bound n level : Nat) (t : Token) (more : List Token) (d : Draft), d.Roomy → d.Knows names → t.Ends level →
      Takes (Grammar.ofLevels Compile.named bound n).simple (first :: t :: more) d fun e' ts d' => ts = t :: more ∧ Denoted d g e' d'

theorem reads_var {x : Bytes} (hx : x ∈ names) : (var x).Reads names := by
  obtain ⟨i, hi⟩ := Scope.slot?_of_mem hx
  refine ⟨_, _, rfl, rfl, slot_meaning hi, fun bound n level t more d hr hk ht => Takes.token ?_⟩
  have hlt : i < d.active := by
    rw [hk.active]
    exact Scope.slot?_lt hi
  exact suffixed_local (name_ofLevels ..) ((hk.slot x).trans hi) ht ⟨rfl, ⟨_, rfl, .localVar hlt, nofun⟩, rfl, fun _ _ => id, hr.constants⟩

theorem literal_takes {q : Place} {ts : List Token} {Q : Expr → List Token → Draft → Prop} (hne : ts ≠ [])
    (hq : Q (.plain q) ts d) : Takes (Grammar.simple.literal q) (t :: ts) d Q :=
  Takes.next hne (Takes.pure hq)

theorem reads_lit (c : Constant) : (lit c).Reads names := by
  have hun : UnOp.ofToken? c.token = none := by
    cases c with
    | bool b => cases b <;> rfl
    | _ => rfl
  refine ⟨_, _, rfl, hun, rfl, fun bound n level t more d hr hk ht => Takes.token ?_⟩
  -- a literal that is not entered in the pool
  have hplain : ∀ q : Place, q.Denotes d (fun _ => .ofConstant c) →
      Takes (Grammar.simple.literal q) (c.token :: t :: more) d fun e' ts d' =>
        ts = t :: more ∧ Denoted d (fun _ => .ofConstant c) e' d' := fun q hq =>
    literal_takes (by simp) ⟨rfl, ⟨q, rfl, hq, fun _ => rfl⟩, rfl, fun _ _ => id, hr.constants⟩
  cases c with
  | nil => exact hplain _ .nil
  | bool b =>
    cases b with
    | true => exact hplain _ (.bool true)
    | false => exact hplain _ (.bool false)
  | int i => exact hplain _ (.int i)
  | float x => exact hplain _ (.float x)
  | str b =>
    refine Takes.write (Writes.addConstant_finds (.str b) hr) fun k d1 ⟨ks, hd1, hk, hpre, hsize⟩ => ?_
    subst hd1
    exact literal_takes (by simp) ⟨rfl, ⟨_, rfl, .str hk, nofun⟩, rfl, hpre, hsize⟩

theorem Reads.parses (h : e.Reads names) : e.Parses names := by
  obtain ⟨first, g, htokens, hun, hval, htakes⟩ := h
  refine parses_simple htokens hun fun bound n t more d list hd hk ht => ?_
  rw [htokens, hval]
  exact (htakes bound n e.level t more d hd.roomy hk ht).imp fun e' ts d' ⟨hts, hden⟩ => ⟨hts, .of_denoted hden hd⟩

theorem level_pos (e : Formula) : 0 < e.level := by
  cases e <;> simp [level, UnOp.priority]

theorem parses_paren (h : e.Parses names) : (paren e).Parses names := by
  refine parses_simple rfl rfl fun bound n t more d list hd hk ht => ?_
  have htokens : (paren e).tokens ++ t :: more =
      .symbol .lparen :: (e.tokens ++ .symbol .rparen :: t :: more) := by simp [tokens]
  rw [htokens]
  refine Takes.token ?_
  refine Takes.line fun line => ?_
  refine Takes.bind (Takes.token ?_)
  refine Takes.line fun line' => Takes.next (by simp) ?_
  refine Takes.bind ?_
  have hends : ∀ level, (Token.symbol .rparen).Ends level := fun _ => rfl
  refine (h.operand hd hk (.inl (level_pos e)) (hends _) (hends _)).andThen fun a ts d1 ⟨_, hts, hc⟩ => ?_
  subst hts
  refine Takes.pure (Takes.checkMatch (by simp) ?_)
  refine Takes.ofWrites (Writes.readVariable_reads hc.sits.place) fun e1 d2 ⟨he1, hd2⟩ => ?_
  subst hd2 he1
  exact suffixes_stop ht ⟨rfl, hc.read⟩

/-! ## 4. Operators -/

theorem meaning_not : (not e).meaning names = fun vals => (e.meaning names vals).map Value.opposite := by
  funext vals
  show (do let v ← e.meaning names vals; return Value.bool v.isFalsy) = _
  cases e.meaning names vals <;> rfl

theorem parses_not (h : e.Parses names) (hl : UnOp.priority ≤ e.level) : (not e).Parses names := by
  intro bound n limit t more d list Q hd hk _ ht hgo
  refine Takes.token ?_
  dsimp only [UnOp.ofToken?]
  refine Takes.line fun line => Takes.next (by simp) ?_
  refine (h.operand hd hk (.inr hl) ht (ht.mono hl)).andThen ?_
  rintro a ts d1 ⟨_, hts, hc⟩
  subst hts
  refine Takes.write (Writes.logicalNot_negates hc.sits hc.roomy hc.tight) fun e' d' hn => ?_
  refine Takes.token (hgo e' d' _ ?_)
  rw [meaning_not]
  exact hc.not hn

theorem meaning_and {a b : Formula} :
    (and a b).meaning names = Computes.stop false (a.meaning names) (b.meaning names) := by
  funext vals
  show (do let v ← a.meaning names vals; if v.isFalsy then return v else b.meaning names vals) = _
  unfold Computes.stop
  cases a.meaning names vals with
  | error c => rfl
  | ok v =>
    show (if v.isFalsy = true then Except.ok v else b.meaning names vals) = _
    cases hv : v.isFalsy <;> simp [hv]

theorem meaning_or {a b : Formula} :
    (or a b).meaning names = Computes.stop true (a.meaning names) (b.meaning names) := by
  funext vals
  show (do let v ← a.meaning names vals; if v.isFalsy then b.meaning names vals else return v) = _
  unfold Computes.stop
  cases a.meaning names vals with
  | error c => rfl
  | ok v =>
    show (if v.isFalsy = true then b.meaning names vals else Except.ok v) = _
    cases hv : v.isFalsy <;> simp [hv]

theorem parses_binary {a b whole : Formula} (op : BinOp) {token : Token} (ha : a.Parses names)
    (hb : b.Parses names) (htokens : whole.tokens = a.tokens ++ token :: b.tokens)
    (hop : BinOp.ofToken? token = some op) (hprio : op.priority = (whole.level, whole.level))
    (hlow : whole.level < UnOp.priority) (hla : whole.level ≤ a.level) (hlb : whole.level < b.level)
    (h : ∀ list d e' d', Computes list d (a.meaning names) e' d' →
      Writes (beforeRight op e') d' fun e1 d1 => ∃ list', d1.Begins list' ∧ d'.Moves list d1 ∧
        ∀ e2 d2 line, Computes list' d1 (b.meaning names) e2 d2 →
          Writes (afterRight op e1 e2 line) d2 fun e'' d'' => Computes list d (whole.meaning names) e'' d'') :
    whole.Parses names := by
  intro bound n limit t more d list Q hd hk hlimit ht hgo
  have hlt : limit < whole.level := hlimit.resolve_right (by omega)
  have hleft : op.priority.1 = whole.level := by rw [hprio]
  have hright : op.priority.2 = whole.level := by rw [hprio]
  rw [htokens, List.append_assoc, List.cons_append]
  have hends : token.Ends a.level := by
    unfold Token.Ends
    rw [hop]
    show op.priority.1 ≤ a.level
    omega
  refine ha bound n limit token _ d list Q hd hk (.inl (by omega)) hends fun e' d' m hc => ?_
  rw [hop]
  cases m with
  | zero => exact Takes.failNear
  | succ m =>
    unfold Grammar.operatorsFrom
    rw [if_neg (by omega)]
    refine Takes.line fun line => Takes.next (by simp) ?_
    refine Takes.write (h list d e' d' hc) fun e1 d1 ⟨list', hd1, hm, hafter⟩ => ?_
    rw [hright]
    have hk1 : d1.Knows names := (hk.moves hc.moves).moves hm
    refine (hb.operand hd1 hk1 (.inl hlb) ht (ht.mono (by omega))).andThen fun x ts d2 ⟨hx, hts, hc2⟩ => ?_
    subst hts
    refine Takes.write (hafter x.1 d2 line hc2) fun e'' d'' hc'' => ?_
    rw [hx]
    exact hgo e'' d'' m hc''

theorem join_writes (cond : Bool) {l : JumpList} {list' : List Nat} {e2 : Expr} {d d2 : Draft} {f : Meaning}
    (hc : Computes list' d f e2 d2) {Q : Expr → Draft → Prop}
    (hq : Q ({ e2 with place := e2.place.read }.join cond l) d2) :
    Writes (do
      let e ← readVariable e2
      let js ← joinJumps (e.side cond) l
      return if cond then { e with onTrue := js } else { e with onFalse := js }) d2 Q := by
  refine (Writes.readVariable_reads hc.sits.place).andThen fun e d3 ⟨he, hd3⟩ => ?_
  subst hd3 he
  refine (Writes.joinJumps _ _).andThen fun js d4 ⟨hjs, hd4⟩ => Writes.pure ?_
  subst hd4 hjs
  cases cond <;> exact hq

theorem parses_and {a b : Formula} (ha : a.Parses names) (hb : b.Parses names) (hla : 2 ≤ a.level)
    (hlb : 2 < b.level) : (and a b).Parses names := by
  refine parses_binary .and ha hb rfl rfl rfl (show 2 < 12 by decide) hla hlb fun list d e' d' hc => ?_
  refine (Writes.goIfTrue_gates hc.sits hc.roomy hc.tight).andThen fun l d1 hg => Writes.pure ?_
  refine ⟨list ++ l, ⟨hg.waits, hg.roomy, hg.fresh.tight⟩, hg.moves, fun e2 d2 line hc2 => ?_⟩
  refine join_writes false hc2 ?_
  rw [meaning_and]
  exact hc.shortCircuit hg hc2.read

theorem parses_or {a b : Formula} (ha : a.Parses names) (hb : b.Parses names) (hlb : 1 < b.level) :
    (or a b).Parses names := by
  refine parses_binary .or ha hb rfl rfl rfl (show 1 < 12 by decide) (level_pos a) hlb fun list d e' d' hc => ?_
  refine (Writes.goIfFalse_gates hc.sits hc.roomy hc.tight).andThen fun l d1 hg => Writes.pure ?_
  refine ⟨list ++ l, ⟨hg.waits, hg.roomy, hg.fresh.tight⟩, hg.moves, fun e2 d2 line hc2 => ?_⟩
  refine join_writes true hc2 ?_
  rw [meaning_or]
  exact hc.shortCircuit hg hc2.read

theorem parses_rel {r : Relation} {a b : Formula} (ha : a.Parses names) (hb : b.Parses names)
    (hla : 3 ≤ a.level) (hlb : 3 < b.level) : (rel r a b).Parses names := by
  refine parses_binary r.operator ha hb rfl (by cases r <;> rfl) (by cases r <;> rfl)
    (show 3 < 12 by decide) hla hlb fun list d e' d' hc => ?_
  have hbefore : beforeRight r.operator e' = do return .ofOperand (← toOperand e') := by
    cases r <;> rfl
  rw [hbefore]
  refine (Writes.toOperand_names hc.sits.place hc.sits.waits hc.roomy hc.tight).andThen fun x d1 hx => Writes.pure ?_
  refine ⟨list, ⟨hx.waits, hx.roomy, hx.tight⟩, hx.moves, fun e2 d2 line hc2 => ?_⟩
  have hafter : afterRight r.operator (.ofOperand x) e2 line = emitCompare r.operator (.ofOperand x) e2 := by
    cases r <;> rfl
  rw [hafter]
  have hy := Writes.toOperand_names hc2.sits.place hc2.sits.waits hc2.roomy hc2.tight
  -- the registers of both operands are given back
  have hroom : ∀ y d3, Named list d2 e2 y d3 → y < 512 ∧ d3.Waits list d3.pc ∧ d3.Roomy ∧
      d3.active ≤ d3.free - (Operand.cost d3.active x + Operand.cost d3.active y) := by
    intro y d3 hy
    have h1 := hy.free
    have h2 := hc2.free
    have h3 := hx.free
    have h4 := hy.moves.active
    have h5 := hc2.moves.active
    have h6 := hx.moves.active
    have h7 := hc.roomy.active
    refine ⟨hy.lt, hy.waits, hy.roomy, ?_⟩
    rw [h4, h5, h6]
    rw [h5, h6] at h1
    omega
  refine (Writes.emitCompare_compares hx.lt hy hroom).imp fun e'' d'' h => ?_
  obtain ⟨y, d3, hy, hcmp⟩ := h
  exact hc.compare hx hc2 hy hcmp

/-- **Code for a formula computes its value**, whatever follows it. -/
theorem parses (e : Formula) (hg : e.Grouped) (ho : e.Over names) : e.Parses names := by
  induction e with
  | var x => exact (reads_var ho).parses
  | lit c => exact (reads_lit c).parses
  | paren e ih => exact parses_paren (ih hg ho)
  | not e ih => exact parses_not (ih hg.2 ho) hg.1
  | rel r a b iha ihb => exact parses_rel (iha hg.2.1 ho.1) (ihb hg.2.2 ho.2) hg.1.1 hg.1.2
  | and a b iha ihb => exact parses_and (iha hg.2.1 ho.1) (ihb hg.2.2 ho.2) hg.1.1 hg.1.2
  | or a b iha ihb => exact parses_or (iha hg.2.1 ho.1) (ihb hg.2.2 ho.2) hg.1

end Formula

end LuaMachine
