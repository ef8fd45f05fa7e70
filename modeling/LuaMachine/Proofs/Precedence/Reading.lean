/-
  OPERATORS ARE APPLIED AS THE GRAMMAR NESTS THEM. The compiler builds no tree: it applies operators while
  it reads. What it applies, and in which nesting, is told by writing a parse tree.

  * **`Grammar.expr_applies`** -- an expression is read as its one parse tree says, up to the first token
    that cannot continue it.
-/
import Mathlib.Data.List.Chain
import LuaMachine.Proofs.Lexical.Quiet
import LuaMachine.Proofs.Meaning.Reading
import LuaMachine.Proofs.Precedence.Climbing

namespace LuaMachine

/-! ## 1. Steps on given tokens -/

namespace Compile

variable {α β : Type} {x y z : Compile α} {ts mid rest : List Token} {t : Token}

def Agree (x y : Compile α) (ts : List Token) : Prop := ∀ s : Compiler, s.tokens = ts → x s = y s

def Leaves (x : Compile α) (ts rest : List Token) : Prop :=
  ∀ (s : Compiler) a s', s.tokens = ts → x s = .ok (a, s') → s'.tokens = rest

namespace Agree

theorem refl (x : Compile α) (ts : List Token) : Agree x x ts := fun _ _ => rfl

theorem of_eq (h : x = y) : Agree x y ts := fun s _ => congrFun h s

theorem symm (h : Agree x y ts) : Agree y x ts := fun s hs => (h s hs).symm

theorem trans (h : Agree x y ts) (h' : Agree y z ts) : Agree x z ts := fun s hs => (h s hs).trans (h' s hs)

theorem andThen (h : Agree x y ts) (f : α → Compile β) : Agree (x >>= f) (y >>= f) ts := by
  intro s hs
  show (x s >>= fun v => f v.1 v.2) = (y s >>= fun v => f v.1 v.2)
  rw [h s hs]

theorem bind {f g : α → Compile β} (hx : Leaves x ts mid) (h : ∀ a, Agree (f a) (g a) mid) :
    Agree (x >>= f) (x >>= g) ts := by
  intro s hs
  show (x s >>= fun v => f v.1 v.2) = (x s >>= fun v => g v.1 v.2)
  cases hr : x s with
  | error e => rfl
  | ok v => exact h v.1 v.2 (hx s v.1 v.2 hs hr)

theorem token {f : Token → Compile α} : Agree (Compile.token >>= f) (f t) (t :: rest) := by
  intro s hs
  have ht : s.current.token = t := (List.cons.inj hs).1
  show f s.current.token s = f t s
  rw [ht]

end Agree

namespace Leaves

variable {f : α → Compile β}

theorem pure (a : α) : Leaves (Pure.pure a) ts ts := by
  intro s b s' hs h
  obtain ⟨-, rfl⟩ := pure_ok h
  exact hs

theorem bind (hx : Leaves x ts mid) (hf : ∀ a, Leaves (f a) mid rest) : Leaves (x >>= f) ts rest := by
  intro s b s' hs h
  obtain ⟨a, s1, h1, h2⟩ := bind_ok h
  exact hf a s1 b s' (hx s a s1 hs h1) h2

theorem of_agree (h : Agree x y ts) (hy : Leaves y ts rest) : Leaves x ts rest :=
  fun s a s' hs hx => hy s a s' hs ((h s hs).symm.trans hx)

theorem failNear {e : CompileFault} : Leaves (Compile.failNear e : Compile α) ts rest := by
  intro s a s' _ h
  cases h

theorem of_quiet (h : Lexical.Quiet x) : Leaves x ts ts := by
  intro s a s' hs hx
  obtain ⟨d, rfl, -⟩ := h s a s' hx
  exact hs

theorem get {f : Compiler → Compile β} (h : ∀ s : Compiler, s.tokens = ts → Leaves (f s) ts rest) :
    Leaves (MonadState.get >>= f) ts rest := fun s b s' hs => h s hs s b s' hs

theorem set {s : Compiler} (hs : s.tokens = rest) : Leaves (MonadStateOf.set s) ts rest := fun _ _ _ _ h => by
  cases h
  exact hs

theorem token : Leaves Compile.token ts ts := fun _ _ _ hs h => by
  cases h
  exact hs

theorem line : Leaves Compile.line ts ts := fun _ _ _ hs h => by
  cases h
  exact hs

theorem next (hne : rest ≠ []) : Leaves Compile.next (t :: rest) rest := by
  intro s a s' hs h
  have hnext : Takes (Compile.next >>= Pure.pure) (t :: rest) s.fn fun _ ts' _ => ts' = rest :=
    Takes.next hne (Takes.pure rfl)
  rw [bind_pure] at hnext
  exact hnext s a s' hs rfl h

theorem checkMatch {opener : Token} {n : Nat} (hne : rest ≠ []) :
    Leaves (Compile.checkMatch t opener n) (t :: rest) rest := by
  intro s a s' hs h
  have hmatch : Takes (Compile.checkMatch t opener n >>= Pure.pure) (t :: rest) s.fn fun _ ts' _ => ts' = rest :=
    Takes.checkMatch hne (Takes.pure rfl)
  rw [bind_pure] at hmatch
  exact hmatch s a s' hs rfl h

end Leaves

def nested (x : Nat → Compile α) : Nat → Compile α
  | 0 => failNear .tooDeep
  | n + 1 => x n

theorem Leaves.nested {x : Nat → Compile α} (h : ∀ n, Leaves (x n) ts rest) (n : Nat) :
    Leaves (Compile.nested x n) ts rest := by
  cases n with
  | zero => exact .failNear
  | succ n => exact h n

end Compile

/-! ## 2. Writing a tree -/

open Compile Grammar Item

variable {name : Bytes → Compile Expr} {bound : Nat}

/-- **The operators of a tree applied**, at a level of nesting: what is in parentheses and what is the argument or the right
    operand of an operator is one level further down. Operands are read by the compiler. -/
def OpTree.write (name : Bytes → Compile Expr) (bound : Nat) : OpTree → Nat → Compile Expr
  | operand _, n => (ofLevels name bound n).simple
  | group t, n => do
    let line ← line
    next
    let e ← nested (t.write name bound) n
    checkMatch (.symbol .rparen) (.symbol .lparen) line
    readVariable e
  | unary op t, n => do
    let line ← line
    next
    let e ← nested (t.write name bound) n
    Compile.unary op e line
  | binary op l r, n => do
    let e ← l.write name bound n
    let line ← line
    next
    let e₁ ← beforeRight op e
    let e₂ ← nested (r.write name bound) n
    afterRight op e₁ e₂ line

namespace Item

def tokens (items : List Item) : List Token := items.flatMap fun
  | .operand u => u
  | .mark t => [t]

@[simp] theorem tokens_operand (u : List Token) (items : List Item) : tokens (.operand u :: items) = u ++ tokens items := rfl

@[simp] theorem tokens_mark (t : Token) (items : List Item) : tokens (.mark t :: items) = t :: tokens items := rfl

theorem tokens_append (items others : List Item) : tokens (items ++ others) = tokens items ++ tokens others :=
  List.flatMap_append

theorem tokens_length_le {items others : List Item} (h : others <:+ items) :
    (tokens others).length ≤ (tokens items).length := by
  obtain ⟨pre, rfl⟩ := h
  rw [tokens_append, List.length_append]
  omega

/-- **The tokens are an operand in front of another token**: they do not begin with a unary operator, and they are what
    the compiler passes when it reads an operand there, if that does not fail. -/
structure IsOperand (name : Bytes → Compile Expr) (bound : Nat) (u : List Token) (t : Token) : Prop where
  first : ∃ first others, u = first :: others ∧ UnOp.ofToken? first = none
  reads : ∀ n more, Leaves (ofLevels name bound n).simple (u ++ t :: more) (t :: more)

/-- One item in front of another: an operand is one there, and what follows a closing parenthesis makes no longer operand
    of it. -/
def Before (name : Bytes → Compile Expr) (bound : Nat) : Item → Item → Prop
  | .operand u, .mark t => IsOperand name bound u t
  | .mark p, .mark t => p = .symbol .rparen → t.isSuffix = false
  | _, _ => True

def Readable (name : Bytes → Compile Expr) (bound : Nat) (items : List Item) : Prop :=
  items.IsChain (Before name bound)

end Item

namespace Grammar

def withNext (e : Expr) : Compile (Expr × Option BinOp) := do return (e, BinOp.ofToken? (← token))

def goOn (g : Grammar) (limit fuel : Nat) (e : Expr) : Compile (Expr × Option BinOp) := do
  g.operatorsFrom limit fuel e (BinOp.ofToken? (← token))

theorem withNext_drop {α : Type} (x : Compile Expr) (f : Expr → Compile α) :
    (do let (e, _) ← x >>= withNext; f e) = x >>= f := by
  have h : ∀ e, (withNext e >>= fun v => f v.1) = f e := fun _ => rfl
  rw [bind_assoc]
  exact congrArg (x >>= ·) (funext h)

theorem withNext_token {α : Type} {e : Expr} {f : Expr × Option BinOp → Compile α} {t : Token} {rest : List Token} :
    Agree (withNext e >>= f) (f (e, BinOp.ofToken? t)) (t :: rest) := by
  intro s hs
  have ht : s.current.token = t := (List.cons.inj hs).1
  show f (e, BinOp.ofToken? s.current.token) s = f (e, BinOp.ofToken? t) s
  rw [ht]

theorem subexpr_ofLevels (n limit : Nat) :
    (ofLevels name bound n).subexpr limit = nested (fun n => (ofLevels name bound n).expressionBody limit) n := by
  cases n <;> rfl

@[simp] theorem bound_ofLevels (n : Nat) : (ofLevels name bound n).bound = bound := by
  cases n <;> rfl

theorem expressionBody_simple {n limit : Nat} {t : Token} {rest : List Token} (ht : UnOp.ofToken? t = none) :
    Agree ((ofLevels name bound n).expressionBody limit)
      ((ofLevels name bound n).simple >>= (ofLevels name bound n).goOn limit bound) (t :: rest) := by
  refine Agree.token.trans ?_
  rw [ht, bound_ofLevels]
  exact .refl _ _

theorem expressionBody_unary {n limit : Nat} {t : Token} {op : UnOp} {rest : List Token} (ht : UnOp.ofToken? t = some op) :
    Agree ((ofLevels name bound n).expressionBody limit)
      ((do
        let line ← line
        next
        let (e, _) ← (ofLevels name bound n).subexpr UnOp.priority
        unary op e line) >>= (ofLevels name bound n).goOn limit bound)
      (t :: rest) := by
  refine Agree.token.trans ?_
  rw [ht, bound_ofLevels]
  simp only [bind_assoc]
  exact .refl _ _

theorem goOn_stop {g : Grammar} {limit fuel : Nat} {e : Expr} {t : Token} {rest : List Token}
    (ht : ∀ op, BinOp.ofToken? t = some op → op.priority.1 ≤ limit) (hfuel : 0 < fuel) :
    Agree (g.goOn limit fuel e) (withNext e) (t :: rest) := by
  refine Agree.token.trans (.trans ?_ Agree.token.symm)
  obtain ⟨m, rfl⟩ := Nat.exists_eq_succ_of_ne_zero (Nat.ne_of_gt hfuel)
  cases hop : BinOp.ofToken? t with
  | none => exact .refl _ _
  | some op =>
    unfold operatorsFrom
    rw [if_pos (ht op hop)]
    exact .refl _ _

theorem goOn_operator {g : Grammar} {limit m : Nat} {e : Expr} {t : Token} {op : BinOp} {rest : List Token}
    (ht : BinOp.ofToken? t = some op) (hop : limit < op.priority.1) :
    Agree (g.goOn limit (m + 1) e)
      (do
        let line ← line
        next
        let e1 ← beforeRight op e
        let (e2, following) ← g.subexpr op.priority.2
        let e ← afterRight op e1 e2 line
        g.operatorsFrom limit m e following)
      (t :: rest) := by
  refine Agree.token.trans ?_
  rw [ht, operatorsFrom, if_neg (by omega)]
  exact .refl _ _

theorem expr_eq (g : Grammar) : g.expr = (do let (e, _) ← g.subexpr 0; return e) := rfl

theorem suffixesFrom_stop {g : Grammar} {line m : Nat} {e : Expr} {t : Token} {rest : List Token}
    (ht : t.isSuffix = false) : Agree (g.suffixesFrom line (m + 1) e) (pure e) (t :: rest) := by
  refine Agree.token.trans ?_
  split <;> first | exact .refl _ _ | simp [Token.isSuffix] at ht

/-- **What is read between parentheses**, when the expression inside is. -/
theorem simple_group {n : Nat} {inner : OpTree} {t : Token} {ts rest : List Token} (hts : ts ≠ [])
    (h : Agree ((ofLevels name bound n).subexpr 0) (nested (inner.write name bound) n >>= withNext) ts)
    (hl : Leaves (nested (inner.write name bound) n) ts (.symbol .rparen :: t :: rest)) (ht : t.isSuffix = false)
    (hb : 0 < bound) :
    Agree (ofLevels name bound n).simple ((OpTree.group inner).write name bound n) (.symbol .lparen :: ts) ∧
    Leaves ((OpTree.group inner).write name bound n) (.symbol .lparen :: ts) (t :: rest) := by
  have hleaves : Leaves ((OpTree.group inner).write name bound n) (.symbol .lparen :: ts) (t :: rest) :=
    Leaves.line.bind fun _ => (Leaves.next hts).bind fun _ => hl.bind fun _ =>
      (Leaves.checkMatch (by simp)).bind fun _ => .of_quiet (.readVariable _)
  have hexpr : Agree (ofLevels name bound n).expr (nested (inner.write name bound) n) ts := by
    rw [expr_eq]
    exact (h.andThen _).trans (.of_eq ((withNext_drop _ pure).trans (bind_pure _)))
  have hprimary : Agree (ofLevels name bound n).primary ((OpTree.group inner).write name bound n) (.symbol .lparen :: ts) := by
    refine Agree.token.trans ?_
    exact Agree.bind .line fun line => Agree.bind (.next hts) fun _ => hexpr.andThen _
  refine ⟨?_, hleaves⟩
  have hsuffixes : ∀ line e, Agree ((ofLevels name bound n).suffixesFrom line bound e) (pure e) (t :: rest) := by
    intro line e
    obtain ⟨m, rfl⟩ := Nat.exists_eq_succ_of_ne_zero (Nat.ne_of_gt hb)
    exact suffixesFrom_stop ht
  have hsuffixed : Agree (ofLevels name bound n).suffixed (ofLevels name bound n).primary (.symbol .lparen :: ts) := by
    unfold suffixed
    rw [bound_ofLevels]
    have hdrop : Agree (Compile.line >>= fun _ => (ofLevels name bound n).primary) (ofLevels name bound n).primary
        (.symbol .lparen :: ts) := fun _ _ => rfl
    refine .trans (Agree.bind .line fun line => ?_) hdrop
    refine (Agree.bind (Leaves.of_agree hprimary hleaves) (hsuffixes line)).trans ?_
    rw [bind_pure]
    exact .refl _ _
  exact Agree.token.trans (hsuffixed.trans hprimary)

/-- **What is read behind a unary operator**, when its argument is. -/
theorem unary_argument {n : Nat} {op : UnOp} {arg : OpTree} {t : Token} {ts rest : List Token} (hts : ts ≠ [])
    (h : Agree ((ofLevels name bound n).subexpr UnOp.priority) (nested (arg.write name bound) n >>= withNext) ts)
    (hl : Leaves (nested (arg.write name bound) n) ts rest) :
    Agree
      (do
        let line ← line
        next
        let (e, _) ← (ofLevels name bound n).subexpr UnOp.priority
        unary op e line)
      ((OpTree.unary op arg).write name bound n) (t :: ts) ∧
    Leaves ((OpTree.unary op arg).write name bound n) (t :: ts) rest := by
  constructor
  · exact Agree.bind .line fun line => Agree.bind (.next hts) fun _ =>
      (h.andThen _).trans (.of_eq (withNext_drop _ fun e => Compile.unary op e line))
  · exact Leaves.line.bind fun _ => (Leaves.next hts).bind fun _ => hl.bind fun _ => .of_quiet (.unary _ _ _)

/-- **What is read from an operator on**, when its right operand is: the two operands are applied, and the operator behind
    them is the next. -/
theorem goOn_binary {limit m n : Nat} {op : BinOp} {l r : OpTree} {t t' : Token} {start ts rest : List Token} (hts : ts ≠ [])
    (ht : BinOp.ofToken? t = some op) (hop : limit < op.priority.1)
    (h : Agree ((ofLevels name bound n).subexpr op.priority.2) (nested (r.write name bound) n >>= withNext) ts)
    (hl : Leaves (l.write name bound n) start (t :: ts)) (hr : Leaves (nested (r.write name bound) n) ts (t' :: rest)) :
    Agree (l.write name bound n >>= (ofLevels name bound n).goOn limit (m + 1))
      ((OpTree.binary op l r).write name bound n >>= (ofLevels name bound n).goOn limit m) start ∧
    Leaves ((OpTree.binary op l r).write name bound n) start (t' :: rest) := by
  constructor
  · -- the operator behind the right operand is read before the two are applied, which takes no token
    have hgo : ∀ e, Agree ((ofLevels name bound n).operatorsFrom limit m e (BinOp.ofToken? t'))
        ((ofLevels name bound n).goOn limit m e) (t' :: rest) := fun e =>
      (Agree.token (f := fun t => (ofLevels name bound n).operatorsFrom limit m e (BinOp.ofToken? t))).symm
    have hafter : ∀ e1 e2 line, Agree
        (withNext e2 >>= fun v =>
          afterRight op e1 v.1 line >>= fun e => (ofLevels name bound n).operatorsFrom limit m e v.2)
        (afterRight op e1 e2 line >>= (ofLevels name bound n).goOn limit m) (t' :: rest) := fun _ _ _ =>
      withNext_token.trans (Agree.bind (.of_quiet (.afterRight _ _ _ _)) hgo)
    simp only [OpTree.write, bind_assoc]
    refine Agree.bind hl fun e => (goOn_operator ht hop).trans ?_
    refine Agree.bind .line fun line => Agree.bind (.next hts) fun _ => Agree.bind (.of_quiet (.beforeRight _ _)) fun e1 => ?_
    refine (h.andThen _).trans ?_
    rw [bind_assoc]
    exact Agree.bind hr fun e2 => hafter e1 e2 line
  · exact hl.bind fun _ => Leaves.line.bind fun _ => (Leaves.next hts).bind fun _ =>
      (Leaves.of_quiet (.beforeRight _ _)).bind fun _ => hr.bind fun _ => .of_quiet (.afterRight _ _ _ _)

end Grammar

/-! ## 3. What climbing finds is written -/

/-- Climbing from these items is followed by the compiler at every level of nesting: it writes the tree, leaves the tokens
    of the items left, and gives back the operator there. Once a tree has been read, this is about the operators behind it. -/
def Climbs.Follows (name : Bytes → Compile Expr) (bound limit : Nat) (acc : Option OpTree) (items : List Item) (t : OpTree)
    (rest : List Item) : Prop :=
  ∀ n more,
    match acc with
    | none =>
      (tokens items ++ more).length ≤ bound →
        Agree ((ofLevels name bound n).expressionBody limit) (t.write name bound n >>= withNext) (tokens items ++ more) ∧
        Leaves (t.write name bound n) (tokens items ++ more) (tokens rest ++ more)
    | some l => ∀ ts fuel, (tokens items ++ more).length ≤ fuel → fuel ≤ bound →
        Leaves (l.write name bound n) ts (tokens items ++ more) →
        Agree (l.write name bound n >>= (ofLevels name bound n).goOn limit fuel) (t.write name bound n >>= withNext) ts ∧
        Leaves (t.write name bound n) ts (tokens rest ++ more)

namespace Climbs

variable {limit fuel n : Nat} {l t arg inner : OpTree} {items others rest : List Item} {more ts us : List Token}

theorem starts (h : Climbs limit (some l) items t rest) : ∃ mark others, items = .mark mark :: others := by
  cases h with
  | binary _ _ _ _ => exact ⟨_, _, rfl⟩
  | stop h =>
    obtain ⟨mark, rfl, -⟩ := h
    exact ⟨mark, _, rfl⟩

theorem Follows.subexpr (h : Follows name bound limit none items t rest) (hb : (tokens items ++ more).length ≤ bound)
    (n : Nat) :
    Agree ((ofLevels name bound n).subexpr limit) (nested (t.write name bound) n >>= withNext) (tokens items ++ more) ∧
    Leaves (nested (t.write name bound) n) (tokens items ++ more) (tokens rest ++ more) := by
  refine ⟨?_, Leaves.nested (fun n => (h n more hb).2) n⟩
  rw [subexpr_ofLevels]
  cases n with
  | zero => exact .refl _ _
  | succ n => exact (h n more hb).1

theorem Follows.first {x : Compile (Expr × Option BinOp)} (h : Follows name bound limit (some l) items t rest)
    (hb : (tokens items ++ more).length ≤ bound)
    (hx : Agree x (l.write name bound n >>= (ofLevels name bound n).goOn limit bound) us)
    (hl : Leaves (l.write name bound n) us (tokens items ++ more)) :
    Agree x (t.write name bound n >>= withNext) us ∧ Leaves (t.write name bound n) us (tokens rest ++ more) :=
  (h n more us bound hb (Nat.le_refl _) hl).imp_left hx.trans

theorem length_le (h : others <:+ items) : (tokens others ++ more).length ≤ (tokens items ++ more).length := by
  rw [List.length_append, List.length_append]
  exact Nat.add_le_add_right (tokens_length_le h) _

theorem tokens_ne (hs : others <:+ items) (h : Climbs limit (some l) others t rest) (more : List Token) :
    tokens items ++ more ≠ [] := by
  obtain ⟨mark, others', rfl⟩ := h.starts
  obtain ⟨pre, rfl⟩ := hs
  simp [tokens_append]

/-- **The compiler follows the climbing.** -/
theorem reads {acc : Option OpTree} (h : Climbs limit acc items t rest) (hr : Readable name bound items) :
    Follows name bound limit acc items t rest := by
  induction h with
  | @operand limit u items rest t h ih =>
    intro n more hb
    have hsuf : items <:+ .operand u :: items := List.suffix_cons _ _
    obtain ⟨mark, others, rfl⟩ := h.starts
    obtain ⟨⟨first, us, rfl, hfirst⟩, hreads⟩ : IsOperand name bound u mark := (List.isChain_cons_cons.mp hr).1
    refine (ih (hr.suffix hsuf)).first (Nat.le_trans (length_le hsuf) hb) (expressionBody_simple hfirst) ?_
    rw [tokens_operand, tokens_mark, List.append_assoc]
    exact hreads n (tokens others ++ more)
  | @group limit items others rest inner t hin h ihin ih =>
    intro n more hb
    have hsuf : items <:+ opening :: items := List.suffix_cons _ _
    have hclose : closing :: others <:+ items := hin.suffix
    have hothers : others <:+ items := (List.suffix_cons _ _).trans hclose
    have hne := tokens_ne hothers h more
    obtain ⟨hagree, hleaves⟩ := (ihin (hr.suffix hsuf)).subexpr (Nat.le_trans (length_le hsuf) hb) n
    obtain ⟨mark, others', rfl⟩ := h.starts
    have hstop : mark.isSuffix = false := (List.isChain_cons_cons.mp (hr.suffix (hclose.trans hsuf))).1 rfl
    rw [tokens_mark, List.cons_append, List.length_cons] at hb
    obtain ⟨hsimple, hgroup⟩ := simple_group hne hagree hleaves hstop (by omega)
    refine (ih (hr.suffix (hothers.trans hsuf))).first ?_ ((expressionBody_simple rfl).trans (hsimple.andThen _)) hgroup
    exact Nat.le_trans (length_le hothers) (by omega)
  | @unary limit mark op items others rest arg t hm harg h iharg ih =>
    intro n more hb
    have hsuf : items <:+ .mark mark :: items := List.suffix_cons _ _
    have hothers : others <:+ .mark mark :: items := harg.suffix.trans hsuf
    obtain ⟨hagree, hleaves⟩ := (iharg (hr.suffix hsuf)).subexpr (Nat.le_trans (length_le hsuf) hb) n
    obtain ⟨hread, hpassed⟩ := unary_argument (t := mark) (tokens_ne harg.suffix h more) hagree hleaves
    exact (ih (hr.suffix hothers)).first (Nat.le_trans (length_le hothers) hb)
      ((expressionBody_unary hm).trans (hread.andThen _)) hpassed
  | @binary limit mark op items others rest l r t hm hop hright h ihr ih =>
    intro n more ts fuel hb hfuel hl
    have hsuf : items <:+ .mark mark :: items := List.suffix_cons _ _
    have hothers : others <:+ .mark mark :: items := hright.suffix.trans hsuf
    obtain ⟨hagree, hleaves⟩ := (ihr (hr.suffix hsuf)).subexpr (Nat.le_trans (length_le hsuf) (Nat.le_trans hb hfuel)) n
    have hne := tokens_ne hright.suffix h more
    have hlength : (tokens others ++ more).length ≤ (tokens items ++ more).length := length_le hright.suffix
    rw [tokens_mark, List.cons_append, List.length_cons] at hb
    obtain ⟨mark', others', rfl⟩ := h.starts
    obtain ⟨m, rfl⟩ := Nat.exists_eq_succ_of_ne_zero (n := fuel) (by omega)
    obtain ⟨hread, hpassed⟩ := goOn_binary hne hm hop hagree hl hleaves
    exact (ih (hr.suffix hothers) n more ts m (by omega) (by omega) hpassed).imp_left hread.trans
  | @stop limit l i rest h =>
    intro n more ts fuel hb hfuel hl
    obtain ⟨mark, rfl, hstop⟩ := h
    rw [tokens_mark, List.cons_append, List.length_cons] at hb
    exact ⟨Agree.bind hl fun e => goOn_stop hstop (by omega), hl⟩

end Climbs

/-! ## 4. Operands -/

def Token.isLiteral : Token → Bool
  | .int _ | .float _ | .str _ | .keyword .nil | .keyword .true | .keyword .false | .symbol .dots => true
  | _ => false

@[simp] theorem Token.isLiteral_int (n : Int64) : (Token.int n).isLiteral = true := rfl

theorem Compile.Leaves.named {x : Bytes} {ts : List Token} : Leaves (Compile.named x) ts ts := by
  have hlookup : ∀ y, Leaves (Compile.lookup y) ts ts := by
    refine fun y => Leaves.get fun s hs => ?_
    split
    · exact .failNear
    · refine Leaves.bind (Leaves.set ?_) fun _ => .pure _
      exact hs
    · exact .pure _
  refine (hlookup x).bind fun found => ?_
  cases found with
  | some p => exact .pure _
  | none =>
    exact (hlookup _).bind fun env => (Leaves.of_quiet (.addConstant _)).bind fun k => .of_quiet (.indexed _ _)

namespace Item

theorem IsOperand.literal {u t : Token} (hu : u.isLiteral = true) : IsOperand name bound [u] t := by
  have hnext : ∀ p : Place, ∀ more, Leaves (do next; return Expr.plain p) (u :: t :: more) (t :: more) := fun p more =>
    (Leaves.next (by simp)).bind fun _ => .pure _
  refine ⟨⟨u, [], rfl, ?_⟩, fun n more => Leaves.of_agree Agree.token ?_⟩
  · cases u with
    | int _ | float _ | str _ => rfl
    | keyword k => cases k <;> first | rfl | cases hu
    | symbol s => cases s <;> first | rfl | cases hu
    | _ => cases hu
  · cases u with
    | int _ | float _ => exact hnext _ more
    | str s => exact (Leaves.of_quiet (.addConstant _)).bind fun _ => hnext _ more
    | keyword k =>
      cases k with
      | nil | true | false => exact hnext _ more
      | _ => cases hu
    | symbol s =>
      cases s with
      | dots =>
        refine Leaves.get fun s _ => ?_
        split
        · exact (Leaves.of_quiet (.emitABC _ _ _ _)).bind fun pc => hnext _ more
        · exact .failNear
      | _ => cases hu
    | _ => cases hu

theorem IsOperand.variable {x : Bytes} {t : Token} (hname : ∀ y ts, Leaves (name y) ts ts) (ht : t.isSuffix = false) :
    IsOperand name bound [.name x] t := by
  refine ⟨⟨_, [], rfl, rfl⟩, fun n more => Leaves.of_agree Agree.token ?_⟩
  have hprimary : Leaves (ofLevels name bound n).primary (.name x :: t :: more) (t :: more) := by
    refine Leaves.of_agree Agree.token ?_
    rw [Formula.name_ofLevels]
    refine Leaves.bind ?_ fun y => hname y _
    exact Leaves.of_agree Agree.token ((Leaves.next (by simp)).bind fun _ => .pure _)
  have hsuffixes : ∀ line e, Leaves ((ofLevels name bound n).suffixesFrom line (ofLevels name bound n).bound e) (t :: more)
      (t :: more) := by
    intro line e
    rw [bound_ofLevels]
    cases bound with
    | zero => exact .failNear
    | succ m => exact .of_agree (suffixesFrom_stop ht) (.pure e)
  exact Leaves.line.bind fun line => hprimary.bind fun e => hsuffixes line e

theorem isSuffix_of_binary {t : Token} {op : BinOp} (ht : BinOp.ofToken? t = some op) : t.isSuffix = false := by
  unfold BinOp.ofToken? at ht
  split at ht <;> first | rfl | cases ht

theorem before_of_ne {p : Token} (hp : p ≠ .symbol .rparen) (i : Item) : Before name bound (.mark p) i := by
  cases i with
  | operand u => trivial
  | mark t => exact fun h => absurd h hp

theorem readable_cons {p : Token} {items : List Item} (hp : p ≠ .symbol .rparen) (h : Readable name bound items) :
    Readable name bound (.mark p :: items) :=
  List.isChain_cons.mpr ⟨fun i _ => before_of_ne hp i, h⟩

/-- **A sequence of literals and names is readable** in front of every token that does not belong to an operand. -/
theorem Sequence.readable {items : List Item} {t : Token} (h : Sequence items) (hname : ∀ y ts, Leaves (name y) ts ts)
    (hu : ∀ u, .operand u ∈ items → ∃ a, u = [a] ∧ (a.isLiteral = true ∨ ∃ x, a = .name x))
    (ht : t.isSuffix = false) :
    Readable name bound (items ++ [.mark t]) := by
  induction h generalizing t with
  | operand u =>
    refine List.isChain_cons_cons.mpr ⟨?_, .singleton _⟩
    obtain ⟨a, rfl, hlit | ⟨x, rfl⟩⟩ := hu u (List.mem_singleton_self _)
    · exact .literal hlit
    · exact .variable hname ht
  | @group items _ ih =>
    have hin := ih (t := .symbol .rparen) (fun u h => hu u (by simp [h])) rfl
    have hend : Readable name bound [closing, .mark t] := List.isChain_cons_cons.mpr ⟨fun _ => ht, .singleton _⟩
    have hrest : Readable name bound (items ++ closing :: [.mark t]) := List.isChain_split.mpr ⟨hin, hend⟩
    have hall := readable_cons (p := .symbol .lparen) (by decide) hrest
    rw [List.cons_append, List.cons_append, List.append_assoc]
    exact hall
  | unary hm _ ih =>
    refine readable_cons ?_ (ih (fun u h => hu u (by simp [h])) ht)
    rintro rfl
    exact nomatch hm
  | @join mark op left right hm _ _ ihl ihr =>
    have hleft := ihl (t := mark) (fun u h => hu u (by simp [h])) (isSuffix_of_binary hm)
    have hright := readable_cons (p := mark) (by rintro rfl; exact nomatch hm) (ihr (fun u h => hu u (by simp [h])) ht)
    rw [List.append_assoc]
    exact List.isChain_split.mpr ⟨hleft, hright⟩

end Item

/-! ## 5. Expressions -/

/-- **Operators are applied in the nesting of the parse tree.** A sequence of operands, joined by binary operators, with
    unary operators in front of operands and with parentheses, has exactly one parse tree by the stratified grammar. With
    its tokens to come, and behind them a token that cannot continue the sequence, reading an expression is to apply the
    operators of that tree, each in its place; this ends with an error where an operand or an operator does, or where the
    tree is nested more deeply than the level allows, and otherwise leaves that token as the next one. The bound on the
    length of the source is one that every compilation sets. -/
theorem Grammar.expr_applies {items : List Item} {t : Token} (hseq : Sequence items)
    (hread : Readable name bound (items ++ [.mark t])) (hstop : ∀ others, ¬ Sequence (items ++ .mark t :: others)) :
    ∃ tree, Derives 1 items tree ∧ (∀ other, Derives 1 items other → other = tree) ∧
      ∀ (n : Nat) (more : List Token) (s : Compiler), s.tokens = Item.tokens items ++ t :: more →
        s.tokens.length ≤ bound →
        (ofLevels name bound n).expr s = nested (tree.write name bound) n s ∧
        ∀ e s', (ofLevels name bound n).expr s = .ok (e, s') → s'.tokens = t :: more := by
  obtain ⟨tree, htree⟩ := hseq.derives
  have ht : BinOp.ofToken? t = none := by
    refine Option.not_isSome_iff_eq_none.mp fun h => ?_
    obtain ⟨others, hlong⟩ := hseq.continues_iff.mpr (Option.isSome_iff_exists.mp h)
    exact hstop others hlong
  refine ⟨tree, htree, fun other hother => hother.unique htree, fun n more s hs hb => ?_⟩
  have hfollows := (htree.climbs_all [] ht).reads hread
  have htokens : Item.tokens (items ++ [.mark t]) ++ more = s.tokens := by
    rw [hs, tokens_append, List.append_assoc]
    rfl
  obtain ⟨hagree, hleaves⟩ := hfollows.subexpr (htokens ▸ hb) n
  rw [htokens] at hagree hleaves
  have hexpr : Agree (ofLevels name bound n).expr (nested (tree.write name bound) n) s.tokens :=
    (hagree.andThen _).trans (.of_eq ((withNext_drop _ pure).trans (bind_pure _)))
  exact ⟨hexpr s rfl, fun e s' h => Leaves.of_agree hexpr hleaves s e s' rfl h⟩

/-- A state of the compiler in front of `- 2 ^ 3 .. x` at the end of a source. -/
def Compiler.beforePower : Compiler where
  current := ⟨.symbol .minus, 1, 0, []⟩
  ahead := [.int 2, .symbol .caret, .int 3, .symbol .dotDot, .name [120], .eof].map fun t => ⟨t, 1, 0, []⟩
  fault := none
  lastLine := 1
  chunk := ""
  source := []
  fn := Draft.new 0
  outer := []

theorem Grammar.expr_applies_power :
    (ofLevels Compile.named 8 4).expr Compiler.beforePower =
      nested ((OpTree.binary .concat
        (.unary .minus (.binary (.arith .pow) (.operand [.int 2]) (.operand [.int 3])))
        (.operand [.name [120]])).write Compile.named 8) 4 Compiler.beforePower := by
  have hpower : Derives 12 [.operand [.int 2], .mark (.symbol .caret), .operand [.int 3]] _ :=
    .power rfl (.operand _) (Derives.lower (.operand _) (by decide))
  have hminus : Derives 9 [.mark (.symbol .minus), .operand [.int 2], .mark (.symbol .caret), .operand [.int 3]] _ :=
    Derives.lower (.unary rfl hpower.up) (by decide)
  have hderives : Derives 1 [.mark (.symbol .minus), .operand [.int 2], .mark (.symbol .caret), .operand [.int 3],
      .mark (.symbol .dotDot), .operand [.name [120]]] _ :=
    Derives.lower (.concat rfl hminus (Derives.lower (.operand _) (by decide))) (by decide)
  have hseq : Sequence [.mark (.symbol .minus), .operand [.int 2], .mark (.symbol .caret), .operand [.int 3],
      .mark (.symbol .dotDot), .operand [.name [120]]] :=
    .unary rfl (.join rfl (.operand _) (.join rfl (.operand _) (.operand _)))
  obtain ⟨tree, -, hunique, happlies⟩ := @Grammar.expr_applies Compile.named 8 _ .eof hseq
    (hseq.readable (fun _ _ => .named) (by simp) rfl)
    (fun others h => by
      obtain ⟨op, hop⟩ := hseq.continues_iff.mp ⟨others, h⟩
      cases hop)
  rw [hunique _ hderives]
  exact (happlies 4 [] Compiler.beforePower rfl (by decide)).1

end LuaMachine
