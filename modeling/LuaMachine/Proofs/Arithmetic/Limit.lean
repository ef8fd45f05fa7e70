/-
  WHAT ONLY A LIMIT CAN STOP. Two judgements say of a step of the compilation what it leads to, and that it
  fails only where the source asks for more than the compiler has room for. That it does is a proposition of
  which nothing is known but that it follows from each limit that is met; so what holds of sources of any
  size also says which ones compile.
-/
import LuaMachine.Compiler.Statement
import LuaMachine.Proofs.Compiler.Value
import LuaMachine.Proofs.Meaning.Reading

namespace LuaMachine

def CompileFault.isLimit : CompileFault → Bool
  | tooDeep | tooMany .. | tooManyRegisters => true
  | _ => false

def CompileError.Allowed (L : Prop) (e : CompileError) : Prop :=
  (e.fault.isLimit = true ∧ L) ∨ ∃ rule, e.fault = .broken rule

namespace Compile

variable {α β : Type}

/-- From this innermost draft the step leads to an answer and an innermost draft with `Q`, or to a limit,
    and then `L`; it touches no other draft and reads no token. -/
def Makes (L : Prop) (x : Compile α) (d : Draft) (Q : α → Draft → Prop) : Prop :=
  ∀ s, s.fn = d → match x s with
    | .ok (a, s') => s' = { s with fn := s'.fn } ∧ Q a s'.fn
    | .error e => e.Allowed L

/-- From these tokens and this innermost draft the step leads to an answer, tokens and an innermost draft
    with `Q`, or to a limit, and then `L`. -/
def Passes (L : Prop) (x : Compile α) (ts : List Token) (d : Draft) (Q : α → List Token → Draft → Prop) : Prop :=
  ∀ s, s.tokens = ts → s.fn = d → match x s with
    | .ok (a, s') => Q a s'.tokens s'.fn
    | .error e => e.Allowed L

theorem discard_eq (x : Compile α) : Functor.discard x = x >>= fun _ => Pure.pure () := by
  unfold Functor.discard
  rw [map_const, Function.comp_apply, ← bind_pure_comp]

/-! ## 1. Steps on a draft -/

namespace Makes

variable {L : Prop} {x : Compile α} {f : α → Compile β} {d : Draft}

theorem imp {Q Q' : α → Draft → Prop} (h : Makes L x d Q) (hQ : ∀ a d', Q a d' → Q' a d') : Makes L x d Q' := by
  intro s hs
  have hx := h s hs
  split at hx
  · exact ⟨hx.1, hQ _ _ hx.2⟩
  · exact hx

theorem andThen {P : α → Draft → Prop} {Q : β → Draft → Prop} (h : Makes L x d P)
    (hf : ∀ a d', P a d' → Makes L (f a) d' Q) : Makes L (x >>= f) d Q := by
  intro s hs
  have hx := h s hs
  show match (x s >>= fun v => f v.1 v.2) with
    | .ok (b, s') => s' = { s with fn := s'.fn } ∧ Q b s'.fn
    | .error e => e.Allowed L
  cases hr : x s with
  | error e =>
    rw [hr] at hx
    exact hx
  | ok v =>
    obtain ⟨a, t⟩ := v
    rw [hr] at hx
    obtain ⟨ht, hp⟩ := hx
    have hy := hf a t.fn hp t rfl
    show match f a t with
      | .ok (b, s') => s' = { s with fn := s'.fn } ∧ Q b s'.fn
      | .error e => e.Allowed L
    split at hy
    · exact ⟨by rw [hy.1, ht], hy.2⟩
    · exact hy

theorem pure {Q : α → Draft → Prop} {a : α} (h : Q a d) : Makes L (Pure.pure a) d Q := by
  intro s hs
  exact ⟨rfl, by rw [hs]; exact h⟩

theorem discard {Q : Unit → Draft → Prop} (h : Makes L x d fun _ d' => Q () d') : Makes L (Functor.discard x) d Q := by
  rw [discard_eq]
  exact h.andThen fun _ _ hq => pure hq

theorem get {f : Compiler → Compile β} {Q : β → Draft → Prop} (h : ∀ s, s.fn = d → Makes L (f s) d Q) :
    Makes L (MonadState.get >>= f) d Q := fun s hs => h s hs s hs

theorem ofFn {g : Draft → α} {f : α → Compile β} {Q : β → Draft → Prop} (h : Makes L (f (g d)) d Q) :
    Makes L (Compile.ofFn g >>= f) d Q := by
  have hg : Makes L (Compile.ofFn g) d fun a d' => a = g d ∧ d' = d :=
    get fun s hs => pure ⟨by rw [hs], rfl⟩
  refine hg.andThen ?_
  rintro _ _ ⟨rfl, rfl⟩
  exact h

theorem modifyFn {g : Draft → Draft} {Q : Unit → Draft → Prop} (h : Q () (g d)) : Makes L (modifyFn g) d Q := by
  intro s hs
  exact ⟨rfl, by rw [← hs] at h; exact h⟩

theorem failNear {Q : α → Draft → Prop} {e : CompileFault} (he : e.isLimit = true) (h : L) : Makes L (failNear e) d Q :=
  fun _ _ => .inl ⟨he, h⟩

theorem failLimit {Q : α → Draft → Prop} {what : Limited} {n : Nat} (h : L) : Makes L (failLimit what n) d Q :=
  get fun _ _ => failNear rfl h

theorem demand {rule : RegisterRule} {keeps : Draft → Bool} {Q : Unit → Draft → Prop} (h : Q () d) :
    Makes L (Compile.demand rule keeps) d Q := by
  refine get fun s hs => ?_
  subst hs
  cases keeps s.fn with
  | true => exact pure h
  | false => exact fun _ _ => .inr ⟨rule, rfl⟩

theorem demanding {rule : RegisterRule} {keeps : Draft → Bool} {f : Unit → Compile β} {Q : β → Draft → Prop}
    (h : Makes L (f ()) d Q) : Makes L (Compile.demand rule keeps >>= f) d Q := by
  refine (demand rfl : Makes L (Compile.demand rule keeps) d fun _ d' => d' = d).andThen ?_
  rintro _ _ rfl
  exact h

/-! ## 2. Steps that write code -/

theorem emit {i : Instr} (h : d.here = []) :
    Makes L (Compile.emit i) d fun pc d' => pc = d.pc ∧ ∃ line, d' = d.push i line := by
  have hd : { d with here := [] } = d := by rw [← h]
  have haim : Makes L Compile.aimHere d fun _ d' => d' = d := by
    refine get fun s hs => ?_
    subst hs
    refine (modifyFn rfl : Makes L (Compile.modifyFn _) s.fn fun _ d' => d' = { s.fn with here := [] }).andThen ?_
    rintro _ _ rfl
    rw [h, hd]
    exact pure rfl
  refine haim.andThen ?_
  rintro _ _ rfl
  refine get fun s hs => ?_
  subst hs
  refine (modifyFn rfl : Makes L (Compile.modifyFn _) s.fn fun _ d' => d' = s.fn.push i s.lastLine).andThen ?_
  rintro _ _ rfl
  exact pure ⟨rfl, _, rfl⟩

theorem fixLine (line : Nat) : Makes L (Compile.fixLine line) d fun _ d' => ∃ lines, d' = { d with lines := lines } :=
  modifyFn ⟨_, rfl⟩

theorem addConstant (c : Constant) (hr : d.Roomy) (hl : Instr.maxAx < d.constants.size → L) :
    Makes L (Compile.addConstant c) d fun k d' => ∃ ks, d' = { d with constants := ks } ∧
      ks[k]? = some c ∧ (∀ (k : Nat) (c : Constant), d.constants[k]? = some c → ks[k]? = some c) ∧
      ks.size ≤ Instr.maxAx + 1 ∧ ks.size ≤ d.constants.size + 1 := by
  refine get fun s hs => ?_
  subst hs
  dsimp only
  split
  · next k hk =>
    refine pure ⟨_, rfl, ?_, fun _ _ => id, hr.constants, Nat.le_succ _⟩
    obtain ⟨j, hj, rfl⟩ := Option.map_eq_some_iff.mp hk
    have := (Array.finIdxOf?_eq_some_iff.mp hj).1
    rw [Array.getElem?_eq_getElem j.isLt]
    exact congrArg some this
  · split
    · next hmax => exact failLimit (hl hmax)
    · next hmax =>
      refine (modifyFn rfl : Makes L (Compile.modifyFn _) s.fn fun _ d' =>
        d' = { s.fn with constants := s.fn.constants.push c }).andThen ?_
      rintro _ _ rfl
      refine pure ⟨_, rfl, by simp, fun k c hk => ?_, ?_, Nat.le_of_eq (Array.size_push ..)⟩
      · have := (Array.getElem?_eq_some_iff.mp hk).1
        rw [Array.getElem?_push, if_neg (by omega)]
        exact hk
      · rw [Array.size_push]
        omega

theorem reserve (hr : d.Roomy) (hl : 254 ≤ d.free → L) :
    Makes L (Compile.reserve 1) d fun _ d' => d.free < 254 ∧
      ∃ high, d' = { d with maxStack := high, free := d.free + 1 } ∧ d'.Roomy := by
  have hcheck : Makes L (Compile.checkStack 1) d fun _ d' => d.free < 254 ∧
      ∃ high, d' = { d with maxStack := high } ∧ d.free + 1 ≤ high ∧ high ≤ 254 := by
    refine get fun s hs => ?_
    subst hs
    have hstack := hr.stack
    dsimp only
    split
    · split
      · next hfull => exact failNear rfl (hl (Nat.le_of_succ_le_succ hfull))
      · next hfull =>
        simp only [maxRegisters] at hfull
        exact modifyFn ⟨by omega, _, rfl, Nat.le_refl _, by omega⟩
    · next hfits => exact pure ⟨by omega, s.fn.maxStack, rfl, Nat.le_of_not_lt hfits, hstack⟩
  refine hcheck.andThen ?_
  rintro _ _ ⟨hlt, high, rfl, hlow, hhigh⟩
  exact modifyFn ⟨hlt, high, rfl, Nat.le_succ_of_le hr.active, hlow, hhigh, hr.constants⟩

theorem freeRegister (reg : Nat) :
    Makes L (Compile.freeRegister reg) d fun _ d' => d' = { d with free := d.free - Operand.cost d.active reg } := by
  refine get fun s hs => ?_
  subst hs
  unfold Operand.cost
  split
  · exact demanding (modifyFn rfl)
  · exact pure rfl

theorem topRegister {f : Nat → Compile β} {Q : β → Draft → Prop} (h : Makes L (f (d.free - 1)) d Q) :
    Makes L (Compile.topRegister >>= f) d Q := by
  have htop : Makes L Compile.topRegister d fun reg d' => reg = d.free - 1 ∧ d' = d := by
    refine demanding (get fun s hs => pure ?_)
    rw [hs]
    exact ⟨rfl, rfl⟩
  refine htop.andThen ?_
  rintro _ _ ⟨rfl, rfl⟩
  exact h

theorem freeRegisters (r1 r2 : Nat) :
    Makes L (Compile.freeRegisters r1 r2) d fun _ d' =>
      d' = { d with free := d.free - (Operand.cost d.active r1 + Operand.cost d.active r2) } := by
  have hboth : ∀ r r', Makes L (do Compile.freeRegister r; Compile.freeRegister r') d fun _ d' =>
      d' = { d with free := d.free - (Operand.cost d.active r + Operand.cost d.active r') } := fun r r' => by
    refine (freeRegister r).andThen ?_
    rintro _ _ rfl
    refine (freeRegister r').imp ?_
    rintro _ _ rfl
    simp only [Nat.sub_add_eq]
  unfold Compile.freeRegisters
  split
  · exact hboth r1 r2
  · rw [Nat.add_comm]
    exact hboth r2 r1

end Makes

/-! ## 3. Steps that take tokens -/

namespace Passes

variable {L : Prop} {x : Compile α} {f : α → Compile β} {ts rest : List Token} {t : Token} {d : Draft}

theorem imp {Q Q' : α → List Token → Draft → Prop} (h : Passes L x ts d Q) (hQ : ∀ a ts' d', Q a ts' d' → Q' a ts' d') :
    Passes L x ts d Q' := by
  intro s hs hd
  have hx := h s hs hd
  split at hx
  · exact hQ _ _ _ hx
  · exact hx

theorem andThen {P : α → List Token → Draft → Prop} {Q : β → List Token → Draft → Prop} (h : Passes L x ts d P)
    (hf : ∀ a ts' d', P a ts' d' → Passes L (f a) ts' d' Q) : Passes L (x >>= f) ts d Q := by
  intro s hs hd
  have hx := h s hs hd
  show match (x s >>= fun v => f v.1 v.2) with
    | .ok (b, s') => Q b s'.tokens s'.fn
    | .error e => e.Allowed L
  cases hr : x s with
  | error e =>
    rw [hr] at hx
    exact hx
  | ok v =>
    rw [hr] at hx
    exact hf v.1 _ _ hx v.2 rfl rfl

theorem bind {Q : β → List Token → Draft → Prop} (h : Passes L x ts d fun a ts' d' => Passes L (f a) ts' d' Q) :
    Passes L (x >>= f) ts d Q := h.andThen fun _ _ _ => id

theorem pure {Q : α → List Token → Draft → Prop} {a : α} (h : Q a ts d) : Passes L (Pure.pure a) ts d Q := by
  intro s hs hd
  show Q a s.tokens s.fn
  rw [hs, hd]
  exact h

theorem failNear {Q : α → List Token → Draft → Prop} {e : CompileFault} (he : e.isLimit = true) (h : L) :
    Passes L (failNear e) ts d Q := fun _ _ _ => .inl ⟨he, h⟩

theorem get {f : Compiler → Compile β} {Q : β → List Token → Draft → Prop}
    (h : ∀ s, s.tokens = ts → s.fn = d → Passes L (f s) ts d Q) : Passes L (MonadState.get >>= f) ts d Q :=
  fun s hs hd => h s hs hd s hs hd

theorem ofMakes {P : α → Draft → Prop} {Q : α → List Token → Draft → Prop} (h : Makes L x d P)
    (hq : ∀ a d', P a d' → Q a ts d') : Passes L x ts d Q := by
  intro s hs hd
  have hx := h s hd
  split at hx
  · next a s' _ =>
    have htokens : s'.tokens = ts := by
      rw [hx.1]
      exact hs
    rw [htokens]
    exact hq a s'.fn hx.2
  · exact hx

theorem write {P : α → Draft → Prop} {Q : β → List Token → Draft → Prop} (h : Makes L x d P)
    (hf : ∀ a d', P a d' → Passes L (f a) ts d' Q) : Passes L (x >>= f) ts d Q := bind (ofMakes h hf)

theorem token {f : Token → Compile β} {Q : β → List Token → Draft → Prop} (h : Passes L (f t) (t :: rest) d Q) :
    Passes L (Compile.token >>= f) (t :: rest) d Q := by
  refine bind (get fun s hs _ => pure ?_)
  have : s.current.token = t := (List.cons.inj hs).1
  rw [this]
  exact h

theorem line {f : Nat → Compile β} {Q : β → List Token → Draft → Prop} (h : ∀ n, Passes L (f n) ts d Q) :
    Passes L (Compile.line >>= f) ts d Q :=
  bind (get fun _ _ _ => pure (h _))

theorem next {f : Unit → Compile β} {Q : β → List Token → Draft → Prop} (hne : rest ≠ [])
    (h : Passes L (f ()) rest d Q) : Passes L (Compile.next >>= f) (t :: rest) d Q := by
  refine andThen (P := fun _ ts' d' => ts' = rest ∧ d' = d) ?_ (by rintro _ _ _ ⟨rfl, rfl⟩; exact h)
  intro s hs hd
  have hrest : s.ahead.map (·.token) = rest := (List.cons.inj hs).2
  cases ha : s.ahead with
  | nil =>
    rw [ha] at hrest
    exact absurd hrest.symm hne
  | cons y more =>
    have hx : Compile.next s = .ok ((), { s with current := y, ahead := more, lastLine := s.current.line }) := by
      simp only [Compile.next, Bind.bind, StateT.bind, MonadState.get, getThe, MonadStateOf.get, StateT.get,
        Pure.pure, Except.pure, Except.bind, ha]
      rfl
    rw [hx]
    refine ⟨?_, hd⟩
    rw [← hrest, ha]
    rfl

theorem testNext_pass {f : Bool → Compile β} {Q : β → List Token → Draft → Prop} (hne : rest ≠ [])
    (h : Passes L (f true) rest d Q) : Passes L (Compile.testNext t >>= f) (t :: rest) d Q := by
  refine bind (token ?_)
  rw [if_pos rfl]
  exact next hne (pure h)

theorem testNext_stays {t' : Token} {Q : Bool → List Token → Draft → Prop} (hne : t ≠ t')
    (h : Q false (t :: rest) d) : Passes L (Compile.testNext t') (t :: rest) d Q := by
  refine token ?_
  rw [if_neg hne]
  exact pure h

theorem testNext_stay {t' : Token} {f : Bool → Compile β} {Q : β → List Token → Draft → Prop} (hne : t ≠ t')
    (h : Passes L (f false) (t :: rest) d Q) : Passes L (Compile.testNext t' >>= f) (t :: rest) d Q :=
  bind (testNext_stays hne h)

theorem discard {Q : Unit → List Token → Draft → Prop} (h : Passes L x ts d fun _ ts' d' => Q () ts' d') :
    Passes L (Functor.discard x) ts d Q := by
  rw [discard_eq]
  exact h.andThen fun _ _ _ hq => pure hq

theorem checkMatch {opener : Token} {n : Nat} {f : Unit → Compile β} {Q : β → List Token → Draft → Prop}
    (hne : rest ≠ []) (h : Passes L (f ()) rest d Q) :
    Passes L (Compile.checkMatch t opener n >>= f) (t :: rest) d Q :=
  bind (testNext_pass hne (pure h))

end Passes

end Compile

end LuaMachine
