/-
  EXPRESSIONS HOLD THE REGISTERS ON TOP, whatever they are made of. What is nested in one is read on top of
  what it holds so far.
-/
import LuaMachine.Proofs.Registers.Scope

namespace LuaMachine

structure Grammar.Disciplined (g : Grammar) : Prop where
  statement : ∀ {d : Draft}, d.registers.Sound → d.free = d.active → Compile.Orderly g.statement d fun _ d' =>
    d.registers.Follows d'.registers ∧ d'.free = d'.active
  subexpr : ∀ {limit : Nat} {d : Draft}, d.registers.Sound → d.active ≤ d.free →
    Compile.Orderly (g.subexpr limit) d fun r d' => d.registers.Stays d'.registers ∧ r.1.place.Rests d' d.free
  name : g.name = Compile.named

namespace Grammar

open Compile.Orderly Registers

variable {g : Grammar} {d : Draft} {base : Nat} {e : Expr}

/-! ## 1. Lists -/

theorem Disciplined.expr (hg : g.Disciplined) (hs : d.registers.Sound) (hb : d.active ≤ d.free) :
    Compile.Orderly g.expr d fun e d' => d.registers.Stays d'.registers ∧ e.place.Rests d' d.free :=
  (hg.subexpr hs hb).andThen fun _ _ h => pure h

/-- **Statements** follow each other in a block. -/
theorem Disciplined.statements {r : Registers} (hg : g.Disciplined) (h : r.Inside d.registers) :
    Compile.Orderly g.statements d fun _ d' => r.Inside d'.registers := by
  unfold Grammar.statements
  generalize g.bound = n
  induction n generalizing d with
  | zero => exact failNear rfl
  | succ n ih =>
    refine read atBlockEnd fun atEnd => ?_
    split
    · exact pure h
    · refine read token fun t => (hg.statement h.sound h.free).andThen fun _ d1 h1 => ?_
      have hinside := h.follow h1.1 h1.2
      split
      · exact pure hinside
      · exact ih hinside

theorem Disciplined.exprsFrom (hg : g.Disciplined) (n : Nat) {count : Nat} (hs : d.registers.Sound) (hb : d.active ≤ base)
    (he : e.place.Rests d base) :
    Compile.Orderly (g.exprsFrom n count e) d fun r d' => d.registers.Stays d'.registers ∧ count ≤ r.1 ∧
      r.2.place.Rests d' (base + (r.1 - count)) := by
  induction n generalizing d base count e with
  | zero => exact failNear rfl
  | succ n ih =>
    refine read testNext fun more => ?_
    split
    · refine (toNextRegister hs he).dropThen fun _ d1 h1 => ?_
      have hb1 : d1.active ≤ d1.free := by
        have : d1.active = d.active := h1.2.1.active
        omega
      refine (hg.expr h1.2.1.sound hb1).andThen fun e2 d2 h2 => ?_
      have hb2 : d2.active ≤ d1.free := Nat.le_trans (Nat.le_of_eq h2.1.active) hb1
      refine (ih h2.1.sound hb2 h2.2).imp fun r d3 h3 => ⟨(h1.2.1.trans h2.1).trans h3.1, by omega, ?_⟩
      have : base + (r.1 - count) = d1.free + (r.1 - (count + 1)) := by omega
      rw [this]
      exact h3.2.2
    · exact pure ⟨hs.stays, Nat.le_refl _, by rw [Nat.sub_self]; exact he⟩

/-- **A list of expressions**: the values lie one above the other. -/
theorem Disciplined.exprs (hg : g.Disciplined) (hs : d.registers.Sound) (hb : d.active ≤ d.free) :
    Compile.Orderly g.exprs d fun r d' => d.registers.Stays d'.registers ∧ 1 ≤ r.1 ∧
      r.2.place.Rests d' (d.free + (r.1 - 1)) := by
  refine (hg.expr hs hb).andThen fun e d1 h1 => ?_
  have hb1 : d1.active ≤ d.free := Nat.le_trans (Nat.le_of_eq h1.1.active) hb
  exact (hg.exprsFrom _ h1.1.sound hb1 h1.2).imp fun r d2 h2 => ⟨h1.1.trans h2.1, h2.2⟩

/-! ## 2. Names, fields and constructors -/

theorem nameConstant_orderly : Compile.Orderly nameConstant d fun e d' =>
    d'.registers = d.registers ∧ d'.code = d.code ∧ ∃ k, e = .plain (.constant k) :=
  read checkName fun _ => (addConstant _).andThen fun k _ h => pure ⟨h.1, h.2, k, rfl⟩

/-- **A field** of what an expression denotes. -/
theorem field_orderly (hs : d.registers.Sound) (hb : d.active ≤ base) (he : e.place.Rests d base) :
    Compile.Orderly (field e) d fun e' d' =>
      d.registers.Stays d'.registers ∧ e'.place.Rests d' base ∧ e'.place.isVariable := by
  refine (toRegisterOrUpvalue hs hb he).andThen fun t d1 h1 => read next fun _ => ?_
  refine nameConstant_orderly.andThen fun key d2 h2 => ?_
  obtain ⟨hregisters, -, k, rfl⟩ := h2
  have hactive : d2.active = d1.active := congrArg Registers.active hregisters
  have hfree : d2.free = d1.free := congrArg Registers.free hregisters
  have hb2 : d2.active ≤ base := by
    have : d1.active = d.active := h1.1.active
    omega
  refine (indexed (hregisters ▸ h1.1.sound) hb2 (by rw [hactive]; exact h1.2)
    (Place.rests_constant hfree)).imp fun e' d3 h3 => ?_
  exact ⟨h1.1.trans (hregisters ▸ h3.1), h3.2⟩

theorem Disciplined.bracketKey (hg : g.Disciplined) (hs : d.registers.Sound) (hb : d.active ≤ d.free) :
    Compile.Orderly g.bracketKey d fun e d' => d.registers.Stays d'.registers ∧ e.place.Rests d' d.free := by
  refine read next fun _ => (hg.expr hs hb).andThen fun e d1 h1 => ?_
  have hb1 : d1.active ≤ d.free := Nat.le_trans (Nat.le_of_eq h1.1.active) hb
  refine (toValue h1.1.sound hb1 h1.2).andThen fun e' d2 h2 => read checkNext fun _ => ?_
  exact pure ⟨h1.1.trans h2.1, h2.2.1⟩

/-- The list items of a constructor that have not been stored lie above the table; the last of them may
    still have to be brought there. -/
structure Items.Lie (table : Nat) (x : Items) (d : Draft) : Prop where
  register : x.table = table
  last : (x.last.place = .void ∧ d.free = table + 1 + x.gathered) ∨
    ∃ n, x.gathered = n + 1 ∧ x.last.place.Rests d (table + 1 + n)

theorem Items.Lie.le {table : Nat} {x : Items} (h : Items.Lie table x d) : table + 1 ≤ d.free := by
  rcases h.last with ⟨-, hfree⟩ | ⟨n, -, hrests⟩
  · omega
  · have := hrests.le
    omega

/-- **A keyed item** leaves no register taken. -/
theorem Disciplined.keyedItem {x : Items} (hg : g.Disciplined) (hs : d.registers.Sound) (hb : d.active ≤ d.free) :
    Compile.Orderly (g.keyedItem x) d fun y d' =>
      d.registers.Stays d'.registers ∧ d'.free = d.free ∧ y = { x with keyed := x.keyed + 1 } := by
  refine get fun s hfn => ?_
  extract_lets free store
  have hfree : free = d.free := congrArg Draft.free hfn
  refine read token fun t => ?_
  have hstore : ∀ key d1, d.registers.Stays d1.registers → key.place.Rests d1 d.free →
      Compile.Orderly (store key) d1 fun y d' =>
        d.registers.Stays d'.registers ∧ d'.free = d.free ∧ y = { x with keyed := x.keyed + 1 } := by
    intro key d1 hstays1 hkey
    have hb1 : d1.active ≤ d.free := Nat.le_trans (Nat.le_of_eq hstays1.active) hb
    refine read checkNext fun _ => (toOperand hstays1.sound hb1 hkey).andThen fun k d2 h2 => ?_
    have hle2 := h2.2.le
    have hb2 : d2.active ≤ d2.free := Nat.le_trans (Nat.le_trans (Nat.le_of_eq h2.1.active) hb1) hle2
    refine (hg.expr h2.1.sound hb2).andThen fun e d3 h3 => ?_
    have hb3 : d3.active ≤ d2.free := Nat.le_trans (Nat.le_of_eq h3.1.active) hb2
    refine (toOperand h3.1.sound hb3 h3.2).andThen fun v d4 h4 => (emitABC _ _ _ _).dropThen fun _ d5 h5 => ?_
    have hstays4 := hstays1.trans (h2.1.trans (h3.1.trans h4.1))
    refine bind (modifyFn rfl (pure ⟨hstays4.lower (n := free) ?_ ?_, hfree, rfl⟩))
    · rw [← h5.1]
      rfl
    · rw [hfree]
      exact Nat.le_trans hle2 h4.2.le
  split
  · refine nameConstant_orderly.andThen fun key d1 h1 => ?_
    obtain ⟨hregisters, -, k, rfl⟩ := h1
    exact hstore _ d1 (hregisters ▸ hs.stays) (Place.rests_constant (congrArg Registers.free hregisters))
  · exact (hg.bracketKey hs hb).andThen fun key d1 h1 => hstore key d1 h1.1 h1.2

/-- **The last list item is brought into a register**; a full set of items is stored. -/
theorem flushItem_orderly {table : Nat} {x : Items} (hs : d.registers.Sound) (hx : Items.Lie table x d) :
    Compile.Orderly (flushItem x) d fun y d' =>
      d.registers.Stays d'.registers ∧ Items.Lie table y d' ∧ y.last.place = .void := by
  unfold flushItem
  split
  · next hp => exact pure ⟨hs.stays, hx, hp⟩
  · next hp =>
    obtain ⟨n, hn, hrests⟩ := hx.last.resolve_left fun h => hp h.1
    refine (toNextRegister hs hrests).dropThen fun _ d1 h1 => ?_
    obtain ⟨-, hstays1, hfree1⟩ := h1
    extract_lets y
    have hfull : d1.free = table + 1 + x.gathered := by omega
    split
    · have ht : y.table + 1 ≤ d1.free := by
        have : y.table = table := hx.register
        omega
      refine (setList hstays1.sound ht).andThen fun _ d2 h2 => pure ⟨hstays1.trans h2.1, ⟨hx.register, .inl ⟨rfl, ?_⟩⟩, rfl⟩
      exact h2.2.trans (congrArg (· + 1) hx.register)
    · exact pure ⟨hstays1, ⟨hx.register, .inl ⟨rfl, hfull⟩⟩, rfl⟩

/-- **The list items that are left are stored**; only the table is left. -/
theorem flushLast_orderly {table : Nat} {x : Items} (hs : d.registers.Sound) (hx : Items.Lie table x d) :
    Compile.Orderly (flushLast x) d fun _ d' => d.registers.Stays d'.registers ∧ d'.free = table + 1 := by
  have hstore : ∀ {gathered d1}, d.registers.Stays d1.registers → table + 1 ≤ d1.free →
      Compile.Orderly (Compile.setList x.table x.listed gathered) d1 fun _ d' =>
        d.registers.Stays d'.registers ∧ d'.free = table + 1 := by
    intro gathered d1 hstays1 hle
    rw [← hx.register] at hle ⊢
    exact (setList hstays1.sound hle).imp fun _ _ h => ⟨hstays1.trans h.1, h.2⟩
  unfold flushLast
  split
  · next hnone =>
    refine pure ⟨hs.stays, ?_⟩
    rcases hx.last with ⟨-, hfree⟩ | ⟨n, hn, -⟩ <;> omega
  · split
    · next hm =>
      have hrests : ∃ b, table + 1 ≤ b ∧ x.last.place.Rests d b := by
        rcases hx.last with ⟨hp, -⟩ | ⟨n, -, hrests⟩
        · rw [hp] at hm
          exact nomatch hm
        · exact ⟨_, Nat.le_add_right _ n, hrests⟩
      obtain ⟨b, hle, hb⟩ := hrests
      refine (setReturns hs hb hm).andThen fun _ d1 h1 => ?_
      exact (hstore h1.1 (by omega)).andThen fun _ d2 h2 => pure h2
    · split
      · next hp =>
        obtain ⟨n, -, hrests⟩ := hx.last.resolve_left fun h => hp h.1
        refine (toNextRegister hs hrests).dropThen fun _ d1 h1 => ?_
        exact (hstore h1.2.1 (by omega)).andThen fun _ d2 h2 => pure h2
      · exact (hstore hs.stays hx.le).andThen fun _ d2 h2 => pure h2

/-- **An item** of either kind, once the one before is in its register. -/
theorem Disciplined.item {table : Nat} {x : Items} (hg : g.Disciplined) (hs : d.registers.Sound) (hb : d.active ≤ d.free)
    (hx : Items.Lie table x d) (hlast : x.last.place = .void) :
    Compile.Orderly (g.item x) d fun y d' => d.registers.Stays d'.registers ∧ Items.Lie table y d' := by
  have hfree : d.free = table + 1 + x.gathered := by
    rcases hx.last with ⟨-, hfree⟩ | ⟨n, -, hrests⟩
    · exact hfree
    · exact absurd hlast hrests.ne_void
  have hkeyed : Compile.Orderly (g.keyedItem x) d fun y d' => d.registers.Stays d'.registers ∧ Items.Lie table y d' := by
    refine (hg.keyedItem hs hb).imp ?_
    rintro _ d' ⟨hstays, hsame, rfl⟩
    exact ⟨hstays, hx.register, .inl ⟨hlast, hsame.trans hfree⟩⟩
  have hlisted : Compile.Orderly (g.listItem x) d fun y d' => d.registers.Stays d'.registers ∧ Items.Lie table y d' := by
    refine (hg.expr hs hb).andThen fun e d1 h1 => pure ⟨h1.1, hx.register, .inr ⟨x.gathered, rfl, ?_⟩⟩
    rw [← hfree]
    exact h1.2
  refine read token fun t => ?_
  split
  · refine read peek fun _ => ?_
    split
    · exact hkeyed
    · exact hlisted
  · exact hkeyed
  · exact hlisted

theorem Disciplined.itemsFrom {table : Nat} (hg : g.Disciplined) (n : Nat) {x : Items} (hs : d.registers.Sound)
    (hb : d.active ≤ table) (hx : Items.Lie table x d) :
    Compile.Orderly (g.itemsFrom n x) d fun y d' => d.registers.Stays d'.registers ∧ Items.Lie table y d' := by
  induction n generalizing d x with
  | zero => exact failNear rfl
  | succ n ih =>
    refine read token fun t => ?_
    split
    · exact pure ⟨hs.stays, hx⟩
    · refine (flushItem_orderly hs hx).andThen fun y d1 h1 => ?_
      have hactive1 : d1.active = d.active := h1.1.active
      have hle1 := h1.2.1.le
      refine (hg.item h1.1.sound (by omega) h1.2.1 h1.2.2).andThen fun z d2 h2 => ?_
      have hstays2 := h1.1.trans h2.1
      have hrest : Compile.Orderly (g.itemsFrom n z) d2 fun y d' =>
          d.registers.Stays d'.registers ∧ Items.Lie table y d' := by
        refine (ih h2.1.sound ?_ h2.2).imp fun y d3 h3 => ⟨hstays2.trans h3.1, h3.2⟩
        exact Nat.le_trans (Nat.le_of_eq hstays2.active) hb
      refine read testNext fun more => ?_
      split
      · exact hrest
      · refine read testNext fun more => ?_
        split
        · exact hrest
        · exact pure ⟨hstays2, h2.2⟩

/-- **A table constructor** leaves the table. -/
theorem Disciplined.constructor' (hg : g.Disciplined) (hs : d.registers.Sound) (hb : d.active ≤ d.free) :
    Compile.Orderly g.constructor' d fun e d' => d.registers.Stays d'.registers ∧ e.place.Rests d' d.free := by
  refine read line fun line => (emitABC _ _ _ _).andThen fun pc d1 h1 => ?_
  have hfree1 : d1.free = d.free := congrArg Registers.free h1.1
  have hrests : (Expr.plain (.pending pc)).place.Rests d1 d.free := by
    refine ⟨hfree1, fun hconcat => ?_⟩
    rw [h1.2, Instr.opcode_ofABC] at hconcat
    cases hconcat
  refine (toNextRegister (h1.1 ▸ hs) hrests).andThen fun table d2 h2 => read checkNext fun _ => ?_
  obtain ⟨rfl, hstays2, hfree2⟩ := h2
  rw [h1.1] at hstays2
  have hb2 : d2.active ≤ d.free := Nat.le_trans (Nat.le_of_eq hstays2.active) hb
  have hstart : Items.Lie d.free ⟨.plain .void, d.free, 0, 0, 0⟩ d2 := ⟨rfl, .inl ⟨rfl, hfree2⟩⟩
  refine (hg.itemsFrom _ hstays2.sound hb2 hstart).andThen fun x d3 h3 => read checkMatch fun _ => ?_
  refine (flushLast_orderly h3.1.sound h3.2).andThen fun y d4 h4 => bind (modifyFn rfl (pure ⟨?_, ?_⟩))
  · exact hstays2.trans (h3.1.trans h4.1)
  · have hactive : d4.active = d2.active := (h3.1.trans h4.1).active
    exact .inr ⟨rfl, h4.2, Nat.le_trans (Nat.le_of_eq hactive) hb2⟩

/-! ## 3. Functions -/

theorem parametersFrom_orderly (n count : Nat) :
    Compile.Orderly (parametersFrom n count) d fun _ d' => d'.registers = d.registers := by
  induction n generalizing d count with
  | zero => exact failNear rfl
  | succ n ih =>
    refine read token fun t => ?_
    split
    · refine read checkName fun name => (declare name).andThen fun _ d1 h1 => read testNext fun more => ?_
      split
      · exact (ih _).imp fun _ d2 h2 => h2.trans h1
      · exact pure h1
    · exact read next fun _ => bind (modifyFn rfl (pure rfl))
    · exact failNear rfl

/-- **Parameters** take the first registers. -/
theorem parameters_orderly (hs : d.registers.Sound) (hfree : d.free = 0) :
    Compile.Orderly g.parameters d fun _ d' =>
      d'.registers.levels = d.registers.levels ∧ d'.registers.Sound ∧ d'.free = d'.active := by
  refine read token fun t => ?_
  extract_lets take
  have htake : ∀ count d1, d1.registers = d.registers → Compile.Orderly (take count) d1 fun _ d' =>
      d'.registers.levels = d.registers.levels ∧ d'.registers.Sound ∧ d'.free = d'.active := by
    intro count d1 h1
    refine (activate count).andThen fun _ d2 h2 => bind (modifyFn rfl (get fun s hfn => ?_))
    rw [h1] at h2
    have hlevels : d2.registers.levels = d.registers.levels := by rw [h2]
    have hs2 : d2.registers.Sound := by
      rw [h2]
      exact ⟨hs.free, hs.high⟩
    refine (reserve (d := { d2 with params := d2.active }) hs2 _).imp fun _ d3 h3 =>
      ⟨h3.1.levels.trans hlevels, h3.1.sound, ?_⟩
    · rw [h3.2.1, hfn, show d3.active = d2.active from h3.1.active, show d2.free = d.free from congrArg Registers.free h2, hfree]
      exact Nat.zero_add _
  split
  · exact bind (pure (htake 0 d rfl))
  · exact (parametersFrom_orderly _ _).andThen htake

def Returns {α : Type} (x : Compile α) (parent d : Draft) (Q : α → Draft → Prop) : Prop :=
  ∀ s p outer, s.fn = d → s.outer = p :: outer → parent.Captured p → Linked (s.fn :: s.outer) → match x s with
    | .ok (a, s') => Q a s'.fn ∧ Linked (s'.fn :: s'.outer) ∧ CapturedAll outer s'.outer
    | .error e => e.fault.isBroken = false

theorem Returns.andThen {α β : Type} {x : Compile α} {f : α → Compile β} {parent : Draft} {P : α → Draft → Prop}
    {Q : β → Draft → Prop} (h : Compile.Orderly x d P) (hf : ∀ a d', P a d' → Returns (f a) parent d' Q) :
    Returns (x >>= f) parent d Q := by
  intro s p outer hs ho hc hl
  have hx := h s hs hl
  show match (x s >>= fun v => f v.1 v.2) with
    | .ok (b, s') => Q b s'.fn ∧ Linked (s'.fn :: s'.outer) ∧ CapturedAll outer s'.outer
    | .error e => e.fault.isBroken = false
  cases hr : x s with
  | error e =>
    rw [hr] at hx
    exact hx
  | ok v =>
    rw [hr, ho] at hx
    obtain ⟨hp, hl', hall⟩ := hx
    cases hv : v.2.outer with
    | nil =>
      rw [hv] at hall
      cases hall
    | cons p' outer' =>
      rw [hv] at hall
      cases hall with
      | cons hhead htail =>
        have hy := hf v.1 v.2.fn hp v.2 p' outer' rfl hv (hc.trans hhead) hl'
        show match f v.1 v.2 with
          | .ok (b, s') => Q b s'.fn ∧ Linked (s'.fn :: s'.outer) ∧ CapturedAll outer s'.outer
          | .error e => e.fault.isBroken = false
        split at hy
        · exact ⟨hy.1, hy.2.1, htail.trans hy.2.2⟩
        · exact hy

theorem Returns.read {α β : Type} {x : Compile α} {f : α → Compile β} {parent : Draft} {Q : β → Draft → Prop}
    (h : Reads x) (hf : ∀ a, Returns (f a) parent d Q) : Returns (x >>= f) parent d Q := by
  refine Returns.andThen (h d) ?_
  rintro a _ rfl
  exact hf a

theorem openFunction_orderly {β : Type} {line : Nat} {f : Unit → Compile β} {Q : β → Draft → Prop}
    (h : Returns (Compile.enterBlock false >>= f) d (Draft.new line) Q) :
    Compile.Orderly (openFunction line >>= f) d Q := by
  intro s hs hl
  subst hs
  refine h { s with fn := Draft.new line, outer := s.fn :: s.outer } s.fn s.outer rfl rfl (.refl _) ⟨?_, hl⟩
  exact fun u hu => absurd hu (Array.not_mem_empty u)

/-- **A function is finished**: its closure goes to the next register of the one around. -/
theorem closeFunction_returns {parent : Draft} {r : Registers} (hs : parent.registers.Sound) (h : r.Inside d.registers) :
    Returns closeFunction parent d fun reg d' =>
      reg = parent.free ∧ parent.registers.Stays d'.registers ∧ d'.free = parent.free + 1 := by
  have hclose : Compile.Orderly closeBody d fun _ d' => r.Balanced d'.registers :=
    (emitReturn _ _).andThen fun _ d1 h1 => leaveBlock (h1 ▸ h)
  refine Returns.andThen hclose fun _ d1 _ => ?_
  intro s p outer hfn ho hc hl
  have hregisters := hc.registers
  have hclosure : ∀ proto, Compile.Orderly (do
      let i := p.protos.size
      if Instr.maxBx ≤ i then Compile.failLimit .functions Instr.maxBx
      else
        Compile.modifyFn fun d => { d with protos := d.protos.push proto }
        let pc ← Compile.emitABx .closure 0 i
        Compile.toNextRegister (.plain (.pending pc))) p fun reg d' =>
      reg = parent.free ∧ parent.registers.Stays d'.registers ∧ d'.free = parent.free + 1 := by
    intro proto
    dsimp only
    split
    · exact failLimit
    · refine bind (modifyFn rfl ((emitABx _ _ _).andThen fun pc d2 h2 => ?_))
      have hsame : d2.registers = parent.registers := h2.1.trans hregisters
      have hrests : (Expr.plain (.pending pc)).place.Rests d2 parent.free := by
        refine ⟨congrArg Registers.free hsame, fun hconcat => ?_⟩
        rw [h2.2, Instr.opcode_ofABx] at hconcat
        cases hconcat
      refine (toNextRegister (hsame ▸ hs) hrests).imp fun reg d3 h3 => ?_
      rw [hsame] at h3
      exact h3
  rw [ho] at hl
  have hget : ∀ k : Compiler → Compile Nat, (MonadState.get >>= k) s = k s s := fun _ => rfl
  rw [hget]
  dsimp only
  rw [ho]
  exact hclosure (s.fn.finish s.source) { s with fn := p, outer := outer } rfl hl.tail

/-- **A function** is written without breaking a rule, and takes one register of the one around. -/
theorem Disciplined.functionBody {isMethod : Bool} {line : Nat} (hg : g.Disciplined) (hs : d.registers.Sound) :
    Compile.Orderly (g.functionBody isMethod line) d fun reg d' =>
      reg = d.free ∧ d.registers.Stays d'.registers ∧ d'.free = d.free + 1 := by
  have hnew : (Draft.new line).registers.Balanced (Draft.new line).registers :=
    Sound.balanced ⟨Nat.zero_le 2, Nat.le_add_right 2 252⟩ rfl
  refine openFunction_orderly (Returns.andThen (enterBlock false hnew) fun _ d1 h1 => Returns.read checkNext fun _ => ?_)
  have hfree : d1.free = 0 := h1.1.free.trans h1.2
  extract_lets body
  have hbody : ∀ d2 u, d2.registers.levels = d1.registers.levels → d2.registers.Sound → d2.free = 0 →
      Returns (body u) d d2 fun reg d' => reg = d.free ∧ d.registers.Stays d'.registers ∧ d'.free = d.free + 1 := by
    intro d2 u hl2 hs2 hf2
    refine Returns.andThen (parameters_orderly hs2 hf2) fun _ d3 h3 => Returns.read checkNext fun _ => ?_
    have hinside : (Draft.new line).registers.Inside d3.registers :=
      ⟨h3.1.trans (hl2.trans h1.1.levels), Nat.zero_le _, h3.2.1, h3.2.2⟩
    refine Returns.andThen (hg.statements hinside) fun _ d4 h4 => Returns.read Compile.Orderly.line fun last => ?_
    have hlast : Compile.Orderly (Compile.modifyFn fun d => { d with lastLine := last }) d4 fun _ d' =>
        d'.registers = d4.registers := modifyFn rfl rfl
    refine Returns.andThen hlast fun _ d5 h5 => Returns.read checkMatch fun _ => ?_
    exact closeFunction_returns hs (h5 ▸ h4)
  split
  · refine Returns.andThen (declare _) fun _ d2 h2 => Returns.andThen (activate 1) fun u d3 h3 => ?_
    rw [h2] at h3
    have hfree3 : d3.free = d1.free := congrArg Registers.free h3
    refine hbody d3 u (by rw [h3]) ?_ (hfree3.trans hfree)
    rw [h3]
    exact ⟨h1.1.sound.free, h1.1.sound.high⟩
  · exact hbody d1 () rfl h1.1.sound hfree

/-! ## 4. Calls -/

/-- The last argument of a call is not in a register yet, if there is one; the others lie above the
    function. -/
def Argument (floor : Nat) (e : Expr) (d : Draft) : Prop :=
  floor ≤ d.free ∧ (e.place.isMulti ∨ e.place = .void ∨ ∃ base, floor ≤ base ∧ e.place.Rests d base)

theorem Disciplined.arguments {line : Nat} (hg : g.Disciplined) (hs : d.registers.Sound) (hb : d.active ≤ d.free) :
    Compile.Orderly (g.arguments line) d fun e d' => d.registers.Stays d'.registers ∧ Argument d.free e d' := by
  refine read token fun t => ?_
  split
  · refine read next fun _ => read token fun t => ?_
    extract_lets last
    have hlast : ∀ e d1, d.registers.Stays d1.registers ∧ Argument d.free e d1 → Compile.Orderly (last e) d1 fun e d' =>
        d.registers.Stays d'.registers ∧ Argument d.free e d' := fun e d1 h1 => read checkMatch fun _ => pure h1
    split
    · exact bind (pure (hlast _ d ⟨hs.stays, Nat.le_refl _, .inr (.inl rfl)⟩))
    · refine (hg.exprs hs hb).andThen fun r d1 h1 => ?_
      obtain ⟨hstays1, -, hrests⟩ := h1
      show Compile.Orderly (do Compile.setReturns r.2 none; last (← Pure.pure r.2)) d1 _
      cases hm : r.2.place.isMulti with
      | true =>
        refine (setReturns hstays1.sound hrests hm).andThen fun _ d2 h2 => bind (pure (hlast _ d2 ⟨?_, ?_, .inl hm⟩))
        · exact hstays1.trans h2.1
        · omega
      | false =>
        rw [setReturns_of_single hm, pure_bind]
        have hle := hrests.le
        exact bind (pure (hlast _ d1 ⟨hstays1, by omega, .inr (.inr ⟨_, Nat.le_add_right .., hrests⟩)⟩))
  · refine (hg.constructor' hs hb).imp fun e d' h => ⟨h.1, h.2.le, .inr (.inr ⟨_, Nat.le_refl _, h.2⟩)⟩
  · refine (addConstant _).andThen fun k d1 h1 => read next fun _ => pure ?_
    have hfree : d1.free = d.free := congrArg Registers.free h1.1
    exact ⟨h1.1 ▸ hs.stays, Nat.le_of_eq hfree.symm, .inr (.inr ⟨_, Nat.le_refl _, Place.rests_constant hfree⟩)⟩
  · exact failNear rfl

/-- **A call** gives back the registers of its function and arguments, but for the first, where its first
    result is. -/
theorem Disciplined.call {line : Nat} (hg : g.Disciplined) (hs : d.registers.Sound) (hb : d.active ≤ base)
    (hfree : base + 1 ≤ d.free) :
    Compile.Orderly (g.call base line) d fun e d' => d.registers.Stays d'.registers ∧ e.place.Rests d' base := by
  refine (hg.arguments hs (by omega)).andThen fun args d1 h1 => ?_
  obtain ⟨hstays1, hle1, hargs⟩ := h1
  extract_lets finish settled
  have hfinish : ∀ count d2, d.registers.Stays d2.registers → base + 1 ≤ d2.free → Compile.Orderly (finish count) d2 fun e d' =>
      d.registers.Stays d'.registers ∧ e.place.Rests d' base := by
    intro count d2 hstays2 hle2
    refine (emitABC _ _ _ _).andThen fun pc d3 h3 => (fixLine line).andThen fun _ d4 h4 => ?_
    have hsame : d4.registers = d2.registers := h4.1.trans h3.1
    have hactive : d4.active = d.active := (congrArg Registers.active hsame).trans hstays2.active
    refine bind (modifyFn rfl (pure ⟨hstays2.lower ?_ hle2, ?_, rfl, hactive ▸ hb⟩))
    · rw [← hsame]
      rfl
    · show (d4.instr pc).a.val = base
      have hhigh : d2.free ≤ 254 := Nat.le_trans hstays2.sound.free hstays2.sound.high
      rw [Draft.instr_of_code h4.2, h3.2, Instr.a_ofABC]
      omega
  split
  · exact bind (pure (hfinish _ d1 hstays1 (by omega)))
  · next hm =>
    have hsettled : ∀ u d2, d.registers.Stays d2.registers → base + 1 ≤ d2.free → Compile.Orderly (settled u) d2 fun e d' =>
        d.registers.Stays d'.registers ∧ e.place.Rests d' base := by
      intro u d2 hstays2 hle2
      refine demanding (decide_eq_true hle2) (get fun s hfn => bind (pure (hfinish _ d2 hstays2 hle2)))
    split
    · next hv =>
      obtain ⟨b, hle, hrests⟩ := (hargs.resolve_left hm).resolve_left hv
      refine (toNextRegister hstays1.sound hrests).dropThen fun _ d2 h2 => ?_
      exact hsettled () d2 (hstays1.trans h2.2.1) (by omega)
    · exact hsettled () d1 hstays1 (by omega)

/-! ## 5. Expressions -/

theorem Disciplined.primary (hg : g.Disciplined) (hs : d.registers.Sound) (hb : d.active ≤ d.free) :
    Compile.Orderly g.primary d fun e d' => d.registers.Stays d'.registers ∧ e.place.Rests d' d.free := by
  refine read token fun t => ?_
  split
  · refine read checkName fun name => ?_
    rw [hg.name]
    exact (named hs hb).imp fun e d' h => ⟨h.1, h.2.1⟩
  · refine read Compile.Orderly.line fun _ => read next fun _ => (hg.expr hs hb).andThen fun e d1 h1 => ?_
    refine read checkMatch fun _ => (readVariable h1.1.sound h1.2).imp fun e' d2 h2 => ?_
    exact ⟨h1.1.trans h2.stays, h2.rests⟩
  · exact failNear rfl

theorem Disciplined.suffixesFrom {line : Nat} (hg : g.Disciplined) (n : Nat) (hs : d.registers.Sound) (hb : d.active ≤ base)
    (he : e.place.Rests d base) :
    Compile.Orderly (g.suffixesFrom line n e) d fun e' d' => d.registers.Stays d'.registers ∧ e'.place.Rests d' base := by
  induction n generalizing d e with
  | zero => exact failNear rfl
  | succ n ih =>
    have hrest : ∀ e1 d1, d.registers.Stays d1.registers → e1.place.Rests d1 base →
        Compile.Orderly (g.suffixesFrom line n e1) d1 fun e' d' => d.registers.Stays d'.registers ∧ e'.place.Rests d' base := by
      intro e1 d1 hstays1 h1
      have hb1 : d1.active ≤ base := Nat.le_trans (Nat.le_of_eq hstays1.active) hb
      exact (ih hstays1.sound hb1 h1).imp fun e' d' h => ⟨hstays1.trans h.1, h.2⟩
    have hcall : ∀ d1, d.registers.Stays d1.registers → base + 1 ≤ d1.free → Compile.Orderly (do
        suffixesFrom g line n (← g.call base line)) d1 fun e' d' =>
          d.registers.Stays d'.registers ∧ e'.place.Rests d' base := by
      intro d1 hstays1 hle1
      have hb1 : d1.active ≤ base := Nat.le_trans (Nat.le_of_eq hstays1.active) hb
      refine (hg.call hstays1.sound hb1 hle1).andThen fun e2 d2 h2 => ?_
      exact hrest e2 d2 (hstays1.trans h2.1) h2.2
    have happly : Compile.Orderly (do
        let r ← Compile.toNextRegister e
        suffixesFrom g line n (← g.call r line)) d fun e' d' =>
          d.registers.Stays d'.registers ∧ e'.place.Rests d' base := by
      refine (toNextRegister hs he).andThen ?_
      rintro r d1 ⟨rfl, hstays1, hfree1⟩
      exact hcall d1 hstays1 (Nat.le_of_eq hfree1.symm)
    refine read token fun t => ?_
    split
    · exact (field_orderly hs hb he).andThen fun e1 d1 h1 => hrest e1 d1 h1.1 h1.2.1
    · refine (toRegisterOrUpvalue hs hb he).andThen fun table d1 h1 => ?_
      have hactive1 : d1.active = d.active := h1.1.active
      have hle1 : base ≤ d1.free := Place.IsTable.le h1.2
      refine (hg.bracketKey h1.1.sound (by omega)).andThen fun key d2 h2 => ?_
      have hactive2 : d2.active = d1.active := h2.1.active
      have hb2 : d2.active ≤ base := by omega
      refine (indexed h2.1.sound hb2 (by rw [hactive2]; exact h1.2) h2.2).andThen fun e3 d3 h3 => ?_
      exact hrest e3 d3 (h1.1.trans (h2.1.trans h3.1)) h3.2.1
    · refine read next fun _ => nameConstant_orderly.andThen fun key d1 h1 => ?_
      obtain ⟨hsame, hcode, k, rfl⟩ := h1
      have hactive1 : d1.active = d.active := congrArg Registers.active hsame
      refine (method (hsame ▸ hs) (hactive1 ▸ hb) (Place.Rests.same he hsame hcode)).andThen ?_
      rintro f d2 ⟨hstays2, rfl, hfree2⟩
      rw [hsame] at hstays2
      exact hcall d2 hstays2 (by omega)
    · exact happly
    · exact happly
    · exact happly
    · exact pure ⟨hs.stays, he⟩

theorem Disciplined.suffixed (hg : g.Disciplined) (hs : d.registers.Sound) (hb : d.active ≤ d.free) :
    Compile.Orderly g.suffixed d fun e d' => d.registers.Stays d'.registers ∧ e.place.Rests d' d.free := by
  refine read Compile.Orderly.line fun line => (hg.primary hs hb).andThen fun e d1 h1 => ?_
  have hb1 : d1.active ≤ d.free := Nat.le_trans (Nat.le_of_eq h1.1.active) hb
  exact (hg.suffixesFrom _ h1.1.sound hb1 h1.2).imp fun e' d2 h2 => ⟨h1.1.trans h2.1, h2.2⟩

theorem literal_orderly {p : Place} {r : Registers} (hs : r.Stays d.registers) (hp : p.Rests d base) :
    Compile.Orderly (simple.literal p) d fun e d' => r.Stays d'.registers ∧ e.place.Rests d' base :=
  read next fun _ => pure ⟨hs, hp⟩

theorem Disciplined.simple (hg : g.Disciplined) (hs : d.registers.Sound) (hb : d.active ≤ d.free) :
    Compile.Orderly g.simple d fun e d' => d.registers.Stays d'.registers ∧ e.place.Rests d' d.free := by
  refine read token fun t => ?_
  have hsuffixed := hg.suffixed hs hb
  have hliteral : ∀ p : Place, p.Rests d d.free → Compile.Orderly (simple.literal p) d fun e d' =>
      d.registers.Stays d'.registers ∧ e.place.Rests d' d.free := fun p hp => literal_orderly hs.stays hp
  cases t with
  | float x => exact hliteral (.float x) rfl
  | int i => exact hliteral (.int i) rfl
  | str text =>
    refine (addConstant _).andThen fun k d1 h1 => literal_orderly (h1.1 ▸ hs.stays) ?_
    exact congrArg Registers.free h1.1
  | keyword word =>
    cases word with
    | nil => exact hliteral .nil rfl
    | true => exact hliteral (.bool true) rfl
    | false => exact hliteral (.bool false) rfl
    | function =>
      refine read next fun _ => read Compile.Orderly.line fun line => (hg.functionBody hs).andThen ?_
      rintro reg d1 ⟨rfl, hstays1, hfree1⟩
      exact pure ⟨hstays1, .inr ⟨rfl, hfree1, Nat.le_trans (Nat.le_of_eq hstays1.active) hb⟩⟩
    | _ => exact hsuffixed
  | symbol mark =>
    cases mark with
    | dots =>
      refine get fun s _ => ?_
      split
      · refine (emitABC _ _ _ _).andThen fun pc d1 h1 => literal_orderly (h1.1 ▸ hs.stays) ?_
        refine ⟨congrArg Registers.free h1.1, ?_⟩
        rw [h1.2]
        rfl
      · exact failNear rfl
    | lbrace => exact hg.constructor' hs hb
    | _ => exact hsuffixed
  | _ => exact hsuffixed

theorem Disciplined.operatorsFrom {limit : Nat} {op : Option BinOp} (hg : g.Disciplined) (n : Nat)
    (hs : d.registers.Sound) (hb : d.active ≤ base) (he : e.place.Rests d base) :
    Compile.Orderly (g.operatorsFrom limit n e op) d fun r d' =>
      d.registers.Stays d'.registers ∧ r.1.place.Rests d' base := by
  induction n generalizing d e op with
  | zero => exact failNear rfl
  | succ n ih =>
    cases op with
    | none => exact pure ⟨hs.stays, he⟩
    | some op =>
      unfold Grammar.operatorsFrom
      split
      · exact pure ⟨hs.stays, he⟩
      · refine read Compile.Orderly.line fun line => read next fun _ => ?_
        refine (beforeRight hs hb he).andThen fun e1 d1 h1 => ?_
        have hactive1 : d1.active = d.active := h1.1.active
        have hle1 := h1.2.le
        refine (hg.subexpr h1.1.sound (by omega)).andThen fun r d2 h2 => ?_
        have hactive2 : d2.active = d1.active := h2.1.active
        have hb2 : d2.active ≤ base := by omega
        refine (afterRight h2.1.sound hb2 (by rw [hactive2]; exact h1.2) h2.2).andThen fun e3 d3 h3 => ?_
        have hstays3 := h1.1.trans (h2.1.trans h3.1)
        refine (ih h3.1.sound (Nat.le_trans (Nat.le_of_eq hstays3.active) hb) h3.2).imp fun r' d4 h4 => ?_
        exact ⟨hstays3.trans h4.1, h4.2⟩

/-- **An expression**, if what is nested in it is read well. -/
theorem Disciplined.expressionBody {limit : Nat} (hg : g.Disciplined) (hs : d.registers.Sound) (hb : d.active ≤ d.free) :
    Compile.Orderly (g.expressionBody limit) d fun r d' =>
      d.registers.Stays d'.registers ∧ r.1.place.Rests d' d.free := by
  refine read token fun t => ?_
  extract_lets operators
  have hoperators : ∀ e d1, d.registers.Stays d1.registers ∧ e.place.Rests d1 d.free → Compile.Orderly (operators e) d1
      fun r d' => d.registers.Stays d'.registers ∧ r.1.place.Rests d' d.free := by
    intro e d1 h1
    have hb1 : d1.active ≤ d.free := Nat.le_trans (Nat.le_of_eq h1.1.active) hb
    refine read token fun t => (hg.operatorsFrom _ h1.1.sound hb1 h1.2).imp fun r d2 h2 => ?_
    exact ⟨h1.1.trans h2.1, h2.2⟩
  split
  · refine read Compile.Orderly.line fun line => read next fun _ => (hg.subexpr hs hb).andThen fun r d1 h1 => ?_
    have hb1 : d1.active ≤ d.free := Nat.le_trans (Nat.le_of_eq h1.1.active) hb
    refine (unary h1.1.sound hb1 h1.2).andThen fun e d2 h2 => hoperators e d2 ⟨h1.1.trans h2.1, h2.2⟩
  · exact (hg.simple hs hb).andThen hoperators

end Grammar

end LuaMachine
