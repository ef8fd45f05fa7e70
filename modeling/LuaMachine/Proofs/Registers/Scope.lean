/-
  NAMES AND BLOCKS. A name stands for a local, which holds its register itself, or for what holds none; a
  block that is left gives back the registers of its locals.
-/
import LuaMachine.Proofs.Compiler.Block
import LuaMachine.Proofs.Registers.Operator

namespace LuaMachine

namespace Registers

/-- What a statement leaves of the registers: the blocks are the same, locals may have come, and all of them
    hold registers. -/
structure Follows (r r' : Registers) : Prop where
  levels : r'.levels = r.levels
  active : r.active ≤ r'.active
  sound : r'.Sound
  held : r'.active ≤ r'.free

structure Balanced (r r' : Registers) : Prop extends r.Stays r' where
  free : r'.free = r.active

structure Inside (r r' : Registers) : Prop where
  levels : r'.levels = r.active :: r.levels
  active : r.active ≤ r'.active
  sound : r'.Sound
  free : r'.free = r'.active

variable {r r' r'' : Registers}

theorem Sound.balanced (h : r.Sound) (hfree : r.free = r.active) : r.Balanced r := ⟨h.stays, hfree⟩

theorem Balanced.even (h : r.Balanced r') : r'.free = r'.active := h.free.trans h.active.symm

theorem Balanced.trans (h : r.Balanced r') (h' : r'.Balanced r'') : r.Balanced r'' :=
  ⟨h.toStays.trans h'.toStays, h'.free.trans h.active⟩

theorem Balanced.follows (h : r.Balanced r') : r.Follows r' :=
  ⟨h.levels, Nat.le_of_eq h.active.symm, h.sound, Nat.le_of_eq h.even.symm⟩

theorem Follows.trans (h : r.Follows r') (h' : r'.Follows r'') : r.Follows r'' :=
  ⟨h'.levels.trans h.levels, Nat.le_trans h.active h'.active, h'.sound, h'.held⟩

theorem Stays.follows (h : r.Stays r') (hheld : r.active ≤ r'.free) : r.Follows r' :=
  ⟨h.levels, Nat.le_of_eq h.active.symm, h.sound, Nat.le_trans (Nat.le_of_eq h.active) hheld⟩

theorem Inside.follow (h : r.Inside r') (h' : r'.Follows r'') (hfree : r''.free = r''.active) : r.Inside r'' :=
  ⟨h'.levels.trans h.levels, Nat.le_trans h.active h'.active, h'.sound, hfree⟩

theorem Inside.balanced (h : r.Inside r') (h' : r'.Balanced r'') : r.Inside r'' := h.follow h'.follows h'.even

end Registers

namespace Compile.Orderly

open Registers

variable {d : Draft} {base : Nat} {e : Expr}

/-! ## 1. Names -/

def Denotes (d : Draft) : Place → Prop
  | .localVar r => r < d.active
  | .upvalue _ => True
  | _ => False

theorem Denotes.rests {p : Place} (h : Denotes d p) (hfree : d.free = base) :
    p.isVariable ∧ p.Rests d base ∧ p.IsTable d.active base d.free := by
  cases p with
  | localVar r => exact ⟨rfl, ⟨h, hfree⟩, .inl ⟨.inr h, hfree⟩⟩
  | upvalue i => exact ⟨rfl, hfree, hfree⟩
  | _ => exact h.elim

/-- **A name is looked up**; the environment is always found. -/
theorem lookup (name : Bytes) : Orderly (Compile.lookup name) d fun o d' =>
    d'.registers = d.registers ∧ (∀ p, o = some p → Denotes d' p) ∧ (name = Compile.environmentName → o ≠ none) := by
  intro s hs hl
  subst hs
  simp only [Compile.lookup, Bind.bind, StateT.bind, MonadState.get, getThe, MonadStateOf.get, StateT.get,
    Pure.pure, Except.pure, Except.bind]
  cases hres : resolve name true (s.fn :: s.outer) with
  | error line => exact rfl
  | ok o =>
    cases o with
    | none =>
      refine ⟨⟨rfl, by simp, ?_⟩, hl, .refl _⟩
      rintro rfl
      exact absurd hres (resolve_environment hl)
    | some x =>
      obtain ⟨v, ds⟩ := x
      obtain ⟨d, outer, d', outer', hds, rfl, hc, hco, hl', hv, -⟩ := resolve_linked hres hl
      cases hds
      refine ⟨⟨hc.registers, ?_, by simp⟩, hl', hco⟩
      rintro p ⟨⟩
      cases v with
      | register r => exact hv
      | upvalue i => trivial

/-- **The expression of a name** is a variable. -/
theorem named {name : Bytes} (hs : d.registers.Sound) (hb : d.active ≤ d.free) :
    Orderly (Compile.named name) d fun e d' =>
      d.registers.Stays d'.registers ∧ e.place.Rests d' d.free ∧ e.place.isVariable := by
  refine (lookup name).andThen fun o d1 h1 => ?_
  have hfree1 : d1.free = d.free := congrArg Registers.free h1.1
  split
  · next p =>
    obtain ⟨hvar, hrests, -⟩ := (h1.2.1 p rfl).rests hfree1
    exact pure ⟨h1.1 ▸ hs.stays, hrests, hvar⟩
  · refine (lookup _).andThen fun env d2 h2 => (addConstant _).andThen fun k d3 h3 => ?_
    obtain ⟨p, rfl⟩ := Option.ne_none_iff_exists'.mp (h2.2.2 rfl)
    have hregisters : d3.registers = d.registers := h3.1.trans (h2.1.trans h1.1)
    have hfree : d3.free = d.free := congrArg Registers.free hregisters
    have hactive : d3.active = d.active := congrArg Registers.active hregisters
    have hp : Denotes d3 p := by
      have hdenotes := h2.2.1 p rfl
      have hsame : d3.active = d2.active := congrArg Registers.active h3.1
      cases p with
      | localVar r => exact Nat.lt_of_lt_of_le hdenotes (Nat.le_of_eq hsame.symm)
      | upvalue i => trivial
      | _ => exact hdenotes.elim
    refine (indexed (hregisters ▸ hs) (by omega) (hp.rests hfree).2.2 (Place.rests_constant rfl)).imp fun e d4 h4 => ?_
    exact ⟨hregisters ▸ h4.1, h4.2⟩

/-! ## 2. Locals -/

theorem declare (name : Bytes) : Orderly (Compile.declare name) d fun _ d' => d'.registers = d.registers := by
  refine get fun s _ => ?_
  split
  · exact failLimit
  · exact modifyFn rfl rfl

theorem beginLocal (reg : Nat) : Orderly (Compile.beginLocal reg) d fun _ d' => d'.registers = d.registers := by
  obtain ⟨ls, hls⟩ := mapLocal_eq d reg fun v => { v with start := d.pc }
  refine modifyFn ?_ ?_
  · show (mapLocal d reg _).upvalues = _
    rw [hls]
  · show (mapLocal d reg _).registers = _
    rw [hls]
    rfl

/-- **Locals become visible.** -/
theorem activate (n : Nat) :
    Orderly (Compile.activate n) d fun _ d' => d'.registers = { d.registers with active := d.active + n } := by
  induction n generalizing d with
  | zero => exact pure rfl
  | succ n ih =>
    refine get fun s _ => (beginLocal _).andThen fun _ d1 h1 => bind (modifyFn rfl (ih.imp fun _ d2 h2 => ?_))
    rw [h2]
    show { d1.registers with active := d1.active + 1 + n } = _
    rw [h1, show d1.active = d.active from congrArg Registers.active h1, Nat.add_assoc, Nat.add_comm 1 n]

/-! ## 3. Gotos -/

theorem closeGoto (g : PendingGoto) (label : Label) :
    Orderly (Compile.closeGoto g label) d fun _ d' => d'.registers = d.registers := by
  unfold Compile.closeGoto
  split
  · exact get fun _ _ => failPlain rfl
  · exact patchTo _ _

theorem closeMatching (label : Label) (gs : List PendingGoto) :
    Orderly (Compile.closeMatching label gs) d fun _ d' => d'.registers = d.registers := by
  induction gs generalizing d with
  | nil => exact pure rfl
  | cons g rest ih =>
    unfold Compile.closeMatching
    split
    · exact (closeGoto _ _).andThen fun _ d1 h1 => ih.imp fun _ d2 h2 => h2.trans h1
    · exact ih.andThen fun _ d1 h1 => pure h1

theorem closeGotos (label : Label) : Orderly (Compile.closeGotos label) d fun _ d' => d'.registers = d.registers := by
  refine get fun s _ => (closeMatching _ _).andThen fun _ d1 h1 => modifyFn rfl h1

theorem gotoLabel (g : PendingGoto) : Orderly (Compile.gotoLabel g) d fun _ d' => d'.registers = d.registers := by
  refine get fun s _ => ?_
  split
  · exact pure rfl
  · extract_lets close
    have hclose : ∀ d1, d1.registers = d.registers → Orderly (close ()) d1 fun _ d' => d'.registers = d.registers :=
      fun d1 h1 => (closeGoto _ _).andThen fun _ d2 h2 => pure (h2.trans h1)
    split
    · exact (closeOnJump _ _).andThen fun _ => hclose
    · exact hclose d rfl

theorem moveOut (b : Block) (gs : List PendingGoto) :
    Orderly (Compile.moveOut b gs) d fun _ d' => d'.registers = d.registers := by
  induction gs generalizing d with
  | nil => exact pure rfl
  | cons g rest ih =>
    unfold Compile.moveOut
    extract_lets g' move
    have hmove : ∀ d1, d1.registers = d.registers → Orderly (move ()) d1 fun _ d' => d'.registers = d.registers := by
      intro d1 h1
      refine (gotoLabel _).andThen fun found d2 h2 => ?_
      split
      · exact ih.imp fun _ d3 h3 => h3.trans (h2.trans h1)
      · exact ih.andThen fun _ d3 h3 => pure (h3.trans (h2.trans h1))
    split
    · exact (closeOnJump _ _).andThen fun _ => hmove
    · exact hmove d rfl

theorem gotoStatement (jumps : JumpList) :
    Orderly (Compile.gotoStatement jumps) d fun _ d' => d'.registers = d.registers := by
  refine read line fun _ => read testNext fun _ => ?_
  extract_lets go
  have hgo : ∀ name, Orderly (go name) d fun _ d' => d'.registers = d.registers := by
    intro name
    refine get fun s _ => (gotoLabel _).andThen fun found d1 h1 => ?_
    split
    · exact modifyFn rfl h1
    · exact pure h1
  split
  · exact read checkName hgo
  · exact read next fun _ => bind (pure (hgo _))

/-! ## 4. Blocks -/

/-- **A block begins** where the locals end. -/
theorem enterBlock {r : Registers} (isLoop : Bool) (h : r.Balanced d.registers) :
    Orderly (Compile.enterBlock isLoop) d fun _ d' => r.Inside d'.registers ∧ d'.active = d.active := by
  refine bind (modifyFn rfl (demand (decide_eq_true h.even) ⟨⟨?_, ?_, ⟨h.sound.free, h.sound.high⟩, h.even⟩, rfl⟩))
  · show d.active :: d.registers.levels = _
    rw [h.levels, show d.active = r.active from h.active]
  · exact Nat.le_of_eq h.active.symm

theorem breakLabel : Orderly Compile.breakLabel d fun _ d' => d'.registers = d.registers := by
  refine markTarget.andThen fun pc d1 h1 => get fun s _ => bind (modifyFn rfl ?_)
  exact (closeGotos _).imp fun _ d2 h2 => h2.trans h1

theorem leaveLevel {level : Nat} {levels : List Nat} (hlevels : d.registers.levels = level :: levels)
    (hlevel : level ≤ d.active) :
    Orderly Compile.leaveBlock d fun _ d' => d'.registers = ⟨level, level, d.maxStack, levels⟩ := by
  refine get fun s hfn => ?_
  subst hfn
  split
  · next hnil =>
    rw [Draft.registers, hnil] at hlevels
    cases hlevels
  next b around hb =>
  rw [Draft.registers, hb] at hlevels
  cases hlevels
  extract_lets finish breaks
  have hfinish : ∀ d1 u, d1.registers = s.fn.registers → Orderly (finish u) d1 fun _ d' =>
      d'.registers = ⟨b.active, b.active, s.fn.maxStack, around.map (·.active)⟩ := by
    intro d1 u h1
    have hactive : min d1.active b.active = b.active := by
      rw [show d1.active = s.fn.active from congrArg Registers.active h1]
      exact Nat.min_eq_right hlevel
    obtain ⟨ls, ds, hend⟩ := endLocals_eq b.active { d1 with blocks := around }
    refine bind (modifyFn ?_ ?_)
    · dsimp only
      rw [hend]
    · dsimp only
      rw [hend]
      refine demanding (decide_eq_true hactive) (get fun t ht => ?_)
      have hleft : (⟨min d1.active b.active, min d1.active b.active, d1.maxStack, around.map (·.active)⟩ : Registers) =
          ⟨b.active, b.active, s.fn.maxStack, around.map (·.active)⟩ := by
        rw [hactive, show d1.maxStack = s.fn.maxStack from congrArg Registers.maxStack h1]
      dsimp only
      split
      · exact pure hleft
      · split
        · unfold failGoto
          split <;> exact failPlain rfl
        · refine (moveOut _ _).andThen fun rest d2 h2 => modifyFn rfl ?_
          exact Eq.trans h2 hleft
  have hbreaks : ∀ d1 u, d1.registers = s.fn.registers → Orderly (breaks u) d1 fun _ d' =>
      d'.registers = ⟨b.active, b.active, s.fn.maxStack, around.map (·.active)⟩ := by
    intro d1 u h1
    show Orderly (if b.isLoop = true then _ else _) d1 _
    split
    · exact breakLabel.andThen fun u d2 h2 => hfinish d2 u (h2.trans h1)
    · exact hfinish d1 () h1
  split
  · refine jump.andThen fun j d1 h1 => (closeOnJump _ _).andThen fun _ d2 h2 => ?_
    exact (patchHere _).andThen fun u d3 h3 => hbreaks d3 u (h3.trans (h2.trans h1))
  · exact hbreaks s.fn () rfl

/-- **A block is left**: the registers of its locals are free. -/
theorem leaveBlock {r : Registers} (h : r.Inside d.registers) :
    Orderly Compile.leaveBlock d fun _ d' => r.Balanced d'.registers := by
  refine (leaveLevel h.levels h.active).imp fun _ d' h' => ?_
  rw [h']
  have hfree : d.free = d.active := h.free
  have hactive : r.active ≤ d.active := h.active
  have hsound : d.free ≤ d.maxStack := h.sound.free
  exact ⟨⟨rfl, rfl, ⟨by show r.active ≤ d.maxStack; omega, h.sound.high⟩⟩, rfl⟩

theorem innermostBlock : Reads Compile.innermostBlock := by
  intro d
  refine get fun s _ => ?_
  split
  · exact pure rfl
  · exact pure rfl

end Compile.Orderly

end LuaMachine
