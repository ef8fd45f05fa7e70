/-
  VALUES ARRIVE WHERE THEY ARE WANTED. Whatever may become of the code, it brings the value of an expression
  into the register for which the code was written, whichever way the value was decided, and writes no
  register that was taken before.

  * `Settled` -- a place has been brought into a register; `Settled.settle` -- **each kind of place**.
-/
import LuaMachine.Proofs.Meaning.Decision

namespace LuaMachine

open Operand (noRegister)

/-! ## 1. Changes that matter little -/

theorem Draft.Moves.quiet {list : List Nat} {d d' : Draft} (hc : d'.code = d.code) (hs : d.SameScope d')
    (hk : ∀ (k : Nat) (c : Constant), d.constants[k]? = some c → d'.constants[k]? = some c) :
    d.Moves list d' :=
  ⟨hs, hk, .of_code fun _ _ => by rw [hc], Nat.le_of_eq (by rw [pc, pc, hc]), fun h => by
    unfold Calm at h ⊢
    rw [pc, instr, hc]
    exact h⟩

structure Draft.Agrees (top : Nat) (d d' : Draft) : Prop where
  same : ∀ pc < top, d'.code[pc]? = d.code[pc]?
  before : d.here = []
  after : d'.here = []

namespace Draft.Agrees

variable {p : Proto} {d d' : Draft} {list : List Nat} {top top' : Nat}

theorem sameTests (h : d.Agrees top d') (hw : d.Waits list top) : d.SameTests list d' := by
  refine .of_code fun j hj => h.same _ ?_
  have := hw.lt hj
  omega

theorem completes {k k' : Nat} (h : d.Agrees top d') (hp : CompletesAbove k p d' list top') (hf : d'.Fresh)
    (hw : d.Waits list top) (ht : top ≤ top') (hlt : top < d.pc)
    (hk : ∀ (k : Nat) (c : Constant), d.constants[k]? = some c → d'.constants[k]? = some c) :
    CompletesAbove k' p d list top := by
  refine ⟨fun pc i hi hlt hn _ => ?_, fun j hj hs => ?_, fun _ hle => absurd hlt (Nat.not_lt.mpr hle),
    fun k c hc => hp.constants k c (hk k c hc)⟩
  · have hsame := h.same pc hlt
    refine hp.code pc i (hsame.trans hi) (by omega) (fun hl => hn ?_) fun ho => hf.not_open ho.1
    rw [h.after] at hl
    rw [h.before]
    unfold Loose at hl ⊢
    rw [instr_congr hsame] at hl
    exact hl
  · rw [h.before, List.append_nil] at hj
    obtain ⟨hiff, hinstr⟩ := h.sameTests hw j hj
    rw [← hinstr hs]
    exact hp.tests j (List.mem_append_left _ hj) (hiff.mpr hs)

theorem pop {pc : Nat} (hpc : pc + 1 = d.pc) (hh : d.here = []) :
    d.Agrees pc { d with code := d.code.pop, lines := d.lines.pop } := by
  refine ⟨fun n hn => ?_, hh, hh⟩
  simp only [Array.getElem?_pop]
  rw [if_pos (by simp only [Draft.pc] at hpc; omega)]

theorem waits (h : d.Agrees top d') (hw : d.Waits list top) (hle : top' ≤ d'.pc) (ht : top ≤ top') :
    d'.Waits list top' :=
  hw.transfer hle ht (fun j hj => (hw.jmp hj).congr (h.same j (hw.lt hj))) h.after

end Draft.Agrees

def Draft.Retakes (d d' : Draft) : Prop := ∃ m f, d' = { d with maxStack := m, free := f }

namespace Draft.Retakes

variable {p : Proto} {d d' : Draft} {list : List Nat} {top : Nat} {q : Place}

theorem pc (h : d.Retakes d') : d'.pc = d.pc := by
  obtain ⟨m, f, rfl⟩ := h
  rfl

theorem active (h : d.Retakes d') : d'.active = d.active := by
  obtain ⟨m, f, rfl⟩ := h
  rfl

theorem sits (h : d.Retakes d') (hq : q.Sits d) : q.Sits d' := by
  obtain ⟨m, f, rfl⟩ := h
  cases q <;> exact hq

theorem holds {regs : Nat → Value} {x : Except Clash Value} (h : d.Retakes d') (hq : q.Holds p d regs x) :
    q.Holds p d' regs x := by
  obtain ⟨m, f, rfl⟩ := h
  cases q <;> exact hq

theorem entered {pc : Nat} {s : Spot} (h : d.Retakes d') (hs : d.Entered p pc s) : d'.Entered p pc s := by
  obtain ⟨m, f, rfl⟩ := h
  exact ⟨hs.near, hs.primed⟩

theorem waits (h : d.Retakes d') (hw : d.Waits list top) : d'.Waits list top := by
  obtain ⟨m, f, rfl⟩ := h
  exact ⟨hw.le, hw.jumps, hw.nodup, hw.target⟩

theorem moves (h : d.Retakes d') : d.Moves list d' := by
  obtain ⟨m, f, rfl⟩ := h
  exact .quiet rfl (.of_rest rfl) fun _ _ => id

theorem brings {low r : Nat} {s : Spot} {x : Except Clash Value} (h : d.Retakes d') (hb : Brings p d low s r x) :
    Brings p d' low s r x := by
  cases x with
  | error c => exact hb
  | ok v =>
    obtain ⟨s', hp, hs, hv⟩ := hb
    refine ⟨s', hp, ?_, hv⟩
    rw [h.pc]
    exact h.entered hs

theorem tight (h : d.Retakes d') (hf : d.Tight) : d'.Tight := by
  obtain ⟨m, f, rfl⟩ := h
  exact hf

theorem completes {k : Nat} (h : d.Retakes d') (hp : CompletesAbove k p d' list top) : CompletesAbove k p d list top := by
  obtain ⟨m, f, rfl⟩ := h
  exact hp.stock rfl rfl rfl fun _ _ => id

end Draft.Retakes

theorem CompletesAbove.written {k m : Nat} {p : Proto} {d d' : Draft} {list : List Nat} {is : List Instr}
    (hp : CompletesAbove k p d' list d'.pc) (hx : d.Extended is d') (hne : is ≠ []) (hw : d.Waits list d.pc)
    (hnil : ∀ x ∈ is, x.opcode ≠ .loadNil) :
    CompletesAbove m p d list d.pc ∧ (∀ j ∈ d.here, d.Lands p.code d.pc noRegister d.pc j) ∧
      ∀ n < is.length, p.code[d.pc + n]? = is[n]? := by
  obtain ⟨hp', hlands, hcode⟩ :=
    hp.extended (m := m) hx hne hw (by rw [hx.pc]; omega) (fun j hj => .inl hj) fun _ => id
  refine ⟨hp', hlands, fun n hn => ?_⟩
  have hget : is[n]? = some is[n] := List.getElem?_eq_getElem hn
  rw [hget]
  refine hcode n _ hget (by rw [hx.pc]; omega) ?_ (hnil _ (List.getElem_mem hn))
  rintro (hm | ⟨hm, -⟩)
  · have := hw.lt hm
    omega
  · have := hw.lt hm
    omega

theorem Arrives.of_write {p : Proto} {low pc pc' reg n : Nat} {regs : Nat → Value} {v : Value}
    (he : p.effect? ⟨pc, regs⟩ = some (.ok ((Spot.put ⟨pc, regs⟩ reg v).past n))) (hl : low ≤ reg)
    (hpc : pc + 1 + n = pc') : Arrives p low ⟨pc, regs⟩ pc' reg (.ok v) := by
  subst hpc
  exact ⟨_, Proto.Path.write he hl, if_pos rfl⟩

def Draft.Loads (d : Draft) (reg : Nat) (f : (Nat → Value) → Value) (d' : Draft) : Prop :=
  ∃ is i, d.Extended (is ++ [i]) d' ∧ i.opcode ≠ .testSet ∧ (∀ x ∈ is ++ [i], x.opcode ≠ .loadNil) ∧
    ∀ p : Proto, (∀ k < (is ++ [i]).length, p.code[d.pc + k]? = (is ++ [i])[k]?) →
      (∀ (k : Nat) (c : Constant), d.constants[k]? = some c → p.constants[k]? = some c) →
      ∀ regs, p.effect? ⟨d.pc, regs⟩ = some (.ok ((Spot.put ⟨d.pc, regs⟩ reg (f regs)).past is.length))

namespace Compile

variable {list : List Nat} {d : Draft} {reg : Nat}

theorem bx_ofABx {op : Op} {a k : Nat} (h : k ≤ Instr.maxBx) : (Instr.ofABx op a k).bx = k := by
  simp only [Instr.bx, Instr.ofABx, Instr.b_ofABC, Instr.c_ofABC, Instr.maxBx] at *
  omega

theorem ax_ofAx {op : Op} {k : Nat} (h : k ≤ Instr.maxAx) : (Instr.ofAx op k).ax = k := by
  simp only [Instr.ax, Instr.ofAx, Instr.ofABx, Instr.bx, Instr.a_ofABC, Instr.b_ofABC, Instr.c_ofABC,
    Instr.maxAx] at *
  omega

theorem Writes.loadConstant_loads {k : Nat} {c : Constant} (hw : d.Waits list d.pc) (hr : d.Roomy) (hreg : reg < 255)
    (hk : d.constants[k]? = some c) :
    Writes (Compile.loadConstant reg k) d fun _ d' => d.Loads reg (fun _ => .ofConstant c) d' := by
  have hmod : reg % 256 = reg := Nat.mod_eq_of_lt (by omega)
  have hmax : k ≤ Instr.maxAx := by
    have := (Array.getElem?_eq_some_iff.mp hk).1
    have := hr.constants
    omega
  unfold Compile.loadConstant
  split
  · next hbx =>
    refine Writes.discard ((Writes.emit_extends hw).imp fun _ d' ⟨_, hx⟩ => ?_)
    refine ⟨[], _, hx, by simp, by simp +contextual, fun p hcode hconst regs => ?_⟩
    have hi : p.code[d.pc]? = some (Instr.ofABx .loadK reg k) := hcode 0 (by simp)
    have he := Proto.effect_loadK (s := ⟨d.pc, regs⟩) hi (by simp) (by rw [bx_ofABx hbx]; exact hconst k c hk)
    rw [Instr.a_ofABx, hmod] at he
    exact he
  · refine Writes.bind (Writes.discard ((Writes.emit_extends hw).imp fun _ d1 ⟨_, h₁⟩ => ?_))
    refine Writes.discard ((Writes.emit_nil h₁.here).imp fun _ d' ⟨_, line, hd'⟩ => ?_)
    subst hd'
    refine ⟨[Instr.ofABx .loadKx reg 0], _, h₁.snoc, by simp, by simp +contextual, fun p hcode hconst regs => ?_⟩
    have hi : p.code[d.pc]? = some (Instr.ofABx .loadKx reg 0) := hcode 0 (by simp)
    have hnext : p.code[d.pc + 1]? = some (Instr.ofAx .extraArg k) := hcode 1 (by simp)
    have he := Proto.effect_loadKx (s := ⟨d.pc, regs⟩) hi (by simp) hnext
      (by rw [ax_ofAx hmax]; exact hconst k c hk)
    rw [Instr.a_ofABx, hmod] at he
    exact he

theorem Writes.emit_moves {r : Nat} (hw : d.Waits list d.pc) (hreg : reg < 255) (hr : r < 255) :
    Writes (Compile.emitABC .move reg r 0) d fun _ d' => d.Loads reg (fun regs => regs r) d' := by
  refine (Writes.emit_extends hw).imp fun _ d' ⟨_, hx⟩ => ?_
  refine ⟨[], _, hx, by simp, by simp +contextual, fun p hcode _ regs => ?_⟩
  have hi : p.code[d.pc]? = some (Instr.ofABC .move reg r 0) := hcode 0 (by simp)
  have he := Proto.effect_move (s := ⟨d.pc, regs⟩) hi (by simp)
  rw [Instr.a_ofABC, Instr.b_ofABC, Nat.mod_eq_of_lt (by omega), Nat.mod_eq_of_lt (by omega)] at he
  exact he

theorem Writes.emit_loadBool {b : Bool} (hw : d.Waits list d.pc) (hreg : reg < 255) :
    Writes (Compile.emitABC .loadBool reg b.toNat 0) d fun _ d' => d.Loads reg (fun _ => .bool b) d' := by
  refine (Writes.emit_extends hw).imp fun _ d' ⟨_, hx⟩ => ?_
  refine ⟨[], _, hx, by simp, by simp +contextual, fun p hcode _ regs => ?_⟩
  have hi : p.code[d.pc]? = some (Instr.ofABC .loadBool reg b.toNat 0) := hcode 0 (by simp)
  have he := Proto.effect_loadBool (s := ⟨d.pc, regs⟩) hi (by simp)
  have hb : (decide ((Instr.ofABC .loadBool reg b.toNat 0).b.val ≠ 0)) = b := by
    cases b <;> rfl
  rw [hb, Instr.a_ofABC, Nat.mod_eq_of_lt (by omega)] at he
  exact he

end Compile

/-! ## 2. Places -/

/-- The value of a place has been brought into a register. -/
structure Settled (list : List Nat) (d : Draft) (q : Place) (reg : Nat) (d' : Draft) : Prop where
  moves : d.Moves list d'
  roomy : d'.Roomy
  free : d'.free = d.free
  waits : d'.Waits list d'.pc
  here : d'.here = []
  last : (d'.instr (d'.pc - 1)).opcode ≠ .testSet
  tight : d'.Tight
  fresh : q ≠ .nil → d'.Fresh
  runs : ∀ p : Proto, CompletesAbove reg p d' list d'.pc → CompletesAbove reg p d list (d.pc - q.back) ∧
    ∀ (low : Nat) (s : Spot) (r : Except Clash Value), low ≤ reg → d.Entered p (d.pc - q.back) s →
      q.Holds p d s.regs r → Brings p d' low s reg r

namespace Settled

variable {list : List Nat} {d d' : Draft} {reg : Nat} {q : Place}

theorem of_extended (is : List Instr) {i : Instr} (hw : d.Waits list d.pc) (hr : d.Roomy)
    (hx : d.Extended (is ++ [i]) d') (hq : q.back = 0) (hlast : i.opcode ≠ .testSet)
    (hnil : ∀ x ∈ is ++ [i], x.opcode ≠ .loadNil)
    (hruns : ∀ p : Proto, (∀ k < (is ++ [i]).length, p.code[d.pc + k]? = (is ++ [i])[k]?) →
      (∀ (k : Nat) (c : Constant), d.constants[k]? = some c → p.constants[k]? = some c) →
      ∀ (low : Nat) (regs : Nat → Value) (r : Except Clash Value), low ≤ reg → q.Holds p d regs r →
        Arrives p low ⟨d.pc, regs⟩ d'.pc reg r) : Settled list d q reg d' where
  moves := hx.moves hw ⟨i, by simp, hlast⟩
  roomy := hx.roomy hr
  free := hx.free
  waits := hx.waits hw (by rw [hx.pc]; omega) (Nat.le_refl _)
  here := hx.here
  last := by
    rw [hx.last]
    exact hlast
  tight := (hx.fresh is (hnil i (by simp))).tight
  fresh _ := hx.fresh is (hnil i (by simp))
  runs p hp := by
    obtain ⟨hp', hlands, hnew⟩ := hp.written (m := reg) hx (by simp) hw hnil
    rw [hq, Nat.sub_zero]
    refine ⟨hp', fun low s r hl hs hv => .after (hs.path hlands) ?_⟩
    exact (hruns p hnew hp'.constants low s.regs r hl hv).brings fun _ => (hx.fresh is (hnil i (by simp))).primed

theorem of_loads {f : (Nat → Value) → Value} (h : d.Loads reg f d') (hw : d.Waits list d.pc) (hr : d.Roomy)
    (hq : q.back = 0) (hv : ∀ (p : Proto) regs r,
      (∀ (k : Nat) (c : Constant), d.constants[k]? = some c → p.constants[k]? = some c) →
      q.Holds p d regs r → r = .ok (f regs)) : Settled list d q reg d' := by
  obtain ⟨is, i, hx, hlast, hnil, heffect⟩ := h
  refine .of_extended is hw hr hx hq hlast hnil fun p hcode hconst low regs r hl hh => ?_
  rw [hv p regs r hconst hh]
  refine .of_write (heffect p hcode hconst regs) hl ?_
  rw [hx.pc, List.length_append, List.length_singleton]
  omega

theorem quiet {ks : Array Constant} {q : Place}
    (hk : ∀ (k : Nat) (c : Constant), d.constants[k]? = some c → ks[k]? = some c)
    (hq : ∀ p regs r, q.Holds p d regs r → q.Holds p { d with constants := ks } regs r)
    (h : Settled list { d with constants := ks } q reg d') : Settled list d q reg d' where
  moves :=
    have hm : d.Moves list { d with constants := ks } := .quiet rfl (.of_rest rfl) hk
    hm.trans h.moves
  roomy := h.roomy
  free := h.free
  waits := h.waits
  here := h.here
  last := h.last
  tight := h.tight
  fresh := h.fresh
  runs p hp := by
    obtain ⟨hp1, hruns⟩ := h.runs p hp
    exact ⟨hp1.stock rfl rfl rfl hk, fun low s r hl hs hv => hruns low s r hl ⟨hs.near, hs.primed⟩ (hq p s.regs r hv)⟩

theorem not {pc : Nat} (hw : d.Waits list (d.pc - 1)) (hr : d.Roomy) (hreg : reg < 255)
    (hpc : pc + 1 = d.pc) (hh : d.here = []) (ho : (d.instr pc).opcode = .not) :
    Settled list d (.pending pc) reg (d.mapInstr pc fun i => i.setA reg) := by
  have hmod : reg % 256 = reg := Nat.mod_eq_of_lt (by omega)
  have htop : d.pc - 1 = pc := by omega
  rw [htop] at hw
  have hcode : d.code[pc]? = some (d.instr pc) := by
    cases hi : d.code[pc]? with
    | none => simp [Draft.instr, hi] at ho
    | some i => rw [Draft.instr_eq hi]
  have hlast : (d.mapInstr pc fun i => i.setA reg).code[pc]? = some ((d.instr pc).setA reg) := by
    simp [Draft.mapInstr, Array.getElem?_modify, hcode]
  have hsize : (d.mapInstr pc fun i => i.setA reg).pc = d.pc := by simp [Draft.mapInstr, Draft.pc]
  have hag : d.Agrees pc (d.mapInstr pc fun i => i.setA reg) := by
    refine ⟨fun n hn => ?_, hh, hh⟩
    simp only [Draft.mapInstr, Array.getElem?_modify]
    rw [if_neg (by omega)]
  have hinstr : ((d.mapInstr pc fun i => i.setA reg).instr (d.pc - 1)).opcode = .not := by
    rw [htop, Draft.instr_eq hlast]
    exact ho
  have hfresh : (d.mapInstr pc fun i => i.setA reg).Fresh := .inr (by rw [hsize, hinstr]; decide)
  exact {
    moves := ⟨.of_rest rfl, fun _ _ => id, hag.sameTests hw, Nat.le_of_eq hsize.symm, fun _ => by
      unfold Draft.Calm
      rw [hsize, hinstr]
      decide⟩
    roomy := hr.congr rfl rfl rfl rfl
    free := rfl
    waits := hag.waits hw (Nat.le_refl _) (by omega)
    here := hh
    last := by
      rw [hsize, hinstr]
      decide
    tight := hfresh.tight
    fresh := fun _ => hfresh
    runs := by
      intro p hp
      rw [hsize] at hp
      refine ⟨?_, fun low s r hl hs hv => ?_⟩
      · show CompletesAbove reg p d list (d.pc - 1)
        rw [htop]
        exact hag.completes hp hfresh hw (by omega) (by omega) fun _ _ => id
      · have hr : r = .ok (.bool (s.regs (d.instr pc).b.val).isFalsy) := hv
        subst hr
        have hi : p.code[pc]? = some ((d.instr pc).setA reg) := by
          refine hp.same hlast (by omega) ?_ (by rw [Instr.opcode_setA, ho]; decide)
          rw [hag.after, List.append_nil]
          rintro (hm | ⟨hm, -⟩)
          · have := hw.lt hm
            omega
          · have := hw.lt hm
            omega
        have hs' : s.pc = pc := (hs.pc_eq hh).trans htop
        subst hs'
        have he := Proto.effect_not hi ho
        rw [Instr.a_setA, hmod, Instr.b_setA] at he
        refine Arrives.brings ?_ fun _ => hfresh.primed
        rw [hsize]
        exact .of_write (n := 0) he hl hpc }

end Settled

namespace Compile

variable {list : List Nat} {d d' : Draft} {reg : Nat}

theorem Writes.addConstant_finds (c : Constant) (hr : d.Roomy) :
    Writes (Compile.addConstant c) d fun k d' => ∃ ks, d' = { d with constants := ks } ∧
      ks[k]? = some c ∧ (∀ (k : Nat) (c : Constant), d.constants[k]? = some c → ks[k]? = some c) ∧
      ks.size ≤ Instr.maxAx + 1 := by
  refine Writes.get fun s hs => ?_
  subst hs
  dsimp only
  split
  · next k hk =>
    refine Writes.pure ⟨_, rfl, ?_, fun _ _ => id, hr.constants⟩
    obtain ⟨j, hj, rfl⟩ := Option.map_eq_some_iff.mp hk
    have := (Array.finIdxOf?_eq_some_iff.mp hj).1
    rw [Array.getElem?_eq_getElem j.isLt]
    exact congrArg some this
  · split
    · exact Writes.failLimit
    · next hmax =>
      refine Writes.bind (Writes.modifyFn (Writes.pure ⟨_, rfl, by simp, fun k c hk => ?_, ?_⟩))
      · have := (Array.getElem?_eq_some_iff.mp hk).1
        rw [Array.getElem?_push, if_neg (by omega)]
        exact hk
      · rw [Array.size_push]
        omega

theorem clears_union {i : Instr} {start n : Nat} (ho : i.opcode = .loadNil) (hn : 0 < n) (hs : start + n ≤ 255)
    (hi : i.a.val + i.b.val < 255)
    (ht : i.a.val ≤ start ∧ start ≤ i.a.val + i.b.val + 1 ∨ start ≤ i.a.val ∧ i.a.val ≤ start + n - 1 + 1) (r : Nat) :
    ((i.setA (min start i.a.val)).setB (max (start + n - 1) (i.a.val + i.b.val) - min start i.a.val)).Clears r ↔
      i.Clears r ∨ start ≤ r ∧ r < start + n := by
  generalize hfirst : min start i.a.val = first
  generalize hlast : max (start + n - 1) (i.a.val + i.b.val) = last
  have hf : first % 256 = first := Nat.mod_eq_of_lt (by omega)
  have hl : (last - first) % 512 = last - first := Nat.mod_eq_of_lt (by omega)
  simp only [Instr.Clears, Instr.opcode_setB, Instr.opcode_setA, Instr.a_setB, Instr.a_setA, Instr.b_setB, ho, true_and,
    hf, hl]
  omega

theorem clears_loadNil {start n : Nat} (hn : 0 < n) (hs : start + n ≤ 255) (r : Nat) :
    (Instr.ofABC .loadNil start (n - 1) 0).Clears r ↔ start ≤ r ∧ r < start + n := by
  have h1 : start % 256 = start := Nat.mod_eq_of_lt (by omega)
  have h2 : (n - 1) % 512 = n - 1 := Nat.mod_eq_of_lt (by omega)
  simp only [Instr.Clears, Instr.opcode_ofABC, Instr.a_ofABC, Instr.b_ofABC, h1, h2, true_and]
  omega

theorem Writes.loadNil_widens {start n : Nat} {P : Draft → Prop} (ht : d.Tight) (hn : 0 < n) (hs : start + n ≤ 255)
    (h : Writes (Compile.emitABC .loadNil start (n - 1) 0) d fun _ d' => P d') :
    Writes (Compile.loadNil start n) d fun _ d' => d.Widens start n d' ∨ P d' := by
  refine Writes.bind (Writes.ofFn ?_)
  dsimp only [id]
  split
  · next hcond =>
    obtain ⟨hlt, ho, htouch⟩ := hcond
    have hopen : d.Open := ⟨hlt, ho⟩
    refine Writes.modifyFn (.inl ?_)
    have hunion := clears_union ho hn hs (ht hopen) htouch
    generalize hf : (fun i : Instr => (i.setA (min start (d.instr (d.pc - 1)).a.val)).setB
      (max (start + n - 1) ((d.instr (d.pc - 1)).a.val + (d.instr (d.pc - 1)).b.val) -
        min start (d.instr (d.pc - 1)).a.val)) = f
    have hinstr : (d.mapInstr (d.pc - 1) f).instr (d.pc - 1) = f (d.instr (d.pc - 1)) := by
      refine Draft.instr_eq ?_
      rw [Draft.mapInstr, Array.getElem?_modify, if_pos rfl, hopen.code]
      rfl
    refine ⟨hopen, rfl, by simp [Draft.mapInstr], fun pc hne => ?_, ?_, fun r => ?_⟩
    · simp only [Draft.mapInstr, Array.getElem?_modify]
      rw [if_neg (by omega)]
    · rw [hinstr, ← hf]
      exact ho
    · rw [hinstr, ← hf]
      exact hunion r
  · exact Writes.discard (h.imp fun _ d' => .inr)

/-- **Registers are set to nil**, by the last LOADNIL or by one of their own. -/
theorem Writes.loadNil_clears {start n : Nat} (hw : d.Waits list d.pc) (ht : d.Tight) (hn : 0 < n)
    (hs : start + n ≤ 255) :
    Writes (Compile.loadNil start n) d fun _ d' =>
      d.Widens start n d' ∨ d.Extended [.ofABC .loadNil start (n - 1) 0] d' :=
  Writes.loadNil_widens ht hn hs ((Writes.emit_extends hw).imp fun _ _ h => h.2)

end Compile

namespace Draft

variable {start n k : Nat} {p : Proto} {d d' : Draft} {list : List Nat}

theorem Widens.moves (h : d.Widens start n d') (hw : d.Waits list d.pc) : d.Moves list d' :=
  ⟨.of_rest h.rest, fun _ _ hk => by rw [h.rest]; exact hk, h.sameTests fun _ => hw.jmp, Nat.le_of_eq h.pc_eq.symm,
    fun _ => by
      unfold Calm
      rw [h.stays_open.2]
      decide⟩

theorem Widens.roomy (h : d.Widens start n d') (hr : d.Roomy) : d'.Roomy :=
  hr.congr (by rw [h.rest]) (by rw [h.rest]) (by rw [h.rest]) (by rw [h.rest])

theorem Widens.last (h : d.Widens start n d') : (d'.instr (d'.pc - 1)).opcode = .loadNil := h.stays_open.2

theorem Widens.entered {s : Spot} (h : d.Widens start n d') (hw : d.Waits list d.pc)
    (hp : CompletesAbove k p d' list d'.pc) (hs : d.Entered p d.pc s) :
    d'.Entered p d'.pc s ∧ ∀ r, (d'.instr (d.pc - 1)).Clears r → s.regs r = .nil := by
  obtain ⟨i, hi, -, hall, -⟩ := hp.nils h.stays_open (Nat.le_refl _)
  rw [h.pc_eq] at hi hall
  refine ⟨⟨.inl ((hs.pc_eq (h.here hw)).trans h.pc_eq.symm), fun _ x hx => ?_⟩, fun r hr => ?_⟩
  · rw [h.pc_eq] at hx
    exact hs.primed h.opened x hx
  · exact hs.primed h.opened i hi r (hall r hr)

theorem Extended.tight_loadNil (h : d.Extended [.ofABC .loadNil start (n - 1) 0] d') (hn : 0 < n)
    (hs : start + n ≤ 255) : d'.Tight := by
  intro _
  have hlast : d'.instr (d'.pc - 1) = .ofABC .loadNil start (n - 1) 0 :=
    Extended.last (by rw [List.nil_append]; exact h)
  rw [hlast, Instr.a_ofABC, Instr.b_ofABC, Nat.mod_eq_of_lt (by omega), Nat.mod_eq_of_lt (by omega)]
  omega

theorem Extended.loadNil (h : d.Extended [.ofABC .loadNil start (n - 1) 0] d') (hw : d.Waits list d.pc) (hn : 0 < n)
    (hs : start + n ≤ 255) (hp : CompletesAbove k p d' list d'.pc) :
    ∃ i, p.code[d.pc]? = some i ∧ i.opcode = .loadNil ∧ (∀ r, start ≤ r → r < start + n → i.Clears r) ∧
      ∀ r < k, i.Clears r → start ≤ r ∧ r < start + n := by
  have hlast : d'.instr (d'.pc - 1) = .ofABC .loadNil start (n - 1) 0 :=
    Extended.last (by rw [List.nil_append]; exact h)
  have hpc : d'.pc = d.pc + 1 := h.pc
  obtain ⟨i, hi, ho, hall, hlow⟩ := hp.lastNil (h.waits hw (by omega) (Nat.le_refl _)) (Nat.le_refl _) (by omega)
    (by rw [hlast]; simp)
  rw [hlast] at hall hlow
  rw [hpc, Nat.add_sub_cancel] at hi
  exact ⟨i, hi, ho, fun r h1 h2 => hall r ((Compile.clears_loadNil hn hs r).mpr ⟨h1, h2⟩),
    fun r hr hc => (Compile.clears_loadNil hn hs r).mp (hlow r hr hc)⟩

end Draft

theorem Proto.effect_clears {p : Proto} {i : Instr} {pc : Nat} (regs : Nat → Value) (hi : p.code[pc]? = some i)
    (ho : i.opcode = .loadNil) :
    ∃ regs', p.effect? ⟨pc, regs⟩ = some (.ok ⟨pc + 1, regs'⟩) ∧
      ∀ r, (i.Clears r → regs' r = .nil) ∧ (¬ i.Clears r → regs' r = regs r) := by
  refine ⟨_, Proto.effect_loadNil (s := ⟨pc, regs⟩) hi ho, fun r => ?_⟩
  have hin : (i.a.val ≤ r ∧ r < i.a.val + (i.b.val + 1)) ↔ i.Clears r := by
    simp only [Instr.Clears, ho, true_and]
    omega
  exact ⟨fun h => if_pos (hin.mpr h), fun h => if_neg fun hc => h (hin.mp hc)⟩

namespace Compile

variable {list : List Nat} {d d' : Draft} {reg : Nat}

/-- **Nil is loaded**, by an instruction of its own or by one that is widened. -/
theorem Writes.loadNil_settles (hw : d.Waits list d.pc) (hr : d.Roomy) (ht : d.Tight) (hreg : reg < 255) :
    Writes (Compile.loadNil reg 1) d fun _ d' => Settled list d .nil reg d' := by
  refine (Writes.loadNil_clears hw ht Nat.one_pos hreg).imp fun _ d' h => ?_
  rcases h with hd | hx
  · exact {
      moves := hd.moves hw
      roomy := hd.roomy hr
      free := by rw [hd.rest]
      waits := hd.waits hw
      here := by
        rw [hd.rest]
        exact hd.here hw
      last := by
        rw [hd.last]
        decide
      tight := hd.tight ht hreg
      fresh := fun h => absurd rfl h
      runs := by
        intro p hp
        have hp' := hp
        rw [hd.pc_eq] at hp'
        refine ⟨hp'.widened hd (Nat.le_refl _), fun low s r hl hs hv => ?_⟩
        have hr : r = .ok .nil := hv
        subst hr
        -- the register has been set to nil before
        obtain ⟨hs', hnil⟩ := hd.entered hw hp hs
        exact ⟨s, .refl _, hs', hnil reg ((hd.clears reg).mpr (.inr ⟨Nat.le_refl _, Nat.lt_succ_self _⟩))⟩ }
  · have hpc : d'.pc = d.pc + 1 := hx.pc
    have hlast : d'.instr (d'.pc - 1) = .ofABC .loadNil reg 0 0 :=
      Draft.Extended.last (by rw [List.nil_append]; exact hx)
    exact {
      moves := hx.moves hw ⟨_, rfl, by simp⟩
      roomy := hx.roomy hr
      free := hx.free
      waits := hx.waits hw (by omega) (Nat.le_refl _)
      here := hx.here
      last := by
        rw [hlast]
        simp
      tight := hx.tight_loadNil Nat.one_pos hreg
      fresh := fun h => absurd rfl h
      runs := by
        intro p hp
        obtain ⟨hp', hlands, -⟩ := hp.extended hx (by simp) hw (by omega) (fun j hj => .inl hj) fun _ => id
        refine ⟨hp', fun low s r hl hs hv => .after (hs.path hlands) ?_⟩
        have hr : r = .ok .nil := hv
        subst hr
        obtain ⟨i, hi, ho, hall, hlow⟩ := hx.loadNil hw Nat.one_pos hreg hp
        obtain ⟨regs', he, hregs⟩ := Proto.effect_clears s.regs hi ho
        have hkeep : ∀ r < low, regs' r = s.regs r := by
          intro r hr
          refine (hregs r).2 fun hc => ?_
          have := (hlow r (by omega) hc).1
          omega
        refine ⟨⟨d.pc + 1, regs'⟩, .step he hkeep (.refl _), ⟨.inl hpc.symm, fun _ x hx r hc => ?_⟩,
          (hregs reg).1 (hall reg (Nat.le_refl _) (Nat.lt_succ_self _))⟩
        rw [hpc, Nat.add_sub_cancel, hi] at hx
        cases hx
        exact (hregs r).1 hc }

theorem Writes.readVariable_reads {e : Expr} (he : e.place.Sits d) :
    Writes (Compile.readVariable e) d fun e' d' => e' = { e with place := e.place.read } ∧ d' = d := by
  unfold Compile.readVariable
  cases hp : e.place with
  | localVar r => exact Writes.pure ⟨rfl, rfl⟩
  | upvalue _ | indexed _ _ _ | call _ | varargs _ | void =>
    rw [hp] at he
    exact he.elim
  | _ =>
    refine Writes.pure ⟨?_, rfl⟩
    cases e
    simp only at hp
    rw [hp]
    rfl

/-- **A value is brought into a register**, apart from what its jumps decide and from comparisons. -/
theorem Writes.settle_settles {e : Expr} (he : e.place.Sits d) (hw : d.Waits list (e.top d))
    (hr : d.Roomy) (hreg : reg < 255) (hact : d.active ≤ reg) (hf : e.place = .nil → d.Tight) :
    Writes (Compile.settle e reg) d fun e' d' =>
      (∃ js, e.place = .compare js) ∧ e' = e ∧ d' = d ∨
      e' = { e with place := .fixed reg } ∧ Settled list d e.place reg d' := by
  refine (Writes.readVariable_reads he).andThen fun e1 d1 ⟨h₁, hd1⟩ => ?_
  subst hd1 h₁
  -- what all places but comparisons have to show
  have hend : ∀ d', Settled list d1 e.place reg d' →
      Writes (Pure.pure { e with place := .fixed reg }) d' fun e' d' =>
        (∃ js, e.place = .compare js) ∧ e' = e ∧ d' = d1 ∨
        e' = { e with place := .fixed reg } ∧ Settled list d1 e.place reg d' :=
    fun d' h => Writes.pure (.inr ⟨rfl, h⟩)
  have hwhole : e.place.back = 0 → d1.Waits list d1.pc := by
    intro hb
    rw [Expr.top, hb, Nat.sub_zero] at hw
    exact hw
  -- a register is copied
  have hmove : ∀ r, r < d1.active → (∀ p regs x, e.place.Holds p d1 regs x → x = .ok (regs r)) →
      e.place.back = 0 →
      Writes (Compile.emitABC .move reg r 0) d1 fun _ d' => Settled list d1 e.place reg d' := by
    intro r hlt hv hb
    have hlt' := hr.lt hlt
    exact (Writes.emit_moves (hwhole hb) hreg (by omega)).imp fun _ d' h =>
      .of_loads h (hwhole hb) hr hb fun p regs x _ hh => hv p regs x hh
  -- a numeral is entered in the pool and loaded
  have hnumeral : ∀ c, (∀ p d regs x, e.place.Holds p d regs x → x = .ok (.ofConstant c)) →
      (∀ p d d' regs x, e.place.Holds p d regs x → e.place.Holds p d' regs x) → e.place.back = 0 →
      Writes (do
        loadConstant reg (← Compile.addConstant c)
        return { e with place := .fixed reg }) d1 fun e' d' =>
          (∃ js, e.place = .compare js) ∧ e' = e ∧ d' = d1 ∨
          e' = { e with place := .fixed reg } ∧ Settled list d1 e.place reg d' := by
    intro c hv hd hb
    refine (Writes.addConstant_finds c hr).andThen fun k d2 ⟨ks, hd2, hk, hpre, hsize⟩ => ?_
    subst hd2
    have hr2 : { d1 with constants := ks }.Roomy := ⟨hr.active, hr.free, hr.stack, hsize⟩
    have hw2 : { d1 with constants := ks }.Waits list { d1 with constants := ks }.pc :=
      ⟨Nat.le_refl _, (hwhole hb).jumps, (hwhole hb).nodup, (hwhole hb).target⟩
    refine (Writes.loadConstant_loads hw2 hr2 hreg hk).andThen fun _ d' h => hend d' ?_
    have hset : Settled list { d1 with constants := ks } e.place reg d' :=
      .of_loads h hw2 hr2 hb fun p regs r _ hh => hv p _ regs r hh
    exact .quiet hpre (fun p regs r hh => hd p _ _ regs r hh) hset
  cases hp : e.place with
  | nil =>
    rw [hp] at hend
    simp only [Place.read]
    have hw' := hwhole (by rw [hp]; rfl)
    exact (Writes.loadNil_settles hw' hr (hf hp) hreg).andThen fun _ d' h => hend d' h
  | bool b =>
    rw [hp] at hend
    simp only [Place.read]
    have hw' := hwhole (by rw [hp]; rfl)
    refine Writes.bind (Writes.discard ((Writes.emit_loadBool hw' hreg).imp fun _ d' h => hend d' ?_))
    exact .of_loads h hw' hr rfl fun _ _ _ _ hh => hh
  | constant k =>
    rw [hp] at hend he
    simp only [Place.read]
    have hw' := hwhole (by rw [hp]; rfl)
    obtain ⟨c, hk⟩ := he
    refine (Writes.loadConstant_loads hw' hr hreg hk).andThen fun _ d' h => hend d' (.of_loads h hw' hr rfl ?_)
    rintro p regs r hconst ⟨c, hc', hv⟩
    rw [hconst k _ hk] at hc'
    cases hc'
    exact hv
  | float x =>
    rw [hp] at hnumeral
    simp only [Place.read]
    exact hnumeral (.float x) (fun _ _ _ _ h => h) (fun _ _ _ _ _ h => h) rfl
  | int i =>
    rw [hp] at hnumeral
    simp only [Place.read]
    exact hnumeral (.int i) (fun _ _ _ _ h => h) (fun _ _ _ _ _ h => h) rfl
  | fixed r =>
    rw [hp] at hend hmove he
    have hlt : r < d1.active := he
    simp only [Place.read]
    rw [if_pos (by omega)]
    exact Writes.bind (Writes.discard
      ((hmove r hlt (fun _ _ _ h => h) rfl).imp fun _ d' h => hend d' h))
  | localVar r =>
    rw [hp] at hend hmove he
    have hlt : r < d1.active := he
    simp only [Place.read]
    rw [if_pos (by omega)]
    exact Writes.bind (Writes.discard
      ((hmove r hlt (fun _ _ _ h => h) rfl).imp fun _ d' h => hend d' h))
  | pending pc =>
    rw [hp] at hend he
    simp only [Place.read]
    rw [Expr.top, hp] at hw
    exact Writes.bind (Writes.modifyFn (hend _ (.not hw hr hreg he.1 he.2.1 he.2.2.1)))
  | compare js =>
    simp only [Place.read]
    refine Writes.pure (.inl ⟨⟨js, rfl⟩, ?_, rfl⟩)
    cases e
    simp only at hp
    rw [hp]
  | void | upvalue _ | indexed _ _ _ | call _ | varargs _ =>
    rw [hp] at he
    exact he.elim

end Compile

/-! ## 3. Registers of their own -/

/-- The value of a place is in a register that is not taken any more. -/
structure Held (list : List Nat) (d : Draft) (q : Place) (r : Nat) (d' : Draft) : Prop where
  moves : d.Moves list d'
  roomy : d'.Roomy
  free : d'.free = d.free
  waits : d'.Waits list d'.pc
  lt : r < 255
  runs : ∀ p : Proto, Completes p d' list d'.pc → Completes p d list (d.pc - q.back) ∧
    ∀ (low : Nat) (s : Spot) (x : Except Clash Value), low ≤ d.free → d.Entered p (d.pc - q.back) s →
      q.Holds p d s.regs x → Brings p d' low s r x

namespace Compile

variable {β : Type} {list : List Nat} {d d' : Draft} {reg : Nat}

theorem Writes.reserve_takes (hr : d.Roomy) :
    Writes (Compile.reserve 1) d fun _ d' => d.Retakes d' ∧ d'.Roomy ∧ d'.free = d.free + 1 ∧
      d.free < 254 := by
  refine (Writes.reserve hr.stack).imp fun _ d' ⟨hle, hd'⟩ => ?_
  have hr' : d'.Roomy := by
    rw [hd']
    exact hr.taken rfl hle
  exact ⟨⟨_, _, hd'⟩, hr', by rw [hd'], by omega⟩

theorem cost_free (hreg : reg < 256) (hle : d.active ≤ reg) : Operand.cost d.active reg = 1 := by
  have h0 : Operand.isConstant reg = false := by
    simp only [Operand.isConstant, Operand.constantBit]
    have : reg / 256 = 0 := by omega
    simp [this]
  simp [Operand.cost, h0, hle]

/-- **A value is brought into some register**, which may be given back. -/
theorem Writes.settleAnywhere_holds {e : Expr} (he : e.place.Sits d) (hc : ∀ js, e.place ≠ .compare js)
    (hw : d.Waits list (e.top d)) (hr : d.Roomy) (hf : e.place = .nil → d.Tight) :
    Writes (Compile.settleAnywhere e) d fun e' d' => ∃ r, e' = { e with place := .fixed r } ∧
      Held list d e.place r { d' with free := d'.free - Operand.cost d'.active r } := by
  unfold Compile.settleAnywhere
  split
  · next r hp =>
    rw [hp] at he
    have hlt : r < d.active := he
    have hw' : d.Waits list d.pc := by
      rw [Expr.top, hp] at hw
      exact hw
    refine Writes.pure ⟨r, by cases e; simp only at hp; rw [hp], ?_⟩
    rw [Operand.cost_lt hlt, Nat.sub_zero]
    refine ⟨.refl _ _, hr, rfl, hw', by have := hr.lt hlt; omega, fun p hp' => ?_⟩
    rw [hp]
    refine ⟨hp', fun low s x _ hs hv => ?_⟩
    have hx : x = .ok (s.regs r) := hv
    subst hx
    exact ⟨s, .refl _, hs, rfl⟩
  · refine (Writes.reserve_takes hr).andThen fun _ d1 ⟨ht, hr1, hfree, hlt⟩ => ?_
    have hreg : d1.free - 1 = d.free := by
      rw [hfree]
      rfl
    refine Writes.topRegister ?_
    rw [hreg]
    have htop : e.top d1 = e.top d := by rw [Expr.top, Expr.top, ht.pc]
    have hw1 : d1.Waits list (e.top d1) := by
      rw [htop]
      exact ht.waits hw
    have hact : d1.active ≤ d.free := by
      rw [ht.active]
      exact hr.active
    refine (Writes.settle_settles (ht.sits he) hw1 hr1 (by omega) hact fun hn => ht.tight (hf hn)).imp
      fun e' d' h => ?_
    obtain ⟨rfl, hset⟩ := h.resolve_left fun ⟨⟨js, hjs⟩, _⟩ => hc js hjs
    have hcost : Operand.cost d'.active d.free = 1 := by
      rw [hset.moves.active]
      exact cost_free (by omega) hact
    have hfree' : d'.free - 1 = d.free := by
      rw [hset.free, hfree]
      rfl
    refine ⟨d.free, rfl, ?_⟩
    rw [hcost, hfree']
    have hback : d'.Retakes { d' with free := d.free } := ⟨_, _, rfl⟩
    refine ⟨ht.moves.trans (hset.moves.trans hback.moves), ⟨?_, ?_, hset.roomy.stack, hset.roomy.constants⟩, rfl,
      hback.waits hset.waits, by omega, fun p hp => ?_⟩
    · show d'.active ≤ d.free
      rw [hset.moves.active]
      exact hact
    · have := hset.roomy.free
      show d.free ≤ d'.maxStack
      omega
    · obtain ⟨hp1, hruns⟩ := hset.runs p (hback.completes hp)
      rw [ht.pc] at hp1 hruns
      exact ⟨ht.completes hp1, fun low s x hl hs hv => hback.brings (hruns low s x hl (ht.entered hs) (ht.holds hv))⟩

end Compile

/-! ## 4. Values decided early -/

def Proto.Puts (p : Proto) (reg pc stop : Nat) (v : Value) : Prop :=
  ∀ (low : Nat) (regs : Nat → Value), low ≤ reg → Arrives p low ⟨pc, regs⟩ stop reg (.ok v)

/-- Two words have been written that load false and true, at `f` and behind it. -/
structure Booleans (list : List Nat) (d : Draft) (fallsThrough : Bool) (reg f t : Nat) (d' : Draft) :
    Prop where
  moves : d.Moves list d'
  roomy : d'.Roomy
  free : d'.free = d.free
  waits : d'.Waits list d'.pc
  start : fallsThrough = false → f = d.pc
  runs : ∀ (p : Proto) (k : Nat), CompletesAbove k p d' list d'.pc → CompletesAbove k p d list d.pc ∧
    p.Puts reg f d'.pc (.bool false) ∧ p.Puts reg t d'.pc (.bool true) ∧
    (fallsThrough = true → ∀ s, d.Entered p d.pc s → d'.Entered p d'.pc s)

namespace Compile

variable {list : List Nat} {d d' : Draft} {reg : Nat}

theorem Booleans.of_extended {is : List Instr} {passing : JumpList} {falls : Bool} {target : Nat}
    (hw : d.Waits list d.pc) (hr : d.Roomy) (hreg : reg < 255)
    (hx : d.Extended (is ++ [.ofABC .loadBool reg 0 1] ++ [.ofABC .loadBool reg 1 0]) d')
    (hp : ∀ j ∈ passing, j = d.pc ∧ ¬ d'.Sets j) (hpn : passing.Nodup) (hj : ∀ j ∈ passing, d'.Jmp j)
    (hn : is.length = passing.length) (hf : falls = true → d.pc ∈ passing) (hf' : falls = false → is = [])
    (hh : d.here = []) (ht : d'.pc ≤ target) :
    Booleans list d falls reg (d.pc + is.length) (d.pc + is.length + 1)
      { d' with lastTarget := target, here := d'.here ++ passing } := by
  have hmod : reg % 256 = reg := Nat.mod_eq_of_lt (by omega)
  have hpc : d'.pc = d.pc + is.length + 2 := by
    rw [hx.pc]
    simp
    omega
  have hhere : d'.here = [] := hx.here
  have hw' : d'.Waits (list ++ passing) d'.pc := by
    have hold := hx.waits hw (Nat.le_refl _) (by omega)
    refine ⟨Nat.le_refl _, fun j hj' => ?_, ?_, fun h => absurd hhere h⟩
    · rw [hhere, List.append_nil, List.mem_append] at hj'
      rcases hj' with hj' | hj'
      · have := hold.lt hj'
        exact ⟨by omega, hold.jmp hj'⟩
      · have := (hp j hj').1
        exact ⟨by omega, hj j hj'⟩
    · rw [hhere, List.append_nil]
      refine List.nodup_append.mpr ⟨(List.nodup_append.mp hw.nodup).1, hpn, fun a ha b hb => ?_⟩
      have := hold.lt ha
      have := (hp b hb).1
      omega
  have hquiet : d'.Moves list { d' with lastTarget := target, here := d'.here ++ passing } :=
    .quiet rfl (.of_rest rfl) fun _ _ => id
  refine ⟨(hx.moves hw ⟨.ofABC .loadBool reg 1 0, by simp, by simp⟩).trans hquiet, (hx.roomy hr).congr rfl rfl rfl rfl, hx.free, hw'.patched ht, ?_, ?_⟩
  · intro h
    rw [hf' h]
    rfl
  · intro p k hcomp
    have hp1 : CompletesAbove k p d' (list ++ passing) d'.pc := CompletesAbove.patched (by exact hcomp) ht hw'
    have hnew : ∀ j ∈ list ++ passing, j ∈ list ∨ d.pc < j ∨ j = d.pc ∧ ¬ d'.Sets j := by
      intro j hj'
      rcases List.mem_append.mp hj' with hj' | hj'
      · exact .inl hj'
      · exact .inr (.inr (hp j hj'))
    obtain ⟨hp0, -, hcode⟩ := hp1.extended hx (by simp) hw (by omega) hnew fun _ => List.mem_append_left _
    have hloose : ∀ k, is.length ≤ k → k < is.length + 2 → ¬ d'.Loose (list ++ passing) (d.pc + k) := by
      intro k hk hk'
      have hpos : ∀ j ∈ list ++ passing, j < d.pc + is.length ∨ passing = [] ∧ j < d.pc := by
        intro j hj'
        rcases List.mem_append.mp hj' with hj' | hj'
        · have := hw.lt hj'
          omega
        · have := (hp j hj').1
          have : 0 < passing.length := List.length_pos_of_mem hj'
          omega
      rintro (hm | ⟨hm, -⟩)
      · have := hpos _ hm
        omega
      · have := hpos _ hm
        omega
    have hfalse : p.code[d.pc + is.length]? = some (.ofABC .loadBool reg 0 1) := by
      exact hcode is.length _ (by simp) (by omega) (hloose _ (Nat.le_refl _) (by omega)) (by simp)
    have htrue : p.code[d.pc + is.length + 1]? = some (.ofABC .loadBool reg 1 0) := by
      rw [Nat.add_assoc]
      exact hcode (is.length + 1) _ (by simp) (by omega) (hloose _ (by omega) (by omega)) (by simp)
    refine ⟨hp0, fun low regs hl => ?_, fun low regs hl => ?_, fun h s hs => ?_⟩
    · have he := Proto.effect_loadBool (s := ⟨d.pc + is.length, regs⟩) hfalse (by simp)
      rw [Instr.a_ofABC, hmod] at he
      exact .of_write (n := 1) he hl hpc.symm
    · have he := Proto.effect_loadBool (s := ⟨d.pc + is.length + 1, regs⟩) htrue (by simp)
      rw [Instr.a_ofABC, hmod] at he
      exact .of_write (n := 0) he hl hpc.symm
    · have hmem := hf h
      have hpoised : d'.Poised d.pc true (.bool true) s := by
        unfold Draft.Poised
        rw [if_neg (hp _ hmem).2]
        exact ⟨hs.pc_eq hh, rfl⟩
      exact .of_poised hmem rfl hpoised ht

/-- **False and true are loaded**, and control falls into neither. -/
theorem loadBooleans_puts {fallsThrough : Bool} (hw : d.Waits list d.pc) (hr : d.Roomy)
    (hh : d.here = []) (hlast : (d.instr (d.pc - 1)).opcode ≠ .testSet) (hreg : reg < 255) :
    Writes (loadBooleans fallsThrough reg) d fun ft d' =>
      Booleans list d fallsThrough reg ft.1 ft.2 d' := by
  -- what follows once it is known whether control falls through
  have hrest : ∀ (d1 : Draft) (is : List Instr) (passing : JumpList), d.Extended is d1 →
      passing.Nodup → is.length = passing.length → (∀ j ∈ passing, j = d.pc ∧ d1.Jmp j) →
      (fallsThrough = true → d.pc ∈ passing) → (fallsThrough = false → is = []) →
      Writes (do
        discard markTarget
        let f ← emitABC .loadBool reg 0 1
        discard markTarget
        let t ← emitABC .loadBool reg 1 0
        patchHere passing
        return (f, t)) d1 fun ft d' => Booleans list d fallsThrough reg ft.1 ft.2 d' := by
    intro d1 is passing h₁ hpn hn hj hf hf'
    refine Writes.bind (Writes.discard (Writes.markTarget.imp ?_))
    rintro _ d2 ⟨_, hd2⟩
    have h₂ : d.Extended is d2 := by
      rw [hd2]
      exact h₁.mark _
    refine (Writes.emit_nil h₂.here).andThen ?_
    rintro f d3 ⟨hf3, line, hd3⟩
    have h3 : d.Extended (is ++ [.ofABC .loadBool reg 0 1]) d3 := by
      rw [hd3]
      exact h₂.snoc
    refine Writes.bind (Writes.discard (Writes.markTarget.imp ?_))
    rintro _ d4 ⟨_, hd4⟩
    have h4 : d.Extended (is ++ [.ofABC .loadBool reg 0 1]) d4 := by
      rw [hd4]
      exact h3.mark _
    refine (Writes.emit_nil h4.here).andThen ?_
    rintro t d5 ⟨ht5, line', hd5⟩
    have h5 : d.Extended (is ++ [.ofABC .loadBool reg 0 1] ++ [.ofABC .loadBool reg 1 0]) d5 := by
      rw [hd5]
      exact h4.snoc
    refine Writes.patchHere.andThen fun _ d6 hd6 => Writes.pure ?_
    have hf : f = d.pc + is.length := hf3.trans h₂.pc
    have ht : t = d.pc + is.length + 1 := by
      rw [ht5, ← Draft.pc, h4.pc]
      simp
      omega
    subst hd6 hf ht
    have hkeep : ∀ (pc : Nat) i, d1.code[pc]? = some i → d5.code[pc]? = some i := by
      intro pc i hi
      have hlt := (Array.getElem?_eq_some_iff.mp hi).1
      rw [hd5, hd4, hd3, hd2]
      simp only [Draft.push, Array.getElem?_push, Array.size_push]
      rw [if_neg (by omega), if_neg (by omega)]
      exact hi
    have hsets : ¬ d5.Sets d.pc := by
      rintro ⟨hpos, ho⟩
      rw [Draft.instr_congr (h5.same (d.pc - 1) (by omega) (by simp [Draft.Loose, hh]))] at ho
      exact hlast ho
    refine Booleans.of_extended hw hr hreg h5 (fun j hm => ?_) hpn (fun j hm => ?_) hn ‹_› hf' hh (Nat.le_refl _)
    · rw [(hj j hm).1]
      exact ⟨rfl, hsets⟩
    · obtain ⟨i, hi, hrest⟩ := (hj j hm).2
      exact ⟨i, hkeep j i hi, hrest⟩
  unfold loadBooleans
  cases fallsThrough with
  | false =>
    simp only [Bool.false_eq_true, if_false]
    refine Writes.bind (Writes.pure ?_)
    exact hrest d [] [] (.nil hh) .nil rfl (by simp) (by simp) fun _ => rfl
  | true =>
    simp only [if_true]
    refine Writes.jump.andThen ?_
    rintro l d1 ⟨hl, line, hd1⟩
    rw [hh] at hl
    subst hl
    have hnil : { d with here := [] } = d := by
      cases d
      simp_all
    rw [hnil] at hd1
    have h₁ : d.Extended [.ofAsBx .jmp 0 (-1)] d1 := by
      rw [hd1]
      exact .push hh
    refine hrest d1 _ _ h₁ (by simp) rfl (fun j hj => ?_) (fun _ => List.mem_singleton_self _) (by simp)
    rw [List.mem_singleton] at hj
    subst hj
    exact ⟨rfl, _, h₁.new 0 (by simp), by simp, by simp⟩

end Compile

/-- The jumps that leave an expression have been aimed behind it, where their values are in a register. -/
structure Joined (list : List Nat) (d : Draft) (onTrue onFalse : JumpList) (decided : Bool) (reg : Nat)
    (d' : Draft) : Prop where
  moves : d.Moves list d'
  roomy : d'.Roomy
  free : d'.free = d.free
  waits : d'.Waits list d'.pc
  fresh : onTrue ≠ [] ∨ onFalse ≠ [] → d'.Fresh
  same : onTrue = [] → onFalse = [] → d' = d
  runs : ∀ (p : Proto) (k : Nat), CompletesAbove k p d' list d'.pc →
    CompletesAbove k p d (list ++ (onTrue ++ onFalse)) d.pc ∧
    (decided = true → ∀ s, d.Entered p d.pc s → d'.Entered p d'.pc s) ∧
    (decided = false → (∃ j ∈ onTrue, ¬ d.Sets j) → p.Puts reg d.pc d'.pc (.bool false)) ∧
    ∀ (j : Nat) (b : Bool), j ∈ (if b then onTrue else onFalse) → ∀ (low : Nat) (s : Spot) (v : Value),
      low ≤ reg → Decides p d low s j b v → Brings p d' low s reg (.ok v)

namespace Compile

variable {list : List Nat} {d d' : Draft} {reg : Nat} {onTrue onFalse : JumpList}

theorem needsValue_iff (h : ∀ j ∈ onTrue, d.Jmp j) :
    needsValue d onTrue = true ↔ ∃ j ∈ onTrue, ¬ d.Sets j := by
  simp only [needsValue, List.any_eq_true, Bool.not_eq_true']
  constructor
  · rintro ⟨j, hj, hc⟩
    refine ⟨j, hj, fun hs => ?_⟩
    rw [(Draft.controlled_iff (h j hj)).mpr hs] at hc
    cases hc
  · rintro ⟨j, hj, hs⟩
    exact ⟨j, hj, Bool.eq_false_iff.mpr fun hc => hs ((Draft.controlled_iff (h j hj)).mp hc)⟩

/-- **The jumps that leave an expression are aimed behind it.** -/
theorem joins {decided : Bool} (hw : d.Waits (list ++ (onTrue ++ onFalse)) d.pc) (hr : d.Roomy)
    (hh : d.here = []) (hlast : (d.instr (d.pc - 1)).opcode ≠ .testSet) (hreg : reg < 255) :
    Writes (do
      if !(onTrue.isEmpty && onFalse.isEmpty) then
        let s ← MonadState.get
        let (f, t) ←
          if needsValue s.fn onTrue || needsValue s.fn onFalse then loadBooleans decided reg
          else pure (0, 0)
        let stop ← markTarget
        aimJumps stop reg f onFalse
        aimJumps stop reg t onTrue) d fun _ d' => Joined list d onTrue onFalse decided reg d' := by
  by_cases hnone : onTrue = [] ∧ onFalse = []
  · obtain ⟨rfl, rfl⟩ := hnone
    refine Writes.pure ⟨.refl _ _, hr, rfl, by simpa using hw, by simp, fun _ _ => rfl, fun p k hp => ?_⟩
    refine ⟨by simpa using hp, fun _ s hs => hs, by simp, fun j b hj => ?_⟩
    cases b <;> cases hj
  · have hsome : onTrue ≠ [] ∨ onFalse ≠ [] := by
      by_cases h : onTrue = []
      · exact .inr fun h' => hnone ⟨h, h'⟩
      · exact .inl h
    have hcond : (!(onTrue.isEmpty && onFalse.isEmpty)) = true := by
      simp only [Bool.not_eq_true', Bool.and_eq_false_iff, List.isEmpty_eq_false_iff]
      exact hsome
    rw [if_pos hcond]
    have hjt : ∀ j ∈ onTrue, d.Jmp j := fun j hj => hw.jmp (by simp [hj])
    have hjf : ∀ j ∈ onFalse, d.Jmp j := fun j hj => hw.jmp (by simp [hj])
    refine Writes.get fun s hs => ?_
    rw [hs]
    -- the jumps are aimed once the words they may need are there
    have haim : ∀ (d2 : Draft) (f t : Nat), d.Moves (list ++ (onTrue ++ onFalse)) d2 → d2.Roomy →
        d2.free = d.free → d2.Waits (list ++ (onTrue ++ onFalse)) d2.pc →
        (∀ (p : Proto) (k : Nat), CompletesAbove k p d2 (list ++ (onTrue ++ onFalse)) d2.pc →
          CompletesAbove k p d (list ++ (onTrue ++ onFalse)) d.pc ∧
          (decided = true → ∀ s, d.Entered p d.pc s → d2.Entered p d2.pc s) ∧
          (decided = false → (∃ j ∈ onTrue, ¬ d.Sets j) → p.Puts reg d.pc d2.pc (.bool false)) ∧
          ((∃ j ∈ onTrue ++ onFalse, ¬ d.Sets j) →
            p.Puts reg f d2.pc (.bool false) ∧ p.Puts reg t d2.pc (.bool true))) →
        Writes (do
          let stop ← markTarget
          aimJumps stop reg f onFalse
          aimJumps stop reg t onTrue) d2 fun _ d' => Joined list d onTrue onFalse decided reg d' := by
      intro d2 f t hm2 hr2 hf2 hw2 hruns
      refine Writes.markTarget.andThen fun stop d3 ⟨hstop, hd3⟩ => ?_
      have hcode3 : d3.code = d2.code := by rw [hd3]
      have hpc3 : d3.pc = d2.pc := by rw [hd3]; rfl
      have hhere3 : d3.here = d2.here := by rw [hd3]
      have hw3 : d3.Waits ((list ++ onTrue) ++ onFalse) d2.pc := by
        rw [hd3, List.append_assoc]
        exact ⟨Nat.le_refl _, hw2.jumps, hw2.nodup, fun _ => Nat.le_refl _⟩
      have hnd : onFalse.Nodup := (List.nodup_append.mp (List.nodup_append.mp hw3.nodup).1).2.1
      refine (Writes.aimJumps_aims (fun j hj => hw3.jmp (by simp [hj])) hnd).andThen fun _ d4 h4 => ?_
      have hw4 : d4.Waits (list ++ onTrue) d2.pc := h4.waits hw3
      have hnd' : onTrue.Nodup := (List.nodup_append.mp (List.nodup_append.mp hw4.nodup).1).2.1
      refine (Writes.aimJumps_aims (fun j hj => hw4.jmp (by simp [hj])) hnd').imp fun _ d5 h5 => ?_
      have hw5 : d5.Waits list d2.pc := h5.waits hw4
      have hpc5 : d5.pc = d2.pc := h5.size.trans (h4.size.trans hpc3)
      have hm3 : d2.Moves (list ++ onTrue ++ onFalse) d3 := by
        rw [hd3]
        exact .quiet rfl (.of_rest rfl) fun _ _ => id
      rw [List.append_assoc] at hm3
      have hm4 : d3.Moves (list ++ onTrue) d4 := h4.moves hw3
      have hmt : d.SameTests onTrue d4 :=
        ((hm2.trans hm3).tests.mono (by simp +contextual)).trans (hm4.tests.mono (by simp +contextual))
      have hmf : d.SameTests onFalse d3 := (hm2.trans hm3).tests.mono (by simp +contextual)
      have hr3 : d3.Roomy := by
        rw [hd3]
        exact hr2.congr rfl rfl rfl rfl
      have hfresh5 : d5.Fresh := by
        have htarget : d5.lastTarget = d2.pc := by
          rw [h5.rest, h4.rest, hd3]
          rfl
        exact .inl (Nat.le_of_eq (hpc5.trans htarget.symm))
      refine ⟨(hm2.trans hm3).left.trans (hm4.left.trans (h5.moves hw4)), h5.roomy (h4.roomy hr3), ?_, ?_,
        fun _ => hfresh5, fun h h' => absurd ⟨h, h'⟩ hnone, fun p k hp => ?_⟩
      · rw [h5.rest, h4.rest, hd3]
        exact hf2
      · rw [hpc5]
        exact hw5
      · rw [hpc5] at hp
        obtain ⟨hp4, hlt⟩ := hp.aims h5 hw4
        obtain ⟨hp3, hlf⟩ := hp4.aims h4 hw3
        rw [List.append_assoc, hd3] at hp3
        obtain ⟨hp0, hfall, hfirst, hput⟩ := hruns p k (hp3.marked (Nat.le_refl _) hw2)
        have hstop2 : stop = d2.pc := hstop
        subst hstop2
        refine ⟨hp0, fun h s hs => ?_, by rw [hpc5]; exact hfirst, fun j b hj low s v hl hd => ?_⟩
        · -- jumps to the next place are where they were
          have hs2 := hfall h s hs
          have hhere5 : d5.here = d2.here := by
            rw [h5.rest, h4.rest]
            exact hhere3
          have htests : d2.SameTests d2.here d5 := by
            have h3 : d2.SameTests d2.here d3 := .of_code fun _ _ => by rw [hcode3]
            have h34 : d3.SameTests d2.here d4 := by
              rw [← hhere3]
              exact h4.sameTests_here hw3
            have hhere4 : d4.here = d2.here := by
              rw [h4.rest]
              exact hhere3
            refine h3.trans (h34.trans ?_)
            rw [← hhere4]
            exact h5.sameTests_here hw4
          refine ⟨?_, fun ho => absurd ho hfresh5.not_open⟩
          rw [hhere5, hpc5]
          exact hs2.near.imp_right fun ⟨j, hj, b, v, hv, hpoised⟩ => ⟨j, hj, b, v, hv, hpoised.congr htests hj⟩
        -- an early value has arrived
        have hend : ∀ {s : Spot} {v : Value}, Arrives p low s d2.pc reg (.ok v) → Brings p d5 low s reg (.ok v) := by
          intro s v harr
          rw [← hpc5] at harr
          exact harr.brings fun _ => hfresh5.primed
        cases b with
        | true =>
          obtain ⟨regs, ⟨-, hpath, hv⟩ | ⟨hn, hpath, hv⟩⟩ := hd.lands ((hlt j hj).congr hmt hj) ⟨hl, hreg⟩
          · exact hend ⟨regs, hpath, hv⟩
          · subst hv
            exact hend (.after hpath ((hput ⟨j, by simp [show j ∈ onTrue from hj], hn⟩).2 low regs hl))
        | false =>
          obtain ⟨regs, ⟨-, hpath, hv⟩ | ⟨hn, hpath, hv⟩⟩ := hd.lands ((hlf j hj).congr hmf hj) ⟨hl, hreg⟩
          · exact hend ⟨regs, hpath, hv⟩
          · subst hv
            exact hend (.after hpath ((hput ⟨j, by simp [show j ∈ onFalse from hj], hn⟩).1 low regs hl))
    by_cases hneed : (needsValue d onTrue || needsValue d onFalse) = true
    · rw [if_pos hneed]
      refine (loadBooleans_puts hw hr hh hlast hreg).andThen fun ft d2 hb => ?_
      refine haim d2 ft.1 ft.2 hb.moves hb.roomy hb.free hb.waits fun p k hp => ?_
      obtain ⟨hp0, hfalse, htrue, hfall⟩ := hb.runs p k hp
      refine ⟨hp0, hfall, fun hd _ => ?_, fun _ => ⟨hfalse, htrue⟩⟩
      rw [← hb.start hd]
      exact hfalse
    · rw [if_neg hneed]
      refine Writes.bind (Writes.pure (haim d 0 0 (.refl _ _) hr rfl hw fun p k hp => ?_))
      have hall : ¬ ∃ j ∈ onTrue ++ onFalse, ¬ d.Sets j := by
        rintro ⟨j, hj, hs⟩
        refine hneed ?_
        rw [Bool.or_eq_true, needsValue_iff hjt, needsValue_iff hjf]
        rcases List.mem_append.mp hj with hj | hj
        · exact .inl ⟨j, hj, hs⟩
        · exact .inr ⟨j, hj, hs⟩
      refine ⟨hp, fun _ s hs => hs, fun _ ⟨j, hj, hs⟩ => ?_, fun h => absurd h hall⟩
      exact absurd ⟨j, List.mem_append_left _ hj, hs⟩ hall

end Compile

end LuaMachine
