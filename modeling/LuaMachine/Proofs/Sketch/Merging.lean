/-
  CLEARING REGISTERS NEVER PASSES A JUMP TARGET. An instruction that clears registers is widened only where
  nothing leads behind it, and then clears both ranges and nothing else; so a local without a value is nil
  each time control comes to it.

  * `Grammar.merging_crosses_no_target` -- **all of it, for statements at any depth**.
-/
import LuaMachine.Proofs.Machine.During
import LuaMachine.Proofs.Meaning.Step
import LuaMachine.Proofs.Sketch.Statement

namespace LuaMachine

/-! ## 1. Nothing leads behind the last instruction -/

namespace Sketch

variable {scope : Bool} {u u' w : Sketch} {start n k : Nat} {i j : Instr}

/-- Nothing that has been written or noted leads behind the last instruction but that instruction itself. -/
structure Shut (u : Sketch) : Prop where
  targets : ∀ t ∈ u.targets, t < u.draft.pc
  /-- No jump is aimed there. -/
  jumps : ∀ (m : Nat) (i : Instr), u.draft.code[m]? = some i → i.opcode.layout = .asbx →
    (m : Int) + 1 + i.sbx ≠ u.draft.pc
  /-- No instruction passes the last one. -/
  skips : ∀ (m : Nat) (i : Instr), u.draft.code[m]? = some i → i.skipsNext = true → m + 2 ≠ u.draft.pc
  /-- No jump waits to arrive there. -/
  here : u.draft.here = []
  /-- No label stands there. -/
  labels : ∀ l ∈ u.draft.labels, l.pc ≠ u.draft.pc
  /-- No loop that is being read goes back there. -/
  heads : ∀ t ∈ u.heads, t ≠ u.draft.pc

theorem Sound.shut (hu : u.Sound) (hlast : u.draft.OpAt (u.draft.pc - 1) .loadNil)
    (hahead : ∀ t ∈ u.targets, t < u.draft.pc) : u.Shut where
  targets := hahead
  jumps := by
    intro m i hi hlayout hdest
    have hlt : m < u.draft.pc := (Array.getElem?_eq_some_iff.mp hi).1
    rcases hu.aimed.jumps m i hi hlayout with hself | ⟨t, ht, htarget⟩
    · omega
    · have htlt := hahead t ht
      omega
  skips := by
    intro m i hi hskip hdest
    obtain ⟨j, hj, hnil, -⟩ := hu.coded.skipped m i hi hskip
    obtain ⟨l, hl, hop⟩ := hlast
    rw [← hdest, Nat.add_sub_assoc (by decide), hj] at hl
    cases hl
    exact hnil hop
  here := hu.aimed.arrives.resolve_right fun hpc => Nat.lt_irrefl _ (hahead _ hpc)
  labels := fun l hl => Nat.ne_of_lt (hahead _ (hu.aimed.labels l hl))
  heads := fun t ht => Nat.ne_of_lt (hahead _ (hu.aimed.heads t ht))

/-- **Where the last instruction is widened nothing leads behind it.** -/
theorem Sound.shut_of_merges (hu : u.Sound) (h : u.draft.Merges start n) : u.Shut :=
  hu.shut (Draft.opAt_instr h.2.1 (by decide)) (hu.aimed.ahead_of_merges h)

/-! ## 2. What changes an instruction that clears -/

theorem Turn.not_of_loadNil {targets : List Nat} (hi : i.opcode = .loadNil) (h : i.Turn targets n j) : False := by
  cases h with
  | operands hmild => exact (Op.isMild_iff.mp hmild).2.1 hi
  | register hnil => exact hnil hi
  | test hop =>
    rw [hi] at hop
    cases hop
  | tail hop =>
    rw [hi] at hop
    cases hop
  | aim hlayout =>
    rw [hi] at hlayout
    cases hlayout

/-- **Nothing but widening changes an instruction that clears registers**, and only the last one. -/
theorem Step.merges_of_changed (h : Step scope u u') (hk : u.draft.code[k]? = some i) (hi : i.opcode = .loadNil)
    (hj : u'.draft.code[k]? = some j) (hne : j ≠ i) : ∃ start n, u.draft.Merges start n ∧ 1 ≤ n ∧ start + n ≤ 255 ∧
      k + 1 = u.draft.pc ∧ u'.draft = u.draft.widened start n := by
  have hlt : k < u.draft.code.size := (Array.getElem?_eq_some_iff.mp hk).1
  have hsame : u'.draft.code[k]? = u.draft.code[k]? → False := fun he => by
    rw [hj, hk] at he
    exact hne (Option.some.inj he)
  cases h with
  | write =>
    refine (hsame ?_).elim
    rw [Draft.push, Array.getElem?_push, if_neg (Nat.ne_of_lt hlt)]
  | pair =>
    refine (hsame ?_).elim
    rw [Draft.push, Draft.push, Array.getElem?_push, Array.getElem?_push, if_neg (Nat.ne_of_lt hlt), if_neg ?_]
    rw [Array.size_push]
    exact Nat.ne_of_lt (Nat.lt_succ_of_lt hlt)
  | @turn m f hturn =>
    refine (hsame ?_).elim
    by_cases hm : m = k
    · rw [hm] at hturn
      exact (Turn.not_of_loadNil hi (hturn i hk)).elim
    · rw [Draft.mapInstr, Array.getElem?_modify, if_neg hm]
  | @merge start n hmerges hpos hroom hprev =>
    obtain ⟨_, _, _, hcode, _, _⟩ := hmerges.widens hpos hroom hprev
    refine ⟨start, n, hmerges, hpos, hroom, ?_, rfl⟩
    by_cases hlast : k = u.draft.pc - 1
    · have hpc : k < u.draft.pc := hlt
      omega
    · exact (hsame ((hcode k).trans (if_neg hlast))).elim
  | takeBack =>
    refine (hsame ?_).elim
    have hpop := (Array.getElem?_eq_some_iff.mp hj).1
    rw [Array.size_pop] at hpop
    rw [Array.getElem?_pop, if_pos hpop]
  | mark | enterLoop | openLoop | closeLoop | gather | declare | enterBlock => exact (hsame rfl).elim
  | keep hkeep => exact (hsame (by rw [hkeep.code])).elim
  | begin | restart =>
    obtain ⟨ls, hls⟩ := Compile.mapLocal_eq u.draft _ fun v => { v with start := u.draft.pc }
    exact (hsame (by rw [hls])).elim
  | @leaveBlock b around =>
    obtain ⟨ls, ds, hls⟩ := Compile.endLocals_eq b.active { u.draft with blocks := around }
    exact (hsame (by rw [hls])).elim

theorem lasting_clears (a n : Nat) :
    Lasting fun i => i.opcode = .loadNil ∧ i.a.val ≤ a ∧ a + n ≤ i.a.val + i.b.val + 1 where
  not_taken := by
    intro i hi hnot
    rw [hi.1] at hnot
    cases hnot
  turned := fun _ _ _ _ hi h => (Turn.not_of_loadNil hi.1 h).elim
  widened := by
    intro i j hi h
    have hfirst := h.first
    have hlast := h.last
    exact ⟨h.after, by omega, by omega⟩

end Sketch

/-- The widened instruction clears the registers that the last one cleared and `n` from `start` on, and nothing else;
    no other instruction changes. -/
def Draft.Unites (d : Draft) (start n : Nat) : Prop :=
  ∃ i j, d.code[d.pc - 1]? = some i ∧ i.opcode = .loadNil ∧ j.opcode = .loadNil ∧
    (∀ k, (d.widened start n).code[k]? = if k = d.pc - 1 then some j else d.code[k]?) ∧
    ∀ r, j.a.val ≤ r ∧ r ≤ j.a.val + j.b.val ↔
      (i.a.val ≤ r ∧ r ≤ i.a.val + i.b.val) ∨ (start ≤ r ∧ r < start + n)

theorem Sketch.Sound.unites {u : Sketch} {start n : Nat} (hu : u.Sound) (h : u.draft.Merges start n) (hn : 1 ≤ n)
    (hroom : start + n ≤ 255) : u.draft.Unites start n := by
  obtain ⟨i, j, hi, hcode, hwidens, hunion⟩ := h.widens hn hroom (hu.coded.last_of_merges h)
  exact ⟨i, j, hi, hwidens.before, hwidens.after, hcode, hunion⟩

instance (d : Draft) (start n : Nat) : Decidable (d.Merges start n) :=
  inferInstanceAs (Decidable (d.lastTarget < d.pc ∧ (d.instr (d.pc - 1)).opcode = .loadNil ∧
    (((d.instr (d.pc - 1)).a.val ≤ start ∧
        start ≤ (d.instr (d.pc - 1)).a.val + (d.instr (d.pc - 1)).b.val + 1) ∨
      (start ≤ (d.instr (d.pc - 1)).a.val ∧ (d.instr (d.pc - 1)).a.val ≤ start + n - 1 + 1))))

theorem Compile.run_loadNil {s : Compiler} {start n : Nat} (h : s.fn.Merges start n) :
    loadNil start n s = .ok ((), { s with fn := s.fn.widened start n }) := by
  unfold loadNil
  rw [run_bind (show ofFn id s = .ok (s.fn, s) from rfl)]
  dsimp only
  split
  · rfl
  · next hnot => exact absurd h hnot

theorem Compile.run_loadNil_alone {s : Compiler} {start n : Nat} (h : ¬ s.fn.Merges start n) :
    loadNil start n s = (Functor.discard (emitABC .loadNil start (n - 1) 0)) s := by
  unfold loadNil
  rw [run_bind (show ofFn id s = .ok (s.fn, s) from rfl)]
  dsimp only
  split
  · next hmerges => exact absurd hmerges h
  · rfl

/-! ## 3. Locals without values -/

theorem Sketch.Clears.begun {u u' : Sketch} {start n k : Nat} (h : u.Clears start n) (hb : Compile.Goes.Begun u k u') :
    u'.Clears start n := by
  have hpc : u'.draft.pc = u.draft.pc := by rw [Draft.pc, Draft.pc, hb.code]
  refine ⟨?_, ?_⟩
  · rw [hpc, Draft.HoldsAt, hb.code]
    exact h.last
  · rw [hpc, hb.targets]
    exact h.ahead

namespace Grammar

open Compile Compile.Goes

variable {g : Grammar} {scope : Bool} {u : Sketch} {bs hs : List Nat} {n : Nat} {s t t' s' : Compiler}

def localNames (g : Grammar) : Compile Nat := do
  declare (← checkName)
  namesFrom g.bound 1

theorem localStatement_ok (hnames : g.localNames s = .ok (n, t)) (hnone : testNext (.symbol .assign) t = .ok (false, t'))
    (hrun : g.localStatement s = .ok ((), s')) :
    (do adjust n 0 (.plain .void); activate n) t' = .ok ((), s') := by
  obtain ⟨name, s1, hname, hnames⟩ := bind_ok hnames
  obtain ⟨_, s2, hdeclare, hnames⟩ := bind_ok hnames
  obtain ⟨name', s1', hname', hrun⟩ := bind_ok hrun
  cases hname.symm.trans hname'
  obtain ⟨_, s2', hdeclare', hrun⟩ := bind_ok hrun
  cases hdeclare.symm.trans hdeclare'
  obtain ⟨n', t1, hnames', hrun⟩ := bind_ok hrun
  cases hnames.symm.trans hnames'
  obtain ⟨value, t2, hnone', hrun⟩ := bind_ok hrun
  cases hnone.symm.trans hnone'
  exact hrun

theorem localNames_goes (hu : u.At 0 bs hs) : Goes true g.localNames u fun c u' => u'.At c bs hs ∧ 1 ≤ c ∧
    u'.draft.free = u.draft.free ∧ u'.draft.active = u.draft.active := by
  refine read Reads.checkName fun name => (Goes.declare name hu).bind fun _ u1 _ h1 => ?_
  refine (namesFrom_goes (k := 0) _ 1 h1.1).imp fun c u' h => ?_
  rw [Nat.zero_add] at h
  exact ⟨h.1, h.2.1, h.2.2.1.trans h1.2.1, h.2.2.2.trans h1.2.2.1⟩

theorem adjust_clears (hn : 1 ≤ n) :
    Goes scope (adjust n 0 (.plain .void)) u fun _ u' => u'.Clears u.draft.free n := by
  unfold adjust
  extract_lets surplus wanted missing
  have hmissing : Goes scope (missing ()) u fun _ u' => u'.Clears u.draft.free n := by
    show Goes scope (if 0 < n then _ else _) _ _
    rw [if_pos (Nat.lt_of_succ_le hn)]
    refine get fun s hs => ?_
    rw [hs]
    refine (Goes.reserve n).bind fun _ u1 _ h1 => ?_
    refine (Goes.loadNil hn (Nat.le_succ_of_le h1.2.2)).bind fun _ u2 _ h2 => ?_
    show Goes scope (if n < 0 then _ else _) _ _
    rw [if_neg (Nat.not_lt_zero n)]
    exact pure h2
  rw [if_neg (by decide), if_neg (by decide)]
  exact hmissing

/-- **A local without a value is cleared** behind all that jumps may go to. -/
theorem localStatement_clears (hsound : u.Sound) (hu : u.Ready bs hs) (hs' : s.fn = u.draft)
    (hnames : g.localNames s = .ok (n, t)) (hnone : testNext (.symbol .assign) t = .ok (false, t'))
    (hrun : g.localStatement s = .ok ((), s')) :
    ∃ u', Sketch.Steps true u u' ∧ s'.fn = u'.draft ∧ 1 ≤ n ∧ u'.draft.active = u.draft.active + n ∧
      u'.Clears u.draft.active n := by
  obtain ⟨u1, ht, hpasses1, hat, hpos, hfree, hactive⟩ := localNames_goes hu.level hsound s n t hs' hnames
  have hsound1 := hpasses1.steps.sound hsound
  have hrest : Goes true (do adjust n 0 (.plain .void); activate n) u1 fun _ u' =>
      u'.draft.active = u.draft.active + n ∧ u'.Clears u.draft.active n := by
    refine (adjust_clears hpos).resting.bind fun _ u2 _ h2 => ?_
    have hwaits := (hat.rests h2.2).waits
    refine (Goes.activate (Nat.le_of_eq hwaits.symm)).imp fun _ u3 h3 => ⟨?_, ?_⟩
    · rw [h3.active, h2.2.active, hactive]
    · have hclears := h2.1
      rw [hfree, hu.free] at hclears
      exact hclears.begun h3
  have ht' : t'.fn = u1.draft := (congrArg Drafts.fn (Reads.testNext t false t' hnone)).trans ht
  obtain ⟨u', hs, hpasses, hactive', hclears⟩ :=
    hrest hsound1 t' () s' ht' (localStatement_ok hnames hnone hrun)
  exact ⟨u', hpasses1.steps.trans hpasses.steps, hs, hpos, hactive', hclears⟩

end Grammar

/-! ## 4. The machine -/

namespace Exec

variable {f : Frame} {i : Instr} {m m' : Machine} {rest : List Frame}

theorem plain_stays (hop : i.opcode.skips = true) (hskip : i.skipsNext = false) :
    Passes f.base (fun _ => False) (· = f.pc) f (plain f i i.opcode) := by
  have ra : f.base ≤ f.base + i.a.val := Nat.le_add_right _ _
  unfold Instr.skipsNext at hskip
  split at hskip
  · next ho =>
    rw [ho]
    refine (Spares.write ra _).thenPasses rfl fun _ => ?_
    rw [if_neg (of_decide_eq_false hskip)]
    exact (Spares.pure _).passes rfl
  · next ho =>
    have hblock : i.c.val ≠ 0 := of_decide_eq_false hskip
    rw [ho]
    show Passes _ _ _ _ (storeItems f i)
    unfold storeItems
    extract_lets ra b counted
    have hcounted : ∀ n, Passes f.base (fun _ => False) (· = f.pc) f (counted n) := by
      intro n
      unfold counted
      extract_lets stored
      rw [if_neg hblock]
      refine (Spares.pure _).thenPasses rfl fun block => ?_
      refine Spares.passes ((Spares.read _).bind fun v => ?_) rfl
      split
      · exact (Spares.readMany _ _).bind fun _ => Spares.setKeys _ _ _
      · exact .fail _
    split
    · exact Spares.get.thenPasses rfl fun _ => (Spares.pure _).thenPasses rfl hcounted
    · exact (Spares.pure _).thenPasses rfl hcounted
  · rw [hop] at hskip
    cases hskip

theorem executed_of_step (hf : m.frames = f :: rest) (h : m.step .run = .more m' .run) : ∃ i n,
    f.proto.code[f.pc]? = some i ∧ execute { f with pc := f.pc + 1 } i (fetched m f rest n) = .ok .run m' := by
  have hmeets : Meets True (fun _ _ => True) fetch m fun r m1 => ∃ i n, f.proto.code[f.pc]? = some i ∧
      r = ({ f with pc := f.pc + 1 }, i) ∧ m1 = fetched m f rest n :=
    fetch_meets_stands hf (fun _ _ => trivial) (fun _ _ _ => trivial) fun i n hi => ⟨i, n, hi, rfl, rfl⟩
  unfold Meets at hmeets
  cases hfetch : fetch m with
  | ok r m1 =>
    rw [hfetch] at hmeets
    obtain ⟨i, n, hi, rfl, rfl⟩ := hmeets
    refine ⟨i, n, hi, ?_⟩
    rw [Machine.step_of_fetch hfetch] at h
    unfold Machine.ofExec at h
    split at h
    · next hexec =>
      cases h
      exact hexec
    · cases h
    · cases h
  | error e m1 =>
    have hstep : m.step .run = Machine.ofExec (fetch >>= fun r => execute r.1 r.2) m := rfl
    have herror : (fetch >>= fun r => execute r.1 r.2) m = .error e m1 := by
      show EStateM.bind fetch _ m = _
      unfold EStateM.bind
      rw [hfetch]
    rw [hstep] at h
    unfold Machine.ofExec at h
    rw [herror] at h
    cases e <;> cases h

theorem moves_of_step {pc : Nat} (hm : m.Tidy) (hf : m.frames = f :: rest) (hi : f.proto.code[f.pc]? = some i)
    (hcall : isCall i.opcode = false) (h : m.step .run = .more m' .run) (hf' : m'.frames = { f with pc := pc } :: rest) :
    f.proto.Next (f.pc + 1) i pc ∧ (i.skipsNext = false → i.opcode.skips = true → pc = f.pc + 1) := by
  obtain ⟨i', n, hi', hexec⟩ := executed_of_step hf h
  cases hi.symm.trans hi'
  rw [execute_still hcall] at hexec
  have htidy : (fetched m f rest n).Tidy := ⟨hm.sorted, hm.live⟩
  -- the rest of the instruction only says how the machine goes on
  have hplain : plain { f with pc := f.pc + 1 } i i.opcode (fetched m f rest n) = .ok () m' := by
    cases hp : plain { f with pc := f.pc + 1 } i i.opcode (fetched m f rest n) with
    | ok _ m1 =>
      rw [bind_of_ok hp] at hexec
      cases hexec
      rfl
    | error e m1 =>
      have herror : (do plain { f with pc := f.pc + 1 } i i.opcode; return Mode.run : Exec Mode) (fetched m f rest n) =
          .error e m1 := by
        show EStateM.bind _ _ _ = _
        unfold EStateM.bind
        rw [hp]
      rw [herror] at hexec
      cases hexec
  have hsame : ∀ {pc' : Nat}, m'.frames = { f with pc := pc' } :: rest → pc = pc' := fun h' => by
    have heads := (List.cons.inj (hf'.symm.trans h')).1
    exact congrArg Frame.pc heads
  refine ⟨?_, fun hskip hop => ?_⟩
  · by_cases hjmp : i.opcode = .jmp
    · have hjump := jmp_meets (f := { f with pc := f.pc + 1 }) 0 (fun _ => False) hjmp htidy rfl
      unfold Meets at hjump
      rw [hplain] at hjump
      rw [hsame hjump.2.2.1]
      exact .inr (.inr ⟨.inl hjmp, rfl⟩)
    · have hpasses := plain_passes (f := { f with pc := f.pc + 1 }) hjmp _ rest htidy rfl
      unfold Meets at hpasses
      rw [hplain] at hpasses
      obtain ⟨pc', hnext, hframes⟩ := hpasses.2.2
      rw [hsame hframes]
      exact hnext
  · have hpasses := plain_stays (f := { f with pc := f.pc + 1 }) hop hskip _ rest htidy rfl
    unfold Meets at hpasses
    rw [hplain] at hpasses
    obtain ⟨pc', rfl, hframes⟩ := hpasses.2.2
    exact hsame hframes

end Exec

namespace Sketch

variable {w : Sketch} {k a n : Nat}

/-- Each time the function comes to the instruction at `k` its registers from `a` on, `n` of them, become nil. -/
structure Renews (w : Sketch) (k a n : Nat) : Prop where
  instr : w.draft.HoldsAt k fun i => i.opcode = .loadNil ∧ i.a.val ≤ a ∧ a + n ≤ i.a.val + i.b.val + 1
  /-- A machine at the instruction sets the registers to nil and goes on behind it. -/
  runs : ∀ (m : Machine) (f : Frame) (rest : List Frame), f.proto.code = w.draft.code → f.proto.Sound →
    m.limits.Endless → m.frames = { f with pc := k } :: rest → f.top ≤ m.stack.size →
    ∃ m', m.step .run = .more m' .run ∧ m'.frames = { f with pc := k + 1 } :: rest ∧
      ∀ r, a ≤ r → r < a + n → m'.stack[f.base + r]? = some .nil
  /-- Where jumps do not go behind it, a machine comes there from no other instruction. -/
  comes : k + 1 ∉ w.targets → ∀ (m m' : Machine) (f : Frame) (rest : List Frame) (i : Instr), m.Tidy →
    f.proto.code = w.draft.code → m.frames = f :: rest → f.proto.code[f.pc]? = some i → Exec.isCall i.opcode = false →
    m.step .run = .more m' .run → m'.frames = { f with pc := k + 1 } :: rest → f.pc = k ∨ f.pc = k + 1

theorem Sound.renews (hw : w.Sound)
    (h : w.draft.HoldsAt k fun i => i.opcode = .loadNil ∧ i.a.val ≤ a ∧ a + n ≤ i.a.val + i.b.val + 1) :
    w.Renews k a n where
  instr := h
  runs := by
    intro m f rest hcode hp hl hf htop
    obtain ⟨i, hi, hop, hfirst, hlast⟩ := h
    rw [← hcode] at hi
    have hfits := hp.fits k i hi
    simp only [Instr.Fits, hop] at hfits
    have hfetch := Exec.fetch_ok (f := { f with pc := k }) hl.budget hl.expired hf hi
    have hroom : f.base + i.a.val + (i.b.val + 1) ≤ m.stack.size := by
      have htop' : f.base + f.proto.room.registers ≤ m.stack.size := htop
      omega
    obtain ⟨stack, hclear, -, hnil, -⟩ := Exec.clear_ok
      (m := { m with executed := m.executed + 1, frames := { f with pc := k + 1 } :: rest }) hroom
    refine ⟨{ m with executed := m.executed + 1, frames := { f with pc := k + 1 } :: rest, stack := stack },
      Machine.step_of_ok hfetch ?_, rfl, fun r hr hlt => ?_⟩
    · rw [Exec.execute_still (by rw [hop]; rfl), hop]
      exact (Exec.bind_of_ok (hclear : Exec.plain { f with pc := k + 1 } i .loadNil _ = _)).trans rfl
    · have hget := hnil (r - i.a.val) (by omega)
      rw [Nat.add_assoc, Nat.add_sub_cancel' (Nat.le_trans hfirst hr)] at hget
      exact hget
  comes := by
    intro hk m m' f rest i hm hcode hf hi hcall hstep hf'
    obtain ⟨hnext, hstays⟩ := Exec.moves_of_step hm hf hi hcall hstep hf'
    rw [hcode] at hi
    rcases hnext with ⟨-, hpc⟩ | ⟨hskips, hpc⟩ | ⟨hjump, hpc⟩
    · exact .inl (Nat.succ.inj hpc).symm
    · cases hskip : i.skipsNext with
      | false =>
        have hsucc := hstays hskip hskips
        omega
      | true =>
        obtain ⟨j, hj, hop, -⟩ := h
        obtain ⟨j', hj', hnil, -⟩ := hw.coded.skipped f.pc i hi hskip
        rw [← Nat.succ.inj hpc, hj] at hj'
        cases hj'
        exact (hnil hop).elim
    · have hlayout := Op.layout_asbx.mpr hjump
      unfold Proto.target at hpc
      rcases hw.aimed.jumps f.pc i hi hlayout with hself | ⟨t, ht, htarget⟩
      · split at hpc
        · exact .inr (by omega)
        · omega
      · split at hpc
        · have hdest : t = k + 1 := by omega
          exact absurd (hdest ▸ ht) hk
        · omega

end Sketch

/-! ## 5. All of it -/

namespace Grammar

open Compile (Goes)

/-- **Clearing registers never passes a jump target.** Whatever a compilation has come to: where the last instruction
    is widened, nothing that is written or noted leads behind it, and it then clears both ranges of registers and
    nothing else; no instruction that clears registers is changed in another way. A compilation comes to nothing else:
    every function that is finished has been reached by steps, every statement goes by steps, and the statements of a
    loop are read while the place where the loop goes back to is among those that are kept. So a declaration without
    values leaves an instruction behind which nothing leads that was there before; it stays, whatever follows, and each
    time control comes to it the registers of its locals become nil. -/
theorem merging_crosses_no_target (bound level : Nat) :
    (∀ (s : Compiler) (u : Sketch) (start n : Nat), u.Reachable → s.fn = u.draft → u.draft.Merges start n → 1 ≤ n →
      start + n ≤ 255 → Compile.loadNil start n s = .ok ((), { s with fn := u.draft.widened start n }) ∧ u.Shut ∧
        u.draft.Unites start n) ∧
    (∀ (u u' : Sketch) (k : Nat) (i j : Instr), u.Reachable → u.Step true u' → u.draft.code[k]? = some i →
      i.opcode = .loadNil → u'.draft.code[k]? = some j → j ≠ i → ∃ start n, u.draft.Merges start n ∧ 1 ≤ n ∧
        start + n ≤ 255 ∧ k + 1 = u.draft.pc ∧ u'.draft = u.draft.widened start n) ∧
    (∀ (source : Bytes) (name : String) (p : Proto), compile source name = .ok p → p.All fun q =>
      q.Sound ∧ ∃ u : Sketch, u.Reachable ∧ q.code = u.draft.code) ∧
    (∀ (u : Sketch) (bs hs : List Nat), u.Ready bs hs →
      Goes true (ofLevels Compile.named bound level).statement u fun _ u' => u'.Ready bs hs) ∧
    (∀ (g : Grammar) (u : Sketch) (bs hs : List Nat) (line : Nat), g.Terms → u.At 0 bs hs →
      g.Orders (u.draft.pc :: hs) → Goes true (g.whileStatement line) u (fun _ u' => u'.At 0 bs hs) ∧
        Goes true (g.repeatStatement line) u fun _ u' => u'.At 0 bs hs) ∧
    (∀ (g : Grammar) (u : Sketch) (bs hs : List Nat) (base line vars : Nat) (numeric : Bool), u.At (vars + 3) bs hs →
      g.Orders ((u.draft.pc + 1) :: hs) → Goes true (g.forBody base line vars numeric) u fun _ u' => u'.At 0 bs hs) ∧
    (∀ (s t t' s' : Compiler) (u : Sketch) (bs hs : List Nat) (n : Nat), u.Reachable → u.Ready bs hs → s.fn = u.draft →
      (ofLevels Compile.named bound level).localNames s = .ok (n, t) →
      Compile.testNext (.symbol .assign) t = .ok (false, t') →
      (ofLevels Compile.named bound level).localStatement s = .ok ((), s') → ∃ u', Sketch.Steps true u u' ∧
        s'.fn = u'.draft ∧ 1 ≤ n ∧ u'.draft.active = u.draft.active + n ∧ u'.Shut ∧
        ∀ w, Sketch.Steps true u' w → w.Renews (u'.draft.pc - 1) u.draft.active n) := by
  obtain ⟨horders, -⟩ := orders_ofLevels bound level
  refine ⟨?_, ?_, ?_, fun u bs hs hu => horders hs u bs hu, ?_, ?_, ?_⟩
  · intro s u start n hu hs hmerges hn hroom
    refine ⟨?_, hu.sound.shut_of_merges hmerges, hu.sound.unites hmerges hn hroom⟩
    rw [← hs]
    exact Compile.run_loadNil (hs ▸ hmerges)
  · exact fun u u' k i j _ hstep hk hi hj hne => hstep.merges_of_changed hk hi hj hne
  · intro source name p hp
    refine ((compile_made hp).1.and (wrought_of_compile hp)).imp fun q hq => ⟨hq.1.toSound, ?_⟩
    obtain ⟨u, _, hu, -, rfl⟩ := hq.2
    exact ⟨u, hu, rfl⟩
  · exact fun g u bs hs line hg hu ho => ⟨ho.whileStatement hg line hu, ho.repeatStatement hg line hu⟩
  · exact fun g u bs hs base line vars numeric hu ho => ho.forBody base line numeric hu
  · intro s t t' s' u bs hs n hu hready hs' hnames hnone hrun
    obtain ⟨u', hsteps, hfn, hpos, hactive, hclears⟩ := localStatement_clears hu.sound hready hs' hnames hnone hrun
    have hsound := hsteps.sound hu.sound
    refine ⟨u', hsteps, hfn, hpos, hactive, hsound.shut (hclears.last.imp fun _ h => h.1) hclears.ahead, ?_⟩
    exact fun w hw => (hw.sound hsound).renews (hw.holdsAt (Sketch.lasting_clears _ _) hclears.last)

end Grammar

/-- A state of the compiler in a function that begins, in front of these tokens. -/
def Compiler.reading (first : Token) (rest : List Token) : Compiler where
  current := ⟨first, 1, 0, []⟩
  ahead := rest.map fun t => ⟨t, 1, 0, []⟩
  fault := none
  lastLine := 1
  chunk := ""
  source := []
  fn := Draft.new 0
  outer := []

theorem exists_ok_of_toOption {ε α β : Type} {x : Except ε α} {f : α → β} {b : β}
    (h : x.toOption.map f = some b) : ∃ a, x = .ok a ∧ f a = b := by
  cases x with
  | error e => cases h
  | ok a => exact ⟨a, rfl, Option.some.inj h⟩

/-- The declaration `local a` leaves an instruction behind which nothing leads, and which makes its register nil each
    time; for `local b` after it that instruction is widened. -/
theorem Grammar.merging_crosses_no_target_twice :
    (∃ (s : Compiler) (u : Sketch), (ofLevels Compile.named 8 4).localStatement
        (.reading (.name [97]) [.keyword .local, .name [98], .eof]) = .ok ((), s) ∧
      s.fn = u.draft ∧ u.Shut ∧ u.Renews 0 0 1) ∧
    ∃ (s : Compiler) (u : Sketch), (ofLevels Compile.named 8 4).statement
        (.reading (.keyword .local) [.name [97], .keyword .local, .name [98], .eof]) = .ok ((), s) ∧
      s.fn = u.draft ∧ u.Reachable ∧ u.Shut ∧ u.draft.Unites 1 1 ∧
      Compile.loadNil 1 1 s = .ok ((), { s with fn := u.draft.widened 1 1 }) ∧
      (u.draft.widened 1 1).code = #[.ofABC .loadNil 0 1 0] := by
  obtain ⟨hmerging, -, -, hstatement, -, -, hlocal⟩ := merging_crosses_no_target 8 4
  have hnew : (Sketch.new 0).Ready [] [] := ⟨⟨rfl, rfl, rfl⟩, rfl⟩
  refine ⟨?_, ?_⟩
  · have hnames : ((ofLevels Compile.named 8 4).localNames
        (.reading (.name [97]) [.keyword .local, .name [98], .eof])).toOption.map
          (fun r => (r.1, (Compile.testNext (.symbol .assign) r.2).toOption.map (·.1))) = some (1, some false) := by
      decide +kernel
    have hruns : ((ofLevels Compile.named 8 4).localStatement
        (.reading (.name [97]) [.keyword .local, .name [98], .eof])).toOption.map (·.2.fn.pc) = some 1 := by
      decide +kernel
    obtain ⟨⟨n, t⟩, hnames, hcount⟩ := exists_ok_of_toOption hnames
    obtain ⟨rfl, hnone⟩ := Prod.mk.inj hcount
    obtain ⟨⟨_, t'⟩, hnone, rfl⟩ := exists_ok_of_toOption hnone
    obtain ⟨⟨_, s⟩, hrun, hpc⟩ := exists_ok_of_toOption hruns
    obtain ⟨u, -, hs, -, -, hshut, hrenews⟩ := hlocal _ t t' s _ [] [] 1 ⟨0, .refl⟩ hnew rfl hnames hnone hrun
    rw [hs] at hpc
    have hfirst := hrenews u .refl
    rw [hpc] at hfirst
    exact ⟨s, u, hrun, hs, hshut, hfirst⟩
  · have hruns : ((ofLevels Compile.named 8 4).statement
        (.reading (.keyword .local) [.name [97], .keyword .local, .name [98], .eof])).toOption.map
          (fun r => (decide (r.2.fn.Merges 1 1), (r.2.fn.widened 1 1).code)) =
        some (true, #[.ofABC .loadNil 0 1 0]) := by decide +kernel
    obtain ⟨⟨_, s⟩, hrun, hmerge⟩ := exists_ok_of_toOption hruns
    obtain ⟨hmerges, hcode⟩ := Prod.mk.inj hmerge
    obtain ⟨u, hs, hpasses, -⟩ := hstatement _ [] [] hnew (Sketch.sound_new 0) _ _ _ rfl hrun
    have hu : u.Reachable := ⟨0, hpasses.steps⟩
    obtain ⟨hload, hshut, hunites⟩ := hmerging s u 1 1 hu hs (hs ▸ of_decide_eq_true hmerges) (by decide) (by decide)
    exact ⟨s, u, hrun, hs, hu, hshut, hunites, hload, hs ▸ hcode⟩

/-- A label between two declarations keeps them apart: the second has an instruction of its own. -/
example : (compile (Bytes.ofString "local a ::l:: local b goto l") "t").toOption.map
    (fun p => p.code.toList.map fun i => (i.opcode, i.a.val)) =
      some [(.loadNil, 0), (.loadNil, 1), (.jmp, 2), (.ret, 0)] := by decide +kernel

end LuaMachine
