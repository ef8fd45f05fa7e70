/-
  RUNNING A CHUNK THAT RETURNS A FORMULA OF ITS ARGUMENTS. The call puts the arguments into the registers of
  the locals, comes to the value of the formula and returns it, or fails with the comparison that has no
  outcome; meanwhile the locals keep their values.

  * **`formula_call`** -- what a call of the chunk comes to.
-/
import LuaMachine.Proofs.Meaning.Chunk
import LuaMachine.Proofs.Meaning.Step

namespace LuaMachine

namespace Exec

variable {m : Machine} {start n : Nat}

/-! ## 1. The call begins -/

variable {slot : Nat} {p : Proto} {cells : Array Nat} {args : List Value}

theorem pushFrame_ok (wanted : Option Nat) (cells : Array Nat) (hv : p.isVararg = true) (hp : p.params = 0) (h : slot + 1 + args.length ≤ m.stack.size)
    (hargs : ∀ k < args.length, m.stack[slot + 1 + k]? = args[k]?) :
    ∃ stack, Exec.pushFrame slot args.length wanted p cells m = .ok ()
      { m with stack := stack, frames := ⟨slot, 0, wanted, p, cells, args⟩ :: m.frames } := by
  have hzero : p.params.toNat = 0 := by rw [hp]; rfl
  obtain ⟨stack1, hok1, htop1, hsize1, hsame1⟩ :=
    ensure_ok (max (slot + 1 + p.maxStack.toNat) (slot + 1 + args.length)) m
  have hroom : slot + 1 + (slot + 1 + p.maxStack.toNat - (slot + 1)) ≤ stack1.size := by omega
  obtain ⟨stack, hok, hsize, _⟩ := clear_ok (m := { m with stack := stack1 }) hroom
  -- the rest of the call, whatever the extra arguments are
  have hrest : ∀ varargs : List Value, (do
      if slot + 1 + p.maxStack.toNat < slot + 1 then stuck
      Exec.clear (slot + 1) (slot + 1 + p.maxStack.toNat - (slot + 1))
      modify fun m => { m with frames := ⟨slot, 0, wanted, p, cells, varargs⟩ :: m.frames } : Exec Unit)
        { m with stack := stack1 } =
          .ok () { m with stack := stack, frames := ⟨slot, 0, wanted, p, cells, varargs⟩ :: m.frames } := by
    intro varargs
    rw [if_neg (Nat.not_lt.mpr (Nat.le_add_right _ _))]
    exact bind_of_ok hok
  refine ⟨stack, ?_⟩
  unfold Exec.pushFrame
  simp only [hzero, Nat.min_zero, Nat.add_zero, Nat.sub_zero]
  rw [bind_of_ok hok1]
  by_cases hlen : 0 < args.length
  · have hread : Exec.readMany (slot + 1) args.length { m with stack := stack1 } = .ok args { m with stack := stack1 } := by
      have hroom : slot + 1 + args.length ≤ stack1.size := by omega
      refine readMany_ok args hroom fun i hi => ?_
      rw [← hargs i hi]
      exact hsame1 _ (by omega)
    rw [if_pos ⟨hv, hlen⟩, bind_of_ok hread]
    exact hrest args
  · have hnil : args = [] := List.length_eq_zero_iff.mp (Nat.eq_zero_of_not_pos hlen)
    rw [if_neg fun h => hlen h.2, hnil]
    exact hrest []

theorem activate_begins {id : Nat} (args : List Value) (hid : m.functions[id]? = some (.script p cells)) (hv : p.isVararg = true)
    (hp : p.params = 0) (hact : m.activations.length < Limits.maxActivations)
    (hdepth : m.frames.length < m.limits.maxDepth) :
    ∃ m', Exec.activate (.function id) args .outermost m = .ok .run m' ∧
      m'.frames = ⟨m.frameTop, 0, none, p, cells, args⟩ :: m.frames ∧
      m'.activations = ⟨m.frames.length, m.frameTop, m.top, .outermost⟩ :: m.activations ∧ m'.limits = m.limits := by
  let slot := m.frameTop
  obtain ⟨stack1, hok1, htop1, _, _⟩ := ensure_ok (slot + 1 + args.length) m
  have hroom : slot + (Value.function id :: args).length ≤ stack1.size := by
    rw [List.length_cons]
    omega
  obtain ⟨stack2, hok2, hsize2, _, hnew2⟩ := writeMany_ok (m := { m with stack := stack1 }) hroom
  let m3 : Machine :=
    { m with
      stack := stack2
      activations := ⟨m.frames.length, slot, m.top, .outermost⟩ :: m.activations }
  have hslot : m3.stack[slot]? = some (.function id) := hnew2 0 (Nat.succ_pos _)
  have hargs : ∀ k < args.length, m3.stack[slot + 1 + k]? = args[k]? := by
    intro k hk
    rw [Nat.add_assoc, Nat.add_comm 1 k]
    exact hnew2 (k + 1) (Nat.succ_lt_succ hk)
  have hroom3 : slot + 1 + args.length ≤ m3.stack.size := by
    show slot + 1 + args.length ≤ stack2.size
    rw [hsize2]
    exact htop1
  obtain ⟨stack, hpush⟩ := pushFrame_ok (m := m3) none cells hv hp hroom3 hargs
  have hbegin : Exec.beginCall slot args.length none .answer m3 =
      .ok .run { m3 with stack := stack, frames := ⟨slot, 0, none, p, cells, args⟩ :: m.frames } := by
    unfold Exec.beginCall
    rw [bind_of_ok (read_ok hslot)]
    show (Exec.need m.functions[id]? >>= _) m3 = _
    rw [hid]
    show (if m.limits.maxDepth ≤ m.frames.length then _ else _ : Exec Mode) m3 = _
    rw [if_neg (Nat.not_le.mpr hdepth), bind_of_ok hpush]
    rfl
  refine ⟨{ m3 with stack := stack, frames := ⟨slot, 0, none, p, cells, args⟩ :: m.frames }, ?_, rfl, rfl, rfl⟩
  show (if Limits.maxActivations ≤ m.activations.length then _ else _ : Exec Mode) m = _
  rw [if_neg (Nat.not_le.mpr hact), bind_of_ok hok1, bind_of_ok hok2]
  exact hbegin

theorem place_ok {f : Frame} {rest : List Frame} {s : Spot} (n : Nat) (args : List Value) (h : m.At f rest s) :
    ∃ m', Exec.place f.base args (some n) m = .ok () m' ∧ m.Same m' ∧ m'.frames = m.frames ∧ f.top ≤ m'.stack.size ∧
      ∀ r < n, m'.registers f.base r = args[r]?.getD .nil := by
  obtain ⟨stack1, hok1, hn1, hsize1, _⟩ := ensure_ok (f.base + n) m
  have hroom : f.base + (Exec.adjust n args).length ≤ stack1.size := by
    rw [length_adjust]
    exact hn1
  obtain ⟨stack, hok, hsize, _, hnew⟩ := writeMany_ok (m := { m with stack := stack1 }) hroom
  refine ⟨{ m with stack := stack }, ?_, rfl, rfl, ?_, fun r hr => ?_⟩
  · exact (bind_of_ok hok1).trans hok
  · have hsize' : stack.size = stack1.size := hsize
    have := h.top
    show f.top ≤ stack.size
    omega
  · show stack[f.base + r]?.getD .nil = _
    rw [hnew r (by rw [length_adjust]; exact hr), getElem?_adjust hr, Option.getD_some]

end Exec

namespace Machine

open Exec

variable {m0 m : Machine} {f : Frame} {rest : List Frame} {s : Spot} {i : Instr}

theorem On.spread {n : Nat} (h : On m0 f rest s m) (hl : m0.limits.Endless) (hi : f.proto.code[s.pc]? = some i)
    (ho : i.opcode = .vararg) (ha : i.a.val = 0) (hb : i.b.val = n + 1) :
    ∃ m' regs, m.step .run = .more m' .run ∧ On m0 f rest ⟨s.pc + 1, regs⟩ m' ∧
      ∀ r < n, regs r = f.varargs[r]?.getD .nil := by
  obtain ⟨m1, hfetch, hat1, hsame1, _⟩ := h.fetched hl hi
  obtain ⟨m', hplace, hsame', hframes, htop, hregs⟩ := place_ok n f.varargs hat1
  have hplain : Exec.plain { f with pc := s.pc + 1 } i .vararg m1 = .ok () m' := by
    show Exec.place (f.base + i.a.val) f.varargs (Operand.toCount? i.b.val) m1 = _
    rw [ha, hb]
    exact hplace
  have hstep : m.step .run = .more m' .run := by
    refine step_of_ok hfetch ?_
    unfold Exec.execute
    rw [ho]
    exact bind_of_ok hplain
  have hkeeps := step_keeps h.ready
  rw [hstep] at hkeeps
  exact ⟨m', m'.registers f.base, hstep, ⟨⟨hframes.trans hat1.frames, htop, rfl⟩, hkeeps.1,
    (h.same.trans hsame1).trans hsame'⟩, hregs⟩

theorem On.delivers (h : On m0 f rest s m) (hl : m0.limits.Endless) (hi : f.proto.code[s.pc]? = some i)
    (ho : i.opcode = .ret) (vs : List Value) (hb : i.b.val = vs.length + 1)
    (hvs : ∀ m1 : Machine, m1.At f rest (s.past 1) → Exec.readMany (f.base + i.a.val) vs.length m1 = .ok vs m1)
    {a : Activation} {as : List Activation} (hact : m0.activations = a :: as) (hdepth : rest.length ≤ a.depth) :
    ∃ m', m.step .run = .more m' (.deliver vs) ∧ m'.activations = a :: as := by
  obtain ⟨m1, hfetch, hat1, hsame1, hwhole1⟩ := h.fetched hl hi
  obtain ⟨m2, hclose, _, hcalm⟩ := close_ok hwhole1 f.base
  have hact2 : m2.activations = a :: as := by
    rw [hcalm.activations, hsame1, h.same]
    exact hact
  have hend : Exec.endCall vs m2 = .ok (.deliver vs) { m2 with frames := rest } := by
    rw [endCall_of_frames _ (hcalm.frames.trans hat1.frames) hact2, if_pos hdepth]
    rfl
  refine ⟨{ m2 with frames := rest }, step_of_ok hfetch ?_, hact2⟩
  unfold Exec.execute
  rw [ho]
  show Exec.returnValues { f with pc := s.pc + 1 } (f.base + i.a.val) i.b.val m1 = _
  rw [hb]
  exact (bind_of_ok (hvs m1 hat1)).trans ((bind_of_ok hclose).trans hend)

theorem On.returns (h : On m0 f rest s m) (hl : m0.limits.Endless) (hp : f.proto.Sound)
    (hi : f.proto.code[s.pc]? = some i) (ho : i.opcode = .ret) (hb : i.b.val = 2) {a : Activation}
    {as : List Activation} (hact : m0.activations = a :: as) (hdepth : rest.length ≤ a.depth) :
    ∃ m', m.step .run = .more m' (.deliver [s.regs i.a.val]) ∧ m'.activations = a :: as := by
  have hfits := hp.fits _ i hi
  simp only [Instr.Fits, ho, hb] at hfits
  have ha : i.a.val < f.proto.room.registers := hfits.1.resolve_left (by decide)
  refine h.delivers hl hi ho [s.regs i.a.val] hb (fun m1 hat => ?_) hact hdepth
  refine readMany_ok [s.regs i.a.val] (hat.lt ha) fun k hk => ?_
  have hzero : k = 0 := Nat.lt_one_iff.mp hk
  subst hzero
  exact hat.value ha

/-! ## 2. The call ends -/

theorem step_deliver {a : Activation} {as : List Activation} (vs : List Value) (ha : m.activations = a :: as)
    (hp : a.purpose = .outermost) : ∃ m', m.step (.deliver vs) = .done m' (.results vs) := by
  refine ⟨leave a as m, ?_⟩
  simp only [step, ha, hp]

theorem step_raise {a : Activation} {as : List Activation} {e : Failure} (h : m.Ready (.raise e))
    (ha : m.activations = a :: as) (hp : a.purpose = .outermost) : ∃ m', m.step (.raise e) = .done m' (.failed e) := by
  obtain ⟨m', hok, _⟩ := unwind_ok h.1 ha
  refine ⟨m', ?_⟩
  simp only [step, ha, hok, hp]

structure Unhindered (m : Machine) : Prop where
  endless : m.limits.Endless
  frames : m.frames.length < m.limits.maxDepth
  activations : m.activations.length < Limits.maxActivations

/-- While the function runs over these frames, its first instruction done, its first registers hold these
    values. -/
def KeepsLocals (p : Proto) (rest : List Frame) (vs : List Value) (m : Machine) : Mode → Prop
  | .deliver _ => True
  | _ => ∃ f, m.frames = f :: rest ∧ f.proto = p ∧ (0 < f.pc → ∀ r < vs.length, m.stack[f.base + r]? = vs[r]?)

end Machine

def Outcome.Is (o : Outcome) : Except Clash Value → Prop
  | .ok v => o = .results [v]
  | .error c => ∃ place, o = .failed (.runtime place (.compare c.1 c.2))

open Machine in
/-- **A way to the value in a register that is returned is a run that ends with it**, a way to a comparison
    that has no outcome one that fails. -/
theorem Arrives.ends {P : Machine → Mode → Prop} {m0 m : Machine} {f : Frame} {rest : List Frame} {s : Spot}
    {low stop : Nat} {i : Instr} {r : Except Clash Value} {a : Activation} {as : List Activation}
    {vals : Nat → Value} (harr : Arrives f.proto low s stop i.a.val r) (h : On m0 f rest s m)
    (hv : ∀ r < low, s.regs r = vals r) (hl : m0.limits.Endless) (hp : f.proto.Sound)
    (hi : f.proto.code[stop]? = some i) (ho : i.opcode = .ret) (hb : i.b.val = 2) (hact : m0.activations = a :: as)
    (hdepth : rest.length ≤ a.depth) (hpurpose : a.purpose = .outermost)
    (hP : ∀ s m, m.At f rest s → (∀ r < low, s.regs r = vals r) → P m .run ∧ ∀ e, P m (.raise e))
    (hD : ∀ m vs, P m (.deliver vs)) :
    ∃ m' mode' m'' o, Goes P m .run m' mode' ∧ m'.step mode' = .done m'' o ∧ o.Is r := by
  have hrun : ∀ s m, On m0 f rest s m → (∀ r < low, s.regs r = vals r) → P m .run :=
    fun s m h hv => (hP s m h.toAt hv).1
  cases r with
  | ok v =>
    obtain ⟨regs, hpath, hreg⟩ := harr
    obtain ⟨m1, h1, hgoes⟩ := hpath.goes hl hp hrun h hv
    obtain ⟨m', hstep, hact'⟩ := h1.returns hl hp hi ho hb hact hdepth
    obtain ⟨m'', hend⟩ := step_deliver [regs i.a.val] hact' hpurpose
    exact ⟨m', _, m'', _, hgoes.snoc hstep (hD _ _), hend, by rw [hreg]; rfl⟩
  | error c =>
    obtain ⟨m', place, hready, hsame, hgoes⟩ :=
      Proto.Fails.goes hl hp hrun harr h hv fun s m e h hv => (hP s m h hv).2 e
    have hact' : m'.activations = a :: as := by
      rw [hsame]
      exact hact
    obtain ⟨m'', hend⟩ := step_raise hready hact' hpurpose
    exact ⟨m', _, m'', _, hgoes, hend, place, rfl⟩

/-! ## 3. Formulas -/

namespace Machine

section

variable {m : Machine} {p : Proto} {id : Nat} {cells : Array Nat} {args : List Value}

theorem Unhindered.begins (h : m.Unhindered) (hm : m.Steady) (hid : m.functions[id]? = some (.script p cells))
    (hargs : ∀ v ∈ args, v.Known m.sizes) (hv : p.isVararg = true) (hp : p.params = 0) :
    ∃ m1 regs, ofExec (Exec.activate (.function id) args .outermost) { m with executed := 0 } = .more m1 .run ∧
      On m1 ⟨m.frameTop, 0, none, p, cells, args⟩ m.frames ⟨0, regs⟩ m1 ∧ m1.limits = m.limits ∧
      m1.activations = ⟨m.frames.length, m.frameTop, m.top, .outermost⟩ :: m.activations := by
  obtain ⟨m1, hok, hframes, hact, hlimits⟩ :=
    Exec.activate_begins (m := { m with executed := 0 }) args hid hv hp h.activations h.frames
  have hstart : ofExec (Exec.activate (.function id) args .outermost) { m with executed := 0 } = .more m1 .run := by
    unfold ofExec
    rw [hok]
  have hknown : (Value.function id).Known m.sizes := (Array.getElem?_eq_some_iff.mp hid).1
  have hready : m1.Ready .run := by
    obtain ⟨m', mode', hstart', hready, _⟩ := call_starts hm hknown hargs
    rw [hstart] at hstart'
    cases hstart'
    exact hready
  have htop := (hready.1.frames _ (by rw [hframes]; exact List.mem_cons_self ..)).top
  exact ⟨m1, _, hstart, ⟨⟨hframes, htop, rfl⟩, hready, rfl⟩, hlimits, hact⟩

theorem At.keepsLocals {f : Frame} {rest : List Frame} {s : Spot} {n : Nat} (h : m.At f rest s)
    (hn : n ≤ f.proto.room.registers) (hv : ∀ r < n, s.regs r = args[r]?.getD .nil) :
    m.KeepsLocals f.proto rest (Exec.adjust n args) .run ∧
      ∀ e, m.KeepsLocals f.proto rest (Exec.adjust n args) (.raise e) := by
  have hheld : ∃ g, m.frames = g :: rest ∧ g.proto = f.proto ∧
      (0 < g.pc → ∀ r < (Exec.adjust n args).length, m.stack[g.base + r]? = (Exec.adjust n args)[r]?) := by
    refine ⟨_, h.frames, rfl, fun _ r hr => ?_⟩
    rw [Exec.length_adjust] at hr
    rw [Exec.getElem?_adjust hr, ← hv r hr]
    exact h.value (Nat.lt_of_lt_of_le hr hn)
  exact ⟨hheld, fun _ => hheld⟩

theorem call_of_runFor {m1 m' : Machine} {fuel : Nat} {o : Outcome} {f : Value}
    (hstart : ofExec (Exec.activate f args .outermost) { m with executed := 0 } = .more m1 .run)
    (hrun : runFor fuel m1 .run = (m', o)) : (m.call fuel f args none).2 = o := by
  unfold call
  rw [hstart]
  dsimp only
  rw [hrun]
  cases o <;> rfl

end

end Machine

open Machine in
theorem Proto.Delivers.call {names : List Bytes} {e : Formula} {p : Proto} {m : Machine} {id : Nat}
    {cells : Array Nat} {args : List Value} (h : p.Delivers names e) (hp : p.Sound) (hm : m.Steady)
    (hid : m.functions[id]? = some (.script p cells)) (hargs : ∀ v ∈ args, v.Known m.sizes) (hfree : m.Unhindered) :
    (∃ n o, o.Is (e.eval (Scope.value names args)) ∧
      ∀ fuel, n ≤ fuel → (m.call fuel (.function id) args none).2 = o) ∧
    ∀ m' mode, m.Calls (.function id) args m' mode →
      m'.KeepsLocals p m.frames (Exec.adjust names.length args) mode := by
  obtain ⟨m1, regs1, hstart, h1, hlimits, hact⟩ := hfree.begins hm hid hargs h.vararg h.params
  have hl : m1.limits.Endless := by
    rw [hlimits]
    exact hfree.endless
  -- the arguments are put into the registers of the locals
  obtain ⟨i, hi, ho, ha, hb⟩ := h.spreads
  obtain ⟨m2, regs, hstep, h2, hregs⟩ := h1.spread (n := names.length) hl hi ho ha hb
  have hroom : names.length ≤ p.room.registers := by
    have hfits := hp.fits 0 i hi
    simp only [Instr.Fits, ho, ha, hb] at hfits
    omega
  have hfirst : m1.KeepsLocals p m.frames (Exec.adjust names.length args) .run :=
    ⟨_, h1.frames, rfl, fun hpos => absurd hpos (Nat.lt_irrefl 0)⟩
  -- the value is computed and returned
  obtain ⟨stop, j, hj, hjo, hjb, harr⟩ := h.returns
  obtain ⟨m', mode', m'', o, hgoes, hend, his⟩ :=
    Arrives.ends (P := fun m' mode => m'.KeepsLocals p m.frames (Exec.adjust names.length args) mode) (harr regs) h2 hregs hl
      hp hj hjo hjb hact (Nat.le_refl _) rfl (fun _ _ hat hv => hat.keepsLocals hroom hv) fun _ _ => trivial
  obtain ⟨⟨n, hn⟩, hall⟩ := (Goes.step hfirst hstep hgoes).ends hend
  refine ⟨⟨n, o, ?_, fun fuel hle => call_of_runFor hstart (hn fuel hle)⟩, fun m3 mode3 hcalls => ?_⟩
  · rw [← Formula.meaning_of_registers hregs]
    exact his
  · obtain ⟨m4, mode4, hstart', hr⟩ := hcalls
    rw [hstart] at hstart'
    cases hstart'
    exact hall m3 mode3 hr

/-- **A compiled formula has the value that its parts give it.** A function compiled from
    `local x, y = ... return e`, whatever formula `e` is of the locals, called with any arguments, returns
    the value of `e`, its operands taken from left to right and no further than needed; or it fails with
    the comparison of the first two values that have no order, just if there are any. All the while the
    locals keep their values. -/
theorem compiled_formula_call {source : Bytes} {chunkName : String} {p : Proto} {names : List Bytes} {e : Formula}
    {m : Machine} {id : Nat} {cells : Array Nat} {args : List Value} (hc : compile source chunkName = .ok p)
    (ht : (Lexer.tokenize source).1.map (·.token) = e.chunk names) (hne : names ≠ []) (hg : e.Grouped)
    (ho : e.Over names) (hm : m.Built) (hid : m.functions[id]? = some (.script p cells))
    (hargs : ∀ v ∈ args, v.Known m.sizes) (hfree : m.Unhindered) :
    (∃ n o, o.Is (e.eval (Scope.value names args)) ∧
      ∀ fuel, n ≤ fuel → (m.call fuel (.function id) args none).2 = o) ∧
    ∀ m' mode, m.Calls (.function id) args m' mode →
      m'.KeepsLocals p m.frames (Exec.adjust names.length args) mode :=
  (compile_delivers hc ht hne hg ho).call (compile_made hc).1.here.toSound hm.steady hid hargs hfree

/-! ## 4. Loading -/

theorem Exec.newCells_ok (first : Value) (acc : Array Nat) (us : List UpvalueDesc) (m : Machine) :
    ∃ ids cells, Exec.newCells first acc us m = .ok ids { m with cells := cells } := by
  induction us generalizing first acc m with
  | nil => exact ⟨acc, m.cells, rfl⟩
  | cons u us ih =>
    obtain ⟨ids, cells, hok⟩ := ih .nil (acc.push m.cells.size) { m with cells := m.cells.push (.closed first) }
    exact ⟨ids, cells, hok⟩

theorem Machine.load_adds {source : Bytes} {chunkName : String} {p : Proto} (m : Machine) (env : Option Value)
    (hs : Exec.isPrecompiled source = false) (hc : compile source chunkName = .ok p) :
    ∃ ids cells, m.load source chunkName env =
      ({ m with cells := cells, functions := m.functions.push (.script p ids) }, .ok (.function m.functions.size)) := by
  have hproto : Exec.protoOf source chunkName = .ok p := by
    unfold Exec.protoOf
    rw [hs, hc]
    rfl
  obtain ⟨ids, cells, hok⟩ := Exec.newCells_ok (env.getD (.table m.globals)) #[] p.upvalues m
  have hmain : Exec.ofMain p (env.getD (.table m.globals)) m = .ok (.function m.functions.size)
      { m with cells := cells, functions := m.functions.push (.script p ids) } := Exec.bind_of_ok hok
  have hload : Exec.loadChunk source chunkName (env.getD (.table m.globals)) m =
      .ok (.ok (.function m.functions.size))
        { m with cells := cells, functions := m.functions.push (.script p ids) } := by
    unfold Exec.loadChunk
    rw [hproto]
    exact Exec.bind_of_ok hmain
  refine ⟨ids, cells, ?_⟩
  unfold load
  rw [hload]

theorem Machine.load_compiled {source : Bytes} {chunkName : String} {p : Proto} (m : Machine) (env : Option Value)
    (hs : Exec.isPrecompiled source = false) (hc : compile source chunkName = .ok p) :
    ∃ m' id cells, m.load source chunkName env = (m', .ok (.function id)) ∧
      m'.functions[id]? = some (.script p cells) := by
  obtain ⟨ids, cells, hload⟩ := m.load_adds env hs hc
  exact ⟨_, _, ids, hload, Array.getElem?_push_size⟩

theorem Machine.Unhindered.load {source : Bytes} {chunkName : String} {p : Proto} {m : Machine} (h : m.Unhindered)
    (env : Option Value) (hs : Exec.isPrecompiled source = false) (hc : compile source chunkName = .ok p) :
    (m.load source chunkName env).1.Unhindered := by
  obtain ⟨ids, cells, hload⟩ := m.load_adds env hs hc
  rw [hload]
  exact ⟨h.endless, h.frames, h.activations⟩

theorem compiled_formula_call_mixed :
    ∃ m id, (Machine.new .standard).load
        (Bytes.ofString "local x, y = ... return not (x == y) and (x or y) or x < 1") "t" none = (m, .ok (.function id)) ∧
      ∃ n, ∀ fuel, n ≤ fuel → (m.call fuel (.function id) [.nil, .int 5] none).2 = .results [.int 5] := by
  let source := Bytes.ofString "local x, y = ... return not (x == y) and (x or y) or x < 1"
  let x : Bytes := [0x78]
  let y : Bytes := [0x79]
  let e : Formula := .or (.and (.not (.paren (.rel .eq (.var x) (.var y)))) (.paren (.or (.var x) (.var y))))
    (.rel .lt (.var x) (.lit (.int 1)))
  have hok : (compile source "t").isOk = true := by decide +kernel
  cases hc : compile source "t" with
  | error _ =>
    rw [hc] at hok
    cases hok
  | ok p =>
    obtain ⟨m, id, cells, hload, hid⟩ := (Machine.new .standard).load_compiled none (by decide +kernel) hc
    have henv : ∀ v ∈ (none : Option Value), v.Known (Machine.new .standard).sizes := by simp
    have hbuilt := (Machine.Built.new .standard).load source "t" henv
    have hfree : ((Machine.new .standard).load source "t" none).1.Unhindered :=
      ⟨⟨by decide +kernel, by decide +kernel⟩, by decide +kernel, by decide +kernel⟩
    rw [hload] at hbuilt hfree
    have ht : (Lexer.tokenize source).1.map (·.token) = e.chunk [x, y] := by decide +kernel
    have hargs : ∀ v ∈ [Value.nil, .int 5], v.Known m.sizes := by simp [Value.Known]
    obtain ⟨⟨n, o, his, hrun⟩, _⟩ :=
      compiled_formula_call hc ht (by decide) (by decide) (by decide +kernel) hbuilt hid hargs hfree
    have hval : e.eval (Scope.value [x, y] [.nil, .int 5]) = .ok (.int 5) := rfl
    rw [hval] at his
    exact ⟨m, id, hload, n, fun fuel hle => (hrun fuel hle).trans his⟩

end LuaMachine
