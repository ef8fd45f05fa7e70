/-
  ARGUMENTS ARRIVE. Caller and called function share one stack: the arguments are the first registers of the
  called function, those beyond its parameters are put aside or forgotten, and what was behind them is
  cleared.

  * `Calling.begins` -- **every call of a script function begins it so**, unless the limits are reached.
-/
import LuaMachine.Proofs.Machine.Stack
import LuaMachine.Proofs.Machine.Restore

namespace LuaMachine

/-! ## 1. Calls -/

structure Machine.Supplies (m : Machine) (start b : Nat) (vs : List Value) : Prop where
  count : vs.length = (Operand.toCount? b).getD (m.top - start)
  values : ∀ k < vs.length, m.stack[start + k]? = vs[k]?

/-- A call: the place of the function, where its results go, too; its arguments; how many results are wanted,
    or all; the functions that it returns to, and the activations that it runs in, innermost first. -/
structure CallSite where
  slot : Nat
  args : List Value
  wanted : Option Nat
  callers : List Frame
  activations : List Activation

/-- A function as it begins: the arguments are in its first registers, the others are nil; what it has no
    parameters for is put aside, if it takes more than its parameters, and otherwise forgotten. -/
structure Frame.Begins (g : Frame) (p : Proto) (cells : Array Nat) (args : List Value) (stack : Array Value) : Prop where
  proto : g.proto = p
  cells : g.cells = cells
  pc : g.pc = 0
  registers : ∀ i < p.maxStack.toNat, stack[g.base + i]? = some ((args.take p.params.toNat)[i]?.getD .nil)
  varargs : g.varargs = if p.isVararg then args.drop p.params.toNat else []

/-- A function has begun: in front of those that it returns to, with its arguments; below the place of the call
    nothing has changed. -/
structure CallSite.Begun (site : CallSite) (m : Machine) (p : Proto) (cells : Array Nat) (m' : Machine) : Prop where
  frames : ∃ g : Frame, m'.frames = g :: site.callers ∧ g.slot = site.slot ∧ g.wanted = site.wanted ∧
    g.Begins p cells site.args m'.stack
  activations : m'.activations = site.activations
  spared : m.Spares site.slot (fun _ => False) m'

def Exec.instruction : Exec Mode := do
  let (f, i) ← Exec.fetch
  Exec.execute f i

def Machine.Executes (m : Machine) : Prop :=
  ∃ (m₀ : Machine) (fn : Value) (as : List Value), m₀.Built ∧ fn.Known m₀.sizes ∧ (∀ v ∈ as, v.Known m₀.sizes) ∧
    m₀.Calls fn as m .run

/-- The function `id` is about to be called: by an instruction of the running function, in its place, as the iterator of
    a generic loop, or from outside of all functions or by a library function. -/
inductive Machine.Calling (m : Machine) (id : Nat) : CallSite → Exec Mode → Prop where
  | call {f : Frame} {rest : List Frame} {i : Instr} {args : List Value} (hm : m.Executes) (hf : m.frames = f :: rest)
      (hi : f.proto.code[f.pc]? = some i) (ho : i.opcode = .call) (hfn : m.stack[f.base + i.a.val]? = some (.function id))
      (hargs : m.Supplies (f.base + i.a.val + 1) i.b.val args) :
      Calling m id ⟨f.base + i.a.val, args, Operand.toCount? i.c.val, { f with pc := f.pc + 1 } :: rest, m.activations⟩
        Exec.instruction
  | tailCall {f : Frame} {rest : List Frame} {i : Instr} {args : List Value} (hm : m.Executes) (hf : m.frames = f :: rest)
      (hi : f.proto.code[f.pc]? = some i) (ho : i.opcode = .tailCall)
      (hfn : m.stack[f.base + i.a.val]? = some (.function id)) (hargs : m.Supplies (f.base + i.a.val + 1) i.b.val args) :
      Calling m id ⟨f.slot, args, f.wanted, rest, m.activations⟩ Exec.instruction
  | iterator {f : Frame} {rest : List Frame} {i : Instr} {v w : Value} (hm : m.Executes) (hf : m.frames = f :: rest)
      (hi : f.proto.code[f.pc]? = some i) (ho : i.opcode = .tforCall)
      (hfn : m.stack[f.base + i.a.val]? = some (.function id)) (hv : m.stack[f.base + i.a.val + 1]? = some v)
      (hw : m.stack[f.base + i.a.val + 2]? = some w) :
      Calling m id ⟨f.base + i.a.val + 3, [v, w], some i.c.val, { f with pc := f.pc + 1 } :: rest, m.activations⟩
        Exec.instruction
  | outside (hm : m.Reachable) (hmax : m.activations.length < Limits.maxActivations) (args : List Value) (purpose : Purpose) :
      Calling m id ⟨m.frameTop, args, none, m.frames, m.activation purpose :: m.activations⟩
        (Exec.activate (.function id) args purpose)

namespace Exec

variable {m : Machine} {start slot id nargs : Nat} {wanted : Option Nat} {p : Proto} {cells : Array Nat} {args : List Value}

/-! ## 2. The stack at the beginning of a function -/

theorem getElem?_take_of_ge {i n : Nat} (h : min args.length n ≤ i) : (args.take n)[i]? = none :=
  List.getElem?_eq_none (by rw [List.length_take]; omega)

theorem pushFrame_begins (wanted : Option Nat) (cells : Array Nat) (hparams : p.params.toNat ≤ p.maxStack.toNat) (hargs : ∀ k < args.length, m.stack[slot + 1 + k]? = args[k]?) :
    ∃ (g : Frame) (stack : Array Value), pushFrame slot args.length wanted p cells m =
        .ok () { m with stack := stack, frames := g :: m.frames } ∧ g.slot = slot ∧ g.wanted = wanted ∧
      g.Begins p cells args stack ∧ m.stack.size ≤ stack.size ∧ ∀ s ≤ slot, s < m.stack.size → stack[s]? = m.stack[s]? := by
  -- the arguments are on the stack, also after room has been made
  have hthere : ∀ k < args.length, slot + 1 + k < m.stack.size := fun k hk =>
    (Array.getElem?_eq_some_iff.mp ((hargs k hk).trans (List.getElem?_eq_getElem hk))).1
  obtain ⟨stack, hok, hroom, hsize, hsame⟩ :=
    ensure_ok (max (slot + 1 + p.maxStack.toNat) (slot + 1 + args.length)) m
  have hfits : slot + 1 + min args.length p.params.toNat ≤ slot + 1 + p.maxStack.toNat := by omega
  have hcleared : slot + 1 + min args.length p.params.toNat + (slot + 1 + p.maxStack.toNat -
      (slot + 1 + min args.length p.params.toNat)) ≤ stack.size := by omega
  obtain ⟨stack', hok', hsize', hnil, hsame'⟩ := clear_ok (m := { m with stack := stack }) hcleared
  have hsize' : stack'.size = stack.size := hsize'
  refine ⟨⟨slot, 0, wanted, p, cells, if p.isVararg then args.drop p.params.toNat else []⟩, stack', ?_, rfl, rfl,
    ⟨rfl, rfl, rfl, fun i hi => ?_, rfl⟩, by omega, fun s hs hlt => ?_⟩
  · have hbegun : ∀ varargs : List Value, (do
        if slot + 1 + p.maxStack.toNat < slot + 1 + min args.length p.params.toNat then stuck
        clear (slot + 1 + min args.length p.params.toNat)
          (slot + 1 + p.maxStack.toNat - (slot + 1 + min args.length p.params.toNat))
        modify fun m => { m with frames := ⟨slot, 0, wanted, p, cells, varargs⟩ :: m.frames } : Exec Unit)
          { m with stack := stack } =
        .ok () { m with stack := stack', frames := ⟨slot, 0, wanted, p, cells, varargs⟩ :: m.frames } := fun varargs => by
      rw [if_neg (Nat.not_lt.mpr hfits)]
      exact bind_of_ok hok'
    unfold pushFrame
    extract_lets first begun
    rw [bind_of_ok hok]
    split
    · next hmore =>
      obtain ⟨hvararg, hlt⟩ := hmore
      have hlt : p.params.toNat < args.length := hlt
      have hlen : args.length - p.params.toNat = (args.drop p.params.toNat).length := List.length_drop.symm
      have hread : readMany (slot + 1 + p.params.toNat) (args.length - p.params.toNat) { m with stack := stack } =
          .ok (args.drop p.params.toNat) { m with stack := stack } := by
        rw [hlen]
        refine readMany_ok _ ?_ fun k hk => ?_
        · have hlast := hthere (args.length - 1) (by omega)
          show slot + 1 + p.params.toNat + (args.drop p.params.toNat).length ≤ stack.size
          omega
        · have hk' : p.params.toNat + k < args.length := by omega
          show stack[slot + 1 + p.params.toNat + k]? = _
          rw [List.getElem?_drop, Nat.add_assoc, hsame _ (hthere _ hk'), hargs _ hk']
      rw [bind_of_ok hread, if_pos hvararg]
      exact hbegun _
    · next hmore =>
      have hnone : (if p.isVararg then args.drop p.params.toNat else []) = [] := by
        split
        · next hvararg => exact List.drop_eq_nil_of_le (Nat.le_of_not_lt fun hlt => hmore ⟨hvararg, hlt⟩)
        · rfl
      rw [hnone]
      exact hbegun []
  · show stack'[slot + 1 + i]? = _
    by_cases hle : min args.length p.params.toNat ≤ i
    · rw [getElem?_take_of_ge hle]
      have hplace := hnil (i - min args.length p.params.toNat) (by omega)
      rwa [show slot + 1 + min args.length p.params.toNat + (i - min args.length p.params.toNat) = slot + 1 + i by omega]
        at hplace
    · have hlt : i < args.length := by omega
      rw [List.getElem?_take_of_lt (by omega : i < p.params.toNat), List.getElem?_eq_getElem hlt]
      refine (hsame' (slot + 1 + i) (.inl (by omega))).trans ((hsame _ (hthere i hlt)).trans ?_)
      exact (hargs i hlt).trans (List.getElem?_eq_getElem hlt)
  · exact (hsame' s (.inl (by omega))).trans (hsame s hlt)

/-! ## 3. Calling -/

def Begins (S : Prop) (site : CallSite) (m₀ : Machine) (p : Proto) (cells : Array Nat) (x : Exec Mode) (m : Machine) : Prop :=
  Meets S (fun e m' => e = .stackOverflow ∧ m'.limits.maxDepth ≤ m'.frames.length) x m fun mode m' =>
    mode = .run ∧ site.Begun m₀ p cells m'

theorem openCount_ok {b : Nat} (h : m.Supplies start b args) : openCount start b m = .ok args.length m := by
  rw [h.count]
  unfold openCount
  cases Operand.toCount? b <;> rfl

theorem beginCall_begins {S : Prop} {m0 : Machine} (site : CallSite) (id : Nat) (ret : HostReturn)
    (hparams : p.params.toNat ≤ p.maxStack.toNat) (hs : m0.Spares site.slot (fun _ => False) m)
    (hf : m.frames = site.callers) (ha : m.activations = site.activations)
    (hfn : m.stack[site.slot]? = some (.function id)) (hid : m.functions[id]? = some (.script p cells))
    (hargs : ∀ k < site.args.length, m.stack[site.slot + 1 + k]? = site.args[k]?) :
    Begins S site m0 p cells (beginCall site.slot site.args.length site.wanted ret) m := by
  unfold Begins beginCall
  rw [Meets, bind_of_ok (read_ok hfn)]
  refine Meets.get ?_
  rw [hid]
  show Meets S _ (if m.limits.maxDepth ≤ m.frames.length then _ else _) m _
  split
  · next hmax => exact ⟨rfl, hmax⟩
  · obtain ⟨g, stack, hok, hslot, hwanted, hbegins, hsize, hsame⟩ := pushFrame_begins site.wanted cells hparams hargs
    refine Meets.bind (Meets.of_ok hok ?_)
    refine ⟨rfl, ⟨g, congrArg (g :: ·) hf, hslot, hwanted, hbegins⟩, ha, hs.trans ?_⟩
    exact {
      tidy := ⟨hs.tidy.sorted, hs.tidy.live⟩
      stackSize := hsize
      cellsSize := Nat.le_refl _
      stack := fun s hlt hin _ => hsame s (Nat.le_of_lt hlt) hin
      opened := fun _ he => .inl he }

/-! ## 4. Instructions that call -/

variable {f : Frame} {rest : List Frame} {i : Instr}

theorem Meets.strict {α : Type} {E : Failure → Machine → Prop} {y : Exec α} {Q : α → Machine → Prop} (h : Meets True E y m Q)
    (hy : ∀ m', y m ≠ .error .stuck m') : Meets False E y m Q := by
  unfold Meets at *
  split at h
  · exact h
  · exact h
  · next hx => exact hy _ hx

theorem count_counts : Meets True (fun e _ => e = .interrupted) count m fun _ m' => m' = { m with executed := m.executed + 1 } := by
  show Meets True _ (if (_ : Bool) then failWith .interrupted else Pure.pure ()) { m with executed := m.executed + 1 } _
  generalize (_ || _ : Bool) = spent
  cases spent <;> rfl

theorem fetch_finds {R : Frame × Instr → Machine → Prop} (hf : m.frames = f :: rest) (hi : f.proto.code[f.pc]? = some i)
    (h : ∀ n, R ({ f with pc := f.pc + 1 }, i) (fetched m f rest n)) :
    Meets True (fun e _ => e = .interrupted) fetch m R := by
  unfold fetch
  refine Meets.bind (Meets.imp count_counts (fun _ _ he => he) ?_)
  rintro _ _ rfl
  refine Meets.get ?_
  simp only [hf]
  refine Meets.set ?_
  simp only [Nat.add_sub_cancel, hi]
  exact h _

theorem instruction_meets {E : Failure → Machine → Prop} {R : Mode → Machine → Prop} (hf : m.frames = f :: rest)
    (hi : f.proto.code[f.pc]? = some i) (h : ∀ n, Meets True E (execute { f with pc := f.pc + 1 } i) (fetched m f rest n) R) :
    Meets True (fun e m' => e = .interrupted ∨ E e m') instruction m R :=
  Meets.bind (Meets.imp (fetch_finds hf hi fun n => Meets.imp (h n) (fun _ _ he => .inr he) fun _ _ hr => hr)
    (fun _ _ he => .inl he) fun _ _ h => h)

theorem tailCall_begins {m0 : Machine} {b ra : Nat} (site : CallSite) (hparams : p.params.toNat ≤ p.maxStack.toNat)
    (hs : m0.Spares site.slot (fun _ => False) m)
    (hf : m.frames = f :: site.callers) (ha : m.activations = site.activations) (hslot : site.slot = f.slot)
    (hwanted : site.wanted = f.wanted) (hra : f.slot < ra) (hfn : m.stack[ra]? = some (.function id))
    (hid : m.functions[id]? = some (.script p cells)) (hargs : m.Supplies (ra + 1) b site.args) :
    Begins True site m0 p cells (tailCall f ra b) m := by
  unfold Begins tailCall
  rw [Meets, bind_of_ok (openCount_ok hargs), bind_of_ok (read_ok hfn)]
  refine Meets.get (Meets.need fun fn hfn' => ?_)
  obtain rfl := Option.some.inj (hid.symm.trans hfn')
  refine Meets.bind (Meets.imp (closed site.slot (fun _ => False) f.base hs.tidy) (fun _ _ h => h.elim) ?_)
  rintro _ m1 ⟨hs1, hf1, ha1, hstack, hfun, _⟩
  refine Meets.bind (x := modify _) (show Meets _ _ _ m1 _ from ?_)
  have hpop : m0.Spares site.slot (fun _ => False) { m1 with frames := m1.frames.tail } :=
    (hs.trans hs1).trans (.same hs1.tidy rfl rfl rfl)
  have hspares : Spares site.slot (fun _ => False) (moveDown ra f.slot (site.args.length + 1)) :=
    .moveDown (Nat.le_of_eq hslot) (Nat.le_of_lt hra) _
  have hdown := (hspares _ hpop.tidy).and (moveDown_meets hra (site.args.length + 1) _)
  refine Meets.bind (Meets.imp hdown (fun _ _ h => h.2.elim) ?_)
  rintro _ m2 ⟨⟨hs2, hf2, ha2⟩, _, hmoved, hfun2⟩
  have hmoved : ∀ k < site.args.length + 1, m2.stack[f.slot + k]? = m.stack[ra + k]? := fun k hk => by
    rw [hmoved k hk]
    exact congrArg (fun stack : Array Value => stack[ra + k]?) hstack
  rw [← hslot, ← hwanted]
  refine beginCall_begins site id _ hparams (hpop.trans hs2) ?_ ?_ ?_ ?_ fun k hk => ?_
  · rw [hf2]
    show m1.frames.tail = _
    rw [hf1, hf]
    rfl
  · exact ha2.trans (ha1.trans ha)
  · rw [hslot]
    exact (hmoved 0 (Nat.zero_lt_succ _)).trans hfn
  · rw [hfun2]
    show m1.functions[id]? = _
    rw [hfun, hid]
  · rw [hslot, Nat.add_assoc, Nat.add_comm 1 k, hmoved (k + 1) (Nat.succ_lt_succ hk), ← hargs.values k hk]
    congr 1
    omega

theorem callIterator_begins {ra c : Nat} {v w : Value} (site : CallSite) (hparams : p.params.toNat ≤ p.maxStack.toNat)
    (hm : m.Tidy) (hf : m.frames = site.callers)
    (ha : m.activations = site.activations) (hslot : site.slot = ra + 3) (hwanted : site.wanted = some c)
    (hargs : site.args = [v, w]) (hfn : m.stack[ra]? = some (.function id)) (hv : m.stack[ra + 1]? = some v)
    (hw : m.stack[ra + 2]? = some w) (hid : m.functions[id]? = some (.script p cells)) :
    Begins True site m p cells (callIterator ra c) m := by
  unfold Begins callIterator
  rw [Meets, bind_of_ok (read_ok hw)]
  refine Meets.write fun h5 => ?_
  have hv' : (m.stack.set (ra + 5) w)[ra + 1]? = some v := by rw [Array.getElem?_set_ne _ (by omega), hv]
  rw [Meets, bind_of_ok (read_ok hv')]
  refine Meets.write fun h4 => ?_
  have hfn' : ((m.stack.set (ra + 5) w).set (ra + 4) v h4)[ra]? = some (.function id) := by
    rw [Array.getElem?_set_ne _ (by omega), Array.getElem?_set_ne _ (by omega), hfn]
  rw [Meets, bind_of_ok (read_ok hfn')]
  refine Meets.write fun h3 => ?_
  have hs : m.Spares site.slot (fun _ => False)
      { m with stack := ((m.stack.set (ra + 5) w).set (ra + 4) v h4).set (ra + 3) (.function id) h3 } := {
    tidy := ⟨hm.sorted, hm.live⟩
    stackSize := by simp
    cellsSize := Nat.le_refl _
    stack := fun s hs _ _ => by
      rw [hslot] at hs
      show (((m.stack.set (ra + 5) w).set (ra + 4) v h4).set (ra + 3) (.function id) h3)[s]? = _
      rw [Array.getElem?_set_ne _ (by omega), Array.getElem?_set_ne _ (by omega), Array.getElem?_set_ne _ (by omega)]
    opened := fun _ he => .inl he }
  have hbegin := beginCall_begins (S := True) site id (.place (ra + 3) (some c)) hparams hs hf ha ?_ hid fun k hk => ?_
  · rwa [hslot, hwanted, hargs] at hbegin
  · rw [hslot]
    exact Array.getElem?_set_self h3
  · rw [hslot, hargs]
    show (((m.stack.set (ra + 5) w).set (ra + 4) v h4).set (ra + 3) (.function id) h3)[ra + 3 + 1 + k]? = _
    rw [hargs] at hk
    obtain rfl | rfl : k = 0 ∨ k = 1 := by
      have hk : k < 2 := hk
      omega
    · rw [Array.getElem?_set_ne _ (by omega)]
      exact Array.getElem?_set_self h4
    · rw [Array.getElem?_set_ne _ (by omega), Array.getElem?_set_ne _ (by omega)]
      exact Array.getElem?_set_self h5

theorem activate_calls {purpose : Purpose} (site : CallSite) (hparams : p.params.toNat ≤ p.maxStack.toNat) (hm : m.Tidy) (hmax : m.activations.length < Limits.maxActivations)
    (hslot : site.slot = m.frameTop) (hwanted : site.wanted = none) (hf : m.frames = site.callers)
    (ha : site.activations = m.activation purpose :: m.activations) (hid : m.functions[id]? = some (.script p cells)) :
    Begins False site m p cells (activate (.function id) site.args purpose) m := by
  unfold Begins activate
  refine Meets.get ?_
  rw [if_neg (Nat.not_le.mpr hmax)]
  obtain ⟨stack1, hok1, hroom, hsize1, hsame1⟩ := ensure_ok (m.frameTop + 1 + site.args.length) m
  have hroom' : m.frameTop + (Value.function id :: site.args).length ≤ stack1.size := by
    rw [List.length_cons]
    omega
  obtain ⟨stack2, hok2, hsize2, hsame2, hnew⟩ := writeMany_ok (m := { m with stack := stack1 }) hroom'
  have hsize2 : stack2.size = stack1.size := hsize2
  rw [Meets, bind_of_ok hok1, bind_of_ok hok2]
  refine Meets.bind (x := modify _) (show Meets False _ _ { m with stack := stack2 } _ from ?_)
  have hs : m.Spares site.slot (fun _ => False)
      { m with stack := stack2, activations := m.activation purpose :: m.activations } := {
    tidy := ⟨hm.sorted, hm.live⟩
    stackSize := by rw [hsize2]; exact hsize1
    cellsSize := Nat.le_refl _
    stack := fun s hs hin _ => (hsame2 s (hslot ▸ hs)).trans (hsame1 s hin)
    opened := fun _ he => .inl he }
  have hbegin := beginCall_begins (S := False) site id .answer hparams hs hf ha.symm ?_ hid fun k hk => ?_
  · rwa [hslot, hwanted] at hbegin
  · rw [hslot]
    exact hnew 0 (Nat.zero_lt_succ _)
  · rw [hslot, Nat.add_assoc, Nat.add_comm 1 k]
    exact hnew (k + 1) (Nat.succ_lt_succ hk)

end Exec

/-! ## 5. Every call -/

namespace Machine

variable {m : Machine} {id : Nat} {site : CallSite} {x : Exec Mode} {p : Proto} {cells : Array Nat}

theorem Executes.tidy (h : m.Executes) : m.Tidy := by
  obtain ⟨m0, fn, as, hbuilt, _, _, hcalls⟩ := h
  exact hcalls.tidy hbuilt.idle

theorem Executes.ready (h : m.Executes) : m.Ready .run := by
  obtain ⟨m0, fn, as, hbuilt, hfn, has, hcalls⟩ := h
  exact hcalls.ready hbuilt.steady hfn has

theorem Supplies.fetched {f : Frame} {rest : List Frame} {start b n : Nat} {vs : List Value} (h : m.Supplies start b vs) :
    (Exec.fetched m f rest n).Supplies start b vs := ⟨h.count, h.values⟩

theorem Whole.params_le (h : m.Whole) (hid : m.functions[id]? = some (.script p cells)) : p.params.toNat ≤ p.maxStack.toNat :=
  (h.functions _ (Array.mem_of_getElem? hid)).code.here.params

theorem Calling.whole (h : m.Calling id site x) : m.Whole := by
  cases h with
  | call hm | tailCall hm | iterator hm => exact hm.ready.whole
  | outside hm => exact hm.whole

theorem Executes.not_stuck {f : Frame} {rest : List Frame} {i : Instr} (h : m.Executes) (hf : m.frames = f :: rest)
    (hi : f.proto.code[f.pc]? = some i) (ho : i.opcode = .call ∨ i.opcode = .tailCall ∨ i.opcode = .tforCall) (m' : Machine) :
    Exec.instruction m ≠ .error .stuck m' := by
  intro hstuck
  have hkeeps := step_keeps h.ready
  have hstep : m.step .run = .done m' .stuck := by
    show ofExec Exec.instruction m = _
    unfold ofExec
    rw [hstuck]
  rw [hstep] at hkeeps
  obtain ⟨_, f', rest', i', hf', hi', hlax⟩ := hkeeps
  obtain ⟨rfl, rfl⟩ := List.cons.inj (hf.symm.trans hf')
  obtain rfl := Option.some.inj (hi.symm.trans hi')
  unfold Instr.Lax at hlax
  rcases ho with ho | ho | ho <;> rw [ho] at hlax <;> exact hlax

/-- **Every call of a script function begins it** with its arguments, unless the limits are reached. -/
theorem Calling.begins (h : m.Calling id site x) (hid : m.functions[id]? = some (.script p cells)) :
    Exec.Meets False (fun e m' => e = .interrupted ∨ e = .stackOverflow ∧ m'.limits.maxDepth ≤ m'.frames.length) x m
      fun mode m' => mode = .run ∧ site.Begun m p cells m' := by
  have hparams := h.whole.params_le hid
  have hsame : ∀ {f : Frame} {rest : List Frame} {low n : Nat}, m.Executes →
      m.Spares low (fun _ => False) (Exec.fetched m f rest n) := fun hm => .same hm.tidy rfl rfl rfl
  cases h with
  | @call f rest i args hm hf hi ho hfn hargs =>
    refine Exec.Meets.strict (Exec.instruction_meets hf hi fun n => ?_) (hm.not_stuck hf hi (.inl ho))
    unfold Exec.execute
    rw [ho]
    show Exec.Meets _ _ (Exec.call (f.base + i.a.val) i.b.val i.c.val) _ _
    unfold Exec.call
    rw [Exec.Meets, Exec.bind_of_ok (Exec.openCount_ok hargs.fetched)]
    have hvalues := hargs.values
    exact Exec.beginCall_begins (S := True) ⟨f.base + i.a.val, args, _, _, _⟩ id _ hparams (hsame hm) rfl rfl hfn hid hvalues
  | @tailCall f rest i args hm hf hi ho hfn hargs =>
    refine Exec.Meets.strict (Exec.instruction_meets hf hi fun n => ?_) (hm.not_stuck hf hi (.inr (.inl ho)))
    unfold Exec.execute
    rw [ho]
    exact Exec.tailCall_begins ⟨f.slot, args, f.wanted, rest, m.activations⟩ (f := { f with pc := f.pc + 1 })
      hparams (hsame hm) rfl rfl rfl rfl (Nat.lt_of_lt_of_le (Nat.lt_succ_self _) (Nat.le_add_right f.base _)) hfn hid hargs.fetched
  | @iterator f rest i v w hm hf hi ho hfn hv hw =>
    refine Exec.Meets.strict (Exec.instruction_meets hf hi fun n => ?_) (hm.not_stuck hf hi (.inr (.inr ho)))
    unfold Exec.execute
    rw [ho]
    have htidy : (Exec.fetched m f rest n).Tidy := ⟨hm.tidy.sorted, hm.tidy.live⟩
    refine Exec.Meets.imp (Exec.callIterator_begins (m := Exec.fetched m f rest n)
      ⟨f.base + i.a.val + 3, [v, w], some i.c.val, { f with pc := f.pc + 1 } :: rest, m.activations⟩
      hparams htidy rfl rfl rfl rfl rfl hfn hv hw hid) (fun _ _ he => he) fun mode m' hbegun => ?_
    exact ⟨hbegun.1, hbegun.2.frames, hbegun.2.activations, (hsame hm).trans hbegun.2.spared⟩
  | outside hm hmax args purpose =>
    exact Exec.Meets.imp (Exec.activate_calls ⟨m.frameTop, args, none, m.frames, _⟩ hparams hm.tidy hmax rfl rfl rfl rfl hid)
      (fun _ _ he => .inr he) fun _ _ h => h

end Machine

end LuaMachine
