/-
  THE MACHINE MAKES A TABLE AND FILLS IT. A new table is empty; what fills it last may be as many values as
  there are up to the top of the stack, put there by variable arguments or by a call.

  * `Draft.StoresOpen` -- the code for that, `Sees.storesOpen` -- **it does it**.
-/
import LuaMachine.Proofs.Assignment.Run
import LuaMachine.Proofs.Constructor.Meaning

namespace LuaMachine

open Machine

variable {m : Machine} {f : Frame} {rest : List Frame} {pc : Nat} {V : Vars}

structure Machine.Delivers (m : Machine) (start : Nat) (vs : List Value) : Prop where
  values : ∀ k < vs.length, m.stack[start + k]? = vs[k]?
  top : m.top = start + vs.length

namespace Machine.Delivers

variable {start : Nat} {us vs : List Value}

theorem behind (h : m.Delivers (start + us.length) vs) (hus : ∀ k < us.length, m.stack[start + k]? = us[k]?) :
    m.Delivers start (us ++ vs) where
  values k hk := by
    rw [List.length_append] at hk
    by_cases hlt : k < us.length
    · rw [List.getElem?_append_left hlt, hus k hlt]
    · rw [List.getElem?_append_right (by omega), ← h.values _ (by omega)]
      congr 1
      omega
  top := by
    rw [h.top, List.length_append, Nat.add_assoc]

theorem le_size (h : m.Delivers start vs) (hstart : start ≤ m.stack.size) : start + vs.length ≤ m.stack.size := by
  cases hlen : vs.length with
  | zero => exact hstart
  | succ n =>
    have hlast := h.values n (by omega)
    rw [List.getElem?_eq_getElem (by omega)] at hlast
    have hlt := (Array.getElem?_eq_some_iff.mp hlast).1
    omega

end Machine.Delivers

namespace Exec

theorem makes_newTable {i : Instr} (h : m.Sees f rest (pc + 1) V) (hf : i.Fits f.proto.room) (ho : i.opcode = .newTable) :
    Makes f rest (Exec.plain { f with pc := pc + 1 } i i.opcode) m
      (.ok (V.newTable i.a.val, pc + 1)) := by
  simp only [Instr.Fits, ho] at hf
  rw [ho]
  have hnew : Exec.newTable .empty m = .ok (.table V.tables.size) { m with tables := m.tables.push .empty } := by
    rw [← h.tables]
    rfl
  have hsees : { m with tables := m.tables.push .empty }.Sees f rest (pc + 1) { V with tables := V.tables.push .empty } :=
    ⟨⟨h.spot.frames, h.spot.top, h.spot.regs⟩, h.upvalues, congrArg (·.push .empty) h.tables,
      ⟨h.apart.cells, h.apart.slots, h.apart.below⟩, h.cells⟩
  obtain ⟨m', hok, h', hk'⟩ := makes_write hsees hf (.table V.tables.size)
  have hkeeps : f.Keeps m { m with tables := m.tables.push .empty } :=
    ⟨rfl, rfl, rfl, fun _ _ _ => rfl, fun _ _ => rfl, fun _ _ => Iff.rfl⟩
  exact ⟨m', (bind_of_ok hnew).trans hok, h', hkeeps.trans hk'⟩

theorem upvalue_below {m' : Machine} (ha : m.Apart f) (hcells : m'.cells = m.cells)
    (hstack : ∀ s < f.base, m'.stack[s]? = m.stack[s]?) : m'.upvalue f = m.upvalue f := by
  funext u
  unfold Machine.upvalue
  cases hu : f.cells[u]? with
  | none => rfl
  | some c =>
    have hcell : m'.cellValue? c = m.cellValue? c := by
      unfold Machine.cellValue?
      rw [hcells]
      cases hc : m.cells[c]? with
      | none => rfl
      | some cell =>
        cases cell with
        | closed w => rfl
        | live slot => exact hstack slot (ha.below u c slot hu hc)
    rw [Option.bind_some, Option.bind_some, hcell]

theorem vararg_sees {i : Instr} (h : m.Sees f rest (pc + 1) V) (ho : i.opcode = .vararg) (hb : i.b.val = 0) :
    ∃ m', Exec.plain { f with pc := pc + 1 } i i.opcode m = .ok () m' ∧ (∃ V' : Vars, m'.Sees f rest (pc + 1) V' ∧
      V'.upvalues = V.upvalues ∧ V'.tables = V.tables) ∧ m'.limits = m.limits ∧
      (∀ s < f.base + i.a.val, s < m.stack.size → m'.stack[s]? = m.stack[s]?) ∧
      m'.Delivers (f.base + i.a.val) f.varargs := by
  rw [ho]
  obtain ⟨stack, hok, hsize, hgrows, hlow, hnew⟩ := place_all (f.base + i.a.val) f.varargs none m
  have hexec : Exec.plain { f with pc := pc + 1 } i .vararg m =
      .ok () { m with stack := stack, top := f.base + i.a.val + f.varargs.length } := by
    show Exec.place (f.base + i.a.val) f.varargs (Operand.toCount? i.b.val) m = _
    rw [hb]
    exact hok
  have htop : f.base + f.proto.room.registers ≤ m.stack.size := h.spot.top
  generalize hm' : { m with stack := stack, top := f.base + i.a.val + f.varargs.length } = m' at hexec
  have hstack : m'.stack = stack := by rw [← hm']
  have hspot : m'.At f rest ⟨pc + 1, m'.registers f.base⟩ :=
    ⟨by rw [← hm']; exact h.spot.frames, by rw [hstack]; exact Nat.le_trans h.spot.top hgrows, rfl⟩
  subst hm'
  refine ⟨_, hexec, ⟨⟨_, V.upvalues, V.tables⟩, ⟨hspot, ?_, h.tables, ?_, h.cells⟩, rfl, rfl⟩, rfl, hlow, ⟨hnew, rfl⟩⟩
  · refine Eq.trans ?_ h.upvalues
    exact upvalue_below h.apart rfl fun s hs => hlow s (by omega) (by omega)
  · exact ⟨h.apart.cells, h.apart.slots, h.apart.below⟩

theorem readMany_delivered {i : Instr} {vs : List Value} (hb : i.b.val = 0) (h : m.Delivers (f.base + i.a.val + 1) vs)
    (htop : f.base + i.a.val + 1 + vs.length ≤ m.stack.size) {m' : Machine} (hm : m'.stack = m.stack) :
    Exec.readMany (f.base + i.a.val + 1) (storeCount m f i) m' = .ok vs m' := by
  have hcount : storeCount m f i = vs.length := by
    rw [storeCount, if_pos hb, h.top]
    exact Nat.add_sub_cancel_left ..
  rw [hcount]
  exact readMany_ok vs (by rw [hm]; exact htop) fun k hk => by rw [hm]; exact h.values k hk

end Exec

/-! ## 2. The last values -/

inductive Draft.StoresOpen (t block : Nat) : List Instr → Prop where
  | near (hpos : 0 < block) (hle : block ≤ Instr.maxC) : StoresOpen t block [.ofABC .setList t 0 block]
  | far (hle : block ≤ Instr.maxAx) : StoresOpen t block [.ofABC .setList t 0 0, .ofAx .extraArg block]

theorem Draft.StoresOpen.length_pos {t block : Nat} {is : List Instr} (h : Draft.StoresOpen t block is) : 0 < is.length := by
  cases h <;> simp

namespace Machine

open Exec

/-- **The values up to the top are stored in the table.** -/
theorem Sees.storesOpen {t block : Nat} {is : List Instr} {vs : List Value} (hs : m.Sees f rest pc V)
    (hcode : Draft.StoresOpen t block is) (hp : f.proto.Sound) (hi : ∀ k < is.length, f.proto.code[pc + k]? = is[k]?)
    (hl : m.limits.Endless) (ht : t < f.proto.room.registers) (hsmall : t < 255) (hvs : m.Delivers (f.base + t + 1) vs)
    {V' : Vars} (hset : V.setInts (V.regs t) (((block : Int) - 1) * itemsPerFlush) vs = .ok V') :
    m.Comes f rest (pc + is.length) (V', none) := by
  have ha : ∀ b c, (Instr.ofABC .setList t b c).a.val = t := fun b c => by
    rw [Instr.a_ofABC, Nat.mod_eq_of_lt (by omega)]
  have hb : ∀ c, (Instr.ofABC .setList t 0 c).b.val = 0 := fun c => by
    rw [Instr.b_ofABC]
  have htop := hvs.le_size (Nat.succ_le_of_lt (hs.spot.lt ht))
  have hstart : ∀ {m1 : Machine} {c : Nat}, m1.stack = m.stack → m1.top = m.top →
      m1.Delivers (f.base + (Instr.ofABC .setList t 0 c).a.val + 1) vs := fun hstack htop' => by
    rw [ha]
    exact ⟨fun k hk => by rw [hstack]; exact hvs.values k hk, htop'.trans hvs.top⟩
  cases hcode with
  | near hpos hle =>
    have hfirst := hi 0 (by simp)
    refine Comes.plainStack hs hl hfirst (by simp) fun m1 h1 hstack htop1 => ?_
    have hc : (Instr.ofABC .setList t 0 block).c.val = block := by
      rw [Instr.c_ofABC, Nat.mod_eq_of_lt (show block < 512 from Nat.lt_succ_of_le hle)]
    have hmakes := makes_setList h1 (hp.fits _ _ hfirst) (by simp) (by omega)
      (readMany_delivered (hb block) (hstart hstack htop1) (by rw [ha, hstack]; exact htop) rfl)
    rwa [ha, hc, hset] at hmakes
  | far hle =>
    have hfirst := hi 0 (by simp)
    refine Comes.plainStack hs hl hfirst (by simp) fun m1 h1 hstack htop1 => ?_
    have hmakes := makes_setListFar h1 (hp.fits _ _ hfirst) (by simp) (by simp) (hi 1 (by simp))
      fun m' hm => readMany_delivered (hb 0) (hstart hstack htop1) (by rw [ha, hstack]; exact htop) hm
    rwa [ha, Compile.ax_ofAx hle, hset] at hmakes

theorem Sees.vararg {i : Instr} (h : m.Sees f rest pc V) (hl : m.limits.Endless) (hi : f.proto.code[pc]? = some i)
    (ho : i.opcode = .vararg) (hb : i.b.val = 0) :
    ∃ (m' : Machine) (V' : Vars), Reaches m .run m' .run ∧ m'.Sees f rest (pc + 1) V' ∧ V'.upvalues = V.upvalues ∧
      V'.tables = V.tables ∧ m'.limits = m.limits ∧
      (∀ s < f.base + i.a.val, s < m.stack.size → m'.stack[s]? = m.stack[s]?) ∧
      m'.Delivers (f.base + i.a.val) f.varargs := by
  obtain ⟨m1, hfetch, h1, hk1, hstack, -⟩ := h.fetched hl hi
  obtain ⟨m', hok, ⟨V', h', hup, htables⟩, hlimits, hlow, hdelivers⟩ := vararg_sees h1 ho hb
  have hstep : m.step .run = .more m' .run := by
    refine step_of_ok hfetch ?_
    rw [execute_of_plain (by rw [ho]; decide), bind_of_ok hok]
    rfl
  refine ⟨m', V', .step .start hstep, h', hup, htables, hlimits.trans hk1.limits, fun s hs hlt => ?_, hdelivers⟩
  rw [hlow s hs (by rw [hstack]; exact hlt), hstack]

/-- **The table is completed**: to the list of which full blocks are stored come the values in registers behind the table's,
    and those that have been delivered behind them. -/
theorem Sees.completes {t id : Nat} {code : List Instr} {vs : List Value} (stored gathered : List Value) {fields : List (Bytes × Value)}
    {T : Table} (hs : m.Sees f rest pc V) (hcode : Draft.StoresOpen t (stored.length / itemsPerFlush + 1) code)
    (hp : f.proto.Sound) (hi : ∀ k < code.length, f.proto.code[pc + k]? = code[k]?) (hl : m.limits.Endless)
    (ht : t + gathered.length < f.proto.room.registers) (hsmall : t < 255) (hblocks : stored.length % itemsPerFlush = 0)
    (hreg : V.regs t = .table id) (hT : V.tables[id]? = some T) (hlists : T.Lists stored fields)
    (hspan : V.span (t + 1) gathered.length = gathered) (hvs : m.Delivers (f.base + t + 1 + gathered.length) vs)
    (hmax : ((stored.length + gathered.length + vs.length : Nat) : Int) ≤ Int64.maxValue.toInt) :
    ∃ T', T'.Lists (stored ++ gathered ++ vs) fields ∧
      m.Comes f rest (pc + code.length) ({ V with tables := V.tables.modify id fun _ => T' }, none) := by
  have hbehind : m.Delivers (f.base + t + 1) (gathered ++ vs) := by
    refine hvs.behind fun k hk => ?_
    have hval : V.regs (t + 1 + k) = gathered[k] := by
      have hget := congrArg (·[k]?) hspan
      rw [Vars.span, List.getElem?_map, List.getElem?_range hk, List.getElem?_eq_getElem hk] at hget
      exact Option.some.inj hget
    rw [show f.base + t + 1 + k = f.base + (t + 1 + k) by omega, hs.spot.value (by omega), List.getElem?_eq_getElem hk]
    exact congrArg some hval
  have hfirst : (((stored.length / itemsPerFlush + 1 : Nat) : Int) - 1) * itemsPerFlush = stored.length := by
    simp only [itemsPerFlush] at hblocks ⊢
    omega
  refine ⟨T.setInts stored.length (gathered ++ vs), ?_, hs.storesOpen hcode hp hi hl (by omega) hsmall hbehind ?_⟩
  · rw [List.append_assoc]
    refine hlists.setInts ?_
    rw [List.length_append]
    omega
  · rw [hfirst, hreg, Vars.setInts, hT, Option.getD_some]

end Machine

end LuaMachine
