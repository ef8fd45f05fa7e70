/-
  EXPRESSIONS ARRIVE IN REGISTERS. An expression whose value may be decided early is brought into one
  register whichever way it goes, or becomes an operand.

  * `Named` -- an expression has become an operand; **`Compile.Writes.toOperand_names`**.
-/
import LuaMachine.Proofs.Meaning.Value

namespace LuaMachine

/-! ## 1. Registers -/

/-- An expression has been brought into a register, and no register below `floor` was written. -/
structure Brought (list : List Nat) (d : Draft) (e : Expr) (floor reg : Nat) (d' : Draft) : Prop where
  moves : d.Moves list d'
  roomy : d'.Roomy
  waits : d'.Waits list d'.pc
  runs : ∀ p : Proto, CompletesAbove floor p d' list d'.pc → CompletesAbove floor p d (list ++ e.exits) (e.top d) ∧
    ∀ (low : Nat) (s : Spot) (r : Except Clash Value), low ≤ floor → Yields p d low s e r →
      Brings p d' low s reg r

variable {list : List Nat} {d d' : Draft} {e : Expr} {reg : Nat}

theorem Brought.local_ {r floor : Nat} (hp : e.place.read = .fixed r) (hj : e.exits = [])
    (hw : d.Waits (list ++ e.exits) (e.top d)) (hr : d.Roomy) : Brought list d e floor r d := by
  have hback : e.top d = d.pc := by
    unfold Expr.top
    cases he : e.place <;> rw [he] at hp <;> first | rfl | cases hp
  rw [hj, List.append_nil, hback] at hw
  refine ⟨.refl _ _, hr, hw, fun p hc => ⟨by rw [hj, List.append_nil, hback]; exact hc, ?_⟩⟩
  intro low s x _ hy
  have hnil := List.append_eq_nil_iff.mp hj
  cases hy with
  | @falls s' _ hpath ht hv =>
    have hx : x = .ok (s'.regs r) := by
      cases he : e.place <;> rw [he] at hp hv <;> cases hp <;> exact hv
    rw [hback] at ht
    subst hx
    exact ⟨s', hpath, ht, rfl⟩
  | onTrue hm =>
    rw [hnil.1] at hm
    cases hm
  | onFalse hm =>
    rw [hnil.2] at hm
    cases hm
  | fails hf => exact hf

namespace Place.Sits

variable {js : JumpList}

theorem comparison (h : (Place.compare js).Sits d) :
    js = [d.pc - 1] ∧ 2 ≤ d.pc ∧ d.here = [] ∧ d.Jmp (d.pc - 1) ∧ ¬ d.Sets (d.pc - 1) ∧
      d.code[d.pc - 2]? = some (d.instr (d.pc - 2)) ∧
      ∃ order, (d.instr (d.pc - 2)).opcode.order? = some order := by
  obtain ⟨j, hjs, hpc, hpos, hh, hj, order, ho⟩ := h
  have h1 : j = d.pc - 1 := by omega
  have h2 : j - 1 = d.pc - 2 := by omega
  rw [h1] at hjs hj
  rw [h2] at ho
  refine ⟨hjs, by omega, hh, hj, fun hs => ?_, ?_, order, ho⟩
  · have h3 : d.pc - 1 - 1 = d.pc - 2 := by omega
    have hset := hs.2
    rw [h3] at hset
    rw [hset] at ho
    cases ho
  · cases hi : d.code[d.pc - 2]? with
    | none =>
      rw [Draft.instr, hi] at ho
      cases ho
    | some i => rw [Draft.instr_eq hi]

theorem completed {k : Nat} {p : Proto} {list' : List Nat} (h : (Place.compare js).Sits d)
    (hw : d.Waits list (d.pc - 2)) (hp : CompletesAbove k p d list' d.pc)
    (hl : ∀ j, j ∈ list' ↔ j ∈ list ∨ j = d.pc - 1) :
    CompletesAbove k p d list (d.pc - 2) ∧ p.code[d.pc - 2]? = some (d.instr (d.pc - 2)) := by
  obtain ⟨-, hlen, -, -, -, hcode, order, ho⟩ := h.comparison
  refine ⟨hp.forget (by omega) (fun j hm => ?_) fun j hm => (hl j).mpr (.inl hm), ?_⟩
  · exact ((hl j).mp hm).imp_right fun h => by omega
  · refine hp.same hcode (by omega) ?_ ?_
    · rintro (hm | ⟨-, hset⟩)
      · have hjump : d.Jmp (d.pc - 2) := by
          rcases List.mem_append.mp hm with hm | hm
          · exact hw.jmp (((hl _).mp hm).resolve_right (by omega))
          · exact hw.here hm
        rw [hjump.opcode] at ho
        cases ho
      · rw [hset] at ho
        cases ho
    · intro hnil
      rw [hnil] at ho
      cases ho

end Place.Sits

theorem Brought.of_settled {d1 : Draft} (hs : Settled (list ++ e.exits) d e.place reg d1)
    (hj : Joined list d1 e.onTrue e.onFalse true reg d') : Brought list d e reg reg d' := by
  refine ⟨hs.moves.left.trans hj.moves, hj.roomy, hj.waits, fun p hp => ?_⟩
  obtain ⟨hp1, hfall, -, hdecide⟩ := hj.runs p reg hp
  obtain ⟨hp0, hruns⟩ := hs.runs p hp1
  refine ⟨hp0, fun low s r hl hy => ?_⟩
  cases hy with
  | falls hpath ht hv =>
    refine .after hpath ?_
    have harr := hruns low _ r hl ht hv
    cases r with
    | error c => exact harr
    | ok v =>
      obtain ⟨s', hpath', ht', hreg⟩ := harr
      exact ⟨s', hpath', hfall rfl s' ht', hreg⟩
  | onTrue hm hd =>
    have hd1 := hd.congr hs.moves.tests (by simp [Expr.exits, hm])
    exact hdecide _ true hm low s _ hl hd1
  | onFalse hm hd =>
    have hd1 := hd.congr hs.moves.tests (by simp [Expr.exits, hm])
    exact hdecide _ false hm low s _ hl hd1
  | fails hf => exact hf

theorem Brought.of_compare {js : JumpList} (hplace : e.place = .compare js) (hsits : e.place.Sits d)
    (hw : d.Waits (list ++ e.exits) (e.top d))
    (hj : Joined list d (e.onTrue ++ js) e.onFalse false reg d') (hf : d'.Fresh) : Brought list d e reg reg d' := by
  rw [hplace] at hsits
  obtain ⟨hjs, hlen, hh, -, hnot, -⟩ := hsits.comparison
  have htop : e.top d = d.pc - 2 := by rw [Expr.top, hplace]; rfl
  rw [htop] at hw
  refine ⟨hj.moves, hj.roomy, hj.waits, fun p hp => ?_⟩
  obtain ⟨hp1, -, hfirst, hdecide⟩ := hj.runs p reg hp
  have hmem : d.pc - 1 ∈ e.onTrue ++ js := by simp [hjs]
  have hlist : ∀ j, j ∈ list ++ (e.onTrue ++ js ++ e.onFalse) ↔ j ∈ list ++ e.exits ∨ j = d.pc - 1 := by
    intro j
    simp only [hjs, Expr.exits, List.mem_append, List.mem_singleton]
    constructor
    · rintro (h | (h | h) | h) <;> simp [h]
    · rintro ((h | h | h) | h) <;> simp [h]
  obtain ⟨hp0, hfinal⟩ := hsits.completed hw hp1 hlist
  rw [htop]
  refine ⟨hp0, fun low s r hl hy => ?_⟩
  cases hy with
  | @falls s' _ hpath ht hv =>
    have hspot := ht.pc_eq hh
    rw [htop] at hspot
    obtain ⟨pc0, regs⟩ := s'
    obtain rfl : pc0 = d.pc - 2 := hspot
    rw [hplace] at hv
    refine .after hpath ?_
    have h1 : d.pc - 2 + 1 = d.pc - 1 := by omega
    have h2 : d.pc - 2 + 2 = d.pc := by omega
    have hstep := Instr.Compares.step hv hfinal low
    rw [h1, h2] at hstep
    rcases hstep with ⟨rfl, hstep⟩ | ⟨rfl, hstep⟩ | ⟨c, rfl, hfails⟩
    · refine hdecide (d.pc - 1) true hmem low _ _ hl ⟨rfl, _, hstep, ?_⟩
      unfold Draft.Poised
      rw [if_neg hnot]
      exact ⟨rfl, rfl⟩
    · exact .after hstep ((hfirst rfl ⟨_, hmem, hnot⟩ low _ hl).brings fun _ => hf.primed)
    · exact hfails
  | onTrue hm hd => exact hdecide _ true (List.mem_append_left _ hm) low s _ hl hd
  | onFalse hm hd => exact hdecide _ false hm low s _ hl hd
  | fails hf => exact hf

namespace Compile

/-- **A value is brought into a register, whichever way it is decided.** -/
theorem Writes.toRegister_brings (hs : e.place.Sits d) (hw : d.Waits (list ++ e.exits) (e.top d))
    (hr : d.Roomy) (hreg : reg < 255) (hact : d.active ≤ reg) (hf : e.place = .nil → d.Tight) :
    Writes (Compile.toRegister e reg) d fun _ d' => Brought list d e reg reg d' ∧ d'.free = d.free ∧ d'.Tight ∧
      (e.place ≠ .nil ∨ e.exits ≠ [] → d'.Fresh) := by
  refine (Writes.settle_settles hs hw hr hreg hact hf).andThen fun e' d1 h => ?_
  rcases h with ⟨⟨js, hjs⟩, rfl, rfl⟩ | ⟨rfl, hset⟩
  · -- a comparison
    rw [hjs]
    simp only
    have hs' := hs
    rw [hjs] at hs'
    obtain ⟨hone, hlen, hh, hjmp, -⟩ := hs'.comparison
    have htop : e'.top d1 = d1.pc - 2 := by rw [Expr.top, hjs]; rfl
    refine (Writes.joinJumps _ _).andThen ?_
    rintro l d2 ⟨hl, hd2⟩
    refine Writes.bind (Writes.pure ?_)
    subst hd2 hl
    have hwall : d2.Waits (list ++ ((e'.onTrue ++ js) ++ e'.onFalse)) d2.pc := by
      rw [hone]
      refine (hw.snoc hjmp (by omega)).perm ?_
      simp only [Expr.exits, List.append_assoc]
      exact (List.perm_append_comm.append_left _).append_left _
    have hlast : (d2.instr (d2.pc - 1)).opcode ≠ .testSet := hjmp.not_testSet
    refine (joins hwall hr hh hlast hreg).imp fun _ d' hj => ?_
    have hfresh := hj.fresh (.inl (by simp [hone]))
    exact ⟨.of_compare hjs hs hw hj hfresh, hj.free, hfresh.tight, fun _ => hfresh⟩
  · simp only
    refine Writes.bind (Writes.pure ?_)
    refine (joins hset.waits hset.roomy hset.here hset.last hreg).imp fun _ d' hj => ?_
    refine ⟨.of_settled hset hj, hj.free.trans hset.free, ?_⟩
    by_cases hnone : e.onTrue = [] ∧ e.onFalse = []
    · rw [hj.same hnone.1 hnone.2]
      refine ⟨hset.tight, fun h => hset.fresh (h.resolve_right fun hne => hne ?_)⟩
      rw [Expr.exits, hnone.1, hnone.2]
      rfl
    · have hfresh : d'.Fresh := by
        refine hj.fresh ?_
        by_cases ht : e.onTrue = []
        · exact .inr fun hf => hnone ⟨ht, hf⟩
        · exact .inl ht
      exact ⟨hfresh.tight, fun _ => hfresh⟩

end Compile

/-! ## 2. The next register, some register -/

namespace Place

theorem back_read (q : Place) : q.read.back = q.back := by
  cases q <;> rfl

theorem Sits.read {q : Place} (h : q.Sits d) : q.read.Sits d := by
  cases q <;> exact h

theorem Holds.read {p : Proto} {q : Place} {regs : Nat → Value} {r : Except Clash Value}
    (h : q.Holds p d regs r) : q.read.Holds p d regs r := by
  cases q <;> exact h

theorem read_eq_nil {q : Place} (h : q.read = .nil) : q = .nil := by
  cases q <;> first | rfl | cases h

theorem Sits.cost_read {q : Place} (h : q.Sits d) : q.read.cost d.active = 0 := by
  cases q <;> first | rfl | exact h.elim | exact Operand.cost_lt h

theorem Sits.isValue_read {q : Place} (h : q.Sits d) : q.read.isValue = true := by
  cases q <;> first | rfl | exact h.elim

theorem Sits.isMulti {q : Place} (h : q.Sits d) : q.isMulti = false := by
  cases q <;> first | rfl | exact h.elim

end Place

theorem Yields.read {p : Proto} {low : Nat} {s : Spot} {r : Except Clash Value} (h : Yields p d low s e r) :
    Yields p d low s { e with place := e.place.read } r := by
  cases h with
  | falls hp ht hv =>
    refine .falls hp ?_ hv.read
    rw [Expr.top, Place.back_read]
    exact ht
  | onTrue hj hd => exact .onTrue hj hd
  | onFalse hj hd => exact .onFalse hj hd
  | fails hf => exact .fails hf

theorem Draft.Retakes.yields {p : Proto} {low : Nat} {s : Spot} {r : Except Clash Value} (ht : d.Retakes d')
    (h : Yields p d low s e r) : Yields p d' low s e r := by
  have htests : ∀ list, d.SameTests list d' := fun list => by
    have hm : d.Moves list d' := ht.moves
    exact hm.tests
  cases h with
  | falls hp hs hv =>
    refine .falls hp ?_ (ht.holds hv)
    rw [Expr.top, ht.pc]
    exact ht.entered hs
  | onTrue hj hd => exact .onTrue hj (hd.congr (htests _) hj)
  | onFalse hj hd => exact .onFalse hj (hd.congr (htests _) hj)
  | fails hf => exact .fails hf

theorem Brought.of_read {d1 : Draft} {floor : Nat} (ht : d.Retakes d1)
    (h : Brought list d1 { e with place := e.place.read } floor reg d') : Brought list d e floor reg d' := by
  refine ⟨ht.moves.trans h.moves, h.roomy, h.waits, fun p hp => ?_⟩
  obtain ⟨hp1, hruns⟩ := h.runs p hp
  rw [Expr.top, Place.back_read, ht.pc] at hp1
  exact ⟨ht.completes hp1, fun low s r hl hy => hruns low s r hl (ht.yields hy.read)⟩

namespace Compile

/-- **A value is brought into the next register.** -/
theorem Writes.toNextRegister_brings (hs : e.place.Sits d) (hw : d.Waits (list ++ e.exits) (e.top d))
    (hr : d.Roomy) (hf : e.place = .nil → d.Tight) :
    Writes (Compile.toNextRegister e) d fun r d' => r = d.free ∧ d.free < 254 ∧
      Brought list d e d.free d.free d' ∧ d'.free = d.free + 1 ∧ d'.Tight ∧
      (e.place ≠ .nil ∨ e.exits ≠ [] → d'.Fresh) := by
  refine (Writes.readVariable_reads hs).andThen ?_
  rintro e1 d1 ⟨he1, hd1⟩
  subst hd1 he1
  refine (Writes.freeExpr hs.isValue_read).andThen fun _ d2 hd2 => ?_
  rw [hs.cost_read, Nat.sub_zero] at hd2
  subst hd2
  refine (Writes.reserve_takes hr).andThen ?_
  rintro _ d3 ⟨ht, hr3, hfree, hlt⟩
  have hreg : d3.free - 1 = d1.free := by
    rw [hfree]
    rfl
  refine Writes.topRegister ?_
  rw [hreg]
  have hw3 : d3.Waits (list ++ e.exits) (Expr.top d3 { e with place := e.place.read }) := by
    rw [Expr.top, Place.back_read, ht.pc]
    exact ht.waits hw
  have hact : d3.active ≤ d1.free := by
    rw [ht.active]
    exact hr.active
  refine (Writes.toRegister_brings (e := { e with place := e.place.read }) (ht.sits hs.read) hw3 hr3
    (by omega) hact fun hn => ht.tight (hf (Place.read_eq_nil hn))).andThen ?_
  rintro _ d' ⟨hb, hfree', htight, hfresh⟩
  exact Writes.pure ⟨rfl, hlt, .of_read ht hb, hfree'.trans hfree, htight,
    fun h => hfresh (h.imp_left fun hne hn => hne (Place.read_eq_nil hn))⟩

theorem exits_of_hasJumps (h : e.hasJumps = false) : e.exits = [] := by
  simp only [Expr.hasJumps, Bool.not_eq_false', Bool.and_eq_true, List.isEmpty_iff] at h
  rw [Expr.exits, h.1, h.2]
  rfl

/-- **A value is brought into some register**; only a local without jumps stays where it is. -/
theorem Writes.toAnyRegister_brings (hs : e.place.Sits d) (hw : d.Waits (list ++ e.exits) (e.top d))
    (hr : d.Roomy) (hf : d.Tight) :
    Writes (Compile.toAnyRegister e) d fun r d' => r < 254 ∧ r < d'.free ∧ Brought list d e d.free r d' ∧
      d'.free = d.free + Operand.cost d.active r ∧ d'.Tight := by
  have hnext : Writes (Compile.toNextRegister { e with place := e.place.read }) d fun r d' =>
      r < 254 ∧ r < d'.free ∧ Brought list d e d.free r d' ∧ d'.free = d.free + Operand.cost d.active r ∧
      d'.Tight := by
    have hw' : d.Waits (list ++ e.exits) (Expr.top d { e with place := e.place.read }) := by
      rw [Expr.top, Place.back_read]
      exact hw
    refine (Writes.toNextRegister_brings (e := { e with place := e.place.read }) hs.read hw' hr
      fun _ => hf).imp ?_
    rintro r d' ⟨h1, hlt, hb, hfree, htight, _⟩
    subst h1
    rw [cost_free (by omega) hr.active]
    exact ⟨hlt, by omega, .of_read ⟨_, _, rfl⟩ hb, hfree, htight⟩
  refine (Writes.readVariable_reads hs).andThen ?_
  rintro e1 d1 ⟨he1, hd1⟩
  subst hd1 he1
  simp only
  split
  · next r hp =>
    have hlt : r < d1.active := by
      have := hs.read
      rw [hp] at this
      exact this
    split
    · next hj =>
      have hj' : e.hasJumps = false := (Bool.not_eq_true' _).mp hj
      have hact := hr.active
      refine Writes.pure ⟨hr.lt hlt, by omega, .local_ hp (exits_of_hasJumps hj') hw hr, ?_, hf⟩
      rw [Operand.cost_lt hlt]
      rfl
    · refine Writes.get fun s hget => ?_
      rw [hget, if_neg (by omega)]
      rw [hp] at hnext
      rw [hp]
      exact hnext
  · exact hnext

end Compile

/-! ## 3. Operands -/

def Offers (p : Proto) (d : Draft) (low : Nat) (s : Spot) (x : Nat) : Except Clash Value → Prop
  | .ok v => ∃ s', p.Path low s s' ∧ d.Entered p d.pc s' ∧ p.value? s'.regs x = some v
  | .error c => p.Fails low s c

/-- An expression has become an operand. -/
structure Named (list : List Nat) (d : Draft) (e : Expr) (x : Nat) (d' : Draft) : Prop where
  moves : d.Moves list d'
  roomy : d'.Roomy
  tight : d'.Tight
  waits : d'.Waits list d'.pc
  free : d'.free = d.free + Operand.cost d.active x
  lt : x < 512
  register : Operand.isConstant x = false → x < d'.free
  runs : ∀ p : Proto, Completes p d' list d'.pc → Completes p d (list ++ e.exits) (e.top d) ∧
    ∀ (low : Nat) (s : Spot) (r : Except Clash Value), low ≤ d.free → Yields p d low s e r →
      Offers p d' low s x r

theorem Yields.whole {p : Proto} {low : Nat} {s : Spot} {r : Except Clash Value}
    (h : Yields p d low s e r) (hj : e.exits = []) :
    (∃ s', p.Path low s s' ∧ d.Entered p (e.top d) s' ∧ e.place.Holds p d s'.regs r) ∨
      ∃ c, r = .error c ∧ p.Fails low s c := by
  have hnil := List.append_eq_nil_iff.mp hj
  cases h with
  | falls hpath ht hv => exact .inl ⟨_, hpath, ht, hv⟩
  | onTrue hm =>
    rw [hnil.1] at hm
    cases hm
  | onFalse hm =>
    rw [hnil.2] at hm
    cases hm
  | fails hf => exact .inr ⟨_, rfl, hf⟩

namespace Named

theorem of_brought (h : Brought list d e d.free reg d') (hreg : reg < 254) (hlt : reg < d'.free)
    (hfree : d'.free = d.free + Operand.cost d.active reg) (hf : d'.Tight) : Named list d e reg d' := by
  refine ⟨h.moves, h.roomy, hf, h.waits, hfree, by omega, fun _ => hlt, fun p hp => ?_⟩
  obtain ⟨hp0, hruns⟩ := h.runs p (hp.mono (by omega))
  refine ⟨hp0, fun low s r hl hy => ?_⟩
  have harr := hruns low s r hl hy
  cases r with
  | error c => exact harr
  | ok v =>
    obtain ⟨s', hpath, ht, hv⟩ := harr
    refine ⟨s', hpath, ht, ?_⟩
    rw [Proto.value?, Operand.isConstant_of_lt (by omega), if_neg (by decide), hv]

variable {ks : Array Constant} {k : Nat} {c : Constant}

theorem of_constant (hk : ks[k]? = some c) (hle : k ≤ Operand.maxConstant)
    (hpre : ∀ (k : Nat) (c : Constant), d.constants[k]? = some c → ks[k]? = some c)
    (hsize : ks.size ≤ Instr.maxAx + 1) (hj : e.exits = []) (hb : e.place.back = 0)
    (hw : d.Waits (list ++ e.exits) (e.top d)) (hr : d.Roomy) (hf : d.Tight)
    (hv : ∀ (p : Proto) regs r, p.constants[k]? = some c → e.place.Holds p d regs r →
      r = .ok (.ofConstant c)) :
    Named list d e (Operand.ofConstant k) { d with constants := ks } := by
  obtain ⟨hconst, hindex, hlt⟩ := Operand.isConstant_ofConstant hle
  have htop : e.top d = d.pc := by rw [Expr.top, hb, Nat.sub_zero]
  rw [hj, List.append_nil, htop] at hw
  refine ⟨.quiet rfl (.of_rest rfl) hpre, ⟨hr.active, hr.free, hr.stack, hsize⟩, hf,
    ⟨hw.le, hw.jumps, hw.nodup, hw.target⟩, ?_, hlt, fun h => ?_, fun p hp => ?_⟩
  · rw [Operand.cost_ofConstant hle]
    rfl
  · rw [hconst] at h
    cases h
  · rw [hj, List.append_nil, htop]
    refine ⟨hp.stock rfl rfl rfl hpre, fun low s r _ hy => ?_⟩
    rcases hy.whole hj with ⟨s', hpath, ht, hh⟩ | ⟨c, rfl, hfails⟩
    · have hpk := hp.constants k c hk
      rw [htop] at ht
      rw [hv p s'.regs r hpk hh]
      exact ⟨s', hpath, ⟨ht.near, ht.primed⟩, by rw [Proto.value?, if_pos hconst, hindex, hpk]; rfl⟩
    · exact hfails

theorem of_pool (hk : ks[k]? = some c)
    (hpre : ∀ (k : Nat) (c : Constant), d.constants[k]? = some c → ks[k]? = some c)
    (hj : e.exits = []) (hb : e.place.back = 0)
    (hv : ∀ (p : Proto) regs r, p.constants[k]? = some c → e.place.Holds p d regs r →
      r = .ok (.ofConstant c))
    (h : Named list { d with constants := ks } { e with place := .constant k } reg d') :
    Named list d e reg d' := by
  have hm : d.Moves list { d with constants := ks } := .quiet rfl (.of_rest rfl) hpre
  refine ⟨hm.trans h.moves, h.roomy, h.tight, h.waits, h.free, h.lt, h.register, fun p hp => ?_⟩
  obtain ⟨hp1, hruns⟩ := h.runs p hp
  have htop : e.top d = d.pc := by rw [Expr.top, hb, Nat.sub_zero]
  rw [htop]
  refine ⟨hp1.stock rfl rfl rfl hpre, fun low s r hl hy => ?_⟩
  rcases hy.whole hj with ⟨s', hpath, ht, hh⟩ | ⟨c, rfl, hfails⟩
  · have hpk := hp1.constants k c hk
    rw [htop] at ht
    exact hruns low s r hl (.falls hpath ⟨ht.near, ht.primed⟩ ⟨c, hpk, hv p s'.regs r hpk hh⟩)
  · exact hfails

end Named

theorem Place.Holds.literal {p : Proto} {q : Place} {c : Constant} {regs : Nat → Value}
    {r : Except Clash Value} (h : q.Holds p d regs r) (hc : Compile.literal? q = some c) :
    r = .ok (.ofConstant c) := by
  cases q <;> cases hc <;> exact h

theorem Place.back_of_literal {q : Place} {c : Constant} (hc : Compile.literal? q = some c) : q.back = 0 := by
  cases q <;> first | rfl | cases hc

namespace Compile

theorem Writes.toAnyRegister_fixed {r : Nat} :
    Writes (Compile.toAnyRegister (.plain (.fixed r))) d fun x d' => x = r ∧ d' = d := by
  refine Writes.bind (Writes.pure ?_)
  exact Writes.pure ⟨rfl, rfl⟩

theorem Writes.operand_names (hs : e.place.Sits d) (hw : d.Waits (list ++ e.exits) (e.top d)) (hr : d.Roomy)
    (hf : d.Tight) (hj : e.exits = []) :
    Writes (match e.place with
      | .constant k => if k ≤ Operand.maxConstant then return Operand.ofConstant k else Compile.toAnyRegister e
      | _ => Compile.toAnyRegister e) d fun x d' => Named list d e x d' := by
  have hany : Writes (Compile.toAnyRegister e) d fun x d' => Named list d e x d' := by
    refine (Writes.toAnyRegister_brings hs hw hr hf).imp fun r d' ⟨hreg, hlt, hb, hfree, htight⟩ => ?_
    exact .of_brought hb hreg hlt hfree htight
  split
  · next k hp =>
    split
    · next hle =>
      rw [hp] at hs
      obtain ⟨c, hk⟩ := hs
      refine Writes.pure (.of_constant hk hle (fun _ _ => id) hr.constants hj (by rw [hp]; rfl) hw hr hf ?_)
      rintro p regs r hpk hh
      rw [hp] at hh
      obtain ⟨c', hk', hv⟩ := hh
      rw [hpk] at hk'
      cases hk'
      exact hv
    · exact hany
  · exact hany

/-- **A value becomes an operand**: a constant whose index fits, else a register. -/
theorem Writes.toOperand_names (hs : e.place.Sits d) (hw : d.Waits (list ++ e.exits) (e.top d))
    (hr : d.Roomy) (hf : d.Tight) :
    Writes (Compile.toOperand e) d fun x d' => Named list d e x d' := by
  unfold Compile.toOperand Compile.toValue
  by_cases hj : e.hasJumps = true
  · rw [if_pos hj]
    refine Writes.bind (Writes.bind ?_)
    refine (Writes.toAnyRegister_brings hs hw hr hf).imp ?_
    rintro r d' ⟨hreg, hlt, hb, hfree, htight⟩
    refine Writes.pure (Writes.bind (Writes.pure ?_))
    refine Writes.toAnyRegister_fixed.imp ?_
    rintro x d'' ⟨hx, hd⟩
    subst hx hd
    exact .of_brought hb hreg hlt hfree htight
  · rw [if_neg hj]
    have hnone : e.exits = [] := exits_of_hasJumps (Bool.eq_false_iff.mpr hj)
    refine (Writes.readVariable_reads hs).andThen ?_
    rintro e1 d1 ⟨he1, hd1⟩
    subst hd1 he1
    have hsame : d1.Retakes d1 := ⟨_, _, rfl⟩
    have hw' : d1.Waits (list ++ e.exits) (Expr.top d1 { e with place := e.place.read }) := by
      rw [Expr.top, Place.back_read]
      exact hw
    cases hlit : literal? e.place.read with
    | none =>
      simp only
      refine Writes.bind (Writes.pure ?_)
      refine (Writes.operand_names (e := { e with place := e.place.read }) hs.read hw' hr hf hnone).imp
        fun x d' h => ?_
      refine ⟨h.moves, h.roomy, h.tight, h.waits, h.free, h.lt, h.register, fun p hp => ?_⟩
      obtain ⟨hp1, hruns⟩ := h.runs p hp
      rw [Expr.top, Place.back_read] at hp1
      exact ⟨hp1, fun low s r hl hy => hruns low s r hl hy.read⟩
    | some c =>
      simp only
      have hread : e.place.read = e.place := by
        cases he : e.place <;> first | rfl | (rw [he] at hlit; cases hlit)
      rw [hread] at hlit
      have hb := Place.back_of_literal hlit
      have htop : e.top d1 = d1.pc := by rw [Expr.top, hb, Nat.sub_zero]
      refine (Writes.addConstant_finds c hr).andThen ?_
      rintro k d2 ⟨ks, hd2, hk, hpre, hsize⟩
      subst hd2
      refine Writes.bind (Writes.pure ?_)
      by_cases hle : k ≤ Operand.maxConstant
      · simp only [if_pos hle]
        exact Writes.pure (.of_constant hk hle hpre hsize hnone hb hw hr hf fun p regs r _ hh => hh.literal hlit)
      · simp only [if_neg hle]
        have hwk : { d1 with constants := ks }.Waits (list ++ e.exits)
            (Expr.top { d1 with constants := ks } ⟨.constant k, e.onTrue, e.onFalse⟩) := by
          rw [htop] at hw
          exact ⟨hw.le, hw.jumps, hw.nodup, hw.target⟩
        refine (Writes.toAnyRegister_brings (e := ⟨.constant k, e.onTrue, e.onFalse⟩) ⟨c, hk⟩ hwk
          ⟨hr.active, hr.free, hr.stack, hsize⟩ hf).imp ?_
        rintro r d' ⟨hreg, hlt, hbr, hfree, htight⟩
        refine .of_pool hk hpre hnone hb (fun p regs r _ hh => hh.literal hlit) ?_
        exact .of_brought hbr hreg hlt hfree htight

end Compile

end LuaMachine
