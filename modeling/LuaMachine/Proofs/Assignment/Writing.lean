/-
  THE COMPILER WRITES LOADS AND STORES. Variables and literals are brought into registers, or made operands.
  For each step it is said for which acts it writes code.

  * `Compile.Fetches` -- a value can be fetched, `Compile.Writes.toRegister_gains` -- **it is brought into a
    register**.
-/
import LuaMachine.Proofs.Assignment.Code

namespace LuaMachine

/-! ## 1. Drafts -/

namespace Draft

structure Kin (d d' : Draft) : Prop where
  active : d'.active = d.active
  locals : d'.locals = d.locals
  declared : d'.declared = d.declared
  constants : ∀ (k : Nat) (c : Constant), d.constants[k]? = some c → d'.constants[k]? = some c

structure Apt (q : Nat) (d : Draft) : Prop where
  here : ∀ j ∈ d.here, j < q
  tight : d.Tight
  roomy : d.Roomy
  upvalues : d.upvalues.size ≤ 255

/-- **Code for acts has been written.** -/
structure Gains (q : Nat) (d : Draft) (as : List Act) (d' : Draft) : Prop extends d.Kin d' where
  captured : d'.upvalues = d.upvalues
  codes : d.Codes q as d'
  steady : d'.Apt q

variable {q : Nat} {as bs : List Act} {is : List Instr} {d d' d'' : Draft}

theorem Kin.refl (d : Draft) : d.Kin d := ⟨rfl, rfl, rfl, fun _ _ => id⟩

theorem Kin.trans (h : d.Kin d') (h' : d'.Kin d'') : d.Kin d'' where
  active := h'.active.trans h.active
  locals := h'.locals.trans h.locals
  declared := h'.declared.trans h.declared
  constants k c hc := h'.constants k c (h.constants k c hc)

namespace Gains

theorem refl (h : d.Apt q) : d.Gains q [] d := ⟨.refl d, rfl, .start, h⟩

theorem trans (h : d.Gains q as d') (h' : d'.Gains q bs d'') : d.Gains q (as ++ bs) d'' :=
  ⟨h.toKin.trans h'.toKin, h'.captured.trans h.captured, h.codes.trans h'.codes, h'.steady⟩

theorem retake {m f : Nat} (h : d.Apt q) (hr : { d with maxStack := m, free := f }.Roomy) :
    d.Gains q [] { d with maxStack := m, free := f } :=
  ⟨⟨rfl, rfl, rfl, fun _ _ => id⟩, rfl, .quiet .start ⟨rfl, rfl, rfl⟩ fun _ _ => id,
    ⟨h.here, h.tight, hr, h.upvalues⟩⟩

theorem stock {ks : Array Constant} (h : d.Apt q) (hsize : ks.size ≤ Instr.maxAx + 1)
    (hk : ∀ (k : Nat) (c : Constant), d.constants[k]? = some c → ks[k]? = some c) :
    d.Gains q [] { d with constants := ks } :=
  ⟨⟨rfl, rfl, rfl, hk⟩, rfl, .quiet .start ⟨rfl, rfl, rfl⟩ hk,
    ⟨h.here, h.tight, ⟨h.roomy.active, h.roomy.free, h.roomy.stack, hsize⟩, h.upvalues⟩⟩

theorem idle (h : d.Apt q) (r : Nat) : d.Gains q [.load r (.reg r)] d := ⟨.refl d, rfl, .idle .start r, h⟩

end Gains

theorem Appends.gains (h : d.Appends is d') (hs : d.Apt q)
    (hd : d' = { d with
      code := d'.code, lines := d'.lines, here := [], maxStack := d'.maxStack, free := d'.free })
    (hr : d'.Roomy) (he : Encodes d.constants is as) : d.Gains q as d' := by
  have hconst : d'.constants = d.constants := by rw [hd]
  have hup : d'.upvalues = d.upvalues := by rw [hd]
  refine ⟨⟨by rw [hd], by rw [hd], by rw [hd], fun k c hc => hconst ▸ hc⟩, hup,
    .add .start hs.here h hconst (hconst ▸ he), ⟨?_, fun ho => ?_, hr, hup ▸ hs.upvalues⟩⟩
  · rw [h.here]
    exact List.forall_mem_nil _
  · obtain ⟨a, n, hn, ha, rfl, -⟩ := h.opens he ho
    have hi : d'.instr (d'.pc - 1) = .ofABC .loadNil a (n - 1) 0 := (show d.Appends ([] ++ [_]) d' from h).last
    rw [hi, Instr.a_ofABC, Instr.b_ofABC, Nat.mod_eq_of_lt (by omega), Nat.mod_eq_of_lt (by omega)]
    omega

theorem Widens.gains {start n : Nat} (h : d.Widens start n d') (hs : d.Apt q) (hn : start + n ≤ 255) :
    d.Gains q (Act.nils start n) d' := by
  have hconst : d'.constants = d.constants := by rw [h.rest]
  have hup : d'.upvalues = d.upvalues := by rw [h.rest]
  refine ⟨⟨by rw [h.rest], by rw [h.rest], by rw [h.rest], fun k c hc => hconst ▸ hc⟩, hup,
    .widen .start h, ⟨?_, h.tight hs.tight hn, h.roomy hs.roomy, hup ▸ hs.upvalues⟩⟩
  rw [h.rest]
  exact hs.here

end Draft

/-! ## 2. Single instructions -/

namespace Compile

open Draft

variable {q : Nat} {as : List Act} {d d' : Draft} {i : Instr} {reg : Nat}

theorem Writes.aimJumps_near (vt r pt : Nat) (list : JumpList) :
    Writes (Compile.aimJumps vt r pt list) d fun _ d' => d' = { d with code := d'.code } ∧ d'.code.size = d.code.size ∧
      ∀ pc : Nat, (∀ j ∈ list, pc ≠ j ∧ pc + 1 ≠ j) → d'.code[pc]? = d.code[pc]? := by
  induction list generalizing d with
  | nil => exact Writes.pure ⟨rfl, rfl, fun _ _ => rfl⟩
  | cons node rest ih =>
    have hmap : ∀ (d : Draft) (j : Nat) (g : Instr → Instr) (pc : Nat), pc ≠ j → (d.mapInstr j g).code[pc]? = d.code[pc]? :=
      fun d j g pc hne => by rw [Draft.mapInstr, Array.getElem?_modify, if_neg (Ne.symm hne)]
    have hsize : ∀ (d : Draft) (j : Nat) (g : Instr → Instr), (d.mapInstr j g).code.size = d.code.size :=
      fun d j g => Array.size_modify
    have htest : Writes (Compile.aimTest node r) d fun _ d' => d' = { d with code := d'.code } ∧
        d'.code.size = d.code.size ∧ ∀ pc : Nat, pc ≠ node ∧ pc + 1 ≠ node → d'.code[pc]? = d.code[pc]? := by
      refine Writes.get fun s hs => ?_
      subst hs
      split
      · refine Writes.bind (Writes.modifyFn (Writes.pure ⟨rfl, hsize .., fun pc hpc => hmap _ _ _ _ ?_⟩))
        unfold controlOf
        split
        · omega
        · exact hpc.1
      · exact Writes.pure ⟨rfl, rfl, fun _ _ => rfl⟩
    have hfix : ∀ (dest : Nat) (d : Draft), Writes (Compile.fixJump node dest) d fun _ d' => d' = { d with code := d'.code } ∧
        d'.code.size = d.code.size ∧ ∀ pc : Nat, pc ≠ node → d'.code[pc]? = d.code[pc]? := by
      intro dest d
      unfold Compile.fixJump
      split
      · exact Writes.modifyFn ⟨rfl, hsize .., fun pc hpc => hmap _ _ _ _ hpc⟩
      · exact Writes.failNear
    unfold Compile.aimJumps
    refine htest.andThen ?_
    rintro b d₁ ⟨hd1, hsize1, hsame1⟩
    have hrest : ∀ dest, Writes (do Compile.fixJump node dest; Compile.aimJumps vt r pt rest) d₁ fun _ d' =>
        d' = { d with code := d'.code } ∧ d'.code.size = d.code.size ∧
          ∀ pc : Nat, (∀ j ∈ node :: rest, pc ≠ j ∧ pc + 1 ≠ j) → d'.code[pc]? = d.code[pc]? := by
      intro dest
      refine (hfix dest d₁).andThen ?_
      rintro _ d₂ ⟨hd2, hsize2, hsame2⟩
      refine ih.imp ?_
      rintro _ d3 ⟨hd3, hsize3, hsame3⟩
      refine ⟨by rw [hd3, hd2, hd1], by omega, fun pc hpc => ?_⟩
      obtain ⟨hnode, hothers⟩ := List.forall_mem_cons.mp hpc
      exact ((hsame3 pc hothers).trans (hsame2 pc hnode.1)).trans (hsame1 pc hnode)
    cases b with
    | true => exact hrest vt
    | false => exact hrest pt

theorem Writes.emit_adds (i : Instr) :
    Writes (Compile.emit i) d fun pc d' => pc = d.pc ∧ d.Appends [i] d' ∧
      d' = { d with code := d'.code, lines := d'.lines, here := [] } := by
  have haim : Writes Compile.aimHere d fun _ d' => d' = { d with code := d'.code, here := [] } ∧
      d'.code.size = d.code.size ∧ ∀ pc : Nat, (∀ j ∈ d.here, pc ≠ j ∧ pc + 1 ≠ j) → d'.code[pc]? = d.code[pc]? := by
    refine Writes.get fun s hs => ?_
    subst hs
    refine Writes.bind (Writes.modifyFn ?_)
    exact Writes.aimJumps_near _ _ _ _
  refine haim.andThen fun _ d₁ ⟨hd1, hsize1, hsame1⟩ => Writes.get fun s hs => ?_
  subst hs
  have hpc : s.fn.pc = d.pc := hsize1
  refine Writes.bind (Writes.modifyFn (Writes.pure ⟨hpc, ⟨?_, fun k hk => ?_, fun pc hlt hn => ?_, ?_, ?_⟩, ?_⟩))
  · simp [hsize1]
  · obtain rfl : k = 0 := by simpa using hk
    show (s.fn.code.push i)[d.pc + 0]? = _
    rw [← hpc]
    simp [Draft.pc]
  · show (s.fn.code.push i)[pc]? = _
    rw [Array.getElem?_push, if_neg (by rw [← hpc] at hlt; exact Nat.ne_of_lt hlt)]
    exact hsame1 pc hn
  · rw [hd1]
  · rw [hd1]
  · rw [hd1]

theorem Writes.emit_gains (hs : d.Apt q) (he : Encodes d.constants [i] as) :
    Writes (Compile.emit i) d fun _ d' => d.Gains q as d' ∧ d'.free = d.free := by
  refine (Writes.emit_adds i).imp fun _ d' ⟨_, ha, hd⟩ => ?_
  have hr : d'.Roomy := hs.roomy.congr (by rw [hd]) (by rw [hd]) (by rw [hd]) (by rw [hd])
  exact ⟨ha.gains hs (by rw [hd]) hr he, by rw [hd]⟩

theorem Writes.loadNil_gains {start n : Nat} (hs : d.Apt q) (hn : 0 < n) (hle : start + n ≤ 255) :
    Writes (Compile.loadNil start n) d fun _ d' => d.Gains q (Act.nils start n) d' ∧ d'.free = d.free := by
  refine (Writes.loadNil_widens hs.tight hn hle (Writes.emit_gains hs (.loadNil hn hle))).imp fun _ d' h => ?_
  refine h.elim (fun hw => ⟨hw.gains hs hle, by rw [hw.rest]⟩) id

theorem Writes.loadConstant_gains {k : Nat} {c : Constant} (hs : d.Apt q) (hreg : reg < 255)
    (hk : d.constants[k]? = some c) :
    Writes (Compile.loadConstant reg k) d fun _ d' => d.Gains q [.load reg (.const c)] d' ∧ d'.free = d.free := by
  unfold Compile.loadConstant
  split
  · next hbx => exact Writes.discard (Writes.emit_gains hs (.loadK hreg hbx hk))
  · have hmax : k ≤ Instr.maxAx := by
      have := (Array.getElem?_eq_some_iff.mp hk).1
      have := hs.roomy.constants
      omega
    refine Writes.bind (Writes.discard ((Writes.emit_adds _).imp fun _ d₁ ⟨_, ha1, hd1⟩ => ?_))
    refine Writes.discard ((Writes.emit_adds _).imp fun _ d₂ ⟨_, ha2, hd2⟩ => ?_)
    have hd : d₂ = { d with code := d₂.code, lines := d₂.lines, here := [] } := by rw [hd2, hd1]
    have hr : d₂.Roomy := hs.roomy.congr (by rw [hd]) (by rw [hd]) (by rw [hd]) (by rw [hd])
    refine ⟨(ha1.append ha2).gains hs (by rw [hd]) hr (.loadKx hreg hmax hk), by rw [hd]⟩

theorem Writes.addConstant_gains (hs : d.Apt q) (c : Constant) :
    Writes (Compile.addConstant c) d fun k d' => d.Gains q [] d' ∧ d'.free = d.free ∧ d'.constants[k]? = some c := by
  refine (Writes.addConstant_finds c hs.roomy).imp fun k d' ⟨ks, hd, hk, hall, hsize⟩ => ?_
  subst hd
  exact ⟨.stock hs hsize hall, rfl, hk⟩

theorem Writes.reserve_gains (hs : d.Apt q) (n : Nat) :
    Writes (Compile.reserve n) d fun _ d' => d.Gains q [] d' ∧ d'.free = d.free + n ∧ d.free + n ≤ 254 := by
  refine (Writes.reserve hs.roomy.stack).imp fun _ d' ⟨hle, hd⟩ => ?_
  subst hd
  have hr := hs.roomy
  have hactive := hr.active
  refine ⟨.retake hs ⟨?_, ?_, hle, hr.constants⟩, rfl, by omega⟩
  · show d.active ≤ d.free + n
    omega
  · exact Nat.le_max_right _ _

end Compile

/-! ## 3. Values in registers -/

/-- Where the value of a place is taken from. -/
inductive Place.Gives (constants : Array Constant) : Place → Origin → Prop where
  | nil : Gives constants .nil (.const .nil)
  | bool (b : Bool) : Gives constants (.bool b) (.const (.bool b))
  | int (i : Int64) : Gives constants (.int i) (.const (.int i))
  | float (x : Double) : Gives constants (.float x) (.const (.float x))
  | constant {k : Nat} {c : Constant} (h : constants[k]? = some c) : Gives constants (.constant k) (.const c)
  | fixed {r : Nat} (h : r < 255) : Gives constants (.fixed r) (.reg r)
  | localVar {r : Nat} (h : r < 255) : Gives constants (.localVar r) (.reg r)
  | upvalue {u : Nat} (h : u < 255) : Gives constants (.upvalue u) (.upvalue u)

/-- The value of a source is at a place that is no variable; an upvalue has been read by an instruction whose
    register is still to be chosen. -/
inductive Draft.Offers (d : Draft) (s : Origin) : Place → Draft → Prop where
  | read {p : Place} (h : p.Gives d.constants s) (hv : p.isVariable = false) : d.Offers s p d
  | pending {u : Nat} {d' : Draft} (hs : s = .upvalue u) (hu : u < 255) (ha : d.Appends [.ofABC .getUpval 0 u 0] d')
    (hd : d' = { d with code := d'.code, lines := d'.lines, here := [] }) : d.Offers s (.pending d.pc) d'

namespace Draft

variable {q u reg : Nat} {s : Origin} {p : Place} {d d₁ d₂ : Draft}

theorem Retakes.trans (h : d.Retakes d₁) (h' : d₁.Retakes d₂) : d.Retakes d₂ := by
  obtain ⟨m, f, rfl⟩ := h
  obtain ⟨m', f', rfl⟩ := h'
  exact ⟨m', f', rfl⟩

theorem Offers.active (h : d.Offers s p d₁) : d₁.active = d.active := by
  cases h with
  | read => rfl
  | pending hs hu ha hd => rw [hd]

theorem Appends.chosen (h : d.Appends [.ofABC .getUpval 0 u 0] d₁) (hs : d.Apt q)
    (hd : d₁ = { d with code := d₁.code, lines := d₁.lines, here := [] }) (hreg : reg < 255) (hu : u < 255)
    (ht : d₁.Retakes d₂) (hr : d₂.Roomy) :
    d.Gains q [.load reg (.upvalue u)] (d₂.mapInstr d.pc fun i => i.setA reg) := by
  obtain ⟨m, f, rfl⟩ := ht
  have hnew : d₁.code[d.pc]? = some (.ofABC .getUpval 0 u 0) := h.new 0 (by simp)
  have hchosen : d.Appends [.ofABC .getUpval reg u 0] ({ d₁ with maxStack := m, free := f }.mapInstr d.pc fun i => i.setA reg) := by
    refine ⟨?_, fun k hk => ?_, fun pc hlt hn => ?_, h.here, h.target⟩
    · simp [mapInstr, h.size]
    · obtain rfl : k = 0 := by simpa using hk
      show (d₁.code.modify d.pc _)[d.pc + 0]? = _
      rw [Nat.add_zero, Array.getElem?_modify, if_pos rfl, hnew]
      rfl
    · show (d₁.code.modify d.pc _)[pc]? = _
      rw [Array.getElem?_modify, if_neg (by omega)]
      exact h.same pc hlt hn
  refine hchosen.gains hs ?_ ⟨hr.active, hr.free, hr.stack, hr.constants⟩ (.getUpvalue hreg hu)
  rw [hd]
  rfl

end Draft

namespace Compile

open Draft

variable {q : Nat} {d d₁ d₂ d' : Draft} {reg : Nat} {s : Origin} {p : Place}

def Fetches (d : Draft) (s : Origin) (p : Place) (d₂ : Draft) : Prop :=
  Writes (Compile.readVariable (.plain p)) d₂ fun e d₃ =>
    ∃ p' d₁, e = .plain p' ∧ d.Offers s p' d₁ ∧ d₁.Retakes d₃ ∧ d₃.Roomy ∧ d₃.free = d₂.free

theorem Fetches.of_offers (h : d.Offers s p d₁) (hd : d₁.Retakes d₂) (hr : d₂.Roomy) : Fetches d s p d₂ := by
  unfold Fetches Compile.readVariable
  cases h with
  | pending hs hu ha hd1 => exact Writes.pure ⟨_, d₁, rfl, .pending hs hu ha hd1, hd, hr, rfl⟩
  | read hg hv =>
    cases hg with
    | localVar _ | upvalue _ => cases hv
    | nil => exact Writes.pure ⟨_, d, rfl, .read .nil rfl, hd, hr, rfl⟩
    | bool b => exact Writes.pure ⟨_, d, rfl, .read (.bool b) rfl, hd, hr, rfl⟩
    | int i => exact Writes.pure ⟨_, d, rfl, .read (.int i) rfl, hd, hr, rfl⟩
    | float x => exact Writes.pure ⟨_, d, rfl, .read (.float x) rfl, hd, hr, rfl⟩
    | constant hk => exact Writes.pure ⟨_, d, rfl, .read (.constant hk) rfl, hd, hr, rfl⟩
    | fixed hr' => exact Writes.pure ⟨_, d, rfl, .read (.fixed hr') rfl, hd, hr, rfl⟩

theorem Fetches.of_gives (h : p.Gives d.constants s) (hr : d.Roomy) : Fetches d s p d := by
  have hsame : d.Retakes d := ⟨_, _, rfl⟩
  cases h with
  | localVar hlt => exact Writes.pure ⟨_, d, rfl, .read (.fixed hlt) rfl, hsame, hr, rfl⟩
  | upvalue hu =>
    unfold Fetches Compile.readVariable
    refine (Writes.emit_adds _).andThen fun pc d' ⟨hpc, ha, hd⟩ => Writes.pure ?_
    subst hpc
    have hr' : d'.Roomy := hr.congr (by rw [hd]) (by rw [hd]) (by rw [hd]) (by rw [hd])
    exact ⟨_, d', rfl, .pending rfl hu ha hd, ⟨_, _, rfl⟩, hr', by rw [hd]⟩
  | nil => exact .of_offers (.read .nil rfl) hsame hr
  | bool b => exact .of_offers (.read (.bool b) rfl) hsame hr
  | int i => exact .of_offers (.read (.int i) rfl) hsame hr
  | float x => exact .of_offers (.read (.float x) rfl) hsame hr
  | constant hk => exact .of_offers (.read (.constant hk) rfl) hsame hr
  | fixed hlt => exact .of_offers (.read (.fixed hlt) rfl) hsame hr

/-- **A register is loaded.** -/
theorem Writes.settle_gains (hs : d.Apt q) (h : Fetches d s p d₂) (hreg : reg < 255) :
    Writes (Compile.settle (.plain p) reg) d₂ fun e d' =>
      e = .plain (.fixed reg) ∧ d.Gains q [.load reg s] d' ∧ d'.free = d₂.free := by
  unfold Compile.settle
  refine h.andThen fun e d3 ⟨p', d₁, he, ho, ht, hr, hfree⟩ => ?_
  subst he
  rw [← hfree]
  cases ho with
  | pending hsrc hu ha hd =>
    subst hsrc
    exact Writes.bind (Writes.modifyFn (Writes.pure ⟨rfl, ha.chosen hs hd hreg hu ht hr, rfl⟩))
  | read hg hv =>
    obtain ⟨m, f, rfl⟩ := ht
    have hback : d.Gains q [] { d with maxStack := m, free := f } := .retake hs hr
    generalize hd3 : { d with maxStack := m, free := f } = d3 at hback
    have hconst : d3.constants = d.constants := by rw [← hd3]
    have hs3 := hback.steady
    -- what each way of loading has to show
    have hend : ∀ d', d3.Gains q [.load reg s] d' ∧ d'.free = d3.free →
        Writes (Pure.pure (Expr.plain (.fixed reg))) d' fun e d' =>
          e = .plain (.fixed reg) ∧ d.Gains q [.load reg s] d' ∧ d'.free = d3.free :=
      fun d' h => Writes.pure ⟨rfl, hback.trans h.1, h.2⟩
    have hnumeral : ∀ c, s = .const c → Writes (do
        loadConstant reg (← Compile.addConstant c)
        return Expr.plain (.fixed reg)) d3 fun e d' =>
          e = .plain (.fixed reg) ∧ d.Gains q [.load reg s] d' ∧ d'.free = d3.free := by
      intro c hc
      subst hc
      refine (Writes.addConstant_gains hs3 c).andThen fun k d4 ⟨hgain, hfree', hk⟩ => ?_
      refine (Writes.loadConstant_gains hgain.steady hreg hk).andThen fun _ d' ⟨hload, hfree''⟩ => hend d' ?_
      exact ⟨hgain.trans hload, hfree''.trans hfree'⟩
    cases hg with
    | localVar _ | upvalue _ => cases hv
    | nil => exact (Writes.loadNil_gains hs3 (by omega) (by omega)).andThen fun _ d' h => hend d' h
    | bool b => exact Writes.bind (Writes.discard ((Writes.emit_gains hs3 (.loadBool hreg)).imp fun _ d' h => hend d' h))
    | int i => exact hnumeral (.int i) rfl
    | float x => exact hnumeral (.float x) rfl
    | constant hk => exact (Writes.loadConstant_gains hs3 hreg (hconst ▸ hk)).andThen fun _ d' h => hend d' h
    | @fixed r hlt =>
      by_cases hne : r = reg
      · subst hne
        simp only [Expr.plain, ne_eq, not_true_eq_false, if_false]
        exact Writes.bind (Writes.pure (hend d3 ⟨.idle hs3 r, rfl⟩))
      · simp only [Expr.plain, ne_eq, hne, not_false_eq_true, if_true]
        exact Writes.bind (Writes.discard ((Writes.emit_gains hs3 (.move hreg hlt)).imp fun _ d' h => hend d' h))

theorem Writes.toRegister_gains (hs : d.Apt q) (h : Fetches d s p d₂) (hreg : reg < 255) :
    Writes (Compile.toRegister (.plain p) reg) d₂ fun _ d' => d.Gains q [.load reg s] d' ∧ d'.free = d₂.free := by
  unfold Compile.toRegister
  refine (Writes.settle_gains hs h hreg).andThen fun e d' ⟨he, hg, hfree⟩ => ?_
  subst he
  exact Writes.bind (Writes.pure (Writes.pure ⟨hg, hfree⟩))

theorem Writes.freeRegister_retakes (hr : d.Roomy) (r : Nat) :
    Writes (Compile.freeRegister r) d fun _ d' =>
      d.Retakes d' ∧ d'.Roomy ∧ d'.free + Operand.cost d.active r = d.free := by
  refine Writes.get fun s hs => ?_
  subst hs
  unfold Operand.cost
  split
  · next hc =>
    refine Writes.demanding fun htop => Writes.modifyFn ⟨⟨_, _, rfl⟩, ⟨?_, ?_, hr.stack, hr.constants⟩, ?_⟩
    all_goals
      have hfree : s.fn.free = r + 1 := of_decide_eq_true htop
      have hle : s.fn.active ≤ r := of_decide_eq_true (Bool.and_eq_true_iff.mp hc).2
      have := hr.free
    · show s.fn.active ≤ s.fn.free - 1
      omega
    · show s.fn.free - 1 ≤ s.fn.maxStack
      omega
    · show s.fn.free - 1 + 1 = s.fn.free
      omega
  · exact Writes.pure ⟨⟨_, _, rfl⟩, hr, rfl⟩

theorem Writes.freeExpr_retakes (hr : d.Roomy) (hp : ∀ t k base, p ≠ .indexed t k base) (hc : p.isMulti = false) :
    Writes (Compile.freeExpr (.plain p)) d fun _ d' => d.Retakes d' ∧ d'.Roomy ∧ d'.free + p.cost d.active = d.free := by
  unfold Compile.freeExpr
  cases p with
  | fixed r => exact Writes.freeRegister_retakes hr r
  | indexed t k base => exact absurd rfl (hp t k base)
  | call _ | varargs _ => cases hc
  | _ => exact Writes.pure ⟨⟨_, _, rfl⟩, hr, rfl⟩

end Compile

end LuaMachine
