/-
  CONTROL BETWEEN TWO STATEMENTS. The locals are in the first registers, or a LOADNIL that was widened later
  has already cleared some that the next statements clear. Control is where the next instruction will be, at
  a jump that goes there, or at a jump that leaves the block.

  * `Draft.Stands` -- the locals have these values; **`Draft.Stands.shows`** -- they are in the registers as
    soon as another instruction is written.
-/
import LuaMachine.Proofs.Meaning.Locals
import LuaMachine.Proofs.Structured.Trace

namespace LuaMachine

open Operand (noRegister)

/-! ## 1. Jumps that control may be at -/

namespace Draft

def Jumping (d : Draft) (l : List Nat) (s : Spot) : Prop :=
  ∃ j ∈ l, ∃ b v, v.isFalsy = !b ∧ d.Poised j b v s

def pending (d : Draft) (n : Nat) : List Nat := (d.gotos.drop n).flatMap (·.jumps)

variable {p : Proto} {d d' : Draft} {list l l' : List Nat} {s : Spot} {n m top : Nat}

theorem Jumping.mono (h : d.Jumping l s) (hl : ∀ j ∈ l, j ∈ l') : d.Jumping l' s := by
  obtain ⟨j, hj, hrest⟩ := h
  exact ⟨j, hl j hj, hrest⟩

theorem Jumping.congr (h : d.Jumping l s) (ht : d.SameTests list d') (hl : ∀ j ∈ l, j ∈ list) : d'.Jumping l s := by
  obtain ⟨j, hj, b, v, hv, hp⟩ := h
  exact ⟨j, hj, b, v, hv, hp.congr ht (hl j hj)⟩

theorem pending_mono (h : d.gotos <+: d'.gotos) (hn : n ≤ m) (hle : n ≤ d.gotos.length) :
    ∀ j ∈ d.pending m, j ∈ d'.pending n := by
  intro j hj
  obtain ⟨gs, hgs⟩ := h
  obtain ⟨g, hg, hj⟩ := List.mem_flatMap.mp hj
  refine List.mem_flatMap.mpr ⟨g, ?_, hj⟩
  rw [← hgs, List.drop_append_of_le_length hle]
  exact List.mem_append_left _ ((List.drop_sublist_drop_left _ hn).subset hg)

/-- **A jump that goes back comes there**, and takes at least one instruction. -/
theorem Jumping.back {vs : List Value} {pc : Nat} (h : d.Jumping l s) (hl : ∀ j ∈ l, d.Lands p.code pc noRegister pc j)
    (hs : Shows vs s.regs) : ∃ n, p.Enacts (n + 1) vs s [] vs ⟨pc, s.regs⟩ := by
  obtain ⟨j, hj, b, v, hv, hp⟩ := h
  obtain ⟨s', he, hr, hpath⟩ := hp.goes hv (hl j hj)
  obtain ⟨n, hn⟩ := (hpath vs.length).enacts (by rw [hr]; exact hs) (Nat.le_refl _)
  exact ⟨n, .step hs he hn⟩

/-! ## 2. The values of locals -/

def Ahead (d : Draft) (p : Proto) (r : Nat) : Prop :=
  d.Open ∧ ∃ i, p.code[d.pc - 1]? = some i ∧ i.Clears r ∧ ¬ (d.instr (d.pc - 1)).Clears r

structure Stands (d : Draft) (p : Proto) (vs : List Value) (s : Spot) : Prop where
  entered : d.Entered p d.pc s
  holds : ∀ (i : Nat) (v : Value), vs[i]? = some v → s.regs i = v ∨ d.Ahead p i

variable {vs : List Value} {k : Nat}

theorem Entered.stands (h : d.Entered p d.pc s) (hs : Shows vs s.regs) : d.Stands p vs s :=
  ⟨h, fun i v hv => .inl (hs i v hv)⟩

namespace Stands

/-- **Where no LOADNIL has cleared a local in advance**, the registers show the locals. -/
theorem shows (h : d.Stands p vs s) (hp : CompletesAbove k p d list top) (ht : d.pc ≤ top) (hk : vs.length ≤ k) :
    Shows vs s.regs := by
  intro i v hv
  refine (h.holds i v hv).resolve_right fun ha => ?_
  obtain ⟨ho, x, hx, hc, hn⟩ := ha
  obtain ⟨y, hy, -, -, hlow⟩ := hp.nils ho ht
  rw [hx] at hy
  cases hy
  exact hn (hlow i (Nat.lt_of_lt_of_le (List.getElem?_eq_some_iff.mp hv).1 hk) hc)

theorem shows_of_fresh (h : d.Stands p vs s) (hf : d.Fresh) : Shows vs s.regs :=
  fun i v hv => (h.holds i v hv).resolve_right fun ha => hf.not_open ha.1

theorem take (h : d.Stands p vs s) (n : Nat) : d.Stands p (vs.take n) s := by
  refine ⟨h.entered, fun i v hv => h.holds i v ?_⟩
  rw [List.getElem?_take] at hv
  split at hv
  · exact hv
  · cases hv

theorem congr (h : d.Stands p vs s) (hpc : d'.pc = d.pc) (hh : d'.here = d.here) (ht : d.SameTests d.here d')
    (ho : d'.Open ↔ d.Open) (hi : d.Open → d'.instr (d.pc - 1) = d.instr (d.pc - 1)) : d'.Stands p vs s := by
  refine ⟨⟨?_, fun hopen => ?_⟩, fun i v hv => (h.holds i v hv).imp_right fun ha => ?_⟩
  · rw [hh, hpc]
    refine h.entered.near.imp_right fun hj => ?_
    obtain ⟨j, hj, b, v, hv, hp⟩ := hj
    exact ⟨j, hj, b, v, hv, hp.congr ht hj⟩
  · rw [hpc]
    exact h.entered.primed (ho.mp hopen)
  · obtain ⟨hopen, x, hx, hc, hn⟩ := ha
    refine ⟨ho.mpr hopen, x, ?_⟩
    rw [hpc, hi hopen]
    exact ⟨hx, hc, hn⟩

theorem stock (h : d.Stands p vs s) (hc : d'.code = d.code) (hh : d'.here = d.here)
    (ht : d'.lastTarget = d.lastTarget) : d'.Stands p vs s := by
  have hinstr : ∀ pc, d'.instr pc = d.instr pc := fun pc => by rw [instr, instr, hc]
  have hpc : d'.pc = d.pc := by rw [pc, pc, hc]
  exact h.congr hpc hh (.of_code fun _ _ => by rw [hc]) (open_iff hpc ht (hinstr _)) fun _ => hinstr _

end Stands

/-! ## 3. Jumps to the next place -/

def receive (d : Draft) (l : List Nat) : Draft := { d with lastTarget := d.pc, here := d.here ++ l }

theorem receive_fresh (d : Draft) (l : List Nat) : (d.receive l).Fresh := .inl (Nat.le_refl _)

theorem receive_pc (d : Draft) (l : List Nat) : (d.receive l).pc = d.pc := rfl

theorem receive_moves (d : Draft) (l list : List Nat) : d.Moves list (d.receive l) :=
  .quiet rfl (.of_rest rfl) fun _ _ => id

theorem Roomy.receive (h : d.Roomy) (l : List Nat) : (d.receive l).Roomy := h.congr rfl rfl rfl rfl

theorem Waits.receive (h : d.Waits (list ++ l) d.pc) : (d.receive l).Waits list d.pc := h.patched (Nat.le_refl _)

theorem Stands.receive (h : d.Stands p vs s) (hs : Shows vs s.regs) (l : List Nat) : (d.receive l).Stands p vs s :=
  Entered.stands (h.entered.patched (Nat.le_refl _)) hs

theorem Jumping.receive (h : d.Jumping l s) (hs : Shows vs s.regs) : (d.receive l).Stands p vs s := by
  obtain ⟨j, hj, b, v, hv, hp⟩ := h
  exact Entered.stands (.of_poised hj hv hp (Nat.le_refl _)) hs

end Draft

theorem CompletesAbove.receive {k m : Nat} {p : Proto} {d : Draft} {list l : List Nat}
    (h : CompletesAbove k p (d.receive l) list d.pc) (hw : d.Waits (list ++ l) d.pc) :
    CompletesAbove m p d (list ++ l) d.pc := h.patched (Nat.le_refl _) hw

namespace Compile

variable {d : Draft} {l list : List Nat}

theorem Writes.patchHere_receives : Writes (Compile.patchHere l) d fun _ d' => d' = d.receive l :=
  Writes.patchHere

theorem Writes.patchTo_aims {target : Nat} (hw : d.Waits (list ++ l) d.pc) (hne : target ≠ d.pc) :
    Writes (Compile.patchTo l target) d fun _ d' => d.AimsAt target noRegister target l d' := by
  refine Writes.bind (Writes.ofFn ?_)
  rw [if_neg hne]
  exact Writes.aimJumps_aims (fun j hj => hw.jmp (List.mem_append_right _ hj))
    (List.nodup_append.mp (List.nodup_append.mp hw.nodup).1).2.1

end Compile

/-! ## 4. Jumping away -/

/-- Control that came to the end of the code jumps away, by the jumps `l`. -/
structure Departed (list : List Nat) (d : Draft) (l : JumpList) (d' : Draft) : Prop where
  moves : d.Moves list d'
  longer : d'.pc = d.pc + 1
  roomy : d'.Roomy
  free : d'.free = d.free
  fresh : d'.Fresh
  calm : d'.Calm
  waits : d'.Waits (list ++ l) d'.pc
  completes : ∀ (p : Proto) (k m : Nat), CompletesAbove k p d' (list ++ l) d'.pc → CompletesAbove m p d list d.pc
  jumping : ∀ (p : Proto) (s : Spot), d.Entered p d.pc s → d'.Jumping l s

/-- **A jump takes over the jumps that would arrive at it.** -/
theorem Compile.Writes.jump_departs {d : Draft} {list : List Nat} (hw : d.Waits list d.pc) (hr : d.Roomy)
    (hc : d.Calm) : Compile.Writes Compile.jump d fun l d' => Departed list d l d' := by
  refine Compile.Writes.jump.imp fun l d' hjump => ?_
  obtain ⟨hl, line, hd'⟩ := hjump
  have hl : l = [d.pc] ++ d.here := hl
  let d0 : Draft := { d with here := [] }
  have hx : d0.Extended [.ofAsBx .jmp 0 (-1)] d' := by
    rw [hd']
    exact .push rfl
  have hpc : d'.pc = d.pc + 1 := hx.pc
  have hw0 : d0.Waits (list ++ d.here) d0.pc := by
    refine ⟨Nat.le_refl _, fun j hj => hw.jumps j ?_, ?_, fun h => absurd rfl h⟩
    · show j ∈ list ++ d.here
      rwa [show d0.here = [] from rfl, List.append_nil] at hj
    · rw [show d0.here = [] from rfl, List.append_nil]
      exact hw.nodup
  have hmoves : d0.Moves (list ++ d.here) d' := hx.moves hw0 ⟨_, rfl, by simp⟩
  have hjmp : d'.Jmp d.pc := ⟨_, hx.new 0 (by simp), by simp, by simp⟩
  -- the jump itself brings no value
  have hsame : d'.code[d.pc - 1]? = d.code[d.pc - 1]? ∨ d.pc = 0 := by
    by_cases h0 : d.pc = 0
    · exact .inr h0
    · exact .inl (hx.same _ (by show d.pc - 1 < d.pc; omega) (by simp [Draft.Loose, d0]))
  have hsets : ¬ d'.Sets d.pc := by
    rintro ⟨hpos, ho⟩
    rcases hsame with hi | h0
    · rw [Draft.instr_congr hi] at ho
      exact hc ho
    · omega
  have hperm : (list ++ d.here ++ [d.pc]).Perm (list ++ l) := by
    rw [hl, List.append_assoc]
    exact List.perm_append_comm.append_left _
  refine ⟨?_, hpc, (hx.roomy (hr.congr rfl rfl rfl rfl)), hx.free, hx.fresh [] (by simp), hx.calm ⟨_, rfl, by simp⟩,
    ?_, fun p k m hp => ?_, fun p s hs => ?_⟩
  · have hquiet : d.Moves list d0 := .quiet rfl (.of_rest rfl) fun _ _ => id
    exact hquiet.trans hmoves.left
  · have hw' : d'.Waits (list ++ d.here) d0.pc := hx.waits hw0 (Nat.le_refl _) (by rw [hx.pc]; omega)
    exact (hw'.snoc hjmp (Nat.le_refl _)).perm hperm
  · have hp' : CompletesAbove m p d0 (list ++ d.here) d0.pc := by
      refine (hp.extended hx (by simp) hw0 (by rw [hx.pc]; omega) (fun j hj => ?_) fun j hj => ?_).1
      · rcases List.mem_append.mp (hperm.mem_iff.mpr hj) with hj | hj
        · exact .inl hj
        · rw [List.mem_singleton] at hj
          exact .inr (.inr ⟨hj, hj ▸ hsets⟩)
      · exact hperm.mem_iff.mp (List.mem_append_left _ hj)
    have hhere : list ++ d.here ++ d0.here = list ++ d.here := List.append_nil _
    refine ⟨fun pc i hi hlt hn => hp'.code pc i hi hlt ?_, fun j hj => hp'.tests j ?_, hp'.nils, hp'.constants⟩
    · rw [hhere]
      exact hn
    · rw [hhere]
      exact hj
  · rcases hs.near with hs | ⟨j, hj, b, v, hv, hp⟩
    · refine ⟨d.pc, by rw [hl]; exact List.mem_append_left _ (List.mem_singleton_self _), true, .bool true, rfl, ?_⟩
      unfold Draft.Poised
      rw [if_neg hsets]
      exact ⟨hs, rfl⟩
    · have hp0 : d0.Poised j b v s := hp
      exact ⟨j, by rw [hl]; exact List.mem_append_right _ hj, b, v, hv,
        hp0.congr hmoves.tests (List.mem_append_right _ hj)⟩

/-! ## 5. Between statements -/

namespace Draft

structure Scoped (names : List Bytes) (d : Draft) : Prop where
  lists : d.Lists names
  active : d.active = names.length
  labels : d.labels = []
  allBreaks : ∀ g ∈ d.gotos, g.name = Compile.breakName

/-- A statement may begin or has come to its end, and the jumps of the list wait elsewhere. -/
structure Between (list : List Nat) (names : List Bytes) (d : Draft) : Prop extends d.Scoped names where
  waits : d.Waits (d.pending 0 ++ list) d.pc
  roomy : d.Roomy
  tight : d.Tight
  calm : d.Calm
  free : d.free = d.active
  inside : d.blocks ≠ []

variable {p : Proto} {d d' : Draft} {list list' l : List Nat} {names : List Bytes} {vs : List Value} {s : Spot}

theorem SameScope.pending (h : d.SameScope d') (n : Nat) : d'.pending n = d.pending n := by
  rw [Draft.pending, Draft.pending, h.gotos]

theorem Scoped.knows (h : d.Scoped names) : d.Knows names := h.lists.knows h.active

theorem Scoped.same (h : d.Scoped names) (hs : d.SameScope d') : d'.Scoped names where
  lists := h.lists.congr hs.declared hs.locals
  active := hs.active.trans h.active
  labels := hs.labels.trans h.labels
  allBreaks := by
    rw [hs.gotos]
    exact h.allBreaks

theorem Between.begins (h : d.Between list names) : d.Begins (d.pending 0 ++ list) := ⟨h.waits, h.roomy, h.tight⟩

theorem Between.fits (h : d.Between list names) (hst : d.Stands p vs s) (hl : vs.length = names.length) :
    names.length ≤ vs.length ∧ vs.length ≤ d.free ∧ d.Stands p vs s :=
  ⟨Nat.le_of_eq hl.symm, Nat.le_of_eq (by rw [hl, h.free, h.active]), hst⟩

theorem Between.of_moves (h : d.Between list names) (hm : d.Moves (d.pending 0 ++ list) d')
    (hw : d'.Waits (d.pending 0 ++ list') d'.pc) (hr : d'.Roomy) (ht : d'.Tight) (hf : d'.free = d.free) :
    d'.Between list' names where
  toScoped := h.toScoped.same hm.toSameScope
  waits := by
    rw [hm.toSameScope.pending]
    exact hw
  roomy := hr
  tight := ht
  calm := hm.calm h.calm
  free := by rw [hf, h.free, hm.active]
  inside := by
    rw [hm.blocks]
    exact h.inside

theorem Between.further (h : d.Between list names) (hm : d.Moves (d.pending 0 ++ list) d')
    (hw : d'.Waits (d.pending 0 ++ list ++ l) d'.pc) (hr : d'.Roomy) (ht : d'.Tight) (hf : d'.free = d.free) :
    d'.Between (list ++ l) names :=
  h.of_moves hm (by rw [← List.append_assoc]; exact hw) hr ht hf

theorem Between.receive (h : d.Between (list ++ l) names) : (d.receive l).Between list names where
  lists := h.lists.congr rfl rfl
  active := h.active
  labels := h.labels
  allBreaks := h.allBreaks
  waits := by
    have hw := h.waits
    rw [← List.append_assoc] at hw
    exact hw.receive
  roomy := h.roomy.receive l
  tight := (d.receive_fresh l).tight
  calm := h.calm
  free := h.free
  inside := h.inside

theorem Between.nil (h : d.Between list names) : d.Between (list ++ []) names := by
  rw [List.append_nil]
  exact h

/-- **Where the jumps of a list arrive**, there stands who stood at the end of the code, and who was at one of
    them. -/
theorem Between.received {k : Nat} (h : d.Between (list ++ l) names)
    (hp : CompletesAbove k p (d.receive l) ((d.receive l).pending 0 ++ list) (d.receive l).pc) :
    CompletesAbove 0 p d (d.pending 0 ++ (list ++ l)) d.pc ∧
      (∀ (vs : List Value) (s : Spot), d.Stands p vs s → Shows vs s.regs ∧ (d.receive l).Stands p vs s) ∧
      ∀ (vs : List Value) (s : Spot), Shows vs s.regs → d.Jumping l s → (d.receive l).Stands p vs s := by
  have hw := h.waits
  rw [← List.append_assoc] at hw
  have hp' : ∀ m, CompletesAbove m p d (d.pending 0 ++ (list ++ l)) d.pc := fun m => by
    rw [← List.append_assoc]
    exact CompletesAbove.receive hp hw
  refine ⟨hp' 0, fun vs s hst => ?_, fun vs s hs hj => hj.receive hs⟩
  have hs := hst.shows (hp' vs.length) (Nat.le_refl _) (Nat.le_refl _)
  exact ⟨hs, hst.receive hs l⟩

theorem Between.regoto {gs : List PendingGoto} (h : d.Between list names)
    (hb : ∀ g ∈ gs, g.name = Compile.breakName) (hperm : (d.pending 0 ++ list).Perm (gs.flatMap (·.jumps) ++ list')) :
    { d with gotos := gs }.Between list' names where
  lists := h.lists.congr rfl rfl
  active := h.active
  labels := h.labels
  allBreaks := hb
  waits := by
    have hw := h.waits.perm hperm
    exact ⟨hw.le, hw.jumps, hw.nodup, hw.target⟩
  roomy := h.roomy.congr rfl rfl rfl rfl
  tight := h.tight
  calm := h.calm
  free := h.free
  inside := h.inside

theorem completes_regoto {k top : Nat} {gs : List PendingGoto}
    (hp : CompletesAbove k p { d with gotos := gs } (gs.flatMap (·.jumps) ++ list') top)
    (hperm : (d.pending 0 ++ list).Perm (gs.flatMap (·.jumps) ++ list')) : CompletesAbove k p d (d.pending 0 ++ list) top :=
  (hp.congr fun _ => hperm.mem_iff.symm).stock rfl rfl rfl fun _ _ => id

end Draft

end LuaMachine
