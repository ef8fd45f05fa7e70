/-
  WHAT HOLDS OF A FUNCTION THAT IS BEING WRITTEN. A place that jumps may go to is marked as a target or
  stands behind the jump into a loop, and jumps go nowhere else; what can be skipped clears no register;
  locals begin and end one inside the other, each in a register of its own.

  * `Sketch.Sound`, `Sketch.Reachable.sound` -- **each step keeps all of it**, so it holds of whatever is
    reached.
-/
import LuaMachine.Proofs.Sketch.Life
import LuaMachine.Proofs.Sketch.Step

namespace LuaMachine.Sketch

variable {scope : Bool} {u u' : Sketch} {n : Nat}

/-! ## 1. What holds -/

/-- Jumps go where they may. A place where they may go is the last marked one, one before it, or stands behind a
    jump. -/
structure Aimed (u : Sketch) : Prop where
  start : 0 ∈ u.targets
  last : u.draft.lastTarget ∈ u.targets
  low : u.draft.lastTarget ≤ u.draft.pc
  marked : ∀ t ∈ u.targets, t ≤ u.draft.lastTarget ∨ ∃ n, t = n + 1 ∧ u.draft.JumpAt n
  jumps : ∀ (n : Nat) (i : Instr), u.draft.code[n]? = some i → i.opcode.layout = .asbx →
    i.sbx = -1 ∨ ∃ t ∈ u.targets, (t : Int) = n + 1 + i.sbx
  here : ∀ n ∈ u.draft.here, u.draft.JumpAt n
  arrives : u.draft.here = [] ∨ u.draft.pc ∈ u.targets
  labels : ∀ l ∈ u.draft.labels, l.pc ∈ u.targets
  gotos : ∀ g ∈ u.draft.gotos, ∀ n ∈ g.jumps, u.draft.JumpAt n
  heads : ∀ t ∈ u.heads, t ∈ u.targets

structure Coded (u : Sketch) : Prop where
  clears : ∀ (n : Nat) (i : Instr), u.draft.code[n]? = some i → i.opcode = .loadNil → i.a.val + i.b.val < 255
  skipped : ∀ (n : Nat) (i : Instr), u.draft.code[n]? = some i → i.skipsNext = true →
    u.draft.HoldsAt (n + 1) fun j => j.opcode ≠ .loadNil ∧ j.opcode ≠ .not
  registers : u.draft.maxStack ≤ 254

/-- Locals have registers and lives. -/
structure Housed (u : Sketch) : Prop where
  room : u.draft.declared.size ≤ Compile.maxLocals
  active : u.draft.active ≤ u.draft.declared.size
  count : u.draft.declared.size - u.draft.active ≤ u.draft.locals.size
  waits : u.draft.declared.toList.drop u.draft.active =
    List.range' u.draft.begun (u.draft.declared.size - u.draft.active)
  homes : u.homes.length = u.draft.locals.size
  home : ∀ r k : Nat, u.draft.declared[r]? = some k → u.homes[k]? = some r
  extents : Extents u.draft.locals u.homes u.draft.alive u.draft.begun u.draft.pc
  blocks : (u.draft.active :: u.draft.blocks.map (·.active)).Pairwise (· ≥ ·)

structure Sound (u : Sketch) : Prop where
  aimed : u.Aimed
  coded : u.Coded
  housed : u.Housed

theorem sound_new (line : Nat) : (new line).Sound where
  aimed := {
    start := List.mem_cons_self
    last := List.mem_cons_self
    low := Nat.le_refl _
    marked := fun t ht => .inl (by simpa [new, Draft.new] using ht)
    jumps := by simp [new, Draft.new]
    here := by simp [new, Draft.new]
    arrives := .inl rfl
    labels := by simp [new, Draft.new]
    gotos := by simp [new, Draft.new]
    heads := by simp [new] }
  coded := {
    clears := by simp [new, Draft.new]
    skipped := by simp [new, Draft.new]
    registers := show 2 ≤ 254 by decide }
  housed := {
    room := Nat.zero_le _
    active := Nat.le_refl _
    count := Nat.le_refl _
    waits := rfl
    homes := rfl
    home := by simp [new, Draft.new]
    extents := Extents.empty
    blocks := List.pairwise_singleton _ _ }

/-! ## 2. Jumps -/

theorem Aimed.le (h : u.Aimed) {t : Nat} (ht : t ∈ u.targets) : t ≤ u.draft.pc := by
  rcases h.marked t ht with hle | ⟨n, rfl, hn⟩
  · exact Nat.le_trans hle h.low
  · exact hn.lt

theorem Aimed.jumps_turn {i j : Instr} (h : u.Aimed) (hi : u.draft.code[n]? = some i)
    (hj : j = i ∨ i.Turn u.targets n j ∨ i.Widens j) (hlayout : j.opcode.layout = .asbx) :
    j.sbx = -1 ∨ ∃ t ∈ u.targets, (t : Int) = n + 1 + j.sbx := by
  rcases hj with rfl | hturn | hwidens
  · exact h.jumps n j hi hlayout
  · have hi' := h.jumps n i hi (hturn.layout.mp hlayout)
    cases hturn with
    | operands hi hop =>
      rw [hop] at hlayout
      exact absurd hlayout (Op.isMild_iff.mp hi).1
    | register => exact hi'
    | test _ hj =>
      rw [hj] at hlayout
      cases hlayout
    | tail _ hj =>
      rw [hj] at hlayout
      cases hlayout
    | @aim dest _ hdest hreach =>
      refine .inr ⟨dest, hdest, ?_⟩
      rw [Instr.sbx_setSbx _ _ (of_decide_eq_true hreach)]
      omega
  · rw [hwidens.after] at hlayout
    cases hlayout

theorem Aimed.after (h : u.Aimed) (hstep : Step scope u u') (htargets : u'.targets = u.targets)
    (hlast : u'.draft.lastTarget = u.draft.lastTarget) (hlow : u.draft.lastTarget ≤ u'.draft.pc)
    (hhere : ∀ n ∈ u'.draft.here, u.draft.JumpAt n) (harrives : u'.draft.here = [] ∨ u'.draft.pc ∈ u.targets)
    (hlabels : ∀ l ∈ u'.draft.labels, l ∈ u.draft.labels ∨ l.pc ∈ u.targets)
    (hgotos : ∀ g ∈ u'.draft.gotos, g ∈ u.draft.gotos ∨ ∀ n ∈ g.jumps, u.draft.JumpAt n)
    (hheads : ∀ t ∈ u'.heads, t ∈ u.targets) : u'.Aimed where
  start := hstep.targets_subset h.start
  last := by
    rw [hlast]
    exact hstep.targets_subset h.last
  low := by rwa [hlast]
  marked := by
    intro t ht
    rw [hlast]
    refine (h.marked t (htargets ▸ ht)).imp_right ?_
    rintro ⟨n, rfl, hn⟩
    exact ⟨n, rfl, hstep.jumpAt hn⟩
  jumps := by
    intro n j hj hlayout
    rw [htargets]
    rcases hstep.origin hj with ⟨i, hi, hij⟩ | ⟨hraw, -⟩
    · exact h.jumps_turn hi hij hlayout
    · exact .inl (hraw.aimless hlayout)
  here := fun n hn => hstep.jumpAt (hhere n hn)
  arrives := by rwa [htargets]
  labels := fun l hl => by
    rw [htargets]
    exact (hlabels l hl).elim (h.labels l) id
  gotos := fun g hg n hn => hstep.jumpAt ((hgotos g hg).elim (fun hg => h.gotos g hg n hn) fun hjumps => hjumps n hn)
  heads := by rwa [htargets]

theorem Aimed.aside (h : u.Aimed) (hstep : Step scope u u') (htargets : u'.targets = u.targets)
    (hlast : u'.draft.lastTarget = u.draft.lastTarget) (hpc : u'.draft.pc = u.draft.pc)
    (hhere : u'.draft.here = u.draft.here) (hlabels : u'.draft.labels = u.draft.labels)
    (hgotos : u'.draft.gotos = u.draft.gotos) (hheads : u'.heads = u.heads) : u'.Aimed := by
  refine h.after hstep htargets hlast (hpc ▸ h.low) ?_ ?_ (fun _ hl => .inl (hlabels ▸ hl))
    (fun _ hg => .inl (hgotos ▸ hg)) (hheads ▸ h.heads)
  · rw [hhere]
    exact h.here
  · rw [hhere, hpc]
    exact h.arrives

theorem Aimed.mark (h : u.Aimed) (hn : n ≤ u.draft.pc) (hlast : u.draft.lastTarget ≤ n) :
    Aimed { u with draft := { u.draft with lastTarget := n }, targets := n :: u.targets } where
  start := List.mem_cons_of_mem _ h.start
  last := List.mem_cons_self
  low := hn
  marked := by
    intro t ht
    rcases List.mem_cons.mp ht with rfl | ht
    · exact .inl (Nat.le_refl _)
    · exact (h.marked t ht).imp_left fun hle => Nat.le_trans hle hlast
  jumps := by
    intro m i hi hlayout
    refine (h.jumps m i hi hlayout).imp_right ?_
    rintro ⟨t, ht, he⟩
    exact ⟨t, List.mem_cons_of_mem _ ht, he⟩
  here := h.here
  arrives := h.arrives.imp_right (List.mem_cons_of_mem _)
  labels := fun l hl => List.mem_cons_of_mem _ (h.labels l hl)
  gotos := h.gotos
  heads := fun t ht => List.mem_cons_of_mem _ (h.heads t ht)

theorem Aimed.enterLoop (h : u.Aimed) (hjump : u.draft.JumpAt (u.draft.pc - 1)) :
    Aimed { u with targets := u.draft.pc :: u.targets } where
  start := List.mem_cons_of_mem _ h.start
  last := List.mem_cons_of_mem _ h.last
  low := h.low
  marked := by
    intro t ht
    rcases List.mem_cons.mp ht with rfl | ht
    · have hlt : u.draft.pc - 1 < u.draft.pc := hjump.lt
      exact .inr ⟨_, by omega, hjump⟩
    · exact h.marked t ht
  jumps := by
    intro m i hi hlayout
    refine (h.jumps m i hi hlayout).imp_right ?_
    rintro ⟨t, ht, he⟩
    exact ⟨t, List.mem_cons_of_mem _ ht, he⟩
  here := h.here
  arrives := h.arrives.imp_right (List.mem_cons_of_mem _)
  labels := fun l hl => List.mem_cons_of_mem _ (h.labels l hl)
  gotos := h.gotos
  heads := fun t ht => List.mem_cons_of_mem _ (h.heads t ht)

/-- **Jumps go where they may after each step.** -/
theorem Step.aimed (hstep : Step scope u u') (h : u.Aimed) : u'.Aimed := by
  cases id hstep with
  | write hhere =>
    refine h.after hstep rfl rfl ?_ h.here (.inl hhere) (fun _ => .inl) (fun _ => .inl) h.heads
    rw [Draft.pc_push]
    exact Nat.le_succ_of_le h.low
  | pair hhere =>
    refine h.after hstep rfl rfl ?_ h.here (.inl hhere) (fun _ => .inl) (fun _ => .inl) h.heads
    rw [Draft.pc_push, Draft.pc_push]
    exact Nat.le_succ_of_le (Nat.le_succ_of_le h.low)
  | turn => exact h.aside hstep rfl rfl (by simp [Draft.mapInstr, Draft.pc]) rfl rfl rfl rfl
  | merge => exact h.aside hstep rfl rfl (Draft.pc_widened ..) rfl rfl rfl rfl
  | takeBack hnot htargets =>
    have hlast := htargets _ h.last
    have hhere : u.draft.here = [] := h.arrives.resolve_right fun hpc => Nat.lt_irrefl _ (htargets _ hpc)
    have hlow : u.draft.lastTarget ≤ u.draft.code.pop.size := by
      rw [Array.size_pop]
      exact Nat.le_sub_one_of_lt hlast
    exact h.after hstep rfl rfl hlow h.here (.inl hhere) (fun _ => .inl) (fun _ => .inl) h.heads
  | mark hn hlast =>
    exact h.mark (by omega) hlast
  | enterLoop hjump => exact h.enterLoop hjump
  | openLoop _ hhead =>
    refine h.after hstep rfl rfl h.low h.here h.arrives (fun _ => .inl) (fun _ => .inl) fun t ht => ?_
    rcases List.mem_cons.mp ht with rfl | ht
    · exact hhead
    · exact h.heads t ht
  | closeLoop =>
    exact h.after hstep rfl rfl h.low h.here h.arrives (fun _ => .inl) (fun _ => .inl) fun t ht =>
      h.heads t (List.mem_of_mem_tail ht)
  | gather hl hnext => exact h.after hstep rfl rfl h.low hl hnext (fun _ => .inl) (fun _ => .inl) h.heads
  | @keep d hkeep =>
    have hpc : d.pc = u.draft.pc := by rw [Draft.pc, Draft.pc, hkeep.code]
    refine h.after hstep rfl hkeep.lastTarget (hpc ▸ h.low) ?_ ?_ hkeep.labels hkeep.gotos h.heads
    · show ∀ n ∈ d.here, _
      rw [hkeep.here]
      exact h.here
    · show d.here = [] ∨ d.pc ∈ _
      rw [hkeep.here, hpc]
      exact h.arrives
  | declare | enterBlock => exact h.aside hstep rfl rfl rfl rfl rfl rfl rfl
  | begin | restart =>
    obtain ⟨ls, hls⟩ := Compile.mapLocal_eq u.draft _ fun v => { v with start := u.draft.pc }
    exact h.aside hstep rfl (by rw [hls]) (by rw [hls]; rfl) (by rw [hls]) (by rw [hls]) (by rw [hls]) rfl
  | @leaveBlock b around =>
    obtain ⟨ls, ds, hls⟩ := Compile.endLocals_eq b.active { u.draft with blocks := around }
    exact h.aside hstep rfl (by rw [hls]) (by rw [hls]; rfl) (by rw [hls]) (by rw [hls]) (by rw [hls]) rfl

/-! ## 3. The rest of the code -/

theorem Step.registers (hstep : Step scope u u') (h : u.draft.maxStack ≤ 254) : u'.draft.maxStack ≤ 254 := by
  cases hstep with
  | keep hkeep => exact Nat.le_trans hkeep.maxStack (Nat.max_le.mpr ⟨h, Nat.le_refl _⟩)
  | begin | restart =>
    obtain ⟨ls, hls⟩ := Compile.mapLocal_eq u.draft _ fun v => { v with start := u.draft.pc }
    rw [hls]
    exact h
  | @leaveBlock b around =>
    obtain ⟨ls, ds, hls⟩ := Compile.endLocals_eq b.active { u.draft with blocks := around }
    rw [hls]
    exact h
  | _ => exact h

/-- **What is cleared is there, and nothing is cleared that can be skipped, after each step.** -/
theorem Step.coded (hstep : Step scope u u') (h : u.Coded) : u'.Coded where
  clears := by
    intro n j hj hop
    rcases hstep.origin hj with ⟨i, hi, rfl | hturn | hwidens⟩ | ⟨hraw, -⟩
    · exact h.clears n j hi hop
    · cases hturn with
      | operands hi hop' => exact absurd (hop'.symm.trans hop) (Op.isMild_iff.mp hi).2.1
      | register hnil => exact absurd hop hnil
      | test _ hj =>
        rw [hj] at hop
        cases hop
      | tail _ hj =>
        rw [hj] at hop
        cases hop
      | aim hlayout =>
        rw [Instr.opcode_setSbx] at hop
        rw [hop] at hlayout
        cases hlayout
    · exact hwidens.room
    · exact hraw.clears hop
  skipped := by
    intro n j hj hskip
    rcases hstep.origin hj with ⟨i, hi, rfl | hturn | hwidens⟩ | ⟨-, hpass⟩
    · exact hstep.holdsAt lasting_passable (h.skipped n j hi hskip)
    · exact hstep.holdsAt lasting_passable (h.skipped n i hi (hturn.skipsNext hskip))
    · have hskips := Instr.skips_of_skipsNext hskip
      rw [hwidens.after] at hskips
      cases hskips
    · exact hpass hskip
  registers := hstep.registers h.registers

/-! ## 4. Locals -/

theorem Housed.aside (h : u.Housed) (hhomes : u'.homes = u.homes) (hlocals : u'.draft.locals = u.draft.locals)
    (hdeclared : u'.draft.declared = u.draft.declared) (hactive : u'.draft.active = u.draft.active)
    (hblocks : u'.draft.blocks.map (·.active) = u.draft.blocks.map (·.active))
    (hpast : ∀ (k : Nat) (v : DraftLocal), u.draft.locals[k]? = some v → v.start ≤ u'.draft.pc ∧ v.stop ≤ u'.draft.pc) :
    u'.Housed := by
  have halive : u'.draft.alive = u.draft.alive := by rw [Draft.alive, Draft.alive, hdeclared, hactive]
  have hbegun : u'.draft.begun = u.draft.begun := by rw [Draft.begun, Draft.begun, hlocals, hdeclared, hactive]
  constructor <;> simp only [hhomes, hlocals, hdeclared, hactive, hblocks, halive, hbegun]
  · exact h.room
  · exact h.active
  · exact h.count
  · exact h.waits
  · exact h.homes
  · exact h.home
  · exact h.extents.at_place hpast
  · exact h.blocks

theorem Housed.later (h : u.Housed) (hhomes : u'.homes = u.homes) (hlocals : u'.draft.locals = u.draft.locals)
    (hdeclared : u'.draft.declared = u.draft.declared) (hactive : u'.draft.active = u.draft.active)
    (hblocks : u'.draft.blocks.map (·.active) = u.draft.blocks.map (·.active)) (hpc : u.draft.pc ≤ u'.draft.pc) :
    u'.Housed :=
  h.aside hhomes hlocals hdeclared hactive hblocks (h.extents.later hpc).past

theorem Housed.length_alive (h : u.Housed) : u.draft.alive.length = u.draft.active := by
  rw [Draft.alive, List.length_take, Array.length_toList]
  exact Nat.min_eq_left h.active

theorem Housed.next (h : u.Housed) (hlt : u.draft.active < u.draft.declared.size) :
    u.draft.declared[u.draft.active]? = some u.draft.begun := by
  have hhead : (u.draft.declared.toList.drop u.draft.active)[0]? = some u.draft.begun := by
    rw [h.waits, List.getElem?_range']
    · simp
    · omega
  rw [List.getElem?_drop, Nat.add_zero, Array.getElem?_toList] at hhead
  exact hhead

theorem Housed.declare (h : u.Housed) (name : Bytes) (hroom : u.draft.declared.size < Compile.maxLocals) :
    Housed
      { u with
        draft := { u.draft with
          declared := u.draft.declared.push u.draft.locals.size
          locals := u.draft.locals.push ⟨name, 0, 0⟩ }
        homes := u.homes ++ [u.draft.declared.size] } := by
  have hactive := h.active
  have hcount := h.count
  have hbegun : (u.draft.locals.size + 1) - (u.draft.declared.size + 1 - u.draft.active) = u.draft.begun := by
    unfold Draft.begun
    omega
  have halive : (u.draft.declared.toList ++ [u.draft.locals.size]).take u.draft.active = u.draft.alive :=
    List.take_append_of_le_length (by simpa using hactive)
  constructor <;> simp only [Draft.alive, Draft.begun, Array.toList_push, Array.size_push, hbegun, halive]
  · exact hroom
  · omega
  · omega
  · have hsize : u.draft.declared.size + 1 - u.draft.active = u.draft.declared.size - u.draft.active + 1 := by omega
    rw [List.drop_append_of_le_length (by simpa using hactive), h.waits, hsize, List.range'_1_concat]
    unfold Draft.begun
    congr 2
    omega
  · rw [List.length_append, h.homes, List.length_singleton]
  · intro r k hk
    rw [Array.getElem?_push] at hk
    split at hk
    · next hr =>
      cases hk
      rw [hr, ← h.homes]
      simp
    · have hhome := h.home r k hk
      rw [List.getElem?_append_left (List.getElem?_eq_some_iff.mp hhome).1]
      exact hhome
  · exact h.extents.declare h.homes name _
  · exact h.blocks

theorem Housed.begin (h : u.Housed) (hlt : u.draft.active < u.draft.declared.size) :
    Housed
      { u with
        draft := { Compile.mapLocal u.draft u.draft.active fun v => { v with start := u.draft.pc } with
          active := u.draft.active + 1 } } := by
  have hnext := h.next hlt
  have hcount := h.count
  have hbegun : u.draft.locals.size - (u.draft.declared.size - (u.draft.active + 1)) = u.draft.begun + 1 := by
    unfold Draft.begun
    omega
  have halive : u.draft.declared.toList.take (u.draft.active + 1) = u.draft.alive ++ [u.draft.begun] := by
    rw [List.take_add_one, Array.getElem?_toList, hnext]
    rfl
  have hmap : Compile.mapLocal u.draft u.draft.active (fun v => { v with start := u.draft.pc }) =
      { u.draft with locals := u.draft.locals.modify u.draft.begun fun v => { v with start := u.draft.pc } } := by
    unfold Compile.mapLocal
    rw [hnext]
  rw [hmap]
  constructor <;> simp only [Draft.alive, Draft.begun, Array.size_modify, hbegun, halive]
  · exact h.room
  · exact hlt
  · omega
  · have hdrop : u.draft.declared.toList.drop (u.draft.active + 1) =
        (u.draft.declared.toList.drop u.draft.active).drop 1 := by rw [List.drop_drop]
    rw [hdrop, h.waits, List.drop_range']
    congr 1
  · exact h.homes
  · exact h.home
  · refine h.extents.begin (by unfold Draft.begun; omega) ?_
    rw [h.length_alive]
    exact h.home _ _ hnext
  · obtain ⟨hhead, htail⟩ := List.pairwise_cons.mp h.blocks
    exact List.pairwise_cons.mpr ⟨fun a ha => Nat.le_succ_of_le (hhead a ha), htail⟩

theorem Housed.restart {reg : Nat} (h : u.Housed) (hreg : reg + 1 = u.draft.declared.size)
    (hactive : u.draft.active = u.draft.declared.size)
    (hlast : u.draft.declared[reg]? = some (u.draft.locals.size - 1)) :
    Housed { u with draft := Compile.mapLocal u.draft reg fun v => { v with start := u.draft.pc } } := by
  have hmap : Compile.mapLocal u.draft reg (fun v => { v with start := u.draft.pc }) =
      { u.draft with
        locals := u.draft.locals.modify (u.draft.locals.size - 1) fun v => { v with start := u.draft.pc } } := by
    unfold Compile.mapLocal
    rw [hlast]
  have hpos : 0 < u.draft.locals.size := by
    have hlt := (List.getElem?_eq_some_iff.mp (h.home _ _ hlast)).1
    rw [h.homes] at hlt
    omega
  have halive : u.draft.alive = u.draft.declared.toList.take reg ++ [u.draft.locals.size - 1] := by
    rw [Draft.alive, hactive, ← hreg, List.take_add_one, Array.getElem?_toList, hlast]
    rfl
  have hbegun : u.draft.begun = u.draft.locals.size - 1 + 1 := by
    unfold Draft.begun
    omega
  have hextents := h.extents
  rw [halive, hbegun] at hextents
  rw [hmap]
  constructor <;> simp only [Draft.alive, Draft.begun, Array.size_modify]
  · exact h.room
  · exact h.active
  · exact h.count
  · exact h.waits
  · exact h.homes
  · exact h.home
  · have hrestart := hextents.restart
    rw [← halive, ← hbegun] at hrestart
    exact hrestart
  · exact h.blocks

theorem gone_go (level pc count : Nat) (d : Draft) :
    (Compile.endLocals.go level pc count d).declared = d.declared ∧
      Extents.Gone d.locals (Compile.endLocals.go level pc count d).locals
        ((d.declared.toList.drop level).take count) pc := by
  induction count generalizing d with
  | zero =>
    refine ⟨rfl, fun k => ?_⟩
    rw [List.take_zero]
    simp [Compile.endLocals.go]
  | succ count ih =>
    have hget : (d.declared.toList.drop level)[count]? = d.declared[level + count]? := by
      rw [List.getElem?_drop, Array.getElem?_toList]
    unfold Compile.endLocals.go
    obtain ⟨hdeclared, hgone⟩ := ih (Compile.mapLocal d (level + count) fun v => { v with stop := pc })
    have hmap : (Compile.mapLocal d (level + count) fun v => { v with stop := pc }).declared = d.declared := by
      obtain ⟨ls, hls⟩ := Compile.mapLocal_eq d (level + count) fun v => { v with stop := pc }
      rw [hls]
    rw [hmap] at hdeclared hgone
    refine ⟨hdeclared, fun k => ?_⟩
    rw [hgone k, List.take_add_one, hget]
    unfold Compile.mapLocal
    cases hk : d.declared[level + count]? with
    | none => simp
    | some j =>
      dsimp only
      rw [Array.getElem?_modify]
      by_cases hj : j = k
      · subst hj
        rw [if_pos rfl, Option.map_map]
        refine congrArg (Option.map · _) (funext fun v => ?_)
        simp
      · rw [if_neg hj]
        refine congrArg (Option.map · _) (funext fun v => ?_)
        have hjk : ¬ k = j := fun he => hj he.symm
        simp [hjk]

theorem endLocals_gone {d : Draft} {level : Nat} (hlevel : level ≤ d.active) :
    ∃ ls ds, Compile.endLocals level d = { d with locals := ls, declared := ds, active := level } ∧
      ds.toList = d.declared.toList.take level ∧ Extents.Gone d.locals ls (d.alive.drop level) d.pc := by
  obtain ⟨hdeclared, hgone⟩ := gone_go level d.pc (d.active - level) d
  obtain ⟨ls, ds, hend⟩ := Compile.endLocals_eq level d
  have hls : ls = (Compile.endLocals.go level d.pc (d.active - level) d).locals := (congrArg Draft.locals hend).symm
  have hds : ds = d.declared.take level :=
    (congrArg Draft.declared hend).symm.trans (congrArg (Array.take · level) hdeclared)
  have halive : (d.declared.toList.drop level).take (d.active - level) = d.alive.drop level := by
    rw [Draft.alive, List.drop_take]
  rw [Nat.min_eq_right hlevel] at hend
  refine ⟨ls, ds, hend, by rw [hds]; simp, ?_⟩
  rw [hls, ← halive]
  exact hgone

theorem Housed.leaveBlock {b : Block} {around : List Block} (h : u.Housed) (hblocks : u.draft.blocks.map (·.active) = b.active :: around.map (·.active)) (hactive : u.draft.active = u.draft.declared.size) :
    Housed { u with draft := Compile.endLocals b.active { u.draft with blocks := around } } := by
  have hpairs := h.blocks
  rw [hblocks] at hpairs
  obtain ⟨hhead, htail⟩ := List.pairwise_cons.mp hpairs
  have hlevel : b.active ≤ u.draft.active := hhead _ List.mem_cons_self
  obtain ⟨ls, ds, hend, hds, hgone⟩ :=
    endLocals_gone (d := { u.draft with blocks := around }) hlevel
  have hsize : ls.size = u.draft.locals.size := hgone.size
  have hcount : ds.size = b.active := by
    rw [← Array.length_toList, hds, List.length_take, Array.length_toList]
    exact Nat.min_eq_left (hactive ▸ hlevel)
  have hbegun : u.draft.begun = u.draft.locals.size := by
    unfold Draft.begun
    omega
  rw [hend]
  constructor <;> simp only [Draft.alive, Draft.begun, hcount, hsize, hds, Nat.sub_self, Nat.sub_zero]
  · exact Nat.le_trans hlevel (hactive ▸ h.room)
  · exact Nat.le_refl _
  · exact Nat.zero_le _
  · exact List.drop_of_length_le (List.length_take_le ..)
  · exact h.homes
  · intro r k hk
    refine h.home r k ?_
    rw [← Array.getElem?_toList, hds, List.getElem?_take] at hk
    split at hk
    · rw [← Array.getElem?_toList]
      exact hk
    · cases hk
  · have hfinish := h.extents.finish b.active hgone
    rw [hbegun, Draft.alive, List.take_take, Nat.min_eq_left hlevel] at hfinish
    rw [List.take_take, Nat.min_self]
    exact hfinish
  · exact htail

/-- **Locals have registers and lives after each step.** -/
theorem Step.housed (hstep : Step scope u u') (h : u.Housed) : u'.Housed := by
  cases hstep with
  | write =>
    refine h.later rfl rfl rfl rfl rfl ?_
    rw [Draft.pc_push]
    exact Nat.le_succ _
  | pair =>
    refine h.later rfl rfl rfl rfl rfl ?_
    rw [Draft.pc_push, Draft.pc_push]
    omega
  | turn => exact h.later rfl rfl rfl rfl rfl (by simp [Draft.mapInstr, Draft.pc])
  | merge => exact h.later rfl rfl rfl rfl rfl (Nat.le_of_eq (Draft.pc_widened ..).symm)
  | takeBack _ _ hlocals =>
    refine h.aside rfl rfl rfl rfl rfl fun k v hv => ?_
    have hlt := hlocals k v hv
    simp only [Draft.pc, Array.size_pop] at hlt ⊢
    omega
  | mark | enterLoop | openLoop | closeLoop | gather => exact h.later rfl rfl rfl rfl rfl (Nat.le_refl _)
  | @keep d hkeep =>
    refine h.later rfl hkeep.locals hkeep.declared hkeep.active hkeep.blocks (Nat.le_of_eq ?_)
    rw [Draft.pc, Draft.pc, hkeep.code]
  | declare name _ hroom => exact h.declare name hroom
  | begin _ hlt => exact h.begin hlt
  | restart _ hreg hactive hlast => exact h.restart hreg hactive hlast
  | @enterBlock b _ hb =>
    constructor
    · exact h.room
    · exact h.active
    · exact h.count
    · exact h.waits
    · exact h.homes
    · exact h.home
    · exact h.extents
    · refine List.pairwise_cons.mpr ⟨fun a ha => ?_, ?_⟩
      · rcases List.mem_cons.mp ha with rfl | ha
        · exact Nat.le_of_eq hb
        · exact (List.pairwise_cons.mp h.blocks).1 a ha
      · show (b.active :: _).Pairwise _
        rw [hb]
        exact h.blocks
  | leaveBlock _ hblocks hactive => exact h.leaveBlock hblocks hactive

/-! ## 5. Whatever is reached -/

/-- **Each step keeps what holds of a sketch.** -/
theorem Step.sound (hstep : Step scope u u') (h : u.Sound) : u'.Sound :=
  ⟨hstep.aimed h.aimed, hstep.coded h.coded, hstep.housed h.housed⟩

theorem Steps.sound (hsteps : Steps scope u u') (h : u.Sound) : u'.Sound := by
  induction hsteps with
  | refl => exact h
  | tail _ hstep ih => exact hstep.sound ih

theorem Reachable.sound (h : u.Reachable) : u.Sound := by
  obtain ⟨line, hsteps⟩ := h
  exact hsteps.sound (sound_new line)

theorem Reachable.steps (h : u.Reachable) (hsteps : Steps scope u u') : u'.Reachable := by
  obtain ⟨line, hline⟩ := h
  cases scope with
  | false => exact ⟨line, hline.trans hsteps.within⟩
  | true => exact ⟨line, hline.trans hsteps⟩

end LuaMachine.Sketch
