/-
  THE RANGES OF LOCALS in a compiled function: sorted, one inside the other or apart, and wherever one looks
  they are those of the locals in the registers from 0 on.

  * `ranges_of_compile` -- **the ranges of compiled functions describe registers.**.
-/
import Mathlib.Algebra.Group.Nat.Defs
import LuaMachine.Proofs.Sketch.Statement

namespace LuaMachine

/-! ## 1. Registers of locals -/

namespace Sketch

variable {scope : Bool} {u u' : Sketch}

theorem Step.homes_kept (h : Step scope u u') : u.homes <+: u'.homes := by
  cases h with
  | declare => exact List.prefix_append ..
  | _ => exact List.prefix_refl _

theorem Steps.homes_kept (h : Steps scope u u') : u.homes <+: u'.homes := by
  induction h with
  | refl => exact List.prefix_refl _
  | tail _ hstep ih => exact ih.trans hstep.homes_kept

/-- **A local keeps its register**: that in which it is declared at some time while its function is written. -/
theorem Steps.homes (h : Steps scope u u') (hu : u.Sound) {r k : Nat} (hk : u.draft.declared[r]? = some k) :
    u'.homes[k]? = some r := by
  have hhome := hu.housed.home r k hk
  obtain ⟨more, hmore⟩ := h.homes_kept
  rw [← hmore, List.getElem?_append_left (List.getElem?_eq_some_iff.mp hhome).1]
  exact hhome

end Sketch

/-! ## 2. Ranges that describe registers -/

/-- Ranges of locals in code of a size, each with its register in `homes`. -/
structure Charted (size : Nat) (ranges : List DraftLocal) (homes : List Nat) : Prop where
  sorted : ranges.Pairwise fun v w => v.start ≤ w.start
  bounds : ∀ v ∈ ranges, v.start ≤ v.stop ∧ v.stop ≤ size
  /-- What begins later begins when the other is over, or ends with it at the latest. -/
  nested : ranges.Pairwise fun v w => v.stop ≤ w.start ∨ w.stop ≤ v.stop
  /-- Those that contain a place are, in order, those of the first registers. -/
  registers : ∀ pc, ((ranges.zip homes).filter fun x => x.1.lived pc).map (·.2) =
    List.range (ranges.filter (·.lived pc)).length

variable {ls : Array DraftLocal} {homes : List Nat} {size pc k r : Nat}

theorem lives_of_ended (v : DraftLocal) (hv : ls[k]? = some v) : Lives ls [] pc k = v.lived pc := by
  unfold Lives DraftLocal.lived
  rw [hv]
  simp

theorem zip_eq_map (hlen : homes.length = ls.size) :
    ls.toList.zip homes = (List.range ls.size).map fun k => (ls[k]?.getD ⟨[], 0, 0⟩, homes[k]?.getD 0) := by
  refine List.ext_getElem (by simp [hlen]) fun k hk _ => ?_
  have hlt : k < ls.size := by simpa [hlen] using hk
  simp [hlen, hlt]

theorem lived_eq_lives {k : Nat} (hk : k ∈ List.range ls.size) :
    (ls[k]?.getD ⟨[], 0, 0⟩).lived pc = Lives ls [] pc k := by
  have hget := Array.getElem?_eq_getElem (List.mem_range.mp hk)
  rw [lives_of_ended _ hget, hget]
  rfl

theorem registers_eq_living (hlen : homes.length = ls.size) :
    ((ls.toList.zip homes).filter fun x => x.1.lived pc).map (·.2) =
      (living ls [] pc).map fun k => homes[k]?.getD 0 := by
  rw [zip_eq_map hlen, List.filter_map, List.map_map, living]
  refine congrArg (List.map _) (List.filter_congr fun k hk => ?_)
  exact lived_eq_lives hk

theorem length_living (hlen : homes.length = ls.size) :
    (ls.toList.filter (·.lived pc)).length = (living ls [] pc).length := by
  have hfst : ls.toList = (ls.toList.zip homes).map Prod.fst :=
    (List.map_fst_zip (Nat.le_of_eq (Array.length_toList.trans hlen.symm))).symm
  have hregisters := congrArg List.length (registers_eq_living hlen : _ = (living ls [] pc).map _)
  rw [List.length_map, List.length_map] at hregisters
  rw [← hregisters, hfst, List.filter_map, List.length_map, ← hfst]
  rfl

/-- **When all locals have ended, their ranges describe registers.** -/
theorem charted_of_extents (h : Extents ls homes [] ls.size size) (hlen : homes.length = ls.size) :
    Charted size ls.toList homes := by
  have hget : ∀ k (hk : k < ls.toList.length), ls[k]? = some ls.toList[k] := fun k hk => by
    rw [← Array.getElem?_toList]
    exact List.getElem?_eq_getElem hk
  refine ⟨?_, fun v hv => ?_, ?_, fun pc => ?_⟩
  · refine List.pairwise_iff_getElem.mpr fun j k hj hk hjk => ?_
    exact h.order j k _ _ (Nat.le_of_lt hjk) (by simpa using hk) (hget j hj) (hget k hk)
  · obtain ⟨k, hk, rfl⟩ := List.mem_iff_getElem.mp hv
    refine ⟨h.ended k _ (by simpa using hk) List.not_mem_nil (hget k hk), (h.past k _ (hget k hk)).2⟩
  · refine List.pairwise_iff_getElem.mpr fun j k hj hk hjk => ?_
    exact (h.nested j k _ _ hjk (by simpa using hk) List.not_mem_nil (hget j hj) (hget k hk)).imp_right And.right
  · rw [registers_eq_living hlen, length_living hlen]
    refine List.ext_getElem (by simp) fun r hr _ => ?_
    rw [List.getElem_map, List.getElem_range]
    have hlt : r < (living ls [] pc).length := by simpa using hr
    rw [h.home pc r _ (List.getElem?_eq_getElem hlt)]
    rfl

/-! ## 3. The ranges of a finished function -/

def Proto.ranges (p : Proto) : List DraftLocal := p.locals.map fun v => ⟨v.name, v.start.toNat, v.stop.toNat⟩

theorem Proto.localName?_eq (p : Proto) (n pc : Nat) : p.localName? n pc = nameAt pc p.ranges n := by
  have hgo : ∀ l n, Proto.localName?.go pc l n =
      nameAt pc (l.map fun v : LocalRange => ⟨v.name, v.start.toNat, v.stop.toNat⟩) n := by
    intro l
    induction l with
    | nil => exact fun _ => rfl
    | cons v l ih =>
      intro n
      unfold Proto.localName?.go
      rw [List.map_cons, nameAt, ih, ih]
  exact hgo p.locals n

theorem ranges_finish {d : Draft} {source : Bytes} (hsize : d.code.size < 2 ^ 32)
    (hbounds : ∀ v ∈ d.locals.toList, v.start ≤ v.stop ∧ v.stop ≤ d.code.size) :
    (d.finish source).ranges = d.locals.toList := by
  unfold Proto.ranges Draft.finish
  rw [List.map_map]
  refine (List.map_congr_left fun v hv => ?_).trans (List.map_id _)
  obtain ⟨hle, hstop⟩ := hbounds v hv
  have hstart : (UInt32.ofNat v.start).toNat = v.start := UInt32.toNat_ofNat_of_lt (by simp only [UInt32.size]; omega)
  have hend : (UInt32.ofNat v.stop).toNat = v.stop := UInt32.toNat_ofNat_of_lt (by simp only [UInt32.size]; omega)
  simp only [Function.comp, hstart, hend, id]

/-! ## 4. Compiled functions -/

/-- **The ranges of locals describe registers.** Every function of a compiled program has been written by steps from
    its beginning to `u`, and its ranges are those of `u`; places are kept in 32 bits, which is no difference as long
    as code has fewer than `2 ^ 32` instructions. The register of a local in `u` is that in which it has been declared.
    Ranges are sorted by their start, lie in the code, and are one inside the other or apart; those that contain a
    place are, in order, the ranges of the locals in the registers 0, 1, ... So the search for the name of a register
    finds the local that lives there, and none beyond the last. -/
theorem ranges_of_compile {source : Bytes} {name : String} {p : Proto} (h : compile source name = .ok p) :
    p.All fun q => ∃ u : Sketch, u.Reachable ∧ q.code = u.draft.code ∧
      q.locals = u.draft.locals.toList.map (fun v => ⟨v.name, UInt32.ofNat v.start, UInt32.ofNat v.stop⟩) ∧
      (∀ v : Sketch, v.Reachable → v.Steps true u → ∀ r k : Nat, v.draft.declared[r]? = some k → u.homes[k]? = some r) ∧
      Charted q.code.size u.draft.locals.toList u.homes ∧
      (q.code.size < 2 ^ 32 → Charted q.code.size q.ranges u.homes ∧
        ∀ pc r : Nat, q.localName? (r + 1) pc = ((q.ranges.filter (·.lived pc))[r]?).map (·.name)) := by
  refine (wrought_of_compile h).imp fun q hq => ?_
  obtain ⟨u, source, hu, hdeclared, rfl⟩ := hq
  have hhoused := hu.sound.housed
  have hactive : u.draft.active = 0 := by
    have hle := hhoused.active
    rw [hdeclared] at hle
    exact Nat.le_zero.mp hle
  have halive : u.draft.alive = [] := by rw [Draft.alive, hactive, List.take_zero]
  have hbegun : u.draft.begun = u.draft.locals.size := by
    rw [Draft.begun, hdeclared, Array.size_empty, Nat.zero_sub, Nat.sub_zero]
  have hextents := hhoused.extents
  rw [halive, hbegun] at hextents
  have hcharted := charted_of_extents hextents hhoused.homes
  refine ⟨u, hu, rfl, rfl, fun v hv hsteps r k hk => hsteps.homes hv.sound hk, hcharted, fun hsize => ?_⟩
  have hranges : (u.draft.finish source).ranges = u.draft.locals.toList := ranges_finish hsize hcharted.bounds
  rw [hranges]
  refine ⟨hcharted, fun pc r => ?_⟩
  rw [Proto.localName?_eq, hranges, nameAt_filter hcharted.sorted]

/-- Of a block between two declarations: register 1 has the name of the inner local while the block runs, none behind
    it, and that of the next local from its declaration on. -/
theorem ranges_of_compile_nested : ∃ p : Proto,
    compile (Bytes.ofString "local a do local b = 2 f(b) end local c = 3") "t" = .ok p ∧
    p.ranges.map (fun v => (v.start, v.stop)) = [(1, 7), (2, 5), (6, 7)] ∧
    (List.range 7).map (fun pc => p.localName? 2 pc) =
      [none, none, some [98], some [98], some [98], none, some [99]] ∧
    ∃ homes : List Nat, Charted p.code.size p.ranges homes ∧
      ∀ pc r : Nat, p.localName? (r + 1) pc = ((p.ranges.filter (·.lived pc))[r]?).map (·.name) := by
  have hranges : (compile (Bytes.ofString "local a do local b = 2 f(b) end local c = 3") "t").toOption.map
      (fun p => (p.code.size, p.ranges.map fun v => (v.start, v.stop),
        (List.range 7).map fun pc => p.localName? 2 pc)) =
      some (7, [(1, 7), (2, 5), (6, 7)], [none, none, some [98], some [98], some [98], none, some [99]]) := by
    decide +kernel
  cases hc : compile (Bytes.ofString "local a do local b = 2 f(b) end local c = 3") "t" with
  | error e =>
    rw [hc] at hranges
    cases hranges
  | ok p =>
    rw [hc] at hranges
    obtain ⟨hsize, hrest⟩ := Prod.mk.inj (Option.some.inj hranges)
    obtain ⟨hbounds, hnames⟩ := Prod.mk.inj hrest
    obtain ⟨u, -, -, -, -, -, hstored⟩ := (ranges_of_compile hc).here
    have hcharted := hstored (by rw [hsize]; decide)
    exact ⟨p, rfl, hbounds, hnames, u.homes, hcharted.1, hcharted.2⟩

end LuaMachine
