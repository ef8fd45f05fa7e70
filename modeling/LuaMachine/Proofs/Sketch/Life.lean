/-
  THE LIVES OF LOCALS. Locals begin in the order in which they are declared, and the last to begin is the
  first to end. So those that live at an instruction are, in that order, the ones in the registers from 0
  on, and of two lives one is inside the other or over before it begins.
-/
import LuaMachine.Compiler.Scope

namespace LuaMachine

/-! ## 1. Who lives -/

def Lives (ls : Array DraftLocal) (alive : List Nat) (pc k : Nat) : Bool :=
  match ls[k]? with
  | some v => decide (v.start ≤ pc) && (alive.contains k || decide (pc < v.stop))
  | none => false

def living (ls : Array DraftLocal) (alive : List Nat) (pc : Nat) : List Nat :=
  (List.range ls.size).filter (Lives ls alive pc)

variable {ls ls' : Array DraftLocal} {alive alive' homes : List Nat} {n now pc j k r : Nat}

theorem lives_iff : Lives ls alive pc k = true ↔
    ∃ v, ls[k]? = some v ∧ v.start ≤ pc ∧ (k ∈ alive ∨ pc < v.stop) := by
  unfold Lives
  cases ls[k]? <;> simp

theorem mem_living : k ∈ living ls alive pc ↔ Lives ls alive pc k = true := by
  simp only [living, List.mem_filter, List.mem_range, and_iff_right_iff_imp]
  intro h
  obtain ⟨v, hv, -⟩ := lives_iff.mp h
  exact (Array.getElem?_eq_some_iff.mp hv).1

theorem lives_of_getElem (hk : (living ls alive pc)[r]? = some k) : Lives ls alive pc k = true :=
  mem_living.mp (List.mem_of_getElem? hk)

theorem living_sorted : (living ls alive pc).Pairwise (· < ·) := List.pairwise_lt_range.filter _

theorem living_of_mem {l : List Nat} (hl : l.Pairwise (· < ·)) (h : ∀ k, Lives ls alive pc k = true ↔ k ∈ l) :
    living ls alive pc = l := by
  have hasymm : ∀ a b : Nat, a ∈ living ls alive pc → b ∈ l → a < b → b < a → a = b :=
    fun a b _ _ h1 h2 => absurd h1 (Nat.lt_asymm h2)
  refine List.Perm.eq_of_pairwise hasymm living_sorted hl ?_
  exact (List.perm_ext_iff_of_nodup (living_sorted.imp Nat.ne_of_lt) (hl.imp Nat.ne_of_lt)).mpr
    fun k => mem_living.trans (h k)

theorem living_congr (h : ∀ k, Lives ls alive pc k = Lives ls' alive' pc k) :
    living ls alive pc = living ls' alive' pc :=
  living_of_mem living_sorted fun k => by rw [mem_living, h]

theorem living_eq_alive (hsorted : alive.Pairwise (· < ·))
    (hstarts : ∀ k ∈ alive, ∃ v, ls[k]? = some v ∧ v.start ≤ pc)
    (hstops : ∀ (k : Nat) (v : DraftLocal), ls[k]? = some v → v.stop ≤ pc) : living ls alive pc = alive := by
  refine living_of_mem hsorted fun k => lives_iff.trans ⟨?_, fun hk => ?_⟩
  · rintro ⟨v, hv, -, hk | hlt⟩
    · exact hk
    · exact absurd hlt (Nat.not_lt.mpr (hstops k v hv))
  · obtain ⟨v, hv, hle⟩ := hstarts k hk
    exact ⟨v, hv, hle, .inl hk⟩

/-! ## 2. What holds of lives -/

/-- The lives of locals up to the place `now`. The first `n` of them have begun, those in `alive` have not ended, and
    `homes` has the register of each. -/
structure Extents (ls : Array DraftLocal) (homes alive : List Nat) (n now : Nat) : Prop where
  count : n ≤ ls.size
  sorted : alive.Pairwise (· < ·)
  begun : ∀ k ∈ alive, k < n
  waiting : ∀ (k : Nat) (v : DraftLocal), n ≤ k → ls[k]? = some v → v.start = 0 ∧ v.stop = 0
  past : ∀ (k : Nat) (v : DraftLocal), ls[k]? = some v → v.start ≤ now ∧ v.stop ≤ now
  order : ∀ (j k : Nat) (v w : DraftLocal), j ≤ k → k < n → ls[j]? = some v → ls[k]? = some w → v.start ≤ w.start
  ended : ∀ (k : Nat) (v : DraftLocal), k < n → k ∉ alive → ls[k]? = some v → v.start ≤ v.stop
  /-- What begins during a life ends with it at the latest. -/
  nested : ∀ (j k : Nat) (v w : DraftLocal), j < k → k < n → j ∉ alive → ls[j]? = some v → ls[k]? = some w →
    v.stop ≤ w.start ∨ k ∉ alive ∧ w.stop ≤ v.stop
  /-- Wherever a local lives, its register has its number among the living. -/
  home : ∀ pc r k : Nat, (living ls alive pc)[r]? = some k → homes[k]? = some r

namespace Extents

theorem get (h : Extents ls homes alive n now) (hk : k ∈ alive) : ∃ v, ls[k]? = some v ∧ v.start ≤ now := by
  have hlt := Nat.lt_of_lt_of_le (h.begun k hk) h.count
  exact ⟨ls[k], Array.getElem?_eq_getElem hlt, (h.past k _ (Array.getElem?_eq_getElem hlt)).1⟩

theorem living_now (h : Extents ls homes alive n now) (hpc : now ≤ pc) : living ls alive pc = alive := by
  refine living_eq_alive h.sorted (fun k hk => ?_) fun k v hv => Nat.le_trans (h.past k v hv).2 hpc
  obtain ⟨v, hv, hle⟩ := h.get hk
  exact ⟨v, hv, Nat.le_trans hle hpc⟩

theorem at_place (h : Extents ls homes alive n now) {now' : Nat}
    (hle : ∀ (k : Nat) (v : DraftLocal), ls[k]? = some v → v.start ≤ now' ∧ v.stop ≤ now') :
    Extents ls homes alive n now' :=
  { h with past := hle }

theorem later (h : Extents ls homes alive n now) {now' : Nat} (hle : now ≤ now') : Extents ls homes alive n now' :=
  h.at_place fun k v hv => ⟨Nat.le_trans (h.past k v hv).1 hle, Nat.le_trans (h.past k v hv).2 hle⟩

theorem not_lives (h : Extents ls homes alive n now) (hk : n ≤ k) : Lives ls alive pc k = false := by
  refine Bool.eq_false_iff.mpr fun hl => ?_
  obtain ⟨v, hv, -, hmem | hlt⟩ := lives_iff.mp hl
  · exact absurd (h.begun k hmem) (Nat.not_lt.mpr hk)
  · rw [(h.waiting k v hk hv).2] at hlt
    exact absurd hlt (Nat.not_lt_zero _)

theorem empty : Extents #[] [] [] 0 now where
  count := Nat.le_refl _
  sorted := .nil
  begun := by simp
  waiting := by simp
  past := by simp
  order := by simp
  ended := by simp
  nested := by simp
  home := by simp [living]

/-! ## 3. Locals are declared -/

theorem declare (h : Extents ls homes alive n now) (hhomes : homes.length = ls.size) (name : Bytes) (home : Nat) :
    Extents (ls.push ⟨name, 0, 0⟩) (homes ++ [home]) alive n now := by
  have hget : ∀ (k : Nat) (v : DraftLocal), (ls.push ⟨name, 0, 0⟩)[k]? = some v →
      ls[k]? = some v ∨ k = ls.size ∧ v = ⟨name, 0, 0⟩ := by
    intro k v hv
    rw [Array.getElem?_push] at hv
    split at hv
    · next hk => exact .inr ⟨hk, (Option.some.inj hv).symm⟩
    · exact .inl hv
  have hold : ∀ k, k < n → ∀ v, (ls.push ⟨name, 0, 0⟩)[k]? = some v → ls[k]? = some v := by
    intro k hk v hv
    have hcount := h.count
    exact (hget k v hv).resolve_right fun hlast => by omega
  have hsame : ∀ pc, living (ls.push ⟨name, 0, 0⟩) alive pc = living ls alive pc := fun pc =>
    living_congr fun k => by
      unfold Lives
      rw [Array.getElem?_push]
      by_cases hk : k = ls.size
      · have hnot : ls.size ∉ alive := fun hmem => absurd (h.begun _ hmem) (Nat.not_lt.mpr h.count)
        rw [if_pos hk, hk, Array.getElem?_eq_none (Nat.le_refl _)]
        simp [hnot]
      · rw [if_neg hk]
  refine ⟨Nat.le_trans h.count (by simp), h.sorted, h.begun, fun k v hk hv => ?_, fun k v hv => ?_,
    fun j k v w hjk hk hv hw => ?_, fun k v hk hend hv => ?_, fun j k v w hjk hk hend hv hw => ?_, fun pc r k hk => ?_⟩
  · rcases hget k v hv with hv | ⟨-, rfl⟩
    · exact h.waiting k v hk hv
    · exact ⟨rfl, rfl⟩
  · rcases hget k v hv with hv | ⟨-, rfl⟩
    · exact h.past k v hv
    · exact ⟨Nat.zero_le _, Nat.zero_le _⟩
  · exact h.order j k v w hjk hk (hold j (by omega) v hv) (hold k hk w hw)
  · exact h.ended k v hk hend (hold k hk v hv)
  · exact h.nested j k v w hjk hk hend (hold j (by omega) v hv) (hold k hk w hw)
  · rw [hsame] at hk
    have hlt : k < ls.size := List.mem_range.mp (List.mem_filter.mp (List.mem_of_getElem? hk)).1
    rw [List.getElem?_append_left (hhomes ▸ hlt)]
    exact h.home pc r k hk

/-! ## 4. Lives begin -/

theorem lives_modify {f : DraftLocal → DraftLocal} (hj : j ≠ k) :
    Lives (ls.modify k f) alive pc j = Lives ls alive pc j := by
  unfold Lives
  rw [Array.getElem?_modify, if_neg fun h => hj h.symm]

theorem lives_append (hk : k ≠ n) : Lives ls (alive ++ [n]) pc k = Lives ls alive pc k := by
  unfold Lives
  simp [hk]

theorem not_lives_before {f : DraftLocal → DraftLocal} (hf : ∀ v, (f v).start = now) (hpc : pc < now) :
    Lives (ls.modify k f) alive pc k = false := by
  refine Bool.eq_false_iff.mpr fun hl => ?_
  obtain ⟨v, hv, hs, -⟩ := lives_iff.mp hl
  rw [Array.getElem?_modify, if_pos rfl] at hv
  obtain ⟨w, -, rfl⟩ := Option.map_eq_some_iff.mp hv
  rw [hf] at hs
  omega

theorem get_begun {v : DraftLocal} (hv : (ls.modify k fun v => { v with start := now })[j]? = some v) :
    ∃ w, ls[j]? = some w ∧ v.stop = w.stop ∧ (j = k ∧ v.start = now ∨ j ≠ k ∧ v.start = w.start) := by
  rw [Array.getElem?_modify] at hv
  split at hv
  · next hk =>
    obtain ⟨w, hw, rfl⟩ := Option.map_eq_some_iff.mp hv
    exact ⟨w, hw, rfl, .inl ⟨hk.symm, rfl⟩⟩
  · next hk => exact ⟨v, hv, rfl, .inr ⟨fun h => hk h.symm, rfl⟩⟩

theorem past_begun (h : Extents ls homes alive n now) (j : Nat) (v : DraftLocal)
    (hv : (ls.modify k fun v => { v with start := now })[j]? = some v) : v.start ≤ now ∧ v.stop ≤ now := by
  obtain ⟨w, hw, hstop, hs⟩ := get_begun hv
  have hpast := h.past j w hw
  omega

theorem living_begun (h : Extents ls homes alive n now) {l : List Nat} (hsorted : l.Pairwise (· < ·))
    (hl : ∀ j ∈ l, j < ls.size) (hpc : now ≤ pc) :
    living (ls.modify k fun v => { v with start := now }) l pc = l := by
  refine living_eq_alive hsorted (fun j hj => ?_) fun j v hv => Nat.le_trans (h.past_begun j v hv).2 hpc
  have hlt : j < (ls.modify k fun v => { v with start := now }).size := by
    rw [Array.size_modify]
    exact hl j hj
  exact ⟨_, Array.getElem?_eq_getElem hlt, Nat.le_trans (h.past_begun j _ (Array.getElem?_eq_getElem hlt)).1 hpc⟩

theorem living_before_begin (h : Extents ls homes alive n now) (hpc : pc < now) :
    living (ls.modify n fun v => { v with start := now }) (alive ++ [n]) pc = living ls alive pc := by
  refine living_congr fun k => ?_
  by_cases hk : k = n
  · rw [hk, h.not_lives (Nat.le_refl n)]
    exact not_lives_before (fun _ => rfl) hpc
  · rw [lives_modify hk, lives_append hk]

theorem begin (h : Extents ls homes alive n now) (hn : n < ls.size) (hhome : homes[n]? = some alive.length) :
    Extents (ls.modify n fun v => { v with start := now }) homes (alive ++ [n]) (n + 1) now := by
  have hsorted : (alive ++ [n]).Pairwise (· < ·) := by
    refine List.pairwise_append.mpr ⟨h.sorted, List.pairwise_singleton .., fun a ha b hb => ?_⟩
    rw [List.mem_singleton.mp hb]
    exact h.begun a ha
  have hbegun : ∀ k ∈ alive ++ [n], k < n + 1 := fun k hk => by
    rcases List.mem_append.mp hk with hk | hk
    · exact Nat.lt_succ_of_lt (h.begun k hk)
    · rw [List.mem_singleton.mp hk]
      exact Nat.lt_succ_self n
  have hother : ∀ k, k < n + 1 → k ∉ alive ++ [n] → k < n ∧ k ∉ alive := fun k hk hend => by
    simp only [List.mem_append, List.mem_singleton, not_or] at hend
    exact ⟨by omega, hend.1⟩
  refine ⟨by rw [Array.size_modify]; exact hn, hsorted, hbegun, fun k v hk hv => ?_, h.past_begun,
    fun j k v w hjk hk hv hw => ?_, fun k v hk hend hv => ?_, fun j k v w hjk hk hend hv hw => ?_, fun pc r k hk => ?_⟩
  · obtain ⟨w, hw, hstop, ⟨rfl, -⟩ | ⟨-, hs⟩⟩ := get_begun hv
    · exact absurd hk (Nat.not_succ_le_self _)
    · rw [hs, hstop]
      exact h.waiting k w (by omega) hw
  · obtain ⟨v', hv', -, hs⟩ := get_begun hv
    obtain ⟨w', hw', -, ⟨rfl, hs'⟩ | ⟨hne, hs'⟩⟩ := get_begun hw
    · rw [hs']
      exact (h.past_begun j v hv).1
    · rcases hs with ⟨rfl, -⟩ | ⟨-, hs⟩
      · omega
      · rw [hs, hs']
        exact h.order j k v' w' hjk (by omega) hv' hw'
  · obtain ⟨hlt, hend⟩ := hother k hk hend
    obtain ⟨w, hw, hstop, ⟨rfl, -⟩ | ⟨-, hs⟩⟩ := get_begun hv
    · omega
    · rw [hs, hstop]
      exact h.ended k w hlt hend hw
  · obtain ⟨hlt, hend⟩ := hother j (by omega) hend
    obtain ⟨v', hv', hstop, ⟨rfl, -⟩ | ⟨-, -⟩⟩ := get_begun hv
    · omega
    · obtain ⟨w', hw', hstop', ⟨rfl, hs'⟩ | ⟨hne, hs'⟩⟩ := get_begun hw
      · refine .inl ?_
        rw [hs', hstop]
        exact (h.past j v' hv').2
      · rw [hstop, hstop', hs']
        have hnested := h.nested j k v' w' hjk (by omega) hend hv' hw'
        rwa [List.mem_append, List.mem_singleton, or_iff_left hne]
  · rcases Nat.lt_or_ge pc now with hpc | hpc
    · rw [h.living_before_begin hpc] at hk
      exact h.home pc r k hk
    · have hl : ∀ j ∈ alive ++ [n], j < ls.size := fun j hj => by
        have hlt := hbegun j hj
        omega
      rw [h.living_begun hsorted hl hpc, List.getElem?_append] at hk
      split at hk
      · refine h.home pc r k ?_
        rw [h.living_now hpc]
        exact hk
      · obtain ⟨hlt, hkn⟩ := List.getElem?_eq_some_iff.mp hk
        rw [List.length_singleton] at hlt
        rw [List.getElem_singleton] at hkn
        rw [← hkn, hhome]
        exact congrArg some (by omega)

/-- When the life of the last local begins anew, it no longer lives at the places that have been passed; the others
    keep their numbers. -/
theorem living_before_restart (h : Extents ls homes (alive ++ [k]) (k + 1) now) (hpc : pc < now) : ∃ l,
    living ls (alive ++ [k]) pc = living (ls.modify k fun v => { v with start := now }) (alive ++ [k]) pc ++ l := by
  have hnot : Lives (ls.modify k fun v => { v with start := now }) (alive ++ [k]) pc k = false :=
    not_lives_before (fun _ => rfl) hpc
  have hless : ∀ j ∈ living (ls.modify k fun v => { v with start := now }) (alive ++ [k]) pc, j < k := by
    intro j hj
    have hl := mem_living.mp hj
    have hne : j ≠ k := fun he => by
      rw [he, hnot] at hl
      cases hl
    rw [lives_modify hne] at hl
    refine Nat.lt_of_le_of_ne (Nat.le_of_not_lt fun hlt => ?_) hne
    rw [h.not_lives hlt] at hl
    cases hl
  by_cases hk : Lives ls (alive ++ [k]) pc k = true
  · refine ⟨[k], living_of_mem ?_ fun j => ?_⟩
    · refine List.pairwise_append.mpr ⟨living_sorted, List.pairwise_singleton .., fun a ha b hb => ?_⟩
      rw [List.mem_singleton.mp hb]
      exact hless a ha
    · rw [List.mem_append, List.mem_singleton, mem_living]
      by_cases hj : j = k
      · simp [hj, hk]
      · simp [hj, lives_modify hj]
  · refine ⟨[], ?_⟩
    rw [List.append_nil]
    refine living_congr fun j => ?_
    by_cases hj : j = k
    · rw [hj, hnot]
      exact Bool.eq_false_iff.mpr hk
    · exact (lives_modify hj).symm

theorem restart (h : Extents ls homes (alive ++ [k]) (k + 1) now) :
    Extents (ls.modify k fun v => { v with start := now }) homes (alive ++ [k]) (k + 1) now := by
  have hlast : k ∈ alive ++ [k] := List.mem_append_right _ List.mem_cons_self
  refine ⟨by rw [Array.size_modify]; exact h.count, h.sorted, h.begun, fun j v hj hv => ?_, h.past_begun,
    fun i j v w hij hj hv hw => ?_, fun j v hj hend hv => ?_, fun i j v w hij hj hend hv hw => ?_, fun pc r j hj => ?_⟩
  · obtain ⟨w, hw, hstop, ⟨rfl, -⟩ | ⟨-, hs⟩⟩ := get_begun hv
    · exact absurd hj (Nat.not_succ_le_self _)
    · rw [hs, hstop]
      exact h.waiting j w hj hw
  · obtain ⟨v', hv', -, hs⟩ := get_begun hv
    obtain ⟨w', hw', -, ⟨rfl, hs'⟩ | ⟨hne, hs'⟩⟩ := get_begun hw
    · rw [hs']
      exact (h.past_begun i v hv).1
    · rcases hs with ⟨rfl, -⟩ | ⟨-, hs⟩
      · omega
      · rw [hs, hs']
        exact h.order i j v' w' hij hj hv' hw'
  · obtain ⟨w, hw, hstop, ⟨rfl, -⟩ | ⟨-, hs⟩⟩ := get_begun hv
    · exact absurd hlast hend
    · rw [hs, hstop]
      exact h.ended j w hj hend hw
  · obtain ⟨v', hv', hstop, ⟨rfl, -⟩ | ⟨-, -⟩⟩ := get_begun hv
    · exact absurd hlast hend
    · obtain ⟨w', hw', hstop', ⟨rfl, hs'⟩ | ⟨-, hs'⟩⟩ := get_begun hw
      · refine .inl ?_
        rw [hs', hstop]
        exact (h.past i v' hv').2
      · rw [hstop, hstop', hs']
        exact h.nested i j v' w' hij hj hend hv' hw'
  · rcases Nat.lt_or_ge pc now with hpc | hpc
    · obtain ⟨l, hl⟩ := h.living_before_restart hpc
      refine h.home pc r j ?_
      rw [hl, List.getElem?_append_left (List.getElem?_eq_some_iff.mp hj).1]
      exact hj
    · have hsize : ∀ i ∈ alive ++ [k], i < ls.size := fun i hi => Nat.lt_of_lt_of_le (h.begun i hi) h.count
      rw [h.living_begun h.sorted hsize hpc] at hj
      refine h.home pc r j ?_
      rw [h.living_now hpc]
      exact hj

/-! ## 5. Lives end -/

def Gone (ls ls' : Array DraftLocal) (gone : List Nat) (now : Nat) : Prop :=
  ∀ k, ls'[k]? = ls[k]?.map fun v => if k ∈ gone then { v with stop := now } else v

theorem Gone.get {gone : List Nat} {v : DraftLocal} (h : Gone ls ls' gone now) (hv : ls'[k]? = some v) :
    ∃ w, ls[k]? = some w ∧ v.start = w.start ∧
      (k ∉ gone ∧ v.stop = w.stop ∨ k ∈ gone ∧ v.stop = now) := by
  obtain ⟨w, hw, hwv⟩ := Option.map_eq_some_iff.mp ((h k).symm.trans hv)
  refine ⟨w, hw, ?_⟩
  split at hwv
  · next hk => exact ⟨hwv ▸ rfl, .inr ⟨hk, hwv ▸ rfl⟩⟩
  · next hk => exact ⟨hwv ▸ rfl, .inl ⟨hk, hwv ▸ rfl⟩⟩

theorem Gone.size {gone : List Nat} (h : Gone ls ls' gone now) : ls'.size = ls.size := by
  have hnone : ∀ k, ls'[k]? = none ↔ ls[k]? = none := fun k => by rw [h k, Option.map_eq_none_iff]
  have h1 := (hnone ls.size).mpr (Array.getElem?_eq_none (Nat.le_refl _))
  have h2 := (hnone ls'.size).mp (Array.getElem?_eq_none (Nat.le_refl _))
  rw [Array.getElem?_eq_none_iff] at h1 h2
  omega

theorem living_before_finish {level : Nat} (hpc : pc < now) (hls : Gone ls ls' (alive.drop level) now) :
    living ls' (alive.take level) pc = living ls alive pc := by
  have hsplit : ∀ k, k ∈ alive ↔ k ∈ alive.take level ∨ k ∈ alive.drop level := fun k => by
    rw [← List.mem_append, List.take_append_drop]
  refine living_congr fun k => ?_
  unfold Lives
  rw [hls]
  cases ls[k]? with
  | none => rfl
  | some v =>
    simp only [Option.map_some]
    by_cases hk : k ∈ alive.drop level
    · have hmem := (hsplit k).mpr (.inr hk)
      simp [hk, hmem, hpc]
    · have hmem : (alive.take level).contains k = alive.contains k := by
        rw [Bool.eq_iff_iff, List.contains_iff_mem, List.contains_iff_mem, hsplit]
        exact ⟨.inl, fun h => h.resolve_right hk⟩
      simp only [if_neg hk, hmem]

theorem finish (h : Extents ls homes alive n now) (level : Nat) (hls : Gone ls ls' (alive.drop level) now) :
    Extents ls' homes (alive.take level) n now := by
  have hpast : ∀ (k : Nat) (v : DraftLocal), ls'[k]? = some v → v.start ≤ now ∧ v.stop ≤ now := by
    intro k v hv
    obtain ⟨w, hw, hs, hstop⟩ := hls.get hv
    have hpast := h.past k w hw
    omega
  have hsplit : ∀ k, k ∈ alive ↔ k ∈ alive.take level ∨ k ∈ alive.drop level := fun k => by
    rw [← List.mem_append, List.take_append_drop]
  have hsorted := h.sorted.sublist (List.take_sublist level alive)
  -- what ends now was begun before whatever begins later, and that ends now or has ended
  have hsuffix : ∀ j k, j < k → j ∈ alive.drop level → k ∈ alive → k ∈ alive.drop level := by
    intro j k hjk hj hk
    refine ((hsplit k).mp hk).resolve_left fun htake => ?_
    have happend := h.sorted
    rw [← List.take_append_drop level alive, List.pairwise_append] at happend
    exact absurd (happend.2.2 k htake j hj) (Nat.lt_asymm hjk)
  have hdisjoint : ∀ k, k ∈ alive.drop level → k ∉ alive.take level := by
    intro k hk htake
    have happend := h.sorted
    rw [← List.take_append_drop level alive, List.pairwise_append] at happend
    exact absurd (happend.2.2 k htake k hk) (Nat.lt_irrefl k)
  refine ⟨hls.size ▸ h.count, hsorted, fun k hk => h.begun k ((hsplit k).mpr (.inl hk)), fun k v hk hv => ?_, hpast,
    fun j k v w hjk hk hv hw => ?_, fun k v hk hend hv => ?_, fun j k v w hjk hk hend hv hw => ?_, fun pc r k hk => ?_⟩
  · obtain ⟨w, hw, hs, ⟨-, hstop⟩ | ⟨hmem, -⟩⟩ := hls.get hv
    · rw [hs, hstop]
      exact h.waiting k w hk hw
    · exact absurd (h.begun k ((hsplit k).mpr (.inr hmem))) (Nat.not_lt.mpr hk)
  · obtain ⟨v', hv', hs, -⟩ := hls.get hv
    obtain ⟨w', hw', hs', -⟩ := hls.get hw
    rw [hs, hs']
    exact h.order j k v' w' hjk hk hv' hw'
  · obtain ⟨w, hw, hs, ⟨hnot, hstop⟩ | ⟨-, hstop⟩⟩ := hls.get hv
    · rw [hs, hstop]
      exact h.ended k w hk (fun hmem => ((hsplit k).mp hmem).elim hend hnot) hw
    · rw [hs, hstop]
      exact (h.past k w hw).1
  · obtain ⟨v', hv', hs, ⟨hnot, hstop⟩ | ⟨hmem, hstop⟩⟩ := hls.get hv
    · obtain ⟨w', hw', hs', hstop'⟩ := hls.get hw
      rw [hstop, hs']
      refine (h.nested j k v' w' hjk hk (fun hmem => ((hsplit j).mp hmem).elim hend hnot) hv' hw').imp_right ?_
      rintro ⟨hk', hle⟩
      obtain ⟨-, hsame⟩ := hstop'.resolve_right fun hgone => hk' ((hsplit k).mpr (.inr hgone.1))
      exact ⟨fun htake => hk' ((hsplit k).mpr (.inl htake)), hsame ▸ hle⟩
    · refine .inr ⟨fun htake => ?_, hstop ▸ (hpast k w hw).2⟩
      exact hdisjoint k (hsuffix j k hjk hmem ((hsplit k).mpr (.inl htake))) htake
  · rcases Nat.lt_or_ge pc now with hpc | hpc
    · rw [living_before_finish hpc hls] at hk
      exact h.home pc r k hk
    · have hnow : living ls' (alive.take level) pc = alive.take level := by
        refine living_eq_alive hsorted (fun k hk => ?_) fun k v hv => Nat.le_trans (hpast k v hv).2 hpc
        have hlt : k < ls'.size := hls.size ▸ Nat.lt_of_lt_of_le (h.begun k ((hsplit k).mpr (.inl hk))) h.count
        exact ⟨_, Array.getElem?_eq_getElem hlt, Nat.le_trans (hpast k _ (Array.getElem?_eq_getElem hlt)).1 hpc⟩
      rw [hnow, List.getElem?_take] at hk
      split at hk
      · refine h.home pc r k ?_
        rw [h.living_now hpc]
        exact hk
      · cases hk

end Extents

/-! ## 6. The name of a register -/

/-- The name of the `n`-th local (from 1) of those that live at `pc`: the search of the finished function, without its
    bound on places. -/
def nameAt (pc : Nat) : List DraftLocal → Nat → Option Bytes
  | [], _ => none
  | v :: rest, n =>
    if pc < v.start then none
    else if pc < v.stop then if n ≤ 1 then some v.name else nameAt pc rest (n - 1)
    else nameAt pc rest n

def DraftLocal.lived (pc : Nat) (v : DraftLocal) : Bool := decide (v.start ≤ pc) && decide (pc < v.stop)

/-- **The search finds those that lived**, in order, if they are sorted by their beginning: it counts nobody else, and
    it does not stop before the last of them. -/
theorem nameAt_filter {l : List DraftLocal} (hsorted : l.Pairwise fun v w => v.start ≤ w.start) (pc r : Nat) :
    nameAt pc l (r + 1) = ((l.filter (·.lived pc))[r]?).map (·.name) := by
  induction l generalizing r with
  | nil => rfl
  | cons v l ih =>
    obtain ⟨hv, hl⟩ := List.pairwise_cons.mp hsorted
    unfold nameAt
    by_cases hstart : pc < v.start
    · -- nobody behind has begun either
      have hnone : (v :: l).filter (·.lived pc) = [] := by
        refine List.filter_eq_nil_iff.mpr fun w hw hlived => ?_
        simp only [DraftLocal.lived, Bool.and_eq_true, decide_eq_true_eq] at hlived
        rcases List.mem_cons.mp hw with rfl | hw
        · omega
        · have hle := hv w hw
          omega
      rw [if_pos hstart, hnone]
      rfl
    · rw [if_neg hstart]
      by_cases hstop : pc < v.stop
      · have hlived : v.lived pc = true := by
          simp only [DraftLocal.lived, Bool.and_eq_true, decide_eq_true_eq]
          omega
        rw [if_pos hstop, List.filter_cons_of_pos hlived]
        cases r with
        | zero => rfl
        | succ r => simpa using ih hl r
      · have hlived : ¬ v.lived pc = true := by simp [DraftLocal.lived, hstop]
        rw [if_neg hstop, List.filter_cons_of_neg hlived]
        exact ih hl r

end LuaMachine
