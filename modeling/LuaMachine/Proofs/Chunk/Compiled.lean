/-
  COMPILED FUNCTIONS IN CHUNKS. All code of the compiler fits its function, so the check has nothing against
  it but a LOADK whose index it takes for an operand.

  * `compile_chunk_iff` -- **which compiled functions come back from a chunk**.
-/
import LuaMachine.Proofs.Chunk.RoundTrip
import LuaMachine.Proofs.Compiler.Statement

namespace LuaMachine

namespace Proto

def Loads (p : Proto) : Prop := ∀ i ∈ p.code, i.Loadable p.room

theorem admitted_iff_loads {p : Proto}
    (h : p.All fun q => q.Sound ∧ (q.lines.size = 0 ∨ q.lines.size = q.code.size)) :
    p.All Admitted ↔ p.All Loads := by
  have hiff : ∀ {q : Proto}, q.Sound ∧ (q.lines.size = 0 ∨ q.lines.size = q.code.size) →
      (q.Admitted ↔ q.Loads) := by
    intro q hq
    rw [hq.1.admitted_iff hq.2]
    constructor
    · intro hload i hi
      obtain ⟨pc, hpc⟩ := Array.mem_iff_getElem?.mp hi
      exact hload pc i hpc
    · exact fun hload pc i hpc => hload i (Array.mem_of_getElem? hpc)
  constructor
  · exact fun ha => (h.and ha).imp fun q hq => (hiff hq.1).mp hq.2
  · exact fun hl => (h.and hl).imp fun q hq => (hiff hq.1).mpr hq.2

theorem sourced_of_made {source : Bytes} {p : Proto} (h : p.All (Made source)) :
    p.All Chunk.Sourced := by
  induction h with
  | @mk p hp hnested ih =>
    refine .mk (fun q hq hnone => ?_) ih
    rw [(hnested q hq).here.source_eq] at hnone
    cases hnone

end Proto

open Chunk in
/-- **Which compiled functions come back from a chunk.** The check lets a compiled function pass just if
    it does so with the LOADKs in it; written to a chunk, with or without what only explains errors,
    the function is read back as it was if moreover the format has room for it. -/
theorem compile_chunk_iff {source : Bytes} {chunkName : String} {p : Proto}
    (h : compile source chunkName = .ok p) :
    (p.verify = .ok () ↔ p.All Proto.Loads) ∧
      ∀ (strip : Bool) (name : String),
        toProto (ofProto p strip) name = .ok (if strip then p.strip else p) ↔
          (if strip then p.strip else p).All fun q => q.Loads ∧ Storable maxText q := by
  obtain ⟨hmade, hwithin⟩ := compile_made h
  have hfit : ∀ strip, (kept strip p).All fun q =>
      q.Sound ∧ (q.lines.size = 0 ∨ q.lines.size = q.code.size) := fun strip =>
    kept_all (fun q hq => ⟨kept_sound hq.toSound, kept_lines (.inr hq.lines)⟩) hmade
  refine ⟨?_, fun strip name => ?_⟩
  · rw [Proto.verify_ok]
    exact Proto.admitted_iff_loads (hfit false)
  · rw [show (if strip then p.strip else p) = kept strip p from rfl, toProto_ok,
      Proto.admitted_iff_loads (hfit strip)]
    constructor
    · rintro ⟨⟨rest, hread⟩, hloads⟩
      obtain ⟨_, _, hstorable, _⟩ := Gives.readMain _ _ rest (Nat.le_refl _) hread
      exact hloads.and (hstorable.imp fun q hq =>
        hq.1.mono (Nat.min_le_right ..))
    · intro hall
      have hsource : strip = false → p.All Sourced := fun _ => Proto.sourced_of_made hmade
      exact ⟨⟨[], readMain_ofProto hwithin (hall.imp fun _ hq => hq.2) hsource hmade.here.upvalues⟩,
        hall.imp fun _ hq => hq.1⟩

theorem compile_chunk_iff_closure :
    ∃ p, compile (Bytes.ofString "local a = 'x' return function(...) return a, 1.5, ... end") "t" = .ok p ∧
      p.verify = .ok () ∧ p.All Proto.Loads := by
  have hok : (match compile (Bytes.ofString "local a = 'x' return function(...) return a, 1.5, ... end") "t" with
      | .ok p => p.verify.isOk
      | .error _ => false) = true := by decide +kernel
  split at hok
  · next p hp =>
    cases hv : p.verify with
    | error f => simp [hv, Except.isOk, Except.toBool] at hok
    | ok _ => exact ⟨p, hp, hv, (compile_chunk_iff hp).1.mp hv⟩
  · cases hok

end LuaMachine
