/-
  STORES ONE AFTER ANOTHER. The values of an assignment lie in registers; the last target gets the topmost
  one first. As storing leaves the targets before where they were, this does the same as if all targets had
  been taken first.

  * `Compile.Writes.storeAll_stores` -- **the values are stored**.
-/
import LuaMachine.Proofs.Assignment.Conflict

namespace LuaMachine

open Compile

namespace Vars

variable {n : Nat} {V V' : Vars} {r r' r'' : Vars × Option Refusal}

theorem Matches.trans (h : Matches n r r') (h' : Matches n r' r'') : Matches n r r'' :=
  ⟨h.1.trans h'.1, h'.2.trans h.2⟩

theorem Matches.mono {n' : Nat} (h : Matches n' r r') (hn : n ≤ n') : Matches n r r' := ⟨h.1.mono hn, h.2⟩

theorem Agrees.storeAll (h : V.Agrees n V') (l : List (Store × Value)) : Matches n (storeAll l V) (storeAll l V') := by
  induction l generalizing V V' with
  | nil => exact ⟨h, rfl⟩
  | cons x l ih =>
    obtain ⟨s, v⟩ := x
    have hfirst := h.store s v
    rw [storeAll_cons, storeAll_cons _ _ V']
    generalize Vars.storeAll [(s, v)] V = r at hfirst
    generalize Vars.storeAll [(s, v)] V' = r' at hfirst
    obtain ⟨U, o⟩ := r
    obtain ⟨U', o'⟩ := r'
    obtain ⟨hagrees, rfl⟩ := hfirst
    cases o' with
    | none => exact ih hagrees
    | some e => exact ⟨hagrees, rfl⟩

end Vars

namespace Slot

def takes (low : Nat) (V : Vars) : List Slot → List (Store × Value)
  | [] => []
  | x :: rest => (x.store V, V.regs (low + rest.length)) :: takes low V rest

def Stores (n : Nat) (x : Slot) (s : Origin) (as : List Act) : Prop :=
  ∀ V : Vars, Vars.Matches n (Vars.storeAll [(x.store V, s.value V)] V) (V.run as)

variable {n k low : Nat} {x y : Slot} {s : Origin} {rest : List Slot} {V V' : Vars} {as bs : List Act}

theorem store_keeps {v : Value} (hx : ∀ r, x = .var (.register r) → r < low)
    (h : Vars.storeAll [(x.store V, v)] V = (V', none)) :
    (∀ r, low ≤ r → V'.regs r = V.regs r) ∧ ∀ y : Slot, x.Spares y → y.store V' = y.store V := by
  cases x with
  | var w =>
    cases h
    refine ⟨fun r hr => ?_, fun y hy => store_set (hy w rfl) v⟩
    cases w with
    | register r' =>
      have := hx r' rfl
      exact if_neg (by omega)
    | upvalue u => rfl
  | field base t key =>
    have hsame : V'.regs = V.regs ∧ V'.upvalues = V.upvalues := by
      simp only [Vars.storeAll, Vars.store, Slot.store] at h
      unfold Vars.setField at h
      split at h
      · next heq =>
        split at heq
        · split at heq
          · cases heq
          · cases heq
            cases h
            exact ⟨rfl, rfl⟩
        · cases heq
      · cases h
    refine ⟨fun r _ => congrFun hsame.1 r, fun y _ => ?_⟩
    cases y with
    | var w => rfl
    | field base' t' key' =>
      have htable : base'.value V' t' = base'.value V t' := by
        cases base' with
        | register => exact congrFun hsame.1 t'
        | upvalue => exact congrFun hsame.2 t'
      have hkey : key'.value V' = key'.value V := by
        cases key' with
        | reg r => exact congrFun hsame.1 r
        | upvalue u => exact congrFun hsame.2 u
        | const c => rfl
      rw [Slot.store, Slot.store, htable, hkey]

theorem takes_congr (hstore : ∀ y ∈ rest, y.store V' = y.store V)
    (hregs : ∀ i < rest.length, V'.regs (low + i) = V.regs (low + i)) : takes low V' rest = takes low V rest := by
  induction rest with
  | nil => rfl
  | cons y rest ih =>
    obtain ⟨hy, hrest⟩ := List.forall_mem_cons.mp hstore
    rw [takes, takes, hy, hregs rest.length (Nat.lt_succ_self _),
      ih hrest fun i hi => hregs i (Nat.lt_succ_of_lt hi)]

/-- **One target is stored into, then those before it.** -/
theorem Stores.chain (h : x.Stores n s as) (hrest : ∀ V : Vars, Vars.Matches k (Vars.storeAll (takes low V rest) V) (V.run bs))
    (hx : ∀ r, x = .var (.register r) → r < low) (hspares : ∀ y ∈ rest, x.Spares y) (hbelow : ∀ y ∈ rest, y.Below n)
    (hn : low + rest.length ≤ n) (hk : k ≤ n) (V : Vars) :
    Vars.Matches k (Vars.storeAll ((x.store V, s.value V) :: takes low V rest) V) (V.run (as ++ bs)) := by
  have hfirst := h V
  rw [Vars.storeAll_cons]
  cases hideal : Vars.storeAll [(x.store V, s.value V)] V with
  | mk U o =>
    cases hreal : V.run as with
    | mk U' o' =>
      rw [hideal, hreal] at hfirst
      obtain ⟨hagrees, rfl⟩ := hfirst
      cases o' with
      | some e =>
        rw [Vars.run_append_refused hreal]
        exact ⟨hagrees.mono hk, rfl⟩
      | none =>
        obtain ⟨hregs, hstores⟩ := store_keeps hx hideal
        have htakes : takes low U' rest = takes low V rest := by
          refine takes_congr (fun y hy => ?_) fun i hi => ?_
          · rw [(hbelow y hy).store hagrees, hstores y (hspares y hy)]
          · rw [hagrees.regs _ (by omega), hregs _ (by omega)]
        rw [Vars.run_append hreal]
        have hlast := hrest U'
        rw [htakes] at hlast
        exact ((hagrees.storeAll (takes low V rest)).mono hk).trans hlast

end Slot

/-- **The values are stored**, the topmost one into the last target. -/
theorem Compile.Writes.storeAll_stores {q low : Nat} {d : Draft} {es : List Expr} {xs : List Slot} (hs : d.Apt q)
    (hes : List.Forall₂ (fun e x => e.place.Is d.constants x) es xs) (hlow : ∀ x ∈ xs, x.Below low)
    (hvars : ∀ x ∈ xs, ∀ r, x = .var (.register r) → r < low) (hspares : xs.Pairwise Slot.Spares)
    (hle : d.active ≤ low) (hfree : d.free = low + xs.length) :
    Writes (Grammar.storeAll es) d fun _ d' => ∃ as, d.Gains q as d' ∧
      ∀ V : Vars, Vars.Matches low (Vars.storeAll (Slot.takes low V xs) V) (V.run as) := by
  induction xs generalizing d es with
  | nil =>
    cases hes
    exact Writes.pure ⟨[], .refl hs, fun V => ⟨.refl _ _, rfl⟩⟩
  | cons x xs ih =>
    obtain _ | @⟨e, _, es, _, hx, hes⟩ := hes
    obtain ⟨hlow1, hlow⟩ := List.forall_mem_cons.mp hlow
    obtain ⟨hvars1, hvars⟩ := List.forall_mem_cons.mp hvars
    obtain ⟨hspares1, hspares⟩ := List.pairwise_cons.mp hspares
    have hroom := hs.roomy.free
    have hstack := hs.roomy.stack
    rw [List.length_cons] at hfree
    have htop : d.free - 1 = low + xs.length := by omega
    refine Writes.topRegister ?_
    rw [htop]
    have hgives : (Place.fixed (low + xs.length)).Gives d.constants (.reg (low + xs.length)) := .fixed (by omega)
    have hstore := Writes.storeVariable_stores hs hx (hlow1.mono (by omega)) hgives rfl
    refine hstore.andThen fun _ d1 ⟨⟨as, hg, hstores⟩, hfree1⟩ => ?_
    have hcost : (Origin.reg (low + xs.length)).cost d.active = 1 := cost_free (by omega) (by omega)
    refine (ih hg.steady (hes.imp fun _ _ h => h.mono hg.constants) hlow hvars hspares (by rw [hg.active]; exact hle)
      (by omega)).imp fun _ d' ⟨bs, hg', hrest⟩ => ⟨_, hg.trans hg', ?_⟩
    exact Slot.Stores.chain (n := d.free) hstores hrest hvars1 hspares1 (fun y hy => (hlow y hy).mono (by omega)) (by omega)
      (by omega)

end LuaMachine
