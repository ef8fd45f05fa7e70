/-
  LOCALS COME INTO SCOPE AND GO. The locals of a draft are a list of names, one register each: declaring
  adds a name at the end, leaving a scope takes the last ones away.
-/
import LuaMachine.Proofs.Compiler.Block
import LuaMachine.Proofs.Meaning.Reading

namespace LuaMachine

namespace Draft

structure Lists (names : List Bytes) (d : Draft) : Prop where
  size : d.declared.size = names.length
  name : ∀ (r : Nat) (x : Bytes), names[r]? = some x →
    ∃ (i : Nat) (v : DraftLocal), d.declared[r]? = some i ∧ d.locals[i]? = some v ∧ v.name = x

variable {names : List Bytes} {d d' : Draft}

namespace Lists

theorem localName (h : d.Lists names) {r : Nat} (hr : r < names.length) : d.localName r = names[r] := by
  obtain ⟨i, v, hi, hv, hname⟩ := h.name r _ (List.getElem?_eq_getElem hr)
  simp only [Draft.localName, hi, hv, hname]

theorem findBelow (h : d.Lists names) (x : Bytes) {n : Nat} (hn : n ≤ names.length) :
    d.findBelow x n = Scope.slot? x (names.take n) := by
  induction n with
  | zero => rfl
  | succ n ih =>
    have hlt : n < names.length := hn
    rw [Draft.findBelow, h.localName hlt, List.take_succ_eq_append_getElem hlt, Scope.slot?_append,
      ih (by omega), List.length_take, Nat.min_eq_left (by omega)]

theorem knows (h : d.Lists names) (ha : d.active = names.length) : d.Knows names := by
  refine ⟨ha, fun x => ?_⟩
  rw [findLocal?, ha, h.findBelow x (Nat.le_refl _), List.take_length]

theorem congr (h : d.Lists names) (hd : d'.declared = d.declared) (hl : d'.locals = d.locals) :
    d'.Lists names := by
  constructor
  · rw [hd]
    exact h.size
  · rw [hd, hl]
    exact h.name

theorem declare {y : Bytes} (h : d.Lists names)
    (hd : d' = { d with declared := d.declared.push d.locals.size, locals := d.locals.push ⟨y, 0, 0⟩ }) :
    d'.Lists (names ++ [y]) := by
  subst hd
  refine ⟨by simp [h.size], fun r x hx => ?_⟩
  by_cases hr : r < names.length
  · rw [List.getElem?_append_left hr] at hx
    obtain ⟨i, v, hi, hv, hname⟩ := h.name r x hx
    refine ⟨i, v, ?_, ?_, hname⟩
    · rw [Array.getElem?_push, if_neg (by rw [h.size]; omega)]
      exact hi
    · have := (Array.getElem?_eq_some_iff.mp hv).1
      rw [Array.getElem?_push, if_neg (by omega)]
      exact hv
  · rw [List.getElem?_append_right (by omega), List.getElem?_singleton] at hx
    have hlast : r = d.declared.size := by
      rw [h.size]
      by_cases h0 : r - names.length = 0
      · omega
      · rw [if_neg h0] at hx
        cases hx
    rw [hlast, h.size, Nat.sub_self, if_pos rfl] at hx
    cases hx
    exact ⟨d.locals.size, ⟨y, 0, 0⟩, by rw [hlast, Array.getElem?_push_size], Array.getElem?_push_size, rfl⟩

theorem mapLocal {r : Nat} {f : DraftLocal → DraftLocal} (h : d.Lists names) (hf : ∀ v, (f v).name = v.name) :
    (Compile.mapLocal d r f).Lists names := by
  unfold Compile.mapLocal
  split
  · next k hk =>
    refine ⟨h.size, fun q x hx => ?_⟩
    obtain ⟨i, v, hi, hv, hname⟩ := h.name q x hx
    simp only [Array.getElem?_modify]
    by_cases hi' : k = i
    · exact ⟨i, f v, hi, by rw [if_pos hi', hv]; rfl, (hf v).trans hname⟩
    · exact ⟨i, v, hi, by rw [if_neg hi']; exact hv, hname⟩
  · exact h

end Lists

end Draft

namespace Compile

variable {names : List Bytes} {d : Draft}

theorem Writes.declare_lists {y : Bytes} (h : d.Lists names) :
    Writes (Compile.declare y) d fun _ d' =>
      d'.Lists (names ++ [y]) ∧ ∃ ls ds, d' = { d with locals := ls, declared := ds } := by
  refine Writes.get fun s hs => ?_
  split
  · exact Writes.failLimit
  · exact Writes.modifyFn ⟨h.declare rfl, _, _, rfl⟩

theorem Writes.activate_lists {n : Nat} (h : d.Lists names) :
    Writes (Compile.activate n) d fun _ d' =>
      d'.Lists names ∧ ∃ ls, d' = { d with locals := ls, active := d.active + n } := by
  induction n generalizing d with
  | zero => exact Writes.pure ⟨h, d.locals, rfl⟩
  | succ n ih =>
    refine Writes.get fun s hs => ?_
    have hbegin : Writes (Compile.beginLocal s.fn.active) d fun _ d1 =>
        d1.Lists names ∧ ∃ ls, d1 = { d with locals := ls } :=
      Writes.modifyFn ⟨h.mapLocal fun _ => rfl, mapLocal_eq ..⟩
    refine hbegin.andThen fun _ d1 ⟨h1, ls, hd1⟩ => ?_
    refine Writes.bind (Writes.modifyFn ?_)
    have h2 : { d1 with active := d1.active + 1 }.Lists names := h1.congr rfl rfl
    refine (ih h2).imp fun _ d' ⟨h', ls', hd'⟩ => ⟨h', ls', ?_⟩
    rw [hd', hd1]
    simp only [Nat.add_assoc, Nat.add_comm 1 n]

end Compile

theorem Draft.Lists.endLocals {names : List Bytes} {d : Draft} (h : d.Lists names) {level : Nat}
    (hl : level ≤ names.length) : (Compile.endLocals level d).Lists (names.take level) := by
  have hgo : ∀ (pc n : Nat) (d : Draft), d.Lists names → (Compile.endLocals.go level pc n d).Lists names := by
    intro pc n
    induction n with
    | zero => exact fun d h => h
    | succ n ih => exact fun d h => ih _ (h.mapLocal fun _ => rfl)
  have h' := hgo d.pc (d.active - level) d h
  constructor
  · show ((Compile.endLocals.go level d.pc (d.active - level) d).declared.take level).size = _
    rw [Array.take_eq_extract, Array.size_extract, h'.size, Nat.sub_zero, Nat.min_eq_left hl, List.length_take,
      Nat.min_eq_left hl]
  · intro r x hx
    rw [List.getElem?_take] at hx
    split at hx
    · next hlt =>
      obtain ⟨i, v, hi, hv, hname⟩ := h'.name r x hx
      refine ⟨i, v, ?_, hv, hname⟩
      show ((Compile.endLocals.go level d.pc (d.active - level) d).declared.take level)[r]? = some i
      rw [Array.take_eq_extract, Array.getElem?_extract, if_pos (by rw [h'.size]; omega), Nat.zero_add]
      exact hi
    · cases hx

end LuaMachine
