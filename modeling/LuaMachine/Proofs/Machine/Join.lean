/-
  CONCATENATION OF REGISTERS. A row of registers is joined at once; this comes to the same as joining two
  values at a time from the right, also in which register is at fault.

  * **`Exec.concat_nested`** -- what the instruction does.
-/
import LuaMachine.Proofs.Meaning.Step

namespace LuaMachine

namespace Value

/-! ## 1. Two values at a time -/

inductive Side where
  | left
  | right
deriving DecidableEq

/-- Two values joined. Strings and numbers can be; the left operand is at fault if it is neither, otherwise
    the right one. -/
def joinTwo (x y : Value) : Except Side Bytes :=
  match x.concatBytes?, y.concatBytes? with
  | none, _ => .error .left
  | some _, none => .error .right
  | some s, some t => .ok (s ++ t)

/-- `v(b) .. (v(b+1) .. ( … .. v(b+n)))`, evaluated from the right, or the register at fault. -/
def nested (v : Nat → Value) (b : Nat) : Nat → Except Nat Value
  | 0 => .ok (v b)
  | n + 1 =>
    match nested v (b + 1) n with
    | .error r => .error r
    | .ok w =>
      match joinTwo (v b) w with
      | .error .left => .error b
      | .error .right => .error (b + 1)
      | .ok s => .ok (.str s)

/-! ## 2. A row of values -/

variable {v : Nat → Value} {b : Nat}

theorem isJoinable_eq (x : Value) : x.isJoinable = x.concatBytes?.isSome := by
  cases x <;> rfl

def bytesFrom (v : Nat → Value) (b n : Nat) : Bytes :=
  (List.range n).flatMap fun i => (v (b + i)).concatBytes?.getD []

theorem bytesFrom_succ (n : Nat) : bytesFrom v b (n + 1) = (v b).concatBytes?.getD [] ++ bytesFrom v (b + 1) n := by
  simp only [bytesFrom, List.range_succ_eq_map, List.flatMap_cons, List.flatMap_map, Nat.add_zero]
  congr 2
  funext i
  rw [Nat.add_assoc, Nat.add_comm 1]

theorem joinOrder_succ (n : Nat) : joinOrder (n + 3) = (joinOrder (n + 2)).map (· + 1) ++ [0] := by
  simp only [joinOrder, List.range_succ_eq_map, List.reverse_cons, List.map_cons, List.map_reverse, List.cons_append]

def faultOf (v : Nat → Value) (b n : Nat) : Option Nat := (joinOrder n).find? fun i => !(v (b + i)).isJoinable

theorem faultOf_succ (n : Nat) : faultOf v b (n + 3) =
    (((faultOf v (b + 1) (n + 2)).map (· + 1)).or (if (v b).isJoinable then none else some 0)) := by
  have hnext : ((fun i => !(v (b + i)).isJoinable) ∘ (· + 1)) = fun i => !(v (b + 1 + i)).isJoinable :=
    funext fun i => by rw [Function.comp_apply, Nat.add_assoc, Nat.add_comm 1]
  simp only [faultOf, joinOrder_succ, List.find?_append, List.find?_map, hnext]
  cases h : (v b).isJoinable <;> simp [h]

/-- **A row of values joined from the right**: all bytes in a row, or the first at fault in the order of looking. -/
theorem nested_eq (n : Nat) : nested v b (n + 1) =
    match faultOf v b (n + 2) with
    | some i => .error (b + i)
    | none => .ok (.str (bytesFrom v b (n + 2))) := by
  induction n generalizing b with
  | zero =>
    simp only [nested, joinTwo, faultOf, joinOrder, bytesFrom, isJoinable_eq, List.range_zero, List.reverse_nil,
      List.find?_cons, List.find?_nil, Nat.add_zero]
    cases hb : (v b).concatBytes? with
    | none => simp
    | some s =>
      cases hc : (v (b + 1)).concatBytes? with
      | none => simp
      | some t => simp [List.range_succ, hb, hc]
  | succ n ih =>
    rw [nested, ih, faultOf_succ, bytesFrom_succ (b := b) (n + 2)]
    cases faultOf v (b + 1) (n + 2) with
    | some i => simp [Nat.add_assoc, Nat.add_comm 1]
    | none =>
      -- what has been joined is a string: only the new register can be at fault
      simp only [Option.map_none, Option.none_or, isJoinable_eq, joinTwo]
      cases (v b).concatBytes? with
      | none => simp
      | some s => rfl

/-! ## 3. The values of a row -/

theorem lt_of_mem_joinOrder {n i : Nat} (h : i ∈ joinOrder (n + 2)) : i < n + 2 := by
  simp only [joinOrder, List.mem_cons, List.mem_reverse, List.mem_range] at h
  omega

theorem faultOf_lt {n i : Nat} (h : faultOf v b (n + 2) = some i) : i < n + 2 :=
  lt_of_mem_joinOrder (List.mem_of_find?_eq_some h)

def row (v : Nat → Value) (b n : Nat) : List Value := (List.range n).map fun i => v (b + i)

theorem getElem?_row {n i : Nat} (h : i < n) : (row v b n)[i]? = some (v (b + i)) := by
  simp [row, h]

theorem concat_row (n : Nat) : concat (row v b (n + 2)) =
    match faultOf v b (n + 2) with
    | some i => .error i
    | none => .ok (bytesFrom v b (n + 2)) := by
  have hlength : (row v b (n + 2)).length = n + 2 := by simp [row]
  have hfault : (joinOrder (row v b (n + 2)).length).find? (fun i => !((row v b (n + 2))[i]?.getD nil).isJoinable) =
      faultOf v b (n + 2) := by
    rw [hlength, faultOf, ← List.head?_filter, ← List.head?_filter]
    refine congrArg _ (List.filter_congr fun i hi => ?_)
    rw [getElem?_row (lt_of_mem_joinOrder hi), Option.getD_some]
  unfold concat
  rw [hfault]
  cases faultOf v b (n + 2) with
  | some i => rfl
  | none => simp [row, bytesFrom, List.flatMap_map]

end Value

namespace Exec

open Machine Value

variable {m : Machine} {f : Frame} {i : Instr}

/-- **A row of registers is joined as nested pairs would be**, from the right: the string goes to register `a` and
    nothing else changes, or the register at fault is reported and nothing changes at all. -/
theorem concat_nested (hop : i.opcode = .concat) (hrow : i.b.val < i.c.val) (hc : f.base + i.c.val < m.stack.size)
    (ha : f.base + i.a.val < m.stack.size) :
    (∃ s, nested (m.registers f.base) i.b.val (i.c.val - i.b.val) = .ok (.str s) ∧
      execute f i m = .ok .run { m with stack := m.stack.set (f.base + i.a.val) (.str s) ha }) ∨
    (∃ r, nested (m.registers f.base) i.b.val (i.c.val - i.b.val) = .error r ∧ i.b.val ≤ r ∧ r ≤ i.c.val ∧
      execute f i m = .error
        (.fault (.runtime (m.position 1) (.concat (m.registers f.base r).type (nameOf f r)))) m) := by
  obtain ⟨n, hn⟩ : ∃ n, i.c.val = i.b.val + (n + 1) := ⟨i.c.val - i.b.val - 1, by omega⟩
  generalize hv : m.registers f.base = v
  have hlength : (row v i.b.val (n + 2)).length = n + 2 := by simp [row]
  have hread : readMany (f.base + i.b.val) (n + 2) m = .ok (row v i.b.val (n + 2)) m := by
    have hvalues : ∀ k < (row v i.b.val (n + 2)).length,
        m.stack[f.base + i.b.val + k]? = (row v i.b.val (n + 2))[k]? := fun k hk => by
      rw [hlength] at hk
      rw [getElem?_row hk, ← hv, registers, ← Nat.add_assoc, Array.getElem?_eq_getElem (by omega), Option.getD_some]
    have h := readMany_ok (row v i.b.val (n + 2)) (by omega) hvalues
    rwa [hlength] at h
  have hjoin : join f i.a.val i.b.val i.c.val m = (faultOf v i.b.val (n + 2)).elim
      (write (f.base + i.a.val) (.str (bytesFrom v i.b.val (n + 2))))
      (fun k => fail (.concat (v (i.b.val + k)).type (nameOf f (i.b.val + k)))) m := by
    unfold join
    rw [if_neg (by omega), show i.c.val + 1 - i.b.val = n + 2 by omega]
    refine (bind_of_ok hread).trans ?_
    rw [concat_row]
    cases hk : faultOf v i.b.val (n + 2) with
    | none => rfl
    | some k =>
      simp only [Option.elim, getElem?_row (faultOf_lt hk), Option.getD_some]
  have hexec : execute f i m = (do join f i.a.val i.b.val i.c.val; return Mode.run) m := by
    unfold execute
    rw [hop]
    rfl
  rw [show i.c.val - i.b.val = n + 1 by omega, nested_eq, hexec]
  cases hk : faultOf v i.b.val (n + 2) with
  | none =>
    rw [hk] at hjoin
    exact .inl ⟨_, rfl, bind_of_ok (hjoin.trans (write_ok ha))⟩
  | some k =>
    rw [hk] at hjoin
    have hlt := faultOf_lt hk
    refine .inr ⟨_, rfl, by omega, by omega, ?_⟩
    show EStateM.bind _ _ m = _
    rw [EStateM.bind, hjoin]
    rfl

theorem concat_nested_middle : ∃ m f i, m.stack = #[.nil, .int 1, .nil, .str [0x61]] ∧ f.base = 1 ∧
    i = Instr.ofABC .concat 0 0 2 ∧ nested (m.registers f.base) 0 2 = .error 1 ∧
    execute f i m = .error (.fault (.runtime "" (.concat .nil none))) m := by
  let m : Machine := { bare Limits.standard with stack := #[.nil, .int 1, .nil, .str [0x61]] }
  let f : Frame := ⟨0, 1, none, default, #[], []⟩
  have hn : nested (m.registers f.base) 0 2 = .error 1 := rfl
  refine ⟨m, f, _, rfl, rfl, rfl, hn, ?_⟩
  obtain ⟨s, hs, -⟩ | ⟨r, hr, -, -, hexec⟩ := concat_nested (m := m) (f := f) (i := Instr.ofABC .concat 0 0 2) (by decide)
    (by decide) (by decide) (by decide)
  · cases hn.symm.trans hs
  · cases hn.symm.trans hr
    exact hexec

end Exec

end LuaMachine
