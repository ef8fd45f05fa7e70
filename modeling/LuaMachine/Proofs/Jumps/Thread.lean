/-
  LISTS OF JUMPS KEPT IN THE JUMPS THEMSELVES. While a jump has no target its distance is free, and can say
  which jump of its list comes next. A list is then known by its first jump alone. Such lists are joined,
  followed and aimed here, and nothing is lost or confused that the lists themselves keep apart.

  * `Threaded.chain`, `Threaded.not_shared` -- **each list is read back, and no two share a jump**;
  * `Threaded.concat_joins`, `Threaded.patch_aims` -- **joining and aiming stored lists does what joining
    and aiming lists does**, to each jump of the list once and to no other jump.
-/
import Mathlib.Data.List.Nodup
import Mathlib.Data.List.Perm.Subperm
import LuaMachine.Proofs.Registers.Judgement

namespace LuaMachine

open Operand (noRegister)

/-! ## 1. Stored lists -/

namespace Draft

def nextJump (d : Draft) (n : Nat) : Option Nat :=
  let distance := (d.instr n).sbx
  if distance = -1 then none else some ((n : Int) + 1 + distance).toNat

def lastJump? (d : Draft) : Nat → Nat → Option Nat
  | 0, _ => none
  | fuel + 1, n =>
    match d.nextJump n with
    | none => some n
    | some m => d.lastJump? fuel m

inductive Chain (d : Draft) : Option Nat → JumpList → Prop where
  | nil : Chain d none []
  | cons {n : Nat} {l : JumpList} (hn : n < d.code.size) (h : Chain d (d.nextJump n) l) : Chain d (some n) (n :: l)

theorem Chain.unique {d : Draft} {head : Option Nat} {l l' : JumpList} (h : d.Chain head l) (h' : d.Chain head l') :
    l = l' := by
  induction h generalizing l' with
  | nil =>
    cases h'
    rfl
  | cons _ _ ih =>
    cases h' with
    | cons _ h' => rw [ih h']

end Draft

namespace Compile.Stored

/-- Two stored lists as one: the last jump of the first is made to name the first of the second. -/
def concat (l₁ l₂ : Option Nat) : Compile (Option Nat) := do
  match l₁, l₂ with
  | _, none => return l₁
  | none, _ => return l₂
  | some head, some first =>
    match ← ofFn fun d => d.lastJump? d.code.size head with
    | none => failNear .endless
    | some last =>
      fixJump last first
      return some head

/-- Visit the jumps of a stored list; a visit says which jump comes next. Gives the jumps visited, in order. -/
def walk (visit : Nat → Compile (Option Nat)) : Nat → Option Nat → Compile JumpList
  | _, none => return []
  | 0, some _ => failNear .endless
  | fuel + 1, some node => do
    let next ← visit node
    let later ← walk visit fuel next
    return node :: later

def patchOne (valueTarget reg plainTarget node : Nat) : Compile (Option Nat) := do
  let next ← ofFn fun d => d.nextJump node
  if ← aimTest node reg then fixJump node valueTarget else fixJump node plainTarget
  return next

def patch (valueTarget reg plainTarget : Nat) (head : Option Nat) : Compile JumpList := do
  walk (patchOne valueTarget reg plainTarget) (← ofFn Draft.pc) head

def dropOne (node : Nat) : Compile (Option Nat) := do
  discard <| aimTest node noRegister
  ofFn fun d => d.nextJump node

def dropValues (head : Option Nat) : Compile JumpList := do walk dropOne (← ofFn Draft.pc) head

def closeOne (level node : Nat) : Compile (Option Nat) := do
  let next ← ofFn fun d => d.nextJump node
  modifyFn fun d => d.mapInstr node (·.setA (level + 1))
  return next

def closeOnJump (head : Option Nat) (level : Nat) : Compile JumpList := do
  walk (closeOne level) (← ofFn Draft.pc) head

end Compile.Stored

/-! ## 2. Code with lists threaded through it -/

def thread (n : Nat) : Option Nat → Int
  | none => -1
  | some m => (m : Int) - (n + 1)

def Threads (code stored : Array Instr) : JumpList → Prop
  | [] => True
  | n :: l =>
    (∃ i, code[n]? = some i ∧ i.opcode.layout = .asbx ∧ stored[n]? = some (i.setSbx (thread n l.head?))) ∧
      (∀ m, l.head? = some m → Compile.reaches n m = true) ∧ Threads code stored l

/-- **The stored code is the code with these lists threaded through it**: no two of them share a jump, and
    whatever is in none of them is the same in both. -/
structure Threaded (lists : List JumpList) (code stored : Array Instr) : Prop where
  size : stored.size = code.size
  apart : lists.flatten.Nodup
  threads : ∀ l ∈ lists, Threads code stored l
  same : ∀ n, n ∉ lists.flatten → stored[n]? = code[n]?

namespace Instr

theorem setSbx_ofAsBx (op : Op) (a : Nat) (k : Int) : (ofAsBx op a k).setSbx k = ofAsBx op a k := by
  have hmod : ∀ n : Nat, Fin.ofNat 512 (n % 512) = Fin.ofNat 512 n := fun n => Fin.ext (Nat.mod_mod n 512)
  simp only [ofAsBx, ofABx, ofABC, setSbx, hmod]

end Instr

namespace Threads

variable {code stored code' stored' : Array Instr} {l : JumpList} {n : Nat}

theorem suffix {front : JumpList} (h : Threads code stored (front ++ l)) : Threads code stored l := by
  induction front with
  | nil => exact h
  | cons n front ih => exact ih h.2.2

theorem congr (h : Threads code stored l) (hsame : ∀ n ∈ l, code'[n]? = code[n]? ∧ stored'[n]? = stored[n]?) :
    Threads code' stored' l := by
  induction l with
  | nil => trivial
  | cons n l ih =>
    obtain ⟨hi, hreach, hl⟩ := h
    obtain ⟨hcode, hstored⟩ := hsame n List.mem_cons_self
    refine ⟨?_, hreach, ih hl fun m hm => hsame m (List.mem_cons_of_mem n hm)⟩
    rw [hcode, hstored]
    exact hi

theorem jumpAt (h : Threads code stored l) (hn : n ∈ l) :
    ∃ i k, code[n]? = some i ∧ i.opcode.layout = .asbx ∧ stored[n]? = some (i.setSbx k) := by
  induction l with
  | nil => cases hn
  | cons m l ih =>
    obtain ⟨⟨i, hcode, hlayout, hstored⟩, -, hl⟩ := h
    rcases List.mem_cons.mp hn with rfl | hn
    · exact ⟨i, _, hcode, hlayout, hstored⟩
    · exact ih hl hn

variable {d : Draft}

theorem nextJump (h : Threads code d.code (n :: l)) (hn : n ∉ l) : d.nextJump n = l.head? := by
  obtain ⟨⟨i, -, -, hstored⟩, hreach, -⟩ := h
  have hinstr : d.instr n = i.setSbx (thread n l.head?) := Draft.instr_eq hstored
  unfold Draft.nextJump
  rw [hinstr]
  cases hl : l.head? with
  | none =>
    rw [Instr.sbx_setSbx _ (thread n none) (show (-1 : Int).natAbs ≤ _ by decide)]
    rfl
  | some m =>
    have hne : n ≠ m := fun he => hn (he ▸ List.mem_of_head? hl)
    have hdistance : ((m : Int) - (n + 1)).natAbs ≤ Instr.maxJump := of_decide_eq_true (hreach m hl)
    simp only [thread, Instr.sbx_setSbx _ _ hdistance]
    rw [if_neg (by omega)]
    exact congrArg some (by omega)

theorem chain (h : Threads code d.code l) (hl : l.Nodup) : d.Chain l.head? l := by
  induction l with
  | nil => exact .nil
  | cons n l ih =>
    obtain ⟨hn, hl⟩ := List.nodup_cons.mp hl
    obtain ⟨i, k, -, -, hstored⟩ := h.jumpAt List.mem_cons_self
    refine .cons (Array.getElem?_eq_some_iff.mp hstored).1 ?_
    rw [h.nextJump hn]
    exact ih h.2.2 hl

theorem lastJump? (h : Threads code d.code (n :: l)) (hl : (n :: l).Nodup) {fuel : Nat} (hfuel : l.length < fuel) :
    d.lastJump? fuel n = (n :: l).getLast? := by
  induction l generalizing n fuel with
  | nil =>
    obtain ⟨fuel, rfl⟩ : ∃ k, fuel = k + 1 := ⟨fuel - 1, by omega⟩
    rw [Draft.lastJump?, h.nextJump List.not_mem_nil]
    rfl
  | cons m l ih =>
    obtain ⟨fuel, rfl⟩ : ∃ k, fuel = k + 1 := ⟨fuel - 1, by omega⟩
    obtain ⟨hn, hl⟩ := List.nodup_cons.mp hl
    rw [Draft.lastJump?, h.nextJump hn, List.getLast?_cons_cons]
    exact ih h.2.2 hl (by simpa using hfuel)

theorem append {l₂ : JumpList} {last first : Nat} (h : Threads code stored l) (h2 : Threads code stored l₂)
    (hl : l.Nodup) (hapart : last ∉ l₂) (hlast : l.getLast? = some last) (hfirst : l₂.head? = some first)
    (hreach : Compile.reaches last first = true) :
    Threads code (stored.modify last (·.setSbx (thread last (some first)))) (l ++ l₂) := by
  induction l with
  | nil => cases hlast
  | cons n l ih =>
    obtain ⟨⟨i, hcode, hlayout, hstored⟩, hnext, h⟩ := h
    obtain ⟨hn, hl⟩ := List.nodup_cons.mp hl
    cases l with
    | nil =>
      obtain rfl : n = last := Option.some.inj hlast
      refine ⟨⟨i, hcode, hlayout, ?_⟩, fun m hm => ?_, h2.congr fun m hm => ⟨rfl, ?_⟩⟩
      · rw [Array.getElem?_modify, if_pos rfl, hstored]
        show _ = some (i.setSbx (thread n l₂.head?))
        rw [hfirst]
        rfl
      · obtain rfl : first = m := Option.some.inj (hfirst.symm.trans hm)
        exact hreach
      · rw [Array.getElem?_modify, if_neg]
        rintro rfl
        exact hapart hm
    | cons m l =>
      rw [List.getLast?_cons_cons] at hlast
      refine ⟨⟨i, hcode, hlayout, ?_⟩, hnext, ih h hl hlast⟩
      rw [Array.getElem?_modify, if_neg, hstored]
      · rfl
      · rintro rfl
        exact hn (List.mem_of_getLast? hlast)

end Threads

namespace Threaded

variable {lists : List JumpList} {code stored : Array Instr} {l : JumpList} {n : Nat}

/-! ### What is read -/

theorem nodup (h : Threaded lists code stored) (hl : l ∈ lists) : l.Nodup :=
  (List.nodup_flatten.mp h.apart).1 l hl

/-- **A list is read back from its first jump**, every jump once. -/
theorem chain {d : Draft} (h : Threaded lists code d.code) (hl : l ∈ lists) : d.Chain l.head? l ∧ l.Nodup :=
  ⟨(h.threads l hl).chain (h.nodup hl), h.nodup hl⟩

/-- **No two lists share a jump.** -/
theorem not_shared (h : Threaded lists code stored) : lists.Pairwise List.Disjoint :=
  (List.nodup_flatten.mp h.apart).2

theorem jumpAt (h : Threaded lists code stored) (hn : n ∈ lists.flatten) :
    ∃ i k, code[n]? = some i ∧ i.opcode.layout = .asbx ∧ stored[n]? = some (i.setSbx k) := by
  obtain ⟨l, hl, hn⟩ := List.mem_flatten.mp hn
  exact (h.threads l hl).jumpAt hn

theorem lt_size (h : Threaded lists code stored) (hn : n ∈ lists.flatten) : n < stored.size := by
  obtain ⟨i, k, -, -, hstored⟩ := h.jumpAt hn
  exact (Array.getElem?_eq_some_iff.mp hstored).1

theorem length_le (h : Threaded lists code stored) (hl : l ∈ lists) : l.length ≤ stored.size := by
  have hsub : l ⊆ List.range stored.size := fun n hn =>
    List.mem_range.mpr (h.lt_size (List.mem_flatten.mpr ⟨l, hl, hn⟩))
  have hlen := ((h.nodup hl).subperm hsub).length_le
  rwa [List.length_range] at hlen

theorem not_mem (h : Threaded lists code stored) {i : Instr} (hi : code[n]? = some i)
    (hlayout : i.opcode.layout ≠ .asbx) :
    n ∉ lists.flatten := by
  intro hn
  obtain ⟨j, k, hj, hjump, -⟩ := h.jumpAt hn
  rw [hi] at hj
  cases hj
  exact hlayout hjump

theorem unique {stored' : Array Instr} (h : Threaded lists code stored) (h' : Threaded lists code stored') :
    stored = stored' := by
  have hthread : ∀ l, Threads code stored l → Threads code stored' l → ∀ n ∈ l, stored[n]? = stored'[n]? := by
    intro l hl hl'
    induction l with
    | nil => exact fun n hn => absurd hn List.not_mem_nil
    | cons m l ih =>
      obtain ⟨⟨i, hi, -, hstored⟩, -, hl⟩ := hl
      obtain ⟨⟨j, hj, -, hstored'⟩, -, hl'⟩ := hl'
      intro n hn
      rcases List.mem_cons.mp hn with rfl | hn
      · rw [hi] at hj
        cases hj
        rw [hstored, hstored']
      · exact ih hl hl' n hn
  refine Array.ext_getElem? fun n => ?_
  by_cases hn : n ∈ lists.flatten
  · obtain ⟨l, hl, hn⟩ := List.mem_flatten.mp hn
    exact hthread l (h.threads l hl) (h'.threads l hl) n hn
  · rw [h.same n hn, h'.same n hn]

/-! ### What changes -/

variable {f : Instr → Instr} {i : Instr} {k : Int} {l₁ l₂ : JumpList} {a : Nat}

theorem modify (h : Threaded lists code stored) (hn : n ∉ lists.flatten) :
    Threaded lists (code.modify n f) (stored.modify n f) where
  size := by rw [Array.size_modify, Array.size_modify, h.size]
  apart := h.apart
  threads := by
    intro l hl
    refine (h.threads l hl).congr fun m hm => ?_
    have hne : n ≠ m := by
      rintro rfl
      exact hn (List.mem_flatten.mpr ⟨l, hl, hm⟩)
    rw [Array.getElem?_modify, if_neg hne, Array.getElem?_modify, if_neg hne]
    exact ⟨rfl, rfl⟩
  same := by
    intro m hm
    rw [Array.getElem?_modify, Array.getElem?_modify, h.same m hm]

theorem aim (h : Threaded ((n :: l) :: lists) code stored) :
    Threaded (l :: lists) (code.modify n (·.setSbx k)) (stored.modify n (·.setSbx k)) where
  size := by rw [Array.size_modify, Array.size_modify, h.size]
  apart := (List.nodup_cons.mp h.apart).2
  threads := by
    have hn : n ∉ (l :: lists).flatten := (List.nodup_cons.mp h.apart).1
    have hkeep : ∀ l' ∈ l :: lists, Threads code stored l' →
        Threads (code.modify n (·.setSbx k)) (stored.modify n (·.setSbx k)) l' := by
      intro l' hl' ht
      refine ht.congr fun m hm => ?_
      have hne : n ≠ m := by
        rintro rfl
        exact hn (List.mem_flatten.mpr ⟨l', hl', hm⟩)
      rw [Array.getElem?_modify, if_neg hne, Array.getElem?_modify, if_neg hne]
      exact ⟨rfl, rfl⟩
    intro l' hl'
    refine hkeep l' hl' ?_
    rcases List.mem_cons.mp hl' with rfl | hl'
    · exact (h.threads _ List.mem_cons_self).2.2
    · exact h.threads l' (List.mem_cons_of_mem _ hl')
  same := by
    intro m hm
    rw [Array.getElem?_modify, Array.getElem?_modify]
    by_cases hne : n = m
    · subst hne
      obtain ⟨⟨i, hcode, -, hstored⟩, -⟩ := h.threads _ List.mem_cons_self
      rw [if_pos rfl, if_pos rfl, hcode, hstored]
      rfl
    · rw [if_neg hne, if_neg hne]
      refine h.same m fun hmem => ?_
      rcases List.mem_cons.mp hmem with rfl | hmem
      · exact hne rfl
      · exact hm hmem

theorem setA (h : Threaded lists code stored) :
    Threaded lists (code.modify n (·.setA a)) (stored.modify n (·.setA a)) where
  size := by rw [Array.size_modify, Array.size_modify, h.size]
  apart := h.apart
  threads := by
    intro l hl
    have ht := h.threads l hl
    clear hl
    induction l with
    | nil => trivial
    | cons m l ih =>
      obtain ⟨⟨i, hcode, hlayout, hstored⟩, hreach, hl⟩ := ht
      refine ⟨?_, hreach, ih hl⟩
      rw [Array.getElem?_modify, Array.getElem?_modify, hcode, hstored]
      split
      · exact ⟨i.setA a, rfl, hlayout, rfl⟩
      · exact ⟨i, rfl, hlayout, rfl⟩
  same := by
    intro m hm
    rw [Array.getElem?_modify, Array.getElem?_modify, h.same m hm]

theorem push (h : Threaded lists code stored) : Threaded lists (code.push i) (stored.push i) where
  size := by rw [Array.size_push, Array.size_push, h.size]
  apart := h.apart
  threads := by
    intro l hl
    refine (h.threads l hl).congr fun m hm => ?_
    have hlt := h.lt_size (List.mem_flatten.mpr ⟨l, hl, hm⟩)
    have hlt' := h.size ▸ hlt
    rw [Array.getElem?_push, if_neg (Nat.ne_of_lt hlt'), Array.getElem?_push, if_neg (Nat.ne_of_lt hlt)]
    exact ⟨rfl, rfl⟩
  same := by
    intro m hm
    rw [Array.getElem?_push, Array.getElem?_push, h.size, h.same m hm]

theorem pushJump (h : Threaded lists code stored) (hlayout : i.opcode.layout = .asbx) (hi : i.setSbx (-1) = i) :
    Threaded ([code.size] :: lists) (code.push i) (stored.push i) where
  size := h.push.size
  apart := by
    refine List.nodup_cons.mpr ⟨fun hmem => ?_, h.apart⟩
    have hlt := h.lt_size hmem
    rw [h.size] at hlt
    exact Nat.lt_irrefl _ hlt
  threads := by
    intro l hl
    rcases List.mem_cons.mp hl with rfl | hl
    · refine ⟨⟨i, Array.getElem?_push_size, hlayout, ?_⟩, fun m hm => ?_, trivial⟩
      · rw [← h.size, Array.getElem?_push_size]
        exact congrArg some hi.symm
      · cases hm
    · exact h.push.threads l hl
  same := fun m hm => h.push.same m fun hmem => hm (List.mem_cons_of_mem _ hmem)

theorem pop (h : Threaded lists code stored) (hlast : code.size - 1 ∉ lists.flatten) :
    Threaded lists code.pop stored.pop where
  size := by rw [Array.size_pop, Array.size_pop, h.size]
  apart := h.apart
  threads := by
    intro l hl
    refine (h.threads l hl).congr fun m hm => ?_
    have hmem : m ∈ lists.flatten := List.mem_flatten.mpr ⟨l, hl, hm⟩
    have hlt := h.lt_size hmem
    rw [h.size] at hlt
    have hne : m ≠ code.size - 1 := fun he => hlast (he ▸ hmem)
    rw [Array.getElem?_pop, Array.getElem?_pop, h.size, if_pos (by omega), if_pos (by omega)]
    exact ⟨rfl, rfl⟩
  same := by
    intro m hm
    rw [Array.getElem?_pop, Array.getElem?_pop, h.size, h.same m hm]

theorem join {last first : Nat} (h : Threaded (l₁ :: l₂ :: lists) code stored) (hlast : l₁.getLast? = some last)
    (hfirst : l₂.head? = some first) (hreach : Compile.reaches last first = true) :
    Threaded ((l₁ ++ l₂) :: lists) code (stored.modify last (·.setSbx (thread last (some first)))) where
  size := by rw [Array.size_modify, h.size]
  apart := by
    have hapart := h.apart
    rw [List.flatten_cons, List.flatten_cons, ← List.append_assoc] at hapart
    exact hapart
  threads := by
    have hapart := h.apart
    rw [List.flatten_cons, List.nodup_append] at hapart
    have hmem : last ∉ (l₂ :: lists).flatten := fun hmem =>
      hapart.2.2 last (List.mem_of_getLast? hlast) last hmem rfl
    intro l hl
    rcases List.mem_cons.mp hl with rfl | hl
    · refine (h.threads l₁ List.mem_cons_self).append (h.threads l₂ (List.mem_cons_of_mem _ List.mem_cons_self))
        hapart.1 (fun hl2 => hmem (List.mem_append_left _ hl2)) hlast hfirst hreach
    · refine (h.threads l (List.mem_cons_of_mem _ (List.mem_cons_of_mem _ hl))).congr fun m hm => ⟨rfl, ?_⟩
      rw [Array.getElem?_modify, if_neg]
      rintro rfl
      exact hmem (List.mem_append_right _ (List.mem_flatten.mpr ⟨l, hl, hm⟩))
  same := by
    intro m hm
    rw [List.flatten_cons, List.append_assoc] at hm
    rw [Array.getElem?_modify, if_neg]
    · exact h.same m hm
    · rintro rfl
      exact hm (List.mem_append_left _ (List.mem_of_getLast? hlast))

end Threaded

/-! ## 3. Working on stored lists -/

def Draft.withCode (d : Draft) (code : Array Instr) : Draft := { d with code := code }

def Compiler.withCode (s : Compiler) (code : Array Instr) : Compiler := { s with fn := s.fn.withCode code }

namespace Compile

variable {α β : Type} {x : Compile α} {f : α → Compile β} {s t : Compiler} {a : α} {e : CompileError}

theorem run_bind (h : x s = .ok (a, t)) : (x >>= f) s = f a t := by
  show (x s >>= fun v => f v.1 v.2) = f a t
  rw [h]
  rfl

theorem run_bind_error (h : x s = .error e) : (x >>= f) s = .error e := by
  show (x s >>= fun v => f v.1 v.2) = .error e
  rw [h]
  rfl

theorem run_discard (h : x s = .ok (a, t)) : discard x s = .ok ((), t) := by
  show (x s >>= fun v => Except.ok ((), v.2)) = .ok ((), t)
  rw [h]
  rfl

def tooLong (s : Compiler) : CompileError := ⟨.jumpTooLong, s.chunk, s.current.line, some s.current.near⟩

variable {d : Draft} {node reg dest n : Nat}

def settled (d : Draft) (node reg : Nat) : Array Instr :=
  if controlledByTestSet d node then
    d.code.modify (controlOf d node) fun i =>
      if reg ≠ noRegister ∧ reg ≠ i.b.val then i.setA reg else Instr.ofABC .test i.b.val 0 i.c.val
  else d.code

def aimed (d : Draft) (node reg dest : Nat) : Array Instr :=
  (settled d node reg).modify node (·.setSbx ((dest : Int) - (node + 1)))

def targetOf (d : Draft) (valueTarget plainTarget node : Nat) : Nat :=
  if controlledByTestSet d node then valueTarget else plainTarget

/-! ### One jump -/

theorem run_aimTest (node reg : Nat) :
    aimTest node reg s = .ok (controlledByTestSet s.fn node, s.withCode (settled s.fn node reg)) := by
  unfold aimTest settled
  refine (run_bind (t := s) rfl).trans ?_
  by_cases hc : controlledByTestSet s.fn node = true
  · simp only [hc, if_true]
    rfl
  · simp only [hc]
    rfl

theorem run_fixJump (node dest : Nat) :
    fixJump node dest s =
      if reaches node dest then .ok ((), s.withCode (s.fn.code.modify node (·.setSbx ((dest : Int) - (node + 1)))))
      else .error (tooLong s) := by
  unfold fixJump
  split <;> rfl

theorem run_aim {valueTarget plainTarget : Nat} {k : Unit → Compile β} :
    (aimTest node reg >>= fun b =>
      if b = true then fixJump node valueTarget >>= k else fixJump node plainTarget >>= k) s =
    if reaches node (targetOf s.fn valueTarget plainTarget node) then
      k () (s.withCode (aimed s.fn node reg (targetOf s.fn valueTarget plainTarget node)))
    else .error (tooLong s) := by
  have hfix : ∀ (c : Array Instr) (dest : Nat), (fixJump node dest >>= k) (s.withCode c) =
      if reaches node dest then
        k () (s.withCode (c.modify node (·.setSbx ((dest : Int) - (node + 1)))))
      else .error (tooLong s) := by
    intro c dest
    have hrun := run_fixJump (s := s.withCode c) node dest
    split at hrun
    · next hr => rw [if_pos hr, run_bind hrun]; rfl
    · next hr => rw [if_neg hr, run_bind_error hrun]; rfl
  rw [run_bind (run_aimTest node reg)]
  unfold targetOf aimed
  split
  · next hc => exact hfix ..
  · next hc => exact hfix ..

theorem run_aimJumps (valueTarget reg plainTarget node : Nat) (rest : JumpList) :
    aimJumps valueTarget reg plainTarget (node :: rest) s =
    if reaches node (targetOf s.fn valueTarget plainTarget node) then
      aimJumps valueTarget reg plainTarget rest
        (s.withCode (aimed s.fn node reg (targetOf s.fn valueTarget plainTarget node)))
    else .error (tooLong s) := run_aim

theorem run_dropValues (node : Nat) (rest : JumpList) :
    dropValues (node :: rest) s = dropValues rest (s.withCode (settled s.fn node noRegister)) :=
  run_bind (run_discard (run_aimTest node noRegister))

theorem run_patchOne (valueTarget reg plainTarget node : Nat) :
    Stored.patchOne valueTarget reg plainTarget node s =
    if reaches node (targetOf s.fn valueTarget plainTarget node) then
      .ok (s.fn.nextJump node, s.withCode (aimed s.fn node reg (targetOf s.fn valueTarget plainTarget node)))
    else .error (tooLong s) :=
  (run_bind (t := s) rfl).trans run_aim

/-! ### What aiming one jump changes -/

theorem settled_before (hj : d.JumpAt node) (hn : n + 1 ≠ node) : (settled d node reg)[n]? = d.code[n]? := by
  unfold settled
  split
  · next hc =>
    obtain ⟨hpos, hcontrol, -⟩ := control_of_testSet hj hc
    rw [Array.getElem?_modify, if_neg (by omega)]
  · rfl

theorem settled_other (hn : (d.instr n).opcode ≠ .testSet) : (settled d node reg)[n]? = d.code[n]? := by
  unfold settled
  split
  · next hc =>
    rw [Array.getElem?_modify, if_neg]
    rintro rfl
    exact hn (of_decide_eq_true hc)
  · rfl

theorem isTest_settled (n : Nat) :
    ((d.withCode (settled d node reg)).instr n).opcode.isTest = (d.instr n).opcode.isTest := by
  unfold settled
  split
  · next hc =>
    show ((d.mapInstr (controlOf d node) _).instr n).opcode.isTest = _
    rw [Draft.instr_mapInstr]
    split
    · next hn =>
      have hop : (d.instr n).opcode = .testSet := by
        rw [← hn.1]
        exact of_decide_eq_true hc
      rw [hop]
      split
      · rw [Instr.opcode_setA, hop]
      · rw [Instr.opcode_ofABC]
        rfl
    · rfl
  · rfl

theorem aimed_node (hj : d.JumpAt node) :
    (aimed d node reg dest)[node]? = d.code[node]?.map (·.setSbx ((dest : Int) - (node + 1))) := by
  unfold aimed
  rw [Array.getElem?_modify, if_pos rfl, settled_before hj (by omega)]

theorem aimed_other (hne : n ≠ node) (hn : (d.instr n).opcode ≠ .testSet) :
    (aimed d node reg dest)[n]? = d.code[n]? := by
  unfold aimed
  rw [Array.getElem?_modify, if_neg (Ne.symm hne), settled_other hn]

theorem opcode_aimed (n : Nat) : ((d.withCode (aimed d node reg dest)).instr n).opcode =
    ((d.withCode (settled d node reg)).instr n).opcode := by
  show (((d.withCode (settled d node reg)).mapInstr node _).instr n).opcode = _
  rw [Draft.instr_mapInstr]
  split <;> rfl

theorem controlled_aimed {m : Nat} (hj : d.JumpAt node) (hm : d.JumpAt m) (hne : m ≠ node) :
    controlledByTestSet (d.withCode (aimed d node reg dest)) m = controlledByTestSet d m := by
  have hget : ∀ n, (settled d node reg)[n]? = d.code[n]? →
      ((d.withCode (aimed d node reg dest)).instr n).opcode = (d.instr n).opcode := fun n hn => by
    rw [opcode_aimed, Draft.instr, Draft.instr, show (d.withCode (settled d node reg)).code[n]? = _ from hn]
  have hcontrol : controlOf (d.withCode (aimed d node reg dest)) m = controlOf d m := by
    unfold controlOf
    rw [opcode_aimed, isTest_settled]
  unfold controlledByTestSet
  rw [hcontrol]
  refine congrArg (fun op => decide (op = Op.testSet)) (hget _ ?_)
  unfold controlOf
  split
  · next h => exact settled_before hj (by omega)
  · refine settled_other fun hop => ?_
    obtain ⟨i, hi, hlayout⟩ := hm
    rw [Draft.instr_eq hi] at hop
    rw [hop] at hlayout
    cases hlayout

end Compile

/-! ### The same jump in both codes -/

namespace Threaded

open Compile

variable {lists : List JumpList} {d : Draft} {stored : Array Instr} {l : JumpList} {n reg dest : Nat}

theorem opcode (h : Threaded lists d.code stored) (n : Nat) :
    ((d.withCode stored).instr n).opcode = (d.instr n).opcode := by
  by_cases hn : n ∈ lists.flatten
  · obtain ⟨i, k, hi, -, hstored⟩ := h.jumpAt hn
    rw [Draft.instr_eq hi, Draft.instr_eq (d := d.withCode stored) hstored]
    rfl
  · rw [Draft.instr, Draft.instr, show (d.withCode stored).code[n]? = _ from h.same n hn]

theorem controlOf (h : Threaded lists d.code stored) (n : Nat) :
    Compile.controlOf (d.withCode stored) n = Compile.controlOf d n := by
  unfold Compile.controlOf
  rw [h.opcode]

theorem controlled (h : Threaded lists d.code stored) (n : Nat) :
    controlledByTestSet (d.withCode stored) n = controlledByTestSet d n := by
  unfold controlledByTestSet
  rw [h.controlOf, h.opcode]

theorem targetOf (h : Threaded lists d.code stored) (valueTarget plainTarget n : Nat) :
    Compile.targetOf (d.withCode stored) valueTarget plainTarget n = Compile.targetOf d valueTarget plainTarget n := by
  unfold Compile.targetOf
  rw [h.controlled]

theorem jumps (h : Threaded lists d.code stored) (hn : n ∈ lists.flatten) :
    d.JumpAt n ∧ (d.withCode stored).JumpAt n := by
  obtain ⟨i, k, hi, hlayout, hstored⟩ := h.jumpAt hn
  exact ⟨⟨i, hi, hlayout⟩, _, hstored, hlayout⟩

theorem settled (h : Threaded lists d.code stored) (n reg : Nat) :
    Threaded lists (Compile.settled d n reg) (Compile.settled (d.withCode stored) n reg) := by
  unfold Compile.settled
  rw [h.controlled, h.controlOf]
  split
  · next hc =>
    refine h.modify fun hmem => ?_
    obtain ⟨i, hi, hlayout⟩ := (h.jumps hmem).1
    have hop : i.opcode = .testSet := by
      rw [← Draft.instr_eq hi]
      exact of_decide_eq_true hc
    rw [hop] at hlayout
    cases hlayout
  · exact h

theorem aimed (h : Threaded ((n :: l) :: lists) d.code stored) (reg dest : Nat) :
    Threaded (l :: lists) (Compile.aimed d n reg dest) (Compile.aimed (d.withCode stored) n reg dest) :=
  (h.settled n reg).aim

theorem forget {code : Array Instr} (h : Threaded ([] :: lists) code stored) : Threaded lists code stored :=
  ⟨h.size, h.apart, fun l hl => h.threads l (List.mem_cons_of_mem _ hl), h.same⟩

end Threaded

/-! ## 4. Stored lists are worked on as lists -/

namespace Threaded

open Compile

variable {lists : List JumpList} {stored : Array Instr} {s : Compiler} {l l₁ l₂ : JumpList}

/-- What joining two stored lists does. It gives the jumps of the first and then those of the second, and changes
    nothing but the last jump of the first; or the last jump does not reach so far, and joining the lists fails as
    well. -/
def Joins (s : Compiler) (stored : Array Instr) (l₁ l₂ : JumpList) (others : List JumpList) : Prop :=
  match joinJumps l₁ l₂ s with
  | .ok (l, s') => s' = s ∧ l = l₁ ++ l₂ ∧ ∃ stored', Threaded ((l₁ ++ l₂) :: others) s.fn.code stored' ∧
      Stored.concat l₁.head? l₂.head? (s.withCode stored) = .ok ((l₁ ++ l₂).head?, s.withCode stored') ∧
      ∀ n, l₁.getLast? ≠ some n → stored'[n]? = stored[n]?
  | .error e => e = tooLong s ∧ Stored.concat l₁.head? l₂.head? (s.withCode stored) = .error e

/-- **Joining two stored lists ends**, and does what joining the lists does. -/
theorem concat_joins (h : Threaded (l₁ :: l₂ :: lists) s.fn.code stored) : Joins s stored l₁ l₂ lists := by
  unfold Joins
  cases l₂ with
  | nil =>
    have hjoin : joinJumps l₁ [] s = .ok (l₁, s) := by
      unfold joinJumps
      cases l₁.getLast? <;> rfl
    rw [hjoin, List.append_nil]
    refine ⟨rfl, rfl, stored, ⟨h.size, ?_, ?_, ?_⟩, ?_, fun _ _ => rfl⟩
    · exact h.apart
    · intro l hl
      rcases List.mem_cons.mp hl with rfl | hl
      · exact h.threads l List.mem_cons_self
      · exact h.threads l (List.mem_cons_of_mem _ (List.mem_cons_of_mem _ hl))
    · exact h.same
    · cases l₁ <;> rfl
  | cons first l₂ =>
    cases l₁ with
    | nil => exact ⟨rfl, rfl, stored, h.forget, rfl, fun _ _ => rfl⟩
    | cons head l₁ =>
      obtain ⟨last, hlast⟩ : ∃ last, (head :: l₁).getLast? = some last :=
        ⟨_, List.getLast?_eq_getLast_of_ne_nil (List.cons_ne_nil _ _)⟩
      have hfound : (s.withCode stored).fn.lastJump? (s.withCode stored).fn.code.size head = some last := by
        rw [← hlast]
        exact (h.threads _ List.mem_cons_self).lastJump? (d := s.fn.withCode stored) (h.nodup List.mem_cons_self)
          (h.length_le List.mem_cons_self)
      have hrun : Stored.concat (some head) (some first) (s.withCode stored) =
          (fixJump last first >>= fun _ => pure (some head)) (s.withCode stored) := by
        refine (run_bind (t := s.withCode stored) rfl).trans ?_
        dsimp only
        rw [hfound]
      have hfix := run_fixJump (s := s.withCode stored) last first
      have hjoin : joinJumps (head :: l₁) (first :: l₂) s =
          if reaches last first then .ok (head :: l₁ ++ first :: l₂, s) else .error (tooLong s) := by
        unfold joinJumps
        rw [hlast]
        show (if reaches last first = true then _ else _ : Compile JumpList) s = _
        split <;> rfl
      rw [hjoin]
      split at hfix
      · next hreach =>
        rw [if_pos hreach]
        refine ⟨rfl, rfl, _, h.join hlast rfl hreach, hrun.trans ((run_bind hfix).trans rfl), fun n hn => ?_⟩
        rw [Array.getElem?_modify, if_neg]
        rintro rfl
        exact hn hlast
      · next hreach =>
        rw [if_neg hreach]
        exact ⟨rfl, hrun.trans (run_bind_error hfix)⟩

/-- What aiming the jumps of a list leaves: each jump goes where its test sends it, and nothing else is changed
    but TESTSETs. -/
structure Aims (valueTarget plainTarget : Nat) (l : JumpList) (d d' : Draft) : Prop where
  target : ∀ n ∈ l, d'.code[n]? =
    d.code[n]?.map (·.setSbx ((Compile.targetOf d valueTarget plainTarget n : Int) - (n + 1)))
  other : ∀ n, n ∉ l → (d.instr n).opcode ≠ .testSet → d'.code[n]? = d.code[n]?

theorem Aims.cons {d d' : Draft} {valueTarget plainTarget n : Nat} (reg : Nat) (hj : d.JumpAt n) (hn : n ∉ l)
    (hl : ∀ m ∈ l, d.JumpAt m)
    (h : Aims valueTarget plainTarget l
      (d.withCode (Compile.aimed d n reg (Compile.targetOf d valueTarget plainTarget n))) d') :
    Aims valueTarget plainTarget (n :: l) d d' where
  target := by
    have hplain : ∀ m, d.JumpAt m → (d.instr m).opcode ≠ .testSet := by
      rintro m ⟨i, hi, hlayout⟩ hop
      rw [Draft.instr_eq hi] at hop
      rw [hop] at hlayout
      cases hlayout
    intro m hm
    rcases List.mem_cons.mp hm with rfl | hm
    · rw [h.other m hn]
      · exact aimed_node hj
      · have hget : (d.withCode (Compile.settled d m reg)).code[m]? = d.code[m]? := settled_before hj (by omega)
        rw [opcode_aimed, Draft.instr_congr hget]
        exact hplain m hj
    · have hne : m ≠ n := fun he => hn (he ▸ hm)
      have hget : (d.withCode (Compile.aimed d n reg (Compile.targetOf d valueTarget plainTarget n))).code[m]? =
          d.code[m]? := aimed_other hne (hplain m (hl m hm))
      rw [h.target m hm, Compile.targetOf, controlled_aimed hj (hl m hm) hne, hget]
      rfl
  other := by
    intro m hm hop
    have hne : m ≠ n := fun he => hm (he ▸ List.mem_cons_self)
    have hget : (d.withCode (Compile.aimed d n reg (Compile.targetOf d valueTarget plainTarget n))).code[m]? =
        d.code[m]? := aimed_other hne hop
    rw [h.other m (fun hmem => hm (List.mem_cons_of_mem _ hmem)) (Draft.instr_congr hget ▸ hop), hget]

theorem walk_none {visit : Nat → Compile (Option Nat)} {fuel : Nat} : Stored.walk visit fuel none = pure [] := by
  cases fuel <;> rfl

theorem walk_patches {valueTarget reg plainTarget fuel : Nat} (h : Threaded (l :: lists) s.fn.code stored)
    (hfuel : l.length ≤ fuel) :
    match aimJumps valueTarget reg plainTarget l s with
    | .ok (_, s') => s' = s.withCode s'.fn.code ∧ ∃ stored', Threaded lists s'.fn.code stored' ∧
        Stored.walk (Stored.patchOne valueTarget reg plainTarget) fuel l.head? (s.withCode stored) =
          .ok (l, s.withCode stored') ∧
        Aims valueTarget plainTarget l (s.fn.withCode stored) (s.fn.withCode stored')
    | .error e => e = tooLong s ∧
      Stored.walk (Stored.patchOne valueTarget reg plainTarget) fuel l.head? (s.withCode stored) = .error e := by
  induction l generalizing s stored fuel with
  | nil =>
    refine ⟨rfl, stored, h.forget, ?_, ⟨fun n hn => absurd hn List.not_mem_nil, fun _ _ _ => rfl⟩⟩
    rw [List.head?_nil, walk_none]
    rfl
  | cons n l ih =>
    obtain ⟨fuel, rfl⟩ : ∃ k, fuel = k + 1 := ⟨fuel - 1, by simp only [List.length_cons] at hfuel; omega⟩
    obtain ⟨hn, hl⟩ := List.nodup_cons.mp (h.nodup List.mem_cons_self)
    have hnext : (s.fn.withCode stored).nextJump n = l.head? := (h.threads _ List.mem_cons_self).nextJump hn
    have hmem : ∀ m ∈ n :: l, m ∈ ((n :: l) :: lists).flatten := fun m hm => List.mem_append_left _ hm
    have hone := run_patchOne (s := s.withCode stored) valueTarget reg plainTarget n
    rw [show (s.withCode stored).fn = s.fn.withCode stored from rfl, h.targetOf, hnext] at hone
    rw [run_aimJumps]
    split at hone
    · next hreach =>
      rw [if_pos hreach]
      have hrest := @ih _ (s.withCode (Compile.aimed s.fn n reg (Compile.targetOf s.fn valueTarget plainTarget n)))
        fuel (h.aimed reg _) (Nat.le_of_succ_le_succ hfuel)
      split at hrest
      · next s' _ =>
        obtain ⟨hs', stored', hthreaded, hwalk, haims⟩ := hrest
        refine ⟨hs', stored', hthreaded, ?_, ?_⟩
        · exact (run_bind hone).trans ((run_bind hwalk).trans rfl)
        · refine .cons reg (h.jumps (hmem n List.mem_cons_self)).2 hn
            (fun m hm => (h.jumps (hmem m (List.mem_cons_of_mem _ hm))).2) ?_
          rw [h.targetOf]
          exact haims
      · exact ⟨hrest.1, (run_bind hone).trans (run_bind_error hrest.2)⟩
    · next hreach =>
      rw [if_neg hreach]
      exact ⟨rfl, run_bind_error hone⟩

/-- What aiming a stored list does. It visits the jumps of the list, each once, and aims each where its test sends
    it; it changes no other jump. Or one of them does not reach so far, and aiming the list fails as well. -/
def Patches (s : Compiler) (stored : Array Instr) (l : JumpList) (others : List JumpList)
    (valueTarget reg plainTarget : Nat) : Prop :=
  match aimJumps valueTarget reg plainTarget l s with
  | .ok (_, s') => s' = s.withCode s'.fn.code ∧ ∃ stored', Threaded others s'.fn.code stored' ∧
      Stored.patch valueTarget reg plainTarget l.head? (s.withCode stored) = .ok (l, s.withCode stored') ∧
      Aims valueTarget plainTarget l (s.fn.withCode stored) (s.fn.withCode stored')
  | .error e => e = tooLong s ∧ Stored.patch valueTarget reg plainTarget l.head? (s.withCode stored) = .error e

/-- **Aiming a stored list ends**, and does what aiming the list does. -/
theorem patch_aims (h : Threaded (l :: lists) s.fn.code stored) (valueTarget reg plainTarget : Nat) :
    Patches s stored l lists valueTarget reg plainTarget :=
  h.walk_patches (h.length_le List.mem_cons_self)

/-! ### Jumps that stay in their list -/

section

variable {front : JumpList} {n fuel : Nat}

theorem nextJump {d : Draft} (h : Threaded lists d.code stored) (hl : front ++ n :: l ∈ lists) :
    (d.withCode stored).nextJump n = l.head? := by
  have hnodup := (List.nodup_append.mp (h.nodup hl)).2.1
  exact (h.threads _ hl).suffix.nextJump (d := d.withCode stored) (List.nodup_cons.mp hnodup).1

theorem walk_drops (h : Threaded lists s.fn.code stored) (hl : front ++ l ∈ lists) (hfuel : l.length ≤ fuel) :
    ∃ code stored', Compile.dropValues l s = .ok ((), s.withCode code) ∧ Threaded lists code stored' ∧
      Stored.walk Stored.dropOne fuel l.head? (s.withCode stored) = .ok (l, s.withCode stored') := by
  induction l generalizing s stored front fuel with
  | nil => exact ⟨_, stored, rfl, h, congrFun walk_none _⟩
  | cons n l ih =>
    obtain ⟨fuel, rfl⟩ : ∃ k, fuel = k + 1 := ⟨fuel - 1, by simp only [List.length_cons] at hfuel; omega⟩
    have hsettled := h.settled n noRegister
    have hone : Stored.dropOne n (s.withCode stored) =
        .ok (l.head?, s.withCode (Compile.settled (s.fn.withCode stored) n noRegister)) := by
      have hnext : (s.fn.withCode (Compile.settled (s.fn.withCode stored) n noRegister)).nextJump n = l.head? :=
        Threaded.nextJump (d := s.fn.withCode (Compile.settled s.fn n noRegister)) hsettled hl
      rw [← hnext]
      exact (run_bind (run_discard (run_aimTest n noRegister))).trans rfl
    have hl' : (front ++ [n]) ++ l ∈ lists := by rwa [List.append_assoc]
    obtain ⟨code, stored', hdrop, hthreaded, hwalk⟩ :=
      @ih _ (s.withCode (Compile.settled s.fn n noRegister)) _ fuel hsettled hl' (Nat.le_of_succ_le_succ hfuel)
    exact ⟨code, stored', (run_dropValues n l).trans hdrop, hthreaded,
      (run_bind hone).trans ((run_bind hwalk).trans rfl)⟩

/-- **Taking the values from a stored list** visits its jumps and does what taking them from the list does. -/
theorem dropValues_settles (h : Threaded lists s.fn.code stored) (hl : l ∈ lists) :
    ∃ code stored', Compile.dropValues l s = .ok ((), s.withCode code) ∧ Threaded lists code stored' ∧
      Stored.dropValues l.head? (s.withCode stored) = .ok (l, s.withCode stored') :=
  h.walk_drops (show [] ++ l ∈ lists from hl) (h.length_le hl)

theorem walk_closes {level : Nat} (h : Threaded lists s.fn.code stored) (hl : front ++ l ∈ lists)
    (hfuel : l.length ≤ fuel) :
    ∃ code stored', Compile.closeOnJump l level s = .ok ((), s.withCode code) ∧ Threaded lists code stored' ∧
      Stored.walk (Stored.closeOne level) fuel l.head? (s.withCode stored) = .ok (l, s.withCode stored') := by
  induction l generalizing s stored front fuel with
  | nil => exact ⟨_, stored, rfl, h, congrFun walk_none _⟩
  | cons n l ih =>
    obtain ⟨fuel, rfl⟩ : ∃ k, fuel = k + 1 := ⟨fuel - 1, by simp only [List.length_cons] at hfuel; omega⟩
    have hone : Stored.closeOne level n (s.withCode stored) =
        .ok (l.head?, s.withCode (stored.modify n (·.setA (level + 1)))) := by
      rw [← h.nextJump hl]
      rfl
    have hl' : (front ++ [n]) ++ l ∈ lists := by rwa [List.append_assoc]
    obtain ⟨code, stored', hclose, hthreaded, hwalk⟩ :=
      @ih _ (s.withCode (s.fn.code.modify n (·.setA (level + 1)))) _ fuel h.setA hl' (Nat.le_of_succ_le_succ hfuel)
    exact ⟨code, stored', hclose, hthreaded, (run_bind hone).trans ((run_bind hwalk).trans rfl)⟩

/-- **Letting a stored list close locals** visits its jumps and does what it does to the list. -/
theorem closeOnJump_closes {level : Nat} (h : Threaded lists s.fn.code stored) (hl : l ∈ lists) :
    ∃ code stored', Compile.closeOnJump l level s = .ok ((), s.withCode code) ∧ Threaded lists code stored' ∧
      Stored.closeOnJump l.head? level (s.withCode stored) = .ok (l, s.withCode stored') :=
  h.walk_closes (show [] ++ l ∈ lists from hl) (h.length_le hl)

end

end Threaded

end LuaMachine
