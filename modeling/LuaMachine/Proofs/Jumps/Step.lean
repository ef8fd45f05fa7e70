/-
  WHAT MAY BE DONE TO CODE WITH JUMPS THAT HAVE NO TARGET YET. A jump that is written is a list of its own;
  lists are joined, and leave when their jumps are aimed. Nothing else touches the distance of a jump. So
  the lists can be threaded through their jumps at any time.

  * `Unaimed.Step.threaded` -- **each step can be taken where the lists are stored in their jumps**.
-/
import Mathlib.Logic.Relation
import LuaMachine.Proofs.Jumps.Thread

namespace LuaMachine

open Operand (noRegister)

/-! ## 1. The same lists -/

@[grind] def SameLists (lists lists' : List JumpList) : Prop := ∀ l, l ≠ [] → lists.count l = lists'.count l

namespace SameLists

variable {lists lists' lists'' : List JumpList} {code stored : Array Instr}

theorem refl (lists : List JumpList) : SameLists lists lists := fun _ _ => rfl

theorem symm (h : SameLists lists lists') : SameLists lists' lists := fun l hl => (h l hl).symm

theorem trans (h : SameLists lists lists') (h' : SameLists lists' lists'') : SameLists lists lists'' := fun l hl =>
  (h l hl).trans (h' l hl)

theorem append_right (h : SameLists lists lists') (more : List JumpList) :
    SameLists (lists ++ more) (lists' ++ more) := by
  intro l hl
  rw [List.count_append, List.count_append, h l hl]

theorem cons (h : SameLists lists lists') (l : JumpList) : SameLists (l :: lists) (l :: lists') := by
  intro l' hl'
  rw [List.count_cons, List.count_cons, h l' hl']

theorem perm (h : SameLists lists lists') : lists.flatten.Perm lists'.flatten := by
  rw [← List.flatten_filter_not_isEmpty, ← List.flatten_filter_not_isEmpty (L := lists')]
  refine List.Perm.flatten (List.perm_iff_count.mpr fun l => ?_)
  by_cases hl : l = []
  · subst hl
    rw [List.count_eq_zero_of_not_mem, List.count_eq_zero_of_not_mem] <;> simp
  · rw [List.count_filter, List.count_filter, h l hl] <;> simp [hl]

theorem threaded (h : SameLists lists lists') (ht : Threaded lists code stored) : Threaded lists' code stored where
  size := ht.size
  apart := h.perm.nodup_iff.mp ht.apart
  threads := by
    intro l hl
    by_cases hnil : l = []
    · subst hnil
      trivial
    · refine ht.threads l (List.count_pos_iff.mp ?_)
      rw [h l hnil]
      exact List.count_pos_iff.mpr hl
  same := fun n hn => ht.same n fun hmem => hn (h.perm.mem_iff.mp hmem)

end SameLists

/-! ## 2. Steps -/

structure Unaimed where
  code : Array Instr
  lists : List JumpList

def Instr.Recoded (i j : Instr) : Prop :=
  (∃ a, j = i.setA a) ∨ (i.opcode.layout ≠ .asbx ∧ (j.opcode = i.opcode ∨ j.opcode = .tailCall))

namespace Unaimed

/-- One thing done to the code or to the lists of jumps. -/
inductive Step : Unaimed → Unaimed → Prop where
  /-- The lists are taken in another order. -/
  | regroup {code : Array Instr} {lists lists' : List JumpList} (h : SameLists lists lists') :
    Step ⟨code, lists⟩ ⟨code, lists'⟩
  /-- An instruction is written that does not jump. -/
  | write {code : Array Instr} {lists : List JumpList} {i : Instr} (h : i.opcode.layout ≠ .asbx) :
    Step ⟨code, lists⟩ ⟨code.push i, lists⟩
  /-- A jump is written, without a target. -/
  | writeJump {code : Array Instr} {lists : List JumpList} {op : Op} {a : Nat} (h : op.layout = .asbx) :
    Step ⟨code, lists⟩ ⟨code.push (Instr.ofAsBx op a (-1)), [code.size] :: lists⟩
  /-- Two lists are joined. -/
  | join {s : Compiler} {lists : List JumpList} {l₁ l₂ l : JumpList} (h : Compile.joinJumps l₁ l₂ s = .ok (l, s)) :
    Step ⟨s.fn.code, l₁ :: l₂ :: lists⟩ ⟨s.fn.code, l :: lists⟩
  /-- The jumps of a list are aimed, and wait no more. -/
  | aim {s s' : Compiler} {lists : List JumpList} {l : JumpList} {valueTarget reg plainTarget : Nat}
    (h : Compile.aimJumps valueTarget reg plainTarget l s = .ok ((), s')) :
    Step ⟨s.fn.code, l :: lists⟩ ⟨s'.fn.code, lists⟩
  /-- The jumps of a list yield no values. -/
  | dropValues {s s' : Compiler} {lists : List JumpList} {l : JumpList} (h : Compile.dropValues l s = .ok ((), s')) :
    Step ⟨s.fn.code, l :: lists⟩ ⟨s'.fn.code, l :: lists⟩
  /-- The jumps of a list close captured locals. -/
  | closeOnJump {s s' : Compiler} {lists : List JumpList} {l : JumpList} {level : Nat}
    (h : Compile.closeOnJump l level s = .ok ((), s')) :
    Step ⟨s.fn.code, l :: lists⟩ ⟨s'.fn.code, l :: lists⟩
  /-- An instruction is changed, not into another kind. -/
  | recode {code : Array Instr} {lists : List JumpList} {n : Nat} {f : Instr → Instr}
    (h : ∀ i, code[n]? = some i → i.Recoded (f i)) : Step ⟨code, lists⟩ ⟨code.modify n f, lists⟩
  /-- A NOT that has just been written is taken back. -/
  | takeBack {code : Array Instr} {lists : List JumpList} {i : Instr} (h : code[code.size - 1]? = some i)
    (hop : i.opcode = .not) : Step ⟨code, lists⟩ ⟨code.pop, lists⟩

abbrev Steps : Unaimed → Unaimed → Prop := Relation.ReflTransGen Step

def Reachable (u : Unaimed) : Prop := Steps ⟨#[], []⟩ u

/-! ## 3. Steps on stored lists -/

theorem Step.recoded {code stored : Array Instr} {lists : List JumpList} {n : Nat} {f : Instr → Instr}
    (h : ∀ i, code[n]? = some i → i.Recoded (f i)) (ht : Threaded lists code stored) :
    ∃ stored', Threaded lists (code.modify n f) stored' := by
  cases hi : code[n]? with
  | none =>
    have hsame : code.modify n f = code := by
      refine Array.ext_getElem? fun m => ?_
      rw [Array.getElem?_modify]
      split
      · next he => rw [← he, hi]; rfl
      · rfl
    exact ⟨stored, by rw [hsame]; exact ht⟩
  | some i =>
    rcases h i hi with ⟨a, ha⟩ | ⟨hlayout, -⟩
    · have hsame : code.modify n f = code.modify n (·.setA a) := by
        refine Array.ext_getElem? fun m => ?_
        rw [Array.getElem?_modify, Array.getElem?_modify]
        split
        · next he => rw [← he, hi, Option.map_some, Option.map_some, ha]
        · rfl
      exact ⟨_, by rw [hsame]; exact ht.setA⟩
    · exact ⟨_, ht.modify (ht.not_mem hi hlayout)⟩

/-- **A step can be taken where the lists are stored in their jumps.** -/
theorem Step.threaded {u u' : Unaimed} {stored : Array Instr} (h : Step u u') (ht : Threaded u.lists u.code stored) :
    ∃ stored', Threaded u'.lists u'.code stored' := by
  cases h with
  | regroup h => exact ⟨stored, h.threaded ht⟩
  | write h => exact ⟨_, ht.push⟩
  | writeJump h => exact ⟨_, ht.pushJump (by rwa [Instr.opcode_ofAsBx]) (Instr.setSbx_ofAsBx ..)⟩
  | join h =>
    have hjoin := ht.concat_joins
    rw [Threaded.Joins, h] at hjoin
    obtain ⟨-, rfl, stored', hthreaded, -⟩ := hjoin
    exact ⟨stored', hthreaded⟩
  | @aim s s' lists l valueTarget reg plainTarget h =>
    have haim := ht.patch_aims valueTarget reg plainTarget
    rw [Threaded.Patches, h] at haim
    obtain ⟨-, stored', hthreaded, -⟩ := haim
    exact ⟨stored', hthreaded⟩
  | dropValues h =>
    obtain ⟨code, stored', hdrop, hthreaded, -⟩ := ht.dropValues_settles List.mem_cons_self
    rw [h] at hdrop
    cases hdrop
    exact ⟨stored', hthreaded⟩
  | closeOnJump h =>
    obtain ⟨code, stored', hclose, hthreaded, -⟩ := ht.closeOnJump_closes List.mem_cons_self
    rw [h] at hclose
    cases hclose
    exact ⟨stored', hthreaded⟩
  | recode h => exact Step.recoded h ht
  | takeBack h hop =>
    refine ⟨_, ht.pop (ht.not_mem h ?_)⟩
    rw [hop]
    decide

theorem Steps.threaded {u u' : Unaimed} {stored : Array Instr} (h : Steps u u') (ht : Threaded u.lists u.code stored) :
    ∃ stored', Threaded u'.lists u'.code stored' := by
  induction h with
  | refl => exact ⟨stored, ht⟩
  | tail _ hstep ih =>
    obtain ⟨stored', ht'⟩ := ih
    exact hstep.threaded ht'

theorem Reachable.threaded {u : Unaimed} (h : u.Reachable) : ∃ stored, Threaded u.lists u.code stored :=
  Steps.threaded h ⟨rfl, List.nodup_nil, fun _ hl => absurd hl List.not_mem_nil, fun _ _ => rfl⟩

end Unaimed

/-! ## 4. What is no jump -/

def Calm (code : Array Instr) (n : Nat) : Prop :=
  ∃ i, code[n]? = some i ∧ i.opcode.layout ≠ .asbx ∧ i.opcode ≠ .not

namespace Calm

open Compile

variable {code : Array Instr} {n m : Nat} {f : Instr → Instr} {i : Instr}

theorem modify (h : Calm code m)
    (hf : ∀ i, code[n]? = some i → i.opcode.layout ≠ .asbx → i.opcode ≠ .not →
      (f i).opcode.layout ≠ .asbx ∧ (f i).opcode ≠ .not) : Calm (code.modify n f) m := by
  obtain ⟨i, hi, hlayout, hnot⟩ := h
  unfold Calm
  rw [Array.getElem?_modify]
  split
  · next he =>
    subst he
    rw [hi]
    exact ⟨f i, rfl, hf i hi hlayout hnot⟩
  · exact ⟨i, hi, hlayout, hnot⟩

theorem push (h : Calm code m) : Calm (code.push i) m := by
  obtain ⟨j, hj, hkind⟩ := h
  refine ⟨j, ?_, hkind⟩
  rw [Array.getElem?_push, if_neg (Nat.ne_of_lt (Array.getElem?_eq_some_iff.mp hj).1)]
  exact hj

theorem pop (h : Calm code m) (hlast : code[code.size - 1]? = some i) (hop : i.opcode = .not) : Calm code.pop m := by
  obtain ⟨j, hj, hlayout, hnot⟩ := h
  have hlt := (Array.getElem?_eq_some_iff.mp hj).1
  have hne : m ≠ code.size - 1 := by
    rintro rfl
    rw [hlast] at hj
    cases hj
    exact hnot hop
  refine ⟨j, ?_, hlayout, hnot⟩
  rw [Array.getElem?_pop, if_pos (by omega)]
  exact hj

theorem keep (h : Calm code m) (hf : ∀ i, (f i).opcode = i.opcode) : Calm (code.modify n f) m :=
  h.modify fun i _ hlayout hnot => by
    rw [hf i]
    exact ⟨hlayout, hnot⟩

theorem settled {d : Draft} (h : Calm d.code m) (node reg : Nat) : Calm (Compile.settled d node reg) m := by
  unfold Compile.settled
  split
  · refine h.modify fun i _ hlayout hnot => ?_
    split
    · exact ⟨hlayout, hnot⟩
    · rw [Instr.opcode_ofABC]
      decide
  · exact h

theorem aimed {d : Draft} (h : Calm d.code m) (node reg dest : Nat) : Calm (Compile.aimed d node reg dest) m :=
  (h.settled node reg).keep fun _ => rfl

theorem aimJumps {s s' : Compiler} {l : JumpList} {valueTarget reg plainTarget : Nat} (h : Calm s.fn.code m)
    (hrun : Compile.aimJumps valueTarget reg plainTarget l s = .ok ((), s')) : Calm s'.fn.code m := by
  induction l generalizing s with
  | nil =>
    obtain ⟨-, rfl⟩ := pure_ok hrun
    exact h
  | cons node l ih =>
    rw [run_aimJumps] at hrun
    split at hrun
    · exact @ih (s.withCode (Compile.aimed s.fn node reg (Compile.targetOf s.fn valueTarget plainTarget node)))
        (h.aimed node reg _) hrun
    · cases hrun

theorem dropValues {s s' : Compiler} {l : JumpList} (h : Calm s.fn.code m)
    (hrun : Compile.dropValues l s = .ok ((), s')) : Calm s'.fn.code m := by
  induction l generalizing s with
  | nil =>
    obtain ⟨-, rfl⟩ := pure_ok hrun
    exact h
  | cons node l ih =>
    rw [run_dropValues] at hrun
    exact @ih (s.withCode (Compile.settled s.fn node noRegister)) (h.settled node noRegister) hrun

theorem closeOnJump {d : Draft} {l : JumpList} {level : Nat} (h : Calm d.code m) :
    Calm (l.foldl (fun d node => d.mapInstr node (·.setA (level + 1))) d).code m := by
  induction l generalizing d with
  | nil => exact h
  | cons node l ih => exact ih (h.keep fun _ => rfl)

theorem step {u u' : Unaimed} (h : Calm u.code m) (hstep : u.Step u') : Calm u'.code m := by
  cases hstep with
  | regroup | join => exact h
  | write | writeJump => exact h.push
  | aim hrun => exact h.aimJumps hrun
  | dropValues hrun => exact h.dropValues hrun
  | closeOnJump hrun =>
    cases hrun
    exact h.closeOnJump
  | recode hf =>
    refine h.modify fun i hi hlayout hnot => ?_
    rcases hf i hi with ⟨a, ha⟩ | ⟨-, hop | hop⟩
    · rw [ha]
      exact ⟨hlayout, hnot⟩
    · rw [hop]
      exact ⟨hlayout, hnot⟩
    · rw [hop]
      decide
  | takeBack hlast hop => exact h.pop hlast hop

theorem steps {u u' : Unaimed} (h : Calm u.code m) (hsteps : u.Steps u') : Calm u'.code m := by
  induction hsteps with
  | refl => exact h
  | tail _ hstep ih => exact ih.step hstep

end Calm

end LuaMachine
