/-
  LISTS OF JUMPS ARE FAITHFUL. Whatever a compilation does, the jumps that wait in a function can be kept in
  lists that are stored in the jumps themselves: they are read back, joined and aimed as what they are, and
  no list disturbs another.

  * `Grammar.jump_lists_faithful` -- **all of it, for statements and expressions at any depth**.
-/
import LuaMachine.Proofs.Jumps.Statement

namespace LuaMachine

/-- The lists that wait in code are faithful where they are stored in their jumps. -/
structure Unaimed.Faithful (u : Unaimed) : Prop where
  /-- There is one way to store them. -/
  stored : ∃! stored, Threaded u.lists u.code stored
  /-- No two of them share a jump. -/
  apart : u.lists.Pairwise List.Disjoint
  /-- Each of them is what is read from its first jump; it ends, and comes to no jump twice. -/
  read : ∀ (d : Draft) (l : JumpList), Threaded u.lists u.code d.code → l ∈ u.lists →
    l.Nodup ∧ ∀ l', d.Chain l.head? l' ↔ l' = l
  /-- Any two of them are joined as lists are. -/
  joins : ∀ (s : Compiler) (stored : Array Instr) (l₁ l₂ : JumpList) (others : List JumpList), s.fn.code = u.code →
    Threaded u.lists u.code stored → SameLists u.lists (l₁ :: l₂ :: others) → Threaded.Joins s stored l₁ l₂ others
  /-- Each of them is aimed as a list is. -/
  patches : ∀ (s : Compiler) (stored : Array Instr) (l : JumpList) (others : List JumpList)
    (valueTarget reg plainTarget : Nat), s.fn.code = u.code → Threaded u.lists u.code stored →
    SameLists u.lists (l :: others) → Threaded.Patches s stored l others valueTarget reg plainTarget

theorem Unaimed.Reachable.faithful {u : Unaimed} (h : u.Reachable) : u.Faithful where
  stored := by
    obtain ⟨stored, hstored⟩ := h.threaded
    exact ⟨stored, hstored, fun _ h' => h'.unique hstored⟩
  apart := by
    obtain ⟨_, hstored⟩ := h.threaded
    exact hstored.not_shared
  read := by
    intro d l hd hl
    obtain ⟨hchain, hnodup⟩ := hd.chain hl
    refine ⟨hnodup, fun l' => ⟨fun h' => h'.unique hchain, ?_⟩⟩
    rintro rfl
    exact hchain
  joins := by
    intro s stored l1 l2 others hcode hstored hheld
    rw [← hcode] at hstored
    exact (hheld.threaded hstored).concat_joins
  patches := by
    intro s stored l others valueTarget reg plainTarget hcode hstored hheld
    rw [← hcode] at hstored
    exact (hheld.threaded hstored).patch_aims valueTarget reg plainTarget

theorem Draft.reachable_new (line : Nat) : (Draft.new line).unaimed.Reachable :=
  .single (.regroup (show SameLists [] [[]] by grind))

/-- Steps lead from the code of the innermost function, with what waits in its draft and these lists, to its code
    later on, with what waits there then and those lists. What waits in the functions around it stays. -/
structure Compiler.Passes (s s' : Compiler) (lists lists' : List JumpList) : Prop where
  steps : (s.fn.unaimed.beside lists).Steps (s'.fn.unaimed.beside lists')
  outer : s'.outer.map Draft.unaimed = s.outer.map Draft.unaimed

theorem Compile.Courses.passes {α : Type} {x : Compile α} {lists : List JumpList} {give : α → List JumpList}
    {Q : α → Draft → Prop} {s s' : Compiler} {a : α} (h : Courses x s.drafts lists give Q) (hrun : x s = .ok (a, s'))
    (more : List JumpList) : s.Passes s' (lists ++ more) (give a ++ more) := by
  obtain ⟨houter, hsteps, -⟩ := h s a s' rfl hrun
  exact ⟨hsteps more, houter⟩

/-- **Lists of jumps are faithful.** Whatever steps lead to from a function that begins, its lists can be stored in
    their jumps in one way, are read from there, and are joined and aimed there as lists. A compilation goes by
    such steps: over a statement; over an expression, which then holds its lists; over a condition, with the jumps
    taken when it is false; over a branch, with the jumps that leave its statement; and over the main function. All
    other lists stay, whatever they are, and so does what waits in the functions around. -/
theorem Grammar.jump_lists_faithful (bound level : Nat) :
    (∀ u : Unaimed, u.Reachable → u.Faithful) ∧
    (∀ line, (Draft.new line).unaimed.Reachable) ∧
    (∀ s s' lists, (ofLevels Compile.named bound level).statement s = .ok ((), s') → s.Passes s' lists lists) ∧
    (∀ limit s r s' lists, (ofLevels Compile.named bound level).subexpr limit s = .ok (r, s') →
      s.Passes s' lists (r.1.lists ++ lists)) ∧
    (∀ s l s' lists, (ofLevels Compile.named bound level).condition s = .ok (l, s') → s.Passes s' lists (l :: lists)) ∧
    (∀ leaving s l s' lists, (ofLevels Compile.named bound level).branch leaving s = .ok (l, s') →
      s.Passes s' (leaving :: lists) (l :: lists)) ∧
    (∀ s s' lists, (ofLevels Compile.named bound level).mainFunction s = .ok ((), s') → s.Passes s' lists lists) := by
  have hg := faithful_ofLevels bound level
  refine ⟨fun _ h => h.faithful, Draft.reachable_new, ?_, ?_, ?_, ?_, ?_⟩
  · exact fun s s' lists hrun => (hg.statement s.drafts).passes hrun lists
  · exact fun limit s r s' lists hrun => (hg.subexpr limit s.drafts).passes hrun lists
  · exact fun s l s' lists hrun => hg.condition.passes hrun lists
  · exact fun leaving s l s' lists hrun => (hg.branch leaving).passes hrun lists
  · exact fun s s' lists hrun => (hg.mainFunction s.drafts).passes hrun lists

/-- A state of the compiler in front of `... or ... or ...` at the end of a source. -/
def Compiler.beforeOr : Compiler where
  current := ⟨.symbol .dots, 1, 0, []⟩
  ahead := [.keyword .or, .symbol .dots, .keyword .or, .symbol .dots, .eof].map fun t => ⟨t, 1, 0, []⟩
  fault := none
  lastLine := 1
  chunk := ""
  source := []
  fn := { Draft.new 0 with isVararg := true }
  outer := []

theorem Grammar.jump_lists_faithful_or : ∃ r s' stored,
    (ofLevels Compile.named 8 4).subexpr 0 Compiler.beforeOr = .ok (r, s') ∧ r.1.onTrue = [2, 5] ∧
    Threaded (s'.fn.unaimed.beside r.1.lists).lists s'.fn.code stored ∧
    (s'.fn.withCode stored).Chain (some 2) [2, 5] := by
  obtain ⟨hreachable, hnew, -, hsubexpr, -⟩ := jump_lists_faithful 8 4
  have hruns : (match (ofLevels Compile.named 8 4).subexpr 0 Compiler.beforeOr with
      | .ok (r, _) => decide (r.1.onTrue = [2, 5])
      | .error _ => false) = true := by decide +kernel
  generalize hrun : (ofLevels Compile.named 8 4).subexpr 0 Compiler.beforeOr = out at hruns
  cases out with
  | error e => cases hruns
  | ok v =>
    obtain ⟨r, s'⟩ := v
    have hlist : r.1.onTrue = [2, 5] := of_decide_eq_true hruns
    have hsteps := (hsubexpr 0 _ r s' [] hrun).steps
    rw [List.append_nil] at hsteps
    have hfaithful := hreachable _ ((hnew 0).trans hsteps)
    obtain ⟨stored, hstored, -⟩ := hfaithful.stored
    refine ⟨r, s', stored, rfl, hlist, hstored, ?_⟩
    have hread := hfaithful.read (s'.fn.withCode stored) [2, 5] hstored
      (List.mem_append_right _ (by rw [Expr.lists, hlist]; simp))
    exact (hread.2 _).mpr rfl

end LuaMachine
