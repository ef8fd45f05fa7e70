/-
  CAPTURED VARIABLES. The cells that name a place of the stack are those that are entered for it, one for
  each place. A cell that has a value of its own never names a place again, and it begins with the value
  that the place had. What a function has left behind is closed when it ends.

  * `Machine.cellValue?` -- the value of a captured variable; `close_cellValue` -- **closing keeps it**;
  * `Machine.Settles`, `step_settles` -- **what a step does to the cells**;
  * `Machine.Shed`, `step_shed` -- **what functions that end leave behind**.
-/
import LuaMachine.Proofs.Machine.Footing
import LuaMachine.Proofs.Machine.Restore

namespace LuaMachine

namespace Machine

/-! ## 1. The value of a captured variable -/

def cellValue? (m : Machine) (c : Nat) : Option Value :=
  match m.cells[c]? with
  | some (.live s) => m.stack[s]?
  | some (.closed v) => some v
  | none => none

variable {m m' : Machine} {c s : Nat} {v : Value}

theorem cellValue?_live (h : m.cells[c]? = some (.live s)) : m.cellValue? c = m.stack[s]? := by
  unfold cellValue?
  rw [h]

theorem cellValue?_closed (h : m.cells[c]? = some (.closed v)) : m.cellValue? c = some v := by
  unfold cellValue?
  rw [h]

theorem readCell_eq (m : Machine) (c : Nat) : Exec.readCell c m = Exec.need (m.cellValue? c) m := by
  show EStateM.bind (Exec.need m.cells[c]?) _ m = _
  unfold cellValue?
  cases hc : m.cells[c]? with
  | none => rfl
  | some cell => cases cell <;> rfl

theorem Tidy.live_unique (hm : m.Tidy) {c' : Nat} (h : m.cells[c]? = some (.live s)) (h' : m.cells[c']? = some (.live s)) :
    c = c' := by
  have hc := (hm.live s c).mpr h
  have hc' := (hm.live s c').mpr h'
  have hsorted := hm.sorted
  generalize m.openCells = es at hc hc' hsorted
  induction es with
  | nil => cases hc
  | cons e es ih =>
    obtain ⟨hlt, hsorted⟩ := List.pairwise_cons.mp hsorted
    rcases List.mem_cons.mp hc with h1 | h1 <;> rcases List.mem_cons.mp hc' with h2 | h2
    · exact congrArg Prod.snd (h1.trans h2.symm)
    · exact absurd (hlt _ h2) (by rw [← h1]; exact Nat.lt_irrefl _)
    · exact absurd (hlt _ h1) (by rw [← h2]; exact Nat.lt_irrefl _)
    · exact ih h1 h2 hsorted

end Machine

namespace Exec

open Machine (cellValue?)

theorem closeFrom_cellValue (level : Nat) {es : List (Nat × Nat)} {m : Machine}
    (hsorted : es.Pairwise fun e e' => e'.1 < e.1) (hlive : ∀ e ∈ es, m.cells[e.2]? = some (.live e.1)) :
    Meets True (fun _ _ => False) (closeFrom level es) m fun _ m' =>
      m'.stack = m.stack ∧ ∀ c, m'.cellValue? c = m.cellValue? c := by
  induction es generalizing m with
  | nil => exact ⟨rfl, fun _ => rfl⟩
  | cons e es ih =>
    obtain ⟨slot, c⟩ := e
    obtain ⟨hlt, hsorted⟩ := List.pairwise_cons.mp hsorted
    obtain ⟨hc, hlive⟩ := List.forall_mem_cons.mp hlive
    unfold closeFrom
    split
    · exact ⟨rfl, fun _ => rfl⟩
    · refine Meets.read fun v hv => Meets.bind ?_
      -- the rest of the places is closed in a machine where this cell has its value
      have hother : ∀ d, d ≠ c → (m.cells.modify c fun _ => .closed v)[d]? = m.cells[d]? := fun d hd =>
        Array.getElem?_modify.trans (if_neg (Ne.symm hd))
      have hsame : ∀ d, { m with cells := m.cells.modify c fun _ => .closed v }.cellValue? d = m.cellValue? d := by
        intro d
        by_cases hd : d = c
        · subst hd
          have hclosed : (m.cells.modify d fun _ => .closed v)[d]? = some (.closed v) := by
            rw [Array.getElem?_modify, if_pos rfl, hc]
            rfl
          rw [Machine.cellValue?_live hc, hv]
          exact Machine.cellValue?_closed hclosed
        · unfold cellValue?
          rw [show ({ m with cells := m.cells.modify c fun _ => .closed v } : Machine).cells[d]? = m.cells[d]? from
            hother d hd]
      have hrest : ∀ e ∈ es, (m.cells.modify c fun _ => .closed v)[e.2]? = some (.live e.1) := fun e he => by
        have hne : e.2 ≠ c := fun heq => by
          have hsame := hlive e he
          rw [heq, hc] at hsame
          simp only [Option.some.injEq, Cell.live.injEq] at hsame
          have := hlt e he
          omega
        rw [hother _ hne]
        exact hlive e he
      show Meets True (fun _ _ => False) (closeFrom level es)
        { m with cells := m.cells.modify c fun _ => .closed v } _
      exact Meets.imp (ih (m := { m with cells := m.cells.modify c fun _ => .closed v }) hsorted hrest)
        (fun _ _ h => h) fun _ m' hrest => ⟨hrest.1, fun d => (hrest.2 d).trans (hsame d)⟩

/-- **Closing changes the value of no captured variable.** -/
theorem close_cellValue (level : Nat) {m : Machine} (hm : m.Tidy) :
    Meets True (fun _ _ => False) (close level) m fun _ m' =>
      m'.stack = m.stack ∧ ∀ c, m'.cellValue? c = m.cellValue? c := by
  refine Meets.get (Meets.bind (Meets.imp (closeFrom_cellValue level hm.sorted fun e he => (hm.live e.1 e.2).mp he)
    (fun _ _ h => h) fun es m' h => ?_))
  exact h

end Exec

namespace Machine

/-! ## 2. What happens to cells -/

structure Settles (m m' : Machine) : Prop where
  tidy : m'.Tidy
  closed : ∀ (c : Nat) (v : Value), m.cells[c]? = some (.closed v) → ∃ w, m'.cells[c]? = some (.closed w)
  live : ∀ c s : Nat, m.cells[c]? = some (.live s) → m'.cells[c]? = some (.live s) ∨
    ∃ v, m.stack[s]? = some v ∧ m'.cells[c]? = some (.closed v)

def Opens (m m' : Machine) : Prop :=
  m.Tidy → m'.Tidy ∧ (∀ (c : Nat) (v : Value), m.cells[c]? = some (.closed v) → ∃ w, m'.cells[c]? = some (.closed w)) ∧
    ∀ c s : Nat, m.cells[c]? = some (.live s) → m'.cells[c]? = some (.live s)

def Stays (m m' : Machine) : Prop :=
  m.Tidy → m'.Tidy ∧ m'.openCells = m.openCells ∧ ∀ (c : Nat) (d : Cell), m.cells[c]? = some d → m'.cells[c]? = some d

def Rests (m m' : Machine) : Prop :=
  m.Tidy → m'.Tidy ∧ m'.stack = m.stack ∧ ∀ (c : Nat) (d : Cell), m.cells[c]? = some d →
    m'.cells[c]? = some d ∨ ∃ (s : Nat) (v : Value), d = .live s ∧ m.stack[s]? = some v ∧ m'.cells[c]? = some (.closed v)

variable {m m₁ m2 m' : Machine}

theorem cells_push {cells : Array Cell} {d e : Cell} {c : Nat} (h : cells[c]? = some d) :
    (cells.push e)[c]? = some d := by
  rw [Array.getElem?_push, if_neg, h]
  rintro rfl
  rw [Array.getElem?_eq_none (Nat.le_refl _)] at h
  cases h

theorem Tidy.of_same (hm : m.Tidy) (hc : m'.cells = m.cells) (ho : m'.openCells = m.openCells) : m'.Tidy :=
  ⟨by rw [ho]; exact hm.sorted, by rw [ho, hc]; exact hm.live⟩

theorem Tidy.newClosed (hm : m.Tidy) (v : Value) : { m with cells := m.cells.push (.closed v) }.Tidy :=
  have hnew : Exec.Spares 0 (fun _ => True) (Exec.newCell (.closed v)) := .newClosed v
  (hnew m hm).1.tidy

theorem Stays.of_same (hc : m'.cells = m.cells) (ho : m'.openCells = m.openCells) : m.Stays m' := fun hm =>
  ⟨hm.of_same hc ho, ho, fun c d h => by rwa [hc]⟩

theorem Rests.of_same (hs : m'.stack = m.stack) (hc : m'.cells = m.cells) (ho : m'.openCells = m.openCells) :
    m.Rests m' := fun hm =>
  ⟨hm.of_same hc ho, hs, fun c d h => .inl (by rwa [hc])⟩

theorem opens_broad : Exec.Broad Opens where
  trans h h' := fun hm => by
    obtain ⟨hm1, hclosed, hlive⟩ := h hm
    obtain ⟨hm2, hclosed', hlive'⟩ := h' hm1
    refine ⟨hm2, fun c v hc => ?_, fun c s hc => hlive' c s (hlive c s hc)⟩
    obtain ⟨w, hw⟩ := hclosed c v hc
    exact hclosed' c w hw
  quiet m _ _ _ := fun hm => ⟨hm.of_same rfl rfl, fun _ v hc => ⟨v, hc⟩, fun _ _ hc => hc⟩
  newClosed m v := fun hm => ⟨hm.newClosed v, fun c w hc => ⟨w, cells_push hc⟩, fun c s hc => cells_push hc⟩
  stack m _ := fun hm => ⟨hm.of_same rfl rfl, fun _ v hc => ⟨v, hc⟩, fun _ _ hc => hc⟩
  top m _ := fun hm => ⟨hm.of_same rfl rfl, fun _ v hc => ⟨v, hc⟩, fun _ _ hc => hc⟩
  frames m _ _ := fun hm => ⟨hm.of_same rfl rfl, fun _ v hc => ⟨v, hc⟩, fun _ _ hc => hc⟩
  setClosed m c v w h := fun hm => by
    have hsame : m.Spares 0 (fun _ => True) { m with cells := m.cells.modify c fun _ => .closed v } :=
      Exec.Spares.closed_same hm h
    refine ⟨hsame.tidy, fun d u hd => ?_, fun d s hd => ?_⟩
    · show ∃ w, (m.cells.modify c fun _ => .closed v)[d]? = _
      rw [Array.getElem?_modify]
      split
      · exact ⟨v, by rw [hd]; rfl⟩
      · exact ⟨u, hd⟩
    · show (m.cells.modify c fun _ => .closed v)[d]? = _
      rw [Array.getElem?_modify, if_neg, hd]
      rintro rfl
      rw [h] at hd
      cases hd
  captured m slot h := fun hm => by
    have hcapture : Exec.Spares 0 (fun _ => True) (Exec.capture slot) := .capture (Nat.zero_le slot) trivial
    have hspares := hcapture m hm
    unfold Exec.Meets at hspares
    rw [Exec.capture_new h] at hspares
    exact ⟨hspares.1.tidy, fun _ v hc => ⟨v, cells_push hc⟩, fun _ _ hc => cells_push hc⟩

theorem stays_ground : Exec.Ground Stays where
  trans h h' := fun hm => by
    obtain ⟨hm1, hopen, hcells⟩ := h hm
    obtain ⟨hm2, hopen', hcells'⟩ := h' hm1
    exact ⟨hm2, hopen'.trans hopen, fun c d hc => hcells' c d (hcells c d hc)⟩
  quiet _ _ _ _ := .of_same rfl rfl
  newClosed m v := fun hm => ⟨hm.newClosed v, rfl, fun _ _ hc => cells_push hc⟩
  stack _ _ := .of_same rfl rfl
  top _ _ := .of_same rfl rfl
  frames _ _ _ := .of_same rfl rfl

theorem stays_unframed : Exec.Unframed Stays := fun _ _ => .of_same rfl rfl

theorem stays_unactivated : Exec.Unactivated Stays := fun _ _ => .of_same rfl rfl

theorem rests_footing : Exec.Footing Rests where
  trans h h' := fun hm => by
    obtain ⟨hm1, hstack, hcells⟩ := h hm
    obtain ⟨hm2, hstack', hcells'⟩ := h' hm1
    refine ⟨hm2, hstack'.trans hstack, fun c d hc => ?_⟩
    rcases hcells c d hc with hsame | ⟨s, v, rfl, hv, hclosed⟩
    · rw [← hstack]
      exact hcells' c d hsame
    · -- a cell that has been closed stays as it is
      rcases hcells' c _ hclosed with hsame | ⟨_, _, hlive, _⟩
      · exact .inr ⟨s, v, rfl, hv, hsame⟩
      · cases hlive
  quiet _ _ _ _ := .of_same rfl rfl rfl
  newClosed m v := fun hm => ⟨hm.newClosed v, rfl, fun _ _ hc => .inl (cells_push hc)⟩

theorem Opens.settles (h : m.Opens m') (hm : m.Tidy) : m.Settles m' :=
  have ⟨htidy, hclosed, hlive⟩ := h hm
  ⟨htidy, hclosed, fun c s hc => .inl (hlive c s hc)⟩

theorem Rests.settles (h : m.Rests m') (hm : m.Tidy) : m.Settles m' where
  tidy := (h hm).1
  closed := fun c v hc => by
    rcases (h hm).2.2 c _ hc with hsame | ⟨_, _, hlive, _⟩
    · exact ⟨v, hsame⟩
    · cases hlive
  live := fun c s hc => by
    rcases (h hm).2.2 c _ hc with hsame | ⟨_, v, hlive, hv, hclosed⟩
    · exact .inl hsame
    · cases hlive
      exact .inr ⟨v, hv, hclosed⟩

theorem Settles.stays (h : m.Settles m₁) (h' : m₁.Stays m') : m.Settles m' where
  tidy := (h' h.tidy).1
  closed := fun c v hc => by
    obtain ⟨w, hw⟩ := h.closed c v hc
    exact ⟨w, (h' h.tidy).2.2 c _ hw⟩
  live := fun c s hc => by
    rcases h.live c s hc with hlive | ⟨v, hv, hclosed⟩
    · exact .inl ((h' h.tidy).2.2 c _ hlive)
    · exact .inr ⟨v, hv, (h' h.tidy).2.2 c _ hclosed⟩

end Machine

namespace Exec

open Machine (Rests Stays Opens Settles rests_footing stays_ground stays_unframed stays_unactivated opens_broad)

variable {α : Type} {x : Exec α} {k : α → Exec Mode} {f : Frame} {i : Instr} {m₀ m : Machine}

theorem close_rests (level : Nat) (hm : m.Tidy) :
    Meets True (fun _ _ => False) (close level) m fun _ m' => m.Rests m' := by
  refine Meets.imp ((closed 0 (fun _ => False) level hm).and (close_cellValue level hm)) (fun _ _ h => h.1)
    fun _ m' ⟨⟨hspares, _⟩, hstack, hvalue⟩ _ => ⟨hspares.tidy, hstack, fun c d hc => ?_⟩
  have hlt : c < m'.cells.size := Nat.lt_of_lt_of_le (Array.getElem?_eq_some_iff.mp hc).1 hspares.cellsSize
  have hc' := Array.getElem?_eq_getElem hlt
  have hval := hvalue c
  cases hd : m'.cells[c] with
  | live s =>
    -- it is entered, so it was before
    rw [hd] at hc'
    have hold := (hspares.opened _ ((hspares.tidy.live s c).mpr hc')).resolve_right fun h => h.2.2
    rw [← hc, (hm.live s c).mp hold, hc']
    exact .inl rfl
  | closed w =>
    rw [hd] at hc'
    rw [Machine.cellValue?_closed hc'] at hval
    cases d with
    | live s =>
      rw [Machine.cellValue?_live hc] at hval
      exact .inr ⟨s, w, rfl, hval.symm, hc'⟩
    | closed v =>
      rw [Machine.cellValue?_closed hc] at hval
      cases hval
      exact .inl hc'

def Settling (x : Exec α) : Prop :=
  ∀ m₀ m : Machine, m₀.Tidy → m₀.Rests m →
    Meets True (fun _ m' => m₀.Settles m') x m fun _ m' => m₀.Settles m'

theorem Settling.stays (hx : Along Stays x) : Settling x := fun _ _ hm0 hr =>
  Meets.imp (hx _) (fun _ _ ⟨_, h⟩ => (hr.settles hm0).stays h) fun _ _ h => (hr.settles hm0).stays h

theorem Settling.rests (hx : Along Rests x) (hk : ∀ a, Settling (k a)) : Settling (x >>= k) := fun m₀ m hm0 hr =>
  Meets.bind (Meets.imp (hx m) (fun _ _ ⟨_, h⟩ => (rests_footing.trans hr h).settles hm0)
    fun a m' h => hk a m₀ m' hm0 (rests_footing.trans hr h))

theorem Settling.closes {k : Unit → Exec α} {level : Nat} (hk : ∀ a, Settling (k a)) : Settling (close level >>= k) :=
  fun m₀ _ hm0 hr => Meets.bind (Meets.imp (close_rests level (hr hm0).1) (fun _ _ h => h.elim)
    fun a m' h => hk a m₀ m' hm0 (rests_footing.trans hr h))

theorem finish_settling (ret : HostReturn) (vs : List Value) : Settling (finish ret vs) := by
  cases ret with
  | place dest wanted => exact .stays (stays_ground.bind (stays_ground.place _ _ _) fun _ => stays_ground.pure _)
  | tail base => exact .closes fun _ => .stays (stays_ground.endCall_along stays_unframed vs)
  | answer => exact .stays (stays_ground.pure _)

theorem settleFailure_settling (purpose : Purpose) (e : Failure) : Settling (settleFailure purpose e) := by
  have hfails : Settling (failWith e : Exec Mode) := fun _ _ hm0 hr => hr.settles hm0
  unfold settleFailure
  split
  · split
    · exact finish_settling _ _
    · exact hfails
  · exact hfails

theorem activate_settling (f : Value) (args : List Value) (purpose : Purpose) : Settling (activate f args purpose) := by
  refine .rests rests_footing.get fun m => ?_
  split
  · exact settleFailure_settling _ _
  · have hbegun : Along Stays (modify fun m' : Machine =>
        { m' with activations := ⟨m'.frames.length, m.frameTop, m'.top, purpose⟩ :: m'.activations }) :=
      fun m' => stays_unactivated m' _
    exact .stays (stays_ground.bind (stays_ground.ensure _) fun _ => stays_ground.bind (stays_ground.writeMany _ _)
      fun _ => stays_ground.bind hbegun fun _ => stays_ground.beginCall_along _ _ _ _)

theorem loadFrom_settling (args : List Value) (ret : HostReturn) : Settling (loadFrom args ret) := by
  unfold loadFrom
  split
  · exact .rests (rests_footing.loadWith _ _) fun _ => finish_settling _ _
  · exact activate_settling _ _ _
  · exact .stays (stays_ground.fail _)

theorem host_settling (h : HostFn) (args : List Value) (ret : HostReturn) : Settling (host h args ret) := by
  unfold host
  split
  · exact .rests rests_footing.argument fun _ => activate_settling _ _ _
  · exact loadFrom_settling _ _
  · exact .rests rests_footing.simple_along fun _ => finish_settling _ _

theorem settleResults_settling (purpose : Purpose) (vs : List Value) : Settling (settleResults purpose vs) := by
  cases purpose with
  | outermost => exact .stays (stays_ground.pure _)
  | guarded ret => exact finish_settling _ _
  | reading pieces args ret =>
    show Settling (pieceRead pieces args ret vs)
    unfold pieceRead
    dsimp only
    split
    · exact .rests (rests_footing.loadWith _ _) fun _ => finish_settling _ _
    · exact .rests (rests_footing.loadWith _ _) fun _ => finish_settling _ _
    · exact activate_settling _ _ _
    · exact finish_settling _ _

theorem returnValues_settling (ra b : Nat) : Settling (returnValues f ra b) :=
  .rests (rests_footing.openCount _ _) fun _ => .rests (rests_footing.readMany _ _) fun _ =>
    .closes fun _ => .stays (stays_ground.endCall_along stays_unframed _)

theorem tailCall_settling (ra b : Nat) : Settling (tailCall f ra b) := by
  refine .rests (rests_footing.openCount _ _) fun _ => .rests (rests_footing.read _) fun v => ?_
  split
  · refine .rests rests_footing.get fun m => .rests (rests_footing.need _) fun fn => ?_
    split
    · exact .stays (stays_ground.bind (stays_ground.readMany _ _) fun _ => stays_ground.pure _)
    · have hpop : Along Stays (modify fun m : Machine => { m with frames := m.frames.tail }) :=
        fun m => stays_unframed m m.frames.tail
      exact .closes fun _ => .stays (stays_ground.bind hpop fun _ => stays_ground.bind (stays_ground.moveDown _ _ _)
        fun _ => stays_ground.beginCall_along _ _ _ _)
  · exact .stays (stays_ground.failCall _ _)

theorem jump_settling : Settling (plain f i .jmp) := by
  unfold plain
  dsimp only
  split
  · exact .closes fun _ => .stays (stays_ground.jump _)
  · exact .stays (stays_ground.jump _)

/-- **An instruction.** -/
theorem execute_settling (f : Frame) (i : Instr) (hm : m.Tidy) :
    Meets True (fun _ m' => m.Settles m') (execute f i) m fun _ m' => m.Settles m' := by
  have hsettles : ∀ {x : Exec Mode}, Settling x → Meets True (fun _ m' => m.Settles m') x m fun _ m' => m.Settles m' :=
    fun hx => hx m m hm (rests_footing.refl m)
  unfold execute
  split
  · exact hsettles (.stays (stays_ground.call _ _ _))
  · exact hsettles (tailCall_settling _ _)
  · exact hsettles (returnValues_settling _ _)
  · exact hsettles (.stays (stays_ground.callIterator _ _))
  · refine Meets.bind ?_
    show Meets True (fun _ m' => m.Settles m') (plain f i i.opcode) m fun _ m' => m.Settles m'
    by_cases ho : i.opcode = .jmp
    · rw [ho]
      exact jump_settling m m hm (rests_footing.refl m)
    · exact Meets.imp (opens_broad.plain_along ho m) (fun _ _ ⟨_, h⟩ => h.settles hm) fun _ _ h => h.settles hm

theorem fetch_rests (hm : m.Tidy) :
    Meets True (fun _ m' => m.Settles m') fetch m fun _ m' => m'.stack = m.stack ∧ m'.cells = m.cells ∧
      m'.openCells = m.openCells := by
  have hsettles : ∀ {m' : Machine}, m'.stack = m.stack → m'.cells = m.cells → m'.openCells = m.openCells →
      m.Settles m' := fun hs hc ho => (Machine.Rests.of_same hs hc ho).settles hm
  cases hf : m.frames with
  | nil =>
    have hcounted : Meets True (fun _ m' => m.Settles m') count m fun _ m' => m'.frames = [] := by
      unfold count
      refine Meets.get ?_
      dsimp only
      split <;> split
      all_goals first | exact hsettles rfl rfl rfl | exact hf
    refine Meets.bind (Meets.imp hcounted (fun _ _ h => h) fun _ m' hf' => Meets.get ?_)
    rw [hf']
    trivial
  | cons f rest =>
    exact fetch_meets_stands hf (fun _ _ => hsettles rfl rfl rfl) (fun _ _ _ => hsettles rfl rfl rfl)
      fun _ _ _ => ⟨rfl, rfl, rfl⟩

end Exec

/-! ## 3. Steps -/

def Progress.after : Progress → Option Machine
  | .more m _ => some m
  | .done _ .stuck => none
  | .done m _ => some m

namespace Machine

variable {m m₁ m' : Machine} {mode : Mode}

theorem ofExec_after {x : Exec Mode} {m₁ : Machine} {R : Machine → Prop}
    (hx : Exec.Meets True (fun _ m' => R m') x m₁ fun _ m' => R m') (h : (ofExec x m₁).after = some m') : R m' := by
  unfold Exec.Meets at hx
  unfold ofExec at h
  split at hx <;> rename_i hr <;> rw [hr] at h <;> cases h <;> exact hx

theorem Settles.of_same (hs : m₁.stack = m.stack) (hc : m₁.cells = m.cells) (h : m₁.Settles m') : m.Settles m' :=
  ⟨h.tidy, by rw [← hc]; exact h.closed, by rw [← hc, ← hs]; exact h.live⟩

theorem unwind_rests (a : Activation) (rest : List Activation) (hm : m.Tidy) :
    Exec.Meets True (fun _ _ => False) (unwind a rest) m fun _ m' => m.Rests m' := by
  have hbegun : m.Rests { m with activations := rest } := .of_same rfl rfl rfl
  refine Exec.Meets.bind (show Exec.Meets _ _ _ m _ from Exec.Meets.bind (Exec.Meets.imp
    (Exec.close_rests a.slot (hbegun hm).1) (fun _ _ h => h.elim) fun _ m₁ hclosed => ?_))
  have hended : m₁.Rests { m₁ with frames := m₁.frames.drop (m₁.frames.length - a.depth), top := a.savedTop } :=
    .of_same rfl rfl rfl
  exact rests_footing.trans (rests_footing.trans hbegun hclosed) hended

/-- **What a step does to cells.** Each cell is as it was, or a new one, or closed with the value that its
    place had before the step. -/
theorem step_settles (hm : m.Tidy) (h : (m.step mode).after = some m') : m.Settles m' := by
  have hsame : ∀ {m' : Machine}, m'.stack = m.stack → m'.cells = m.cells → m'.openCells = m.openCells →
      m.Settles m' := fun hs hc ho => (Rests.of_same hs hc ho).settles hm
  cases mode with
  | run =>
    refine ofExec_after (Exec.Meets.bind (Exec.Meets.imp (Exec.fetch_rests hm) (fun _ _ h => h) ?_)) h
    rintro ⟨f, i⟩ m₁ ⟨hs, hc, ho⟩
    exact Exec.Meets.imp (Exec.execute_settling f i (hm.of_same hc ho)) (fun _ _ h => h.of_same hs hc)
      fun _ _ h => h.of_same hs hc
  | host fn args ret => exact ofExec_after (Exec.host_settling fn args ret m m hm (rests_footing.refl m)) h
  | deliver vs =>
    cases ha : m.activations with
    | nil =>
      simp only [step, ha, Progress.after, Option.some.injEq] at h
      exact h ▸ (rests_footing.refl m).settles hm
    | cons a rest =>
      rw [step_deliver_eq ha] at h
      split at h
      · cases h
        exact hsame rfl rfl rfl
      · exact ofExec_after (Exec.settleResults_settling _ vs m (leave a rest m) hm (.of_same rfl rfl rfl)) h
  | raise e =>
    cases ha : m.activations with
    | nil =>
      simp only [step, ha, Progress.after, Option.some.injEq] at h
      exact h ▸ (rests_footing.refl m).settles hm
    | cons a rest =>
      rw [step_raise_eq ha] at h
      have hunwound := unwind_rests a rest hm
      unfold Exec.Meets at hunwound
      split at hunwound
      · next m₁ hx =>
        rw [hx] at h
        dsimp only at h
        split at h
        · cases h
          exact hunwound.settles hm
        · exact ofExec_after (Exec.settleFailure_settling _ e m m₁ hm hunwound) h
      · exact hunwound.elim
      · next hx =>
        rw [hx] at h
        cases h

/-! ## 4. Later machines -/

/-- The machines that come of a machine, by steps, in whatever mode, and from outside. -/
inductive Later (m : Machine) : Machine → Prop where
  | refl : Later m m
  | step {m₁ m' : Machine} {mode : Mode} (h : Later m m₁) (hs : (m₁.step mode).after = some m') : Later m m'
  | activate {m₁ m' : Machine} {f : Value} {args : List Value} (h : Later m m₁)
      (hs : (ofExec (Exec.activate f args .outermost) { m₁ with executed := 0 }).after = some m') : Later m m'
  | setGlobal {m₁ : Machine} (h : Later m m₁) (name : String) (v : Value) : Later m (m₁.setGlobal name v)
  | load {m₁ m' : Machine} {chunk : Bytes} {name : String} {env : Value} {r : Except Failure Value} (h : Later m m₁)
      (hl : Exec.loadChunk chunk name env m₁ = .ok r m') : Later m m'

/-- **A closed cell stays closed.** -/
theorem Later.closed (hm : m.Tidy) (h : m.Later m') :
    m'.Tidy ∧ ∀ (c : Nat) (v : Value), m.cells[c]? = some (.closed v) → ∃ w, m'.cells[c]? = some (.closed w) := by
  -- each way on settles the cells
  have hon : ∀ {m₁ m2 : Machine}, m₁.Settles m2 →
      (∀ (c : Nat) (v : Value), m.cells[c]? = some (.closed v) → ∃ w, m₁.cells[c]? = some (.closed w)) →
      m2.Tidy ∧ ∀ (c : Nat) (v : Value), m.cells[c]? = some (.closed v) → ∃ w, m2.cells[c]? = some (.closed w) :=
    fun hs hclosed => ⟨hs.tidy, fun c v hc => (hclosed c v hc).elim fun w hw => hs.closed c w hw⟩
  induction h with
  | refl => exact ⟨hm, fun _ v hc => ⟨v, hc⟩⟩
  | step _ hs ih => exact hon (step_settles ih.1 hs) ih.2
  | @activate m₁ m' f args _ hs ih =>
    have hreset : m₁.Rests { m₁ with executed := 0 } := .of_same rfl rfl rfl
    exact hon (ofExec_after (Exec.activate_settling f args .outermost m₁ _ ih.1 hreset) hs) ih.2
  | @setGlobal m₁ _ name v ih =>
    have hsame : m₁.Rests (m₁.setGlobal name v) := .of_same rfl rfl rfl
    exact hon (hsame.settles ih.1) ih.2
  | @load m₁ m' chunk name env r _ hl ih =>
    have hloaded := rests_footing.loadChunk chunk name env m₁
    unfold Exec.Meets at hloaded
    rw [hl] at hloaded
    exact hon (hloaded.settles ih.1) ih.2

/-! ## 5. Functions that end -/

def Shed (m m' : Machine) : Prop :=
  ∀ above (f : Frame) below, m.frames = above ++ f :: below → m'.frames.length ≤ below.length →
    ∀ e ∈ m'.openCells, e.1 < f.base

structure Sheds (m m' : Machine) : Prop where
  tidy : m'.Tidy
  opened : ∀ e ∈ m'.openCells, e ∈ m.openCells
  shed : m.Shed m'

def Levels (m m' : Machine) : Prop :=
  m.Tidy → m'.Tidy ∧ m'.openCells = m.openCells ∧ m.frames.length ≤ m'.frames.length

def Evens (m m' : Machine) : Prop :=
  m.Tidy → m'.Tidy ∧ m'.openCells = m.openCells ∧ m'.frames = m.frames

theorem levels_ground : Exec.Ground Levels where
  trans h h' := fun hm => by
    obtain ⟨hm1, hopen, hlen⟩ := h hm
    obtain ⟨hm2, hopen', hlen'⟩ := h' hm1
    exact ⟨hm2, hopen'.trans hopen, Nat.le_trans hlen hlen'⟩
  quiet _ _ _ _ := fun hm => ⟨hm.of_same rfl rfl, rfl, Nat.le_refl _⟩
  newClosed _ v := fun hm => ⟨hm.newClosed v, rfl, Nat.le_refl _⟩
  stack _ _ := fun hm => ⟨hm.of_same rfl rfl, rfl, Nat.le_refl _⟩
  top _ _ := fun hm => ⟨hm.of_same rfl rfl, rfl, Nat.le_refl _⟩
  frames _ _ h := fun hm => ⟨hm.of_same rfl rfl, rfl, h⟩

theorem levels_unactivated : Exec.Unactivated Levels := fun _ _ hm => ⟨hm.of_same rfl rfl, rfl, Nat.le_refl _⟩

theorem evens_footing : Exec.Footing Evens where
  trans h h' := fun hm => by
    obtain ⟨hm1, hopen, hframes⟩ := h hm
    obtain ⟨hm2, hopen', hframes'⟩ := h' hm1
    exact ⟨hm2, hopen'.trans hopen, hframes'.trans hframes⟩
  quiet _ _ _ _ := fun hm => ⟨hm.of_same rfl rfl, rfl, rfl⟩
  newClosed _ v := fun hm => ⟨hm.newClosed v, rfl, rfl⟩

theorem Shed.of_length (h : m.frames.length ≤ m'.frames.length) : m.Shed m' := fun above f below hf hle => by
  rw [hf, List.length_append, List.length_cons] at h
  omega

theorem Levels.sheds (h : m.Levels m') (hm : m.Tidy) : m.Sheds m' where
  tidy := (h hm).1
  opened := fun e he => by rwa [(h hm).2.1] at he
  shed := .of_length (h hm).2.2

theorem Sheds.trans (h : m.Sheds m₁) (hs : m₁.frames <:+ m.frames) (h' : m₁.Sheds m') : m.Sheds m' where
  tidy := h'.tidy
  opened := fun e he => h.opened e (h'.opened e he)
  shed := fun above f below hf hle e he => by
    obtain ⟨gone, hgone⟩ := hs
    by_cases hlen : m₁.frames.length ≤ below.length
    · exact h.shed above f below hf hlen e (h'.opened e he)
    · -- the function is among those that were left
      have hsuffix : f :: below <:+ m₁.frames :=
        List.suffix_of_suffix_length_le ⟨above, hf.symm⟩ ⟨gone, hgone⟩ (Nat.not_le.mp hlen)
      obtain ⟨above', habove⟩ := hsuffix
      exact h'.shed above' f below habove.symm hle e he

end Machine

namespace Exec

open Machine (Sheds Levels Evens levels_ground levels_unactivated evens_footing)

variable {α : Type} {x : Exec α} {k : α → Exec Mode} {f : Frame} {rest : List Frame} {ret : HostReturn} {depth : Nat}
  {m : Machine}

def Shedding (ret : HostReturn) (x : Exec Mode) : Prop :=
  ∀ (m : Machine) (depth : Nat), m.Tidy → ret.Serves depth m.frames →
    Meets True (fun _ m' => m.Sheds m') x m fun _ m' => m.Sheds m'

theorem Shedding.level {x : Exec Mode} (hx : Along Levels x) : Shedding ret x := fun m _ hm _ =>
  Meets.imp (hx m) (fun _ _ ⟨_, h⟩ => h.sheds hm) fun _ _ h => h.sheds hm

theorem Shedding.after (hx : Along Evens x) (hk : ∀ a, Shedding ret (k a)) : Shedding ret (x >>= k) := fun m depth hm hr => by
  have hlevels : ∀ {m' : Machine}, m.Evens m' → m.Levels m' := fun h hm =>
    ⟨(h hm).1, (h hm).2.1, Nat.le_of_eq (congrArg List.length (h hm).2.2.symm)⟩
  refine Meets.bind (Meets.imp (hx m) (fun _ _ ⟨_, h⟩ => (hlevels h).sheds hm) fun a m₁ h => ?_)
  have hon : ∀ {m' : Machine}, m₁.Sheds m' → m.Sheds m' :=
    ((hlevels h).sheds hm).trans ((h hm).2.2 ▸ List.suffix_refl _)
  exact Meets.imp (hk a m₁ depth (h hm).1 (by rw [(h hm).2.2]; exact hr)) (fun _ _ => hon) fun _ _ => hon

theorem Shedding.ending {k : Unit → Exec Mode} {base : Nat}
    (hk : ∀ (f : Frame) (rest : List Frame) (m₁ : Machine), m₁.frames = f :: rest →
      Meets True (fun _ m' => Levels { m₁ with frames := rest } m') (k ()) m₁
        fun _ m' => Levels { m₁ with frames := rest } m') :
    Shedding (.tail base) (close base >>= k) := by
  rintro m _ hm ⟨_, f, rest, hf, rfl⟩
  refine Meets.bind (Meets.imp (closed 0 (fun _ => False) f.base hm) (fun _ _ h => h.elim)
    fun _ m₁ ⟨hspares, hframes, _, _, _, hopen⟩ => ?_)
  have hpopped : m.Sheds { m₁ with frames := rest } := by
    refine ⟨hspares.tidy.of_same rfl rfl, fun e he => ((hopen e).mp he).1, fun above g below hg hle e he => ?_⟩
    obtain rfl : above = [] := List.eq_nil_of_length_eq_zero <| by
      have hlen := congrArg List.length (hf.symm.trans hg)
      have hle : rest.length ≤ below.length := hle
      simp only [List.length_append, List.length_cons] at hlen
      omega
    obtain ⟨rfl, rfl⟩ := List.cons.inj (hf.symm.trans hg)
    exact ((hopen e).mp he).2
  have hon : ∀ {m' : Machine}, Levels { m₁ with frames := rest } m' → m.Sheds m' := fun h =>
    hpopped.trans (hf ▸ List.suffix_cons f rest) (h.sheds hpopped.tidy)
  exact Meets.imp (hk f rest m₁ (hframes.trans hf)) (fun _ _ => hon) fun _ _ => hon

theorem returns_shedding {base : Nat} (vs : List Value) : Shedding (.tail base) (do close base; endCall vs) := by
  refine .ending fun f rest m₁ hf => ?_
  have hrest : ∀ depth, Along Levels (if rest.length ≤ depth then Pure.pure (Mode.deliver vs) else do
      place f.slot vs f.wanted
      Pure.pure Mode.run) := fun depth => by
    split
    · exact levels_ground.pure _
    · exact levels_ground.bind (levels_ground.place _ _ _) fun _ => levels_ground.pure _
  unfold endCall
  refine Meets.get ?_
  rw [hf]
  exact Meets.imp (hrest _ { m₁ with frames := rest }) (fun _ _ h => h.2) fun _ _ h => h

theorem finish_shedding (vs : List Value) : Shedding ret (finish ret vs) := by
  cases ret with
  | place dest wanted => exact .level (levels_ground.bind (levels_ground.place _ _ _) fun _ => levels_ground.pure _)
  | tail base => exact returns_shedding vs
  | answer => exact .level (levels_ground.pure _)

def ForwardsTo (purpose : Purpose) (ret : HostReturn) : Prop :=
  match purpose with
  | .outermost => True
  | .guarded r | .reading _ _ r => r = ret

theorem settleFailure_shedding {purpose : Purpose} (e : Failure) (hp : ForwardsTo purpose ret) :
    Shedding ret (settleFailure purpose e) := by
  have hfails : Shedding ret (failWith e : Exec Mode) := fun m _ hm _ => (levels_ground.refl m).sheds hm
  unfold settleFailure
  split
  · split
    · cases hp
      exact finish_shedding _
    · exact hfails
  · exact hfails

theorem activate_shedding {purpose : Purpose} (f : Value) (args : List Value) (hp : ForwardsTo purpose ret) :
    Shedding ret (activate f args purpose) := by
  refine .after evens_footing.get fun m => ?_
  split
  · exact settleFailure_shedding _ hp
  · have hbegun : Along Levels (modify fun m' : Machine =>
        { m' with activations := ⟨m'.frames.length, m.frameTop, m'.top, purpose⟩ :: m'.activations }) :=
      fun m' => levels_unactivated m' _
    exact .level (levels_ground.bind (levels_ground.ensure _) fun _ => levels_ground.bind (levels_ground.writeMany _ _)
      fun _ => levels_ground.bind hbegun fun _ => levels_ground.beginCall_along _ _ _ _)

theorem host_shedding (h : HostFn) (args : List Value) : Shedding ret (host h args ret) := by
  unfold host
  split
  · exact .after evens_footing.argument fun _ => activate_shedding _ _ rfl
  · unfold loadFrom
    split
    · exact .after (evens_footing.loadWith _ _) fun _ => finish_shedding _
    · exact activate_shedding _ _ rfl
    · exact .level (levels_ground.fail _)
  · exact .after evens_footing.simple_along fun _ => finish_shedding _

theorem settleResults_shedding {purpose : Purpose} (vs : List Value) (hp : ForwardsTo purpose ret) :
    Shedding ret (settleResults purpose vs) := by
  cases purpose with
  | outermost => exact .level (levels_ground.pure _)
  | guarded ret =>
    cases hp
    exact finish_shedding _
  | reading pieces args ret =>
    cases hp
    show Shedding _ (pieceRead pieces args _ vs)
    unfold pieceRead
    dsimp only
    split
    · exact .after (evens_footing.loadWith _ _) fun _ => finish_shedding _
    · exact .after (evens_footing.loadWith _ _) fun _ => finish_shedding _
    · exact activate_shedding _ _ rfl
    · exact finish_shedding _

theorem returnValues_shedding (ra b : Nat) : Shedding (.tail f.base) (returnValues f ra b) :=
  .after (evens_footing.openCount _ _) fun _ => .after (evens_footing.readMany _ _) fun vs => returns_shedding vs

theorem tailCall_shedding (ra b : Nat) : Shedding (.tail f.base) (tailCall f ra b) := by
  refine .after (evens_footing.openCount _ _) fun _ => .after (evens_footing.read _) fun v => ?_
  split
  · refine .after evens_footing.get fun m => .after (evens_footing.need _) fun fn => ?_
    split
    · exact .level (levels_ground.bind (levels_ground.readMany _ _) fun _ => levels_ground.pure _)
    · refine .ending fun g rest m₁ hf => Meets.bind ?_
      show Meets True _ (do moveDown _ _ _; beginCall _ _ _ _) { m₁ with frames := m₁.frames.tail } _
      rw [hf]
      exact Meets.imp ((levels_ground.bind (levels_ground.moveDown _ _ _) fun _ => levels_ground.beginCall_along _ _ _ _)
        { m₁ with frames := rest }) (fun _ _ h => h.2) fun _ _ h => h
  · exact .level (levels_ground.failCall _ _)

theorem tailCall_clears (ra b : Nat) (hm : m.Tidy) :
    Meets True (fun _ _ => True) (tailCall f ra b) m fun mode m' => mode = .run → ∀ e ∈ m'.openCells, e.1 < f.base := by
  refine Meets.bind (Meets.imp (evens_footing.openCount _ _ m) (fun _ _ _ => trivial) fun nargs m₁ h1 => ?_)
  refine Meets.bind (Meets.imp (evens_footing.read _ m₁) (fun _ _ _ => trivial) fun v m2 h2 => ?_)
  have htidy : m2.Tidy := (h2 (h1 hm).1).1
  split
  · refine Meets.get (Meets.need fun fn _ => ?_)
    split
    · exact Meets.readMany fun vs h => nomatch h
    · refine Meets.bind (Meets.imp (closed 0 (fun _ => False) f.base htidy) (fun _ _ h => h.elim)
        fun _ m3 ⟨hspares, _, _, _, _, hopen⟩ => ?_)
      have hpop : Meets True (fun _ _ => True) (do moveDown ra f.slot (nargs + 1); beginCall f.slot nargs f.wanted .answer)
          { m3 with frames := m3.frames.tail } fun _ m' => m'.openCells = m3.openCells :=
        Meets.imp ((levels_ground.bind (levels_ground.moveDown _ _ _) fun _ => levels_ground.beginCall_along _ _ _ _)
          { m3 with frames := m3.frames.tail }) (fun _ _ _ => trivial) fun _ _ h => (h (hspares.tidy.of_same rfl rfl)).2.1
      exact Meets.imp hpop (fun _ _ h => h) fun _ m' h _ e he => ((hopen e).mp (h ▸ he)).2
  · exact Meets.imp failCall_meets (fun _ _ _ => trivial) fun _ _ h => h.elim

end Exec

namespace Machine

variable {m m₁ m' : Machine}

def Longer (m m' : Machine) : Prop := m.frames.length ≤ m'.frames.length

theorem longer_broad : Exec.Broad Longer where
  trans := Nat.le_trans
  quiet _ _ _ _ := Nat.le_refl _
  newClosed _ _ := Nat.le_refl _
  stack _ _ := Nat.le_refl _
  top _ _ := Nat.le_refl _
  frames _ _ h := h
  setClosed _ _ _ _ _ := Nat.le_refl _
  captured _ _ _ := Nat.le_refl _

end Machine

namespace Exec

open Machine (Longer longer_broad)

variable {f : Frame} {rest : List Frame} {m : Machine}

/-- **An instruction of the running function.** -/
theorem execute_shed (i : Instr) (hm : m.Tidy) (hf : m.frames = f :: rest) :
    Meets True (fun _ m' => m.Shed m') (execute f i) m fun _ m' => m.Shed m' := by
  have hlonger : ∀ {x : Exec Mode}, Along Longer x → Meets True (fun _ m' => m.Shed m') x m fun _ m' => m.Shed m' :=
    fun hx => Meets.imp (hx m) (fun _ _ ⟨_, h⟩ => .of_length h) fun _ _ h => .of_length h
  have hends : ∀ {x : Exec Mode}, Shedding (.tail f.base) x →
      Meets True (fun _ m' => m.Shed m') x m fun _ m' => m.Shed m' := fun hx =>
    Meets.imp (hx m 0 hm ⟨by rw [hf]; exact Nat.zero_lt_succ _, f, rest, hf, rfl⟩) (fun _ _ h => h.shed) fun _ _ h => h.shed
  unfold execute
  split
  · exact hlonger (longer_broad.call _ _ _)
  · exact hends (tailCall_shedding _ _)
  · exact hends (returnValues_shedding _ _)
  · exact hlonger (longer_broad.callIterator _ _)
  · refine Meets.bind ?_
    show Meets True (fun _ m' => m.Shed m') (plain f i i.opcode) m fun _ m' => m.Shed m'
    by_cases ho : i.opcode = .jmp
    · rw [ho]
      have hjump : ∀ m₁ : Machine, m₁.frames = m.frames →
          Meets True (fun _ m' => m.Shed m') (jump i.sbx) m₁ fun _ m' => m.Shed m' := fun m₁ hf1 =>
        Meets.imp (longer_broad.jump i.sbx m₁) (fun _ _ ⟨_, h⟩ => .of_length (by rw [← hf1]; exact h))
          fun _ _ h => .of_length (by rw [← hf1]; exact h)
      unfold plain
      dsimp only
      split
      · exact Meets.bind (Meets.imp (closed 0 (fun _ => False) _ hm) (fun _ _ h => h.elim)
          fun _ m₁ h => hjump m₁ h.2.1)
      · exact hjump m rfl
    · exact Meets.imp (longer_broad.plain_along ho m) (fun _ _ ⟨_, h⟩ => .of_length h) fun _ _ h => .of_length h

end Exec

namespace Machine

variable {D : Discipline} {own : Ledger} {m₀ m m₁ m' : Machine} {a0 a : Activation} {rest : List Activation}
  {f : Value} {args : List Value} {mode : Mode} {p : Purpose}

theorem fetch_execute_shed (hm : m.Tidy) :
    Exec.Meets True (fun _ m' => m.Shed m') (do let (f, i) ← Exec.fetch; Exec.execute f i) m fun _ m' => m.Shed m' := by
  cases hf : m.frames with
  | nil =>
    have hnone : ∀ m' : Machine, m.Shed m' := fun m' above f below h => by
      rw [hf] at h
      cases above <;> cases h
    unfold Exec.Meets
    split <;> first | exact hnone _ | trivial
  | cons f rest =>
    refine Exec.Meets.bind (Exec.fetch_meets_stands hf (fun _ _ => .of_length (Nat.le_refl _))
      (fun _ n _ => .of_length (by rw [hf]; exact Nat.le_refl _)) fun i n _ => ?_)
    -- the running function is at another instruction, but in its place
    have hon : ∀ {m' : Machine}, (Exec.fetched m f rest n).Shed m' → m.Shed m' := fun h above g below hg => by
      cases above with
      | nil =>
        obtain ⟨rfl, rfl⟩ := List.cons.inj (hf.symm.trans hg)
        exact h [] { f with pc := f.pc + 1 } rest rfl
      | cons f' above =>
        obtain ⟨rfl, rfl⟩ := List.cons.inj (hf.symm.trans hg)
        exact h ({ f with pc := f.pc + 1 } :: above) g below rfl
    exact Exec.Meets.imp (Exec.execute_shed i (hm.of_same rfl rfl) rfl) (fun _ _ => hon) fun _ _ => hon

theorem step_tailCall {f : Frame} {rest : List Frame} {i : Instr} (hm : m.Tidy) (hf : m.frames = f :: rest)
    (hi : f.proto.code[f.pc]? = some i) (ho : i.opcode = .tailCall) (hs : m.step .run = .more m' .run) :
    ∀ e ∈ m'.openCells, e.1 < f.base := by
  refine ofExec_more (R := fun mode m' => mode = .run → ∀ e ∈ m'.openCells, e.1 < f.base)
    (E := fun _ _ => True) ?_ (fun _ _ _ h => nomatch h) hs rfl
  refine Exec.Meets.bind (Exec.fetch_meets_stands hf (fun _ _ => trivial) (fun _ _ _ => trivial) fun j n hj => ?_)
  obtain rfl : i = j := Option.some.inj (hi.symm.trans hj)
  show Exec.Meets True _ (Exec.execute { f with pc := f.pc + 1 } i) (Exec.fetched m f rest n) _
  unfold Exec.execute
  rw [ho]
  exact Exec.tailCall_clears (f := { f with pc := f.pc + 1 }) _ _ (hm.of_same rfl rfl)

theorem unwind_sheds (h0 : a0.depth = m₀.frames.length) (h : m.Stands D m₀ a0 own) (ha : m.activations = a :: rest)
    (hu : unwind a rest m = .ok () m₁) : m.Sheds m₁ ∧ m₁.frames <:+ m.frames := by
  obtain ⟨b, bs, hb, hl⟩ := h.layers
  obtain ⟨rfl, rfl⟩ := List.cons.inj (ha.symm.trans hb)
  obtain ⟨above, below, hframes, hdepth, hrising, _⟩ := hl.parts h0
  have hunwound := unwind_meets 0 (fun _ => False) a rest h.spared.tidy
  unfold Exec.Meets at hunwound
  rw [hu] at hunwound
  obtain ⟨hspares, hf, _, _, hopen⟩ := hunwound
  have hleft : m₁.frames = below := by
    rw [hf, hframes, List.length_append, hdepth, Nat.add_sub_cancel]
    exact List.drop_left
  refine ⟨⟨hspares.tidy, fun e he => ((hopen e).mp he).1, fun front g back hg hle e he => ?_⟩, hf ▸ List.drop_suffix ..⟩
  -- a function that has ended is one of those above the activation
  have hin : g ∈ above := by
    have hsplit : above ++ below = front ++ g :: back := hframes.symm.trans hg
    rw [hleft] at hle
    rcases List.append_eq_append_iff.mp hsplit with ⟨mid, rfl, hmid⟩ | ⟨mid, hmid, hcons⟩
    · have := congrArg List.length hmid
      simp only [List.length_append, List.length_cons] at this
      omega
    · cases mid with
      | nil =>
        have := congrArg List.length hcons
        simp only [List.nil_append, List.length_cons] at this
        omega
      | cons g' mid =>
        obtain ⟨rfl, _⟩ := List.cons.inj hcons
        exact hmid ▸ List.mem_append_right _ (List.mem_cons_self ..)
  have hslot : a.slot ≤ g.slot := hrising.le g hin
  have hbelow : e.1 < a.slot := ((hopen e).mp he).2
  exact Nat.lt_of_lt_of_le hbelow (Nat.le_succ_of_le hslot)

theorem Purpose.Serves.forwards {depth : Nat} {frames : List Frame} (h : p.Serves depth frames) :
    ∃ ret, Exec.ForwardsTo p ret ∧ ret.Serves depth frames := by
  cases p with
  | outermost => exact h.elim
  | guarded ret => exact ⟨ret, rfl, h⟩
  | reading pieces args ret => exact ⟨ret, rfl, h⟩

/-- **What functions that end leave behind.** After a step of a call nothing is captured from the first
    register on of a function that has ended. -/
theorem step_shed (hm : m₀.Idle) (hc : m₀.Calls f args m mode) (h : (m.step mode).after = some m') : m.Shed m' := by
  obtain ⟨own, hstands, hserves⟩ := (hc.during hm).layered (hm.uncounted 0).tidy
  have htidy := hstands.spared.tidy
  obtain ⟨a, rest, ha, hl⟩ := hstands.layers
  have hserves := hserves a rest ha
  have hlast := hstands.outermost ha
  have hinner : ∀ {p : Purpose}, a.purpose = p → p ≠ .outermost → { m₀ with executed := 0 }.activations.length < rest.length :=
    fun hp hne => Nat.not_le.mp fun hle => hne (hp ▸ hlast.mpr hle)
  cases mode with
  | run => exact ofExec_after (fetch_execute_shed htidy) h
  | host fn args ret =>
    exact ofExec_after (Exec.Meets.imp (Exec.host_shedding fn args m a.depth htidy hserves.1) (fun _ _ h => h.shed)
      fun _ _ h => h.shed) h
  | deliver vs =>
    rw [step_deliver_eq ha] at h
    split at h
    · cases h
      exact .of_length (Nat.le_refl _)
    · next p hp =>
      obtain ⟨b, bs, above, below, rfl, hframes, _, hdepth, _, _, hp, _⟩ := hl.inner (hinner rfl hp)
      obtain rfl : above = [] := List.eq_nil_of_length_eq_zero <| by
        have hlen : m.frames.length = a.depth := hserves
        rw [hframes, List.length_append] at hlen
        omega
      obtain ⟨ret, hto, hret⟩ := Purpose.Serves.forwards hp
      have hleft : (leave a (b :: bs) m).Tidy := htidy.of_same rfl rfl
      exact ofExec_after (Exec.Meets.imp (Exec.settleResults_shedding vs hto (leave a (b :: bs) m) b.depth hleft
        (by rw [show (leave a (b :: bs) m).frames = below from hframes]; exact hret)) (fun _ _ h => h.shed)
        fun _ _ h => h.shed) h
  | raise e =>
    rw [step_raise_eq ha] at h
    split at h
    · cases h
    · next m₁ hu =>
      obtain ⟨hsheds, hsuffix⟩ := unwind_sheds rfl hstands ha hu
      split at h
      · cases h
        exact hsheds.shed
      · next p hp =>
        obtain ⟨b, bs, above, below, rfl, hframes, _, hdepth, _, _, hp, _⟩ := hl.inner (hinner rfl hp)
        obtain ⟨ret, hto, hret⟩ := Purpose.Serves.forwards hp
        have hbelow : m₁.frames = below := by
          have hunwound := unwind_meets 0 (fun _ => False) a (b :: bs) htidy
          unfold Exec.Meets at hunwound
          rw [hu] at hunwound
          rw [hunwound.2.1, hframes, List.length_append, hdepth, Nat.add_sub_cancel]
          exact List.drop_left
        have hon : ∀ {m' : Machine}, m₁.Sheds m' → m.Shed m' := fun h => (hsheds.trans hsuffix h).shed
        exact ofExec_after (Exec.Meets.imp (Exec.settleFailure_shedding e hto m₁ b.depth hsheds.tidy (hbelow ▸ hret))
          (fun _ _ => hon) fun _ _ => hon) h

/-! ## 6. Every reachable machine -/

/-- **Captured places.** In every reachable machine:
    * the captured places are entered in their order, each once;
    * a cell is entered for a place if and only if it is live there, so that all closures that hold a live
      cell of a place hold the same one;
    * the place is on the stack;
    * a closed cell is closed in all machines that come of this one;
    * closing, at whatever level, leaves nothing captured from there on, and each cell reads as before;
    * a step of the machine leaves a live cell live, or closed with what it read before the step;
    * after a step of a call nothing is captured from the first register on of a function that has ended
      in the step, nor of one that has called a script function in its place. -/
theorem captured_places {m : Machine} (hm : m.Reachable) :
    (m.openCells.reverse.Pairwise fun e e' => e.1 < e'.1) ∧
      (∀ s c, (s, c) ∈ m.openCells ↔ m.cells[c]? = some (.live s)) ∧
      (∀ s c c' : Nat, m.cells[c]? = some (.live s) → m.cells[c']? = some (.live s) → c = c') ∧
      (∀ s c : Nat, m.cells[c]? = some (.live s) → s < m.stack.size) ∧
      (∀ (c : Nat) (v : Value) (m' : Machine), m.cells[c]? = some (.closed v) → m.Later m' →
        ∃ w, m'.cells[c]? = some (.closed w)) ∧
      (∀ level, ∃ m', Exec.close level m = .ok () m' ∧ (∀ e ∈ m'.openCells, e.1 < level) ∧
        ∀ c v, Exec.readCell c m = .ok v m → Exec.readCell c m' = .ok v m') ∧
      (∀ (mode : Mode) (m' : Machine) (c s : Nat), (m.step mode).after = some m' → m.cells[c]? = some (.live s) →
        m'.cells[c]? = some (.live s) ∨ ∃ v, Exec.readCell c m = .ok v m ∧ m'.cells[c]? = some (.closed v)) ∧
      (∀ (m₀ : Machine) (f : Value) (args : List Value) (mode : Mode) (m' : Machine), m₀.Built →
        m₀.Calls f args m mode → (m.step mode).after = some m' → m.Shed m') ∧
      ∀ (f : Frame) (rest : List Frame) (i : Instr) (m' : Machine), m.frames = f :: rest →
        f.proto.code[f.pc]? = some i → i.opcode = .tailCall → m.step .run = .more m' .run →
          ∀ e ∈ m'.openCells, e.1 < f.base := by
  have htidy := hm.tidy
  have hwhole := hm.whole
  refine ⟨?_, htidy.live, fun s c c' => htidy.live_unique, fun s c hc => ?_,
    fun c v m' hc h => (h.closed htidy).2 c v hc, fun level => ?_, fun mode m' c s hs hc => ?_,
    fun m₀ f args mode m' hb hcalls => step_shed hb.idle hcalls, fun f rest i m' hf hi ho => step_tailCall htidy hf hi ho⟩
  · exact List.pairwise_reverse.mpr htidy.sorted
  · exact (hwhole.openCells _ ((htidy.live s c).mpr hc)).1
  · obtain ⟨m', hclose, _⟩ := Exec.close_ok hwhole level
    have hvalues := Exec.close_cellValue level htidy
    have hclosed := Exec.closed 0 (fun _ => False) level htidy
    unfold Exec.Meets at hvalues hclosed
    rw [hclose] at hvalues hclosed
    refine ⟨m', hclose, fun e he => ((hclosed.2.2.2.2.2 e).mp he).2, fun c v hc => ?_⟩
    rw [readCell_eq] at hc ⊢
    rw [hvalues.2 c]
    cases hv : m.cellValue? c with
    | none =>
      rw [hv] at hc
      cases hc
    | some w =>
      rw [hv] at hc
      cases hc
      rfl
  · rcases (step_settles htidy hs).live c s hc with hlive | ⟨v, hv, hclosed⟩
    · exact .inl hlive
    · refine .inr ⟨v, ?_, hclosed⟩
      rw [readCell_eq, cellValue?_live hc, hv]
      rfl

/-- A state of the main function of this source text, after so many steps, with the machine that was called. -/
def stateOf (source : String) (n : Nat) : Option (Machine × Nat × Machine × Mode) :=
  match (new .standard).load (Bytes.ofString source) "t" none with
  | (m₀, .ok (.function id)) =>
    if id < m₀.functions.size then
      match ofExec (Exec.activate (.function id) [] .outermost) { m₀ with executed := 0 } with
      | .more m₁ mode₁ => (stepFor n m₁ mode₁).map fun (m, mode) => (m₀, id, m, mode)
      | .done .. => none
    else none
  | _ => none

theorem stateOf_calls {source : String} {n id : Nat} {m₀ m : Machine} {mode : Mode}
    (h : stateOf source n = some (m₀, id, m, mode)) :
    m₀.Built ∧ (Value.function id).Known m₀.sizes ∧ m₀.Calls (.function id) [] m mode := by
  unfold stateOf at h
  split at h
  case h_2 => cases h
  next m₁ id1 hload =>
  split at h
  case isFalse => cases h
  next hid =>
  split at h
  case h_2 => cases h
  next m2 mode2 hstart =>
  obtain ⟨⟨m3, mode3⟩, hafter, h⟩ := Option.map_eq_some_iff.mp h
  cases h
  have henv : ∀ v ∈ (none : Option Value), v.Known (new .standard).sizes := by simp
  have hbuilt := (Built.new .standard).load (Bytes.ofString source) "t" henv
  rw [hload] at hbuilt
  exact ⟨hbuilt, hid, m2, mode2, hstart, .of_stepFor hafter⟩

theorem return_closes : (match stateOf "local function f(x) return function() return x end end f(7)" 5 with
    | some (_, _, m, .run) =>
      match (m.step .run).after with
      | some m' => decide (m.frames.length = 2 ∧ m'.frames.length = 1 ∧ m.cells[1]? = some (.live 3) ∧
        m'.cells[1]? = some (.closed (.int 7)))
      | none => false
    | _ => false) = true := by decide +kernel

theorem captured_places_return : ∃ m m' : Machine, m.Reachable ∧ m.frames.length = 2 ∧ m'.frames.length = 1 ∧
    m.cells[1]? = some (.live 3) ∧ (m.step .run).after = some m' ∧ m'.cells[1]? = some (.closed (.int 7)) ∧
    m.Shed m' := by
  have hok := return_closes
  split at hok
  · next m₀ id m hstate =>
    obtain ⟨hbuilt, hid, hcalls⟩ := stateOf_calls hstate
    split at hok
    · next m' hs =>
      obtain ⟨hlen, hlen', hlive, hclosed⟩ := of_decide_eq_true hok
      have hreach : m.Reachable := .running hbuilt hid (by simp) hcalls
      exact ⟨m, m', hreach, hlen, hlen', hlive, hs, hclosed,
        (captured_places hreach).2.2.2.2.2.2.2.1 m₀ _ _ _ m' hbuilt hcalls hs⟩
    · cases hok
  · cases hok

end Machine

end LuaMachine
