/-
  LAYERS OF FRAMES. During a call the frames and activations that it adds stand on those that were there,
  and on one another. Each captured place was captured before the call, or belongs to a function that the
  call runs.
-/
import LuaMachine.Proofs.Machine.Effect

namespace LuaMachine

/-! ## 1. Captured registers -/

/-- What is known of functions that are `Good`: `At p pc k r` says that at `pc` the register `r` holds
    the variable `k`, which may be captured there. A closure captures such registers. They stay such
    until a jump closes them, and what an instruction calls is no further down. -/
structure Discipline where
  Good : Proto → Prop
  At : Proto → Nat → Nat → Nat → Prop
  captured : ∀ {p : Proto} {pc r : Nat} {i : Instr}, Good p → p.code[pc]? = some i → p.Captures i r →
    ∃ k, At p (pc + 1) k r
  goes : ∀ {p : Proto} {pc pc' k r : Nat} {i : Instr}, Good p → p.code[pc]? = some i → i.opcode ≠ .ret →
    At p pc k r → p.Next (pc + 1) i pc' → (i.opcode = .jmp → i.a.val ≠ 0 → r + 1 < i.a.val) → At p pc' k r
  call : ∀ {p : Proto} {pc k r : Nat} {i : Instr}, Good p → p.code[pc]? = some i → i.opcode = .call →
    At p pc k r → r ≤ i.a.val
  iterator : ∀ {p : Proto} {pc k r : Nat} {i : Instr}, Good p → p.code[pc]? = some i →
    i.opcode = .tforCall → At p pc k r → r ≤ i.a.val + 3
  bound : ∀ {p : Proto} {pc k r : Nat}, Good p → At p pc k r → r < p.maxStack.toNat
  inside : ∀ {p : Proto} {pc k r : Nat}, Good p → At p pc k r → pc < p.code.size

/-- Nothing is known of any function. -/
def Discipline.none : Discipline where
  Good := fun _ => False
  At := fun _ _ _ _ => False
  captured := fun h => h.elim
  goes := fun h => h.elim
  call := fun h => h.elim
  iterator := fun h => h.elim
  bound := fun h => h.elim
  inside := fun h => h.elim

structure Owner where
  slot : Nat
  proto : Proto
  var : Nat
deriving Inhabited

structure Ledger where
  known : Nat
  owner : Nat → Owner

namespace Frame

variable (D : Discipline)

def Holds (f : Frame) (o : Owner) (s : Nat) : Prop :=
  f.slot = o.slot ∧ f.proto = o.proto ∧ f.base ≤ s ∧
    (D.Good f.proto → D.At f.proto f.pc o.var (s - f.base))

def Held (o : Owner) (s : Nat) : List Frame → Prop
  | [] => False
  | f :: fs => f.Holds D o s ∨ (D.Good o.proto → s ≤ f.slot) ∧ Held o s fs

def topOver (frames : List Frame) (top : Nat) : Nat :=
  match frames with
  | f :: _ => max f.top top
  | [] => top

variable {D} {f : Frame} {o : Owner} {s : Nat}

theorem Held.exists {fs : List Frame} (h : Held D o s fs) : ∃ f ∈ fs, f.Holds D o s := by
  induction fs with
  | nil => exact h.elim
  | cons f fs ih =>
    rcases h with h | ⟨_, h⟩
    · exact ⟨f, List.mem_cons_self .., h⟩
    · obtain ⟨g, hg, hholds⟩ := ih h
      exact ⟨g, List.mem_cons_of_mem _ hg, hholds⟩

theorem Held.drop {above fs : List Frame} (h : Held D o s (above ++ fs)) (hlow : ∀ g ∈ above, s ≤ g.slot) :
    Held D o s fs := by
  induction above with
  | nil => exact h
  | cons g above ih =>
    refine ih (h.elim (fun hholds => ?_) And.right) fun g' hg' => hlow g' (List.mem_cons_of_mem _ hg')
    have hbase : g.slot + 1 ≤ s := hholds.2.2.1
    have := hlow g (List.mem_cons_self ..)
    omega

theorem Holds.lt_top (h : f.Holds D o s) (hg : D.Good o.proto) : s < f.top := by
  obtain ⟨_, hproto, hbase, hat⟩ := h
  have hg : D.Good f.proto := hproto ▸ hg
  have := D.bound hg (hat hg)
  unfold top
  omega

theorem Held.lt_topOver {fs : List Frame} {top : Nat} (h : Held D o s (f :: fs)) (hg : D.Good o.proto) :
    s < topOver (f :: fs) top := by
  have htop : f.slot < f.top := by
    unfold Frame.top base
    omega
  refine Nat.lt_of_lt_of_le ?_ (Nat.le_max_left f.top top)
  rcases h with h | ⟨hle, _⟩
  · exact h.lt_top hg
  · exact Nat.lt_of_le_of_lt (hle hg) htop

end Frame

theorem Machine.frameTop_eq (m : Machine) : m.frameTop = Frame.topOver m.frames m.top := rfl

/-! ## 2. Layers -/

def Rising (low : Nat) : List Frame → Prop
  | [] => True
  | f :: fs => (match fs with | [] => low ≤ f.slot | g :: _ => g.base ≤ f.slot) ∧ Rising low fs

theorem Rising.le {low : Nat} {fs : List Frame} (h : Rising low fs) :
    ∀ f ∈ fs, low ≤ f.slot := by
  induction fs with
  | nil => exact fun _ hf => nomatch hf
  | cons f fs ih =>
    refine List.forall_mem_cons.mpr ⟨?_, ih h.2⟩
    cases fs with
    | nil => exact h.1
    | cons g gs =>
      have hg := ih h.2 g (List.mem_cons_self ..)
      have hbase : g.slot + 1 ≤ f.slot := h.1
      omega

def HostReturn.Serves (depth : Nat) (frames : List Frame) : HostReturn → Prop
  | .place dest _ => depth < frames.length ∧ ∃ f rest, frames = f :: rest ∧ f.base ≤ dest
  | .tail base => depth < frames.length ∧ ∃ f rest, frames = f :: rest ∧ f.base = base
  | .answer => frames.length = depth

def Purpose.Serves (depth : Nat) (frames : List Frame) : Purpose → Prop
  | .outermost => False
  | .guarded ret | .reading _ _ ret => ret.Serves depth frames

/-- The frames of the activations since `a₀`, which began over the activations `under` and the frames
    `old`. The innermost activation comes first. -/
inductive Layers (a₀ : Activation) (under : List Activation) (old : List Frame) :
    Activation → List Activation → List Frame → Prop where
  | ground {fs : List Frame} (hr : Rising a₀.slot fs) : Layers a₀ under old a₀ under (fs ++ old)
  | stacked {a b : Activation} {rest : List Activation} {above below : List Frame}
      (h : Layers a₀ under old b rest below) (hdepth : a.depth = below.length)
      (hslot : a.slot = Frame.topOver below a.savedTop) (hle : b.slot ≤ a.slot)
      (hserves : a.purpose.Serves b.depth below) (hr : Rising a.slot above) :
      Layers a₀ under old a (b :: rest) (above ++ below)

namespace Layers

variable {a₀ a : Activation} {under rest : List Activation} {old frames fs : List Frame}
  {f f' : Frame}

theorem slot_le (h : Layers a₀ under old a rest frames) : a₀.slot ≤ a.slot := by
  induction h with
  | ground _ => exact Nat.le_refl _
  | stacked _ _ _ hle _ _ ih => exact Nat.le_trans ih hle

theorem parts (h0 : a₀.depth = old.length) (h : Layers a₀ under old a rest frames) :
    ∃ above below, frames = above ++ below ∧ a.depth = below.length ∧ Rising a.slot above ∧
      ∀ above', Rising a.slot above' → Layers a₀ under old a rest (above' ++ below) := by
  cases h with
  | ground hr => exact ⟨_, old, rfl, h0, hr, fun _ => .ground⟩
  | stacked h hdepth hslot hle hserves hr =>
    exact ⟨_, _, rfl, hdepth, hr, fun _ => .stacked h hdepth hslot hle hserves⟩

theorem depth_le (h0 : a₀.depth = old.length) (h : Layers a₀ under old a rest frames) :
    a.depth ≤ frames.length := by
  obtain ⟨above, below, rfl, hdepth, _⟩ := h.parts h0
  rw [List.length_append]
  omega

theorem head (h0 : a₀.depth = old.length) (h : Layers a₀ under old a rest (f :: fs))
    (hd : a.depth < (f :: fs).length) :
    a.slot ≤ f.slot ∧ Layers a₀ under old a rest fs ∧
      ∀ f' : Frame, f'.slot = f.slot → Layers a₀ under old a rest (f' :: fs) := by
  obtain ⟨above, below, heq, hdepth, hr, hother⟩ := h.parts h0
  cases above with
  | nil =>
    rw [heq, List.nil_append] at hd
    omega
  | cons g above =>
    obtain ⟨rfl, rfl⟩ := List.cons.inj heq
    refine ⟨hr.le f (List.mem_cons_self ..), hother above hr.2, fun f' hf' => hother (f' :: above) ⟨?_, hr.2⟩⟩
    have := hr.1
    rwa [← hf'] at this

def Fits (a : Activation) (frames : List Frame) (slot : Nat) : Prop :=
  a.slot ≤ slot ∧ (a.depth < frames.length → ∃ g gs, frames = g :: gs ∧ g.base ≤ slot)

theorem fits_head (h0 : a₀.depth = old.length) (h : Layers a₀ under old a rest (f :: fs))
    (hd : a.depth < (f :: fs).length) : Fits a fs f.slot := by
  obtain ⟨above, below, heq, hdepth, hr, _⟩ := h.parts h0
  cases above with
  | nil =>
    rw [heq, List.nil_append] at hd
    omega
  | cons g above =>
    obtain ⟨rfl, rfl⟩ := List.cons.inj heq
    refine ⟨hr.le f (List.mem_cons_self ..), fun hlt => ?_⟩
    cases above with
    | nil =>
      have hlt : a.depth < below.length := hlt
      omega
    | cons g above => exact ⟨g, above ++ below, rfl, hr.1⟩

theorem push (h0 : a₀.depth = old.length) (h : Layers a₀ under old a rest frames)
    (hfits : Fits a frames f.slot) : Layers a₀ under old a rest (f :: frames) := by
  obtain ⟨above, below, rfl, hdepth, hr, hother⟩ := h.parts h0
  refine hother (f :: above) ⟨?_, hr⟩
  cases above with
  | nil => exact hfits.1
  | cons g above =>
    obtain ⟨g', gs, hg, hunder⟩ := hfits.2 (by rw [hdepth, List.length_append, List.length_cons]; omega)
    obtain ⟨rfl, _⟩ := List.cons.inj hg
    exact hunder

theorem since (h : Layers a₀ under old a rest frames) :
    ∃ fs, frames = fs ++ old ∧ ∀ f ∈ fs, a₀.slot ≤ f.slot := by
  induction h with
  | ground hr => exact ⟨_, rfl, hr.le⟩
  | stacked h _ _ hle _ hr ih =>
    obtain ⟨fs, rfl, hfs⟩ := ih
    refine ⟨_ ++ fs, (List.append_assoc ..).symm, fun f hf => ?_⟩
    rcases List.mem_append.mp hf with hf | hf
    · exact Nat.le_trans (Nat.le_trans h.slot_le hle) (hr.le f hf)
    · exact hfs f hf

theorem old_le (h0 : a₀.depth = old.length) (h : Layers a₀ under old a rest frames) :
    old.length ≤ a.depth := by
  cases h with
  | ground _ => exact Nat.le_of_eq h0.symm
  | stacked h hdepth _ _ _ _ =>
    obtain ⟨gs, rfl, _⟩ := h.since
    rw [hdepth, List.length_append]
    omega

theorem is_ground (h : Layers a₀ under old a rest frames) (hr : rest.length ≤ under.length) :
    a = a₀ ∧ rest = under := by
  have hmore : ∀ {a rest frames}, Layers a₀ under old a rest frames → under.length ≤ rest.length := by
    intro a rest frames h
    induction h with
    | ground _ => exact Nat.le_refl _
    | stacked _ _ _ _ _ _ ih => exact Nat.le_succ_of_le ih
  cases h with
  | ground _ => exact ⟨rfl, rfl⟩
  | stacked h _ _ _ _ _ =>
    have := hmore h
    rw [List.length_cons] at hr
    omega

theorem inner (h : Layers a₀ under old a rest frames) (hmore : under.length < rest.length) :
    ∃ b bs above below, rest = b :: bs ∧ frames = above ++ below ∧ Layers a₀ under old b bs below ∧
      a.depth = below.length ∧ a.slot = Frame.topOver below a.savedTop ∧ b.slot ≤ a.slot ∧
      a.purpose.Serves b.depth below ∧ Rising a.slot above := by
  cases h with
  | ground _ => exact absurd hmore (Nat.lt_irrefl _)
  | stacked h hdepth hslot hle hserves hr =>
    exact ⟨_, _, _, _, rfl, rfl, h, hdepth, hslot, hle, hserves, hr⟩

end Layers

/-! ## 3. Machines during a call -/

def Mode.Serves (m : Machine) (a : Activation) : Mode → Prop
  | .run => a.depth < m.frames.length
  | .host _ _ ret => ret.Serves a.depth m.frames ∧ a.slot ≤ m.frameTop
  | .deliver _ => m.frames.length = a.depth
  | .raise _ => True

namespace Machine

/-- A machine during a call: the activation `a₀`, begun in `m₀`. What is captured was captured in `m₀`,
    or is held by one of the frames since. -/
structure Stands (m : Machine) (D : Discipline) (m₀ : Machine) (a₀ : Activation) (own : Ledger) : Prop where
  spared : m₀.Spares a₀.slot (fun _ => True) m
  known : own.known ≤ m.cells.size
  layers : ∃ a rest, m.activations = a :: rest ∧ Layers a₀ m₀.activations m₀.frames a rest m.frames
  owned : ∃ fs, m.frames = fs ++ m₀.frames ∧
    ∀ e ∈ m.openCells, e ∈ m₀.openCells ∨ Frame.Held D (own.owner e.2) e.1 fs

def Clear (m : Machine) (D : Discipline) (m₀ : Machine) (own : Ledger) (slot : Nat) : Prop :=
  ∀ e ∈ m.openCells, e ∈ m₀.openCells ∨ (D.Good (own.owner e.2).proto → e.1 ≤ slot)

/-- The function `f` runs during the call, over those of the frames `fs`. What it has captured is among
    its registers; where in its code it is, and whether it still holds what it has captured, is left
    open. -/
structure Runs (m : Machine) (D : Discipline) (m₀ : Machine) (a₀ : Activation) (own : Ledger) (f : Frame)
    (fs : List Frame) : Prop where
  frames_eq : m.frames = f :: (fs ++ m₀.frames)
  spared : m₀.Spares a₀.slot (fun _ => True) m
  known : own.known ≤ m.cells.size
  layers : ∃ a rest, m.activations = a :: rest ∧ a.depth < m.frames.length ∧
    Layers a₀ m₀.activations m₀.frames a rest m.frames
  owned : ∀ e ∈ m.openCells, e ∈ m₀.openCells ∨ f.base ≤ e.1 ∨ Frame.Held D (own.owner e.2) e.1 fs

variable {D : Discipline} {m₀ m m' : Machine} {a₀ : Activation} {own : Ledger}

theorem Stands.calm (h : m.Stands D m₀ a₀ own) (hs : m.Spares a₀.slot (fun _ => False) m')
    (hf : m'.frames = m.frames) (ha : m'.activations = m.activations) : m'.Stands D m₀ a₀ own where
  spared := h.spared.trans (hs.imp (Nat.le_refl _) fun _ => False.elim)
  known := Nat.le_trans h.known hs.cellsSize
  layers := by rw [hf, ha]; exact h.layers
  owned := by
    obtain ⟨fs, hfs, howned⟩ := h.owned
    refine ⟨fs, hf.trans hfs, fun e he => ?_⟩
    rcases hs.opened e he with he | ⟨_, _, hno⟩
    · exact howned e he
    · exact hno.elim

theorem Stands.running {f : Frame} {rest : List Frame} (h0 : a₀.depth = m₀.frames.length)
    (h : m.Stands D m₀ a₀ own) (hf : m.frames = f :: rest)
    (hserves : ∀ a as, m.activations = a :: as → a.depth < m.frames.length) :
    ∃ fs, rest = fs ++ m₀.frames ∧ m.Runs D m₀ a₀ own f fs ∧
      ∀ e ∈ m.openCells, e ∈ m₀.openCells ∨ Frame.Held D (own.owner e.2) e.1 (f :: fs) := by
  obtain ⟨fs, hfs, howned⟩ := h.owned
  obtain ⟨a, as, ha, hl⟩ := h.layers
  cases fs with
  | nil =>
    -- then the innermost activation would have begun over more frames than there are
    have hlt := hserves a as ha
    have hge := hl.old_le h0
    rw [hfs, List.nil_append] at hlt
    omega
  | cons g fs =>
    have hheads : f :: rest = g :: (fs ++ m₀.frames) := hf.symm.trans hfs
    obtain ⟨rfl, rfl⟩ := List.cons.inj hheads
    exact ⟨fs, rfl, ⟨hf, h.spared, h.known, ⟨a, as, ha, hserves a as ha, hl⟩,
      fun e he => (howned e he).imp_right fun hheld => hheld.imp (fun hholds => hholds.2.2.1) And.right⟩, howned⟩

theorem Stands.clear_top (h : m.Stands D m₀ a₀ own) : m.Clear D m₀ own m.frameTop := by
  obtain ⟨fs, hfs, howned⟩ := h.owned
  refine fun e he => (howned e he).imp_right fun hheld hg => ?_
  cases fs with
  | nil => exact hheld.elim
  | cons f fs =>
    rw [m.frameTop_eq, hfs]
    exact Nat.le_of_lt (hheld.lt_topOver hg)

theorem Clear.calm {slot low : Nat} (h : m.Clear D m₀ own slot) (hs : m.Spares low (fun _ => False) m') :
    m'.Clear D m₀ own slot := fun e he =>
  (hs.opened e he).elim (h e) fun ⟨_, _, hno⟩ => hno.elim

theorem Runs.calm {f : Frame} {fs : List Frame} (h : m.Runs D m₀ a₀ own f fs)
    (hs : m.Spares a₀.slot (fun _ => False) m') (hf : m'.frames = m.frames)
    (ha : m'.activations = m.activations) : m'.Runs D m₀ a₀ own f fs where
  frames_eq := hf.trans h.frames_eq
  spared := h.spared.trans (hs.imp (Nat.le_refl _) fun _ => False.elim)
  known := Nat.le_trans h.known hs.cellsSize
  layers := by rw [hf, ha]; exact h.layers
  owned := fun e he => (hs.opened e he).elim (h.owned e) fun ⟨_, _, hno⟩ => hno.elim

theorem Runs.goto {f : Frame} {fs : List Frame} (h0 : a₀.depth = m₀.frames.length)
    (h : m.Runs D m₀ a₀ own f fs) (pc executed : Nat) :
    { m with executed := executed, frames := { f with pc := pc } :: (fs ++ m₀.frames) }.Runs D m₀ a₀ own
      { f with pc := pc } fs where
  frames_eq := rfl
  spared := h.spared.trans (.same h.spared.tidy rfl rfl rfl)
  known := h.known
  layers := by
    obtain ⟨a, as, ha, hd, hl⟩ := h.layers
    rw [h.frames_eq] at hd hl
    exact ⟨a, as, ha, hd, (hl.head h0 hd).2.2 _ rfl⟩
  owned := h.owned

theorem Runs.pop {f : Frame} {fs : List Frame} (h0 : a₀.depth = m₀.frames.length)
    (h : m.Runs D m₀ a₀ own f fs) (hbelow : ∀ e ∈ m.openCells, e ∈ m₀.openCells ∨ e.1 < f.base) :
    { m with frames := fs ++ m₀.frames }.Stands D m₀ a₀ own where
  spared := h.spared.trans (.same h.spared.tidy rfl rfl rfl)
  known := h.known
  layers := by
    obtain ⟨a, as, ha, hd, hl⟩ := h.layers
    rw [h.frames_eq] at hd hl
    exact ⟨a, as, ha, (hl.head h0 hd).2.1⟩
  owned := by
    refine ⟨fs, rfl, fun e he => ?_⟩
    rcases hbelow e he with hold | hlt
    · exact .inl hold
    · exact (h.owned e he).imp_right fun hheld => hheld.resolve_left (Nat.not_le.mpr hlt)

end Machine

end LuaMachine
