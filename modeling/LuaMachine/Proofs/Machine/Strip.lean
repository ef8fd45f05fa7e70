/-
  WHAT ONLY EXPLAINS ERRORS IS NOT LOOKED AT OTHERWISE. Two machines are alike if their functions are, and
  they agree in all the rest; functions are alike if stripping makes them equal. As long as nothing is
  raised, alike machines do the same.

  * `Machine.strip_unnoticed` -- **a function and the stripped one do the same when nothing is raised**.
-/
import LuaMachine.Proofs.Machine.Restore
import Mathlib.Data.List.Forall2

namespace LuaMachine

/-! ## 1. Machines alike -/

namespace Proto

mutual

theorem strip_strip : ∀ p : Proto, p.strip.strip = p.strip
  | ⟨_, _, protos, upvalues, _, _, _, _, _, _, _, _⟩ => by
    rw [strip, strip, stripAll_stripAll protos, List.map_map]
    rfl

theorem stripAll_stripAll : ∀ ps : List Proto, stripAll (stripAll ps) = stripAll ps
  | [] => rfl
  | p :: ps => by rw [stripAll, stripAll, strip_strip p, stripAll_stripAll ps]

end

def Alike (p q : Proto) : Prop := p.strip = q.strip

theorem Alike.refl (p : Proto) : p.Alike p := rfl

theorem alike_strip (p : Proto) : p.Alike p.strip := (strip_strip p).symm

namespace Alike

variable {p q : Proto}

theorem fields (h : p.Alike q) : q.code = p.code ∧ q.constants = p.constants ∧ q.protos.map strip = p.protos.map strip ∧
    q.upvalues.map Chunk.Reads.unnamed = p.upvalues.map Chunk.Reads.unnamed ∧ q.params = p.params ∧
    q.isVararg = p.isVararg ∧ q.maxStack = p.maxStack := by
  unfold Alike at h
  rw [Chunk.strip_eq, Chunk.strip_eq q] at h
  injection h with hcode hconstants hprotos hupvalues hparams hvararg hmax
  exact ⟨hcode.symm, hconstants.symm, hprotos.symm, hupvalues.symm, hparams.symm, hvararg.symm, hmax.symm⟩

theorem code (h : p.Alike q) : q.code = p.code := h.fields.1

theorem constants (h : p.Alike q) : q.constants = p.constants := h.fields.2.1

theorem upvalues (h : p.Alike q) : q.upvalues.map Chunk.Reads.unnamed = p.upvalues.map Chunk.Reads.unnamed :=
  h.fields.2.2.2.1

theorem params (h : p.Alike q) : q.params = p.params := h.fields.2.2.2.2.1

theorem isVararg (h : p.Alike q) : q.isVararg = p.isVararg := h.fields.2.2.2.2.2.1

theorem maxStack (h : p.Alike q) : q.maxStack = p.maxStack := h.fields.2.2.2.2.2.2

theorem nested (h : p.Alike q) {k : Nat} {r : Proto} (hr : p.protos[k]? = some r) :
    ∃ r', q.protos[k]? = some r' ∧ r.Alike r' := by
  have hk := congrArg (·[k]?) h.fields.2.2.1
  simp only [List.getElem?_map, hr, Option.map_some] at hk
  obtain ⟨r', hr', heq⟩ := Option.map_eq_some_iff.mp hk
  exact ⟨r', hr', heq.symm⟩

end Alike

end Proto

inductive Frame.Alike (f : Frame) : Frame → Prop where
  | intro {q : Proto} (h : f.proto.Alike q) : Alike f { f with proto := q }

namespace Frame.Alike

variable {f g : Frame}

theorem code (h : f.Alike g) : g.proto.code = f.proto.code := by
  cases h with
  | intro h => exact h.code

theorem constants (h : f.Alike g) : g.proto.constants = f.proto.constants := by
  cases h with
  | intro h => exact h.constants

theorem pc (h : f.Alike g) : g.pc = f.pc := by
  cases h
  rfl

theorem proto (h : f.Alike g) : f.proto.Alike g.proto := by
  cases h with
  | intro h => exact h

theorem slot (h : f.Alike g) : g.slot = f.slot := by
  cases h
  rfl

theorem wanted (h : f.Alike g) : g.wanted = f.wanted := by
  cases h
  rfl

theorem cells (h : f.Alike g) : g.cells = f.cells := by
  cases h
  rfl

theorem varargs (h : f.Alike g) : g.varargs = f.varargs := by
  cases h
  rfl

theorem base (h : f.Alike g) : g.base = f.base := by
  cases h
  rfl

theorem top (h : f.Alike g) : g.top = f.top := by
  cases h with
  | intro h => rw [Frame.top, Frame.top, h.maxStack]; rfl

theorem move (h : f.Alike g) (pc : Nat) : { f with pc := pc }.Alike { g with pc := pc } := by
  cases h with
  | intro h => exact .intro (f := { f with pc := pc }) h

end Frame.Alike

inductive Function.Alike : Function → Function → Prop where
  | host (h : HostFn) : Alike (.host h) (.host h)
  | script {p q : Proto} (h : p.Alike q) (cells : Array Nat) : Alike (.script p cells) (.script q cells)

theorem Function.Alike.refl : ∀ fn : Function, fn.Alike fn
  | .host h => .host h
  | .script p cells => .script (.refl p) cells

theorem Frame.Alike.refl (f : Frame) : f.Alike f := .intro (.refl f.proto)

namespace Machine

/-- Machines that differ in nothing but what explains errors: all values, tables and cells are the
    same, and functions of the same number are alike. -/
inductive Alike (m : Machine) : Machine → Prop where
  | intro {frames : List Frame} {functions : Array Function} (hframes : List.Forall₂ Frame.Alike m.frames frames)
      (hfunctions : List.Forall₂ Function.Alike m.functions.toList functions.toList) :
      Alike m { m with frames := frames, functions := functions }

theorem Alike.refl (m : Machine) : m.Alike m :=
  .intro (List.forall₂_same.mpr fun f _ => .refl f) (List.forall₂_same.mpr fun fn _ => .refl fn)

variable {m n : Machine}

theorem Alike.function (h : m.Alike n) {id : Nat} {fn : Function} (hfn : m.functions[id]? = some fn) :
    ∃ gn, n.functions[id]? = some gn ∧ fn.Alike gn := by
  obtain ⟨_, hfunctions⟩ := h
  obtain ⟨hlength, hget⟩ := List.forall₂_iff_get.mp hfunctions
  obtain ⟨hid, rfl⟩ := Array.getElem?_eq_some_iff.mp hfn
  have hid' : id < _ := Nat.lt_of_lt_of_eq hid hlength
  exact ⟨_, Array.getElem?_eq_getElem hid', hget id hid hid'⟩

theorem Alike.frames (h : m.Alike n) : List.Forall₂ Frame.Alike m.frames n.frames := by
  obtain ⟨hframes, _⟩ := h
  exact hframes

theorem Alike.withFrames (h : m.Alike n) {fs gs : List Frame} (hframes : List.Forall₂ Frame.Alike fs gs) :
    { m with frames := fs }.Alike { n with frames := gs } := by
  obtain ⟨_, hfunctions⟩ := h
  exact .intro (m := { m with frames := fs }) hframes hfunctions

theorem Alike.frames_cases (h : m.Alike n) : m.frames = [] ∧ n.frames = [] ∨
    ∃ f rest g rest', m.frames = f :: rest ∧ n.frames = g :: rest' ∧ f.Alike g ∧ List.Forall₂ Frame.Alike rest rest' := by
  have hframes := h.frames
  generalize m.frames = fs at hframes ⊢
  generalize n.frames = gs at hframes ⊢
  cases hframes with
  | nil => exact .inl ⟨rfl, rfl⟩
  | cons hf hrest => exact .inr ⟨_, _, _, _, rfl, rfl, hf, hrest⟩

theorem Alike.frameTop (h : m.Alike n) : n.frameTop = m.frameTop := by
  have htop : n.top = m.top := by
    obtain ⟨_, _⟩ := h
    rfl
  unfold Machine.frameTop
  obtain ⟨hm, hn⟩ | ⟨f, rest, g, rest', hm, hn, hf, _⟩ := h.frames_cases
  · rw [hm, hn]
    exact htop
  · rw [hm, hn]
    dsimp only
    rw [hf.top, htop]

end Machine

/-! ## 2. Operations that do the same -/

namespace Exec

open Machine

variable {α β γ δ : Type}

/-- What the first operation does, if it succeeds, the second one does from a machine alike: their
    answers are related by `Q`, and the machines are alike again. -/
def Mirrors (Q : α → β → Prop) (x : Exec α) (y : Exec β) : Prop :=
  ∀ ⦃m n : Machine⦄, m.Alike n → ∀ ⦃a : α⦄ ⦃m' : Machine⦄, x m = .ok a m' →
    ∃ b n', y n = .ok b n' ∧ Q a b ∧ m'.Alike n'

abbrev Blind (x : Exec α) : Prop := Mirrors Eq x x

section

variable {P : α → β → Prop} {Q : γ → δ → Prop} {x : Exec α} {y : Exec β} {k : α → Exec γ} {l : β → Exec δ}

theorem Mirrors.bind (hx : Mirrors P x y) (hk : ∀ a b, P a b → Mirrors Q (k a) (l b)) :
    Mirrors Q (x >>= k) (y >>= l) := by
  intro m n h c m' hc
  change EStateM.bind x k m = _ at hc
  unfold EStateM.bind at hc
  split at hc
  · next a m1 ha =>
    obtain ⟨b, n1, hb, hab, h1⟩ := hx h ha
    obtain ⟨d, n', hd, hcd, h'⟩ := hk a b hab h1 hc
    refine ⟨d, n', ?_, hcd, h'⟩
    show EStateM.bind y l n = _
    rw [EStateM.bind, hb]
    exact hd
  · cases hc

theorem Blind.next (hx : Blind x) {k : α → Exec γ} {l : α → Exec δ} (hk : ∀ a, Mirrors Q (k a) (l a)) :
    Mirrors Q (x >>= k) (x >>= l) :=
  Mirrors.bind hx fun a _ hab => hab ▸ hk a

theorem Blind.bind (hx : Blind x) (hk : ∀ a, Blind (k a)) : Blind (x >>= k) := hx.next hk

theorem Mirrors.pure {a : α} {b : β} (h : P a b) : Mirrors P (Pure.pure a) (Pure.pure b) := by
  intro m n hmn a' m' hx
  cases hx
  exact ⟨b, n, rfl, h, hmn⟩

theorem Blind.pure (a : α) : Blind (Pure.pure a : Exec α) := Mirrors.pure rfl

theorem Mirrors.of_failWith (e : Failure) : Mirrors P (failWith e) y := fun _ _ _ _ _ hx => nomatch hx

theorem Mirrors.of_fail (f : RuntimeFault) : Mirrors P (fail f) y := fun _ _ _ _ _ hx => nomatch hx

theorem Mirrors.of_stuck : Mirrors P stuck y := fun _ _ _ _ _ hx => nomatch hx

theorem Mirrors.get {k : Machine → Exec γ} {l : Machine → Exec δ} (h : ∀ m n, m.Alike n → Mirrors Q (k m) (l n)) :
    Mirrors Q (MonadState.get >>= k) (MonadState.get >>= l) :=
  fun m n hmn _ _ hx => h m n hmn hmn hx

theorem Blind.get {k : Machine → Exec γ}
    (hsame : ∀ m frames functions, k { m with frames := frames, functions := functions } = k m)
    (h : ∀ m, Blind (k m)) : Blind (MonadState.get >>= k) :=
  Mirrors.get fun m n hmn => by
    obtain @⟨frames, functions, _, _⟩ := hmn
    rw [hsame m frames functions]
    exact h m

theorem Mirrors.update {g g' : Machine → Machine} (h : ∀ m n, m.Alike n → (g m).Alike (g' n)) :
    Mirrors Eq (modify g : Exec Unit) (modify g' : Exec Unit) := by
  intro m n hmn a m' hx
  cases hx
  exact ⟨(), _, rfl, rfl, h m n hmn⟩

theorem Blind.update {g : Machine → Machine}
    (h : ∀ m frames functions, g { m with frames := frames, functions := functions } =
      { g m with frames := frames, functions := functions })
    (hframes : ∀ m, (g m).frames = m.frames) (hfunctions : ∀ m, (g m).functions = m.functions) :
    Blind (modify g : Exec Unit) :=
  Mirrors.update fun m n hmn => by
    obtain @⟨frames, functions, hfs, hgs⟩ := hmn
    rw [h m frames functions]
    rw [← hframes m] at hfs
    rw [← hfunctions m] at hgs
    exact .intro hfs hgs

end

/-! ## 3. The stack, cells and tables -/

theorem Blind.need (o : Option α) : Blind (need o) := by
  cases o with
  | none => exact .of_stuck
  | some a => exact .pure a

theorem Blind.ensure (n : Nat) : Blind (ensure n) := by
  refine .update (fun m _ _ => ?_) (fun m => ?_) fun m => ?_ <;> split <;> rfl

theorem Blind.read (i : Nat) : Blind (read i) := .get (fun _ _ _ => rfl) fun _ => .need _

theorem Blind.write (i : Nat) (v : Value) : Blind (write i v) := by
  intro m n hmn a m' hx
  obtain ⟨hfs, hgs⟩ := hmn
  unfold Exec.write at hx
  split at hx
  · next hi =>
    cases hx
    refine ⟨(), _, dif_pos hi, rfl, ?_⟩
    exact .intro (m := { m with stack := m.stack.set i v }) hfs hgs
  · cases hx

theorem Blind.readMany (i n : Nat) : Blind (readMany i n) :=
  .get (fun _ _ _ => rfl) fun m => by
    split
    · exact .pure _
    · exact .of_stuck

theorem Blind.writeMany (i : Nat) (vs : List Value) : Blind (writeMany i vs) := by
  induction vs generalizing i with
  | nil => exact .pure ()
  | cons v vs ih => exact .bind (.write i v) fun _ => ih _

theorem Blind.clear (i n : Nat) : Blind (clear i n) := by
  induction n with
  | zero => exact .pure ()
  | succ n ih => exact .bind (.write _ _) fun _ => ih

theorem Blind.place (i : Nat) (vs : List Value) (wanted : Option Nat) : Blind (place i vs wanted) := by
  cases wanted with
  | some n => exact .bind (.ensure _) fun _ => .writeMany _ _
  | none =>
    exact .bind (.ensure _) fun _ => .bind (.writeMany _ _) fun _ =>
      .update (fun _ _ _ => rfl) (fun _ => rfl) fun _ => rfl

theorem Blind.readCell (c : Nat) : Blind (readCell c) :=
  .get (fun _ _ _ => rfl) fun _ => .bind (.need _) fun cell => by
    cases cell with
    | live slot => exact .read slot
    | closed v => exact .pure v

theorem Blind.writeCell (c : Nat) (v : Value) : Blind (writeCell c v) :=
  .get (fun _ _ _ => rfl) fun _ => .bind (.need _) fun cell => by
    cases cell with
    | live slot => exact .write slot v
    | closed _ => exact .update (fun _ _ _ => rfl) (fun _ => rfl) fun _ => rfl

theorem Blind.newCell (c : Cell) : Blind (newCell c) := by
  intro m n hmn a m' hx
  obtain ⟨hfs, hgs⟩ := hmn
  cases hx
  exact ⟨_, _, rfl, rfl, .intro (m := { m with cells := m.cells.push c }) hfs hgs⟩

theorem Blind.capture (slot : Nat) : Blind (capture slot) :=
  .get (fun _ _ _ => rfl) fun m => by
    split
    · exact .pure _
    · exact .bind (.newCell _) fun _ => .bind (.update (fun _ _ _ => rfl) (fun _ => rfl) fun _ => rfl) fun _ => .pure _

theorem Blind.closeFrom (level : Nat) (es : List (Nat × Nat)) : Blind (closeFrom level es) := by
  induction es with
  | nil => exact .pure _
  | cons e es ih =>
    unfold Exec.closeFrom
    split
    · exact .pure _
    · exact .bind (.read _) fun _ => .bind (.update (fun _ _ _ => rfl) (fun _ => rfl) fun _ => rfl) fun _ => ih

theorem Blind.close (level : Nat) : Blind (close level) :=
  .get (fun _ _ _ => rfl) fun _ => .bind (.closeFrom _ _) fun _ =>
    .update (fun _ _ _ => rfl) (fun _ => rfl) fun _ => rfl

theorem Blind.newTable (t : Table) : Blind (newTable t) := by
  intro m n hmn a m' hx
  obtain ⟨hfs, hgs⟩ := hmn
  cases hx
  exact ⟨_, _, rfl, rfl, .intro (m := { m with tables := m.tables.push t }) hfs hgs⟩

theorem Blind.table (id : Nat) : Blind (table id) := .get (fun _ _ _ => rfl) fun _ => .need _

theorem Blind.setKey (id : Nat) (key v : Value) : Blind (setKey id key v) := by
  unfold Exec.setKey
  split
  · exact .of_fail _
  · exact .update (fun _ _ _ => rfl) (fun _ => rfl) fun _ => rfl
  · exact .update (fun _ _ _ => rfl) (fun _ => rfl) fun _ => rfl

theorem Blind.setKeys (id : Nat) (first : Int) (vs : List Value) : Blind (setKeys id first vs) := by
  induction vs generalizing first with
  | nil => exact .pure ()
  | cons v vs ih => exact .bind (.update (fun _ _ _ => rfl) (fun _ => rfl) fun _ => rfl) fun _ => ih _

theorem Blind.openCount (start b : Nat) : Blind (openCount start b) := by
  unfold Exec.openCount
  split
  · exact .pure _
  · exact .get (fun _ _ _ => rfl) fun _ => .pure _

theorem Mirrors.newFunction {fn gn : Function} (h : fn.Alike gn) : Mirrors Eq (newFunction fn) (newFunction gn) := by
  intro m n hmn a m' hx
  obtain @⟨frames, functions, hfs, hgs⟩ := hmn
  cases hx
  refine ⟨_, _, rfl, ?_, .intro (m := { m with functions := m.functions.push fn }) hfs ?_⟩
  · show Value.function m.functions.size = .function functions.size
    rw [← Array.length_toList, hgs.length_eq, Array.length_toList]
  · show List.Forall₂ Function.Alike (m.functions.push fn).toList (functions.push gn).toList
    rw [Array.toList_push, Array.toList_push]
    exact List.rel_append hgs (.cons h .nil)

theorem Blind.newFunction (fn : Function) : Blind (newFunction fn) := Mirrors.newFunction (.refl fn)

theorem Mirrors.newCells (v : Value) (acc : Array Nat) {us us' : List UpvalueDesc} (h : us'.length = us.length) :
    Mirrors Eq (newCells v acc us) (newCells v acc us') := by
  induction us generalizing v acc us' with
  | nil =>
    cases us' with
    | nil => exact .pure rfl
    | cons => cases h
  | cons u us ih =>
    cases us' with
    | nil => cases h
    | cons u' us' => exact Blind.next (.newCell _) fun _ => ih _ _ (Nat.succ.inj h)

theorem Mirrors.ofMain {p q : Proto} (h : p.Alike q) (env : Value) : Mirrors Eq (ofMain p env) (ofMain q env) := by
  have hlength : q.upvalues.length = p.upvalues.length := by
    have := congrArg List.length h.upvalues
    rwa [List.length_map, List.length_map] at this
  refine (Mirrors.newCells _ _ hlength).bind fun cells _ hcells => ?_
  subst hcells
  exact .newFunction (.script h cells)

/-! ## 4. Library functions -/

section

variable {h : HostFn} {args : List Value} {i : Nat}

theorem Blind.argument : Blind (argument h args i) := by
  unfold Exec.argument
  split
  · exact .pure _
  · exact .of_fail _

theorem Blind.tableArgument : Blind (tableArgument h args i) := by
  unfold Exec.tableArgument
  split
  · exact .pure _
  · exact .of_fail _

theorem Blind.intArgument : Blind (intArgument h args i) := by
  unfold Exec.intArgument
  split
  · split
    · exact .pure _
    · split <;> exact .of_fail _
  · exact .of_fail _

theorem Blind.intArgumentOr (otherwise : Int64) : Blind (intArgumentOr h args i otherwise) := by
  unfold Exec.intArgumentOr
  split
  · exact .pure _
  · exact .intArgument

theorem Blind.stringArgument : Blind (stringArgument h args i) := by
  unfold Exec.stringArgument
  split
  · exact .pure _
  · exact .of_fail _

theorem Blind.stringArgumentOr (otherwise : Bytes) : Blind (stringArgumentOr h args i otherwise) := by
  unfold Exec.stringArgumentOr
  split
  · exact .pure _
  · exact .stringArgument

theorem Blind.printLine (vs : List Value) : Blind (printLine vs) :=
  .get (fun _ _ _ => rfl) fun _ => by
    split
    · exact .of_fail _
    · exact .update (fun _ _ _ => rfl) (fun _ => rfl) fun _ => rfl

theorem Blind.toNumber : Blind (toNumber args) := by
  unfold Exec.toNumber
  split
  · exact .bind .argument fun _ => .pure _
  · refine .bind .intArgument fun base => ?_
    split
    · split
      · exact .pure _
      · exact .of_fail _
    · exact .of_fail _

theorem Blind.selectFrom : Blind (selectFrom args) := by
  unfold Exec.selectFrom
  dsimp only
  split
  · exact .pure _
  · refine .bind .intArgument fun n => ?_
    split <;> split <;> first | exact .of_fail _ | exact .pure _

theorem Blind.raiseValue (v : Value) (level : Int) : Blind (raiseValue v level : Exec α) :=
  Mirrors.get fun m n _ => by
    split
    · split <;> exact .of_failWith _
    · exact .of_failWith _

theorem Blind.unpackFrom : Blind (unpackFrom args) := by
  refine .bind .tableArgument fun id => .bind (.table id) fun t => .bind (.intArgumentOr _) fun first => ?_
  extract_lets first upTo
  have hupTo : ∀ last, Blind (upTo last) := by
    intro last
    unfold upTo
    split
    · exact .pure _
    · split
      · exact .of_fail _
      · exact .pure _
  split
  · exact .bind (.pure _) hupTo
  · exact .bind .intArgument fun _ => .bind (.pure _) hupTo

theorem Blind.collect : Blind (collect args) :=
  .bind (.stringArgumentOr _) fun option => by
    split <;> first | exact .pure _ | exact .of_fail _

theorem Blind.loadChunk (chunk : Bytes) (name : String) (env : Value) : Blind (loadChunk chunk name env) := by
  unfold Exec.loadChunk
  split
  · next p _ => exact .bind (.ofMain (.refl p) env) fun _ => .pure _
  · exact .pure _

theorem Blind.loadWith (chunk : Bytes) (name : String) : Blind (loadWith chunk name args) := by
  unfold Exec.loadWith
  extract_lets named
  have hnamed : ∀ name : String, Blind (named name) := fun name =>
    .bind (.stringArgumentOr _) fun mode => by
      split
      split
      · exact .pure _
      · refine .get (fun _ _ _ => rfl) fun m => .bind (.loadChunk _ _ _) fun r => ?_
        split <;> exact .pure _
  split
  · exact .bind (.pure _) fun _ => hnamed _
  · exact .bind .stringArgument fun _ => .bind (.pure _) fun _ => hnamed _

/-- **A library function that calls no other.** -/
theorem simple_blind : Blind (simple h args) := by
  unfold Exec.simple
  cases h <;> dsimp only
  case print => exact .bind (.printLine _) fun _ => .pure _
  case type | tostring => exact .bind .argument fun _ => .pure _
  case tonumber => exact .toNumber
  case ipairs | pairs => exact .bind .tableArgument fun _ => .bind (.newFunction _) fun _ => .pure _
  case ipairsStep =>
    refine .bind .tableArgument fun _ => .bind (.table _) fun _ => .bind .intArgument fun _ => ?_
    split <;> exact .pure _
  case next =>
    refine .bind .tableArgument fun _ => .bind (.table _) fun _ => ?_
    split
    · exact .pure _
    · exact .pure _
    · exact .of_fail _
  case select => exact .selectFrom
  case rawget => exact .bind .tableArgument fun _ => .bind .argument fun _ => .bind (.table _) fun _ => .pure _
  case rawset =>
    exact .bind .tableArgument fun _ => .bind .argument fun _ => .bind .argument fun _ =>
      .bind (.setKey _ _ _) fun _ => .pure _
  case rawequal => exact .bind .argument fun _ => .bind .argument fun _ => .pure _
  case rawlen =>
    split
    · exact .bind (.table _) fun _ => .pure _
    · exact .pure _
    · exact .of_fail _
  case assert =>
    refine .bind .argument fun v => ?_
    split
    · exact .raiseValue _ _
    · exact .pure _
  case error => exact .bind (.intArgumentOr _) fun _ => .raiseValue _ _
  case unpack => exact .unpackFrom
  case collectgarbage => exact .collect
  case pcall | load => exact .pure _

end

/-! ## 5. Running functions and calls -/

theorem Mirrors.set {m n : Machine} (h : m.Alike n) : Mirrors Eq (set m : Exec Unit) (set n : Exec Unit) := by
  intro _ _ _ a m' hx
  cases hx
  exact ⟨(), n, rfl, rfl, h⟩

theorem Mirrors.needFunction {m n : Machine} (h : m.Alike n) (id : Nat) :
    Mirrors Function.Alike (need m.functions[id]?) (need n.functions[id]?) := by
  cases hfn : m.functions[id]? with
  | none => exact .of_stuck
  | some fn =>
    obtain ⟨gn, hgn, halike⟩ := h.function hfn
    rw [hgn]
    exact .pure halike

theorem Mirrors.modifyFrame {g g' : Frame → Frame} (h : ∀ f f', f.Alike f' → (g f).Alike (g' f')) :
    Mirrors Eq (modifyFrame g) (modifyFrame g') :=
  Mirrors.update fun m n hmn => by
    obtain ⟨hm, hn⟩ | ⟨f, rest, f', rest', hm, hn, hf, hrest⟩ := hmn.frames_cases
    · rw [hm, hn]
      exact hmn
    · rw [hm, hn]
      exact hmn.withFrames (.cons (h f f' hf) hrest)

theorem Blind.skip : Blind skip :=
  Mirrors.modifyFrame fun f f' h => by
    rw [h.pc]
    exact h.move _

theorem Blind.jump (distance : Int) : Blind (jump distance) :=
  Mirrors.modifyFrame fun f f' h => by
    rw [h.pc, h.code]
    exact h.move _

theorem Mirrors.pushFrame {p q : Proto} (h : p.Alike q) (slot nargs : Nat) (wanted : Option Nat) (cells : Array Nat) :
    Mirrors Eq (pushFrame slot nargs wanted p cells) (pushFrame slot nargs wanted q cells) := by
  unfold Exec.pushFrame
  rw [h.maxStack, h.params, h.isVararg]
  extract_lets base top params start begun begun'
  have hbegun : ∀ varargs, Mirrors Eq (begun varargs) (begun' varargs) := by
    intro varargs
    unfold begun begun'
    extract_lets cleared cleared'
    have hpushed : ∀ u, Mirrors Eq (cleared u) (cleared' u) := fun _ =>
      Blind.next (.clear _ _) fun _ => .update fun m n hmn => hmn.withFrames (.cons (.intro h) hmn.frames)
    split
    · exact Blind.next Mirrors.of_stuck hpushed
    · exact hpushed ()
  refine Blind.next (.ensure _) fun _ => ?_
  split
  · exact Blind.next (.readMany _ _) hbegun
  · exact hbegun []

theorem Mirrors.of_failCall {P : α → β → Prop} (slot : Nat) (v : Value) (y : Exec β) :
    Mirrors P (failCall slot v : Exec α) y := by
  intro m n _ a m' hx
  unfold failCall at hx
  rw [bind_of_ok (show (MonadState.get : Exec Machine) m = .ok m m from rfl)] at hx
  cases hm : m.frames with
  | nil =>
    simp only [hm] at hx
    cases hx
  | cons f rest =>
    simp only [hm] at hx
    split at hx <;> cases hx

theorem Blind.beginCall (slot nargs : Nat) (wanted : Option Nat) (ret : HostReturn) :
    Blind (beginCall slot nargs wanted ret) := by
  refine .bind (.read _) fun v => ?_
  split
  · refine Mirrors.get fun m n hmn => (Mirrors.needFunction hmn _).bind fun fn gn halike => ?_
    cases halike with
    | host h => exact Blind.bind (.readMany _ _) fun _ => .pure _
    | script h cells =>
      obtain @⟨frames, functions, hfs, hgs⟩ := hmn
      dsimp only
      rw [hfs.length_eq]
      split
      · exact .of_failWith _
      · exact (Mirrors.pushFrame h _ _ _ _).bind fun _ _ _ => .pure rfl
  · exact .of_failCall _ _ _

theorem Blind.endCall (vs : List Value) : Blind (endCall vs) := by
  refine Mirrors.get fun m n hmn => ?_
  obtain ⟨hm, hn⟩ | ⟨f, rest, f', rest', hm, hn, hf, hrest⟩ := hmn.frames_cases
  · rw [hm, hn]
    exact .pure rfl
  · have hactivations : n.activations = m.activations := by
      obtain ⟨_, _⟩ := hmn
      rfl
    rw [hm, hn]
    refine (Mirrors.set (hmn.withFrames hrest)).bind fun _ _ _ => ?_
    rw [hactivations, hf.wanted, hf.slot, ← hrest.length_eq]
    have hends : ∀ depth, Blind (if rest.length ≤ depth then Pure.pure (Mode.deliver vs) else do
        Exec.place f.slot vs f.wanted
        Pure.pure Mode.run) := by
      intro depth
      split
      · exact .pure _
      · exact .bind (.place _ _ _) fun _ => .pure _
    exact hends _

theorem Blind.finish (ret : HostReturn) (vs : List Value) : Blind (finish ret vs) := by
  cases ret with
  | place dest wanted => exact .bind (.place _ _ _) fun _ => .pure _
  | tail base => exact .bind (.close _) fun _ => .endCall _
  | answer => exact .pure _

theorem Blind.settleFailure (purpose : Purpose) (e : Failure) : Blind (settleFailure purpose e) := by
  unfold Exec.settleFailure
  split
  · split
    · exact .finish _ _
    · exact .of_failWith _
  · exact .of_failWith _

theorem Blind.activate (f : Value) (args : List Value) (purpose : Purpose) : Blind (activate f args purpose) := by
  refine Mirrors.get fun m n hmn => ?_
  have hactivations : n.activations = m.activations := by
    obtain ⟨_, _⟩ := hmn
    rfl
  rw [hactivations, hmn.frameTop]
  split
  · exact Blind.settleFailure _ _
  · refine Blind.bind (.ensure _) fun _ => .bind (.writeMany _ _) fun _ => ?_
    refine Blind.bind (Mirrors.update fun m' n' h => ?_) fun _ => .beginCall _ _ _ _
    obtain @⟨frames, functions, hfs, hgs⟩ := h
    dsimp only
    rw [hfs.length_eq]
    exact .intro (m := { m' with activations := ⟨frames.length, m.frameTop, m'.top, purpose⟩ :: m'.activations }) hfs hgs

/-! ## 6. Instructions -/

section

variable {f g : Frame}

theorem Blind.count : Blind count := by
  refine Mirrors.get fun m n hmn => ?_
  have hcounted : { m with executed := m.executed + 1 }.Alike { n with executed := n.executed + 1 } := by
    obtain ⟨hfs, hgs⟩ := hmn
    exact .intro (m := { m with executed := m.executed + 1 }) hfs hgs
  have hsame : n.executed = m.executed ∧ n.limits = m.limits := by
    obtain ⟨_, _⟩ := hmn
    exact ⟨rfl, rfl⟩
  refine (Mirrors.set hcounted).bind fun _ _ _ => ?_
  rw [hsame.1, hsame.2]
  have hends : ∀ spent : Bool, Blind (if spent then failWith .interrupted else Pure.pure () : Exec Unit) := by
    intro spent
    split
    · exact .of_failWith _
    · exact .pure _
  exact hends _

theorem fetch_mirrors : Mirrors (fun x y => x.1.Alike y.1 ∧ x.2 = y.2) fetch fetch := by
  refine Blind.next .count fun _ => Mirrors.get fun m n hmn => ?_
  obtain ⟨hm, hn⟩ | ⟨f, rest, g, rest', hm, hn, hf, hrest⟩ := hmn.frames_cases
  · rw [hm, hn]
    exact .of_stuck
  · rw [hm, hn]
    have hmoved : { f with pc := f.pc + 1 }.Alike { g with pc := g.pc + 1 } := by
      rw [hf.pc]
      exact hf.move _
    refine (Mirrors.set (hmn.withFrames (.cons hmoved hrest))).bind fun _ _ _ => ?_
    dsimp only
    rw [hf.code, hf.pc]
    split
    · exact .pure ⟨hf.move _, rfl⟩
    · exact .of_fail _

theorem extra_mirrors (hf : f.Alike g) (missing : RuntimeFault) : Mirrors Eq (extra f missing) (extra g missing) := by
  unfold extra
  rw [hf.code, hf.pc]
  refine Blind.bind .skip fun _ => ?_
  split
  · exact .pure _
  · exact .of_fail _

theorem constant_mirrors (hf : f.Alike g) (k : Nat) : Mirrors Eq (constant f k) (constant g k) := by
  unfold constant
  rw [hf.constants]
  exact Blind.bind (.need _) fun _ => .pure _

theorem operand_mirrors (hf : f.Alike g) (x : Nat) : Mirrors Eq (operand f x) (operand g x) := by
  unfold operand
  rw [hf.base]
  split
  · exact constant_mirrors hf _
  · exact Blind.read _

theorem upvalue_mirrors (hf : f.Alike g) (u : Nat) : Mirrors Eq (upvalue f u) (upvalue g u) := by
  unfold upvalue
  rw [hf.cells]
  split
  · exact Blind.pure _
  · exact .of_fail _

theorem getKey_mirrors (v key : Value) (name name' : Unit → Option Naming) :
    Mirrors Eq (getKey v key name) (getKey v key name') := by
  unfold getKey
  cases v with
  | table id => exact Blind.bind (.table _) fun _ => .pure _
  | _ => exact .of_fail _

theorem putKey_mirrors (v key value : Value) (name name' : Unit → Option Naming) :
    Mirrors Eq (putKey v key value name) (putKey v key value name') := by
  unfold putKey
  cases v with
  | table id => exact Blind.setKey _ _ _
  | _ => exact .of_fail _

theorem Mirrors.of_failOperator {P : α → β → Prop} (e : OperandFault) (x y : Value) (b c : Nat) (z : Exec β) :
    Mirrors P (failOperator f e x y b c : Exec α) z := by
  unfold failOperator
  split <;> exact .of_fail _

theorem operate_mirrors (hf : f.Alike g) (op : ArithOp) (a b c : Nat) :
    Mirrors Eq (operate f op a b c) (operate g op a b c) := by
  refine (operand_mirrors hf b).bind fun x _ hx => (operand_mirrors hf c).bind fun y _ hy => ?_
  subst hx hy
  cases Value.arith op x y with
  | ok v =>
    dsimp only
    rw [hf.base]
    exact Blind.write _ _
  | error e => exact .of_failOperator _ _ _ _ _ _

theorem joinRow_mirrors (hf : f.Alike g) (a b c : Nat) :
    Mirrors Eq (do
      let vs ← Exec.readMany (f.base + b) (c + 1 - b)
      match Value.concat vs with
      | .ok s => Exec.write (f.base + a) (.str s)
      | .error i => Exec.fail (.concat (vs[i]?.getD .nil).type (nameOf f (b + i)))) (do
      let vs ← Exec.readMany (g.base + b) (c + 1 - b)
      match Value.concat vs with
      | .ok s => Exec.write (g.base + a) (.str s)
      | .error i => Exec.fail (.concat (vs[i]?.getD .nil).type (nameOf g (b + i)))) := by
  rw [hf.base]
  refine Blind.next (.readMany _ _) fun vs => ?_
  cases Value.concat vs with
  | ok s => exact Blind.write _ _
  | error i => exact .of_fail _

theorem join_mirrors (hf : f.Alike g) (a b c : Nat) : Mirrors Eq (join f a b c) (join g a b c) := by
  unfold join
  split
  · exact Blind.next Mirrors.of_stuck fun _ => joinRow_mirrors hf a b c
  · exact joinRow_mirrors hf a b c

theorem measure_mirrors (hf : f.Alike g) (b : Nat) : Mirrors Eq (measure f b) (measure g b) := by
  unfold measure
  rw [hf.base]
  refine Blind.next (.read _) fun v => ?_
  cases v with
  | table id => exact Blind.bind (.table _) fun _ => .pure _
  | str s => exact Blind.pure _
  | _ => exact .of_fail _

theorem Blind.skipUnless (outcome expected : Bool) : Blind (skipUnless outcome expected) := by
  unfold Exec.skipUnless
  split
  · exact .skip
  · exact .pure _

theorem compareOperands_mirrors (hf : f.Alike g) (i : Instr) (order : Value → Value → Option Bool) :
    Mirrors Eq (compareOperands f i order) (compareOperands g i order) := by
  refine (operand_mirrors hf _).bind fun x _ hx => (operand_mirrors hf _).bind fun y _ hy => ?_
  subst hx hy
  split
  · exact Blind.skipUnless _ _
  · exact .of_fail _

theorem Blind.prepareLoop (ra : Nat) : Blind (prepareLoop ra) := by
  refine .bind (.read _) fun start => .bind (.read _) fun limit => .bind (.read _) fun step => ?_
  dsimp only
  split
  · exact .bind (.write _ _) fun _ => .write _ _
  · split
    · exact .of_fail _
    · exact .of_fail _
    · exact .of_fail _
    · exact .bind (.write _ _) fun _ => .bind (.write _ _) fun _ => .write _ _

theorem Blind.iterate (ra : Nat) (distance : Int) : Blind (iterate ra distance) := by
  refine .bind (.read _) fun index => .bind (.read _) fun limit => .bind (.read _) fun step => ?_
  split
  · exact .bind (.write _ _) fun _ => .bind (.write _ _) fun _ => .jump _
  · exact .pure _

theorem storeItems_mirrors (hf : f.Alike g) (i : Instr) : Mirrors Eq (storeItems f i) (storeItems g i) := by
  unfold storeItems
  rw [hf.base]
  extract_lets ra b counted counted'
  have hcounted : ∀ n, Mirrors Eq (counted n) (counted' n) := by
    intro n
    unfold counted counted'
    extract_lets stored
    have hstored : ∀ block, Blind (stored block) := fun block =>
      .bind (.read _) fun v => by
        split
        · exact .bind (.readMany _ _) fun _ => .setKeys _ _ _
        · exact .of_fail _
    split
    · exact (extra_mirrors hf _).bind fun _ _ hblock => hblock ▸ hstored _
    · exact Blind.bind (.pure _) hstored
  split
  · refine Mirrors.get fun m n hmn => ?_
    obtain ⟨_, _⟩ := hmn
    exact Blind.next (.pure _) hcounted
  · exact Blind.next (.pure _) hcounted

theorem captureAll_mirrors (hf : f.Alike g) (acc : Array Nat) {us us' : List UpvalueDesc}
    (h : us'.map Chunk.Reads.unnamed = us.map Chunk.Reads.unnamed) :
    Mirrors Eq (captureAll f acc us) (captureAll g acc us') := by
  induction us generalizing acc us' with
  | nil =>
    rw [List.map_eq_nil_iff.mp h]
    exact Blind.pure _
  | cons u us ih =>
    cases us' with
    | nil => cases h
    | cons u' us' =>
      obtain ⟨hu, hus⟩ := List.cons.inj h
      have hin : u'.inStack = u.inStack ∧ u'.index = u.index := by
        injection hu with _ hin hindex
        exact ⟨hin, hindex⟩
      unfold captureAll
      rw [hin.1, hin.2, hf.base]
      split
      · exact Blind.next (.capture _) fun _ => ih _ hus
      · exact (upvalue_mirrors hf _).bind fun _ _ hc => hc ▸ ih _ hus

theorem makeClosure_mirrors (hf : f.Alike g) (ra k : Nat) : Mirrors Eq (makeClosure f ra k) (makeClosure g ra k) := by
  unfold makeClosure
  cases hp : f.proto.protos[k]? with
  | none => exact .of_fail _
  | some p =>
    obtain ⟨q, hq, halike⟩ := hf.proto.nested hp
    rw [hq]
    refine (captureAll_mirrors hf _ halike.upvalues).bind fun cells _ hcells => ?_
    subst hcells
    exact (Mirrors.newFunction (.script halike cells)).bind fun v _ hv => hv ▸ Blind.write _ _

theorem Blind.moveDown (src dest n : Nat) : Blind (moveDown src dest n) := by
  induction n generalizing src dest with
  | zero => exact .pure ()
  | succ n ih => exact .bind (.read _) fun _ => .bind (.write _ _) fun _ => .bind (.write _ _) fun _ => ih _ _

theorem tailCall_mirrors (hf : f.Alike g) (ra b : Nat) : Mirrors Eq (tailCall f ra b) (tailCall g ra b) := by
  refine Blind.next (.openCount _ _) fun nargs => Blind.next (.read _) fun v => ?_
  rw [hf.base, hf.slot, hf.wanted]
  cases v with
  | function id =>
    refine Mirrors.get fun m n hmn => (Mirrors.needFunction hmn _).bind fun fn gn halike => ?_
    cases halike with
    | host h => exact Blind.bind (.readMany _ _) fun _ => .pure _
    | script h cells =>
      refine Blind.next (.close _) fun _ => ?_
      have hended : Blind (modify fun m : Machine => { m with frames := m.frames.tail }) :=
        Mirrors.update fun m n hmn => hmn.withFrames (by
          obtain ⟨hm, hn⟩ | ⟨_, _, _, _, hm, hn, _, hrest⟩ := hmn.frames_cases
          · rw [hm, hn]
            exact .nil
          · rw [hm, hn]
            exact hrest)
      exact Blind.bind hended fun _ => .bind (.moveDown _ _ _) fun _ => .beginCall _ _ _ _
  | _ => exact .of_failCall _ _ _

theorem returnValues_mirrors (hf : f.Alike g) (ra b : Nat) : Mirrors Eq (returnValues f ra b) (returnValues g ra b) := by
  unfold returnValues
  rw [hf.base]
  exact Blind.bind (.openCount _ _) fun _ => .bind (.readMany _ _) fun _ => .bind (.close _) fun _ => .endCall _

theorem Blind.call (ra b c : Nat) : Blind (call ra b c) := .bind (.openCount _ _) fun _ => .beginCall _ _ _ _

theorem Blind.callIterator (ra c : Nat) : Blind (callIterator ra c) :=
  .bind (.read _) fun _ => .bind (.write _ _) fun _ => .bind (.read _) fun _ => .bind (.write _ _) fun _ =>
    .bind (.read _) fun _ => .bind (.write _ _) fun _ => .beginCall _ _ _ _

/-- **An instruction that neither calls nor returns.** -/
theorem plain_mirrors (hf : f.Alike g) (i : Instr) (op : Op) : Mirrors Eq (plain f i op) (plain g i op) := by
  unfold plain
  rw [hf.base, hf.varargs]
  cases op <;> dsimp only
  case move => exact Blind.bind (.read _) fun _ => .write _ _
  case loadK => exact (constant_mirrors hf _).bind fun v _ hv => hv ▸ Blind.write _ _
  case loadKx =>
    refine (extra_mirrors hf _).bind fun k _ hk => ?_
    subst hk
    exact (constant_mirrors hf _).bind fun v _ hv => hv ▸ Blind.write _ _
  case loadBool =>
    refine Blind.bind (.write _ _) fun _ => ?_
    split
    · exact .skip
    · exact .pure _
  case loadNil => exact Blind.clear _ _
  case getUpval =>
    refine (upvalue_mirrors hf _).bind fun c _ hc => ?_
    subst hc
    exact Blind.bind (.readCell _) fun _ => .write _ _
  case setUpval =>
    refine (upvalue_mirrors hf _).bind fun c _ hc => ?_
    subst hc
    exact Blind.bind (.read _) fun _ => .writeCell _ _
  case getTabUp =>
    refine (upvalue_mirrors hf _).bind fun c _ hc => ?_
    subst hc
    refine Blind.next (.readCell _) fun t => (operand_mirrors hf _).bind fun key _ hkey => ?_
    subst hkey
    exact (getKey_mirrors _ _ _ _).bind fun v _ hv => hv ▸ Blind.write _ _
  case getTable =>
    refine Blind.next (.read _) fun t => (operand_mirrors hf _).bind fun key _ hkey => ?_
    subst hkey
    exact (getKey_mirrors _ _ _ _).bind fun v _ hv => hv ▸ Blind.write _ _
  case setTabUp =>
    refine (upvalue_mirrors hf _).bind fun c _ hc => ?_
    subst hc
    refine Blind.next (.readCell _) fun t => (operand_mirrors hf _).bind fun key _ hkey => ?_
    subst hkey
    exact (operand_mirrors hf _).bind fun v _ hv => hv ▸ putKey_mirrors _ _ _ _ _
  case setTable =>
    refine Blind.next (.read _) fun t => (operand_mirrors hf _).bind fun key _ hkey => ?_
    subst hkey
    exact (operand_mirrors hf _).bind fun v _ hv => hv ▸ putKey_mirrors _ _ _ _ _
  case newTable => exact Blind.bind (.newTable _) fun _ => .write _ _
  case self =>
    refine Blind.next (.read _) fun object => (operand_mirrors hf _).bind fun key _ hkey => ?_
    subst hkey
    refine (getKey_mirrors _ _ _ _).bind fun method _ hmethod => ?_
    subst hmethod
    exact Blind.bind (.write _ _) fun _ => .write _ _
  case not => exact Blind.bind (.read _) fun _ => .write _ _
  case len => exact (measure_mirrors hf _).bind fun v _ hv => hv ▸ Blind.write _ _
  case concat => exact join_mirrors hf _ _ _
  case jmp =>
    split
    · exact Blind.bind (.close _) fun _ => .jump _
    · exact Blind.jump _
  case eq | lt | le => exact compareOperands_mirrors hf _ _
  case test => exact Blind.bind (.read _) fun _ => .skipUnless _ _
  case testSet =>
    refine Blind.bind (.read _) fun v => ?_
    split
    · exact .skip
    · exact .write _ _
  case forPrep => exact Blind.bind (.prepareLoop _) fun _ => .jump _
  case forLoop => exact Blind.iterate _ _
  case tforLoop =>
    refine Blind.bind (.read _) fun v => ?_
    split
    · exact .bind (.write _ _) fun _ => .jump _
    · exact .pure _
  case setList => exact storeItems_mirrors hf _
  case closure => exact makeClosure_mirrors hf _ _
  case vararg => exact Blind.place _ _ _
  case unm | bnot => exact operate_mirrors hf _ _ _ _
  case call | tailCall | ret | tforCall | extraArg => exact Blind.pure _
  all_goals exact operate_mirrors hf _ _ _ _

/-- **Every instruction**, once it has been fetched. -/
theorem execute_mirrors (hf : f.Alike g) (i : Instr) : Mirrors Eq (execute f i) (execute g i) := by
  unfold execute
  rw [hf.base]
  split
  · exact Blind.call _ _ _
  · exact tailCall_mirrors hf _ _
  · exact returnValues_mirrors hf _ _
  · exact Blind.callIterator _ _
  · exact (plain_mirrors hf _ _).bind fun _ _ _ => Blind.pure _

end

/-! ## 7. Library functions that call others -/

section

variable {args : List Value} {ret : HostReturn}

theorem Blind.loadFrom : Blind (loadFrom args ret) := by
  unfold Exec.loadFrom
  split
  · exact .bind (.loadWith _ _) fun _ => .finish _ _
  · exact .activate _ _ _
  · exact .of_fail _

/-- **Every library function.** -/
theorem host_blind (h : HostFn) : Blind (host h args ret) := by
  have hsimple : ∀ h, Blind (do Exec.finish ret (← simple h args)) := fun h =>
    .bind simple_blind fun _ => .finish _ _
  unfold host
  split
  · exact .bind .argument fun _ => .activate _ _ _
  · exact .loadFrom
  · exact hsimple _

theorem Blind.settleResults (purpose : Purpose) (vs : List Value) : Blind (settleResults purpose vs) := by
  cases purpose with
  | outermost => exact .pure _
  | guarded ret => exact .finish _ _
  | reading pieces args ret =>
    have hwhole : Blind (do Exec.finish ret (← Exec.loadWith pieces.reverse.flatten "=(load)" args)) :=
      .bind (.loadWith _ _) fun _ => .finish _ _
    show Blind (pieceRead pieces args ret vs)
    unfold pieceRead
    dsimp only
    split
    · exact hwhole
    · exact hwhole
    · exact .activate _ _ _
    · exact .finish _ _

end

end Exec

/-! ## 8. Runs in which nothing is raised -/

namespace Machine

open Exec

variable {m n m' : Machine} {mode mode' : Mode} {vs : List Value}

theorem ofExec_alike {x y : Exec Mode} (hxy : Mirrors Eq x y) (h : m.Alike n) (hx : ofExec x m = .more m' mode')
    (hcalm : ∀ e, mode' ≠ .raise e) : ∃ n', ofExec y n = .more n' mode' ∧ m'.Alike n' := by
  unfold ofExec at hx ⊢
  split at hx
  · next mode1 m1 hok =>
    cases hx
    obtain ⟨_, n', hy, rfl, h'⟩ := hxy h hok
    rw [hy]
    exact ⟨n', rfl, h'⟩
  · cases hx
    exact (hcalm _ rfl).elim
  · cases hx

theorem Alike.leave (h : m.Alike n) (a : Activation) (rest : List Activation) :
    (leave a rest m).Alike (leave a rest n) := by
  obtain ⟨hfs, hgs⟩ := h
  exact .intro (m := Machine.leave a rest m) hfs hgs

/-- **A step of machines alike.** What does not come to raising something is the same, and the machines
    are alike afterwards. -/
theorem step_alike (h : m.Alike n) (hmode : ∀ e, mode ≠ .raise e) (hcalm : ∀ e, mode' ≠ .raise e)
    (hs : m.step mode = .more m' mode') : ∃ n', n.step mode = .more n' mode' ∧ m'.Alike n' := by
  have hactivations : n.activations = m.activations := by
    obtain ⟨_, _⟩ := h
    rfl
  cases mode with
  | run =>
    refine ofExec_alike (fetch_mirrors.bind fun x y hxy => ?_) h hs hcalm
    obtain ⟨f, i⟩ := x
    obtain ⟨g, j⟩ := y
    obtain ⟨hf, rfl⟩ := hxy
    exact execute_mirrors hf i
  | host fn args ret => exact ofExec_alike (host_blind fn) h hs hcalm
  | deliver vs =>
    cases ha : m.activations with
    | nil =>
      simp only [step, ha] at hs
      cases hs
    | cons a rest =>
      rw [step_deliver_eq ha] at hs
      rw [step_deliver_eq (hactivations.trans ha)]
      split at hs
      · cases hs
      · exact ofExec_alike (Blind.settleResults _ _) (h.leave a rest) hs hcalm
  | raise e => exact (hmode e rfl).elim

theorem step_alike_results (h : m.Alike n) (hmode : ∀ e, mode ≠ .raise e)
    (hs : m.step mode = .done m' (.results vs)) : ∃ n', n.step mode = .done n' (.results vs) ∧ m'.Alike n' := by
  have hactivations : n.activations = m.activations := by
    obtain ⟨_, _⟩ := h
    rfl
  cases mode with
  | run | host => exact nomatch ofExec_done hs
  | deliver ws =>
    cases ha : m.activations with
    | nil =>
      simp only [step, ha] at hs
      cases hs
      exact ⟨n, by simp only [step, hactivations.trans ha], h⟩
    | cons a rest =>
      rw [step_deliver_eq ha] at hs
      rw [step_deliver_eq (hactivations.trans ha)]
      split at hs
      · cases hs
        exact ⟨_, rfl, h.leave a rest⟩
      · exact nomatch ofExec_done hs
  | raise e => exact (hmode e rfl).elim

/-- **A run of machines alike**, in which nothing is raised. -/
theorem runFor_alike {fuel : Nat} (h : m.Alike n) (hcalm : ∀ m1 e, ¬ Reaches m mode m1 (.raise e))
    (hrun : runFor fuel m mode = (m', .results vs)) : ∃ n', runFor fuel n mode = (n', .results vs) ∧ m'.Alike n' := by
  induction fuel generalizing m n mode with
  | zero => cases hrun
  | succ fuel ih =>
    have hmode : ∀ e, mode ≠ .raise e := by
      rintro e rfl
      exact hcalm m e .start
    unfold runFor at hrun ⊢
    split at hrun
    · next m1 mode1 hs =>
      have hcalm1 : ∀ m2 e, ¬ Reaches m1 mode1 m2 (.raise e) := fun m2 e hr => hcalm m2 e (hr.after hs)
      have hmode1 : ∀ e, mode1 ≠ .raise e := by
        rintro e rfl
        exact hcalm1 m1 e .start
      obtain ⟨n1, hs', h1⟩ := step_alike h hmode hmode1 hs
      rw [hs']
      exact ih h1 hcalm1 hrun
    · next m1 o hs =>
      cases hrun
      obtain ⟨n', hs', h'⟩ := step_alike_results h hmode hs
      rw [hs']
      exact ⟨n', rfl, h'⟩

theorem call_alike {f : Value} {args : List Value} {fuel : Nat} {wanted : Option Nat} (h : m.Alike n)
    (hcalm : ∀ m1 e, ¬ m.Calls f args m1 (.raise e)) (hcall : m.call fuel f args wanted = (m', .results vs)) :
    ∃ n', n.call fuel f args wanted = (n', .results vs) ∧ m'.Alike n' := by
  have hfresh : { m with executed := 0 }.Alike { n with executed := 0 } := by
    obtain ⟨hfs, hgs⟩ := h
    exact .intro (m := { m with executed := 0 }) hfs hgs
  unfold call at hcall ⊢
  cases hstart : ofExec (Exec.activate f args .outermost) { m with executed := 0 } with
  | done m1 o =>
    rw [hstart] at hcall
    rw [ofExec_done hstart] at hcall
    cases hcall
  | more m1 mode1 =>
    have hcalm1 : ∀ m2 e, ¬ Reaches m1 mode1 m2 (.raise e) := fun m2 e hr => hcalm m2 e ⟨m1, mode1, hstart, hr⟩
    have hmode1 : ∀ e, mode1 ≠ .raise e := by
      rintro e rfl
      exact hcalm1 m1 e .start
    obtain ⟨n1, hstart', h1⟩ := ofExec_alike (Blind.activate f args .outermost) hfresh hstart hmode1
    rw [hstart] at hcall
    rw [hstart']
    dsimp only at hcall ⊢
    cases hrun : runFor fuel m1 mode1 with
    | mk m2 o =>
      rw [hrun] at hcall
      dsimp only at hcall
      cases o with
      | results ws =>
        obtain ⟨n2, hrun', h2⟩ := runFor_alike h1 hcalm1 hrun
        rw [hrun']
        cases wanted with
        | none =>
          cases hcall
          exact ⟨n2, rfl, h2⟩
        | some k =>
          cases hcall
          exact ⟨n2, rfl, h2⟩
      | _ => cases hcall

/-- **A function and the stripped one do the same when nothing is raised.** Whatever the function, its
    environment, its arguments and the machine it is in: if a call of it ends and nothing is raised in
    any state of the call, not even to be caught, then the call of the stripped function does as many
    instructions, prints the same, and has the same results; all tables and cells are the same after it,
    and functions are alike. -/
theorem strip_unnoticed {p : Proto} {env f : Value} {m m₁ m' : Machine} {args vs : List Value} {fuel : Nat}
    {wanted : Option Nat} (hp : Exec.ofMain p env m = .ok f m₁) (hcalm : ∀ m₂ e, ¬ m₁.Calls f args m₂ (.raise e))
    (hcall : m₁.call fuel f args wanted = (m', .results vs)) :
    ∃ n₁ n', Exec.ofMain p.strip env m = .ok f n₁ ∧ n₁.call fuel f args wanted = (n', .results vs) ∧
      n'.executed = m'.executed ∧ n'.printed = m'.printed ∧ m'.Alike n' := by
  obtain ⟨_, n₁, hq, rfl, h₁⟩ := Mirrors.ofMain (Proto.alike_strip p) env (.refl m) hp
  obtain ⟨n', hcall', h'⟩ := call_alike h₁ hcalm hcall
  refine ⟨n₁, n', hq, hcall', ?_, ?_, h'⟩
  · obtain ⟨_, _⟩ := h'
    rfl
  · obtain ⟨_, _⟩ := h'
    rfl

/-- Whether a run ends within `n` steps and nothing is raised in it. -/
def calmFor : Nat → Machine → Mode → Bool
  | 0, _, _ => false
  | n + 1, m, mode =>
    match mode with
    | .raise _ => false
    | mode =>
      match m.step mode with
      | .more m mode => calmFor n m mode
      | .done _ _ => true

theorem not_reaches_raise {k : Nat} (h : calmFor k m mode = true) (m1 : Machine) (e : Failure) :
    ¬ Reaches m mode m1 (.raise e) := by
  induction k generalizing m mode with
  | zero => cases h
  | succ k ih =>
    intro hr
    obtain ⟨rfl, rfl⟩ | ⟨m2, mode2, hs, hr⟩ := hr.cases_head
    · cases h
    · unfold calmFor at h
      split at h
      · cases h
      · rw [hs] at h
        exact ih h hr

theorem closure_calm : (match
      compile (Bytes.ofString "local n = 1 local function f() n = n + n return n end f() print(f()) return n, f") "=t" with
    | .error _ => false
    | .ok p =>
      match Exec.ofMain p (.table 0) (Machine.new Limits.standard) with
      | .error _ _ => false
      | .ok f m1 =>
        match ofExec (Exec.activate f [] .outermost) { m1 with executed := 0 } with
        | .done _ _ => false
        | .more m2 mode =>
          match m1.call 60 f [] none with
          | (_, .results vs) =>
            calmFor 60 m2 mode && decide (p.lines ≠ p.strip.lines ∧ vs = [.int 4, .function 20])
          | _ => false) = true := by decide +kernel

theorem strip_unnoticed_closure : ∃ p f m₁ m' n₁ n',
    compile (Bytes.ofString "local n = 1 local function f() n = n + n return n end f() print(f()) return n, f") "=t" = .ok p ∧
    p.lines ≠ p.strip.lines ∧
    Exec.ofMain p (.table 0) (Machine.new Limits.standard) = .ok f m₁ ∧
    m₁.call 60 f [] none = (m', .results [.int 4, .function 20]) ∧
    Exec.ofMain p.strip (.table 0) (Machine.new Limits.standard) = .ok f n₁ ∧
    n₁.call 60 f [] none = (n', .results [.int 4, .function 20]) ∧
    n'.executed = m'.executed ∧ n'.printed = m'.printed := by
  have hok := closure_calm
  split at hok
  · cases hok
  · next p hp =>
    split at hok
    · cases hok
    · next f m₁ hf =>
      split at hok
      · cases hok
      · next m₂ mode hstart =>
        split at hok
        · next m' vs hcall =>
          obtain ⟨hcalm, hok⟩ := Bool.and_eq_true_iff.mp hok
          obtain ⟨hlines, rfl⟩ := of_decide_eq_true hok
          have hquiet : ∀ m₃ e, ¬ m₁.Calls f [] m₃ (.raise e) := by
            rintro m₃ e ⟨m₄, mode', hstart', hr⟩
            rw [hstart] at hstart'
            cases hstart'
            exact not_reaches_raise hcalm m₃ e hr
          obtain ⟨n₁, n', hn, hcall', hcount, hprint, _⟩ := strip_unnoticed hf hquiet hcall
          exact ⟨p, f, m₁, m', n₁, n', hp, hlines, hf, hcall, hn, hcall', hcount, hprint⟩
        · cases hok

end Machine

end LuaMachine
