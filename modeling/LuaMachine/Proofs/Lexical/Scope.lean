/-
  THE VARIABLES THAT A FUNCTION SEES: its own locals and those of the functions around it. A variable of a
  function further out is reached through upvalues, one function at a time.
-/
import LuaMachine.Compiler.Scope

namespace LuaMachine.Lexical

/-! ## 1. Scopes -/

structure Scope where
  /-- The locals that are visible, by register. -/
  names : List Bytes
  upvalues : List UpvalueDesc

def Scope.environment : Scope := ⟨[Compile.environmentName], []⟩

inductive Binds (name : Bytes) : List Scope → Nat → Nat → Prop where
  | own {f : Scope} {around : List Scope} {r : Nat} (held : f.names[r]? = some name)
      (last : ∀ r', r < r' → f.names[r']? ≠ some name) : Binds name (f :: around) 0 r
  | outer {f : Scope} {around : List Scope} {k r : Nat} (absent : name ∉ f.names) (further : Binds name around k r) :
      Binds name (f :: around) (k + 1) r

/-- The upvalue `i` of the first function leads to register `r` of the `k`-th function further out: each
    function says whether the upvalue is a register or an upvalue of the function around it. -/
inductive Reaches : List Scope → Nat → Nat → Nat → Prop where
  | register {f : Scope} {around : List Scope} {i : Nat} {u : UpvalueDesc} (held : f.upvalues[i]? = some u)
      (inStack : u.inStack = true) : Reaches (f :: around) i 1 u.index.toNat
  | upvalue {f : Scope} {around : List Scope} {i k r : Nat} {u : UpvalueDesc} (held : f.upvalues[i]? = some u)
      (inStack : u.inStack = false) (further : Reaches around u.index.toNat k r) : Reaches (f :: around) i (k + 1) r

namespace Binds

variable {name other : Bytes} {fs : List Scope} {k k' r r' : Nat}

theorem unique (h : Binds name fs k r) (h' : Binds name fs k' r') : k' = k ∧ r' = r := by
  induction h generalizing k' r' with
  | own held last =>
    cases h' with
    | own held' last' =>
      rcases Nat.lt_trichotomy r' _ with hlt | heq | hgt
      · exact absurd held (last' _ hlt)
      · exact ⟨rfl, heq⟩
      · exact absurd held' (last _ hgt)
    | outer absent => exact absurd (List.mem_of_getElem? held) absent
  | outer absent _ ih =>
    cases h' with
    | own held' => exact absurd (List.mem_of_getElem? held') absent
    | outer _ further' =>
      obtain ⟨rfl, rfl⟩ := ih further'
      exact ⟨rfl, rfl⟩

theorem name_unique (h : Binds name fs k r) (h' : Binds other fs k r) : other = name := by
  induction h with
  | own held =>
    cases h' with
    | own held' => exact Option.some.inj (held'.symm.trans held)
  | outer _ _ ih =>
    cases h' with
    | outer _ further' => exact ih further'

theorem of_absent {f : Scope} (h : Binds name (f :: fs) k r) (absent : name ∉ f.names) :
    ∃ k', k = k' + 1 ∧ Binds name fs k' r := by
  cases h with
  | own held => exact absurd (List.mem_of_getElem? held) absent
  | outer _ further => exact ⟨_, rfl, further⟩

theorem not_environment (h : name ≠ Compile.environmentName) : ¬ Binds name [Scope.environment] k r := by
  intro hb
  cases hb with
  | own held => exact h (List.mem_singleton.mp (List.mem_of_getElem? held))
  | outer _ further => cases further

end Binds

theorem Reaches.unique {fs : List Scope} {i k k' r r' : Nat} (h : Reaches fs i k r) (h' : Reaches fs i k' r') :
    k' = k ∧ r' = r := by
  induction h generalizing k' r' with
  | register held inStack =>
    cases h' with
    | register held' =>
      cases held.symm.trans held'
      exact ⟨rfl, rfl⟩
    | upvalue held' inStack' =>
      cases held.symm.trans held'
      rw [inStack] at inStack'
      cases inStack'
  | upvalue held inStack _ ih =>
    cases h' with
    | register held' inStack' =>
      cases held.symm.trans held'
      rw [inStack] at inStack'
      cases inStack'
    | upvalue held' _ further' =>
      cases held.symm.trans held'
      obtain ⟨rfl, rfl⟩ := ih further'
      exact ⟨rfl, rfl⟩

/-! ## 2. Scopes that grow -/

structure Scope.Grows (f g : Scope) : Prop where
  names : g.names = f.names
  upvalues : f.upvalues <+: g.upvalues

inductive Grown : List Scope → List Scope → Prop where
  | nil : Grown [] []
  | cons {f g : Scope} {fs gs : List Scope} (head : f.Grows g) (tail : Grown fs gs) : Grown (f :: fs) (g :: gs)

theorem Scope.Grows.refl (f : Scope) : f.Grows f := ⟨rfl, List.prefix_refl _⟩

theorem Scope.Grows.trans {f g h : Scope} (hfg : f.Grows g) (hgh : g.Grows h) : f.Grows h :=
  ⟨hgh.names.trans hfg.names, hfg.upvalues.trans hgh.upvalues⟩

theorem Scope.Grows.getElem? {f g : Scope} {i : Nat} {u : UpvalueDesc} (h : f.Grows g) (hu : f.upvalues[i]? = some u) :
    g.upvalues[i]? = some u := by
  obtain ⟨more, hmore⟩ := h.upvalues
  have hlt : i < f.upvalues.length := (List.getElem?_eq_some_iff.mp hu).1
  rw [← hmore, List.getElem?_append_left hlt]
  exact hu

namespace Grown

variable {fs gs hs : List Scope} {name : Bytes} {i k r : Nat}

theorem refl : ∀ fs, Grown fs fs
  | [] => nil
  | f :: fs => cons (.refl f) (refl fs)

theorem trans (h : Grown fs gs) (h' : Grown gs hs) : Grown fs hs := by
  induction h generalizing hs with
  | nil => exact h'
  | cons head _ ih =>
    cases h' with
    | cons head' tail' => exact cons (head.trans head') (ih tail')

theorem binds (h : Grown fs gs) : Binds name gs k r ↔ Binds name fs k r := by
  induction h generalizing k with
  | nil => exact Iff.rfl
  | cons head _ ih =>
    constructor
    · intro hb
      cases hb with
      | own held last =>
        rw [head.names] at held last
        exact .own held last
      | outer absent further =>
        rw [head.names] at absent
        exact .outer absent (ih.mp further)
    · intro hb
      cases hb with
      | own held last =>
        rw [← head.names] at held last
        exact .own held last
      | outer absent further =>
        rw [← head.names] at absent
        exact .outer absent (ih.mpr further)

theorem reaches (h : Grown fs gs) (hr : Reaches fs i k r) : Reaches gs i k r := by
  induction hr generalizing gs with
  | register held inStack =>
    cases h with
    | cons head _ => exact .register (head.getElem? held) inStack
  | upvalue held inStack _ ih =>
    cases h with
    | cons head tail => exact .upvalue (head.getElem? held) inStack (ih tail)

end Grown

/-! ## 3. Upvalues and names -/

/-- The upvalues of a function in its surroundings: each is the variable that its name has there, and no two
    have one name. The main function has the environment. -/
structure Scope.Fits (f : Scope) (around : List Scope) : Prop where
  distinct : (f.upvalues.map (·.name)).Nodup
  named : ∀ (i : Nat) (u : UpvalueDesc), f.upvalues[i]? = some u →
    ∃ n k r, u.name = some n ∧ Binds n around k r ∧ Reaches (f :: around) i (k + 1) r
  environment : around = [Scope.environment] → ∃ u ∈ f.upvalues, u.name = some Compile.environmentName

def Sound : List Scope → Prop
  | [] => True
  | f :: around => f.Fits around ∧ Sound around

theorem sound_environment : Sound [Scope.environment] :=
  ⟨⟨List.nodup_nil, fun i u hu => by simp [Scope.environment] at hu, by simp⟩, trivial⟩

namespace Scope.Fits

variable {f g : Scope} {fs gs : List Scope}

theorem congr (h : f.Fits fs) (hu : g.upvalues = f.upvalues) : g.Fits fs := by
  refine ⟨by rw [hu]; exact h.distinct, fun i u hi => ?_, fun he => by rw [hu]; exact h.environment he⟩
  obtain ⟨n, k, r, hn, hb, hr⟩ := h.named i u (hu ▸ hi)
  refine ⟨n, k, r, hn, hb, ?_⟩
  cases hr with
  | register held inStack => exact .register (hu ▸ held) inStack
  | upvalue held inStack further => exact .upvalue (hu ▸ held) inStack further

theorem grown (h : f.Fits fs) (hg : Grown fs gs) : f.Fits gs := by
  refine ⟨h.distinct, fun i u hi => ?_, fun he => h.environment ?_⟩
  · obtain ⟨n, k, r, hn, hb, hr⟩ := h.named i u hi
    exact ⟨n, k, r, hn, hg.binds.mpr hb, Grown.reaches (.cons (.refl f) hg) hr⟩
  · subst he
    cases hg with
    | @cons f' _ _ _ head tail =>
      cases tail
      obtain ⟨ns, us⟩ := f'
      obtain ⟨hnames, hupvalues⟩ := head
      cases hnames
      cases List.eq_nil_of_prefix_nil hupvalues
      rfl

/-- **One upvalue for each variable.** -/
theorem index_unique {i j k r : Nat} (h : f.Fits fs) (hi : Reaches (f :: fs) i k r) (hj : Reaches (f :: fs) j k r) : j = i := by
  have held : ∀ {i}, Reaches (f :: fs) i k r → ∃ u n, f.upvalues[i]? = some u ∧ u.name = some n ∧
      ∃ k', k = k' + 1 ∧ Binds n fs k' r := by
    intro i hi
    obtain ⟨u, hu⟩ : ∃ u, f.upvalues[i]? = some u := by
      cases hi with
      | register hu => exact ⟨_, hu⟩
      | upvalue hu => exact ⟨_, hu⟩
    obtain ⟨n, k', r', hn, hb, hr⟩ := h.named i u hu
    obtain ⟨rfl, rfl⟩ := hr.unique hi
    exact ⟨u, n, hu, hn, k', rfl, hb⟩
  obtain ⟨u, n, hu, hn, k1, rfl, hb⟩ := held hi
  obtain ⟨v, m, hv, hm, k2, hk, hb'⟩ := held hj
  cases hk
  cases hb.name_unique hb'
  obtain ⟨hlt, -⟩ := List.getElem?_eq_some_iff.mp hu
  refine ((List.getElem?_inj (by rw [List.length_map]; exact hlt) h.distinct).mp ?_).symm
  rw [List.getElem?_map, List.getElem?_map, hu, hv, Option.map_some, Option.map_some, hn, hm]

end Scope.Fits

end LuaMachine.Lexical
