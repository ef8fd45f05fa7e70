/-
  A NAME IS RESOLVED TO ITS INNERMOST VARIABLE. The functions between take it as an upvalue, each from the
  one around it, and the block of a captured local is marked.
-/
import LuaMachine.Proofs.Compiler.Scope
import LuaMachine.Proofs.Lexical.Scope

namespace LuaMachine

open Lexical

/-! ## 1. The scope of a draft -/

namespace Draft

def names (d : Draft) : List Bytes := d.declared.toList.map fun i => (d.locals[i]?.map (·.name)).getD []

def scope (d : Draft) : Scope := ⟨d.names.take d.active, d.upvalues.toList⟩

/-- What holds of every draft: locals are declared before they are visible, there are not too many of them, and
    the outermost block began before the first of them. -/
structure Tidy (d : Draft) : Prop where
  active : d.active ≤ d.declared.size
  declared : d.declared.size ≤ Compile.maxLocals
  known : ∀ i ∈ d.declared, i < d.locals.size
  upvalues : d.upvalues.size ≤ Compile.maxUpvalues
  level : (d.blocks.map (·.active)).getLast? = some 0

def CapturedAt (d : Draft) (r : Nat) : Prop :=
  ∃ b, d.blocks.find? (fun b => b.active ≤ r) = some b ∧ b.captured = true

variable {d d' : Draft} {name : Bytes} {r : Nat} {around : List Scope}

theorem length_names (d : Draft) : d.names.length = d.declared.size := by
  rw [names, List.length_map, Array.length_toList]

theorem localName_eq (d : Draft) (r : Nat) : d.localName r = d.names[r]?.getD [] := by
  unfold localName names
  rw [List.getElem?_map, Array.getElem?_toList]
  cases d.declared[r]? with
  | none => rfl
  | some i =>
    simp only [Option.map_some, Option.getD_some]
    cases d.locals[i]? with
    | none => rfl
    | some v => rfl

theorem scope_getElem? (ht : d.active ≤ d.declared.size) (hr : r < d.active) :
    d.scope.names[r]? = some (d.localName r) := by
  have hlt : r < d.names.length := by
    rw [length_names]
    omega
  show (d.names.take d.active)[r]? = _
  rw [List.getElem?_take_of_lt hr, localName_eq, List.getElem?_eq_getElem hlt]
  rfl

theorem lt_of_scope (h : d.scope.names[r]? = some name) : r < d.active := by
  have hlt := (List.getElem?_eq_some_iff.mp h).1
  rw [scope, List.length_take] at hlt
  omega

theorem findBelow_spec (d : Draft) (name : Bytes) (n : Nat) :
    match d.findBelow name n with
    | some r => r < n ∧ d.localName r = name ∧ ∀ r', r < r' → r' < n → d.localName r' ≠ name
    | none => ∀ r, r < n → d.localName r ≠ name := by
  induction n with
  | zero =>
    intro r hr
    exact absurd hr (Nat.not_lt_zero r)
  | succ n ih =>
    unfold findBelow
    by_cases hn : d.localName n = name
    · rw [if_pos hn]
      exact ⟨Nat.lt_succ_self n, hn, fun r' h h' => by omega⟩
    · rw [if_neg hn]
      have hstep : ∀ r, r < n + 1 → r = n ∨ r < n := fun r h => by omega
      split at ih
      · refine ⟨Nat.lt_succ_of_lt ih.1, ih.2.1, fun r' h h' => ?_⟩
        rcases hstep r' h' with rfl | hlt
        · exact hn
        · exact ih.2.2 r' h hlt
      · intro r hr
        rcases hstep r hr with rfl | hlt
        · exact hn
        · exact ih r hlt

/-- **A local that is found is the innermost of its name.** -/
theorem binds_of_findLocal (ht : d.active ≤ d.declared.size) (h : d.findLocal? name = some r) :
    Binds name (d.scope :: around) 0 r := by
  have hspec := d.findBelow_spec name d.active
  rw [show d.findBelow name d.active = some r from h] at hspec
  obtain ⟨hlt, hname, hlast⟩ := hspec
  refine .own ((scope_getElem? ht hlt).trans (congrArg some hname)) fun r' hr' hheld => ?_
  have hlt' := lt_of_scope hheld
  rw [scope_getElem? ht hlt'] at hheld
  exact hlast r' hr' hlt' (Option.some.inj hheld)

/-- **No local is found if none is visible.** -/
theorem absent_of_findLocal (ht : d.active ≤ d.declared.size) (h : d.findLocal? name = none) : name ∉ d.scope.names := by
  intro hmem
  obtain ⟨r, hr⟩ := List.mem_iff_getElem?.mp hmem
  have hlt := lt_of_scope hr
  have hspec := d.findBelow_spec name d.active
  rw [show d.findBelow name d.active = none from h] at hspec
  rw [scope_getElem? ht hlt] at hr
  exact hspec r hlt (Option.some.inj hr)

theorem Captured.grows_scope (h : d.Captured d') : d.scope.Grows d'.scope := by
  obtain ⟨blocks, upvalues, rfl, -, hu, -⟩ := h
  exact ⟨rfl, hu⟩

theorem Captured.tidy (h : d.Captured d') (ht : d.Tidy) : d'.Tidy := by
  obtain ⟨blocks, upvalues, rfl, hb, -, hn⟩ := h
  have hlevels : ∀ {level bs bs'}, Marked level bs bs' → bs'.map (·.active) = bs.map (·.active) := by
    intro level bs bs' hm
    induction hm with
    | nil => rfl
    | cons head _ ih => rw [List.map_cons, List.map_cons, head.active, ih]
  exact ⟨ht.active, ht.declared, ht.known, hn ht.upvalues, (congrArg List.getLast? (hlevels hb)).trans ht.level⟩

/-! ## 2. Marked blocks -/

theorem Captured.capturedAt (h : d.Captured d') (hc : d.CapturedAt r) : d'.CapturedAt r := by
  obtain ⟨blocks, upvalues, rfl, hb, -⟩ := h
  obtain ⟨b, hfind, hcaptured⟩ := hc
  suffices hm : ∀ {level bs bs'}, Marked level bs bs' → bs.find? (fun b => b.active ≤ r) = some b →
      ∃ b', bs'.find? (fun b => b.active ≤ r) = some b' ∧ b'.captured = true from hm hb hfind
  intro level bs bs' hm hfind
  induction hm with
  | nil => cases hfind
  | @cons c c' _ _ head _ ih =>
    rw [List.find?_cons] at hfind ⊢
    rw [head.active]
    by_cases hle : c.active ≤ r
    · rw [decide_eq_true hle] at hfind ⊢
      cases hfind
      exact ⟨c', rfl, head.kept hcaptured⟩
    · rw [decide_eq_false hle] at hfind ⊢
      exact ih hfind

/-- **The block of a captured local is marked.** -/
theorem capturedAt_markCaptured (ht : d.Tidy) (r : Nat) : (d.markCaptured r).CapturedAt r := by
  suffices hm : ∀ bs : List Block, (∃ b ∈ bs, b.active ≤ r) →
      ∃ b, (markBlock r bs).find? (fun b => b.active ≤ r) = some b ∧ b.captured = true by
    refine hm d.blocks ?_
    obtain ⟨b, hb, hzero⟩ := List.mem_map.mp (List.mem_of_getLast? ht.level)
    exact ⟨b, hb, by rw [hzero]; exact Nat.zero_le r⟩
  intro bs hex
  induction bs with
  | nil =>
    obtain ⟨b, hb, -⟩ := hex
    cases hb
  | cons b rest ih =>
    unfold markBlock
    by_cases hle : b.active ≤ r
    · rw [if_pos hle, List.find?_cons, decide_eq_true hle]
      exact ⟨_, rfl, rfl⟩
    · rw [if_neg hle, List.find?_cons, decide_eq_false hle]
      refine ih ?_
      obtain ⟨c, hc, hcr⟩ := hex
      rcases List.mem_cons.mp hc with rfl | hc
      · exact absurd hcr hle
      · exact ⟨c, hc, hcr⟩

end Draft

namespace Lexical

def scopes (ds : List Draft) : List Scope := ds.map Draft.scope ++ [.environment]

@[simp] theorem scopes_nil : scopes [] = [.environment] := rfl

@[simp] theorem scopes_cons (d : Draft) (ds : List Draft) : scopes (d :: ds) = d.scope :: scopes ds := rfl

theorem grown_scopes {ds ds' : List Draft} (h : CapturedAll ds ds') : Grown (scopes ds) (scopes ds') := by
  induction h with
  | nil => exact .refl _
  | cons head _ ih => exact .cons head.grows_scope ih

def Guarded : List Draft → Prop
  | d :: p :: outer => (∀ u ∈ d.upvalues, u.inStack → p.CapturedAt u.index.toNat) ∧ Guarded (p :: outer)
  | _ => True

theorem Guarded.tail {d : Draft} {outer : List Draft} (h : Guarded (d :: outer)) : Guarded outer := by
  cases outer with
  | nil => trivial
  | cons p rest => exact h.2

theorem Guarded.head {d d' : Draft} {outer : List Draft} (h : Guarded (d :: outer)) (hu : d'.upvalues = d.upvalues) :
    Guarded (d' :: outer) := by
  cases outer with
  | nil => trivial
  | cons p rest =>
    unfold Guarded at *
    rw [hu]
    exact h

/-- **Where an upvalue leads to, the block is marked.** -/
theorem Guarded.capturedAt {ds : List Draft} {i k r : Nat} (h : Guarded ds) (hr : Reaches (scopes ds) i k r) :
    ∀ d, ds[k]? = some d → d.CapturedAt r := by
  generalize hfs : scopes ds = fs at hr
  induction hr generalizing ds with
  | @register f around i u held inStack =>
    intro p hp
    rcases ds with - | ⟨d, - | ⟨p', outer⟩⟩
    · cases hp
    · cases hp
    · cases hp
      cases hfs
      exact h.1 u (Array.mem_of_getElem? (Array.getElem?_toList ▸ held)) inStack
  | @upvalue f around i k r u held inStack further ih =>
    intro p hp
    rcases ds with - | ⟨d, outer⟩
    · cases hp
    · cases hfs
      exact ih h.tail rfl p hp

/-! ## 3. Resolving a name -/

structure Settled (ds : List Draft) : Prop where
  tidy : ∀ d ∈ ds, d.Tidy
  sound : Sound (scopes ds)
  guarded : Guarded ds

theorem Settled.tail {d : Draft} {ds : List Draft} (h : Settled (d :: ds)) : Settled ds :=
  ⟨fun d' hd => h.tidy d' (List.mem_cons_of_mem _ hd), h.sound.2, h.guarded.tail⟩

/-- What resolving a name gives: the variable of the name, in register `r` of the `k`-th function further out. -/
structure Resolves (name : Bytes) (ds : List Draft) (v : Variable) (ds' : List Draft) (k r : Nat) : Prop where
  binds : Binds name (scopes ds) k r
  captured : CapturedAll ds ds'
  settled : Settled ds'
  leads : match v with
    | .register r' => k = 0 ∧ r' = r
    | .upvalue i => Reaches (scopes ds') i k r

theorem Scope.Fits.push {f : Scope} {around : List Scope} {name : Bytes} {u : UpvalueDesc} {k r : Nat} (h : f.Fits around)
    (hnew : some name ∉ f.upvalues.map (·.name)) (hu : u.name = some name) (hb : Binds name around k r)
    (hr : Reaches (⟨f.names, f.upvalues ++ [u]⟩ :: around) f.upvalues.length (k + 1) r) :
    Scope.Fits ⟨f.names, f.upvalues ++ [u]⟩ around := by
  have hgrows : f.Grows ⟨f.names, f.upvalues ++ [u]⟩ := ⟨rfl, List.prefix_append ..⟩
  refine ⟨?_, fun i w hi => ?_, fun he => ?_⟩
  · rw [List.map_append, List.nodup_append]
    refine ⟨h.distinct, List.nodup_cons.mpr ⟨List.not_mem_nil, List.nodup_nil⟩, fun a ha b hb' hab => hnew ?_⟩
    rw [List.map_singleton, List.mem_singleton] at hb'
    rw [← hu, ← hb', ← hab]
    exact ha
  · rcases Nat.lt_trichotomy i f.upvalues.length with hlt | rfl | hgt
    · rw [List.getElem?_append_left hlt] at hi
      obtain ⟨n, k', r', hn, hb', hr'⟩ := h.named i w hi
      exact ⟨n, k', r', hn, hb', Grown.reaches (.cons hgrows (.refl _)) hr'⟩
    · rw [List.getElem?_concat_length] at hi
      cases hi
      exact ⟨name, k, r, hu, hb, hr⟩
    · rw [List.getElem?_eq_none (by rw [List.length_append, List.length_singleton]; omega)] at hi
      cases hi
  · obtain ⟨w, hw, hn⟩ := h.environment he
    exact ⟨w, List.mem_append_left _ hw, hn⟩

theorem findUpvalue_held {d : Draft} {name : Bytes} {i : Nat} (h : d.findUpvalue? name = some i) :
    ∃ u, d.scope.upvalues[i]? = some u ∧ u.name = some name := by
  obtain ⟨hlt, hname, -⟩ := Array.findIdx?_eq_some_iff_getElem.mp h
  exact ⟨d.upvalues[i], by rw [Draft.scope, Array.getElem?_toList, Array.getElem?_eq_getElem hlt], beq_iff_eq.mp hname⟩

theorem findUpvalue_absent {d : Draft} {name : Bytes} (h : d.findUpvalue? name = none) :
    some name ∉ d.scope.upvalues.map (·.name) := by
  intro hmem
  obtain ⟨u, hu, hname⟩ := List.mem_map.mp hmem
  have := Array.findIdx?_eq_none_iff.mp h u (Array.mem_toList_iff.mp hu)
  rw [beq_eq_false_iff_ne] at this
  exact this hname

theorem Settled.addUpvalue {d : Draft} {name : Bytes} {v : Variable} {outer outer' : List Draft} {k r : Nat}
    (h : Settled (d :: outer)) (hv : Resolves name outer v outer' k r) (hnew : d.findUpvalue? name = none)
    (hsize : d.upvalues.size + 1 ≤ Compile.maxUpvalues)
    (hmark : ∀ r', v = .register r' → ∀ p rest, outer' = p :: rest → p.CapturedAt r') :
    Settled (d.addUpvalue name v :: outer') ∧
      Reaches (scopes (d.addUpvalue name v :: outer')) d.upvalues.size (k + 1) r := by
  have htidy := h.tidy d (List.mem_cons_self ..)
  -- the descriptor, and where it leads to
  obtain ⟨u, hadd, hname, hstack, hleads⟩ : ∃ u, d.addUpvalue name v = { d with upvalues := d.upvalues.push u } ∧
      u.name = some name ∧ (u.inStack → ∀ p rest, outer' = p :: rest → p.CapturedAt u.index.toNat) ∧
      ∀ f : Scope, ∀ i, f.upvalues[i]? = some u → Reaches (f :: scopes outer') i (k + 1) r := by
    have hleads := hv.leads
    cases v with
    | register r' =>
      obtain ⟨rfl, rfl⟩ := hleads
      have hsmall : r' < 256 := by
        have hb := hv.binds
        cases outer with
        | cons p rest =>
          cases hb with
          | own held =>
            have hlt := Draft.lt_of_scope held
            have ht := h.tidy p (List.mem_cons_of_mem _ (List.mem_cons_self ..))
            have := ht.active
            have := ht.declared
            simp only [Compile.maxLocals] at this
            omega
        | nil =>
          have hlt := (List.getElem?_eq_some_iff.mp (show Scope.environment.names[r']? = _ by
            cases hb with
            | own held => exact held)).1
          simp only [Scope.environment, List.length_singleton] at hlt
          omega
      have hindex : (UInt8.ofNat r').toNat = r' := by
        rw [UInt8.toNat_ofNat']
        exact Nat.mod_eq_of_lt hsmall
      refine ⟨⟨some name, true, UInt8.ofNat r'⟩, rfl, rfl, fun _ => ?_, fun f i hi => ?_⟩
      · rw [hindex]
        exact hmark r' rfl
      · have : Reaches (f :: scopes outer') i 1 (UInt8.ofNat r').toNat := .register hi rfl
        rw [hindex] at this
        exact this
    | upvalue i =>
      have hsmall : i < 256 := by
        cases outer' with
        | cons p rest =>
          have hlt : i < p.scope.upvalues.length := by
            cases hleads with
            | register held => exact (List.getElem?_eq_some_iff.mp held).1
            | upvalue held => exact (List.getElem?_eq_some_iff.mp held).1
          have ht := (hv.settled.tidy p (List.mem_cons_self ..)).upvalues
          simp only [Draft.scope, Array.length_toList] at hlt
          simp only [Compile.maxUpvalues] at ht
          omega
        | nil =>
          cases hleads with
          | register held => cases held
          | upvalue held => cases held
      have hindex : (UInt8.ofNat i).toNat = i := by
        rw [UInt8.toNat_ofNat']
        exact Nat.mod_eq_of_lt hsmall
      refine ⟨⟨some name, false, UInt8.ofNat i⟩, rfl, rfl, by simp, fun f j hj => .upvalue hj rfl ?_⟩
      rw [hindex]
      exact hleads
  have hscope : (d.addUpvalue name v).scope = ⟨d.scope.names, d.scope.upvalues ++ [u]⟩ := by
    rw [hadd]
    simp only [Draft.scope, Draft.names, Array.toList_push]
  have hlength : d.scope.upvalues.length = d.upvalues.size := Array.length_toList ..
  have hreaches : Reaches (scopes (d.addUpvalue name v :: outer')) d.upvalues.size (k + 1) r := by
    rw [scopes_cons, hscope]
    refine hleads _ _ ?_
    rw [← hlength]
    exact List.getElem?_concat_length ..
  refine ⟨⟨?_, ?_, ?_⟩, hreaches⟩
  · intro p hp
    rcases List.mem_cons.mp hp with rfl | hp
    · rw [hadd]
      exact ⟨htidy.active, htidy.declared, htidy.known, by rw [Array.size_push]; exact hsize, htidy.level⟩
    · exact hv.settled.tidy p hp
  · refine ⟨?_, hv.settled.sound⟩
    have hgrown := grown_scopes hv.captured
    rw [scopes_cons, hscope, ← hlength] at hreaches
    rw [hscope]
    exact (h.sound.1.grown hgrown).push (findUpvalue_absent hnew) hname (hgrown.binds.mpr hv.binds) hreaches
  · cases outer' with
    | nil => trivial
    | cons p' rest' =>
      refine ⟨fun w hw hin => ?_, hv.settled.guarded⟩
      rw [hadd, Array.mem_push] at hw
      rcases hw with hw | rfl
      · have hguarded := h.guarded
        rcases hv.captured with _ | ⟨head, -⟩
        exact head.capturedAt (hguarded.1 w hw hin)
      · exact hstack hin p' rest' rfl

/-- **What resolving a name gives.** The functions between take the variable as an upvalue. -/
theorem resolve_resolves {name : Bytes} {innermost : Bool} {ds ds' : List Draft} {v : Variable}
    (h : resolve name innermost ds = .ok (some (v, ds'))) (hs : Settled ds) :
    ∃ k r, Resolves name ds v ds' k r ∧
      (innermost = false → ∀ r', v = .register r' → ∀ p rest, ds' = p :: rest → p.CapturedAt r') := by
  induction ds generalizing innermost v ds' with
  | nil => cases h
  | cons d outer ih =>
    have htidy := hs.tidy d (List.mem_cons_self ..)
    unfold resolve at h
    split at h
    · next r hr =>
      simp only [Except.ok.injEq, Option.some.injEq, Prod.mk.injEq] at h
      obtain ⟨rfl, rfl⟩ := h
      have hb : Binds name (scopes (d :: outer)) 0 r := Draft.binds_of_findLocal htidy.active hr
      cases innermost with
      | true => exact ⟨0, r, ⟨hb, .refl _, hs, rfl, rfl⟩, by simp⟩
      | false =>
        have hcaptured : d.Captured (d.markCaptured r) :=
          ⟨_, d.upvalues, rfl, .markBlock (Draft.findLocal_lt hr) _, List.prefix_refl _, id⟩
        refine ⟨0, r, ⟨hb, .cons hcaptured (.refl _), ⟨?_, hs.sound, hs.guarded.head rfl⟩, rfl, rfl⟩, fun _ r' hv p rest hp => ?_⟩
        · intro p hp
          rcases List.mem_cons.mp hp with rfl | hp
          · exact hcaptured.tidy htidy
          · exact hs.tidy p (List.mem_cons_of_mem _ hp)
        · cases hv
          cases hp
          exact Draft.capturedAt_markCaptured htidy r
    · next hnone =>
      have habsent := Draft.absent_of_findLocal htidy.active hnone
      split at h
      · next i hi =>
        simp only [Except.ok.injEq, Option.some.injEq, Prod.mk.injEq] at h
        obtain ⟨rfl, rfl⟩ := h
        obtain ⟨u, hu, hname⟩ := findUpvalue_held hi
        obtain ⟨n, k, r, hn, hb, hr⟩ := hs.sound.1.named i u hu
        cases hname.symm.trans hn
        exact ⟨k + 1, r, ⟨.outer habsent hb, .refl _, hs, hr⟩, by simp⟩
      · next hnew =>
        split at h
        · cases h
        · cases h
        · next v' outer' hrec =>
          dsimp only at h
          split at h
          · cases h
          · next hlimit =>
            simp only [Except.ok.injEq, Option.some.injEq, Prod.mk.injEq] at h
            obtain ⟨rfl, rfl⟩ := h
            obtain ⟨k, r, hv, hmark⟩ := ih hrec hs.tail
            obtain ⟨hsettled, hreaches⟩ := hs.addUpvalue hv hnew (Nat.le_of_not_lt hlimit) (hmark rfl)
            have hcaptured : d.Captured (d.addUpvalue name v') := Draft.captured_addUpvalue v' (Nat.le_of_not_lt hlimit)
            exact ⟨k + 1, r, ⟨.outer habsent hv.binds, .cons hcaptured hv.captured, hsettled, hreaches⟩, by simp⟩

/-- **A name that is not resolved is not bound**, in a function at least. -/
theorem resolve_unbound {name : Bytes} {innermost : Bool} {d : Draft} {outer : List Draft}
    (h : resolve name innermost (d :: outer) = .ok none) (hs : Settled (d :: outer)) (k r : Nat) :
    ¬ Binds name (scopes (d :: outer)) k r := by
  induction outer generalizing innermost d k with
  | nil =>
    unfold resolve at h
    split at h
    · cases h
    · next hnone =>
      split at h
      · cases h
      · next hnew =>
        intro hb
        obtain ⟨k', -, hb'⟩ := hb.of_absent (Draft.absent_of_findLocal (hs.tidy d (List.mem_cons_self ..)).active hnone)
        refine Binds.not_environment ?_ hb'
        rintro rfl
        obtain ⟨u, hu, hname⟩ := hs.sound.1.environment rfl
        exact findUpvalue_absent hnew (List.mem_map.mpr ⟨u, hu, hname⟩)
  | cons p rest ih =>
    unfold resolve at h
    split at h
    · cases h
    · next hnone =>
      split at h
      · cases h
      · split at h
        · cases h
        · next hrec =>
          intro hb
          obtain ⟨k', -, hb'⟩ := hb.of_absent (Draft.absent_of_findLocal (hs.tidy d (List.mem_cons_self ..)).active hnone)
          exact ih hrec hs.tail k' hb'
        · dsimp only at h
          split at h <;> cases h

/-- **There is no room for another upvalue** if a name cannot be resolved. -/
theorem resolve_overflows {name : Bytes} {innermost : Bool} {ds : List Draft} {line : Nat}
    (h : resolve name innermost ds = .error line) :
    ∃ d ∈ ds, d.lineDefined = line ∧ Compile.maxUpvalues ≤ d.upvalues.size := by
  induction ds generalizing innermost with
  | nil => cases h
  | cons d outer ih =>
    unfold resolve at h
    split at h
    · cases h
    · split at h
      · cases h
      · split at h
        · next hrec =>
          cases h
          obtain ⟨p, hp, hline, hfull⟩ := ih hrec
          exact ⟨p, List.mem_cons_of_mem _ hp, hline, hfull⟩
        · cases h
        · dsimp only at h
          split at h
          · next hlimit =>
            cases h
            exact ⟨d, List.mem_cons_self .., rfl, Nat.le_of_lt_succ hlimit⟩
          · cases h

end Lexical

end LuaMachine
