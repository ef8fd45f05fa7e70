/-
  LIBRARY FUNCTIONS ARE SAFE. They are handed known values, check them one after another, and give known
  values; a chunk that they load holds code that can run, be it compiled or precompiled.

  * `protoOf_viable` -- **all code that is loaded can run**;
  * `host_leads`, `settleResults_leads` -- **every library function leads on**, and so does every activation
    that ends with results.
-/
import LuaMachine.Machine.Library
import LuaMachine.Proofs.Chunk.RoundTrip
import LuaMachine.Proofs.Compiler.Statement
import LuaMachine.Proofs.Machine.Call

namespace LuaMachine

namespace Exec

/-! ## 1. Calls from library functions -/

section

variable {S : Prop} {I : Failure → Prop} {m : Machine} {f : Value} {args : List Value} {purpose : Purpose}

theorem settleFailure_leads {e : Failure} (hm : m.Steady) (he : e.Known m.sizes)
    (hp : purpose.Fits m.frames.length m.activations) :
    Leads S (fun e' => e' = e ∧ e.isInternal = true) (settleFailure purpose e) m := by
  have hon : Leads S (fun e' => e' = e ∧ e.isInternal = true) (failWith e) m :=
    ⟨hm.good, he, fun hi => ⟨rfl, hi⟩⟩
  cases purpose with
  | guarded ret =>
    show Leads S (fun e' => e' = e ∧ e.isInternal = true) (if e.isCatchable = true then _ else _) m
    split
    · exact finish_leads hm hp (by simpa using he.toValue)
    · exact hon
  | _ => exact hon

theorem activate_leads (hm : m.Steady) (hf : f.Known m.sizes) (hargs : ∀ v ∈ args, v.Known m.sizes)
    (hk : purpose.Known m.sizes) (hp : purpose.Fits m.frames.length m.activations) :
    Leads S I (activate f args purpose) m := by
  refine Leads.get ?_
  split
  · exact (settleFailure_leads (e := .stackOverflow) hm trivial hp).imp id fun _ hi => by cases hi.2
  · refine (Safe.ensure hm.toWhole _).thenMeets hm fun _ m1 hm1 hc1 hsize => ?_
    have hvalues : ∀ v ∈ f :: args, v.Known m1.sizes :=
      List.forall_mem_cons.mpr ⟨hf.mono hc1.sizes, fun v hv => (hargs v hv).mono hc1.sizes⟩
    refine (Safe.writeMany hm1.toWhole (by rw [List.length_cons]; omega) hvalues).thenMeets hm1
      fun _ m2 hm2 hc2 _ => ?_
    have hcalm := hc1.trans hc2
    rw [← hcalm.frames, ← hcalm.activations] at hp
    have hknown : Activation.Known m2.sizes ⟨m2.frames.length, m.frameTop, m2.top, purpose⟩ :=
      ⟨hm2.top, hk.mono hcalm.sizes⟩
    refine beginCall_leads (m := { m2 with activations := ⟨m2.frames.length, m.frameTop, m2.top, purpose⟩ :: m2.activations })
      { hm2.toWhole.withControl hm2.frames (List.forall_mem_cons.mpr ⟨hknown, hm2.activations⟩) hm2.top with
        inCode := hm2.inCode
        stacked := ⟨Nat.le_refl _, hp, hm2.stacked⟩ }
      (List.cons_ne_nil _ _) (Nat.le_trans hsize hc2.stack) trivial

/-! ## 2. Arguments -/

variable {h : HostFn} {i : Nat} {α : Type} {Q : α → Machine → Prop}

theorem known_getD {s : Sizes} (hargs : ∀ v ∈ args, v.Known s) : (args[i]?.getD .nil).Known s := by
  cases hv : args[i]? with
  | none => trivial
  | some v => exact hargs v (List.mem_of_getElem? hv)

theorem known_headD {s : Sizes} (hargs : ∀ v ∈ args, v.Known s) : (args.headD .nil).Known s := by
  cases args with
  | nil => trivial
  | cons v args => exact hargs v (List.mem_cons_self ..)

theorem Safe.failArgument {e : ArgumentFault} (hm : m.Whole) :
    Safe S (failArgument h i e : Exec α) m Q := Safe.fail hm rfl

theorem Safe.failType {wanted : ValueType} (hm : m.Whole) :
    Safe S (failType h args i wanted : Exec α) m Q := Safe.failArgument hm

theorem Safe.argument (hm : m.Whole) (hargs : ∀ v ∈ args, v.Known m.sizes) :
    Safe S (argument h args i) m fun v m' => v.Known m'.sizes := by
  unfold Exec.argument
  split
  · next v hv => exact Safe.pure hm (hargs v (List.mem_of_getElem? hv))
  · exact Safe.failArgument hm

theorem Safe.tableArgument (hm : m.Whole) (hargs : ∀ v ∈ args, v.Known m.sizes) :
    Safe S (tableArgument h args i) m fun id m' => id < m'.tables.size := by
  unfold Exec.tableArgument
  split
  · next id hv => exact Safe.pure hm (hargs (.table id) (List.mem_of_getElem? hv))
  · exact Safe.failType hm

theorem Safe.intArgument (hm : m.Whole) : Safe S (intArgument h args i) m fun _ _ => True := by
  unfold Exec.intArgument
  split
  · split
    · exact Safe.pure hm trivial
    · split
      · exact Safe.failArgument hm
      · exact Safe.failType hm
  · exact Safe.failType hm

theorem Safe.intArgumentOr {otherwise : Int64} (hm : m.Whole) :
    Safe S (intArgumentOr h args i otherwise) m fun _ _ => True := by
  unfold Exec.intArgumentOr
  split
  · exact Safe.pure hm trivial
  · exact Safe.intArgument hm

theorem Safe.stringArgument (hm : m.Whole) : Safe S (stringArgument h args i) m fun _ _ => True := by
  unfold Exec.stringArgument
  split
  · exact Safe.pure hm trivial
  · exact Safe.failType hm

theorem Safe.stringArgumentOr {otherwise : Bytes} (hm : m.Whole) :
    Safe S (stringArgumentOr h args i otherwise) m fun _ _ => True := by
  unfold Exec.stringArgumentOr
  split
  · exact Safe.pure hm trivial
  · exact Safe.stringArgument hm

/-! ## 3. Functions that call no other -/

theorem Safe.printLine (hm : m.Whole) : Safe S (printLine args) m fun _ _ => True := by
  refine Safe.get ?_
  split
  · exact Safe.fail hm rfl
  · refine Safe.update ?_ ⟨.refl _, rfl, rfl⟩ trivial
    exact ⟨hm.stack, hm.cells, hm.tables, hm.functions, hm.frames, hm.openCells, hm.top, hm.activations,
      hm.globals⟩

theorem Safe.toNumber (hm : m.Whole) (hargs : ∀ v ∈ args, v.Known m.sizes) :
    Safe S (toNumber args) m fun vs m' => ∀ v ∈ vs, v.Known m'.sizes := by
  unfold Exec.toNumber
  split
  · refine (Safe.argument hm hargs).bind fun v m1 hm1 _ _ => Safe.pure hm1 ?_
    cases v.toNumber? with
    | none => simp
    | some n => simpa using known_ofNumber n
  · refine (Safe.intArgument hm).bind fun base m1 hm1 _ _ => ?_
    split
    · next s _ =>
      split
      · refine Safe.pure hm1 ?_
        cases Numeral.readBase? s base.toInt.toNat <;> simp
      · exact Safe.failArgument hm1
    · exact Safe.failType hm1

theorem Safe.selectFrom (hm : m.Whole) (hargs : ∀ v ∈ args, v.Known m.sizes) :
    Safe S (selectFrom args) m fun vs m' => ∀ v ∈ vs, v.Known m'.sizes := by
  unfold Exec.selectFrom
  extract_lets count
  split
  · exact Safe.pure hm (by simp)
  · refine (Safe.intArgument hm).bind fun k m1 hm1 hc1 _ => ?_
    extract_lets n n'
    split
    · exact Safe.failArgument hm1
    · exact Safe.pure hm1 fun v hv => (hargs v (List.mem_of_mem_drop hv)).mono hc1.sizes

theorem Safe.raiseValue {v : Value} {level : Int} (hm : m.Whole) (hv : v.Known m.sizes) :
    Safe S (raiseValue v level : Exec α) m Q := by
  refine Safe.get ?_
  split
  · split
    · exact Safe.failWith hm ⟨trivial, rfl⟩
    · exact Safe.failWith hm ⟨trivial, rfl⟩
  · exact Safe.failWith hm ⟨hv, rfl⟩

theorem Safe.unpackFrom (hm : m.Whole) (hargs : ∀ v ∈ args, v.Known m.sizes) :
    Safe S (unpackFrom args) m fun vs m' => ∀ v ∈ vs, v.Known m'.sizes := by
  refine (Safe.tableArgument hm hargs).bind fun id m1 hm1 _ hid => ?_
  refine (Safe.table hm1 hid).bind fun t m2 hm2 _ ht => ?_
  refine (Safe.intArgumentOr hm2).bind fun first m3 hm3 hc3 _ => ?_
  have hvalues : ∀ (last : Int) (m4 : Machine), m4.Whole → m2.Calm m4 → Safe S
      (if last < first.toInt then Pure.pure []
        else if maxUnpacked < last - first.toInt + 1 then Exec.fail .tooManyResults
        else Pure.pure ((List.range (last - first.toInt + 1).toNat).map fun (i : Nat) =>
          t.getInt (Int64.ofInt (first.toInt + i)))) m4 fun vs m' => ∀ v ∈ vs, v.Known m'.sizes := by
    intro last m4 hm4 hc4
    split
    · exact Safe.pure hm4 (by simp)
    · split
      · exact Safe.fail hm4 rfl
      · refine Safe.pure hm4 fun v hv => ?_
        obtain ⟨k, _, rfl⟩ := List.mem_map.mp hv
        exact (ht.getInt trivial).mono hc4.sizes
  extract_lets low
  split
  · exact hvalues _ m3 hm3 hc3
  · refine (Safe.intArgument hm3).bind fun last m4 hm4 hc4 _ => ?_
    exact hvalues _ m4 hm4 (hc3.trans hc4)

theorem Safe.collect (hm : m.Whole) : Safe S (collect args) m fun vs m' => ∀ v ∈ vs, v.Known m'.sizes := by
  refine (Safe.stringArgumentOr hm).bind fun option m1 hm1 _ _ => ?_
  split
  all_goals first
    | exact Safe.failArgument hm1
    | exact Safe.pure hm1 (by simp)

/-- **A library function that calls no other is safe, and gives known values for known values.** -/
theorem simple_safe (hm : m.Whole) (hargs : ∀ v ∈ args, v.Known m.sizes) :
    Safe S (simple h args) m fun vs m' => ∀ v ∈ vs, v.Known m'.sizes := by
  have hmono : ∀ {m'}, m.Calm m' → ∀ v ∈ args, v.Known m'.sizes := fun hc v hv => (hargs v hv).mono hc.sizes
  cases h with
  | print => exact (Safe.printLine hm).bind fun _ m1 hm1 _ _ => Safe.pure hm1 (by simp)
  | type => exact (Safe.argument hm hargs).bind fun v m1 hm1 _ _ => Safe.pure hm1 (by simp)
  | tostring => exact (Safe.argument hm hargs).bind fun v m1 hm1 _ _ => Safe.pure hm1 (by simp)
  | tonumber => exact Safe.toNumber hm hargs
  | select => exact Safe.selectFrom hm hargs
  | unpack => exact Safe.unpackFrom hm hargs
  | collectgarbage => exact Safe.collect hm
  | pcall | load => exact Safe.pure hm (by simp)
  | ipairs | pairs =>
    refine (Safe.tableArgument hm hargs).bind fun t m1 hm1 _ ht => ?_
    have hhost : ∀ h, (Function.host h).Known m1.sizes := fun _ => trivial
    refine (Safe.newFunction hm1 (hhost _)).bind fun v m2 hm2 hc2 hv => Safe.pure hm2 ?_
    have ht : (Value.table t).Known m2.sizes := Nat.lt_of_lt_of_le ht hc2.sizes.tables
    simpa using ⟨hv, ht⟩
  | ipairsStep =>
    refine (Safe.tableArgument hm hargs).bind fun id m1 hm1 _ hid => ?_
    refine (Safe.table hm1 hid).bind fun t m2 hm2 _ ht => ?_
    refine (Safe.intArgument hm2).bind fun k m3 hm3 hc3 _ => ?_
    extract_lets i v
    have hv : v.Known m3.sizes := (ht.getInt trivial).mono hc3.sizes
    split
    · exact Safe.pure hm3 (by simp)
    · exact Safe.pure hm3 (by simpa using hv)
  | next =>
    refine (Safe.tableArgument hm hargs).bind fun id m1 hm1 _ hid => ?_
    refine (Safe.table hm1 hid).bind fun t m2 hm2 _ ht => ?_
    split
    · next k v hn => exact Safe.pure hm2 (by simpa using ht.next trivial (fun _ => trivial) hn)
    · exact Safe.pure hm2 (by simp)
    · exact Safe.fail hm2 rfl
  | rawget =>
    refine (Safe.tableArgument hm hargs).bind fun id m1 hm1 hc1 hid => ?_
    refine (Safe.argument hm1 (hmono hc1)).bind fun key m2 hm2 hc2 _ => ?_
    have hid := Nat.lt_of_lt_of_le hid hc2.sizes.tables
    refine (Safe.table hm2 hid).bind fun t m3 hm3 _ ht => Safe.pure hm3 ?_
    simpa using ht.get trivial
  | rawset =>
    refine (Safe.tableArgument hm hargs).bind fun id m1 hm1 hc1 hid => ?_
    refine (Safe.argument hm1 (hmono hc1)).bind fun key m2 hm2 hc2 hkey => ?_
    refine (Safe.argument hm2 (hmono (hc1.trans hc2))).bind fun v m3 hm3 hc3 hv => ?_
    have hid : (Value.table id).Known m1.sizes := hid
    refine (Safe.setKey hm3 (hkey.mono hc3.sizes) hv).bind fun _ m4 hm4 hc4 _ => Safe.pure hm4 ?_
    simpa using hid.mono ((hc2.trans hc3).trans hc4).sizes
  | rawequal =>
    refine (Safe.argument hm hargs).bind fun a m1 hm1 hc1 _ => ?_
    exact (Safe.argument hm1 (hmono hc1)).bind fun b m2 hm2 _ _ => Safe.pure hm2 (by simp)
  | rawlen =>
    unfold simple
    dsimp only
    split
    · next id hid =>
      have hid : id < m.tables.size := hargs (.table id) (List.mem_of_mem_head? hid)
      exact (Safe.table hm hid).bind fun t m1 hm1 _ _ => Safe.pure hm1 (by simp)
    · exact Safe.pure hm (by simp)
    · exact Safe.failArgument hm
  | assert =>
    refine (Safe.argument hm hargs).bind fun v m1 hm1 hc1 _ => ?_
    split
    · refine Safe.raiseValue hm1 ?_
      cases hv : args[1]? with
      | none => exact Value.known_ofString
      | some v => exact hmono hc1 v (List.mem_of_getElem? hv)
    · exact Safe.pure hm1 (hmono hc1)
  | error =>
    refine (Safe.intArgumentOr hm).bind fun level m1 hm1 hc1 _ => ?_
    exact Safe.raiseValue hm1 (known_headD (hmono hc1))

/-! ## 4. Loading -/

/-- **All code that is loaded can run**: it was compiled, or it passed the check. -/
theorem protoOf_viable {chunk : Bytes} {name : String} {p : Proto} (hp : protoOf chunk name = .ok p) :
    p.All Proto.Viable := by
  unfold protoOf at hp
  split at hp
  · cases hc : Chunk.toProto chunk name with
    | error e =>
      rw [hc] at hp
      cases hp
    | ok q =>
      rw [hc] at hp
      cases hp
      exact (Chunk.toProto_ok.mp hc).2.imp fun _ hq => hq.toViable
  · cases hc : compile chunk name with
    | error e =>
      rw [hc] at hp
      cases hp
    | ok q =>
      rw [hc] at hp
      cases hp
      exact (compile_made hc).1.imp fun _ hq => hq.toSound.viable

theorem Safe.loadChunk (chunk : Bytes) (name : String) {env : Value} (hm : m.Whole)
    (henv : env.Known m.sizes) :
    Safe S (loadChunk chunk name env) m fun r m' => ∀ f, r = .ok f → f.Known m'.sizes := by
  unfold Exec.loadChunk
  split
  · next p hp =>
    refine (Safe.ofMain hm (protoOf_viable hp) henv).bind fun f m1 hm1 _ hf => Safe.pure hm1 ?_
    intro g hg
    cases hg
    exact hf
  · exact Safe.pure hm (by simp)

theorem Safe.loadNamed {chunk : Bytes} {m1 : Machine} (hargs : ∀ v ∈ args, v.Known m.sizes) (name : String)
    (hm1 : m1.Whole) (hc1 : m.Calm m1) :
    Safe S (do
      let mode ← Exec.stringArgumentOr .load args 2 (Bytes.ofString "bt")
      let (kind, mark) : String × UInt8 :=
        if isPrecompiled chunk then ("binary", 0x62) else ("text", 0x74)
      if !mode.contains mark then
        return [.nil, .ofString ("attempt to load a " ++ kind ++ " chunk (mode is '" ++ mode.lossy ++ "')")]
      else
        let m ← MonadState.get
        let env := if 4 ≤ args.length then args[3]?.getD .nil else .table m.globals
        match ← Exec.loadChunk chunk name env with
        | .ok f => return [f]
        | .error e => return [.nil, .ofString e.message]) m1
      fun vs m' => ∀ v ∈ vs, v.Known m'.sizes := by
  refine (Safe.stringArgumentOr hm1).bind fun mode m2 hm2 hc2 _ => ?_
  split
  split
  · exact Safe.pure hm2 (by simp)
  · refine Safe.get ?_
    have henv : (if 4 ≤ args.length then args[3]?.getD .nil else Value.table m2.globals).Known m2.sizes := by
      split
      · exact (known_getD hargs).mono (hc1.trans hc2).sizes
      · exact hm2.globals
    refine (Safe.loadChunk chunk name hm2 henv).bind fun r m3 hm3 _ hr => ?_
    split
    · exact Safe.pure hm3 (by simpa using hr)
    · exact Safe.pure hm3 (by simp)

theorem Safe.loadWith {chunk : Bytes} {name : String} (hm : m.Whole)
    (hargs : ∀ v ∈ args, v.Known m.sizes) :
    Safe S (loadWith chunk name args) m fun vs m' => ∀ v ∈ vs, v.Known m'.sizes := by
  unfold Exec.loadWith
  extract_lets named
  split
  · exact Safe.loadNamed hargs _ hm (.refl m)
  · refine (Safe.stringArgument hm).bind fun s m1 hm1 hc1 _ => ?_
    exact Safe.loadNamed hargs _ hm1 hc1

end

/-! ## 5. All functions -/

section

variable {S : Prop} {I : Failure → Prop} {m : Machine} {args vs : List Value} {ret : HostReturn} {purpose : Purpose}

theorem loadFrom_leads (hm : m.Steady) (hr : ret.Fits m.frames.length m.activations)
    (hargs : ∀ v ∈ args, v.Known m.sizes) : Leads S I (loadFrom args ret) m := by
  unfold loadFrom
  split
  · refine (Safe.loadWith hm.toWhole hargs).thenMeets hm fun vs m1 hm1 hc1 hvs => ?_
    refine finish_leads hm1 ?_ hvs
    rw [hc1.frames, hc1.activations]
    exact hr
  · next id hid =>
    exact activate_leads hm (hargs (.function id) (List.mem_of_mem_head? hid)) (by simp) hargs hr
  · exact (Safe.failType (Q := fun _ _ => False) hm.toWhole).meets
      (fun e m' hw hc he => Failed.ofSane (hm.ofCalm hw hc).good he) fun _ _ _ _ hq => hq.elim

/-- **Every library function leads on.** -/
theorem host_leads {h : HostFn} (hm : m.Steady) (hr : ret.Fits m.frames.length m.activations)
    (hargs : ∀ v ∈ args, v.Known m.sizes) : Leads S I (host h args ret) m := by
  have hsimple : Leads S I (do finish ret (← simple h args)) m := by
    refine (simple_safe hm.toWhole hargs).thenMeets hm fun vs m1 hm1 hc1 hvs => ?_
    refine finish_leads hm1 ?_ hvs
    rw [hc1.frames, hc1.activations]
    exact hr
  cases h with
  | pcall =>
    refine (Safe.argument hm.toWhole hargs).thenMeets hm fun f m1 hm1 hc1 hf => ?_
    refine activate_leads hm1 hf (fun v hv => (hargs v (List.mem_of_mem_drop hv)).mono hc1.sizes) trivial ?_
    rw [hc1.frames, hc1.activations]
    exact hr
  | load => exact loadFrom_leads hm hr hargs
  | _ => exact hsimple

theorem settleResults_leads (hm : m.Steady) (hk : purpose.Known m.sizes)
    (hp : purpose.Fits m.frames.length m.activations) (hvs : ∀ v ∈ vs, v.Known m.sizes) :
    Leads S I (settleResults purpose vs) m := by
  cases purpose with
  | outermost => exact Leads.pure hm hvs
  | guarded ret => exact finish_leads hm hp (List.forall_mem_cons.mpr ⟨trivial, hvs⟩)
  | reading pieces args ret =>
    have hwhole : Leads S I (do finish ret (← loadWith pieces.reverse.flatten "=(load)" args)) m := by
      refine (Safe.loadWith hm.toWhole hk).thenMeets hm fun vs m1 hm1 hc1 hvs => ?_
      refine finish_leads hm1 ?_ hvs
      rw [hc1.frames, hc1.activations]
      exact hp
    show Leads S I (pieceRead pieces args ret vs) m
    unfold pieceRead
    extract_lets whole
    split
    · exact hwhole
    · exact hwhole
    · exact activate_leads hm (known_headD hk) (by simp) hk hp
    · exact finish_leads hm hp (by simp)

end

end Exec

end LuaMachine
