/-
  CHUNKS CUT SHORT OR GONE ON WITH. What a reader gives depends on the bytes it takes; of those behind them
  it asks at most how many there are. So a beginning of a chunk runs out before anything else is found wrong
  with it, and what follows a chunk is never read.

  * `Steady.readFunction` -- **functions are read steadily**;
  * `chunks_prefix_free` -- **no part of a chunk and nothing longer loads as something else**.
-/
import LuaMachine.Compiler.Statement
import LuaMachine.Proofs.Chunk.RoundTrip

namespace LuaMachine.Chunk

/-! ## 1. Steady readers -/

/-- The reader takes `used` from the front and gives the value; with more bytes behind it does the
    same, and a beginning of the bytes runs out unless it has all of `used`. -/
structure Takes {α : Type} (r : Read α) (s : Bytes) (x : α) (used rest : Bytes) : Prop where
  split : s = used ++ rest
  longer : ∀ more, r (s ++ more) = .ok (x, rest ++ more)
  shorter : ∀ cut, cut <+: s →
    r cut = .error .truncated ∨ ∃ left, cut = used ++ left ∧ r cut = .ok (x, left)

def Steady {α : Type} (r : Read α) : Prop :=
  ∀ s x rest, r s = .ok (x, rest) → ∃ used, Takes r s x used rest

theorem bind_error {α β : Type} {r : Read α} {k : α → Read β} {s : Bytes} {f : ChunkFault}
    (h : r s = .error f) : (r >>= k) s = .error f := by
  show (r s >>= fun p => k p.1 p.2) = _
  rw [h]
  rfl

theorem holding_eq {α : Type} {n : Nat} {x : α} {s : Bytes} :
    (do if atLeast n (← get) then return x else throw .truncated : Read α) s =
      if n ≤ s.length then .ok (x, s) else .error .truncated := by
  show (if atLeast n s then _ else _ : Read α) s = _
  by_cases hn : n ≤ s.length
  · rw [if_pos (atLeast_iff.mpr hn), if_pos hn]
    rfl
  · rw [if_neg fun hc => hn (atLeast_iff.mp hc), if_neg hn]
    rfl

namespace Steady

variable {α β : Type}

theorem pure (x : α) : Steady (Pure.pure x : Read α) := by
  intro s y rest h
  cases h
  exact ⟨[], rfl, fun _ => rfl, fun cut _ => .inr ⟨cut, rfl, rfl⟩⟩

theorem throw (f : ChunkFault) : Steady (throw f : Read α) := by
  intro s y rest h
  cases h

theorem bind {r : Read α} {k : α → Read β} (hr : Steady r) (hk : ∀ x, Steady (k x)) :
    Steady (r >>= k) := by
  intro s y rest h
  cases hrs : r s with
  | error f =>
    rw [bind_error hrs] at h
    cases h
  | ok p =>
    obtain ⟨x, mid⟩ := p
    rw [bind_ok hrs] at h
    obtain ⟨used, first⟩ := hr s x mid hrs
    obtain ⟨used', second⟩ := hk x mid y rest h
    refine ⟨used ++ used', ?_, fun more => ?_, fun cut hcut => ?_⟩
    · rw [first.split, second.split, List.append_assoc]
    · rw [bind_ok (first.longer more)]
      exact second.longer more
    · rcases first.shorter cut hcut with hout | ⟨left, rfl, hleft⟩
      · exact .inl (bind_error hout)
      · rw [bind_ok hleft]
        have hmid : left <+: mid := by
          rw [first.split] at hcut
          exact (List.prefix_append_right_inj used).mp hcut
        rcases second.shorter left hmid with hout | ⟨left', rfl, hleft'⟩
        · exact .inl hout
        · exact .inr ⟨left', (List.append_assoc ..).symm, hleft'⟩

theorem map {r : Read α} {f : α → β} (hr : Steady r) : Steady (do return f (← r)) :=
  hr.bind fun x => Steady.pure (f x)

theorem ite {c : Prop} [Decidable c] {r1 r2 : Read α} (h1 : Steady r1) (h2 : Steady r2) :
    Steady (if c then r1 else r2) := by
  split
  · exact h1
  · exact h2

/-! ## 2. The parts of a function -/

theorem readBytes (n : Nat) : Steady (readBytes n) := by
  intro s x rest h
  rw [readBytes_eq] at h
  split at h
  · next hn =>
    cases h
    refine ⟨s.take n, (List.take_append_drop n s).symm, fun more => ?_, fun cut hcut => ?_⟩
    · rw [readBytes_eq, if_pos (by rw [List.length_append]; omega),
        List.take_append_of_le_length hn, List.drop_append_of_le_length hn]
    · rw [readBytes_eq]
      split
      · next hcutn =>
        obtain ⟨more, rfl⟩ := hcut
        rw [List.take_append_of_le_length hcutn]
        exact .inr ⟨cut.drop n, (List.take_append_drop n cut).symm, rfl⟩
      · exact .inl rfl
  · cases h

theorem readByte : Steady readByte := by
  intro s x rest h
  cases s with
  | nil => cases h
  | cons b s =>
    cases h
    refine ⟨[x], rfl, fun _ => rfl, fun cut hcut => ?_⟩
    cases cut with
    | nil => exact .inl rfl
    | cons b' cut =>
      obtain ⟨rfl, _⟩ := List.cons_prefix_cons.mp hcut
      exact .inr ⟨cut, rfl, rfl⟩

theorem readNat (width : Nat) : Steady (readNat width) := (readBytes _).map

theorem readInt : Steady readInt := (readNat 4).map

theorem readBool : Steady readBool := readByte.map

theorem readCount (size : Nat) : Steady (readCount size) := by
  refine (readNat 4).bind fun n => ?_
  intro s x rest h
  rw [holding_eq] at h
  split at h
  · next hn =>
    cases h
    refine ⟨[], rfl, fun more => ?_, fun cut _ => ?_⟩
    · rw [holding_eq, if_pos (by rw [List.length_append]; omega)]
    · rw [holding_eq]
      split
      · exact .inr ⟨cut, rfl, rfl⟩
      · exact .inl rfl
  · cases h

theorem readMany {r : Read α} (hr : Steady r) (n : Nat) (acc : List α) :
    Steady (readMany r n acc) := by
  induction n generalizing acc with
  | zero => exact Steady.pure _
  | succ n ih => exact hr.bind fun x => ih (x :: acc)

theorem readList {r : Read α} (size : Nat) (hr : Steady r) : Steady (readList size r) :=
  (readCount size).bind fun n => readMany hr n []

theorem readText : Steady readText := by
  refine readByte.bind fun b => ?_
  refine Steady.ite (Steady.pure none) ?_
  extract_lets next
  have hnext (size : Nat) : Steady (next size) :=
    Steady.ite (Steady.throw _) (readBytes (size - 1)).map
  exact Steady.ite ((readNat 8).bind hnext) (hnext _)

theorem readString : Steady (do
    match ← Chunk.readText with
    | some s => return Constant.str s
    | none => MonadExcept.throw ChunkFault.badData) := by
  refine readText.bind fun t => ?_
  cases t with
  | none => exact Steady.throw _
  | some s => exact Steady.pure _

theorem readConstant : Steady readConstant := by
  refine readByte.bind fun tag => ?_
  split
  · exact Steady.pure _
  · exact readBool.map
  · exact (readNat 8).map
  · exact (readNat 8).map
  · exact readString
  · exact readString
  · exact Steady.throw _

theorem readUpvalue : Steady readUpvalue := readBool.bind fun _ => readByte.map

theorem readLocal : Steady readLocal := readText.bind fun _ => readInt.bind fun _ => readInt.map

theorem readNames (n : Nat) (us : List UpvalueDesc) : Steady (readNames n us) := by
  induction us generalizing n with
  | nil => cases n <;> exact Steady.pure _
  | cons u us ih =>
    cases n with
    | zero => exact Steady.pure _
    | succ n => exact readText.bind fun _ => (ih n).map

/-- **Functions are read steadily**, however deep they are nested. -/
theorem readFunction (depth : Nat) (parent : Option Bytes) : Steady (readFunction depth parent) := by
  induction depth generalizing parent with
  | zero => exact Steady.throw _
  | succ depth ih =>
    unfold Chunk.readFunction
    refine readText.bind fun source => readInt.bind fun lineDefined => readInt.bind fun lastLine => ?_
    refine readByte.bind fun params => readBool.bind fun isVararg => readByte.bind fun maxStack => ?_
    refine (readList 4 readInt.map).bind fun code => (readList 1 readConstant).bind fun constants => ?_
    refine (readList 2 readUpvalue).bind fun upvalues => (readList 1 (ih _)).bind fun protos => ?_
    refine (readList 4 readInt).bind fun lines => (readList 9 readLocal).bind fun locals => ?_
    refine (readCount 1).bind fun names => ?_
    exact Steady.ite (Steady.throw _) ((readNames names upvalues).bind fun _ => Steady.pure _)

theorem readHeader (parts : List (Bytes × ChunkFault)) : Steady (readHeader parts) := by
  induction parts with
  | nil => exact Steady.pure ()
  | cons part rest ih =>
    exact (readBytes _).bind fun s => Steady.ite ih (Steady.throw part.2)

end Steady

/-! ## 3. Whole chunks -/

def readParts : Read (UInt8 × Proto) := do
  readHeader header
  let n ← readByte
  return (n, ← readFunction (maxNesting + 1) none)

theorem Steady.readParts : Steady readParts :=
  (Steady.readHeader header).bind fun _ => Steady.readByte.bind fun _ =>
    (Steady.readFunction (maxNesting + 1) none).map

theorem readMain_eq : readMain = (readParts >>= fun x => do
    if x.2.upvalues.length = x.1.toNat ∧ (← get) = [] then return x.2 else throw .badData) := by
  simp only [readMain, readParts, bind_assoc, pure_bind]

theorem readMain_error {s : Bytes} {f : ChunkFault} (h : readParts s = .error f) :
    readMain s = .error f := by
  rw [readMain_eq]
  exact bind_error h

theorem readMain_parts {s rest : Bytes} {n : UInt8} {p : Proto} (h : readParts s = .ok ((n, p), rest)) :
    readMain s =
      if p.upvalues.length = n.toNat ∧ rest = [] then .ok (p, rest) else .error .badData := by
  rw [readMain_eq, bind_ok h]
  show (if p.upvalues.length = n.toNat ∧ rest = [] then _ else _ : Read Proto) rest = _
  split <;> rfl

theorem parts_of_readMain {s rest : Bytes} {p : Proto} (h : readMain s = .ok (p, rest)) :
    ∃ n, readParts s = .ok ((n, p), []) := by
  cases hparts : readParts s with
  | error f =>
    rw [readMain_error hparts] at h
    cases h
  | ok r =>
    obtain ⟨⟨n, q⟩, rest'⟩ := r
    rw [readMain_parts hparts] at h
    split at h
    · next hc =>
      cases h
      rw [hc.2]
      exact ⟨n, rfl⟩
    · cases h

theorem toProto_error {bytes : Bytes} {f : ChunkFault} (h : readMain bytes = .error f) (name : String) :
    toProto bytes name = .error ⟨f, ChunkName.plain name⟩ := by
  have hrun : readMain.run bytes = readMain bytes := rfl
  unfold toProto
  rw [hrun, h]

section

variable {bytes : Bytes} {name : String} {p : Proto} (h : toProto bytes name = .ok p)
include h

/-- **A beginning of a chunk runs out**: nothing else is wrong with it before. -/
theorem toProto_cut {cut : Bytes} (hcut : cut <+: bytes) (hne : cut ≠ bytes) (again : String) :
    toProto cut again = .error ⟨.truncated, ChunkName.plain again⟩ := by
  obtain ⟨⟨rest, hread⟩, _⟩ := toProto_ok.mp h
  obtain ⟨n, hparts⟩ := parts_of_readMain hread
  obtain ⟨used, htakes⟩ := Steady.readParts bytes (n, p) [] hparts
  have hused : bytes = used := by rw [htakes.split, List.append_nil]
  refine toProto_error (readMain_error ?_) again
  rcases htakes.shorter cut hcut with hout | ⟨left, hleft, _⟩
  · exact hout
  · -- a beginning that has all the bytes is all of them
    rw [hleft, hused] at hcut
    have hlen := hcut.length_le
    rw [List.length_append] at hlen
    have hnil : left = [] := List.eq_nil_of_length_eq_zero (by omega)
    rw [hnil, List.append_nil, ← hused] at hleft
    exact (hne hleft).elim

/-- **Nothing may follow a chunk.** -/
theorem toProto_append {more : Bytes} (hmore : more ≠ []) (again : String) :
    toProto (bytes ++ more) again = .error ⟨.badData, ChunkName.plain again⟩ := by
  obtain ⟨⟨rest, hread⟩, _⟩ := toProto_ok.mp h
  obtain ⟨n, hparts⟩ := parts_of_readMain hread
  obtain ⟨used, htakes⟩ := Steady.readParts bytes (n, p) [] hparts
  refine toProto_error ?_ again
  rw [readMain_parts (htakes.longer more), if_neg fun hc => hmore hc.2]

end

theorem eq_of_prefix {bytes longer : Bytes} {name name' : String} {p q : Proto}
    (h : toProto bytes name = .ok p) (h' : toProto longer name' = .ok q) (hpre : bytes <+: longer) :
    bytes = longer := by
  refine Decidable.byContradiction fun hne => ?_
  rw [toProto_cut h' hpre hne name] at h
  cases h

/-- **Chunks are a code without prefixes.** If what is written for a tree can be loaded, then each
    strict beginning of it is refused as truncated, and it is refused as corrupted with anything behind
    it; so what is written for two trees is the same or neither begins the other. -/
theorem chunks_prefix_free (p q : Proto) (strip : Bool) (name : String)
    (h : toProto (ofProto p strip) name = .ok q) :
    (∀ (cut : Bytes) (again : String), cut <+: ofProto p strip → cut ≠ ofProto p strip →
      toProto cut again = .error ⟨.truncated, ChunkName.plain again⟩) ∧
    (∀ (more : Bytes) (again : String), more ≠ [] →
      toProto (ofProto p strip ++ more) again = .error ⟨.badData, ChunkName.plain again⟩) ∧
    ∀ (p' q' : Proto) (strip' : Bool) (name' : String), toProto (ofProto p' strip') name' = .ok q' →
      ofProto p strip <+: ofProto p' strip' → ofProto p strip = ofProto p' strip' :=
  ⟨fun _ again hcut hne => toProto_cut h hcut hne again,
    fun _ again hmore => toProto_append h hmore again,
    fun _ _ _ _ h' hpre => eq_of_prefix h h' hpre⟩

theorem chunks_prefix_free_closure :
    ∃ p, compile (Bytes.ofString "local a = 'x' return function(...) return a, 1.5, ... end") "t" = .ok p ∧
      toProto ((ofProto p false).take 100) "=u" = .error ⟨.truncated, "u"⟩ ∧
      toProto (ofProto p false ++ [0]) "=u" = .error ⟨.badData, "u"⟩ := by
  have hok : (match compile (Bytes.ofString "local a = 'x' return function(...) return a, 1.5, ... end") "t" with
      | .ok p => decide (100 < (ofProto p false).length) && (toProto (ofProto p false) "t").isOk
      | .error _ => false) = true := by decide +kernel
  split at hok
  · next p hp =>
    obtain ⟨hlen, hload⟩ := Bool.and_eq_true_iff.mp hok
    cases hq : toProto (ofProto p false) "t" with
    | error f => simp [hq, Except.isOk, Except.toBool] at hload
    | ok q =>
      have hall := chunks_prefix_free p q false "t" hq
      refine ⟨p, hp, hall.1 _ "=u" (List.take_prefix ..) fun hc => ?_, hall.2.1 _ "=u" (by simp)⟩
      have hcut := congrArg List.length hc
      rw [List.length_take] at hcut
      have := of_decide_eq_true hlen
      omega
  · cases hok

end LuaMachine.Chunk
