/-
  CHUNKS WRITTEN AND READ BACK. A reader is held against the bytes of one value: it takes exactly these from
  the front, whatever stands behind them.

  * `Reads.readFunction` -- **a function that the format can hold is read as it was written**;
  * `Gives.readFunction` -- **only such functions are read**;
  * `load_dump_load` -- **what a chunk can hold comes back from it, and chunks hold nothing else**.
-/
import LuaMachine.Chunk.Decode
import LuaMachine.Proofs.Chunk.Verified

namespace LuaMachine

/-! ## 1. Little-endian numbers -/

namespace LittleEndian

def capacity : Nat → Nat
  | 0 => 1
  | width + 1 => 256 * capacity width

theorem capacity_pos (width : Nat) : 0 < capacity width := by
  induction width with
  | zero => decide
  | succ width ih =>
    simp only [capacity]
    omega

@[simp] theorem length_encode (width n : Nat) : (encode width n).length = width := by
  induction width generalizing n with
  | zero => rfl
  | succ width ih => simp [encode, ih]

theorem decode_encode {width n : Nat} (h : n < capacity width) : decode (encode width n) = n := by
  induction width generalizing n with
  | zero =>
    simp only [capacity] at h
    simp only [encode, decode]
    omega
  | succ width ih =>
    simp only [capacity] at h
    simp only [encode, decode, UInt8.toNat_ofNat']
    rw [ih (by omega)]
    omega

theorem decode_lt (bytes : Bytes) : decode bytes < capacity bytes.length := by
  induction bytes with
  | nil => decide
  | cons b rest ih =>
    simp only [decode, capacity, List.length_cons]
    have := b.toNat_lt
    omega

end LittleEndian

theorem Instr.ofWord_word (i : Instr) : Instr.ofWord i.word = i := by
  obtain ⟨op, a, b, c⟩ := i
  have hop := op.isLt
  have ha := a.isLt
  have hb := b.isLt
  have hc := c.isLt
  simp only [ofWord, word, UInt32.toNat_ofNat', Instr.mk.injEq, Fin.ext_iff, Fin.val_ofNat]
  omega

/-! ## 2. Readers and bytes -/

namespace Chunk

def Reads {α : Type} (r : Read α) (bytes : Bytes) (x : α) : Prop :=
  ∀ rest, r (bytes ++ rest) = .ok (x, rest)

theorem bind_ok {α β : Type} {r : Read α} {k : α → Read β} {s rest : Bytes} {x : α}
    (h : r s = .ok (x, rest)) : (r >>= k) s = k x rest := by
  show (r s >>= fun p => k p.1 p.2) = _
  rw [h]
  rfl

namespace Reads

variable {α β : Type}

theorem pure (x : α) : Reads (Pure.pure x : Read α) [] x := fun _ => rfl

theorem bind {r : Read α} {k : α → Read β} {bytes more : Bytes} {x : α} {y : β}
    (hr : Reads r bytes x) (hk : Reads (k x) more y) : Reads (r >>= k) (bytes ++ more) y := by
  intro rest
  rw [List.append_assoc, bind_ok (hr (more ++ rest))]
  exact hk rest

theorem map {r : Read α} {f : α → β} {bytes : Bytes} {x : α} (hr : Reads r bytes x) :
    Reads (do return f (← r)) bytes (f x) := by
  have := hr.bind (k := fun x => Pure.pure (f x)) (Reads.pure (f x))
  rwa [List.append_nil] at this

theorem readByte (b : UInt8) : Reads readByte [b] b := fun _ => rfl

end Reads

theorem atLeast_iff {n : Nat} {s : Bytes} : atLeast n s = true ↔ n ≤ s.length := by
  induction n generalizing s with
  | zero => simp [atLeast]
  | succ n ih =>
    cases s with
    | nil => simp [atLeast]
    | cons b rest => simp [atLeast, ih]

theorem readBytes_eq {n : Nat} {s : Bytes} :
    readBytes n s = if n ≤ s.length then .ok (s.take n, s.drop n) else .error .truncated := by
  show (if atLeast n s then _ else _ : Read Bytes) s = _
  by_cases h : n ≤ s.length
  · rw [if_pos (atLeast_iff.mpr h), if_pos h]
    rfl
  · rw [if_neg (fun hc => h (atLeast_iff.mp hc)), if_neg h]
    rfl

namespace Reads

theorem readBytes (s : Bytes) : Reads (readBytes s.length) s s := by
  intro rest
  simp [readBytes_eq]

theorem readNat {width n : Nat} (h : n < LittleEndian.capacity width) :
    Reads (readNat width) (LittleEndian.encode width n) n := by
  have := (Reads.readBytes (LittleEndian.encode width n)).map (f := LittleEndian.decode)
  rwa [LittleEndian.length_encode, LittleEndian.decode_encode h] at this

theorem readInt (n : UInt32) : Reads readInt (int n.toNat) n := by
  have h : n.toNat < LittleEndian.capacity 4 := n.toNat_lt
  have := (Reads.readNat h).map (f := UInt32.ofNat)
  rwa [UInt32.ofNat_toNat] at this

theorem readBool (b : Bool) : Reads readBool (bool b) b := by
  have := (Reads.readByte (if b then 1 else 0)).map (f := fun x => decide (x ≠ 0))
  cases b <;> exact this

/-! ### Lists -/

theorem readMany {α β : Type} {r : Read β} {f : α → Bytes} {g : α → β} {xs : List α}
    (h : ∀ x ∈ xs, Reads r (f x) (g x)) (acc : List β) :
    Reads (readMany r xs.length acc) (xs.flatMap f) (acc.reverse ++ xs.map g) := by
  induction xs generalizing acc with
  | nil =>
    rw [List.map_nil, List.append_nil]
    exact Reads.pure _
  | cons x xs ih =>
    have hx := h x (List.mem_cons_self ..)
    have hrest := ih (fun y hy => h y (List.mem_cons_of_mem _ hy)) (g x :: acc)
    rw [List.reverse_cons, List.append_assoc] at hrest
    exact hx.bind hrest

theorem readCount {size n : Nat} {behind : Bytes} (hn : n < LittleEndian.capacity 4)
    (h : n * size ≤ behind.length) :
    readCount size (int n ++ behind) = .ok (n, behind) := by
  refine (bind_ok (Reads.readNat hn behind)).trans ?_
  show (if atLeast (n * size) behind then _ else _ : Read Nat) behind = _
  rw [if_pos (atLeast_iff.mpr h)]
  rfl

theorem length_flatMap_le {α : Type} {f : α → Bytes} {xs : List α} {size : Nat}
    (h : ∀ x ∈ xs, size ≤ (f x).length) : xs.length * size ≤ (xs.flatMap f).length := by
  induction xs with
  | nil => simp
  | cons x xs ih =>
    have hx := h x (List.mem_cons_self ..)
    have hrest := ih fun y hy => h y (List.mem_cons_of_mem _ hy)
    simp only [List.length_cons, List.flatMap_cons, List.length_append, Nat.add_mul]
    omega

theorem readList {α β : Type} {size : Nat} {r : Read β} {f : α → Bytes} {g : α → β} {xs : List α}
    (hn : xs.length < LittleEndian.capacity 4)
    (h : ∀ x ∈ xs, Reads r (f x) (g x) ∧ size ≤ (f x).length) :
    Reads (readList size r) (list f xs) (xs.map g) := by
  intro rest
  have hlen := length_flatMap_le fun x hx => (h x hx).2
  have hcount : Chunk.readCount size (list f xs ++ rest) = .ok (xs.length, xs.flatMap f ++ rest) := by
    rw [list, List.append_assoc]
    exact Reads.readCount hn (by rw [List.length_append]; omega)
  refine (bind_ok hcount).trans ?_
  exact Reads.readMany (fun x hx => (h x hx).1) [] rest

end Reads

/-! ## 3. Parts of a function -/

def maxText : Nat := LittleEndian.capacity 8 - 2

namespace Reads

theorem readText {t : Option Bytes} (h : ∀ s ∈ t, s.length ≤ maxText) : Reads readText (text t) t := by
  cases t with
  | none => exact (Reads.readByte 0).bind (Reads.pure none)
  | some s =>
    have hs : s.length + 1 < LittleEndian.capacity 8 := by
      have : s.length ≤ LittleEndian.capacity 8 - 2 := h s rfl
      have : 2 ≤ LittleEndian.capacity 8 := by decide
      omega
    simp only [text]
    by_cases hsize : s.length + 1 < 255
    · rw [if_pos hsize]
      have hb : (UInt8.ofNat (s.length + 1)).toNat = s.length + 1 := by
        rw [UInt8.toNat_ofNat']
        omega
      refine (Reads.readByte _).bind ?_
      have h0 : UInt8.ofNat (s.length + 1) ≠ 0 := fun hc => by simp [hc] at hb
      have h255 : UInt8.ofNat (s.length + 1) ≠ 255 := fun hc => by
        rw [hc] at hb
        simp at hb
        omega
      rw [if_neg h0, if_neg h255, hb]
      exact (Reads.readBytes s).map (f := some)
    · rw [if_neg hsize]
      refine (Reads.readByte 255).bind ?_
      rw [if_neg (by decide), if_pos rfl]
      refine (Reads.readNat hs).bind ?_
      exact (Reads.readBytes s).map (f := some)

theorem readString {s : Bytes} (h : s.length ≤ maxText) :
    Reads (do
      match ← Chunk.readText with
      | some s => return Constant.str s
      | none => MonadExcept.throw ChunkFault.badData) (text (some s)) (.str s) := by
  have hs := Reads.readText (t := some s) fun s' hs' => by rwa [← Option.mem_some.mp hs']
  rw [← List.append_nil (text (some s))]
  exact hs.bind (Reads.pure _)

theorem readConstant {k : Constant} (h : ∀ s, k = .str s → s.length ≤ maxText) :
    Reads readConstant (constant k) k := by
  cases k with
  | nil => exact (Reads.readByte 0).bind (Reads.pure _)
  | bool b => exact (Reads.readByte 1).bind ((Reads.readBool b).map (f := Constant.bool))
  | float d =>
    have hd : d.bits.toNat < LittleEndian.capacity 8 := d.bits.toNat_lt
    have hbits := (Reads.readNat hd).map (f := fun n => Constant.float ⟨UInt64.ofNat n⟩)
    rw [UInt64.ofNat_toNat] at hbits
    exact (Reads.readByte 3).bind hbits
  | int i =>
    have hi : i.toUInt64.toNat < LittleEndian.capacity 8 := i.toUInt64.toNat_lt
    have hbits := (Reads.readNat hi).map (f := fun n => Constant.int (UInt64.ofNat n).toInt64)
    rw [UInt64.ofNat_toNat] at hbits
    exact (Reads.readByte 19).bind hbits
  | str s =>
    have hstr := readString (h s rfl)
    simp only [constant]
    by_cases hshort : s.isShort = true
    · rw [if_pos hshort]
      exact (Reads.readByte 4).bind hstr
    · rw [if_neg hshort]
      exact (Reads.readByte 20).bind hstr

theorem readLocal {v : LocalRange} (h : v.name.length ≤ maxText) :
    Reads readLocal (text (some v.name) ++ int v.start.toNat ++ int v.stop.toNat) v := by
  rw [List.append_assoc]
  refine (Reads.readText fun s hs => by rwa [← Option.mem_some.mp hs]).bind ?_
  refine (Reads.readInt v.start).bind ?_
  exact (Reads.readInt v.stop).map (f := LocalRange.mk v.name v.start)

def unnamed (u : UpvalueDesc) : UpvalueDesc := { u with name := none }

theorem readUpvalue (u : UpvalueDesc) :
    Reads readUpvalue (bool u.inStack ++ [u.index]) (unnamed u) :=
  (Reads.readBool u.inStack).bind ((Reads.readByte u.index).map (f := UpvalueDesc.mk none u.inStack))

theorem readNames {us : List UpvalueDesc} (h : ∀ u ∈ us, ∀ s ∈ u.name, s.length ≤ maxText) :
    Reads (readNames us.length (us.map unnamed)) (us.flatMap fun u => text u.name) us := by
  induction us with
  | nil => exact Reads.pure _
  | cons u us ih =>
    have hu := Reads.readText (t := u.name) (h u (List.mem_cons_self ..))
    have hrest := ih fun v hv => h v (List.mem_cons_of_mem _ hv)
    exact hu.bind (hrest.map (f := fun vs => u :: vs))

theorem text_length (t : Option Bytes) : 1 ≤ (text t).length := by
  cases t with
  | none => decide
  | some s =>
    simp only [text]
    split <;> simp

theorem constant_length (k : Constant) : 1 ≤ (constant k).length := by
  cases k <;> simp [constant]

end Reads

/-! ## 4. Functions -/

/-- The format has room for the counts of a function, and its texts have at most `limit` bytes. -/
structure Storable (limit : Nat) (p : Proto) : Prop where
  code : p.code.size < LittleEndian.capacity 4
  constants : p.constants.size < LittleEndian.capacity 4
  upvalues : p.upvalues.length < LittleEndian.capacity 4
  protos : p.protos.length < LittleEndian.capacity 4
  lines : p.lines.size < LittleEndian.capacity 4
  locals : p.locals.length < LittleEndian.capacity 4
  source : ∀ s ∈ p.source, s.length ≤ limit
  strings : ∀ k ∈ p.constants.toList, ∀ s, k = .str s → s.length ≤ limit
  upvalueNames : ∀ u ∈ p.upvalues, ∀ s ∈ u.name, s.length ≤ limit
  localNames : ∀ v ∈ p.locals, v.name.length ≤ limit

theorem Storable.mono {limit limit' : Nat} {p : Proto} (h : Storable limit p) (hl : limit ≤ limit') :
    Storable limit' p :=
  { h with
    source := fun s hs => Nat.le_trans (h.source s hs) hl
    strings := fun k hk s hs => Nat.le_trans (h.strings k hk s hs) hl
    upvalueNames := fun u hu s hs => Nat.le_trans (h.upvalueNames u hu s hs) hl
    localNames := fun v hv => Nat.le_trans (h.localNames v hv) hl }

def Sourced (p : Proto) : Prop := ∀ q ∈ p.protos, q.source = none → p.source = none

def kept (strip : Bool) (p : Proto) : Proto := if strip then p.strip else p

theorem functions_eq (strip : Bool) (parent : Option Bytes) (ps : List Proto) :
    functions strip parent ps = ps.flatMap (function strip parent) := by
  induction ps with
  | nil => rfl
  | cons p ps ih => rw [functions, ih, List.flatMap_cons]

theorem stripAll_eq (ps : List Proto) : Proto.stripAll ps = ps.map Proto.strip := by
  induction ps with
  | nil => rfl
  | cons p ps ih => rw [Proto.stripAll, ih, List.map_cons]

theorem strip_eq (p : Proto) :
    p.strip = ⟨p.code, p.constants, p.protos.map Proto.strip, p.upvalues.map Reads.unnamed, p.params,
      p.isVararg, p.maxStack, none, p.lineDefined, p.lastLine, #[], []⟩ := by
  obtain ⟨code, constants, protos, upvalues, params, isVararg, maxStack, source, lineDefined,
    lastLine, lines, locals⟩ := p
  rw [Proto.strip, stripAll_eq]
  rfl

def details (strip : Bool) (p : Proto) : Bytes :=
  if strip then int 0 ++ int 0 ++ int 0
  else
    list (fun l => int l.toNat) p.lines.toList ++
    list (fun v => text (some v.name) ++ int v.start.toNat ++ int v.stop.toNat) p.locals ++
    list (fun u => text u.name) p.upvalues

theorem function_eq (strip : Bool) (parent : Option Bytes) (p : Proto) :
    function strip parent p =
      text (if strip ∨ p.source = parent then none else p.source) ++
      (int p.lineDefined.toNat ++ (int p.lastLine.toNat ++
      ([p.params] ++ (bool p.isVararg ++ ([p.maxStack] ++
      (list (fun i => int i.word.toNat) p.code.toList ++
      (list constant p.constants.toList ++
      (list (fun u => bool u.inStack ++ [u.index]) p.upvalues ++
      (list (function strip p.source) p.protos ++ details strip p))))))))) := by
  obtain ⟨code, constants, protos, upvalues, params, isVararg, maxStack, source, lineDefined,
    lastLine, lines, locals⟩ := p
  rw [function, functions_eq]
  simp only [List.append_assoc, list, details]

section

variable (strip : Bool) (p : Proto)

theorem kept_true :
    kept true p = ⟨p.code, p.constants, p.protos.map Proto.strip, p.upvalues.map Reads.unnamed,
      p.params, p.isVararg, p.maxStack, none, p.lineDefined, p.lastLine, #[], []⟩ := strip_eq p

@[simp] theorem kept_code : (kept strip p).code = p.code := by
  cases strip
  · rfl
  · rw [kept_true]

@[simp] theorem kept_constants : (kept strip p).constants = p.constants := by
  cases strip
  · rfl
  · rw [kept_true]

@[simp] theorem kept_upvalues_length : (kept strip p).upvalues.length = p.upvalues.length := by
  cases strip
  · rfl
  · rw [kept_true, List.length_map]

theorem kept_protos : (kept strip p).protos = p.protos.map (kept strip) := by
  cases strip
  · exact (List.map_id p.protos).symm
  · rw [kept_true]
    rfl

theorem kept_source : (kept strip p).source = if strip then none else p.source := by
  cases strip
  · rfl
  · rw [kept_true]
    rfl

theorem kept_eq :
    kept strip p = ⟨p.code, p.constants, p.protos.map (kept strip), (kept strip p).upvalues, p.params,
      p.isVararg, p.maxStack, if strip then none else p.source, p.lineDefined, p.lastLine,
      (kept strip p).lines, (kept strip p).locals⟩ := by
  rw [← kept_protos, ← kept_source]
  cases strip
  · obtain ⟨code, constants, protos, upvalues, params, isVararg, maxStack, source, lineDefined,
      lastLine, lines, locals⟩ := p
    rfl
  · rw [kept_true]

end

theorem source_or {strip : Bool} {parent source : Option Bytes}
    (h : strip = false → source = none → parent = none) :
    (if strip ∨ source = parent then none else source).or (if strip then none else parent) =
      if strip then none else source := by
  cases strip
  · by_cases hp : source = parent
    · simp [hp]
    · cases source with
      | none => exact (hp (h rfl rfl).symm).elim
      | some s => simp [hp]
  · simp

theorem function_length (strip : Bool) (parent : Option Bytes) (p : Proto) :
    1 ≤ (function strip parent p).length := by
  have := Reads.text_length (if strip ∨ p.source = parent then none else p.source)
  rw [function_eq, List.length_append]
  omega

theorem Reads.readSame {α : Type} {size : Nat} {r : Read α} {f : α → Bytes} {xs : List α}
    (hn : xs.length < LittleEndian.capacity 4)
    (h : ∀ x ∈ xs, Reads r (f x) x ∧ size ≤ (f x).length) :
    Reads (Chunk.readList size r) (list f xs) xs := by
  have := Reads.readList (g := id) hn h
  rwa [List.map_id] at this

theorem Reads.readDetails {β : Type} {strip : Bool} {p : Proto} (h : Storable maxText (kept strip p))
    {k : List UInt32 → List LocalRange → List UpvalueDesc → Read β} {y : β}
    (hk : Reads (k (kept strip p).lines.toList (kept strip p).locals (kept strip p).upvalues) [] y) :
    Reads (do
      let lines ← Chunk.readList 4 Chunk.readInt
      let locals ← Chunk.readList 9 Chunk.readLocal
      let names ← Chunk.readCount 1
      if (p.upvalues.map unnamed).length < names then throw .badData
      else do
        let upvalues ← Chunk.readNames names (p.upvalues.map unnamed)
        k lines locals upvalues) (details strip p) y := by
  cases strip with
  | true =>
    have hnone : Reads (Chunk.readCount 1) (int 0) 0 := fun rest =>
      Reads.readCount (by decide) (by omega)
    have hempty : ∀ {α : Type} {size : Nat} {r : Read α}, Reads (Chunk.readList size r) (int 0) [] := by
      intro α size r
      have hnil : Reads (Chunk.readList size r) (list (fun _ => []) []) [] :=
        Reads.readSame (Nat.zero_lt_succ _) (by simp)
      simpa [list] using hnil
    rw [kept_true] at hk
    rw [details, if_pos rfl, List.append_assoc]
    refine hempty.bind (hempty.bind ?_)
    rw [← List.append_nil (int 0)]
    refine hnone.bind ?_
    rw [if_neg (Nat.not_lt_zero _)]
    exact (Reads.pure (p.upvalues.map unnamed)).bind hk
  | false =>
    simp only [kept, Bool.false_eq_true, if_false] at hk h
    rw [details, if_neg Bool.false_ne_true, List.append_assoc]
    refine (Reads.readSame h.lines fun l _ => ⟨Reads.readInt l, by simp [int]⟩).bind ?_
    refine (Reads.readSame h.locals fun v hv => ⟨Reads.readLocal (h.localNames v hv), ?_⟩).bind ?_
    · have := text_length (some v.name)
      simp only [int, List.length_append, LittleEndian.length_encode]
      omega
    intro rest
    have hnames := length_flatMap_le fun (u : UpvalueDesc) (_ : u ∈ p.upvalues) => text_length u.name
    rw [list, List.append_assoc, bind_ok (Reads.readCount h.upvalues
      (by rw [List.length_append]; omega)), if_neg (by simp)]
    have := (Reads.readNames h.upvalueNames).bind hk rest
    rwa [List.append_nil] at this

/-- **A function that the format can hold is read as it was written.** -/
theorem Reads.readFunction {strip : Bool} {depth : Nat} {parent : Option Bytes} {p : Proto}
    (hw : p.Within depth) (hs : (kept strip p).All (Storable maxText))
    (hparent : strip = false → p.source = none → parent = none)
    (hsrc : strip = false → p.All Sourced) :
    Reads (readFunction depth (if strip then none else parent)) (function strip parent p)
      (kept strip p) := by
  induction depth generalizing parent p with
  | zero => exact hw.elim
  | succ depth ih =>
    have hnested : ∀ q ∈ p.protos, Reads (Chunk.readFunction depth (if strip then none else p.source))
        (function strip p.source q) (kept strip q) := fun q hq =>
      ih (hw q hq) (hs.nested _ (by rw [kept_protos]; exact List.mem_map_of_mem hq))
        (fun hstrip => (hsrc hstrip).here q hq) fun hstrip => (hsrc hstrip).nested q hq
    have h := hs.here
    have hsource := source_or hparent
    rw [function_eq]
    unfold Chunk.readFunction
    refine (Reads.readText (t := if strip ∨ p.source = parent then none else p.source) ?_).bind ?_
    · intro s hm
      refine h.source s ?_
      rw [kept_source]
      split at hm
      · cases hm
      · next hne => rwa [if_neg fun hstrip => hne (.inl hstrip)]
    rw [hsource]
    refine (Reads.readInt p.lineDefined).bind ((Reads.readInt p.lastLine).bind ?_)
    refine (Reads.readByte p.params).bind ((Reads.readBool p.isVararg).bind
      ((Reads.readByte p.maxStack).bind ?_))
    refine (Reads.readSame (by simpa using h.code) fun i _ => ?_).bind ?_
    · have hi := (Reads.readInt i.word).map (f := Instr.ofWord)
      rw [Instr.ofWord_word] at hi
      exact ⟨hi, by simp [int]⟩
    refine (Reads.readSame (by simpa using h.constants) fun k hk => ?_).bind ?_
    · exact ⟨Reads.readConstant (h.strings k (by simpa using hk)), constant_length k⟩
    refine (Reads.readList (by simpa using h.upvalues) fun u _ => ⟨Reads.readUpvalue u, by simp [bool]⟩).bind ?_
    refine (Reads.readList (by simpa [kept_protos] using h.protos) fun q hq => ⟨hnested q hq, function_length ..⟩).bind ?_
    refine Reads.readDetails h ?_
    simp only [Array.toArray_toList]
    rw [← kept_eq]
    exact Reads.pure _

theorem Reads.readHeader (parts : List (Bytes × ChunkFault)) :
    Reads (readHeader parts) (parts.flatMap (·.1)) () := by
  induction parts with
  | nil => exact Reads.pure ()
  | cons part rest ih =>
    refine (Reads.readBytes part.1).bind ?_
    rw [if_pos rfl]
    exact ih

/-- **The main function of a chunk is the one that was written.** -/
theorem readMain_ofProto {strip : Bool} {p : Proto} (hw : p.Within (maxNesting + 1))
    (hs : (kept strip p).All (Storable maxText)) (hsrc : strip = false → p.All Sourced)
    (hu : p.upvalues.length ≤ 255) :
    readMain (ofProto p strip) = .ok (kept strip p, []) := by
  have hfun : Reads (readFunction (maxNesting + 1) none) (function strip none p) (kept strip p) := by
    have hread : Reads (readFunction (maxNesting + 1) (if strip then none else none))
        (function strip none p) (kept strip p) :=
      Reads.readFunction hw hs (fun _ _ => rfl) hsrc
    rwa [ite_self] at hread
  rw [ofProto, List.append_assoc]
  refine (bind_ok (Reads.readHeader header _)).trans ?_
  refine (bind_ok (Reads.readByte _ _)).trans ?_
  rw [← List.append_nil (function strip none p)]
  refine (bind_ok (hfun [])).trans ?_
  have hcount : (kept strip p).upvalues.length = (UInt8.ofNat p.upvalues.length).toNat := by
    rw [kept_upvalues_length, UInt8.toNat_ofNat']
    omega
  show (if _ ∧ ([] : Bytes) = [] then _ else _ : Read Proto) [] = _
  rw [if_pos ⟨hcount, rfl⟩]
  rfl

/-! ## 5. Only functions that the format can hold are read -/

def textLimit (n : Nat) : Nat := min n maxText

def Gives {α : Type} (n : Nat) (r : Read α) (P : α → Prop) : Prop :=
  ∀ s x rest, s.length ≤ n → r s = .ok (x, rest) → rest.length ≤ n ∧ P x

namespace Gives

variable {α β : Type} {n : Nat} {P : α → Prop} {Q : β → Prop}

theorem pure {x : α} (h : P x) : Gives n (Pure.pure x) P := by
  intro s y rest hs hr
  cases hr
  exact ⟨hs, h⟩

theorem throw {f : ChunkFault} : Gives n (throw f : Read α) P := by
  intro s y rest _ hr
  cases hr

theorem get : Gives n get fun s : Bytes => s.length ≤ n := by
  intro s y rest hs hr
  cases hr
  exact ⟨hs, hs⟩

theorem bind {r : Read α} {k : α → Read β} (hr : Gives n r P) (hk : ∀ x, P x → Gives n (k x) Q) :
    Gives n (r >>= k) Q := by
  intro s y rest hs h
  cases hrs : r s with
  | error f =>
    have : (r >>= k) s = .error f := by
      show (r s >>= fun p => k p.1 p.2) = _
      rw [hrs]
      rfl
    rw [this] at h
    cases h
  | ok p =>
    rw [bind_ok hrs] at h
    obtain ⟨hlen, hp⟩ := hr s p.1 p.2 hs hrs
    exact hk p.1 hp p.2 y rest hlen h

theorem imp {P' : α → Prop} {r : Read α} (hr : Gives n r P) (h : ∀ x, P x → P' x) : Gives n r P' := by
  intro s x rest hs hx
  obtain ⟨hlen, hp⟩ := hr s x rest hs hx
  exact ⟨hlen, h x hp⟩

theorem map {r : Read α} {f : α → β} (hr : Gives n r fun x => Q (f x)) :
    Gives n (do return f (← r)) Q := hr.bind fun _ h => Gives.pure h

theorem readByte : Gives n readByte fun _ => True := by
  refine get.bind fun s hs => ?_
  cases s with
  | nil => exact Gives.throw
  | cons b rest =>
    intro s' x rest' _ hr
    cases hr
    exact ⟨Nat.le_of_succ_le hs, trivial⟩

theorem readBytes (k : Nat) : Gives n (readBytes k) fun s => s.length = k ∧ k ≤ n := by
  intro s x rest hs h
  rw [readBytes_eq] at h
  split at h
  · next hk =>
    cases h
    rw [List.length_drop]
    exact ⟨by omega, List.length_take_of_le hk, Nat.le_trans hk hs⟩
  · cases h

theorem readNat (width : Nat) : Gives n (readNat width) (· < LittleEndian.capacity width) :=
  Gives.map ((readBytes width).imp fun s hs => hs.1 ▸ LittleEndian.decode_lt s)

theorem readInt : Gives n readInt fun _ => True := Gives.map ((readNat 4).imp fun _ _ => trivial)

theorem readBool : Gives n readBool fun _ => True := Gives.map readByte

theorem readCount (size : Nat) : Gives n (readCount size) (· < LittleEndian.capacity 4) := by
  refine (readNat 4).bind fun k hk => get.bind fun s _ => ?_
  split
  · exact Gives.pure hk
  · exact Gives.throw

theorem readMany {r : Read α} (hr : Gives n r P) (k : Nat) (acc : List α) (hacc : ∀ x ∈ acc, P x) :
    Gives n (readMany r k acc) fun xs => xs.length = acc.length + k ∧ ∀ x ∈ xs, P x := by
  induction k generalizing acc with
  | zero => exact Gives.pure ⟨List.length_reverse, fun x hx => hacc x (List.mem_reverse.mp hx)⟩
  | succ k ih =>
    refine hr.bind fun x hx => ?_
    have := ih (x :: acc) (List.forall_mem_cons.mpr ⟨hx, hacc⟩)
    rwa [List.length_cons, show acc.length + 1 + k = acc.length + (k + 1) by omega] at this

theorem readList {r : Read α} {size : Nat} (hr : Gives n r P) :
    Gives n (readList size r) fun xs => xs.length < LittleEndian.capacity 4 ∧ ∀ x ∈ xs, P x := by
  refine (readCount size).bind fun k hk => (readMany hr k [] (by simp)).imp fun xs hxs => ?_
  exact ⟨by rw [hxs.1, List.length_nil, Nat.zero_add]; exact hk, hxs.2⟩

theorem readText : Gives n readText fun t => ∀ s ∈ t, s.length ≤ textLimit n := by
  refine readByte.bind fun b _ => ?_
  split
  · exact Gives.pure (by simp)
  · extract_lets next
    have hnext : ∀ k, k < LittleEndian.capacity 8 →
        Gives n (next k) fun t => ∀ s ∈ t, s.length ≤ textLimit n := by
      intro k hk
      show Gives n (if k = 0 then _ else _) _
      split
      · exact Gives.throw
      · refine Gives.map ((readBytes (k - 1)).imp fun s hs t ht => ?_)
        cases ht
        have : s.length ≤ maxText := by
          unfold maxText
          omega
        exact Nat.le_min.mpr ⟨by omega, this⟩
    split
    · exact (readNat 8).bind hnext
    · exact hnext _ (Nat.lt_trans b.toNat_lt (by decide))

theorem readString : Gives n (do
    match ← Chunk.readText with
    | some s => return Constant.str s
    | none => MonadExcept.throw ChunkFault.badData) fun k => ∀ s, k = .str s → s.length ≤ textLimit n := by
  refine readText.bind fun t ht => ?_
  cases t with
  | none => exact Gives.throw
  | some s =>
    refine Gives.pure fun s' hs' => ?_
    cases hs'
    exact ht s rfl

theorem readConstant : Gives n readConstant fun k => ∀ s, k = .str s → s.length ≤ textLimit n := by
  refine readByte.bind fun tag _ => ?_
  split
  · exact Gives.pure (by simp)
  · exact Gives.map (readBool.imp fun _ _ => by simp)
  · exact Gives.map ((readNat 8).imp fun _ _ => by simp)
  · exact Gives.map ((readNat 8).imp fun _ _ => by simp)
  · exact readString
  · exact readString
  · exact Gives.throw

theorem readUpvalue : Gives n readUpvalue fun u => ∀ s ∈ u.name, s.length ≤ textLimit n :=
  readBool.bind fun _ _ => Gives.map (readByte.imp fun _ _ => by simp)

theorem readLocal : Gives n readLocal fun v => v.name.length ≤ textLimit n := by
  refine readText.bind fun t ht => readInt.bind fun _ _ => Gives.map (readInt.imp fun _ _ => ?_)
  cases t with
  | none => exact Nat.zero_le _
  | some s => exact ht s rfl

theorem readNames (k : Nat) (us : List UpvalueDesc) (h : ∀ u ∈ us, ∀ s ∈ u.name, s.length ≤ textLimit n) :
    Gives n (readNames k us) fun us' =>
      us'.length = us.length ∧ ∀ u ∈ us', ∀ s ∈ u.name, s.length ≤ textLimit n := by
  induction us generalizing k with
  | nil =>
    cases k <;> exact Gives.pure ⟨rfl, h⟩
  | cons u us ih =>
    cases k with
    | zero => exact Gives.pure ⟨rfl, h⟩
    | succ k =>
      refine readText.bind fun t ht => ?_
      refine (ih k (List.forall_mem_cons.mp h).2).bind fun us' hus' => ?_
      exact Gives.pure ⟨by simp [hus'.1], List.forall_mem_cons.mpr ⟨ht, hus'.2⟩⟩

/-- **Every function that is read is one that the format can hold**, with no more levels of functions
    than were allowed, and with a source where the function around it has one. -/
theorem readFunction {depth : Nat} {parent : Option Bytes} (hp : ∀ s ∈ parent, s.length ≤ textLimit n) :
    Gives n (readFunction depth parent) fun p => (p.source = none → parent = none) ∧
      p.All (fun q => Storable (textLimit n) q ∧ Sourced q) ∧ p.Within depth := by
  induction depth generalizing parent with
  | zero => exact Gives.throw
  | succ depth ih =>
    unfold Chunk.readFunction
    refine readText.bind fun t ht => ?_
    have hsource : ∀ s ∈ t.or parent, s.length ≤ textLimit n := by
      cases t with
      | none => exact hp
      | some s => exact ht
    refine readInt.bind fun _ _ => readInt.bind fun _ _ => ?_
    refine readByte.bind fun _ _ => readBool.bind fun _ _ => readByte.bind fun _ _ => ?_
    have hinstr : Gives n (do return Instr.ofWord (← Chunk.readInt)) fun _ => True := Gives.map readInt
    refine (readList hinstr).bind fun code hcode => ?_
    refine (readList readConstant).bind fun constants hconstants => ?_
    refine (readList readUpvalue).bind fun upvalues hupvalues => ?_
    refine (readList (ih hsource)).bind fun protos hprotos => ?_
    refine (readList readInt).bind fun lines hlines => ?_
    refine (readList readLocal).bind fun locals hlocals => ?_
    refine (readCount 1).bind fun names _ => ?_
    split
    · exact Gives.throw
    · refine (readNames names upvalues hupvalues.2).bind fun named hnamed => Gives.pure ?_
      refine ⟨fun hnone => (Option.or_eq_none_iff.mp hnone).2, .mk ⟨?_, ?_⟩ ?_, ?_⟩
      · exact {
          code := hcode.1
          constants := hconstants.1
          upvalues := by rw [hnamed.1]; exact hupvalues.1
          protos := hprotos.1
          lines := hlines.1
          locals := hlocals.1
          source := hsource
          strings := hconstants.2
          upvalueNames := hnamed.2
          localNames := hlocals.2 }
      · exact fun q hq => (hprotos.2 q hq).1
      · exact fun q hq => (hprotos.2 q hq).2.1
      · exact fun q hq => (hprotos.2 q hq).2.2

theorem readHeader (parts : List (Bytes × ChunkFault)) : Gives n (readHeader parts) fun _ => True := by
  induction parts with
  | nil => exact Gives.pure trivial
  | cons part rest ih =>
    refine (readBytes _).bind fun s _ => ?_
    split
    · exact ih
    · exact Gives.throw

theorem readMain : Gives n readMain fun p =>
    p.upvalues.length ≤ 255 ∧ p.All (fun q => Storable (textLimit n) q ∧ Sourced q) ∧
      p.Within (maxNesting + 1) := by
  refine (readHeader header).bind fun _ _ => readByte.bind fun count _ => ?_
  refine (readFunction (by simp)).bind fun p hp => get.bind fun s _ => ?_
  split
  · next h =>
    have := count.toNat_lt
    exact Gives.pure ⟨by omega, hp.2⟩
  · exact Gives.throw

end Gives

theorem toProto_ok {bytes : Bytes} {name : String} {p : Proto} :
    toProto bytes name = .ok p ↔ (∃ rest, readMain bytes = .ok (p, rest)) ∧ p.All Proto.Admitted := by
  rw [← Proto.verify_ok]
  have hrun : readMain.run bytes = readMain bytes := rfl
  unfold toProto
  rw [hrun]
  cases readMain bytes with
  | error f => simp
  | ok r =>
    obtain ⟨q, rest⟩ := r
    dsimp only
    constructor
    · intro h
      split at h
      · cases h
      · next hv =>
        cases h
        exact ⟨⟨rest, rfl⟩, hv⟩
    · rintro ⟨⟨rest', hr⟩, hv⟩
      cases hr
      rw [hv]

/-! ## 6. What a chunk keeps of a function -/

theorem fits_withProtos {r : Room} {ps : List Proto} {i : Instr} (h : i.Fits r)
    (hc : ∀ k, r.Closes k → Room.Closes { r with protos := ps } k) : i.Fits { r with protos := ps } := by
  cases ho : i.opcode
  case closure =>
    simp only [Instr.Fits, ho] at h ⊢
    exact ⟨h.1, hc _ h.2⟩
  case extraArg => simp only [Instr.Fits, ho]
  all_goals
    simp only [Instr.Fits, ho] at h ⊢
    exact h

theorem kept_room (strip : Bool) (p : Proto) :
    (kept strip p).room = { p.room with protos := p.protos.map (kept strip) } := by
  cases strip
  · show p.room = { p.room with protos := p.protos.map id }
    rw [List.map_id]
    rfl
  · rw [kept_true, Proto.room, Proto.room, List.length_map]
    rfl

theorem kept_gives {strip : Bool} {p : Proto} {r : Room} (h : ∀ u ∈ p.upvalues, r.Gives u) :
    ∀ u ∈ (kept strip p).upvalues, r.Gives u := by
  cases strip
  · exact h
  · rw [kept_true]
    intro u hu
    obtain ⟨v, hv, rfl⟩ := List.mem_map.mp hu
    exact h v hv

theorem kept_fits {strip : Bool} {p : Proto} {i : Instr} (h : i.Fits p.room) :
    i.Fits (kept strip p).room := by
  rw [kept_room]
  refine fits_withProtos h ?_
  rintro k ⟨q, hq, hu⟩
  exact ⟨kept strip q, by simpa using ⟨q, hq, rfl⟩, kept_gives hu⟩

theorem kept_params (strip : Bool) (p : Proto) : (kept strip p).params = p.params := by
  rw [kept_eq]

theorem kept_maxStack (strip : Bool) (p : Proto) : (kept strip p).maxStack = p.maxStack := by
  rw [kept_eq]

theorem kept_lines {strip : Bool} {p : Proto} (h : p.lines.size = 0 ∨ p.lines.size = p.code.size) :
    (kept strip p).lines.size = 0 ∨ (kept strip p).lines.size = (kept strip p).code.size := by
  cases strip
  · exact h
  · rw [kept_true]
    exact .inl rfl

theorem kept_sound {strip : Bool} {p : Proto} (h : p.Sound) : (kept strip p).Sound := by
  have hcode := kept_code strip p
  exact {
    params := by rw [kept_params, kept_maxStack]; exact h.params
    known := by rw [hcode]; exact h.known
    fits := by rw [hcode]; exact fun pc i hi => kept_fits (h.fits pc i hi)
    followed := by rw [hcode, kept_constants]; exact h.followed
    jumps := by rw [hcode]; exact h.jumps
    skips := by rw [hcode]; exact h.skips
    ends := by rw [hcode]; exact h.ends }

theorem kept_admitted {strip : Bool} {p : Proto} (h : p.Admitted) : (kept strip p).Admitted := by
  have hcode := kept_code strip p
  exact {
    params := by rw [kept_params, kept_maxStack]; exact h.params
    lines := kept_lines h.lines
    ends := by rw [hcode]; exact h.ends
    known := by rw [hcode]; exact h.known
    fits := by
      rw [hcode]
      intro pc i hi
      rcases h.fits pc i hi with hfits | hlax
      · exact .inl (kept_fits hfits)
      · rw [kept_room]
        exact .inr hlax
    followed := by rw [hcode, kept_constants]; exact h.followed
    jumps := by rw [hcode]; exact h.jumps
    skips := by rw [hcode]; exact h.skips
    loads := by
      rw [hcode, kept_room]
      exact h.loads }

theorem kept_storable {strip : Bool} {limit : Nat} {p : Proto} (h : Storable limit p) :
    Storable limit (kept strip p) := by
  cases strip
  · exact h
  · rw [kept_true]
    exact {
      code := h.code
      constants := h.constants
      upvalues := by rw [List.length_map]; exact h.upvalues
      protos := by rw [List.length_map]; exact h.protos
      lines := LittleEndian.capacity_pos 4
      locals := LittleEndian.capacity_pos 4
      source := by simp
      strings := h.strings
      upvalueNames := by
        intro u hu s hs
        obtain ⟨v, _, rfl⟩ := List.mem_map.mp hu
        cases hs
      localNames := by simp }

theorem kept_all {strip : Bool} {P Q : Proto → Prop} (hPQ : ∀ p, P p → Q (kept strip p)) {p : Proto}
    (h : p.All P) : (kept strip p).All Q := by
  induction h with
  | @mk p hp _ ih =>
    refine .mk (hPQ p hp) fun q hq => ?_
    rw [kept_protos] at hq
    obtain ⟨q', hq', rfl⟩ := List.mem_map.mp hq
    exact ih q' hq'

/-! ## 7. Trees that a chunk can hold -/

/-- A chunk can hold the tree: it passes the check, its counts and nesting are in bounds, and no text
    has more than `limit` bytes. -/
structure Codable (limit : Nat) (p : Proto) : Prop where
  verified : p.verify = .ok ()
  upvalues : p.upvalues.length ≤ 255
  storable : p.All (Storable limit)
  nesting : p.Within (maxNesting + 1)

/-- **What a chunk can hold is read as it was written.** -/
theorem toProto_ofProto {limit : Nat} {p : Proto} (h : Codable limit p) (hl : limit ≤ maxText)
    {strip : Bool} (hsrc : strip = false → p.All Sourced) (name : String) :
    toProto (ofProto p strip) name = .ok (kept strip p) := by
  have hstorable : p.All (Storable maxText) := h.storable.imp fun _ hq => hq.mono hl
  have hread := readMain_ofProto h.nesting (kept_all (fun _ => kept_storable) hstorable) hsrc h.upvalues
  exact toProto_ok.mpr ⟨⟨[], hread⟩, kept_all (fun _ => kept_admitted) (Proto.verify_ok p |>.mp h.verified)⟩

/-- **A chunk holds nothing else**, and no function in it lacks a source that the one around it has. -/
theorem codable_of_toProto {bytes : Bytes} {name : String} {p : Proto} (h : toProto bytes name = .ok p) :
    Codable (textLimit bytes.length) p ∧ p.All Sourced := by
  obtain ⟨⟨rest, hread⟩, hadmitted⟩ := toProto_ok.mp h
  obtain ⟨_, hup, hall, hwithin⟩ := Gives.readMain bytes p rest (Nat.le_refl _) hread
  refine ⟨?_, hall.imp fun _ hq => hq.2⟩
  exact {
    verified := (Proto.verify_ok p).mpr hadmitted
    upvalues := hup
    storable := hall.imp fun _ hq => hq.1
    nesting := hwithin }

/-- **The chunk of a tree, and the tree of a chunk.** A tree that a chunk can hold comes back from its
    chunk as it was, or without what only explains errors if that was left out; only the former
    asks for sources. Whatever the bytes, a tree that is read from them is such a tree, with no text
    longer than the bytes it was read from: written and read again, it stays the same. -/
theorem load_dump_load :
    (∀ (p : Proto) (name : String), Codable maxText p →
      (p.All Sourced → toProto (ofProto p false) name = .ok p) ∧
        toProto (ofProto p true) name = .ok p.strip) ∧
    ∀ (bytes : Bytes) (name : String) (p : Proto), toProto bytes name = .ok p →
      Codable (min bytes.length maxText) p ∧ p.All Sourced ∧
        ∀ again : String, toProto (ofProto p false) again = .ok p ∧
          toProto (ofProto p true) again = .ok p.strip := by
  refine ⟨fun p name h => ⟨fun hsrc => ?_, ?_⟩, fun bytes name p h => ?_⟩
  · exact toProto_ofProto h (Nat.le_refl _) (fun _ => hsrc) name
  · exact toProto_ofProto h (Nat.le_refl _) (fun hc => by cases hc) name
  · obtain ⟨hp, hsrc⟩ := codable_of_toProto h
    have hl : textLimit bytes.length ≤ maxText := Nat.min_le_right ..
    exact ⟨hp, hsrc, fun again => ⟨toProto_ofProto hp hl (fun _ => hsrc) again,
      toProto_ofProto hp hl (fun _ => hsrc) again⟩⟩

end Chunk

end LuaMachine
