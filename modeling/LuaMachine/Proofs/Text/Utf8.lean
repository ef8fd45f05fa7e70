/-
  BYTES OF CODE POINTS. The sequences of the original UTF-8, of one to six bytes, and the one that is
  written for a code point: the shortest of those that denote it.

  * **`Utf8.extended_scheme`** -- what the bytes of a code point are, and how those of two compare.
-/
import LuaMachine.Text.Utf8
import Mathlib.Tactic.IntervalCases
import Mathlib.Tactic.Linarith

namespace LuaMachine

namespace Bytes

variable {a b : UInt8} {s t : Bytes}

theorem less_cons : less (a :: s) (b :: t) = true ↔ a < b ∨ a = b ∧ less s t = true := by
  simp [less]

theorem less_irrefl (s : Bytes) : less s s = false := by
  induction s with
  | nil => rfl
  | cons a s ih => simp [less, ih, UInt8.lt_irrefl]

theorem less_asymm (h : less s t = true) : less t s = false := by
  induction s generalizing t with
  | nil =>
    cases t with
    | nil => cases h
    | cons b t => rfl
  | cons a s ih =>
    cases t with
    | nil => cases h
    | cons b t =>
      rw [Bool.eq_false_iff, ne_eq, less_cons]
      rcases less_cons.mp h with hlt | ⟨rfl, hlt⟩
      · rintro (hgt | ⟨rfl, -⟩)
        · exact UInt8.lt_asymm hlt hgt
        · exact UInt8.lt_irrefl _ hlt
      · rintro (hgt | ⟨-, hgt⟩)
        · exact UInt8.lt_irrefl _ hgt
        · rw [ih hlt] at hgt
          cases hgt

end Bytes

namespace Utf8

/-! ## 1. The scheme -/

def leadBits (k : Nat) : Nat := if k = 0 then 7 else 6 - k

/-- What a lead byte has above its payload bits: a zero when it stands alone, otherwise as many ones as the
    sequence has bytes, and a zero. -/
def leadMark (k : Nat) : Nat := if k = 0 then 0 else 2 ^ (k + 2) - 2

def Announces (lead : UInt8) (k : Nat) : Prop := lead.toNat / 2 ^ leadBits k = leadMark k

def Continues (b : UInt8) : Prop := b.toNat / 64 = 2

def join (code : Nat) (tail : Bytes) : Nat := tail.foldl (fun code b => code * 64 + b.toNat % 64) code

def payload : Bytes → Nat
  | [] => 0
  | lead :: tail => join (lead.toNat % 2 ^ leadBits tail.length) tail

def Sequence : Bytes → Prop
  | [] => False
  | lead :: tail => tail.length ≤ 5 ∧ Announces lead tail.length ∧ ∀ b ∈ tail, Continues b

variable {a b : UInt8} {s t : Bytes} {j k code other : Nat}

theorem announces_lt (ha : Announces a j) (hb : Announces b k) (hk : k ≤ 5) (hjk : j < k) : a < b := by
  rw [UInt8.lt_iff_toNat_lt]
  unfold Announces at ha hb
  interval_cases k <;> interval_cases j <;> simp [leadBits, leadMark] at ha hb <;> omega

theorem announces_inj (hj : Announces a j) (hk : Announces a k) (hj5 : j ≤ 5) (hk5 : k ≤ 5) : j = k := by
  rcases Nat.lt_trichotomy j k with hlt | heq | hgt
  · exact absurd (announces_lt hj hk hk5 hlt) (UInt8.lt_irrefl a)
  · exact heq
  · exact absurd (announces_lt hk hj hj5 hgt) (UInt8.lt_irrefl a)

theorem join_append (code : Nat) (s t : Bytes) : join code (s ++ t) = join (join code s) t := List.foldl_append

theorem join_eq (code : Nat) (tail : Bytes) : join code tail = code * 64 ^ tail.length + join 0 tail := by
  induction tail generalizing code with
  | nil => simp [join]
  | cons b tail ih =>
    show join (code * 64 + b.toNat % 64) tail = _ + join (0 * 64 + b.toNat % 64) tail
    rw [ih, ih (0 * 64 + b.toNat % 64), List.length_cons, Nat.pow_succ, Nat.add_mul, Nat.zero_mul, Nat.zero_add,
      Nat.mul_assoc, Nat.mul_comm 64, Nat.add_assoc]

theorem join_cons (b : UInt8) (tail : Bytes) :
    join 0 (b :: tail) = b.toNat % 64 * 64 ^ tail.length + join 0 tail := by
  show join (0 * 64 + b.toNat % 64) tail = _
  rw [join_eq, Nat.zero_mul, Nat.zero_add]

theorem join_lt (tail : Bytes) : join 0 tail < 64 ^ tail.length := by
  induction tail with
  | nil => exact Nat.one_pos
  | cons b tail ih =>
    rw [join_cons, List.length_cons, Nat.pow_succ]
    have hb : b.toNat % 64 ≤ 63 := Nat.le_of_lt_succ (Nat.mod_lt _ (by decide))
    have := Nat.mul_le_mul_right (64 ^ tail.length) hb
    omega

def room (k : Nat) : Nat := 2 ^ leadBits k * 64 ^ k

theorem payload_lt (lead : UInt8) (tail : Bytes) : payload (lead :: tail) < room tail.length := by
  rw [payload, join_eq, room]
  have hlead : lead.toNat % 2 ^ leadBits tail.length + 1 ≤ 2 ^ leadBits tail.length := Nat.mod_lt _ (Nat.two_pow_pos _)
  have := Nat.mul_le_mul_right (64 ^ tail.length) hlead
  have := join_lt tail
  rw [Nat.succ_mul] at *
  omega

/-! ## 2. Order -/

theorem weighted_lt_iff {a b x y weight : Nat} (hx : x < weight) (hy : y < weight) :
    a * weight + x < b * weight + y ↔ a < b ∨ a = b ∧ x < y := by
  rcases Nat.lt_trichotomy a b with h | rfl | h
  · have := Nat.mul_le_mul_right weight (Nat.succ_le_of_lt h)
    rw [Nat.succ_mul] at this
    omega
  · omega
  · have := Nat.mul_le_mul_right weight (Nat.succ_le_of_lt h)
    rw [Nat.succ_mul] at this
    omega

theorem tail_less_iff (hlen : s.length = t.length) (hs : ∀ b ∈ s, Continues b) (ht : ∀ b ∈ t, Continues b) :
    Bytes.less s t = true ↔ join 0 s < join 0 t := by
  induction s generalizing t with
  | nil =>
    cases t with
    | nil => simp [Bytes.less]
    | cons b t => cases hlen
  | cons a s ih =>
    cases t with
    | nil => cases hlen
    | cons b t =>
      have hrest := Nat.succ.inj hlen
      obtain ⟨ha, hs⟩ := List.forall_mem_cons.mp hs
      obtain ⟨hb, ht⟩ := List.forall_mem_cons.mp ht
      have hbound : join 0 s < 64 ^ t.length := hrest ▸ join_lt s
      rw [Bytes.less_cons, ih hrest hs ht, join_cons, join_cons, hrest, weighted_lt_iff hbound (join_lt t),
        UInt8.lt_iff_toNat_lt, ← UInt8.toNat_inj]
      unfold Continues at ha hb
      omega

theorem Sequence.less_of_length (hs : Sequence s) (ht : Sequence t) (h : s.length < t.length) :
    Bytes.less s t = true := by
  cases s with
  | nil => cases hs
  | cons a s =>
    cases t with
    | nil => cases ht
    | cons b t => exact Bytes.less_cons.mpr (.inl (announces_lt hs.2.1 ht.2.1 ht.1 (Nat.lt_of_succ_lt_succ h)))

theorem Sequence.less_iff (hs : Sequence s) (ht : Sequence t) (h : s.length = t.length) :
    Bytes.less s t = true ↔ payload s < payload t := by
  cases s with
  | nil => cases hs
  | cons a s =>
    cases t with
    | nil => cases ht
    | cons b t =>
      have hrest : s.length = t.length := Nat.succ.inj h
      obtain ⟨-, ha, hs⟩ := hs
      obtain ⟨-, hb, ht⟩ := ht
      have hbound : join 0 s < 64 ^ t.length := hrest ▸ join_lt s
      rw [Bytes.less_cons, tail_less_iff hrest hs ht, payload, payload, join_eq (a.toNat % _), join_eq (b.toNat % _),
        hrest, weighted_lt_iff hbound (join_lt t), UInt8.lt_iff_toNat_lt, ← UInt8.toNat_inj]
      rw [hrest] at ha
      unfold Announces at ha hb
      have hdiv := Nat.div_add_mod a.toNat (2 ^ leadBits t.length)
      have hdiv' := Nat.div_add_mod b.toNat (2 ^ leadBits t.length)
      rw [ha] at hdiv
      rw [hb] at hdiv'
      omega

theorem Sequence.eq_of_prefix (hs : Sequence s) (ht : Sequence t) (h : s <+: t) : s = t := by
  cases s with
  | nil => cases hs
  | cons a s =>
    cases t with
    | nil => cases ht
    | cons b t =>
      obtain ⟨rfl, hrest⟩ := List.cons_prefix_cons.mp h
      have hlen := announces_inj hs.2.1 ht.2.1 hs.1 ht.1
      rw [hrest.eq_of_length hlen]

/-! ## 3. What is written -/

def continuation : Nat → Nat → Bytes
  | 0, _ => []
  | k + 1, code => continuation k (code / 64) ++ [UInt8.ofNat (0x80 + code % 64)]

theorem length_continuation (k code : Nat) : (continuation k code).length = k := by
  induction k generalizing code with
  | zero => rfl
  | succ k ih => rw [continuation, List.length_append, ih, List.length_singleton]

theorem toNat_sixBits (code : Nat) : (UInt8.ofNat (0x80 + code % 64)).toNat = 0x80 + code % 64 :=
  UInt8.toNat_ofNat_of_lt' (by simp [UInt8.size]; omega)

theorem continues_continuation (k code : Nat) : ∀ b ∈ continuation k code, Continues b := by
  induction k generalizing code with
  | zero => exact List.forall_mem_nil _
  | succ k ih =>
    intro b hb
    rcases List.mem_append.mp hb with hb | hb
    · exact ih _ b hb
    · rw [List.mem_singleton.mp hb, Continues, toNat_sixBits]
      omega

theorem join_continuation (k code : Nat) : join (code / 64 ^ k) (continuation k code) = code := by
  induction k generalizing code with
  | zero => simp [join, continuation]
  | succ k ih =>
    rw [continuation, join_append, Nat.pow_succ, Nat.mul_comm, ← Nat.div_div_eq_div_mul, ih]
    show code / 64 * 64 + (UInt8.ofNat (0x80 + code % 64)).toNat % 64 = code
    rw [toNat_sixBits]
    omega

theorem spread_stop {n value room : Nat} {tail : Bytes} (h : value ≤ room) :
    spread n value room tail = leadByte room value :: tail := by
  cases n with
  | zero => rfl
  | succ n => rw [spread, if_pos h]

theorem spread_step {n value room : Nat} {tail : Bytes} (h : room < value) :
    spread (n + 1) value room tail =
      spread n (value / 64) (room / 2) (UInt8.ofNat (0x80 + value % 64) :: tail) := by
  rw [spread, if_neg (Nat.not_le.mpr h)]

theorem spread_eq (n value : Nat) (tail : Bytes) (h : value < 2 * 64 ^ n) :
    ∃ k ≤ n, spread n value (2 ^ (n + 1) - 1) tail =
        leadByte (2 ^ (n - k + 1) - 1) (value / 64 ^ k) :: (continuation k value ++ tail) ∧
      value / 64 ^ k < 2 ^ (n - k + 1) ∧ ∀ j < k, 2 ^ (n - j + 1) ≤ value / 64 ^ j := by
  induction n generalizing value tail with
  | zero => exact ⟨0, Nat.le_refl 0, by simp [spread, continuation], by simpa using h, by simp⟩
  | succ n ih =>
    have hpos : 0 < 2 ^ (n + 1 + 1) := Nat.two_pow_pos _
    by_cases hroom : value ≤ 2 ^ (n + 1 + 1) - 1
    · exact ⟨0, Nat.zero_le _, by simpa [continuation] using spread_stop hroom, by simp; omega, by simp⟩
    · obtain ⟨k, hk, hspread, hfits, hfull⟩ :=
        ih (value / 64) (UInt8.ofNat (0x80 + value % 64) :: tail) (by rw [Nat.pow_succ] at h; omega)
      have hhalf : (2 ^ (n + 1 + 1) - 1) / 2 = 2 ^ (n + 1) - 1 := by rw [Nat.pow_succ 2 (n + 1)]; omega
      have hdiv : ∀ j, value / 64 / 64 ^ j = value / 64 ^ (j + 1) := fun j => by
        rw [Nat.div_div_eq_div_mul, Nat.pow_succ, Nat.mul_comm]
      refine ⟨k + 1, Nat.succ_le_succ hk, ?_, ?_, ?_⟩
      · rw [spread_step (Nat.not_le.mp hroom), hhalf, hspread, hdiv, Nat.succ_sub_succ, continuation, List.append_assoc]
        rfl
      · rw [← hdiv, Nat.succ_sub_succ]
        exact hfits
      · intro j hj
        cases j with
        | zero => simp; omega
        | succ j =>
          rw [← hdiv, Nat.succ_sub_succ]
          exact hfull j (Nat.lt_of_succ_lt_succ hj)

theorem leadBits_of_pos (hpos : 0 < k) (hk : k ≤ 5) : leadBits k = 5 - k + 1 := by
  rw [leadBits, if_neg hpos.ne']
  omega

theorem toNat_leadByte {high : Nat} (hpos : 0 < k) (hk : k ≤ 5) (h : high < 2 ^ leadBits k) :
    (leadByte (2 ^ leadBits k - 1) high).toNat = leadMark k * 2 ^ leadBits k + high := by
  rw [leadByte, UInt8.toNat_ofNat_of_lt']
  · interval_cases k <;> simp [leadMark, leadBits]
  · simp only [UInt8.size]
    interval_cases k <;> simp [leadBits] at h ⊢ <;> omega

theorem extended_shape (h : code ≤ 0x7FFFFFFF) :
    ∃ k lead, extended code = lead :: continuation k code ∧ k ≤ 5 ∧ Announces lead k ∧
      lead.toNat % 2 ^ leadBits k = code / 64 ^ k ∧ ∀ j < k, room j ≤ code := by
  unfold extended
  split
  · next hlow =>
    have hcode : (UInt8.ofNat code).toNat = code := UInt8.toNat_ofNat_of_lt' (by simp [UInt8.size]; omega)
    refine ⟨0, UInt8.ofNat code, rfl, Nat.zero_le 5, ?_, ?_, by simp⟩
    · rw [Announces, hcode]
      simpa [leadBits, leadMark] using hlow
    · rw [hcode]
      simpa [leadBits] using hlow
  · next hhigh =>
    obtain ⟨k, hk, hspread, hfits, hfull⟩ := spread_eq 5 code [] (by omega)
    have hpos : 0 < k := Nat.pos_of_ne_zero fun hzero => by
      rw [hzero] at hfits
      simp at hfits
      omega
    rw [← leadBits_of_pos hpos hk] at hspread hfits
    have hlead := toNat_leadByte hpos hk hfits
    refine ⟨k, leadByte (2 ^ leadBits k - 1) (code / 64 ^ k), by simpa using hspread, hk, ?_⟩
    refine ⟨?_, ?_, ?_⟩
    · rw [Announces, hlead, Nat.add_comm, Nat.add_mul_div_right _ _ (Nat.two_pow_pos _), Nat.div_eq_of_lt hfits,
        Nat.zero_add]
    · rw [hlead, Nat.add_comm, Nat.add_mul_mod_self_right, Nat.mod_eq_of_lt hfits]
    · intro j hj
      cases j with
      | zero => simpa [room, leadBits] using hhigh
      | succ j =>
        rw [room, leadBits_of_pos (Nat.succ_pos j) (by omega)]
        exact (Nat.le_div_iff_mul_le (by positivity)).mp (hfull (j + 1) hj)

theorem sequence_extended (h : code ≤ 0x7FFFFFFF) : Sequence (extended code) ∧ payload (extended code) = code := by
  obtain ⟨k, lead, heq, hk, hlead, hbits, -⟩ := extended_shape h
  rw [heq, payload, Sequence, length_continuation, hbits]
  exact ⟨⟨hk, hlead, continues_continuation k code⟩, join_continuation k code⟩

theorem extended_shortest (h : code ≤ 0x7FFFFFFF) (hs : Sequence s) (hle : code ≤ payload s) :
    (extended code).length ≤ s.length := by
  obtain ⟨k, lead, heq, -, -, -, hfull⟩ := extended_shape h
  cases s with
  | nil => cases hs
  | cons a s =>
    rw [heq, List.length_cons, List.length_cons, length_continuation]
    by_contra hshort
    have := hfull s.length (by omega)
    have := payload_lt a s
    omega

theorem extended_less (hother : other ≤ 0x7FFFFFFF) (hlt : code < other) :
    Bytes.less (extended code) (extended other) = true := by
  obtain ⟨hseq, hcode⟩ := sequence_extended (hlt.le.trans hother)
  obtain ⟨hseq', hcode'⟩ := sequence_extended hother
  have hlen := extended_shortest (hlt.le.trans hother) hseq' (by omega)
  rcases Nat.lt_or_eq_of_le hlen with hshort | hsame
  · exact hseq.less_of_length hseq' hshort
  · rw [hseq.less_iff hseq' hsame]
    omega

theorem extended_char (c : Char) : extended c.toNat = String.utf8EncodeChar c := by
  have hvalid : c.val.toNat < 0x110000 := by
    rcases c.valid with h | h
    · exact Nat.lt_trans h (by decide)
    · exact h.2
  show extended c.val.toNat = _
  unfold String.utf8EncodeChar
  generalize c.val.toNat = v at hvalid
  simp only [extended]
  -- the bounds of the four lengths are where the lead has room for what is left
  by_cases hone : v ≤ 0x7F
  · rw [if_pos (Nat.lt_succ_of_le hone), if_pos hone]
  rw [if_neg (by omega), if_neg hone]
  by_cases htwo : v ≤ 0x7FF
  · rw [if_pos htwo, spread_step (by omega), spread_stop (by omega)]
    simp only [leadByte, List.cons.injEq, and_true]
    exact ⟨congrArg _ (by omega), congrArg _ (by omega)⟩
  rw [if_neg htwo]
  by_cases hthree : v ≤ 0xFFFF
  · rw [if_pos hthree, spread_step (by omega), spread_step (by omega), spread_stop (by omega)]
    simp only [leadByte, List.cons.injEq, and_true]
    exact ⟨congrArg _ (by omega), congrArg _ (by omega), congrArg _ (by omega)⟩
  rw [if_neg hthree, spread_step (by omega), spread_step (by omega), spread_step (by omega), spread_stop (by omega)]
  simp only [leadByte, List.cons.injEq, and_true]
  exact ⟨congrArg _ (by omega), congrArg _ (by omega), congrArg _ (by omega), congrArg _ (by omega)⟩

/-- **Bytes of code points.** The bytes of a code point up to `0x7FFFFFFF` are one to six, a sequence of the scheme that
    denotes it, and no shorter one does. Different code points have different bytes, the bytes of none are the beginning
    of those of another, and their order is the order of the code points. Those of a character are its UTF-8. -/
theorem extended_scheme (code : Nat) (h : code ≤ 0x7FFFFFFF) :
    (Sequence (extended code) ∧ 1 ≤ (extended code).length ∧ (extended code).length ≤ 6 ∧
      payload (extended code) = code ∧ ∀ s, Sequence s → payload s = code → (extended code).length ≤ s.length) ∧
    (∀ other ≤ 0x7FFFFFFF, (extended code = extended other → code = other) ∧
      (extended code <+: extended other → code = other) ∧
      (Bytes.less (extended code) (extended other) = true ↔ code < other)) ∧
    ∀ c : Char, c.toNat = code → extended code = String.utf8EncodeChar c := by
  obtain ⟨hseq, hcode⟩ := sequence_extended h
  refine ⟨⟨hseq, ?_, ?_, hcode, fun s hs hpayload => extended_shortest h hs hpayload.ge⟩, ?_, ?_⟩
  · obtain ⟨k, lead, heq, -⟩ := extended_shape h
    rw [heq]
    exact Nat.succ_pos _
  · obtain ⟨k, lead, heq, hk, -⟩ := extended_shape h
    rw [heq, List.length_cons, length_continuation]
    omega
  · intro other hother
    obtain ⟨hseq', hcode'⟩ := sequence_extended hother
    have hinj : extended code = extended other → code = other := fun heq => by rw [← hcode, heq, hcode']
    refine ⟨hinj, fun hprefix => hinj (hseq.eq_of_prefix hseq' hprefix), ?_, extended_less hother⟩
    intro hless
    by_contra hge
    rcases Nat.lt_or_eq_of_le (Nat.not_lt.mp hge) with hgt | rfl
    · rw [Bytes.less_asymm (extended_less h hgt)] at hless
      cases hless
    · rw [Bytes.less_irrefl] at hless
      cases hless
  · rintro c rfl
    exact extended_char c

theorem extended_scheme_boundary : extended 0x7FF = [0xDF, 0xBF] ∧ extended 0x800 = [0xE0, 0xA0, 0x80] ∧
    payload (extended 0x7FF) = 0x7FF ∧ Bytes.less (extended 0x7FF) (extended 0x800) = true := by
  obtain ⟨⟨-, -, -, hpayload, -⟩, hothers, -⟩ := extended_scheme 0x7FF (by decide)
  obtain ⟨-, -, hless⟩ := hothers 0x800 (by decide)
  exact ⟨by decide, by decide, hpayload, hless.mpr (by decide)⟩

end Utf8

end LuaMachine
