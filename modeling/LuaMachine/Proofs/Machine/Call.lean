/-
  CALLS ARE SAFE. Frames and activations stand on one another: each activation began over so many frames,
  and those are there until it ends.

  * `execute_leads` -- **every instruction leads on**; only a lax one may be stuck.
-/
import LuaMachine.Proofs.Machine.Instruction
import LuaMachine.Proofs.Machine.Stack

namespace LuaMachine

/-! ## 1. Frames and activations -/

def Activation.Above : List Activation → Nat → Prop
  | [], _ => False
  | a :: _, n => a.depth < n

def HostReturn.Fits (n : Nat) (as : List Activation) : HostReturn → Prop
  | .place .. | .tail _ => Activation.Above as n
  | .answer => True

def Purpose.Fits (n : Nat) (as : List Activation) : Purpose → Prop
  | .outermost => True
  | .guarded ret | .reading _ _ ret => ret.Fits n as

namespace Activation

def Stacked : List Activation → Nat → Prop
  | [], _ => True
  | a :: rest, n => a.depth ≤ n ∧ a.purpose.Fits a.depth rest ∧ Stacked rest a.depth

variable {as : List Activation} {n n' : Nat}

theorem Stacked.mono (h : Stacked as n) (hn : n ≤ n') : Stacked as n' := by
  cases as with
  | nil => exact trivial
  | cons a rest => exact ⟨Nat.le_trans h.1 hn, h.2⟩

theorem Above.mono (h : Above as n) (hn : n ≤ n') : Above as n' := by
  cases as with
  | nil => exact h.elim
  | cons a rest => exact Nat.lt_of_lt_of_le h hn

theorem Stacked.above_succ (h : Stacked as n) (has : as ≠ []) : Above as (n + 1) := by
  cases as with
  | nil => exact (has rfl).elim
  | cons a rest => exact Nat.lt_succ_of_le h.1

theorem Stacked.pred (h : Stacked as (n + 1)) (ha : Above as (n + 1)) : Stacked as n := by
  cases as with
  | nil => exact trivial
  | cons a rest => exact ⟨Nat.le_of_lt_succ ha, h.2⟩

theorem Above.ne_nil (h : Above as n) : as ≠ [] := by
  rintro rfl
  exact h

end Activation

theorem HostReturn.Fits.mono {n n' : Nat} {as : List Activation} {ret : HostReturn} (h : ret.Fits n as)
    (hn : n ≤ n') : ret.Fits n' as := by
  cases ret with
  | answer => trivial
  | _ => exact Activation.Above.mono h hn

theorem Purpose.Fits.mono {n n' : Nat} {as : List Activation} {p : Purpose} (h : p.Fits n as)
    (hn : n ≤ n') : p.Fits n' as := by
  cases p with
  | outermost => trivial
  | _ => exact HostReturn.Fits.mono h hn

namespace Machine

open Activation (Above Stacked)

structure Steady (m : Machine) : Prop extends m.Whole where
  inCode : ∀ f ∈ m.frames, f.InCode
  stacked : Stacked m.activations m.frames.length

def lasting (m : Machine) : List Frame :=
  match m.activations with
  | [] => m.frames
  | a :: _ => m.frames.drop (m.frames.length - a.depth)

structure Good (m : Machine) : Prop extends m.Whole where
  inCode : ∀ f ∈ m.lasting, f.InCode
  stacked : Stacked m.activations m.frames.length

structure Running (f : Frame) (rest : List Frame) (m : Machine) : Prop extends m.Whole where
  frames_eq : m.frames = f :: rest
  inCode : ∀ g ∈ rest, g.InCode
  stacked : Stacked m.activations rest.length
  called : m.activations ≠ []

variable {m m' : Machine} {f : Frame} {rest : List Frame}

theorem Steady.good (h : m.Steady) : m.Good := by
  refine { h with inCode := fun f hf => h.inCode f ?_ }
  unfold lasting at hf
  split at hf
  · exact hf
  · exact List.mem_of_mem_drop hf

theorem Steady.ofCalm (h : m.Steady) (hw : m'.Whole) (hc : m.Calm m') : m'.Steady :=
  { hw with
    inCode := by rw [hc.frames]; exact h.inCode
    stacked := by rw [hc.frames, hc.activations]; exact h.stacked }

theorem Running.ofCalm (h : m.Running f rest) (hw : m'.Whole) (hc : m.Calm m') : m'.Running f rest :=
  { hw with
    frames_eq := hc.frames.trans h.frames_eq
    inCode := h.inCode
    stacked := by rw [hc.activations]; exact h.stacked
    called := by rw [hc.activations]; exact h.called }

theorem Running.ofOnward {pc : Nat} (h : m.Running f rest) (hw : m'.Whole)
    (ho : Exec.Onward f rest pc m m') : m'.Running { f with pc := pc } rest :=
  { hw with
    frames_eq := ho.frames
    inCode := h.inCode
    stacked := by rw [ho.activations]; exact h.stacked
    called := by rw [ho.activations]; exact h.called }

theorem Running.known (h : m.Running f rest) : f.Known m.sizes :=
  h.frames f (by rw [h.frames_eq]; exact List.mem_cons_self ..)

theorem Running.above (h : m.Running f rest) : Above m.activations m.frames.length := by
  rw [h.frames_eq]
  exact h.stacked.above_succ h.called

theorem Running.stackedAll (h : m.Running f rest) : Stacked m.activations m.frames.length := by
  rw [h.frames_eq]
  exact h.stacked.mono (Nat.le_succ _)

theorem Running.good (h : m.Running f rest) : m.Good := by
  refine { h with inCode := fun g hg => ?_, stacked := h.stackedAll }
  have hs := h.stacked
  unfold lasting at hg
  split at hg
  · next hnil => exact (h.called hnil).elim
  · next a as has =>
    rw [has] at hs
    have hpos : (f :: rest).length - a.depth = (rest.length - a.depth) + 1 := by
      have := hs.1
      rw [List.length_cons]
      omega
    rw [h.frames_eq, hpos, List.drop_succ_cons] at hg
    exact h.inCode g (List.mem_of_mem_drop hg)

theorem Running.steady (h : m.Running f rest) (hf : f.InCode) : m.Steady := by
  refine { h with inCode := ?_, stacked := h.stackedAll }
  rw [h.frames_eq]
  exact List.forall_mem_cons.mpr ⟨hf, h.inCode⟩

theorem Steady.running (h : m.Steady) (ha : Above m.activations m.frames.length) :
    ∃ f rest, m.Running f rest ∧ f.InCode := by
  have hcalled := ha.ne_nil
  have hs := h.stacked
  have hin := h.inCode
  cases hf : m.frames with
  | nil =>
    rw [hf] at ha
    cases hact : m.activations with
    | nil => exact (hcalled hact).elim
    | cons a as =>
      rw [hact] at ha
      cases ha
  | cons f rest =>
    rw [hf] at hin hs ha
    refine ⟨f, rest, { h with frames_eq := hf, inCode := ?_, stacked := hs.pred ha, called := hcalled },
      hin f (List.mem_cons_self ..)⟩
    exact fun g hg => hin g (List.mem_cons_of_mem _ hg)

theorem Running.pop (h : m.Running f rest) : { m with frames := rest }.Steady := by
  have hframes := h.frames
  rw [h.frames_eq] at hframes
  exact {
    h.toWhole.withControl (fun g hg => hframes g (List.mem_cons_of_mem _ hg)) h.activations h.top with
    inCode := h.inCode
    stacked := h.stacked }

end Machine

def Mode.Fits (m : Machine) : Mode → Prop
  | .run => Activation.Above m.activations m.frames.length
  | .host _ args ret => ret.Fits m.frames.length m.activations ∧ ∀ v ∈ args, v.Known m.sizes
  | .deliver vs => ∀ v ∈ vs, v.Known m.sizes
  | .raise e => e.Sane m.sizes

namespace Exec

open Activation (Above Stacked)

/-! ## 2. Steps that lead on -/

def Failed (I : Failure → Prop) (e : Failure) (m : Machine) : Prop :=
  m.Good ∧ e.Known m.sizes ∧ (e.isInternal = true → I e)

/-- The step leads to a mode that the machine fits, or fails and leaves a good machine. It is stuck
    only if `S`; of the failures that only broken code has it has those of `I`. -/
def Leads (S : Prop) (I : Failure → Prop) (x : Exec Mode) (m : Machine) : Prop :=
  Meets S (Failed I) x m fun mode m' => m'.Steady ∧ mode.Fits m'

section

variable {α β : Type} {S : Prop} {I : Failure → Prop} {m : Machine} {f : Frame} {rest : List Frame} {vs : List Value}
  {Q : α → Machine → Prop} {R : β → Machine → Prop}

theorem Failed.ofSane {e : Failure} (hm : m.Good) (he : e.Sane m.sizes) : Failed I e m :=
  ⟨hm, he.1, fun hi => by rw [he.2] at hi; cases hi⟩

theorem Leads.pure {mode : Mode} (hm : m.Steady) (h : mode.Fits m) : Leads S I (Pure.pure mode) m :=
  ⟨hm, h⟩

theorem Leads.failWith {e : Failure} (hm : m.Good) (he : e.Sane m.sizes) :
    Leads S I (failWith e) m := Failed.ofSane hm he

theorem Safe.thenMeets {x : Exec α} {k : α → Exec β} (h : Safe S x m Q) (hm : m.Steady)
    (hk : ∀ a m', m'.Steady → m.Calm m' → Q a m' → Meets S (Failed I) (k a) m' R) :
    Meets S (Failed I) (x >>= k) m R := by
  refine Meets.bind (h.meets (fun e m' hw hc he => ?_) fun a m' hw hc hq => ?_)
  · exact Failed.ofSane (hm.ofCalm hw hc).good he
  · exact hk a m' (hm.ofCalm hw hc) hc hq

theorem Safe.thenReturns {x : Exec α} {k : α → Exec Mode} (h : Safe S x m Q)
    (hm : m.Running f rest) (hk : ∀ a m', m'.Running f rest → m.Calm m' → Q a m' → Leads S I (k a) m') :
    Leads S I (x >>= k) m := by
  refine Meets.bind (h.meets (fun e m' hw hc he => ?_) fun a m' hw hc hq => ?_)
  · exact Failed.ofSane (hm.ofCalm hw hc).good he
  · exact hk a m' (hm.ofCalm hw hc) hc hq

theorem Leads.imp {x : Exec Mode} {S' : Prop} {I' : Failure → Prop} (h : Leads S I x m) (hS : S → S')
    (hI : ∀ e, I e → I' e) :
    Leads S' I' x m := by
  unfold Leads Meets at *
  split at h
  · exact h
  · exact ⟨h.1, h.2.1, fun hi => hI _ (h.2.2 hi)⟩
  · exact hS h

theorem Leads.get {k : Machine → Exec Mode} (h : Leads S I (k m) m) :
    Leads S I (MonadState.get >>= k) m := h

theorem Leads.need {o : Option α} {a : α} {k : α → Exec Mode} (ho : o = some a)
    (h : Leads S I (k a) m) : Leads S I (Exec.need o >>= k) m := by
  subst ho
  exact h

/-! ## 3. Returning -/

theorem endCall_leads (hm : m.Running f rest) (hv : ∀ v ∈ vs, v.Known m.sizes) :
    Leads S I (endCall vs) m := by
  have hpop := hm.pop
  obtain ⟨a, as, hact⟩ := List.exists_cons_of_ne_nil hm.called
  unfold Leads Meets
  rw [endCall_of_frames vs hm.frames_eq hact]
  show Leads S I _ _
  split
  · exact Leads.pure hpop hv
  · next hlt =>
    refine (Safe.place hpop.toWhole hv f.wanted).thenMeets hpop fun _ m' hm' hc _ => Leads.pure hm' ?_
    show Above m'.activations m'.frames.length
    rw [hc.frames, hc.activations, hact]
    show a.depth < rest.length
    omega

theorem finish_leads {ret : HostReturn} (hm : m.Steady) (hr : ret.Fits m.frames.length m.activations)
    (hv : ∀ v ∈ vs, v.Known m.sizes) : Leads S I (finish ret vs) m := by
  cases ret with
  | answer => exact Leads.pure hm hv
  | place dest wanted =>
    refine (Safe.place hm.toWhole hv wanted).thenMeets hm fun _ m' hm' hc _ => Leads.pure hm' ?_
    show Above m'.activations m'.frames.length
    rw [hc.frames, hc.activations]
    exact hr
  | tail base =>
    obtain ⟨f, rest, hrun, _⟩ := hm.running hr
    refine (Safe.close hm.toWhole).thenReturns hrun fun _ m' hm' hc _ => ?_
    exact endCall_leads hm' fun v hm => (hv v hm).mono hc.sizes

/-! ## 4. Calling -/

variable {slot nargs : Nat} {wanted : Option Nat} {ret : HostReturn}

theorem steady_push (hm : m.Steady) (hf : f.Known m.sizes) (hpc : f.pc = 0) :
    { m with frames := f :: m.frames }.Steady := by
  have hin : f.InCode := by
    obtain ⟨i, hi, _⟩ := hf.linked.code.here.ends
    rw [Array.back?_eq_getElem?] at hi
    have := (Array.getElem?_eq_some_iff.mp hi).1
    exact .inl (by omega)
  exact {
    hm.toWhole.withControl (List.forall_mem_cons.mpr ⟨hf, hm.frames⟩) hm.activations hm.top with
    inCode := List.forall_mem_cons.mpr ⟨hin, hm.inCode⟩
    stacked := hm.stacked.mono (Nat.le_succ _) }

theorem pushFrame_meets {p : Proto} {cells : Array Nat} (hm : m.Steady) (hp : p.Linked m.sizes cells)
    (hcalled : m.activations ≠ []) :
    Meets S (Failed I) (pushFrame slot nargs wanted p cells) m
      fun _ m' => m'.Steady ∧ Mode.run.Fits m' := by
  have hparams := hp.code.here.params
  unfold pushFrame
  extract_lets base top params
  refine (Safe.ensure hm.toWhole _).thenMeets hm fun _ m1 hm1 hc1 hsize => ?_
  have htop : top ≤ m1.stack.size := by omega
  have hstart : base + min nargs params ≤ top := by omega
  -- the rest of the call, whatever the extra arguments are
  have hrest : ∀ (varargs : List Value) (m2 : Machine), m2.Steady → m.Calm m2 → top ≤ m2.stack.size →
      (∀ v ∈ varargs, v.Known m2.sizes) → Meets S (Failed I) (do
        if top < base + min nargs params then stuck
        clear (base + min nargs params) (top - (base + min nargs params))
        modify fun m => { m with frames := ⟨slot, 0, wanted, p, cells, varargs⟩ :: m.frames }) m2
      fun _ m' => m'.Steady ∧ Mode.run.Fits m' := by
    intro varargs m2 hm2 hc2 htop2 hv
    rw [if_neg (Nat.not_lt.mpr hstart)]
    refine (Safe.clear hm2.toWhole (by omega)).thenMeets hm2 fun _ m3 hm3 hc3 _ => ?_
    have hknown : Frame.Known m3.sizes ⟨slot, 0, wanted, p, cells, varargs⟩ :=
      ⟨hp.mono (hc2.trans hc3).sizes, Nat.le_trans htop2 hc3.stack, fun v hm => (hv v hm).mono hc3.sizes⟩
    refine ⟨steady_push hm3 hknown rfl, ?_⟩
    exact hm3.stacked.above_succ (by rw [(hc2.trans hc3).activations]; exact hcalled)
  split
  · refine (Safe.readMany hm1.toWhole fun _ => by omega).thenMeets hm1 fun vs m2 hm2 hc2 hvs => ?_
    exact hrest vs m2 hm2 (hc1.trans hc2) (Nat.le_trans htop hc2.stack) hvs.2
  · exact hrest [] m1 hm1 hc1 htop (by simp)

theorem Safe.failCall {v : Value} (hm : m.Whole) :
    Safe S (failCall slot v : Exec α) m Q := by
  refine Safe.get ?_
  split
  · split
    · exact Safe.fail hm rfl
    · exact Safe.failWith hm ⟨trivial, rfl⟩
  · exact Safe.failWith hm ⟨trivial, rfl⟩

theorem beginCall_leads (hm : m.Steady) (hcalled : m.activations ≠ [])
    (hargs : slot + 1 + nargs ≤ m.stack.size) (hr : ret.Fits m.frames.length m.activations) : Leads S I (beginCall slot nargs wanted ret) m := by
  refine (Safe.read hm.toWhole fun _ => by omega).thenMeets hm fun v m1 hm1 hc1 hv => ?_
  have hfail : Leads S I (failCall slot v) m1 :=
    (Safe.failCall (Q := fun _ _ => False) hm1.toWhole).meets
      (fun e m' hw hc he => Failed.ofSane (hm1.ofCalm hw hc).good he)
      fun _ _ _ _ hq => hq.elim
  cases v with
  | function id =>
    have hid : id < m1.functions.size := hv
    refine Leads.get (Leads.need (Array.getElem?_eq_getElem hid) ?_)
    have hknown := hm1.functions _ (Array.getElem_mem hid)
    generalize m1.functions[id] = fn at hknown
    cases fn with
    | host h =>
      refine (Safe.readMany hm1.toWhole fun _ => Nat.le_trans hargs hc1.stack).thenMeets hm1
        fun vs m2 hm2 hc2 hvs => Leads.pure hm2 ⟨?_, hvs.2⟩
      rw [hc2.frames, hc2.activations, hc1.frames, hc1.activations]
      exact hr
    | script p cells =>
      show Leads S I (if _ then _ else _) m1
      split
      · exact Leads.failWith hm1.good ⟨trivial, rfl⟩
      · exact Meets.bind ((pushFrame_meets hm1 hknown (by rw [hc1.activations]; exact hcalled)).imp (fun _ _ he => he)
          fun _ _ hm' => Leads.pure hm'.1 hm'.2)
  | _ => exact hfail

theorem Safe.moveDown {src dest n : Nat} (hm : m.Whole) (hsrc : src + n ≤ m.stack.size) (hd : dest ≤ src) :
    Safe S (moveDown src dest n) m fun _ _ => True := by
  induction n generalizing m src dest with
  | zero => exact Safe.pure hm trivial
  | succ n ih =>
    refine (Safe.read hm fun _ => by omega).bind fun v m1 hm1 hc1 hv => ?_
    have h1 := hc1.stack
    refine (Safe.write (v := .nil) hm1 (fun _ => by omega) trivial).bind fun _ m2 hm2 hc2 _ => ?_
    have h2 := hc2.stack
    refine (Safe.write hm2 (fun _ => by omega) (hv.mono hc2.sizes)).bind fun _ m3 hm3 hc3 _ => ?_
    have h3 := hc3.stack
    exact ih hm3 (by omega) (by omega)

/-! ## 5. Instructions -/

variable {i : Instr}

theorem call_leads (hm : m.Running f rest) (hb : Behind f i) (ho : i.opcode = .call) :
    Leads False I (call (f.base + i.a.val) i.b.val i.c.val) m := by
  have hfits := hb.fits
  simp only [Instr.Fits, Instr.Lax, ho, or_false] at hfits
  have htop : f.base + f.proto.room.registers ≤ m.stack.size := hm.known.top
  have hsteady := hm.steady (hb.inCode (by simp [ho]))
  refine (Safe.openCount hm.toWhole fun _ => by omega).thenMeets hsteady fun n m1 hm1 hc1 hn => ?_
  have habove : Above m1.activations m1.frames.length := by
    rw [hc1.frames, hc1.activations]
    exact hm.above
  exact beginCall_leads hm1 habove.ne_nil (hn not_false) habove

theorem Leads.copy {src dest : Nat} {k : Unit → Exec Mode} (hm : m.Steady) (hs : src < m.stack.size)
    (hd : dest < m.stack.size) (hk : ∀ m', m'.Steady → m.Calm m' → Leads S I (k ()) m') :
    Leads S I (read src >>= fun v => write dest v >>= k) m := by
  refine (Safe.read hm.toWhole fun _ => hs).thenMeets hm fun v m1 hm1 hc1 hv => ?_
  refine (Safe.write hm1.toWhole (fun _ => Nat.lt_of_lt_of_le hd hc1.stack) hv).thenMeets hm1
    fun _ m2 hm2 hc2 _ => ?_
  exact hk m2 hm2 (hc1.trans hc2)

theorem callIterator_leads (hm : m.Running f rest) (hb : Behind f i) (ho : i.opcode = .tforCall) :
    Leads S I (callIterator (f.base + i.a.val) i.c.val) m := by
  have hfits := hb.fits
  simp only [Instr.Fits, Instr.Lax, ho, or_false] at hfits
  have htop : f.base + f.proto.room.registers ≤ m.stack.size := hm.known.top
  refine Leads.copy (hm.steady (hb.inCode (by simp [ho]))) (by omega) (by omega) fun m1 hm1 hc1 => ?_
  have h1 := hc1.stack
  refine Leads.copy hm1 (by omega) (by omega) fun m2 hm2 hc2 => ?_
  have h2 := hc2.stack
  refine Leads.copy hm2 (by omega) (by omega) fun m3 hm3 hc3 => ?_
  have h3 := hc3.stack
  have hcalm := (hc1.trans hc2).trans hc3
  have habove : Above m3.activations m3.frames.length := by
    rw [hcalm.frames, hcalm.activations]
    exact hm.above
  exact beginCall_leads hm3 habove.ne_nil (by omega) habove

theorem returnValues_leads (hm : m.Running f rest) (hb : Behind f i) (ho : i.opcode = .ret) :
    Leads (i.Lax f.proto.room) I (returnValues f (f.base + i.a.val) i.b.val) m := by
  have htop : f.base + f.proto.room.registers ≤ m.stack.size := hm.known.top
  refine (Safe.openCount hm.toWhole fun hs => ?_).thenReturns hm fun n m1 hm1 _ hn => ?_
  · have hfits := hb.fitsUnless hs
    simp only [Instr.Fits, ho] at hfits
    omega
  refine (Safe.readMany hm1.toWhole hn).thenReturns hm1 fun vs m2 hm2 _ hvs => ?_
  refine (Safe.close hm2.toWhole).thenReturns hm2 fun _ m3 hm3 hc3 _ => ?_
  exact endCall_leads hm3 fun v hv => (hvs.2 v hv).mono hc3.sizes

theorem tailCall_leads (hm : m.Running f rest) (hb : Behind f i) (ho : i.opcode = .tailCall) :
    Leads False I (tailCall f (f.base + i.a.val) i.b.val) m := by
  have hfits := hb.fits
  simp only [Instr.Fits, Instr.Lax, ho, or_false] at hfits
  have hin := hb.inCode (by simp [ho])
  have htop : f.base + f.proto.room.registers ≤ m.stack.size := hm.known.top
  refine (Safe.openCount hm.toWhole fun _ => by omega).thenReturns hm fun n m1 hm1 hc1 hn => ?_
  have hn : f.base + i.a.val + 1 + n ≤ m1.stack.size := hn not_false
  refine (Safe.read hm1.toWhole fun _ => by omega).thenReturns hm1 fun v m2 hm2 hc2 hv => ?_
  have h2 := hc2.stack
  have hfail : Leads False I (failCall (f.base + i.a.val) v) m2 :=
    (Safe.failCall (Q := fun _ _ => False) hm2.toWhole).meets
      (fun e m' hw hc he => Failed.ofSane (hm2.ofCalm hw hc).good he) fun _ _ _ _ hq => hq.elim
  cases v with
  | function id =>
    have hid : id < m2.functions.size := hv
    refine Leads.get (Leads.need (Array.getElem?_eq_getElem hid) ?_)
    generalize m2.functions[id] = fn
    cases fn with
    | host h =>
      refine (Safe.readMany hm2.toWhole fun _ => by omega).thenMeets (hm2.steady hin)
        fun vs m3 hm3 hc3 hvs => Leads.pure hm3 ⟨?_, hvs.2⟩
      show Above m3.activations m3.frames.length
      rw [hc3.frames, hc3.activations]
      exact hm2.above
    | script p cells =>
      -- the running function ends before the other begins in its place
      refine (Safe.close hm2.toWhole).thenReturns hm2 fun _ m3 hm3 hc3 _ => ?_
      have h3 := hc3.stack
      have hpop : { m3 with frames := m3.frames.tail }.Steady := by
        have := hm3.pop
        rwa [hm3.frames_eq]
      have hbase : f.base = f.slot + 1 := rfl
      have hsize : f.base + i.a.val + (n + 1) ≤ m3.stack.size := by omega
      show Leads False I (do
        moveDown (f.base + i.a.val) f.slot (n + 1)
        beginCall f.slot n f.wanted .answer) { m3 with frames := m3.frames.tail }
      refine (Safe.moveDown hpop.toWhole hsize (by omega)).thenMeets hpop fun _ m4 hm4 hc4 _ => ?_
      have h4 : m3.stack.size ≤ m4.stack.size := hc4.stack
      have hcalled : m4.activations ≠ [] := by
        rw [hc4.activations]
        exact hm3.called
      exact beginCall_leads hm4 hcalled (by omega) trivial
  | _ => exact hfail

/-- **Every instruction leads on**; only a lax one may be stuck, and none has a failure that only
    broken code has. -/
theorem execute_leads (hm : m.Running f rest) (hb : Behind f i) :
    Leads (i.Lax f.proto.room) I (execute f i) m := by
  by_cases hc : isCall i.opcode = true
  · unfold execute
    cases ho : i.opcode <;> rw [ho] at hc
    case call => exact (call_leads hm hb ho).imp False.elim fun _ => id
    case tailCall => exact (tailCall_leads hm hb ho).imp False.elim fun _ => id
    case ret => exact returnValues_leads hm hb ho
    case tforCall => exact callIterator_leads hm hb ho
    all_goals cases hc
  · have hc : isCall i.opcode = false := by simpa using hc
    have hexecute : execute f i = (do plain f i i.opcode; return .run) := by
      unfold execute
      cases ho : i.opcode <;> rw [ho] at hc <;> first | rfl | cases hc
    rw [hexecute]
    refine Meets.bind ((plain_runs hm.toWhole hm.frames_eq hb hc).imp ?_ ?_)
    · rintro e m' ⟨hw, ⟨pc, hon⟩, he⟩
      exact Failed.ofSane (hm.ofOnward hw hon).good he
    · rintro _ m' ⟨hw, pc, hon, hin⟩
      have hrun := hm.ofOnward hw hon
      exact Leads.pure (hrun.steady hin) hrun.above

end

end Exec

end LuaMachine
