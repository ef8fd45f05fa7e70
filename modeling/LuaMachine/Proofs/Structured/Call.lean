/-
  RUNNING A CHUNK THAT IS A PROGRAM OVER LOCAL VARIABLES. A call of it enacts the events of the program one
  after another and no others, and returns just if the program comes to its end.

  * **`compiled_program_call`** -- a compiled program is run as it is meant.
-/
import LuaMachine.Proofs.Meaning.Evaluation
import LuaMachine.Proofs.Structured.Statement

namespace LuaMachine

open Structured

/-! ## 1. The function -/

def Proto.Leaves (p : Proto) (vs : List Value) (s : Spot) : Prop :=
  ∃ n s' i, p.Enacts n vs s [] vs s' ∧ Shows vs s'.regs ∧ p.code[s'.pc]? = some i ∧ i.opcode = .ret ∧
    i.a.val = 0 ∧ i.b.val = 1

structure Proto.Enforces (run : Nat → Trace) (p : Proto) : Prop where
  vararg : p.isVararg = true
  params : p.params = 0
  traces : ∀ (bound : Nat) (regs : Nat → Value), p.Traces bound p.Leaves (fun _ _ => False) [] ⟨0, regs⟩ (run bound)

namespace Draft

variable {names : List Bytes} {run : Nat → List Value → Trace} {d d' : Draft}

/-- The main function begins: no local is in scope. -/
structure Main (d : Draft) : Prop extends d.Between [] [] where
  code : d.code = #[]
  here : d.here = []
  gotos : d.gotos = []
  vararg : d.isVararg = true
  params : d.params = 0
  block : ∃ b, d.blocks = [b] ∧ b.isLoop = false ∧ b.firstGoto = 0

/-- **The main function ends**: no break is left, and nothing is returned. -/
theorem Main.closeBody (source : Bytes) (hd : d.Main) (h : Performs [] [] names run d d') :
    Compile.Writes Grammar.closeBody d' fun _ d'' => (d''.finish source).Enforces fun bound => run bound [] := by
  obtain ⟨b, hb, hloop, hfirst⟩ := hd.block
  have hd' := h.between
  have hw : d'.Waits (d'.pending 0) d'.pc := by
    have hw := hd'.waits
    rwa [List.append_nil] at hw
  have hret : Compile.Writes (Compile.emitReturn 0 (some 0)) d' fun _ d1 => d'.Extended [Instr.ofABC .ret 0 1 0] d1 :=
    Compile.Writes.discard ((Compile.Writes.emit_extends hw).imp fun _ _ h => h.2)
  refine hret.andThen fun _ d1 hx => ?_
  have hmoves := hx.moves hw ⟨_, rfl, by simp⟩
  have hscope := hmoves.toSameScope
  refine (leaveBody (hscope.blocks.trans (h.onward.blocks.trans hb)) hloop).imp fun _ d'' hleft => ?_
  obtain ⟨hgotos, ls, ds, a, labels, hd''⟩ := hleft
  -- no break is left
  rw [hfirst, List.drop_zero, hscope.gotos] at hgotos
  have hpending : ∀ n, d'.pending n = [] := fun n => by rw [pending, hgotos]; simp
  rw [hpending] at hw
  have hp'' : Completes (d''.finish source) d'' [] d''.pc := completes_finish source (by rw [hd'']; exact hx.here)
  have hp1 : CompletesAbove d''.free (d''.finish source) d1 [] d1.pc := by
    subst hd''
    exact hp''.stock rfl rfl rfl fun _ _ => id
  have hone : d1.pc = d'.pc + 1 := hx.pc
  have hext := fun m => hp1.extended (m := m) hx (by simp) hw (by omega) (by simp) (by simp)
  obtain ⟨-, hlands, hcode⟩ := hext 0
  have hi : (d''.finish source).code[d'.pc]? = some (Instr.ofABC .ret 0 1 0) := by
    refine hcode 0 _ rfl (by omega) ?_ (by simp)
    rintro (hm | ⟨hm, -⟩) <;> cases hm
  have hp' : CompletesAbove 0 (d''.finish source) d' (d'.pending 0 ++ []) d'.pc := by
    rw [hpending, List.append_nil]
    exact (hext 0).1
  obtain ⟨-, hruns⟩ := h.runs _ hp'
  refine ⟨?_, ?_, fun bound regs => ?_⟩
  · show d''.isVararg = true
    rw [hd'']
    exact hscope.vararg.trans (h.onward.vararg.trans hd.vararg)
  · show UInt8.ofNat d''.params = 0
    rw [hd'', show d1.params = 0 from hscope.params.trans (h.onward.params.trans hd.params)]
    rfl
  · have hpc : d.pc = 0 := by rw [Draft.pc, hd.code, List.size_toArray, List.length_nil]
    have hfresh : d.Fresh := .inl (by rw [hpc]; exact Nat.zero_le _)
    have hst : d.Stands (d''.finish source) [] ⟨d.pc, regs⟩ := hfresh.stands (by simp [Shows])
    rw [hpc] at hst
    refine (hruns bound [] ⟨0, regs⟩ ⟨rfl, hst⟩).imp (fun ws s hdone => ?_) fun ws s hbroken => ?_
    · have hshow := hdone.2.shows (hext ws.length).1 (Nat.le_refl _) (Nat.le_refl _)
      obtain ⟨n, hn⟩ := (hdone.2.entered.path hlands).enacts hshow (Nat.le_refl _)
      exact ⟨n, _, _, hn, hshow, hi, by simp, by simp, by simp⟩
    · obtain ⟨-, -, j, hj, -⟩ := hbroken
      rw [hpending] at hj
      cases hj

end Draft

namespace Grammar

open Compile Draft

/-- **A main function is read.** -/
theorem mainFunction_enforces {body : Program} {bound n line : Nat} (source : Bytes) (hf : body.Fits []) :
    Takes (ofLevels Compile.named bound n).mainFunction (body.tokens ++ [.eof]) (Draft.new line) fun _ _ d' =>
      (d'.finish source).Enforces fun bound => (body.run bound [] []) := by
  refine Takes.write Writes.enterBlock fun _ d1 hd1 => ?_
  obtain ⟨-, hd1⟩ := hd1
  refine Takes.write (Writes.modifyFn (Q := fun _ d' => d'.Main) ?_) fun _ d2 h2 => ?_
  · subst hd1
    exact {
      lists := ⟨rfl, by simp⟩
      active := rfl
      labels := rfl
      allBreaks := by rintro g ⟨⟩
      waits := ⟨Nat.le_refl _, fun j hj => absurd hj List.not_mem_nil, List.nodup_nil, fun hn => absurd rfl hn⟩
      roomy := ⟨Nat.le_refl _, Nat.zero_le _, show 2 ≤ 254 from by decide, Nat.zero_le _⟩
      tight := Fresh.tight (.inl (Nat.zero_le _))
      calm := show (Instr.ofABC .extraArg 0 0 0).opcode ≠ .testSet from by decide
      free := rfl
      inside := List.cons_ne_nil _ _
      code := rfl
      here := rfl
      gotos := rfl
      vararg := rfl
      params := rfl
      block := ⟨_, rfl, rfl, rfl⟩ }
  refine (body.reads [] [] bound n _ .eof [] d2 hf rfl h2.toBetween).andThen fun _ ts d3 h => ?_
  obtain ⟨rfl, h⟩ := h
  refine Takes.bind (Takes.token ?_)
  rw [if_neg (fun h => h rfl)]
  exact Takes.pure (Takes.ofWrites (h2.closeBody source h) fun _ _ => id)

end Grammar

/-- **A compiled program does what its trace says.** -/
theorem compile_enforces {source : Bytes} {chunkName : String} {p : Proto} {body : Program}
    (h : compile source chunkName = .ok p) (ht : (Lexer.tokenize source).1.map (·.token) = body.tokens ++ [.eof])
    (hf : body.Fits []) : p.Enforces fun bound => body.run bound [] [] := by
  unfold compile compileWith at h
  extract_lets chunk at h
  split at h
  · cases h
  · cases h
  · next first rest fault hlex =>
    rw [hlex] at ht
    dsimp only at h
    split at h
    · next s hs =>
      cases h
      exact Grammar.mainFunction_enforces _ hf ⟨first, rest, fault, 1, chunk, Bytes.ofString chunkName, Draft.new 0, []⟩ _ s
        ht rfl hs
    · cases h

/-! ## 2. The machine -/

/-- What a call does whose run enacts a trace with this ending, up to the state `m'` where the locals have the values
    `vs`: it returns nothing, fails with a comparison, or has not ended yet. -/
def Structured.Ending.Settles (call : Nat → Outcome) (bound : Nat) (vs : List Value) (shown : Prop) : Ending → Prop
  | .done ws => vs = ws ∧ shown ∧ ∃ n, ∀ fuel, n ≤ fuel → call fuel = .results []
  | .broke _ => False
  | .clash c => shown ∧ ∃ n place, ∀ fuel, n ≤ fuel → call fuel = .failed (.runtime place (.compare c.1 c.2))
  | .endless => ∀ fuel, fuel ≤ bound → call fuel = .unfinished

namespace Machine

variable {m0 m : Machine} {f : Frame} {rest : List Frame} {s : Spot} {i : Instr}

theorem On.returns_nothing (h : On m0 f rest s m) (hl : m0.limits.Endless) (hi : f.proto.code[s.pc]? = some i)
    (ho : i.opcode = .ret) (ha : i.a.val = 0) (hb : i.b.val = 1) {a : Activation} {as : List Activation}
    (hact : m0.activations = a :: as) (hdepth : rest.length ≤ a.depth) :
    ∃ m', m.step .run = .more m' (.deliver []) ∧ m'.activations = a :: as := by
  refine h.delivers hl hi ho [] hb (fun m₁ hat => ?_) hact hdepth
  have htop := hat.top
  refine Exec.readMany_ok [] ?_ (by simp)
  rw [ha]
  exact Nat.le_trans (Nat.le_add_right _ _) htop

theorem runFor_stable {n k : Nat} {m m' : Machine} {mode : Mode} {o : Outcome} (h : runFor n m mode = (m', o))
    (ho : o ≠ .unfinished) (hle : n ≤ k) : runFor k m mode = (m', o) := by
  induction n generalizing m mode k with
  | zero =>
    cases h
    exact absurd rfl ho
  | succ n ih =>
    obtain ⟨k, rfl⟩ := Nat.exists_eq_add_of_le' (Nat.le_trans (Nat.le_add_left 1 n) hle)
    unfold runFor at h ⊢
    cases hs : m.step mode with
    | more m₁ mode1 =>
      rw [hs] at h
      exact ih h (Nat.le_of_succ_le_succ hle)
    | done m₁ o1 =>
      rw [hs] at h
      exact h

end Machine

/-- A call of a function of `f` from outside begins in the state `m₁` and enacts a trace, with a bound on the rounds of
    loops. -/
def Machine.Plays (m : Machine) (id : Nat) (args : List Value) (p : Proto) (cells : Array Nat) (bound : Nat) (t : Trace) : Prop :=
  let f : Frame := ⟨m.frameTop, 0, none, p, cells, args⟩
  ∃ m₁ n vs m', ofExec (Exec.activate (.function id) args .outermost) { m with executed := 0 } = .more m₁ .run ∧
    Machine.Enacts f m.frames n [] m₁ t.events vs m' ∧
    t.ending.Settles (fun fuel => (m.call fuel (.function id) args none).2) bound vs (m'.Exposes f m.frames (Shows vs))

namespace Machine

variable {m m₁ m' m'' : Machine} {p : Proto} {id n k : Nat} {cells : Array Nat} {args : List Value} {f : Frame}
  {rest : List Frame} {vs vs' : List Value} {es : List Event} {o : Outcome}

theorem Enacts.ends (h : Enacts f rest n vs m₁ es vs' m') (hrun : ∀ fuel, k ≤ fuel → runFor fuel m' .run = (m'', o))
    (hstart : ofExec (Exec.activate (.function id) args .outermost) { m with executed := 0 } = .more m₁ .run) :
    ∃ n, ∀ fuel, n ≤ fuel → (m.call fuel (.function id) args none).2 = o := by
  refine ⟨n + k, fun fuel hle => ?_⟩
  obtain ⟨j, rfl⟩ := Nat.exists_eq_add_of_le (Nat.le_of_add_right_le hle)
  refine call_of_runFor hstart ((h.runFor_add j).trans (hrun j ?_))
  omega

theorem call_stable {k : Nat}
    (hstart : ofExec (Exec.activate (.function id) args .outermost) { m with executed := 0 } = .more m₁ .run)
    (h : (m.call n (.function id) args none).2 = o) (ho : o ≠ .unfinished) (hle : n ≤ k) :
    (m.call k (.function id) args none).2 = o := by
  have hrun : (runFor n m₁ .run).2 = o := (call_of_runFor hstart (Prod.ext rfl rfl)).symm.trans h
  exact call_of_runFor hstart (runFor_stable (Prod.ext rfl hrun) ho hle)

theorem runFor_two {mode mode' : Mode} (h : m.step mode = .more m' mode') (h' : m'.step mode' = .done m'' o) :
    ∀ fuel, 2 ≤ fuel → runFor fuel m mode = (m'', o) := by
  intro fuel hle
  obtain ⟨j, rfl⟩ := Nat.exists_eq_add_of_le' hle
  rw [runFor, h]
  dsimp only
  rw [runFor, h']

end Machine

open Machine in
/-- **The call of a function plays what its code does.** -/
theorem Proto.Enforces.plays {p : Proto} {run : Nat → Trace} {m : Machine} {id : Nat} {cells : Array Nat} {args : List Value}
    (h : p.Enforces run) (hp : p.Sound) (hm : m.Steady) (hid : m.functions[id]? = some (.script p cells))
    (hargs : ∀ v ∈ args, v.Known m.sizes) (hfree : m.Unhindered) (bound : Nat) : m.Plays id args p cells bound (run bound) := by
  obtain ⟨m₁, regs1, hstart, h1, hlimits, hact⟩ := hfree.begins hm hid hargs h.vararg h.params
  have hl : m₁.limits.Endless := by
    rw [hlimits]
    exact hfree.endless
  obtain ⟨n, vs, s, hen, hend⟩ := h.traces bound regs1
  cases he : (run bound).ending with
  | done ws =>
    rw [he] at hend
    obtain ⟨rfl, k, s', i, hen', hshow, hi, ho, ha, hb⟩ := hend
    have hall := hen.trans hen'
    rw [List.append_nil] at hall
    obtain ⟨m', hm', hrun⟩ := Proto.Enacts.run hall h1 hl hp
    obtain ⟨m2, hstep, hact2⟩ := hm'.returns_nothing hl hi ho ha hb hact (Nat.le_refl _)
    obtain ⟨m3, hdone⟩ := step_deliver [] hact2 rfl
    refine ⟨m₁, n + k, vs, m', hstart, hrun, ?_⟩
    rw [he]
    exact ⟨rfl, hm'.exposes hshow, hrun.ends (runFor_two hstep hdone) hstart⟩
  | broke ws =>
    rw [he] at hend
    exact hend.2.elim
  | clash c =>
    rw [he] at hend
    obtain ⟨m', hm', hrun⟩ := Proto.Enacts.run hen h1 hl hp
    obtain ⟨m2, place, hstep, hready, hat, hsame⟩ := hm'.clash hl hp hend.2
    have hact2 : m2.activations = ⟨m.frames.length, m.frameTop, m.top, .outermost⟩ :: m.activations := by
      rw [hsame]
      exact hact
    obtain ⟨m3, hdone⟩ := step_raise hready hact2 rfl
    obtain ⟨k, hk⟩ := hrun.ends (runFor_two hstep hdone) hstart
    refine ⟨m₁, n, vs, m', hstart, hrun, ?_⟩
    rw [he]
    exact ⟨hm'.exposes hend.1, k, place, hk⟩
  | endless =>
    rw [he] at hend
    obtain ⟨m', hm', hrun⟩ := Proto.Enacts.run hen h1 hl hp
    refine ⟨m₁, n, vs, m', hstart, hrun, ?_⟩
    rw [he]
    intro fuel hfuel
    have hout := hrun.unfinished (Nat.le_trans hfuel hend)
    exact call_of_runFor hstart (Prod.ext rfl hout)

/-! ## 3. Programs -/

open Machine in
/-- **A compiled program is run as it is meant.** A function compiled from any program over local variables, called with
    any arguments, enacts the events of the program, for every bound on the rounds of its loops: locals begin, get values
    and end in just this order, and at every instruction the registers hold the values that they have by then. Where the
    program comes to its end, the call returns; where a comparison has no outcome, it fails with it; and while the bound
    does not suffice for the loops, it goes on for as many steps. So it returns just if the program comes to its end. -/
theorem compiled_program_call {source : Bytes} {chunkName : String} {p : Proto} {body : Program} {m : Machine} {id : Nat}
    {cells : Array Nat} {args : List Value} (hc : compile source chunkName = .ok p)
    (ht : (Lexer.tokenize source).1.map (·.token) = body.tokens ++ [.eof]) (hf : body.Fits []) (hm : m.Built)
    (hid : m.functions[id]? = some (.script p cells)) (hargs : ∀ v ∈ args, v.Known m.sizes) (hfree : m.Unhindered) :
    (∀ bound, m.Plays id args p cells bound (body.run bound [] [])) ∧
      ((∃ fuel vs, (m.call fuel (.function id) args none).2 = .results vs) ↔
        ∃ bound ws, (body.run bound [] []).ending = .done ws) := by
  have hplays := (compile_enforces hc ht hf).plays (compile_made hc).1.here.toSound hm.steady hid hargs hfree
  refine ⟨hplays, ?_, ?_⟩
  · rintro ⟨fuel, vs, hcall⟩
    obtain ⟨m₁, n, ws, m', hstart, hrun, hend⟩ := hplays fuel
    cases he : (body.run fuel [] []).ending with
    | done ws => exact ⟨fuel, ws, he⟩
    | broke ws =>
      rw [he] at hend
      exact hend.elim
    | clash c =>
      rw [he] at hend
      obtain ⟨-, k, place, hk⟩ := hend
      have hout := call_stable hstart hcall (by simp) (Nat.le_add_right fuel k)
      have hfail := hk (fuel + k) (Nat.le_add_left k fuel)
      dsimp only at hfail
      rw [hout] at hfail
      cases hfail
    | endless =>
      rw [he] at hend
      have hout := hend fuel (Nat.le_refl _)
      dsimp only at hout
      rw [hcall] at hout
      cases hout
  · rintro ⟨bound, ws, he⟩
    obtain ⟨m₁, n, vs, m', hstart, hrun, hend⟩ := hplays bound
    rw [he] at hend
    obtain ⟨-, -, k, hk⟩ := hend
    exact ⟨k, [], hk k (Nat.le_refl k)⟩

theorem compiled_program_call_loops :
    ∃ m id, (Machine.new .standard).load
        (Bytes.ofString
          "local x = 1 while true do local y = x if y == 1 then break end x = y end repeat local z x = z until z == x")
        "t" none = (m, .ok (.function id)) ∧
      (∃ p cells, m.Plays id [] p cells 1
        ⟨[.declared (.int 1), .declared (.int 1), .left 2, .left 1, .declared .nil, .assigned 0 .nil, .left 1], .done [.nil]⟩) ∧
      ∃ fuel vs, (m.call fuel (.function id) [] none).2 = .results vs := by
  let source := Bytes.ofString
    "local x = 1 while true do local y = x if y == 1 then break end x = y end repeat local z x = z until z == x"
  let x : Bytes := [0x78]
  let y : Bytes := [0x79]
  let z : Bytes := [0x7a]
  let body : Program :=
    .cons (.declare x [] [.lit (.int 1)]) <|
    .cons (.loop (.lit (.bool true))
      (.cons (.declare y [] [.var x]) <|
        .cons (.choose (.rel .eq (.var y) (.lit (.int 1))) (.cons .leave .nil) .done) <| .cons (.assign x (.var y)) .nil)) <|
    .cons (.again (.cons (.declare z [] []) <| .cons (.assign x (.var z)) .nil) (.rel .eq (.var z) (.var x))) .nil
  have hok : (compile source "t").isOk = true := by decide +kernel
  cases hc : compile source "t" with
  | error _ =>
    rw [hc] at hok
    cases hok
  | ok p =>
    obtain ⟨m, id, cells, hload, hid⟩ := (Machine.new .standard).load_compiled none (by decide +kernel) hc
    have henv : ∀ v ∈ (none : Option Value), v.Known (Machine.new .standard).sizes := by simp
    have hbuilt := (Machine.Built.new .standard).load source "t" henv
    have hfree : ((Machine.new .standard).load source "t" none).1.Unhindered :=
      ⟨⟨by decide +kernel, by decide +kernel⟩, by decide +kernel, by decide +kernel⟩
    rw [hload] at hbuilt hfree
    have ht : (Lexer.tokenize source).1.map (·.token) = body.tokens ++ [.eof] := by decide +kernel
    have hargs : ∀ v ∈ ([] : List Value), v.Known m.sizes := by simp
    obtain ⟨hplays, hreturns⟩ := compiled_program_call hc ht (by decide) hbuilt hid hargs hfree
    exact ⟨m, id, hload, ⟨p, cells, hplays 1⟩, hreturns.mpr ⟨1, [.nil], rfl⟩⟩

end LuaMachine
