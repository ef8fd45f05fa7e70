/-
  WHAT INSTRUCTIONS AND LIBRARY FUNCTIONS SPARE. An instruction spares the stack below the registers of its
  function; only CLOSURE captures, only JMP closes, and all move on as their opcode says.

  * `plain_passes` -- **each instruction but JMP, calls and returns**; `jmp_meets` -- JMP.
-/
import LuaMachine.Machine.Run
import LuaMachine.Proofs.Code.Flow
import LuaMachine.Proofs.Machine.Spare

namespace LuaMachine

namespace Exec

variable {α β : Type} {low : Nat} {P T : Nat → Prop} {f : Frame}

/-! ## 1. Operations that move the running function -/

def Passes (low : Nat) (P T : Nat → Prop) (f : Frame) (x : Exec α) : Prop :=
  ∀ (m : Machine) (rest : List Frame), m.Tidy → m.frames = f :: rest →
    Meets True (fun _ m' => m.Spares low P m' ∧ m'.activations = m.activations ∧
        ∃ pc, T pc ∧ m'.frames = { f with pc := pc } :: rest) x m
      fun _ m' => m.Spares low P m' ∧ m'.activations = m.activations ∧
        ∃ pc, T pc ∧ m'.frames = { f with pc := pc } :: rest

theorem Spares.passes {x : Exec α} (h : Spares low P x) (hT : T f.pc) : Passes low P T f x :=
  fun m _ hm hf => Meets.imp (h m hm) (fun _ _ ⟨hs, hfr, ha⟩ => ⟨hs, ha, f.pc, hT, hfr.trans hf⟩)
    fun _ _ ⟨hs, hfr, ha⟩ => ⟨hs, ha, f.pc, hT, hfr.trans hf⟩

theorem Spares.thenPasses {x : Exec α} {k : α → Exec β} (hx : Spares low P x) (hT : T f.pc)
    (hk : ∀ a, Passes low P T f (k a)) : Passes low P T f (x >>= k) := fun m rest hm hf =>
  Meets.bind (Meets.imp (hx m hm) (fun _ _ ⟨hs, hfr, ha⟩ => ⟨hs, ha, f.pc, hT, hfr.trans hf⟩)
    fun a m1 ⟨hs, hfr, ha⟩ => Meets.imp (hk a m1 rest hs.tidy (hfr.trans hf))
      (fun _ _ ⟨hs', ha', hpc⟩ => ⟨hs.trans hs', ha'.trans ha, hpc⟩)
      fun _ _ ⟨hs', ha', hpc⟩ => ⟨hs.trans hs', ha'.trans ha, hpc⟩)

theorem Passes.thenSpares {x : Exec α} {k : α → Exec β} (hx : Passes low P T f x)
    (hk : ∀ a, Spares low P (k a)) : Passes low P T f (x >>= k) := fun m rest hm hf =>
  Meets.bind (Meets.imp (hx m rest hm hf) (fun _ _ h => h)
    fun a m1 ⟨hs, ha, pc, hpc, hfr⟩ => Meets.imp (hk a m1 hs.tidy)
      (fun _ _ ⟨hs', hfr', ha'⟩ => ⟨hs.trans hs', ha'.trans ha, pc, hpc, hfr'.trans hfr⟩)
      fun _ _ ⟨hs', hfr', ha'⟩ => ⟨hs.trans hs', ha'.trans ha, pc, hpc, hfr'.trans hfr⟩)

theorem modifyFrame_passes {g : Frame → Frame} {pc : Nat} (hg : g f = { f with pc := pc }) (hT : T pc) :
    Passes low P T f (modifyFrame g) := by
  intro m rest hm hf
  unfold Meets
  rw [modifyFrame_eq hf]
  exact ⟨.same hm rfl rfl rfl, rfl, pc, hT, congrArg (· :: rest) hg⟩

theorem skip_passes (hT : T (f.pc + 1)) : Passes low P T f skip := modifyFrame_passes rfl hT

theorem jump_passes {distance : Int} (hT : T (f.proto.target f.pc distance)) : Passes low P T f (jump distance) :=
  modifyFrame_passes rfl hT

theorem skipUnless_passes {outcome expected : Bool} (hT : T f.pc) (hT' : T (f.pc + 1)) :
    Passes low P T f (skipUnless outcome expected) := by
  unfold skipUnless
  split
  · exact skip_passes hT'
  · exact (Spares.pure _).passes hT

theorem extra_passes {missing : RuntimeFault} (hT : T (f.pc + 1)) : Passes low P T f (extra f missing) :=
  (skip_passes hT).thenSpares fun _ => by
    split
    · exact .pure _
    · exact .fail _

theorem compareOperands_passes {i : Instr} {order : Value → Value → Option Bool} (hT : T f.pc)
    (hT' : T (f.pc + 1)) : Passes low P T f (compareOperands f i order) :=
  (Spares.operand _).thenPasses hT fun x => (Spares.operand _).thenPasses hT fun y => by
    split
    · exact skipUnless_passes hT hT'
    · exact (Spares.fail _).passes hT

theorem iterate_passes {ra : Nat} {distance : Int} (hra : low ≤ ra) (hT : T f.pc)
    (hT' : T (f.proto.target f.pc distance)) : Passes low P T f (iterate ra distance) := by
  refine (Spares.read _).thenPasses hT fun index => (Spares.read _).thenPasses hT fun limit =>
    (Spares.read _).thenPasses hT fun step => ?_
  split
  · exact (Spares.write hra _).thenPasses hT fun _ =>
      (Spares.write (Nat.le_add_right_of_le hra) _).thenPasses hT fun _ => jump_passes hT'
  · exact (Spares.pure _).passes hT

theorem storeItems_passes {i : Instr} (hT : T f.pc) (hT' : T (f.pc + 1)) :
    Passes low P T f (storeItems f i) := by
  unfold storeItems
  extract_lets ra b counted
  have hcounted : ∀ n, Passes low P T f (counted n) := by
    intro n
    unfold counted
    extract_lets stored
    have hstored : ∀ block, Spares low P (stored block) := fun block =>
      (Spares.read _).bind fun v => by
        split
        · exact (Spares.readMany _ _).bind fun _ => Spares.setKeys _ _ _
        · exact .fail _
    split
    · exact (extra_passes hT').thenSpares hstored
    · exact (Spares.pure _).thenPasses hT fun block => (hstored block).passes hT
  split
  · exact Spares.get.thenPasses hT fun _ => (Spares.pure _).thenPasses hT hcounted
  · exact (Spares.pure _).thenPasses hT hcounted

/-! ## 2. Instructions -/

/-- **Every instruction that is no jump, call or return** spares the stack below the registers,
    captures what a CLOSURE says, and moves its function on. -/
theorem plain_passes {i : Instr} (ho : i.opcode ≠ .jmp) :
    Passes f.base (fun s => ∃ r, s = f.base + r ∧ f.proto.Captures i r) (f.proto.Next f.pc i) f (plain f i i.opcode) := by
  have ra : f.base ≤ f.base + i.a.val := Nat.le_add_right _ _
  have hon : f.proto.Next f.pc i f.pc := .inl ⟨ho, rfl⟩
  have hskip : i.opcode.skips = true → f.proto.Next f.pc i (f.pc + 1) := fun h => .inr (.inl ⟨h, rfl⟩)
  have hjump : i.opcode.loops = true → f.proto.Next f.pc i (f.proto.target f.pc i.sbx) := fun h => .inr (.inr ⟨.inr h, rfl⟩)
  have hcap : i.opcode = .closure → ∀ p, f.proto.protos[i.bx]? = some p → ∀ u ∈ p.upvalues,
      u.inStack = true → ∃ r, f.base + u.index.toNat = f.base + r ∧ f.proto.Captures i r :=
    fun h p hp u hu hin => ⟨_, rfl, h, p, hp, u, hu, hin, rfl⟩
  unfold plain
  cases hop : i.opcode <;> rw [hop] at ho hskip hjump hcap <;> dsimp only
  case jmp => exact (ho rfl).elim
  case move => exact ((Spares.read _).bind fun _ => Spares.write ra _).passes hon
  case loadK => exact ((Spares.constant _).bind fun _ => Spares.write ra _).passes hon
  case loadKx =>
    exact (extra_passes (hskip rfl)).thenSpares fun _ => (Spares.constant _).bind fun _ => Spares.write ra _
  case loadBool =>
    refine (Spares.write ra _).thenPasses hon fun _ => ?_
    split
    · exact skip_passes (hskip rfl)
    · exact (Spares.pure _).passes hon
  case loadNil => exact (Spares.clear ra _).passes hon
  case getUpval =>
    exact ((Spares.upvalue _).bind fun _ => (Spares.readCell _).bind fun _ => Spares.write ra _).passes hon
  case setUpval =>
    exact ((Spares.upvalue _).bind fun _ => (Spares.read _).bind fun _ => Spares.writeCell _ _).passes hon
  case getTabUp =>
    exact ((Spares.upvalue _).bind fun _ => (Spares.readCell _).bind fun _ => (Spares.operand _).bind fun _ =>
      (Spares.getKey _ _ _).bind fun _ => Spares.write ra _).passes hon
  case getTable =>
    exact ((Spares.read _).bind fun _ => (Spares.operand _).bind fun _ =>
      (Spares.getKey _ _ _).bind fun _ => Spares.write ra _).passes hon
  case setTabUp =>
    exact ((Spares.upvalue _).bind fun _ => (Spares.readCell _).bind fun _ => (Spares.operand _).bind fun _ =>
      (Spares.operand _).bind fun _ => Spares.putKey _ _ _ _).passes hon
  case setTable =>
    exact ((Spares.read _).bind fun _ => (Spares.operand _).bind fun _ =>
      (Spares.operand _).bind fun _ => Spares.putKey _ _ _ _).passes hon
  case newTable => exact ((Spares.newTable _).bind fun _ => Spares.write ra _).passes hon
  case self =>
    exact ((Spares.read _).bind fun _ => (Spares.operand _).bind fun _ => (Spares.getKey _ _ _).bind fun _ =>
      (Spares.write (Nat.le_add_right_of_le ra) _).bind fun _ => Spares.write ra _).passes hon
  case not => exact ((Spares.read _).bind fun _ => Spares.write ra _).passes hon
  case len => exact ((Spares.measure _).bind fun _ => Spares.write ra _).passes hon
  case concat => exact (Spares.join _ _ ra).passes hon
  case eq | lt | le => exact compareOperands_passes hon (hskip rfl)
  case test => exact (Spares.read _).thenPasses hon fun _ => skipUnless_passes hon (hskip rfl)
  case testSet =>
    refine (Spares.read _).thenPasses hon fun v => ?_
    split
    · exact skip_passes (hskip rfl)
    · exact (Spares.write ra _).passes hon
  case forPrep => exact (Spares.prepareLoop ra).thenPasses hon fun _ => jump_passes (hjump rfl)
  case forLoop => exact iterate_passes ra hon (hjump rfl)
  case tforLoop =>
    refine (Spares.read _).thenPasses hon fun v => ?_
    split
    · exact (Spares.write ra _).thenPasses hon fun _ => jump_passes (hjump rfl)
    · exact (Spares.pure _).passes hon
  case setList => exact storeItems_passes hon (hskip rfl)
  case closure => exact (Spares.makeClosure ra (Nat.le_refl _) (hcap rfl)).passes hon
  case vararg => exact (Spares.place ra _ _).passes hon
  case unm | bnot => exact (Spares.operate _ _ _ ra).passes hon
  case call | tailCall | ret | tforCall | extraArg => exact (Spares.pure _).passes hon
  all_goals exact (Spares.operate _ _ _ ra).passes hon

theorem jmp_meets (low : Nat) (P : Nat → Prop) {i : Instr} {m : Machine} {rest : List Frame} (ho : i.opcode = .jmp) (hm : m.Tidy)
    (hf : m.frames = f :: rest) :
    Meets True (fun _ _ => False) (plain f i i.opcode) m fun _ m' =>
      m.Spares low P m' ∧ m'.activations = m.activations ∧
        m'.frames = { f with pc := f.proto.target f.pc i.sbx } :: rest ∧
        ∀ e ∈ m'.openCells, e ∈ m.openCells ∧ (i.a.val ≠ 0 → e.1 < f.base + i.a.val - 1) := by
  have hjump : ∀ m1 : Machine, m1.Tidy → m1.frames = f :: rest →
      jump i.sbx m1 = .ok () { m1 with frames := { f with pc := f.proto.target f.pc i.sbx } :: rest } := by
    intro m1 _ hf1
    exact modifyFrame_eq hf1
  rw [ho]
  unfold plain
  dsimp only
  split
  · refine Meets.bind (Meets.imp (closed low P _ hm) (fun _ _ h => h)
      ?_)
    rintro _ m1 ⟨hs, hfr, ha, _, _, hopen⟩
    unfold Meets
    rw [hjump m1 hs.tidy (hfr.trans hf)]
    refine ⟨hs.trans (.same hs.tidy rfl rfl rfl), ha, rfl, fun e he => ?_⟩
    have := (hopen e).mp he
    exact ⟨this.1, fun _ => this.2⟩
  · next ha =>
    unfold Meets
    rw [hjump m hm hf]
    exact ⟨.same hm rfl rfl rfl, rfl, rfl, fun e he => ⟨he, fun h => (ha h).elim⟩⟩

/-! ## 3. Library functions -/

namespace Spares

variable {h : HostFn} {args : List Value} {i : Nat}

theorem failArgument (e : ArgumentFault) : Spares low P (failArgument h i e : Exec α) := fail _

theorem failType (wanted : ValueType) : Spares low P (failType h args i wanted : Exec α) := fail _

theorem argument : Spares low P (argument h args i) := by
  unfold Exec.argument
  split
  · exact pure _
  · exact fail _

theorem tableArgument : Spares low P (tableArgument h args i) := by
  unfold Exec.tableArgument
  split
  · exact pure _
  · exact fail _

theorem intArgument : Spares low P (intArgument h args i) := by
  unfold Exec.intArgument
  split
  · split
    · exact pure _
    · split <;> exact fail _
  · exact fail _

theorem intArgumentOr (otherwise : Int64) : Spares low P (intArgumentOr h args i otherwise) := by
  unfold Exec.intArgumentOr
  split
  · exact pure _
  · exact intArgument

theorem stringArgument : Spares low P (stringArgument h args i) := by
  unfold Exec.stringArgument
  split
  · exact pure _
  · exact fail _

theorem stringArgumentOr (otherwise : Bytes) : Spares low P (stringArgumentOr h args i otherwise) := by
  unfold Exec.stringArgumentOr
  split
  · exact pure _
  · exact stringArgument

theorem printLine (vs : List Value) : Spares low P (printLine vs) :=
  get.bind fun _ => by
    split
    · exact fail _
    · exact update (fun _ => rfl) (fun _ => rfl) (fun _ => rfl) (fun _ => rfl) fun _ => rfl

theorem toNumber : Spares low P (toNumber args) := by
  unfold Exec.toNumber
  split
  · exact argument.bind fun _ => pure _
  · refine intArgument.bind fun base => ?_
    split
    · split
      · exact pure _
      · exact fail _
    · exact fail _

theorem selectFrom : Spares low P (selectFrom args) := by
  unfold Exec.selectFrom
  dsimp only
  split
  · exact pure _
  · refine intArgument.bind fun n => ?_
    split <;> split <;> first | exact fail _ | exact pure _

theorem raiseValue (v : Value) (level : Int) : Spares low P (raiseValue v level : Exec α) :=
  get.bind fun m => by
    split
    · split <;> exact failWith _
    · exact failWith _

theorem unpackFrom : Spares low P (unpackFrom args) := by
  refine tableArgument.bind fun id => (table id).bind fun t => (intArgumentOr _).bind fun first => ?_
  extract_lets first upTo
  have hupTo : ∀ last, Spares low P (upTo last) := by
    intro last
    unfold upTo
    split
    · exact pure _
    · split
      · exact fail _
      · exact pure _
  split
  · exact (pure _).bind hupTo
  · exact intArgument.bind fun _ => (pure _).bind hupTo

theorem collect : Spares low P (collect args) :=
  (stringArgumentOr _).bind fun option => by
    split <;> first | exact pure _ | exact fail _

theorem loadChunk (chunk : Bytes) (name : String) (env : Value) : Spares low P (loadChunk chunk name env) := by
  unfold Exec.loadChunk
  split
  · exact (ofMain _ _).bind fun _ => pure _
  · exact pure _

theorem loadWith (chunk : Bytes) (name : String) : Spares low P (loadWith chunk name args) := by
  unfold Exec.loadWith
  extract_lets named
  have hnamed : ∀ name : String, Spares low P (named name) := fun name =>
    (stringArgumentOr _).bind fun mode => by
      split
      split
      · exact pure _
      · refine get.bind fun m => (loadChunk _ _ _).bind fun r => ?_
        split <;> exact pure _
  split
  · exact (pure _).bind fun _ => hnamed _
  · exact stringArgument.bind fun _ => (pure _).bind fun _ => hnamed _

/-- **A library function that calls no other** changes nothing but tables, functions and output. -/
theorem simple : Spares low P (simple h args) := by
  unfold Exec.simple
  cases h <;> dsimp only
  case print => exact (printLine _).bind fun _ => pure _
  case type => exact argument.bind fun _ => pure _
  case tostring => exact argument.bind fun _ => pure _
  case tonumber => exact toNumber
  case ipairs => exact tableArgument.bind fun _ => (newFunction _).bind fun _ => pure _
  case pairs => exact tableArgument.bind fun _ => (newFunction _).bind fun _ => pure _
  case ipairsStep =>
    refine tableArgument.bind fun _ => (table _).bind fun _ => intArgument.bind fun _ => ?_
    split <;> exact pure _
  case next =>
    refine tableArgument.bind fun _ => (table _).bind fun _ => ?_
    split
    · exact pure _
    · exact pure _
    · exact fail _
  case select => exact selectFrom
  case rawget => exact tableArgument.bind fun _ => argument.bind fun _ => (table _).bind fun _ => pure _
  case rawset =>
    exact tableArgument.bind fun _ => argument.bind fun _ => argument.bind fun _ =>
      (setKey _ _ _).bind fun _ => pure _
  case rawequal => exact argument.bind fun _ => argument.bind fun _ => pure _
  case rawlen =>
    split
    · exact (table _).bind fun _ => pure _
    · exact pure _
    · exact fail _
  case assert =>
    refine argument.bind fun v => ?_
    split
    · exact raiseValue _ _
    · exact pure _
  case error => exact (intArgumentOr _).bind fun _ => raiseValue _ _
  case unpack => exact unpackFrom
  case collectgarbage => exact collect
  case pcall | load => exact pure _

end Spares

end Exec

end LuaMachine
