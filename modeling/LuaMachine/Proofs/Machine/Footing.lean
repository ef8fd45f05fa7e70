/-
  RELATIONS THAT OPERATIONS KEEP. All operations are made of few changes of a machine. A relation that holds
  over each of these changes, and over two where it holds over each, holds over every operation, whether it
  succeeds or fails.

  * `Exec.Footing` -- the changes that library functions make; `simple_along` -- **each library function
    that calls no other**;
  * `Exec.Broad` -- with the changes of cells; `plain_along` -- **each instruction that neither jumps nor
    calls**;
  * `Exec.Wide` -- with closing and returning; `execute_along`, `host_along` -- **all instructions and
    library functions**.
-/
import LuaMachine.Machine.Run
import LuaMachine.Proofs.Machine.Stack

namespace LuaMachine.Exec

variable {R : Machine → Machine → Prop} {α β : Type}

/-! ## 1. Operations along a relation -/

def Along (R : Machine → Machine → Prop) (x : Exec α) : Prop :=
  ∀ m, Meets True (fun e m' => e.isCatchable = true ∧ R m m') x m fun _ m' => R m m'

def Unactivated (R : Machine → Machine → Prop) : Prop :=
  ∀ (m : Machine) (activations : List Activation), R m { m with activations := activations }

def Unframed (R : Machine → Machine → Prop) : Prop :=
  ∀ (m : Machine) (frames : List Frame), R m { m with frames := frames }

structure Footing (R : Machine → Machine → Prop) : Prop where
  trans {m₁ m₂ m₃ : Machine} : R m₁ m₂ → R m₂ m₃ → R m₁ m₃
  quiet (m : Machine) (tables : Array Table) (functions : Array Function) (printed : List Bytes) :
    R m { m with tables := tables, functions := functions, printed := printed }
  newClosed (m : Machine) (v : Value) : R m { m with cells := m.cells.push (.closed v) }

structure Ground (R : Machine → Machine → Prop) : Prop extends Footing R where
  stack (m : Machine) (stack : Array Value) : R m { m with stack := stack }
  top (m : Machine) (top : Nat) : R m { m with top := top }
  frames (m : Machine) (frames : List Frame) (h : m.frames.length ≤ frames.length) :
    R m { m with frames := frames }

structure Broad (R : Machine → Machine → Prop) : Prop extends Ground R where
  setClosed (m : Machine) (c : Nat) (v w : Value) (h : m.cells[c]? = some (.closed w)) :
    R m { m with cells := m.cells.modify c fun _ => .closed v }
  captured (m : Machine) (slot : Nat) (h : findOpen slot m.openCells = none) :
    R m { m with cells := m.cells.push (.live slot), openCells := insertOpen slot m.cells.size m.openCells }

structure Wide (R : Machine → Machine → Prop) : Prop extends Broad R where
  closing (m : Machine) (cells : Array Cell) (openCells : List (Nat × Nat)) :
    R m { m with cells := cells, openCells := openCells }
  ending : Unframed R

namespace Footing

variable (hR : Footing R) {x : Exec α} {k : α → Exec β}

include hR

theorem refl (m : Machine) : R m m := hR.quiet m m.tables m.functions m.printed

theorem bind (hx : Along R x) (hk : ∀ a, Along R (k a)) : Along R (x >>= k) := fun m =>
  Meets.bind (Meets.imp (hx m) (fun _ _ h => h) fun a m1 h1 =>
    Meets.imp (hk a m1) (fun _ _ ⟨he, h2⟩ => ⟨he, hR.trans h1 h2⟩) fun _ _ h2 => hR.trans h1 h2)

theorem pure (a : α) : Along R (Pure.pure a) := fun m => hR.refl m

theorem failWith {e : Failure} (he : e.isCatchable = true) : Along R (failWith e : Exec α) := fun m =>
  ⟨he, hR.refl m⟩

theorem fail (f : RuntimeFault) : Along R (fail f : Exec α) := fun m => ⟨rfl, hR.refl m⟩

omit hR in
theorem stuck : Along R (stuck : Exec α) := fun _ => trivial

theorem get : Along R (MonadState.get : Exec Machine) := fun m => hR.refl m

theorem need (o : Option α) : Along R (need o) := by
  cases o with
  | none => exact stuck
  | some a => exact hR.pure a

theorem read (i : Nat) : Along R (read i) := hR.bind hR.get fun _ => hR.need _

theorem readMany (i n : Nat) : Along R (readMany i n) :=
  hR.bind hR.get fun m => by
    split
    · exact hR.pure _
    · exact stuck

theorem readCell (c : Nat) : Along R (readCell c) :=
  hR.bind hR.get fun _ => hR.bind (hR.need _) fun cell => by
    cases cell with
    | live slot => exact hR.read slot
    | closed v => exact hR.pure v

theorem newTable (t : Table) : Along R (newTable t) := fun m =>
  hR.quiet m (m.tables.push t) m.functions m.printed

theorem newFunction (f : Function) : Along R (newFunction f) := fun m =>
  hR.quiet m m.tables (m.functions.push f) m.printed

theorem table (id : Nat) : Along R (table id) := hR.bind hR.get fun _ => hR.need _

theorem setKey (id : Nat) (key v : Value) : Along R (setKey id key v) := by
  unfold Exec.setKey
  split
  · exact hR.fail _
  · next i _ => exact fun m => hR.quiet m (m.tables.modify id fun t => t.setInt i v) m.functions m.printed
  · next k _ _ => exact fun m => hR.quiet m (m.tables.modify id fun t => t.setEntry k v) m.functions m.printed

theorem setKeys (id : Nat) (first : Int) (vs : List Value) : Along R (setKeys id first vs) := by
  induction vs generalizing first with
  | nil => exact hR.pure ()
  | cons v vs ih =>
    have hset : Along R (modify fun m : Machine =>
        { m with tables := m.tables.modify id fun t => t.setInt (Int64.ofInt (first + 1)) v }) :=
      fun m => hR.quiet m _ m.functions m.printed
    exact hR.bind hset fun _ => ih _

theorem newCells (v : Value) (acc : Array Nat) (us : List UpvalueDesc) : Along R (newCells v acc us) := by
  induction us generalizing v acc with
  | nil => exact hR.pure acc
  | cons u us ih =>
    have hnew : Along R (newCell (.closed v)) := fun m => hR.newClosed m v
    exact hR.bind hnew fun _ => ih _ _

theorem ofMain (p : Proto) (env : Value) : Along R (ofMain p env) :=
  hR.bind (hR.newCells env #[] p.upvalues) fun _ => hR.newFunction _

theorem openCount (start b : Nat) : Along R (openCount start b) := by
  unfold Exec.openCount
  split
  · exact hR.pure _
  · exact hR.bind hR.get fun _ => hR.pure _

/-! ## 2. Library functions -/

variable {h : HostFn} {args : List Value} {i : Nat}

theorem argument : Along R (argument h args i) := by
  unfold Exec.argument
  split
  · exact hR.pure _
  · exact hR.fail _

theorem tableArgument : Along R (tableArgument h args i) := by
  unfold Exec.tableArgument
  split
  · exact hR.pure _
  · exact hR.fail _

theorem intArgument : Along R (intArgument h args i) := by
  unfold Exec.intArgument
  split
  · split
    · exact hR.pure _
    · split <;> exact hR.fail _
  · exact hR.fail _

theorem intArgumentOr (otherwise : Int64) : Along R (intArgumentOr h args i otherwise) := by
  unfold Exec.intArgumentOr
  split
  · exact hR.pure _
  · exact hR.intArgument

theorem stringArgument : Along R (stringArgument h args i) := by
  unfold Exec.stringArgument
  split
  · exact hR.pure _
  · exact hR.fail _

theorem stringArgumentOr (otherwise : Bytes) : Along R (stringArgumentOr h args i otherwise) := by
  unfold Exec.stringArgumentOr
  split
  · exact hR.pure _
  · exact hR.stringArgument

theorem printLine (vs : List Value) : Along R (printLine vs) :=
  hR.bind hR.get fun _ => by
    split
    · exact hR.fail _
    · exact fun m => hR.quiet m m.tables m.functions _

theorem toNumber : Along R (toNumber args) := by
  unfold Exec.toNumber
  split
  · exact hR.bind hR.argument fun _ => hR.pure _
  · refine hR.bind hR.intArgument fun base => ?_
    split
    · split
      · exact hR.pure _
      · exact hR.fail _
    · exact hR.fail _

theorem selectFrom : Along R (selectFrom args) := by
  unfold Exec.selectFrom
  dsimp only
  split
  · exact hR.pure _
  · refine hR.bind hR.intArgument fun n => ?_
    split <;> split <;> first | exact hR.fail _ | exact hR.pure _

theorem raiseValue (v : Value) (level : Int) : Along R (raiseValue v level : Exec α) :=
  hR.bind hR.get fun m => by
    split
    · split <;> exact hR.failWith rfl
    · exact hR.failWith rfl

theorem unpackFrom : Along R (unpackFrom args) := by
  refine hR.bind hR.tableArgument fun id => hR.bind (hR.table id) fun t =>
    hR.bind (hR.intArgumentOr _) fun first => ?_
  extract_lets first upTo
  have hupTo : ∀ last, Along R (upTo last) := by
    intro last
    unfold upTo
    split
    · exact hR.pure _
    · split
      · exact hR.fail _
      · exact hR.pure _
  split
  · exact hR.bind (hR.pure _) hupTo
  · exact hR.bind hR.intArgument fun _ => hR.bind (hR.pure _) hupTo

theorem collect : Along R (collect args) :=
  hR.bind (hR.stringArgumentOr _) fun option => by
    split <;> first | exact hR.pure _ | exact hR.fail _

theorem loadChunk (chunk : Bytes) (name : String) (env : Value) : Along R (loadChunk chunk name env) := by
  unfold Exec.loadChunk
  split
  · exact hR.bind (hR.ofMain _ _) fun _ => hR.pure _
  · exact hR.pure _

theorem loadWith (chunk : Bytes) (name : String) : Along R (loadWith chunk name args) := by
  unfold Exec.loadWith
  extract_lets named
  have hnamed : ∀ name : String, Along R (named name) := fun name =>
    hR.bind (hR.stringArgumentOr _) fun mode => by
      split
      split
      · exact hR.pure _
      · refine hR.bind hR.get fun m => hR.bind (hR.loadChunk _ _ _) fun r => ?_
        split <;> exact hR.pure _
  split
  · exact hR.bind (hR.pure _) fun _ => hnamed _
  · exact hR.bind hR.stringArgument fun _ => hR.bind (hR.pure _) fun _ => hnamed _

/-- **A library function that calls no other.** -/
theorem simple_along : Along R (simple h args) := by
  unfold Exec.simple
  cases h <;> dsimp only
  case print => exact hR.bind (hR.printLine _) fun _ => hR.pure _
  case type => exact hR.bind hR.argument fun _ => hR.pure _
  case tostring => exact hR.bind hR.argument fun _ => hR.pure _
  case tonumber => exact hR.toNumber
  case ipairs => exact hR.bind hR.tableArgument fun _ => hR.bind (hR.newFunction _) fun _ => hR.pure _
  case pairs => exact hR.bind hR.tableArgument fun _ => hR.bind (hR.newFunction _) fun _ => hR.pure _
  case ipairsStep =>
    refine hR.bind hR.tableArgument fun _ => hR.bind (hR.table _) fun _ => hR.bind hR.intArgument fun _ => ?_
    split <;> exact hR.pure _
  case next =>
    refine hR.bind hR.tableArgument fun _ => hR.bind (hR.table _) fun _ => ?_
    split
    · exact hR.pure _
    · exact hR.pure _
    · exact hR.fail _
  case select => exact hR.selectFrom
  case rawget =>
    exact hR.bind hR.tableArgument fun _ => hR.bind hR.argument fun _ => hR.bind (hR.table _) fun _ => hR.pure _
  case rawset =>
    exact hR.bind hR.tableArgument fun _ => hR.bind hR.argument fun _ => hR.bind hR.argument fun _ =>
      hR.bind (hR.setKey _ _ _) fun _ => hR.pure _
  case rawequal => exact hR.bind hR.argument fun _ => hR.bind hR.argument fun _ => hR.pure _
  case rawlen =>
    split
    · exact hR.bind (hR.table _) fun _ => hR.pure _
    · exact hR.pure _
    · exact hR.fail _
  case assert =>
    refine hR.bind hR.argument fun v => ?_
    split
    · exact hR.raiseValue _ _
    · exact hR.pure _
  case error => exact hR.bind (hR.intArgumentOr _) fun _ => hR.raiseValue _ _
  case unpack => exact hR.unpackFrom
  case collectgarbage => exact hR.collect
  case pcall | load => exact hR.pure _

end Footing

/-! ## 3. Operations on the stack, on cells and on what runs -/

namespace Ground

variable (hR : Ground R) {f : Frame}

include hR

theorem ensure (n : Nat) : Along R (ensure n) := fun m => by
  show R m (if m.stack.size < n then _ else m)
  split
  · exact hR.stack m _
  · exact hR.refl m

theorem write (i : Nat) (v : Value) : Along R (write i v) := fun m => by
  unfold Meets Exec.write
  by_cases h : i < m.stack.size
  · rw [dif_pos h]
    exact hR.stack m _
  · rw [dif_neg h]
    trivial

theorem writeMany (i : Nat) (vs : List Value) : Along R (writeMany i vs) := by
  induction vs generalizing i with
  | nil => exact hR.pure ()
  | cons v vs ih => exact hR.bind (hR.write i v) fun _ => ih _

theorem clear (i n : Nat) : Along R (clear i n) := by
  induction n with
  | zero => exact hR.pure ()
  | succ n ih => exact hR.bind (hR.write _ _) fun _ => ih

theorem place (i : Nat) (vs : List Value) (wanted : Option Nat) : Along R (place i vs wanted) := by
  cases wanted with
  | some n => exact hR.bind (hR.ensure _) fun _ => hR.writeMany _ _
  | none =>
    exact hR.bind (hR.ensure _) fun _ => hR.bind (hR.writeMany _ _) fun _ m => hR.top m (i + vs.length)

theorem modifyFrame (g : Frame → Frame) : Along R (modifyFrame g) := fun m => by
  refine Meets.of_ok rfl ?_
  dsimp only
  split
  · next f rest hf => exact hR.frames m (g f :: rest) (by rw [hf]; exact Nat.le_refl _)
  · exact hR.refl m

theorem skip : Along R skip := hR.modifyFrame _

theorem jump (distance : Int) : Along R (jump distance) := hR.modifyFrame _

theorem skipUnless (outcome expected : Bool) : Along R (skipUnless outcome expected) := by
  unfold Exec.skipUnless
  split
  · exact hR.skip
  · exact hR.pure _

theorem extra (missing : RuntimeFault) : Along R (extra f missing) :=
  hR.bind hR.skip fun _ => by
    split
    · exact hR.pure _
    · exact hR.fail _

/-! ## 4. Operands and operators -/

theorem constant (k : Nat) : Along R (constant f k) := hR.bind (hR.need _) fun _ => hR.pure _

theorem operand (x : Nat) : Along R (operand f x) := by
  unfold Exec.operand
  split
  · exact hR.constant _
  · exact hR.read _

theorem upvalue (u : Nat) : Along R (upvalue f u) := by
  unfold Exec.upvalue
  split
  · exact hR.pure _
  · exact hR.fail _

theorem getKey (v key : Value) (name : Unit → Option Naming) : Along R (getKey v key name) := by
  unfold Exec.getKey
  split
  · exact hR.bind (hR.table _) fun _ => hR.pure _
  · exact hR.fail _

theorem putKey (v key value : Value) (name : Unit → Option Naming) : Along R (putKey v key value name) := by
  unfold Exec.putKey
  split
  · exact hR.setKey _ _ _
  · exact hR.fail _

theorem failOperator (e : OperandFault) (x y : Value) (b c : Nat) :
    Along R (failOperator f e x y b c : Exec α) := by
  unfold Exec.failOperator
  split <;> exact hR.fail _

theorem operate (op : ArithOp) (a b c : Nat) : Along R (operate f op a b c) :=
  hR.bind (hR.operand b) fun x => hR.bind (hR.operand c) fun y => by
    split
    · exact hR.write _ _
    · exact hR.failOperator _ _ _ _ _

theorem joinRow (a b c : Nat) : Along R (do
    let vs ← Exec.readMany (f.base + b) (c + 1 - b)
    match Value.concat vs with
    | .ok s => Exec.write (f.base + a) (.str s)
    | .error i => Exec.fail (.concat (vs[i]?.getD .nil).type (nameOf f (b + i)))) :=
  hR.bind (hR.readMany _ _) fun vs => by
    split
    · exact hR.write _ _
    · exact hR.fail _

theorem join (a b c : Nat) : Along R (join f a b c) := by
  unfold Exec.join
  split
  · exact hR.bind Footing.stuck fun _ => hR.joinRow a b c
  · exact hR.joinRow a b c

theorem measure (b : Nat) : Along R (measure f b) :=
  hR.bind (hR.read _) fun v => by
    split
    · exact hR.bind (hR.table _) fun _ => hR.pure _
    · exact hR.pure _
    · exact hR.fail _

theorem compareOperands {i : Instr} {order : Value → Value → Option Bool} :
    Along R (compareOperands f i order) :=
  hR.bind (hR.operand _) fun x => hR.bind (hR.operand _) fun y => by
    split
    · exact hR.skipUnless _ _
    · exact hR.fail _

theorem prepareLoop (ra : Nat) : Along R (prepareLoop ra) := by
  refine hR.bind (hR.read _) fun start => hR.bind (hR.read _) fun limit => hR.bind (hR.read _) fun step => ?_
  dsimp only
  split
  · exact hR.bind (hR.write _ _) fun _ => hR.write _ _
  · split
    · exact hR.fail _
    · exact hR.fail _
    · exact hR.fail _
    · exact hR.bind (hR.write _ _) fun _ => hR.bind (hR.write _ _) fun _ => hR.write _ _

theorem iterate (ra : Nat) (distance : Int) : Along R (iterate ra distance) := by
  refine hR.bind (hR.read _) fun index => hR.bind (hR.read _) fun limit => hR.bind (hR.read _) fun step => ?_
  split
  · exact hR.bind (hR.write _ _) fun _ => hR.bind (hR.write _ _) fun _ => hR.jump _
  · exact hR.pure _

theorem storeItems (i : Instr) : Along R (storeItems f i) := by
  unfold Exec.storeItems
  extract_lets ra b counted
  have hcounted : ∀ n, Along R (counted n) := by
    intro n
    unfold counted
    extract_lets stored
    have hstored : ∀ block, Along R (stored block) := fun block =>
      hR.bind (hR.read _) fun v => by
        split
        · exact hR.bind (hR.readMany _ _) fun _ => hR.setKeys _ _ _
        · exact hR.fail _
    split
    · exact hR.bind (hR.extra _) hstored
    · exact hR.bind (hR.pure _) hstored
  split
  · exact hR.bind hR.get fun _ => hR.bind (hR.pure _) hcounted
  · exact hR.bind (hR.pure _) hcounted

/-! ## 5. Calls -/

theorem pushFrame (slot nargs : Nat) (wanted : Option Nat) (p : Proto) (cells : Array Nat) :
    Along R (pushFrame slot nargs wanted p cells) := by
  unfold Exec.pushFrame
  extract_lets base top params start begun
  have hpushed : ∀ varargs, Along R (modify fun m : Machine =>
      { m with frames := ⟨slot, 0, wanted, p, cells, varargs⟩ :: m.frames }) :=
    fun varargs m => hR.frames m _ (Nat.le_succ _)
  have hbegun : ∀ varargs, Along R (begun varargs) := by
    intro varargs
    unfold begun
    extract_lets cleared
    have hcleared : ∀ u, Along R (cleared u) := fun _ => hR.bind (hR.clear _ _) fun _ => hpushed varargs
    split
    · exact hR.bind Footing.stuck hcleared
    · exact hcleared ()
  refine hR.bind (hR.ensure _) fun _ => ?_
  split
  · exact hR.bind (hR.readMany _ _) hbegun
  · exact hbegun []

theorem failCall (slot : Nat) (v : Value) : Along R (failCall slot v : Exec α) :=
  hR.bind hR.get fun m => by
    split
    · split
      · exact hR.fail _
      · exact hR.failWith rfl
    · exact hR.failWith rfl

theorem beginCall_along (slot nargs : Nat) (wanted : Option Nat) (ret : HostReturn) :
    Along R (beginCall slot nargs wanted ret) := by
  refine hR.bind (hR.read _) fun v => ?_
  split
  · refine hR.bind hR.get fun m => hR.bind (hR.need _) fun fn => ?_
    split
    · exact hR.bind (hR.readMany _ _) fun _ => hR.pure _
    · split
      · exact hR.failWith rfl
      · exact hR.bind (hR.pushFrame _ _ _ _ _) fun _ => hR.pure _
  · exact hR.failCall _ _

theorem call (ra b c : Nat) : Along R (call ra b c) :=
  hR.bind (hR.openCount _ _) fun _ => hR.beginCall_along _ _ _ _

theorem callIterator (ra c : Nat) : Along R (callIterator ra c) := by
  refine hR.bind (hR.read _) fun _ => hR.bind (hR.write _ _) fun _ => ?_
  refine hR.bind (hR.read _) fun _ => hR.bind (hR.write _ _) fun _ => ?_
  exact hR.bind (hR.read _) fun _ => hR.bind (hR.write _ _) fun _ => hR.beginCall_along _ _ _ _

theorem moveDown (src dest n : Nat) : Along R (moveDown src dest n) := by
  induction n generalizing src dest with
  | zero => exact hR.pure ()
  | succ n ih =>
    exact hR.bind (hR.read _) fun _ => hR.bind (hR.write _ _) fun _ => hR.bind (hR.write _ _) fun _ => ih _ _

theorem activate_along (hact : Unactivated R) (f : Value) (args : List Value) {purpose : Purpose}
    (hfull : Along R (settleFailure purpose .stackOverflow)) : Along R (activate f args purpose) := by
  refine hR.bind hR.get fun m => ?_
  split
  · exact hfull
  · refine hR.bind (hR.ensure _) fun _ => hR.bind (hR.writeMany _ _) fun _ => ?_
    have hbegun : Along R (modify fun m' : Machine =>
        { m' with activations := ⟨m'.frames.length, m.frameTop, m'.top, purpose⟩ :: m'.activations }) :=
      fun m' => hact m' _
    exact hR.bind hbegun fun _ => hR.beginCall_along _ _ _ _

theorem endCall_along (hend : Unframed R) (vs : List Value) : Along R (endCall vs) := fun m => by
  have hrest : ∀ (f : Frame) (n depth : Nat), Along R (if n ≤ depth then Pure.pure (Mode.deliver vs) else do
      Exec.place f.slot vs f.wanted
      Pure.pure Mode.run) := by
    intro f n depth
    split
    · exact hR.pure _
    · exact hR.bind (hR.place _ _ _) fun _ => hR.pure _
  unfold Exec.endCall
  refine Meets.get ?_
  split
  · exact hR.refl m
  · next f rest _ =>
    have hpop : R m { m with frames := rest } := hend m rest
    exact Meets.imp (hrest f rest.length _ { m with frames := rest }) (fun _ _ ⟨he, h⟩ => ⟨he, hR.trans hpop h⟩)
      fun _ _ h => hR.trans hpop h

end Ground

/-! ## 6. Instructions -/

namespace Broad

variable (hR : Broad R) {f : Frame}

include hR

theorem writeCell (c : Nat) (v : Value) : Along R (writeCell c v) := fun m => by
  refine Meets.get ?_
  cases hc : m.cells[c]? with
  | none => trivial
  | some cell =>
    cases cell with
    | live slot => exact hR.write slot v m
    | closed w => exact hR.setClosed m c v w hc

theorem capture (slot : Nat) : Along R (capture slot) := fun m => by
  cases hf : findOpen slot m.openCells with
  | some c => exact Meets.of_ok (capture_found hf) (hR.refl m)
  | none => exact Meets.of_ok (capture_new hf) (hR.captured m slot hf)

theorem captureAll (acc : Array Nat) (us : List UpvalueDesc) : Along R (captureAll f acc us) := by
  induction us generalizing acc with
  | nil => exact hR.pure acc
  | cons u us ih =>
    unfold Exec.captureAll
    split
    · exact hR.bind (hR.capture _) fun _ => ih _
    · exact hR.bind (hR.upvalue _) fun _ => ih _

theorem makeClosure (ra k : Nat) : Along R (makeClosure f ra k) := by
  unfold Exec.makeClosure
  split
  · exact hR.bind (hR.captureAll _ _) fun _ => hR.bind (hR.newFunction _) fun _ => hR.write _ _
  · exact hR.fail _

/-- **An instruction that neither calls nor returns nor closes.** -/
theorem plain_along {i : Instr} {op : Op} (ho : op ≠ .jmp) : Along R (plain f i op) := by
  unfold plain
  cases op <;> dsimp only
  case jmp => exact (ho rfl).elim
  case move => exact hR.bind (hR.read _) fun _ => hR.write _ _
  case loadK => exact hR.bind (hR.constant _) fun _ => hR.write _ _
  case loadKx => exact hR.bind (hR.extra _) fun _ => hR.bind (hR.constant _) fun _ => hR.write _ _
  case loadBool =>
    refine hR.bind (hR.write _ _) fun _ => ?_
    split
    · exact hR.skip
    · exact hR.pure _
  case loadNil => exact hR.clear _ _
  case getUpval => exact hR.bind (hR.upvalue _) fun _ => hR.bind (hR.readCell _) fun _ => hR.write _ _
  case setUpval => exact hR.bind (hR.upvalue _) fun _ => hR.bind (hR.read _) fun _ => hR.writeCell _ _
  case getTabUp =>
    exact hR.bind (hR.upvalue _) fun _ => hR.bind (hR.readCell _) fun _ => hR.bind (hR.operand _) fun _ =>
      hR.bind (hR.getKey _ _ _) fun _ => hR.write _ _
  case getTable =>
    exact hR.bind (hR.read _) fun _ => hR.bind (hR.operand _) fun _ => hR.bind (hR.getKey _ _ _) fun _ =>
      hR.write _ _
  case setTabUp =>
    exact hR.bind (hR.upvalue _) fun _ => hR.bind (hR.readCell _) fun _ => hR.bind (hR.operand _) fun _ =>
      hR.bind (hR.operand _) fun _ => hR.putKey _ _ _ _
  case setTable =>
    exact hR.bind (hR.read _) fun _ => hR.bind (hR.operand _) fun _ => hR.bind (hR.operand _) fun _ =>
      hR.putKey _ _ _ _
  case newTable => exact hR.bind (hR.newTable _) fun _ => hR.write _ _
  case self =>
    exact hR.bind (hR.read _) fun _ => hR.bind (hR.operand _) fun _ => hR.bind (hR.getKey _ _ _) fun _ =>
      hR.bind (hR.write _ _) fun _ => hR.write _ _
  case not => exact hR.bind (hR.read _) fun _ => hR.write _ _
  case len => exact hR.bind (hR.measure _) fun _ => hR.write _ _
  case concat => exact hR.join _ _ _
  case eq | lt | le => exact hR.compareOperands
  case test => exact hR.bind (hR.read _) fun _ => hR.skipUnless _ _
  case testSet =>
    refine hR.bind (hR.read _) fun v => ?_
    split
    · exact hR.skip
    · exact hR.write _ _
  case forPrep => exact hR.bind (hR.prepareLoop _) fun _ => hR.jump _
  case forLoop => exact hR.iterate _ _
  case tforLoop =>
    refine hR.bind (hR.read _) fun v => ?_
    split
    · exact hR.bind (hR.write _ _) fun _ => hR.jump _
    · exact hR.pure _
  case setList => exact hR.storeItems _
  case closure => exact hR.makeClosure _ _
  case vararg => exact hR.place _ _ _
  case unm | bnot => exact hR.operate _ _ _ _
  case call | tailCall | ret | tforCall | extraArg => exact hR.pure _
  all_goals exact hR.operate _ _ _ _

end Broad

/-! ## 7. All instructions and library functions -/

namespace Wide

variable (hR : Wide R) {f : Frame}

include hR

theorem closeFrom (level : Nat) (es : List (Nat × Nat)) : Along R (closeFrom level es) := by
  induction es with
  | nil => exact hR.pure _
  | cons e es ih =>
    unfold Exec.closeFrom
    split
    · exact hR.pure _
    · refine hR.bind (hR.read _) fun v => ?_
      have hclose : Along R (modify fun m : Machine => { m with cells := m.cells.modify e.2 fun _ => .closed v }) :=
        fun m => hR.closing m _ m.openCells
      exact hR.bind hclose fun _ => ih

theorem close (level : Nat) : Along R (close level) := by
  refine hR.bind hR.get fun m => hR.bind (hR.closeFrom _ _) fun cells => ?_
  exact fun m => hR.closing m m.cells cells

theorem finish (ret : HostReturn) (vs : List Value) : Along R (finish ret vs) := by
  cases ret with
  | place dest wanted => exact hR.bind (hR.place _ _ _) fun _ => hR.pure _
  | tail base => exact hR.bind (hR.close _) fun _ => hR.endCall_along hR.ending _
  | answer => exact hR.pure _

theorem settleFailure {purpose : Purpose} {e : Failure} (he : e.isCatchable = true) :
    Along R (settleFailure purpose e) := by
  unfold Exec.settleFailure
  cases purpose with
  | guarded ret =>
    show Along R (if e.isCatchable then Exec.finish ret [.bool false, e.toValue] else Exec.failWith e)
    rw [if_pos he]
    exact hR.finish _ _
  | outermost | reading => exact hR.failWith he

theorem tailCall (ra b : Nat) : Along R (tailCall f ra b) := by
  refine hR.bind (hR.openCount _ _) fun nargs => hR.bind (hR.read _) fun v => ?_
  split
  · refine hR.bind hR.get fun m => hR.bind (hR.need _) fun fn => ?_
    split
    · exact hR.bind (hR.readMany _ _) fun _ => hR.pure _
    · have hpop : Along R (modify fun m : Machine => { m with frames := m.frames.tail }) :=
        fun m => hR.ending m m.frames.tail
      exact hR.bind (hR.close _) fun _ => hR.bind hpop fun _ => hR.bind (hR.moveDown _ _ _) fun _ =>
        hR.beginCall_along _ _ _ _
  · exact hR.failCall _ _

theorem returnValues (ra b : Nat) : Along R (returnValues f ra b) :=
  hR.bind (hR.openCount _ _) fun _ => hR.bind (hR.readMany _ _) fun _ => hR.bind (hR.close _) fun _ => hR.endCall_along hR.ending _

/-- **Every instruction**, once it has been counted. -/
theorem execute_along (i : Instr) : Along R (execute f i) := by
  have hplain : ∀ op, Along R (plain f i op) := by
    intro op
    by_cases ho : op = .jmp
    · subst ho
      unfold plain
      dsimp only
      split
      · exact hR.bind (hR.close _) fun _ => hR.jump _
      · exact hR.jump _
    · exact hR.plain_along ho
  unfold execute
  split
  · exact hR.call _ _ _
  · exact hR.tailCall _ _
  · exact hR.returnValues _ _
  · exact hR.callIterator _ _
  · exact hR.bind (hplain _) fun _ => hR.pure _

variable {args : List Value} {ret : HostReturn} (hact : Unactivated R)

include hact

theorem activate (f : Value) (args : List Value) (purpose : Purpose) : Along R (activate f args purpose) :=
  hR.activate_along hact f args (hR.settleFailure rfl)

theorem loadFrom : Along R (loadFrom args ret) := by
  unfold Exec.loadFrom
  split
  · exact hR.bind (hR.loadWith _ _) fun _ => hR.finish _ _
  · exact hR.activate hact _ _ _
  · exact hR.fail _

/-- **Every library function.** -/
theorem host_along (h : HostFn) : Along R (host h args ret) := by
  have hsimple : ∀ h, Along R (do Exec.finish ret (← simple h args)) := fun h =>
    hR.bind hR.simple_along fun _ => hR.finish _ _
  unfold host
  split
  · exact hR.bind hR.argument fun _ => hR.activate hact _ _ _
  · exact hR.loadFrom hact
  · exact hsimple _

theorem settleResults (purpose : Purpose) (vs : List Value) : Along R (settleResults purpose vs) := by
  cases purpose with
  | outermost => exact hR.pure _
  | guarded ret => exact hR.finish _ _
  | reading pieces args ret =>
    have hwhole : Along R (do Exec.finish ret (← Exec.loadWith pieces.reverse.flatten "=(load)" args)) :=
      hR.bind (hR.loadWith _ _) fun _ => hR.finish _ _
    show Along R (pieceRead pieces args ret vs)
    unfold pieceRead
    dsimp only
    split
    · exact hwhole
    · exact hwhole
    · exact hR.activate hact _ _ _
    · exact hR.finish _ _

theorem unwind (a : Activation) (rest : List Activation) : Along R (Machine.unwind a rest) := by
  have hbegun : Along R (modify fun m : Machine => { m with activations := rest }) :=
    fun m => hact m rest
  have hended : Along R (modify fun m : Machine =>
      { m with frames := m.frames.drop (m.frames.length - a.depth), top := a.savedTop }) := fun m =>
    hR.trans (hR.ending m (m.frames.drop (m.frames.length - a.depth)))
      (hR.top { m with frames := m.frames.drop (m.frames.length - a.depth) } a.savedTop)
  exact hR.bind hbegun fun _ => hR.bind (hR.close _) fun _ => hended

end Wide

end LuaMachine.Exec
