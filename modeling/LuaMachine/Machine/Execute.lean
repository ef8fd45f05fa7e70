/-
  INSTRUCTIONS AT WORK. Registers of the running function are places of the stack from its base on; an
  operand is a register or a constant.
-/
import LuaMachine.Compiler.Expr
import LuaMachine.Machine.State

namespace LuaMachine.Exec

/-! ## 1. The next instruction -/

/-- Count an instruction against the limits. -/
def count : Exec Unit := do
  let m ← get
  let n := m.executed + 1
  let limits := m.limits
  set { m with executed := n }
  let spent :=
    match limits.budget with
    | some budget => budget < n
    | none => false
  if spent || (n % Limits.clockInterval == 0 && limits.expired) then failWith .interrupted

def modifyFrame (g : Frame → Frame) : Exec Unit := modify fun m =>
  match m.frames with
  | f :: rest => { m with frames := g f :: rest }
  | [] => m

def skip : Exec Unit := modifyFrame fun f => { f with pc := f.pc + 1 }

def jump (distance : Int) : Exec Unit := modifyFrame fun f =>
  let dest : Int := f.pc + distance
  { f with pc := if 0 ≤ dest then dest.toNat else f.proto.code.size }

/-- The next instruction, with its frame; the frame is already behind it. -/
def fetch : Exec (Frame × Instr) := do
  count
  let m ← get
  match m.frames with
  | [] => stuck
  | f :: rest =>
    let f' := { f with pc := f.pc + 1 }
    set { m with frames := f' :: rest }
    match f'.proto.code[f'.pc - 1]? with
    | some i => return (f', i)
    | none => fail .ranPastEnd

def extra (f : Frame) (missing : RuntimeFault) : Exec Nat := do
  skip
  match f.proto.code[f.pc]? with
  | some i => return i.ax
  | none => fail missing

/-! ## 2. Operands -/

def constant (f : Frame) (k : Nat) : Exec Value := do
  return .ofConstant (← need f.proto.constants[k]?)

def operand (f : Frame) (x : Nat) : Exec Value :=
  if Operand.isConstant x then constant f (Operand.constantIndex x) else read (f.base + x)

def nameOf (f : Frame) (x : Nat) : Option Naming :=
  if Operand.isConstant x then none else Naming.ofRegister? f.proto (f.pc - 1) x

def upvalue (f : Frame) (u : Nat) : Exec Nat :=
  match f.cells[u]? with
  | some c => return c
  | none => fail (.noUpvalue u)

def openCount (start b : Nat) : Exec Nat := do
  match Operand.toCount? b with
  | some n => return n
  | none => return (← get).top - start

/-! ## 3. Tables -/

def getKey (v key : Value) (name : Unit → Option Naming) : Exec Value := do
  match v with
  | .table id => return (← table id).get key
  | v => fail (.index v.type (name ()))

def putKey (v key value : Value) (name : Unit → Option Naming) : Exec Unit :=
  match v with
  | .table id => setKey id key value
  | v => fail (.index v.type (name ()))

def setKeys (id : Nat) (first : Int) : List Value → Exec Unit
  | [] => return
  | v :: rest => do
    modify fun m => { m with tables := m.tables.modify id fun t => t.setInt (Int64.ofInt (first + 1)) v }
    setKeys id (first + 1) rest

/-- Store list items from the registers after a table's into it. -/
def storeItems (f : Frame) (i : Instr) : Exec Unit := do
  let ra := f.base + i.a.val
  let b := i.b.val
  let n ← if b = 0 then do pure ((← get).top - (ra + 1)) else pure b
  let block ← if i.c.val = 0 then extra f .storeWithoutIndex else pure i.c.val
  match ← read ra with
  | .table id =>
    let vs ← readMany (ra + 1) n
    setKeys id (((block : Int) - 1) * itemsPerFlush) vs
  | v => fail (.index v.type none)

/-! ## 4. Operators -/

/-- The fault of an operator on two operands of the running instruction. -/
def failOperator {α : Type} (f : Frame) (fault : OperandFault) (x y : Value) (b c : Nat) : Exec α :=
  let culprit (n : Nat) : ValueType × Option Naming :=
    if n = 0 then (x.type, nameOf f b) else (y.type, nameOf f c)
  match fault with
  | .notNumber n true => fail (.bitwise (culprit n).1 (culprit n).2)
  | .notNumber n false => fail (.arithmetic (culprit n).1 (culprit n).2)
  | .noInteger n => fail (.noInteger (culprit n).2)
  | .numeric e => fail (.numeric e)

def operate (f : Frame) (op : ArithOp) (a b c : Nat) : Exec Unit := do
  let x ← operand f b
  let y ← operand f c
  match Value.arith op x y with
  | .ok v => write (f.base + a) v
  | .error e => failOperator f e x y b c

def join (f : Frame) (a b c : Nat) : Exec Unit := do
  if c < b then stuck
  let vs ← readMany (f.base + b) (c + 1 - b)
  match Value.concat vs with
  | .ok s => write (f.base + a) (.str s)
  | .error i => fail (.concat (vs[i]?.getD .nil).type (nameOf f (b + i)))

def measure (f : Frame) (b : Nat) : Exec Value := do
  match ← read (f.base + b) with
  | .table id => return .int (Int64.ofNat (← table id).length)
  | .str s => return .int (Int64.ofNat s.length)
  | v => fail (.length v.type (nameOf f b))

def skipUnless (outcome expected : Bool) : Exec Unit := if outcome ≠ expected then skip else return

def compareOperands (f : Frame) (i : Instr) (order : Value → Value → Option Bool) : Exec Unit := do
  let x ← operand f i.b.val
  let y ← operand f i.c.val
  match order x y with
  | some outcome => skipUnless outcome (i.a.val ≠ 0)
  | none => fail (.compare x.type y.type)

/-! ## 5. Numeric loops -/

/-- Prepare a numeric loop. Loops over integers have their limit clipped to an integer. -/
def prepareLoop (ra : Nat) : Exec Unit := do
  let start ← read ra
  let limit ← read (ra + 1)
  let step ← read (ra + 2)
  let clipped :=
    match start, step with
    | .int i, .int s =>
      match limit.loopLimit? s with
      | some (l, skips) => some (l, (if skips then 0 else i) - s)
      | none => none
    | _, _ => none
  match clipped with
  | some (l, before) =>
    write (ra + 1) (.int l)
    write ra (.int before)
  | none =>
    match limit.toNumber?, step.toNumber?, start.toNumber? with
    | none, _, _ => fail .loopLimit
    | _, none, _ => fail .loopStep
    | _, _, none => fail .loopStart
    | some l, some s, some x =>
      write (ra + 1) (.float l.toDouble)
      write (ra + 2) (.float s.toDouble)
      write ra (.float (x.toDouble.sub s.toDouble))

def checkedAdd (a b : Int64) : Option Int64 :=
  let n := a.toInt + b.toInt
  if Double.inRange n then some (Int64.ofInt n) else none

/-- The next value of a numeric loop, while it goes on. -/
def nextIndex? (index limit step : Value) : Option Value :=
  match index, limit, step with
  | .int i, .int l, .int s =>
    match checkedAdd i s with
    | some n => if (if 0 < s then n ≤ l else l ≤ n) then some (.int n) else none
    | none => none
  | _, _, _ =>
    match step.number?, limit.number?, index.number? with
    | some s, some l, some i =>
      let s := s.toDouble
      let l := l.toDouble
      let n := i.toDouble.add s
      if (if Double.zero.lt s then n.le l else l.le n) then some (.float n) else none
    | _, _, _ => none

/-- Go round a numeric loop, or leave it. -/
def iterate (ra : Nat) (distance : Int) : Exec Unit := do
  let index ← read ra
  let limit ← read (ra + 1)
  let step ← read (ra + 2)
  match nextIndex? index limit step with
  | some v =>
    write ra v
    write (ra + 3) v
    jump distance
  | none => return

/-! ## 6. Calls -/

/-- Move `n` values from a place to a lower one, first value first; what they leave is nil. -/
def moveDown (src dest : Nat) : Nat → Exec Unit
  | 0 => return
  | n + 1 => do
    let v ← read src
    write src .nil
    write dest v
    moveDown (src + 1) (dest + 1) n

/-- Call the function in a register in place of the running function. -/
def tailCall (f : Frame) (ra b : Nat) : Exec Mode := do
  let nargs ← openCount (ra + 1) b
  let v ← read ra
  match v with
  | .function id =>
    let m ← get
    match ← need m.functions[id]? with
    | .host h => return .host h (← readMany (ra + 1) nargs) (.tail f.base)
    | .script .. =>
      close f.base
      modify fun m => { m with frames := m.frames.tail }
      moveDown ra f.slot (nargs + 1)
      beginCall f.slot nargs f.wanted .answer
  | v => failCall ra v

def call (ra b c : Nat) : Exec Mode := do
  let nargs ← openCount (ra + 1) b
  let wanted := Operand.toCount? c
  beginCall ra nargs wanted (.place ra wanted)

def callIterator (ra c : Nat) : Exec Mode := do
  write (ra + 5) (← read (ra + 2))
  write (ra + 4) (← read (ra + 1))
  write (ra + 3) (← read ra)
  beginCall (ra + 3) 2 (some c) (.place (ra + 3) (some c))

def returnValues (f : Frame) (ra b : Nat) : Exec Mode := do
  let n ← openCount ra b
  let vs ← readMany ra n
  close f.base
  endCall vs

def captureAll (f : Frame) (acc : Array Nat) : List UpvalueDesc → Exec (Array Nat)
  | [] => return acc
  | u :: rest => do
    let c ← if u.inStack then capture (f.base + u.index.toNat) else upvalue f u.index.toNat
    captureAll f (acc.push c) rest

def makeClosure (f : Frame) (ra k : Nat) : Exec Unit := do
  match f.proto.protos[k]? with
  | some p =>
    let cells ← captureAll f #[] p.upvalues
    write ra (← newFunction (.script p cells))
  | none => fail .noFunction

/-! ## 7. All instructions -/

def operator? : Op → Option ArithOp
  | .add => some .add | .sub => some .sub | .mul => some .mul | .mod => some .mod
  | .pow => some .pow | .div => some .div | .idiv => some .idiv | .band => some .band
  | .bor => some .bor | .bxor => some .bxor | .shl => some .shl | .shr => some .shr
  | .unm => some .unm | .bnot => some .bnot | _ => none

/-- What an instruction that neither calls nor returns does. -/
def plain (f : Frame) (i : Instr) (op : Op) : Exec Unit := do
  let a := i.a.val
  let b := i.b.val
  let c := i.c.val
  let ra := f.base + a
  match op with
  | .move => write ra (← read (f.base + b))
  | .loadK => write ra (← constant f i.bx)
  | .loadKx =>
    let k ← extra f .loadWithoutIndex
    write ra (← constant f k)
  | .loadBool =>
    write ra (.bool (b ≠ 0))
    if c ≠ 0 then skip
  | .loadNil => clear ra (b + 1)
  | .getUpval => write ra (← readCell (← upvalue f b))
  | .setUpval =>
    let cell ← upvalue f b
    writeCell cell (← read ra)
  | .getTabUp =>
    let t ← readCell (← upvalue f b)
    let key ← operand f c
    write ra (← getKey t key fun _ => some (Naming.ofUpvalue f.proto b))
  | .getTable =>
    let t ← read (f.base + b)
    let key ← operand f c
    write ra (← getKey t key fun _ => nameOf f b)
  | .setTabUp =>
    let t ← readCell (← upvalue f a)
    let key ← operand f b
    let value ← operand f c
    putKey t key value fun _ => some (Naming.ofUpvalue f.proto a)
  | .setTable =>
    let t ← read ra
    let key ← operand f b
    let value ← operand f c
    putKey t key value fun _ => nameOf f a
  | .newTable => write ra (← newTable .empty)
  | .self =>
    let object ← read (f.base + b)
    let key ← operand f c
    let method ← getKey object key fun _ => nameOf f b
    write (ra + 1) object
    write ra method
  | .not => write ra (.bool (← read (f.base + b)).isFalsy)
  | .len => write ra (← measure f b)
  | .concat => join f a b c
  | .jmp =>
    if a ≠ 0 then close (ra - 1)
    jump i.sbx
  | .eq => compareOperands f i fun x y => some (x.rawEqual y)
  | .lt => compareOperands f i Value.less?
  | .le => compareOperands f i Value.lessEq?
  | .test => skipUnless (!(← read ra).isFalsy) (c ≠ 0)
  | .testSet =>
    let v ← read (f.base + b)
    if v.isFalsy == (c != 0) then skip else write ra v
  | .forPrep =>
    prepareLoop ra
    jump i.sbx
  | .forLoop => iterate ra i.sbx
  | .tforLoop =>
    let v ← read (ra + 1)
    if !v.isNil then
      write ra v
      jump i.sbx
  | .setList => storeItems f i
  | .closure => makeClosure f ra i.bx
  | .vararg => place ra f.varargs (Operand.toCount? b)
  | .unm => operate f .unm a b b
  | .bnot => operate f .bnot a b b
  | op =>
    match operator? op with
    | some o => operate f o a b c
    | none => return

/-- What an instruction does. -/
def execute (f : Frame) (i : Instr) : Exec Mode := do
  let ra := f.base + i.a.val
  match i.opcode with
  | .call => call ra i.b.val i.c.val
  | .tailCall => tailCall f ra i.b.val
  | .ret => returnValues f ra i.b.val
  | .tforCall => callIterator ra i.c.val
  | op =>
    plain f i op
    return .run

end LuaMachine.Exec
