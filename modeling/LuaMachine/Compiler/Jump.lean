/-
  WRITING CODE AND AIMING JUMPS. A forward jump is written without a target; lists of such jumps are kept
  until the target is known. Jumps to "the next instruction" are aimed when that instruction is written.
-/
import LuaMachine.Compiler.State

namespace LuaMachine.Compile

open Operand (noRegister)

/-! ## 1. Aiming jumps -/

def reaches (pc dest : Nat) : Bool := ((dest : Int) - (pc + 1)).natAbs ≤ Instr.maxJump

def fixJump (pc dest : Nat) : Compile Unit := do
  if reaches pc dest then
    modifyFn fun d => d.mapInstr pc fun i => i.setSbx ((dest : Int) - (pc + 1))
  else failNear .jumpTooLong

def joinJumps (l₁ l₂ : JumpList) : Compile JumpList := do
  match l₁.getLast?, l₂.head? with
  | _, none => return l₁
  | none, _ => return l₂
  | some last, some first => if reaches last first then return l₁ ++ l₂ else failNear .jumpTooLong

/-- The place of the instruction that decides whether the jump at `pc` is taken: the test before it,
    if there is one, else the jump itself. -/
def controlOf (d : Draft) (pc : Nat) : Nat :=
  if 1 ≤ pc ∧ (d.instr (pc - 1)).opcode.isTest then pc - 1 else pc

def controlledByTestSet (d : Draft) (pc : Nat) : Bool :=
  (d.instr (controlOf d pc)).opcode = .testSet

/-- If a TESTSET controls the jump at `node`, let it set `reg`, or only test when no value is wanted
    or the value is there already; say whether it does. -/
def aimTest (node reg : Nat) : Compile Bool := do
  let s ← get
  if controlledByTestSet s.fn node then
    modifyFn fun d =>
      d.mapInstr (controlOf d node) fun i =>
        if reg ≠ noRegister ∧ reg ≠ i.b.val then i.setA reg
        else Instr.ofABC .test i.b.val 0 i.c.val
    return true
  else return false

def dropValues : JumpList → Compile Unit
  | [] => return
  | node :: rest => do
    discard <| aimTest node noRegister
    dropValues rest

/-- Aim each jump: one that yields a value (into `reg`) at `valueTarget`, any other at
    `plainTarget`. -/
def aimJumps (valueTarget reg plainTarget : Nat) : JumpList → Compile Unit
  | [] => return
  | node :: rest => do
    if ← aimTest node reg then fixJump node valueTarget else fixJump node plainTarget
    aimJumps valueTarget reg plainTarget rest

def aimHere : Compile Unit := do
  let s ← get
  let list := s.fn.here
  let pc := s.fn.pc
  modifyFn fun d => { d with here := [] }
  aimJumps pc noRegister pc list

/-! ## 2. Writing code -/

/-- Write an instruction on the line of the last token passed; give its place. -/
def emit (i : Instr) : Compile Nat := do
  aimHere
  let s ← get
  let pc := s.fn.pc
  let line := s.lastLine
  modifyFn fun d => { d with code := d.code.push i, lines := d.lines.push line }
  return pc

def emitABC (op : Op) (a b c : Nat) : Compile Nat := emit (Instr.ofABC op a b c)

def emitABx (op : Op) (a bx : Nat) : Compile Nat := emit (Instr.ofABx op a bx)

def emitAsBx (op : Op) (a : Nat) (sbx : Int) : Compile Nat := emit (Instr.ofAsBx op a sbx)

def dropLast : Compile Unit :=
  modifyFn fun d => { d with code := d.code.pop, lines := d.lines.pop }

def fixLine (line : Nat) : Compile Unit :=
  modifyFn fun d => { d with lines := d.lines.modify (d.lines.size - 1) fun _ => line }

def loadConstant (reg k : Nat) : Compile Unit := do
  if k ≤ Instr.maxBx then discard <| emitABx .loadK reg k
  else
    discard <| emitABx .loadKx reg 0
    discard <| emit (Instr.ofAx .extraArg k)

/-- Set `n` registers to nil. If the instruction before does the same for registers that touch
    these, and no jump arrives in between, it is widened instead. -/
def loadNil (start n : Nat) : Compile Unit := do
  let d ← ofFn id
  let last := start + n - 1
  let prev := d.instr (d.pc - 1)
  let prevStart := prev.a.val
  let prevLast := prevStart + prev.b.val
  if d.lastTarget < d.pc ∧ prev.opcode = .loadNil ∧
      ((prevStart ≤ start ∧ start ≤ prevLast + 1) ∨ (start ≤ prevStart ∧ prevStart ≤ last + 1)) then
    let first := min start prevStart
    modifyFn fun d =>
      d.mapInstr (d.pc - 1) fun i => (i.setA first).setB (max last prevLast - first)
  else discard <| emitABC .loadNil start (n - 1) 0

def emitReturn (first : Nat) (n : Option Nat) : Compile Unit := do
  discard <| emitABC .ret first (Operand.ofCount n) 0

/-! ## 3. Jumps -/

def markTarget : Compile Nat := do
  modifyFn fun d => { d with lastTarget := d.pc }
  ofFn Draft.pc

def jump : Compile JumpList := do
  let arriving ← ofFn (·.here)
  modifyFn fun d => { d with here := [] }
  let pc ← emitAsBx .jmp 0 (-1)
  joinJumps [pc] arriving

def condJump (op : Op) (a b c : Nat) : Compile JumpList := do
  discard <| emitABC op a b c
  jump

def patchHere (list : JumpList) : Compile Unit := do
  discard markTarget
  let joined ← joinJumps (← ofFn (·.here)) list
  modifyFn fun d => { d with here := joined }

def patchTo (list : JumpList) (target : Nat) : Compile Unit := do
  if target = (← ofFn Draft.pc) then patchHere list
  else aimJumps target noRegister target list

def closeOnJump (list : JumpList) (level : Nat) : Compile Unit :=
  modifyFn fun d => list.foldl (fun d node => d.mapInstr node (·.setA (level + 1))) d

end LuaMachine.Compile
