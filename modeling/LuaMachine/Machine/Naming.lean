/-
  NAMES FOR VALUES IN ERRORS, recovered from the code: the local in a register, or what the last instruction
  that wrote the register read.
-/
import LuaMachine.Code.Proto

namespace LuaMachine

inductive NameKind where
  | «local» | global | field | upvalue | constant | method
deriving DecidableEq, Repr

namespace NameKind

def text : NameKind → String
  | «local» => "local"
  | global => "global"
  | field => "field"
  | upvalue => "upvalue"
  | constant => "constant"
  | method => "method"

end NameKind

structure Naming where
  kind : NameKind
  name : String
deriving DecidableEq

namespace Naming

def text (n : Naming) : String := " (" ++ n.kind.text ++ " '" ++ n.name ++ "')"

def textOf : Option Naming → String
  | some n => n.text
  | none => ""

/-! ## 1. Who wrote a register -/

/-- Whether an instruction changes a register. -/
def writes (i : Instr) (reg : Nat) : Bool :=
  let a := i.a.val
  match i.opcode with
  | .loadNil => a ≤ reg ∧ reg ≤ a + i.b.val
  | .tforCall => a + 2 ≤ reg
  | .call | .tailCall => a ≤ reg
  | .jmp => false
  | op => op.setsA && reg == a

def forwardTarget? (i : Instr) (pc last : Nat) : Option Nat :=
  match i.opcode with
  | .jmp =>
    let dest : Int := pc + 1 + i.sbx
    if (pc : Int) < dest ∧ dest ≤ last then some dest.toNat else none
  | _ => none

/-- Go through the instructions from `pc` on; `found` is the last write that no jump seen passes
    over, `target` the furthest target of those jumps. -/
def scanWrites (last reg : Nat) : List Instr → Nat → Option Nat → Nat → Option Nat
  | [], _, found, _ => found
  | i :: rest, pc, found, target =>
    let target :=
      match forwardTarget? i pc last with
      | some t => max t target
      | none => target
    let found := if writes i reg then (if pc < target then none else some pc) else found
    scanWrites last reg rest (pc + 1) found target

/-- The last instruction before `last` that wrote a register, unless a jump may have passed over
    it. -/
def lastWrite? (p : Proto) (last reg : Nat) : Option Nat :=
  scanWrites last reg (p.code.toList.take last) 0 none 0

/-! ## 2. Names -/

def constantName? (p : Proto) (k : Nat) : Option String :=
  match p.constants[k]? with
  | some (.str s) => some s.lossy
  | _ => none

def upvalueName (p : Proto) (u : Nat) : String :=
  match p.upvalues[u]? with
  | some ⟨some name, _, _⟩ => name.lossy
  | _ => "?"

def environment : String := "_ENV"

/-- Kind and name of what a register holds at `last`; `fuel` bounds the registers followed back. -/
def follow? (p : Proto) : Nat → Nat → Nat → Option Naming
  | 0, _, _ => none
  | fuel + 1, last, reg =>
    let key (pc c : Nat) : String :=
      if Operand.isConstant c then (constantName? p (Operand.constantIndex c)).getD "?"
      else
        match follow? p fuel pc c with
        | some ⟨.constant, name⟩ => name
        | _ => "?"
    match p.localName? (reg + 1) last with
    | some name => some ⟨.local, name.lossy⟩
    | none =>
      match lastWrite? p last reg with
      | none => none
      | some pc =>
        match p.code[pc]? with
        | none => none
        | some i =>
          let b := i.b.val
          let c := i.c.val
          match i.opcode with
          | .move => if b < i.a.val then follow? p fuel pc b else none
          | .getTabUp =>
            some ⟨if upvalueName p b = environment then .global else .field, key pc c⟩
          | .getTable =>
            let isEnv := p.localName? (b + 1) pc = some (Bytes.ofString environment)
            some ⟨if isEnv then .global else .field, key pc c⟩
          | .getUpval => some ⟨.upvalue, upvalueName p b⟩
          | .loadK => (constantName? p i.bx).map fun s => ⟨.constant, s⟩
          | .loadKx =>
            match p.code[pc + 1]? with
            | some x => (constantName? p x.ax).map fun s => ⟨.constant, s⟩
            | none => none
          | .self => some ⟨.method, key pc c⟩
          | _ => none

/-- Kind and name of what a register holds when the instruction at `pc` runs. Every register
    followed back was written earlier, so `pc + 1` steps are enough. -/
def ofRegister? (p : Proto) (pc reg : Nat) : Option Naming := follow? p (pc + 1) pc reg

def ofUpvalue (p : Proto) (u : Nat) : Naming := ⟨.upvalue, upvalueName p u⟩

end Naming

end LuaMachine
