/-
  LISTINGS of compiled functions, one instruction a line.
-/
import LuaMachine.Code.Proto
import LuaMachine.Text.ChunkName

namespace LuaMachine.Proto

def plural (n : Nat) : String := if n = 1 then "" else "s"

def counted (n : Nat) (noun : String) : String := toString n ++ " " ++ noun ++ plural n

def shownOperand (x : Nat) : Int :=
  if Operand.isConstant x then -1 - (Operand.constantIndex x : Int) else x

/-- Operands in the order of the listing. -/
def operands (i : Instr) : String :=
  let op := i.opcode
  let shown (u : OperandUse) (x : Nat) : String :=
    match u with
    | .unused => ""
    | .constant => " " ++ toString (shownOperand x)
    | _ => " " ++ toString x
  match op.layout with
  | .abc => toString i.a.val ++ shown op.useB i.b.val ++ shown op.useC i.c.val
  | .abx =>
    toString i.a.val ++
      match op.useB with
      | .constant => " " ++ toString (-1 - (i.bx : Int))
      | .number => " " ++ toString i.bx
      | _ => ""
  | .asbx => toString i.a.val ++ " " ++ toString i.sbx
  | .ax => toString (-1 - (i.ax : Int))

def constantText (p : Proto) (k : Nat) : String :=
  match p.constants[k]? with
  | some c => c.text
  | none => "?"

def operandText (p : Proto) (x : Nat) : String :=
  if Operand.isConstant x then constantText p (Operand.constantIndex x) else "-"

def upvalueText (p : Proto) (u : Nat) : String :=
  match p.upvalues[u]? with
  | some ⟨some name, _, _⟩ => name.lossy
  | _ => "-"

def constantSuffix (p : Proto) (x : Nat) : String :=
  if Operand.isConstant x then " " ++ operandText p x else ""

/-- The remark after an instruction: names and constants it uses, or where it jumps. -/
def remark (p : Proto) (pc : Nat) (i : Instr) : String :=
  let b := i.b.val
  let c := i.c.val
  match i.opcode with
  | .loadK => "\t; " ++ constantText p i.bx
  | .getUpval | .setUpval => "\t; " ++ upvalueText p b
  | .getTabUp => "\t; " ++ upvalueText p b ++ constantSuffix p c
  | .setTabUp => "\t; " ++ upvalueText p i.a.val ++ constantSuffix p b ++ constantSuffix p c
  | .getTable | .self => if Operand.isConstant c then "\t; " ++ operandText p c else ""
  | .setTable | .add | .sub | .mul | .mod | .pow | .div | .idiv | .band | .bor | .bxor | .shl
  | .shr | .eq | .lt | .le =>
    if Operand.isConstant b || Operand.isConstant c then
      "\t; " ++ operandText p b ++ " " ++ operandText p c
    else ""
  | .jmp | .forLoop | .forPrep | .tforLoop => "\t; to " ++ toString ((pc : Int) + i.sbx + 2)
  | .closure => "\t; function [" ++ toString i.bx ++ "]"
  | .setList => if c = 0 then "\t; extra arg" else "\t; " ++ toString c
  | .extraArg => "\t; " ++ constantText p i.ax
  | _ => ""

def padName (s : String) : String := s ++ String.ofList (List.replicate (9 - s.length) ' ')

def instrLine (p : Proto) (pc : Nat) (i : Instr) : String :=
  let line := p.lineAt pc
  "\t" ++ toString (pc + 1) ++ "\t" ++ (if line = 0 then "[-]" else "[" ++ toString line ++ "]") ++
    "\t" ++ padName i.opcode.name ++ "\t" ++ operands i ++ remark p pc i ++ "\n"

def joinLines {α : Type} (line : Nat → α → String) : Nat → List α → String → String
  | _, [], out => out
  | n, x :: rest, out => joinLines line (n + 1) rest (out ++ line n x)

/-- The two lines before the code. -/
def heading (p : Proto) : String :=
  let source := match p.source with
    | some s => ChunkName.display s.lossy
    | none => "=?"
  let kind := if p.lineDefined = 0 then "main" else "function"
  "\n" ++ kind ++ " <" ++ source ++ ":" ++ toString p.lineDefined.toNat ++ "," ++
    toString p.lastLine.toNat ++ "> (" ++ counted p.code.size "instruction" ++ ")\n" ++
    toString p.params.toNat ++ (if p.isVararg then "+" else "") ++ " param" ++
    plural p.params.toNat ++ ", " ++ counted p.maxStack.toNat "slot" ++ ", " ++
    counted p.upvalues.length "upvalue" ++ ", " ++ counted p.locals.length "local" ++ ", " ++
    counted p.constants.size "constant" ++ ", " ++ counted p.protos.length "function" ++ "\n"

/-- The tables of constants, locals and upvalues. -/
def tables (p : Proto) : String :=
  "constants (" ++ toString p.constants.size ++ "):\n" ++
    joinLines (fun n (k : Constant) => "\t" ++ toString (n + 1) ++ "\t" ++ k.text ++ "\n") 0
      p.constants.toList "" ++
    "locals (" ++ toString p.locals.length ++ "):\n" ++
    joinLines (fun n (v : LocalRange) => "\t" ++ toString n ++ "\t" ++ v.name.lossy ++ "\t" ++
      toString (v.start.toNat + 1) ++ "\t" ++ toString (v.stop.toNat + 1) ++ "\n") 0 p.locals "" ++
    "upvalues (" ++ toString p.upvalues.length ++ "):\n" ++
    joinLines (fun n (u : UpvalueDesc) => "\t" ++ toString n ++ "\t" ++
      (match u.name with | some s => s.lossy | none => "-") ++ "\t" ++
      (if u.inStack then "1" else "0") ++ "\t" ++ toString u.index.toNat ++ "\n") 0 p.upvalues ""

mutual

/-- The listing of a function, then of those nested in it. -/
def listing (full : Bool) (p : Proto) : String :=
  match p with
  | ⟨code, constants, protos, upvalues, params, isVararg, maxStack, source, lineDefined, lastLine,
      lines, locals⟩ =>
    let p : Proto := ⟨code, constants, protos, upvalues, params, isVararg, maxStack, source,
      lineDefined, lastLine, lines, locals⟩
    heading p ++ joinLines (instrLine p) 0 code.toList "" ++ (if full then tables p else "") ++
      listingAll full protos

def listingAll (full : Bool) : List Proto → String
  | [] => ""
  | p :: rest => listing full p ++ listingAll full rest

end

end LuaMachine.Proto
