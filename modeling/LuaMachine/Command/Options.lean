/-
  THE COMMAND LINE: options first, then a script with its own arguments. What follows the script's name
  belongs to the script, whatever it looks like.
-/
import LuaMachine.Value.Table

namespace LuaMachine

/-- What a command asks for. -/
structure Options where
  /-- Statements given as arguments, run in order before the script. -/
  exec : List String
  /-- How often a listing was asked for: once without tables of constants, twice with them. -/
  list : Nat
  parseOnly : Bool
  strip : Bool
  /-- The file that gets the compiled script. -/
  output : Option String
  version : Bool
  /-- The file of the script; `-` is the standard input. -/
  script : Option String
  scriptArgs : List String
deriving DecidableEq

inductive UsageFault where
  | needsArgument (option : String)
  | unknownOption (option : String)
  | outputWithoutScript
deriving DecidableEq

namespace UsageFault

def text : UsageFault → String
  | needsArgument option => "'" ++ option ++ "' needs argument"
  | unknownOption option => "unrecognized option '" ++ option ++ "'"
  | outputWithoutScript => "'-o' needs a script to compile"

end UsageFault

namespace Options

def program : String := "luna"

def versionText : String := "Luna 0.1.0 -- Lua 5.3 compatible"

/-- How the command is used. -/
def usage : String :=
  "usage: " ++ program ++ " [options] [script [args]]\n" ++
  "Available options are:\n" ++
  "  -e stat   execute string 'stat'\n" ++
  "  -l        list bytecode (twice for constants, locals and upvalues)\n" ++
  "  -p        parse only\n" ++
  "  -s        strip debug information from -o output\n" ++
  "  -o file   write the compiled chunk to 'file'\n" ++
  "  -v        show version information\n" ++
  "  --        stop handling options\n" ++
  "  -         execute stdin and stop handling options"

def empty : Options := ⟨[], 0, false, false, none, false, none, []⟩

def standardInput : String := "-"

/-! ## 1. Arguments -/

/-- An argument, as far as its own text tells. -/
inductive Argument where
  | endOfOptions
  | stdin
  | list
  | parseOnly
  | strip
  | version
  /-- Statements follow as the next argument. -/
  | exec
  /-- Statements follow in the same argument. -/
  | execHere (stat : String)
  /-- A file name follows as the next argument. -/
  | output
  | unknown
  | script
deriving DecidableEq

/-- What an argument is. -/
def Argument.ofString (arg : String) : Argument :=
  match arg.toList with
  | ['-', '-'] => .endOfOptions
  | ['-'] => .stdin
  | ['-', 'l'] => .list
  | ['-', 'p'] => .parseOnly
  | ['-', 's'] => .strip
  | ['-', 'v'] => .version
  | ['-', 'e'] => .exec
  | ['-', 'o'] => .output
  | '-' :: 'e' :: stat => .execHere (String.ofList stat)
  | '-' :: _ => .unknown
  | _ => .script

def withScript (o : Options) (script : String) (args : List String) : Options :=
  { o with script := some script, scriptArgs := args }

/-- Read options, after those already read, until a script comes. -/
def parseFrom (o : Options) : List String → Except UsageFault Options
  | [] => .ok o
  | arg :: rest =>
    match Argument.ofString arg with
    | .endOfOptions =>
      match rest with
      | [] => .ok o
      | script :: args => .ok (o.withScript script args)
    | .stdin => .ok (o.withScript standardInput rest)
    | .list => parseFrom { o with list := o.list + 1 } rest
    | .parseOnly => parseFrom { o with parseOnly := true } rest
    | .strip => parseFrom { o with strip := true } rest
    | .version => parseFrom { o with version := true } rest
    | .exec =>
      match rest with
      | [] => .error (.needsArgument arg)
      | stat :: rest => parseFrom { o with exec := o.exec ++ [stat] } rest
    | .execHere stat => parseFrom { o with exec := o.exec ++ [stat] } rest
    | .output =>
      match rest with
      | [] => .error (.needsArgument arg)
      | file :: rest => parseFrom { o with output := some file } rest
    | .unknown => .error (.unknownOption arg)
    | .script => .ok (o.withScript arg rest)

def parse (args : List String) : Except UsageFault Options :=
  match parseFrom empty args with
  | .error f => .error f
  | .ok o => if o.output.isSome ∧ o.script.isNone then .error .outputWithoutScript else .ok o

/-! ## 2. What is to be done -/

def compileOnly (o : Options) : Bool := 0 < o.list || o.parseOnly || o.output.isSome

def versionOnly (o : Options) : Bool := o.version && o.script.isNone && o.exec.isEmpty

def withDefaultScript (o : Options) : Options :=
  if o.script.isNone ∧ o.exec.isEmpty then { o with script := some standardInput } else o

/-! ## 3. The arguments as a table -/

def enterArgs (t : Table) (i : Int) : List String → Table
  | [] => t
  | arg :: rest => enterArgs (t.setInt (Int64.ofInt i) (.ofString arg)) (i + 1) rest

def scriptPlace (o : Options) (argv : List String) : Nat := argv.length - o.scriptArgs.length - 1

/-- All arguments as a table: the script is at 0, its arguments from 1 on, what is before it at
    negative places. -/
def argTable (o : Options) (argv : List String) : Table :=
  enterArgs .empty (-(o.scriptPlace argv : Int)) argv

end Options

end LuaMachine
