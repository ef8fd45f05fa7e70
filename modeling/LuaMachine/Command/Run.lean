/-
  RUNNING A COMMAND: statements and the script are compiled and listed, or run one after another on one
  machine until one fails.
-/
import LuaMachine.Code.Listing
import LuaMachine.Command.Options
import LuaMachine.Command.Source
import LuaMachine.Machine.Run

namespace LuaMachine

inductive Input where
  | nothing
  | stdin
  | file (path : String)
deriving DecidableEq

/-- What a command does to the outside. -/
structure Report where
  exitCode : UInt32
  stdout : Bytes
  stderr : String
  /-- A file to write at the end. -/
  output : Option (String × Bytes)
deriving DecidableEq

namespace Report

def complaint (text : String) : String := Options.program ++ ": " ++ text ++ "\n"

def failed (printed : Bytes) (text : String) : Report := ⟨1, printed, complaint text, none⟩

def done (printed : Bytes) (output : Option (String × Bytes)) : Report := ⟨0, printed, "", output⟩

def broken (printed : Bytes) : Report := ⟨101, printed, "", none⟩

def ofUsage (f : UsageFault) : Report := ⟨1, [], complaint f.text ++ Options.usage ++ "\n", none⟩

def unwritten (r : Report) (path : String) (f : FileFault) : Report :=
  failed r.stdout ("cannot write " ++ path ++ ": " ++ f.text)

end Report

namespace Options

def input (o : Options) : Input :=
  match o.withDefaultScript.script with
  | none => .nothing
  | some path =>
    if o.versionOnly then .nothing else if path = standardInput then .stdin else .file path

/-- The script's chunk, once it is read. -/
def scriptSource? (o : Options) (data : Except FileFault Bytes) : Except String (Option Source) :=
  match o.input with
  | .nothing => .ok none
  | .stdin =>
    match data with
    | .ok s => .ok (some (.ofStdin s))
    | .error f => .error ("cannot read stdin: " ++ f.text)
  | .file path =>
    match data with
    | .ok s => .ok (some (.ofFile path s))
    | .error f => .error ("cannot open " ++ path ++ ": " ++ f.text)

/-! ## 1. Compiling -/

/-- Compile chunks one after another and list them, if asked. -/
def compileAll (o : Options) (printed : Bytes) : List Source → Report
  | [] => .done printed none
  | s :: rest =>
    match s.proto with
    | .error f => .failed printed f.message
    | .ok p =>
      let printed := if 0 < o.list then printed ++ Bytes.ofString (p.listing (1 < o.list)) else printed
      match o.output with
      | none => compileAll o printed rest
      | some path => .done printed (some (path, Chunk.ofProto p o.strip))

def compiledSources (o : Options) (script : Option Source) : List Source :=
  let stats := if o.output.isSome then [] else o.exec.map Source.ofArgument
  stats ++ script.toList

/-! ## 2. Running -/

def jobs (o : Options) (script : Option Source) : List (Source × List String) :=
  o.exec.map (fun stat => (Source.ofArgument stat, [])) ++
    script.toList.map fun s => (s, o.scriptArgs)

def printedAfter (printed : Bytes) (m : Machine) : Bytes := printed ++ m.printed.reverse.flatten

/-- Run chunks one after another. -/
def runAll (fuel : Nat) (printed : Bytes) (m : Machine) : List (Source × List String) → Report
  | [] => .done (printedAfter printed m) none
  | (s, args) :: rest =>
    match m.load s.data s.name none with
    | (m, .error f) => .failed (printedAfter printed m) f.message
    | (m, .ok f) =>
      match m.call fuel f (args.map Value.ofString) (some 0) with
      | (m, .results _) => runAll fuel printed m rest
      | (m, .failed f) => .failed (printedAfter printed m) f.message
      | (m, _) => .broken (printedAfter printed m)

def machine (o : Options) (argv : List String) : Machine :=
  let m := Machine.new .standard
  if o.script.isSome then
    { m with tables := m.tables.push (o.argTable argv) }.setGlobal "arg" (.table m.tables.size)
  else m

/-! ## 3. The command -/

/-- Run a command with all its arguments, the program's name included, and what `input` asked
    for. -/
def run (o : Options) (argv : List String) (data : Except FileFault Bytes) (fuel : Nat) : Report :=
  let printed := if o.version then Bytes.ofString (versionText ++ "\n") else []
  if o.versionOnly then .done printed none
  else
    match o.scriptSource? data with
    | .error text => .failed printed text
    | .ok script =>
      let o := o.withDefaultScript
      if o.compileOnly then o.compileAll printed (o.compiledSources script)
      else runAll fuel printed (o.machine argv) (o.jobs script)

end Options

namespace Command

/-- Run the command of some arguments, the program's name included, on a disk: its report and the
    disk after it. -/
def run (argv : List String) (stdin : Bytes) (d : Disk) (fuel : Nat) : Report × Disk :=
  match Options.parse argv.tail with
  | .error f => (.ofUsage f, d)
  | .ok o =>
    let data :=
      match o.input with
      | .nothing => .ok []
      | .stdin => .ok stdin
      | .file path => d.read path
    let r := o.run argv data fuel
    match r.output with
    | none => (r, d)
    | some (path, s) =>
      match d.write path s with
      | .ok d => (r, d)
      | .error f => (r.unwritten path f, d)

end Command

end LuaMachine
