/-
  WHERE CHUNKS COME FROM: files, the standard input, and arguments.
-/
import LuaMachine.Command.Disk
import LuaMachine.Machine.Library

namespace LuaMachine

structure Source where
  data : Bytes
  name : String
deriving DecidableEq

namespace Source

def ofArgument (stat : String) : Source := ⟨Bytes.ofString stat, "=(command line)"⟩

/-- A precompiled chunk may have a line in front that begins with `#`. Source text keeps such a
    line, so that lines are counted with it. -/
def skipComment (data : Bytes) : Bytes :=
  match data with
  | 0x23 :: _ =>
    match data.dropWhile (· ≠ 0x0A) with
    | _ :: rest => if Exec.isPrecompiled rest then rest else data
    | [] => data
  | _ => data

def ofStdin (data : Bytes) : Source := ⟨skipComment data, "=stdin"⟩

def ofFile (path : String) (data : Bytes) : Source := ⟨skipComment data, "@" ++ path⟩

def proto (s : Source) : Except Failure Proto := Exec.protoOf s.data s.name

end Source

def compileFile (path : String) (contents : Except FileFault Bytes) : Except CompileError Proto :=
  let name := "@" ++ path
  match contents with
  | .error f => .error ⟨.cannotOpen path f.text, ChunkName.display name, 0, none⟩
  | .ok data => compile data name

end LuaMachine
