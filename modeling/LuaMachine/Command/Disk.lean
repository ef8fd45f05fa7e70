/-
  FILES BY PATH. A path is walked name by name, from the current folder or from the root, and leads to a
  file, to a folder or to nothing.
-/
import LuaMachine.Text.Utf8

namespace LuaMachine

/-- Why a file cannot be read or written. -/
inductive FileFault where
  | missing
  | notFolder
  | isFolder
  | nameTooLong
  | zeroInName
  | other (cause : String)
deriving DecidableEq

namespace FileFault

def text : FileFault → String
  | missing => "No such file or directory (os error 2)"
  | notFolder => "Not a directory (os error 20)"
  | isFolder => "Is a directory (os error 21)"
  | nameTooLong => "File name too long (os error 36)"
  | zeroInName => "file name contained an unexpected NUL byte"
  | other cause => cause

end FileFault

/-! ## 1. Places -/

inductive Start where
  | root
  | above (levels : Nat)
deriving DecidableEq

structure Location where
  start : Start
  names : List String
deriving DecidableEq

namespace Location

def here : Location := ⟨.above 0, []⟩

def parent : Location → Location
  | ⟨start, _ :: names⟩ => ⟨start, names⟩
  | ⟨.above levels, []⟩ => ⟨.above (levels + 1), []⟩
  | ⟨.root, []⟩ => ⟨.root, []⟩

def go (p : Location) (name : String) : Location :=
  if name = "." then p else if name = ".." then p.parent else ⟨p.start, name :: p.names⟩

def isBelow (p above : Location) : Bool :=
  p.start = above.start && above.names.length < p.names.length && above.names.isSuffixOf p.names

end Location

/-! ## 2. Paths -/

structure Path where
  start : Location
  names : List String
  endsInSlash : Bool
deriving DecidableEq

namespace Path

/-- The pieces between slashes. -/
def pieces : List Char → List (List Char)
  | [] => [[]]
  | c :: rest =>
    if c = '/' then [] :: pieces rest
    else
      match pieces rest with
      | [] => [[c]]
      | piece :: more => (c :: piece) :: more

def namesOf (cs : List Char) : List String :=
  ((pieces cs).filter fun piece => !piece.isEmpty).map String.ofList

def startOf (cs : List Char) : Location := if cs.head? = some '/' then ⟨.root, []⟩ else .here

def sizeLimit : Nat := 4096

def ofString (s : String) : Except FileFault Path :=
  let cs := s.toList
  if cs.any fun c => c.toNat == 0 then .error .zeroInName
  else if cs.isEmpty then .error .missing
  else if sizeLimit ≤ s.utf8ByteSize then .error .nameTooLong
  else .ok ⟨startOf cs, namesOf cs, cs.getLast? = some '/'⟩

end Path

/-! ## 3. The disk -/

/-- Files by their location. There are also the folders that files lie in, the current folder with
    those around it, and what every system has. -/
structure Disk where
  files : List (Location × Bytes)
deriving DecidableEq

inductive Node where
  | folder
  | file (data : Bytes)
deriving DecidableEq

namespace Disk

def sink : Location := ⟨.root, ["null", "dev"]⟩

def systemFolders : List String :=
  ["bin", "dev", "etc", "home", "lib", "proc", "root", "sys", "tmp", "usr", "var"]

def ofFiles (files : List (String × Bytes)) : Disk :=
  ⟨files.map fun (name, data) => ((Path.namesOf name.toList).foldl Location.go .here, data)⟩

def isFolder (d : Disk) (p : Location) : Bool :=
  p.names.isEmpty || (p.start = .root && systemFolders.any fun name => p.names = [name]) ||
    d.files.any fun f => f.1.isBelow p

def node? (d : Disk) (p : Location) : Option Node :=
  if p = sink then some (.file [])
  else
    match d.files.lookup p with
    | some data => some (.file data)
    | none => if d.isFolder p then some .folder else none

def nameLimit : Nat := 255

def inFolder (d : Disk) (p : Location) : Except FileFault Unit :=
  match d.node? p with
  | some .folder => .ok ()
  | some (.file _) => .error .notFolder
  | none => .error .missing

def enter (d : Disk) (p : Location) (name : String) : Except FileFault Location :=
  match d.inFolder p with
  | .error f => .error f
  | .ok _ => if nameLimit < name.utf8ByteSize then .error .nameTooLong else .ok (p.go name)

def walk (d : Disk) : Location → List String → Except FileFault Location
  | p, [] => .ok p
  | p, name :: rest =>
    match d.enter p name with
    | .error f => .error f
    | .ok q => walk d q rest

/-- The contents of the file at a path. A slash at the end asks for a folder. -/
def read (d : Disk) (path : String) : Except FileFault Bytes := do
  let path ← Path.ofString path
  let p ← d.walk path.start path.names
  match d.node? p with
  | none => .error .missing
  | some .folder => .error .isFolder
  | some (.file data) => if path.endsInSlash then .error .notFolder else .ok data

def put (d : Disk) (p : Location) (data : Bytes) : Disk :=
  if p = sink then d else ⟨(p, data) :: d.files.filter fun f => f.1 ≠ p⟩

def isDots (name : String) : Bool := name = "." || name = ".."

/-- The disk after a file is written. Its folder must be there; a name that ends in a slash, or
    stands for a folder by itself, cannot be that of a file. -/
def write (d : Disk) (path : String) (data : Bytes) : Except FileFault Disk := do
  let path ← Path.ofString path
  match path.names.getLast? with
  | none => .error .isFolder
  | some name =>
    let folder ← d.walk path.start path.names.dropLast
    d.inFolder folder
    if isDots name || path.endsInSlash then .error .isFolder
    else
      let p ← d.enter folder name
      match d.node? p with
      | some .folder => .error .isFolder
      | _ => .ok (d.put p data)

end Disk

end LuaMachine
