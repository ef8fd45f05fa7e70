/-
  THE PROGRAM: reads what the command needs, runs it, and writes what it reports.
-/
import LuaMachine.Command.Run

namespace LuaMachine

/-- A cause by the system's number for it, which may come negated in a word, and its text. -/
def FileFault.ofSystem (code : UInt32) (details : String) : FileFault :=
  let n := if code.toNat < 0x80000000 then code.toNat else 0x100000000 - code.toNat
  match n with
  | 2 => .missing
  | 20 => .notFolder
  | 21 => .isFolder
  | 36 => .nameTooLong
  | _ => .other (details ++ " (os error " ++ toString n ++ ")")

/-- The cause of a failed access to a file. -/
def FileFault.ofError : IO.Error → FileFault
  | .noFileOrDirectory _ code details => .ofSystem code details
  | .inappropriateType _ code details => .ofSystem code details
  | .invalidArgument _ code details => .ofSystem code details
  | .permissionDenied _ code details => .ofSystem code details
  | .resourceExhausted _ code details => .ofSystem code details
  | e => .other (toString e)

/-- All of a stream, after what was read before. -/
partial def readAll (h : IO.FS.Stream) (before : ByteArray) : IO ByteArray := do
  let piece ← h.read 65536
  if piece.isEmpty then return before else readAll h (before ++ piece)

/-- Read what a command needs. -/
def Input.fetch (i : Input) : IO (Except FileFault Bytes) := do
  try
    match i with
    | .nothing => return .ok []
    | .stdin => return .ok (← readAll (← IO.getStdin) .empty).toList
    | .file path => return .ok (← IO.FS.readBinFile path).toList
  catch e => return .error (.ofError e)

/-- Write the file of a report. -/
def Report.save (r : Report) : IO Report := do
  match r.output with
  | none => return r
  | some (path, data) =>
    try
      let h ← IO.FS.Handle.mk path .write
      h.write ⟨data.toArray⟩
      h.flush
      return r
    catch e => return r.unwritten path (.ofError e)

def steps : Nat := 1000000000000000000

def reportOf (args : List String) : IO Report := do
  match Options.parse args with
  | .error f => return .ofUsage f
  | .ok o => (o.run (Options.program :: args) (← o.input.fetch) steps).save

end LuaMachine

def main (args : List String) : IO UInt32 := do
  let r ← LuaMachine.reportOf args
  let out ← IO.getStdout
  out.write ⟨r.stdout.toArray⟩
  out.flush
  IO.eprint r.stderr
  return r.exitCode
