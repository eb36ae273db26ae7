import Preproc.CommandLine.Program
import Std.Time

set_option autoImplicit false

/-! # The executable

The outer layer of the program: it looks at files, runs the program on what it found, and does what
the program says. Which files are needed is known only from a run, so a run is repeated with the
entries that the last one missed, until it misses none. -/

namespace Preproc.Main

/-- The version that the program shows. -/
def version : String :=
  "v0.1.0"

/-- The bytes of a string. -/
def bytesOf (s : String) : Bytes :=
  s.toUTF8.data.toList

/-- Why a path cannot be used, from what the system said. -/
def reason : IO.Error → Files.Error
  | .permissionDenied .. => .denied
  | .inappropriateType .. => .notDirectory
  | _ => .missing

/-- What the file system holds at a path. -/
def lookAt (path : Bytes) : IO Files.Entry := do
  match String.fromUTF8? ⟨path.toArray⟩ with
  | none | some "" => return .absent .missing
  | some name =>
    try
      let place := (← IO.currentDir) / name
      if (← place.metadata).type == .dir then
        let names ← (← place.readDir).toList.mapM fun found => do
          return (bytesOf found.fileName, (← found.path.symlinkMetadata).type == .dir)
        return .directory (names.mergeSort fun a b => !bytesLt b.1 a.1)
      else
        return .file (← IO.FS.readBinFile place).data.toList
    catch e => return .absent (reason e)

/-- Run the program with the entries that are known, and look at those it missed. -/
partial def settle (env : CommandLine.Environment) (arguments : List Bytes)
    (known : List (Bytes × Files.Entry)) : IO CommandLine.Outcome := do
  let files : Files.View := ⟨fun path => (known.lookup path).getD (.absent .missing)⟩
  let out := CommandLine.run { env with files } arguments
  let missed := (out.lookedAt.filter fun path => (known.lookup path).isNone).eraseDups
  if missed.isEmpty then return out
  let found ← missed.mapM fun path => do return (path, ← lookAt path)
  settle env arguments (found ++ known)

/-- What the program is given; the standard input is read only when an argument asks for it. -/
def environment (arguments : List String) : IO CommandLine.Environment := do
  let stdin ← if arguments.contains "-" then (← IO.getStdin).readBinToEnd else pure .empty
  let plain := (← IO.getEnv "NO_COLOR").getD "" ≠ ""
  return {
    version
    files := ⟨fun _ => .absent .missing⟩
    stdin := stdin.data.toList
    terminal := !plain && (← (← IO.getStderr).isTty)
    time := bytesOf ((← Std.Time.DateTime.now).format "uuuu-MM-dd'T'HH:mm:ssXXX") }

/-- Write bytes to a stream. -/
def put (stream : IO.FS.Stream) (text : Bytes) : IO Unit := do
  stream.write ⟨text.toArray⟩
  stream.flush

end Preproc.Main

/-- Run the program on the arguments of the command line. -/
def main (arguments : List String) : IO UInt32 := do
  let env ← Preproc.Main.environment arguments
  let out ← Preproc.Main.settle env (arguments.map Preproc.Main.bytesOf) []
  if let some (path, text) := out.written then
    let place := (← IO.currentDir) / (String.fromUTF8? ⟨path.toArray⟩).getD ""
    IO.FS.writeBinFile place ⟨text.toArray⟩
  Preproc.Main.put (← IO.getStdout) out.stdout
  Preproc.Main.put (← IO.getStderr) out.stderr
  return out.status.toUInt32
