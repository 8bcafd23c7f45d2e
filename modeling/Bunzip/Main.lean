import Bunzip.Command.Decompress

/-!
# The command

Runs a command line on the operating system. Notes go to standard error, because standard output may
be carrying decoded bytes.
-/

namespace Bunzip

/-- A failure of the operating system in the terms of this library. -/
def IoError.ofSystem (error : IO.Error) : IoError :=
  match error with
  | .noFileOrDirectory _ code details => ⟨.notFound, s!"{details} (os error {code})"⟩
  | .alreadyExists _ code details => ⟨.alreadyExists, s!"{details} (os error {code})"⟩
  | .permissionDenied _ code details => ⟨.permissionDenied, s!"{details} (os error {code})"⟩
  | .inappropriateType _ code details => ⟨.notADirectory, s!"{details} (os error {code})"⟩
  | .interrupted _ code details => ⟨.interrupted, s!"{details} (os error {code})"⟩
  | .resourceVanished code details => ⟨.brokenPipe, s!"{details} (os error {code})"⟩
  | other => ⟨.other, toString other⟩

/-- The result of an action of the operating system. -/
def attempt {α : Type} (action : IO α) : IO (Except IoError α) := do
  match ← action.toBaseIO with
  | .ok value => return .ok value
  | .error error => return .error (.ofSystem error)

/-- Everything that is read up to the end or a failure. -/
partial def readStream (stream : IO.FS.Stream) (deliveries : Array Delivery) : IO Source := do
  match ← attempt (stream.read (USize.ofNat Source.pieceLimit)) with
  | .error error => return ⟨(deliveries.push (.fault error)).toList⟩
  | .ok bytes =>
    if bytes.isEmpty then return ⟨deliveries.toList⟩
    else readStream stream (deliveries.push (.bytes bytes))

instance : Host IO where
  openFile path := do
    match ← attempt (IO.FS.Handle.mk path .read) with
    | .error error => return .error error
    | .ok handle => return .ok (← readStream (.ofHandle handle) #[])
  createFile path overwrite := do
    match ← attempt (IO.FS.Handle.mk path (if overwrite then .write else .writeNew)) with
    | .error error => return .error error
    | .ok _ => return .ok ()
  fillFile path data := attempt (IO.FS.writeBinFile path data)
  removeFile path := attempt (IO.FS.removeFile path)
  input := do readStream (← IO.getStdin) #[]
  print data := attempt do
    let stdout ← IO.getStdout
    stdout.write data
    stdout.flush
  tell note := do
    let shown ← attempt (IO.eprintln s!"[{note.level.name}] {note.text}")
    match shown with
    | _ => return ()

/-- What is said to a user whose command line was refused. -/
def usage : String :=
  "Usage: bzcat [-c] [-t] [-f] [-k] [-q] [-v] [--strict] [--help] [--version] [FILES]..."

end Bunzip

/-- Runs the command line. -/
def main (words : List String) : IO UInt32 := do
  match Bunzip.Options.ofWords words with
  | .error .displayVersion => pure ()
  | .error _ => IO.eprintln Bunzip.usage
  | .ok _ => pure ()
  return (← Bunzip.runCommand words : Nat).toUInt32
