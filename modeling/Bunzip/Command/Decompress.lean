import Bunzip.Command.Arguments
import Bunzip.Command.Host
import Bunzip.Command.OutputName
import Bunzip.Stream.Delivery

/-!
# Decompressing files

The files of a command line are taken in order, up to the first that fails. A file is decoded into a
new file beside it and then removed, or into standard output, or only tested; without any file,
standard input is decoded into standard output. An output that cannot be finished is removed again,
and its input stays.

The command ends with status 0 if all went well, with 2 if the compressed data is to blame for a
failure and with 1 if something else is.
-/

namespace Bunzip

variable {m : Type → Type} [Monad m] [Host m]

/-- Shows those notes that the user wants to see. -/
def tellAll (options : Options) : List Note → m Unit
  | [] => pure ()
  | note :: notes => do
    if note.shownAt options.verbosity.limit then Host.tell note
    tellAll options notes

/-- What is noted of an input that is finished. -/
def finishedNote (options : Options) (name : String) (summary : StreamSummary) : Note :=
  match options.mode with
  | .test => .tested name
  | .unzip => .decoded name summary.blocks.length summary.outputLength

/-- Decodes a source, shows the notes, and gives the result and all bytes up to a failure. -/
def decodeAndTell (options : Options) (source : Source) :
    m (Except DecodeError StreamSummary × ByteArray) := do
  let outcome := decodeSource source options.strict .unbounded
  tellAll options outcome.notes
  return (outcome.result, outcome.state.taken)

/-- Decodes a source only to see whether that succeeds. -/
def testSource (options : Options) (source : Source) : m (Except DecodeError StreamSummary) := do
  return (← decodeAndTell options source).1

/--
Decodes a source into standard output, which also gets the bytes before a failure. All that can be
decoded has been before the first byte is written. So where standard output fails as well, a failure
of the data is the one reported, even if it comes behind the place where the output failed.
-/
def printSource (options : Options) (source : Source) : m (Except DecodeError StreamSummary) := do
  let (result, bytes) ← decodeAndTell options source
  let printed ← Host.print bytes
  match result, printed with
  | .error reason, _ => return .error reason
  | .ok _, .error error => return .error (.io error)
  | .ok summary, .ok () => return .ok summary

/-- The failure to create an output, which is explained if a file is in the way. -/
def creationError (target : String) (error : IoError) : IoError :=
  if error.kind = .alreadyExists then
    ⟨error.kind, s!"output file {target} already exists (use -f)"⟩
  else error

/-- Removes an output that is not complete; the failure before that is the one that counts. -/
def discard (target : String) (reason : DecodeError) : m (Except DecodeError StreamSummary) := do
  let _ ← Host.removeFile target
  return .error reason

/--
Decodes a source into a new file, and removes the input it came from. All of it has been decoded
before the first byte is written. So a file that cannot be written to the end is only noticed when the
data is fine, and a failure of the data is the one reported, wherever it comes.
-/
def unzipSource (options : Options) (name : String) (source : Source) :
    m (Except DecodeError StreamSummary) := do
  let target := outputName name
  match ← Host.createFile target options.force with
  | .error error => return .error (.io (creationError target error))
  | .ok () =>
    match ← decodeAndTell options source with
    | (.error reason, _) => discard target reason
    | (.ok summary, bytes) =>
      match ← Host.fillFile target bytes with
      | .error error => discard target (.io error)
      | .ok () =>
        if options.keep then return .ok summary
        else match ← Host.removeFile name with
          | .error error => return .error (.io error)
          | .ok () => return .ok summary

/-- Does what the options ask for with standard input. -/
def processInput (options : Options) : m (Except DecodeError StreamSummary) := do
  let source ← Host.input
  match options.mode with
  | .test => testSource options source
  | .unzip => printSource options source

/-- Does what the options ask for with one file. -/
def processFile (options : Options) (name : String) : m (Except DecodeError StreamSummary) := do
  match ← Host.openFile name with
  | .error error => return .error (.io error)
  | .ok source =>
    match options.mode, options.output with
    | .test, _ => testSource options source
    | .unzip, .stdout => printSource options source
    | .unzip, .file => unzipSource options name source

/-- Notes how an input ended, under the name it is known by. -/
def conclude (options : Options) (name : String) :
    Except DecodeError StreamSummary → m (Except DecodeError Unit)
  | .ok summary => do
    tellAll options [finishedNote options name summary]
    return .ok ()
  | .error reason => do
    tellAll options [.failed name reason]
    return .error reason

/-- Does what the options ask for with the files, up to the first that fails. -/
def processFiles (options : Options) : List String → m (Except DecodeError Unit)
  | [] => return .ok ()
  | name :: names => do
    match ← conclude options name (← processFile options name) with
    | .error reason => return .error reason
    | .ok () => processFiles options names

/-- The name under which standard input is known. -/
def inputName : String := "(stdin)"

/-- Does what the options ask for. -/
def decompress (options : Options) : m (Except DecodeError Unit) := do
  match options.files with
  | [] => conclude options inputName (← processInput options)
  | files => processFiles options files

/-- The exit status that a result leads to. -/
def exitStatus : Except DecodeError Unit → Nat
  | .ok () => 0
  | .error reason => if reason.isDataError then 2 else 1

/-- What is printed when the version is asked for. -/
def versionText : String := "bzcat 0.1.0\n"

/--
Runs a command line that a parser has turned into options, or refused, and gives the exit status. A
parser is free in what it accepts: all that matters here is what it makes of the words.
-/
def runCommandWith (parse : List String → Except Refusal Options) (words : List String) : m Nat := do
  match parse words with
  | .error refusal =>
    if refusal = .displayVersion then
      let _ ← Host.print versionText.toUTF8
    return refusal.exitStatus
  | .ok options => return exitStatus (← decompress options)

/-- Runs a command line and gives the exit status. -/
def runCommand (words : List String) : m Nat := runCommandWith Options.ofWords words

end Bunzip
