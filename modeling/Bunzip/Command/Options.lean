import Bunzip.Note

/-!
# Options

What the user asked for: what to do with each file, where the result goes, and how much to tell.
Asking to be quiet wins over asking to be told more, and asking twice silences errors as well.
-/

namespace Bunzip

/-- What is done with a file. -/
inductive Mode where
  | unzip
  | test
  deriving DecidableEq, Repr

/-- Where decoded bytes go. -/
inductive Destination where
  /-- A file of its own beside each input. -/
  | file
  | stdout
  deriving DecidableEq, Repr

/-- How much the user wants to be told. -/
inductive Verbosity where
  | quiet
  | errors
  | warnings
  | info
  | debug
  | trace
  deriving DecidableEq, Repr

namespace Verbosity

/-- The least grave notes shown; none if there are to be no notes. -/
def limit : Verbosity → Option Level
  | quiet => none
  | errors => some .error
  | warnings => some .warn
  | info => some .info
  | debug => some .debug
  | trace => some .trace

/-- The verbosity that so many requests for quiet and for more detail lead to. -/
def ofCounts (quiet verbose : Nat) : Verbosity :=
  match quiet, verbose with
  | 0, 0 => .warnings
  | 0, 1 => .info
  | 0, 2 => .debug
  | 0, _ => .trace
  | 1, _ => .errors
  | _, _ => .quiet

end Verbosity

/-- What the user asked for. -/
structure Options where
  /-- The files to decode, in order; standard input if there are none. -/
  files : List String
  /-- Whether existing files are overwritten. -/
  force : Bool
  /-- Whether inputs are kept. -/
  keep : Bool
  mode : Mode
  output : Destination
  /-- Whether a stream whose footer does not agree is refused. -/
  strict : Bool
  verbosity : Verbosity
  deriving DecidableEq, Repr

end Bunzip
