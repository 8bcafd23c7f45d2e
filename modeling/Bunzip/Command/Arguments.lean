import Bunzip.Command.Options

/-!
# Arguments

The words of a command line are flags and files, in any order. A word with one hyphen holds a flag for
each of its letters, a word with two hyphens the name of one flag. A single hyphen is a file, and so
is everything after a word of two hyphens alone.

The first word that cannot be understood is reported, and so are requests for help or the version at
the place where they stand. Only when all words have been understood does it matter that some flags
may not be repeated.
-/

namespace Bunzip

/-- The flags. -/
inductive Flag where
  | stdout
  | test
  | force
  | keep
  | quiet
  | verbose
  | strict
  | help
  | version
  deriving DecidableEq, Repr

namespace Flag

/-- The flag with the given letter. -/
def ofLetter? : Char → Option Flag
  | 'c' => some stdout
  | 't' => some test
  | 'f' => some force
  | 'k' => some keep
  | 'q' => some quiet
  | 'v' => some verbose
  | 'h' => some help
  | 'V' => some version
  | _ => none

/-- The flag with the given name. -/
def ofName? : String → Option Flag
  | "stdout" => some stdout
  | "test" => some test
  | "force" => some force
  | "keep" => some keep
  | "quiet" => some quiet
  | "verbose" => some verbose
  | "strict" => some strict
  | "help" => some help
  | "version" => some version
  | _ => none

/-- Whether a flag may be given more than once. -/
def repeatable : Flag → Bool
  | quiet | verbose => true
  | _ => false

end Flag

/-- Why a command line does not lead to options. -/
inductive Refusal where
  /-- There is no such flag. -/
  | unknownArgument
  /-- A flag was given a value. -/
  | tooManyValues
  /-- A flag was given twice that may be given once. -/
  | unexpectedMultipleUsage
  /-- Help was asked for. -/
  | displayHelp
  /-- The version was asked for. -/
  | displayVersion
  deriving DecidableEq, Repr

namespace Refusal

/-- The name of a refusal. -/
def name : Refusal → String
  | unknownArgument => "UnknownArgument"
  | tooManyValues => "TooManyValues"
  | unexpectedMultipleUsage => "UnexpectedMultipleUsage"
  | displayHelp => "DisplayHelp"
  | displayVersion => "DisplayVersion"

/-- The exit status: asking for help or the version is no failure. -/
def exitStatus : Refusal → Nat
  | displayHelp | displayVersion => 0
  | _ => 1

end Refusal

/-- The flags and files of a command line, in the order given. -/
structure Arguments where
  flags : List Flag
  files : List String
  deriving DecidableEq, Repr

namespace Arguments

/-- Notes a flag, unless it asks for help or the version. -/
def addFlag (arguments : Arguments) : Option Flag → Except Refusal Arguments
  | none => .error .unknownArgument
  | some .help => .error .displayHelp
  | some .version => .error .displayVersion
  | some flag => .ok { arguments with flags := arguments.flags ++ [flag] }

/-- Notes the flags of a word with one hyphen. -/
def addLetters : List Char → Arguments → Except Refusal Arguments
  | [], arguments => .ok arguments
  | letter :: letters, arguments =>
    match arguments.addFlag (Flag.ofLetter? letter) with
    | .error refusal => .error refusal
    | .ok arguments => addLetters letters arguments

/-- Notes the flag of a word with two hyphens; flags do not take values. -/
def addName (word : List Char) (arguments : Arguments) : Except Refusal Arguments :=
  match Flag.ofName? (String.ofList (word.takeWhile (· ≠ '='))) with
  | none => .error .unknownArgument
  | some flag => if word.contains '=' then .error .tooManyValues else arguments.addFlag flag

/-- Notes the words from the given ones on. -/
def addWords : List String → Arguments → Except Refusal Arguments
  | [], arguments => .ok arguments
  | word :: words, arguments =>
    match word.toList with
    | ['-', '-'] => .ok { arguments with files := arguments.files ++ words }
    | '-' :: '-' :: name =>
      match addName name arguments with
      | .error refusal => .error refusal
      | .ok arguments => addWords words arguments
    | '-' :: letter :: letters =>
      match addLetters (letter :: letters) arguments with
      | .error refusal => .error refusal
      | .ok arguments => addWords words arguments
    | _ => addWords words { arguments with files := arguments.files ++ [word] }

/-- Whether a flag is given twice that may be given once. -/
def repeats (flags : List Flag) : Bool :=
  flags.any fun flag => !flag.repeatable && 1 < flags.count flag

/-- The options that the arguments amount to. -/
def options (arguments : Arguments) : Options where
  files := arguments.files
  force := arguments.flags.contains .force
  keep := arguments.flags.contains .keep
  mode := if arguments.flags.contains .test then .test else .unzip
  output := if arguments.flags.contains .stdout then .stdout else .file
  strict := arguments.flags.contains .strict
  verbosity := .ofCounts (arguments.flags.count .quiet) (arguments.flags.count .verbose)

end Arguments

/-- The options of a command line. -/
def Options.ofWords (words : List String) : Except Refusal Options :=
  match Arguments.addWords words ⟨[], []⟩ with
  | .error refusal => .error refusal
  | .ok arguments =>
    if Arguments.repeats arguments.flags then .error .unexpectedMultipleUsage
    else .ok arguments.options

end Bunzip
