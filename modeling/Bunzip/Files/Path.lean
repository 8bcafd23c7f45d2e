import Bunzip.Error

/-!
# Paths

A path is a text of names between slashes. It is followed name by name, from the directory it starts
in, which is the working directory or, with a slash in front, the root of the file system.
-/

namespace Bunzip

namespace IoError

/-- Nothing of that name exists. -/
def noSuchFile : IoError := ⟨.notFound, "No such file or directory (os error 2)"⟩

/-- Something of that name exists already. -/
def fileExists : IoError := ⟨.alreadyExists, "File exists (os error 17)"⟩

/-- A file was taken for a directory. -/
def notDirectory : IoError := ⟨.notADirectory, "Not a directory (os error 20)"⟩

/-- A directory was taken for a file. -/
def isDirectory : IoError := ⟨.isADirectory, "Is a directory (os error 21)"⟩

/-- A name or a path is longer than the file system allows. -/
def nameTooLong : IoError := ⟨.invalidFilename, "File name too long (os error 36)"⟩

/-- No path has a null character. -/
def nullInName : IoError := ⟨.invalidInput, "file name contained an unexpected NUL byte"⟩

end IoError

namespace Files

/-- The longest name, in bytes. -/
def nameLimit : Nat := 255

/-- Paths have to be shorter than this, in bytes. -/
def pathLimit : Nat := 4096

/-- The texts between slashes, empty ones included. -/
def splitSlashes : List Char → List (List Char)
  | [] => [[]]
  | c :: rest =>
    if c = '/' then [] :: splitSlashes rest
    else match splitSlashes rest with
      | [] => [[c]]
      | first :: others => (c :: first) :: others

/-- A path taken apart. -/
structure Path where
  /-- Whether it starts at the root of the file system. -/
  absolute : Bool
  /-- The names, without empty ones. -/
  names : List String
  /-- Whether a slash comes last, so that only a directory can be meant. -/
  slash : Bool
  deriving DecidableEq, Repr

/-- Takes a path apart; some texts are no path at all. -/
def Path.ofText (text : String) : Except IoError Path :=
  let chars := text.toList
  if chars.contains '\x00' then .error .nullInName
  else if chars = [] then .error .noSuchFile
  else if pathLimit ≤ text.utf8ByteSize then .error .nameTooLong
  else .ok {
    absolute := chars.head? == some '/'
    names := ((splitSlashes chars).filter (· ≠ [])).map String.ofList
    slash := chars.getLast? == some '/' }

end Files

end Bunzip
