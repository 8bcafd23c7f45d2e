/-!
# Names of outputs

The output of a file has its name without the suffix. If there is no suffix, or nothing but a
directory would be left, it has the name with a suffix of its own.
-/

namespace Bunzip

/-- The suffix of compressed files. -/
def suffix : List Char := ['.', 'b', 'z', '2']

/-- The suffix of outputs whose input has no suffix to take away. -/
def fallbackSuffix : List Char := ['.', 'o', 'u', 't']

/-- A name without the suffix of compressed files. -/
def stem? (name : List Char) : Option (List Char) :=
  if suffix.isSuffixOf name then some (name.take (name.length - suffix.length)) else none

/-- The output name in terms of characters. -/
def outputChars (name : List Char) : List Char :=
  match stem? name with
  | none => name ++ fallbackSuffix
  | some stem =>
    if stem = [] ∨ stem.getLast? = some '/' then name ++ fallbackSuffix else stem

/-- The name of the file that the bytes of a file are decoded to. -/
def outputName (name : String) : String := String.ofList (outputChars name.toList)

end Bunzip
