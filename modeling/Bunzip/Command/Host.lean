import Bunzip.Note
import Bunzip.Source

/-!
# Hosts

What the command asks of the system it runs on. The operating system is one host; a tree of files
kept as a value is another, and the command is the same on both.
-/

namespace Bunzip

/-- A system of files and standard streams. -/
class Host (m : Type → Type) where
  /-- Opens a file to read it. -/
  openFile (path : String) : m (Except IoError Source)
  /-- Creates an empty file, or empties the one that exists if `overwrite`. -/
  createFile (path : String) (overwrite : Bool) : m (Except IoError Unit)
  /-- Writes what a created file is to hold. -/
  fillFile (path : String) (data : ByteArray) : m (Except IoError Unit)
  /-- Removes a file. -/
  removeFile (path : String) : m (Except IoError Unit)
  /--
  Takes standard input, as a whole: who asks again finds nothing. What a decoder may leave unread of
  it is not given back.
  -/
  input : m Source
  /-- Writes to standard output. -/
  print (data : ByteArray) : m (Except IoError Unit)
  /-- Shows a note to the user. -/
  tell (note : Note) : m Unit

end Bunzip
