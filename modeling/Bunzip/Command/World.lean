import Bunzip.Command.Host
import Bunzip.Files.Tree

/-!
# A host as a value

A world holds all that a command can see and change: a tree of files, standard input, what was
printed and what was told. Running a command in a world is a function, so its effects can be reasoned
about.
-/

namespace Bunzip

/-- All that a command can see and change. -/
structure World where
  files : Files.Tree
  /-- Standard input, as far as it has not been taken. -/
  input : Source
  /-- Everything printed so far. -/
  printed : ByteArray
  /-- Everything told so far. -/
  told : Array Note
  deriving DecidableEq

namespace World

/-- Replaces the files of a world by those of a result. -/
def update (world : World) : Except IoError Files.Tree → Except IoError Unit × World
  | .error error => (.error error, world)
  | .ok files => (.ok (), { world with files })

instance : Host (StateM World) where
  openFile path := fun world => (world.files.openFile path, world)
  createFile path overwrite := fun world => world.update (world.files.createFile path overwrite)
  fillFile path data := fun world => world.update (world.files.fillFile path data)
  removeFile path := fun world => world.update (world.files.removeFile path)
  input := fun world => (world.input, { world with input := ⟨[]⟩ })
  print data := fun world => (.ok (), { world with printed := world.printed ++ data })
  tell note := fun world => ((), { world with told := world.told.push note })

end World

end Bunzip
