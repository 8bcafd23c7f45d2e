import Bunzip.Files.Path
import Bunzip.Source

/-!
# A tree of files

A working directory with files and directories below it, as one value. The operations are those of a
file system as far as they are needed here: opening a file to read it, creating one, filling it and
removing it, each with the failures that a file system would report.

A path can lead out of the working directory, to the directories above it or to the root. These exist,
and files can be created in them. A tree that knows where below the root the working directory lies
has its place there. One that does not know has the working directory as a base of its own, and it
cannot be found again from above.

A directory can be opened like a file; the failure comes when it is read.

There are no links and no permissions: a place holds a file of its own or a directory, and everyone
may read, create and remove.
-/

namespace Bunzip.Files

/-- What a name stands for. -/
inductive Node where
  | file (data : ByteArray)
  | directory
  deriving DecidableEq

/-- A directory that is always there. -/
inductive Base where
  /-- The directory so many levels above the working directory; at level 0, that one itself. -/
  | above (levels : Nat)
  /-- The root of the file system. -/
  | root
  deriving DecidableEq, Repr

/-- The directory above a base; above the root there is only the root. -/
def Base.parent : Base → Base
  | above levels => above (levels + 1)
  | root => root

/-- A place in the file system: the names that lead to it from a base. -/
structure Spot where
  base : Base
  names : List String
  deriving DecidableEq, Repr

namespace Spot

/-- The place that the names lead to from a spot. -/
def below (spot : Spot) (names : List String) : Spot := { spot with names := spot.names ++ names }

/-- The place of a name in the directory at a spot. -/
def child (spot : Spot) (name : String) : Spot := { spot with names := spot.names ++ [name] }

/-- The directory that a spot is in. -/
def parent (spot : Spot) : Spot :=
  if spot.names = [] then ⟨spot.base.parent, []⟩ else { spot with names := spot.names.dropLast }

end Spot

/--
The files and directories of a file system, by their places. There are no links, symbolic or hard, so
no two places share a file and no path leads through a file; and there are no permissions, so nothing
is refused for want of them.
-/
structure Tree where
  nodes : List (Spot × Node)
  /-- The working directory. -/
  home : Spot
  deriving DecidableEq

/-- What a path leads to: a directory without a name of its own, or a name in a directory. -/
inductive Target where
  | directory
  | entry (spot : Spot) (name : String) (slash : Bool)
  deriving DecidableEq

namespace Tree

/-- A tree without files, which does not know where its working directory lies. -/
def empty : Tree := ⟨[], ⟨.above 0, []⟩⟩

/-- What is at a spot. -/
def node? (tree : Tree) (spot : Spot) : Option Node :=
  if spot.names = [] then some .directory else tree.nodes.lookup spot

/-- The tree without what is at a spot. -/
def erase (tree : Tree) (spot : Spot) : Tree :=
  { tree with nodes := tree.nodes.filter fun entry => entry.1 ≠ spot }

/-- The tree with a node at a spot. -/
def put (tree : Tree) (spot : Spot) (node : Node) : Tree :=
  { tree with nodes := (spot, node) :: (tree.erase spot).nodes }

/-! ## Following paths -/

/-- What a name stands for in the directory at a spot. -/
def find (tree : Tree) (spot : Spot) (name : String) : Except IoError Node :=
  if nameLimit < name.utf8ByteSize then .error .nameTooLong
  else match tree.node? (spot.child name) with
    | none => .error .noSuchFile
    | some node => .ok node

/-- Goes from a spot to the directory of the given name. -/
def step (tree : Tree) (spot : Spot) (name : String) : Except IoError Spot :=
  if name = "." then .ok spot
  else if name = ".." then .ok spot.parent
  else match tree.find spot name with
    | .error error => .error error
    | .ok (.file _) => .error .notDirectory
    | .ok .directory => .ok (spot.child name)

/-- Follows names from a spot through directories, up to the last one. -/
def walk (tree : Tree) (spot : Spot) : List String → Except IoError (Spot × Option String)
  | [] => .ok (spot, none)
  | [name] => .ok (spot, some name)
  | name :: rest => match tree.step spot name with
    | .error error => .error error
    | .ok spot => walk tree spot rest

/-- What a path leads to. -/
def target (tree : Tree) (text : String) : Except IoError Target :=
  match Path.ofText text with
  | .error error => .error error
  | .ok path =>
    match tree.walk (if path.absolute then ⟨.root, []⟩ else tree.home) path.names with
    | .error error => .error error
    | .ok (_, none) => .ok .directory
    | .ok (spot, some name) =>
      if name = "." ∨ name = ".." then .ok .directory else .ok (.entry spot name path.slash)

/-! ## Operations -/

/-- Opens a file to read it. -/
def openFile (tree : Tree) (path : String) : Except IoError Source :=
  match tree.target path with
  | .error error => .error error
  | .ok .directory => .ok ⟨[.fault .isDirectory]⟩
  | .ok (.entry spot name slash) => match tree.find spot name with
    | .error error => .error error
    | .ok .directory => .ok ⟨[.fault .isDirectory]⟩
    | .ok (.file data) => if slash then .error .notDirectory else .ok (.ofBytes data)

/-- Creates an empty file; one that exists is emptied if `overwrite`, and in the way otherwise. -/
def createFile (tree : Tree) (path : String) (overwrite : Bool) : Except IoError Tree :=
  match tree.target path with
  | .error error => .error error
  | .ok .directory => .error (if overwrite then .isDirectory else .fileExists)
  | .ok (.entry spot name slash) =>
    if slash then .error .isDirectory
    else match tree.find spot name with
      | .ok .directory => .error (if overwrite then .isDirectory else .fileExists)
      | .ok (.file _) =>
        if overwrite then .ok (tree.put (spot.child name) (.file ByteArray.empty))
        else .error .fileExists
      | .error error =>
        if error = .noSuchFile then .ok (tree.put (spot.child name) (.file ByteArray.empty))
        else .error error

/-- Replaces what a file holds. -/
def fillFile (tree : Tree) (path : String) (data : ByteArray) : Except IoError Tree :=
  match tree.target path with
  | .error error => .error error
  | .ok .directory => .error .isDirectory
  | .ok (.entry spot name slash) => match tree.find spot name with
    | .error error => .error error
    | .ok .directory => .error .isDirectory
    | .ok (.file _) =>
      if slash then .error .notDirectory else .ok (tree.put (spot.child name) (.file data))

/-- Removes a file. -/
def removeFile (tree : Tree) (path : String) : Except IoError Tree :=
  match tree.target path with
  | .error error => .error error
  | .ok .directory => .error .isDirectory
  | .ok (.entry spot name slash) => match tree.find spot name with
    | .error error => .error error
    | .ok .directory => .error .isDirectory
    | .ok (.file _) => if slash then .error .notDirectory else .ok (tree.erase (spot.child name))

/-! ## Building trees -/

/-- The tree with the given directory and all directories between it and the working directory. -/
def withDirectory (tree : Tree) (names : List String) : Tree :=
  (List.range names.length).foldl (fun tree i =>
    let spot := tree.home.below (names.take (i + 1))
    match tree.node? spot with
    | some _ => tree
    | none => tree.put spot .directory) tree

/-- The tree with the given file and all directories between it and the working directory. -/
def withFile (tree : Tree) (names : List String) (data : ByteArray) : Tree :=
  (tree.withDirectory names.dropLast).put (tree.home.below names) (.file data)

end Tree

end Bunzip.Files
