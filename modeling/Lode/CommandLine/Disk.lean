/-
# Files

What the command line asks of files, apart from how it is done: `Disk` is a record of operations in
some monad.  `Folder` is a directory as data, with its operations; commands can be run on it and
reasoned about.
-/
import Lode.Path
import Lode.Sorted

namespace Lode.CommandLine

/-- Operations on files. -/
structure Disk (m : Type → Type) where
  /-- Whether a path leads to a file. -/
  isFile : String → m Bool
  /-- The files at any depth below a directory, each by its parts; nothing if there is no such
  directory. -/
  filesBelow : String → m (Option (List (List String)))
  /-- The bytes of a file. -/
  read : String → m (Option (List UInt8))
  /-- Writes a file; whether that was possible. -/
  write : String → List UInt8 → m Bool
  /-- Makes a directory and those around it; whether that was possible. -/
  makeDirectory : String → m Bool

/-- A directory as data.  Files are known by the parts of their paths. -/
structure Folder where
  files : List (List String × List UInt8) := []
  /-- Directories that were made, besides those that hold files. -/
  directories : List (List String) := []
deriving DecidableEq, Repr

namespace Folder

/-- Follows the parts of a path, dots among them, from a place in the folder. -/
def follow : List String → List String → Option (List String)
  | place, [] => some place
  | place, part :: rest =>
    if part == "" || part == "." then follow place rest
    else if part == ".." then
      match place with
      | [] => none
      | _ => follow place.dropLast rest
    else follow (place ++ [part]) rest

/-- The place in the folder that a path leads to. -/
def locate (path : String) : Option (List String) :=
  if path.isEmpty || path.startsWith "/" then none else follow [] (path.splitOn "/")

/-- Whether a path can only lead to a directory. -/
def namesDirectory (path : String) : Bool :=
  match (path.splitOn "/").getLast? with
  | some last => last == "" || last == "." || last == ".."
  | none => true

/-- The bytes of the file at a place. -/
def fileAt? (folder : Folder) (place : List String) : Option (List UInt8) :=
  folder.files.lookup place

/-- Whether there is a directory at a place. -/
def isDirectory (folder : Folder) (place : List String) : Bool :=
  place.isEmpty || folder.directories.contains place ||
    folder.files.any fun (file, _) => place.isPrefixOf file && place != file

/-- The bytes of the file that a path leads to. -/
def read (folder : Folder) (path : String) : Option (List UInt8) :=
  if namesDirectory path then none else (locate path).bind folder.fileAt?

/-- The files below the directory that a path leads to. -/
def filesBelow (folder : Folder) (path : String) : Option (List (List String)) := do
  let place ← locate path
  if folder.isDirectory place then
    return (folder.files.filter fun (file, _) => place.isPrefixOf file && place != file).map
      fun (file, _) => file.drop place.length
  else none

/-- The folder with other bytes in a file. -/
def setFile (folder : Folder) (place : List String) (bytes : List UInt8) : Folder :=
  { folder with files := (folder.files.filter fun (file, _) => file != place) ++ [(place, bytes)] }

/-- The folder after writing a file, whose directory must be there. -/
def write (folder : Folder) (path : String) (bytes : List UInt8) : Option Folder := do
  let place ← locate path
  if namesDirectory path || folder.isDirectory place || !folder.isDirectory place.dropLast then none
  else return folder.setFile place bytes

/-- The folder after making a directory; no file may be in its way. -/
def makeDirectory (folder : Folder) (path : String) : Option Folder := do
  let place ← locate path
  let places := (List.range (place.length + 1)).map place.take
  if places.any fun p => (folder.fileAt? p).isSome then none
  else return { folder with directories := places ++ folder.directories }

/-- Keeps the new folder if there is one; whether there is. -/
def change (f : Folder → Option Folder) : StateM Folder Bool :=
  modifyGet fun folder =>
    match f folder with
    | some new => (true, new)
    | none => (false, folder)

/-- The operations on a folder. -/
def disk : Disk (StateM Folder) where
  isFile path := return (read (← get) path).isSome
  filesBelow path := return filesBelow (← get) path
  read path := return read (← get) path
  write path bytes := change fun folder => folder.write path bytes
  makeDirectory path := change fun folder => folder.makeDirectory path

end Folder

end Lode.CommandLine
