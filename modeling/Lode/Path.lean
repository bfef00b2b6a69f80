/-
# Paths

Paths are texts whose parts are divided by slashes.  Empty parts and single dots say nothing, except
for a dot in front.
-/

namespace Lode.Path

/-- The parts of a path, in order; a slash in front is the part `/`. -/
def parts (path : String) : List String :=
  let pieces := path.splitOn "/"
  let inner := fun (ps : List String) => ps.filter fun p => p != "" && p != "."
  match pieces with
  | [] => []
  | [""] => []
  | "" :: rest => "/" :: inner rest
  | "." :: rest => "." :: inner rest
  | first :: rest => first :: inner rest

/-- The name of the file that a path leads to. -/
def fileName? (path : String) : Option String :=
  match (parts path).getLast? with
  | some p => if p == "/" || p == "." || p == ".." then none else some p
  | none => none

/-- The characters before and after the last dot of a name; a dot in front does not count. -/
def splitName (name : String) : List Char × Option (List Char) :=
  let cs := name.toList
  let after := (cs.reverse.takeWhile (· != '.')).reverse
  let front := cs.take (cs.length - after.length - 1)
  if after.length < cs.length && !front.isEmpty then (front, some after) else (cs, none)

/-- The name of a file without its extension. -/
def fileStem? (path : String) : Option String :=
  (fileName? path).map fun name => String.ofList (splitName name).1

/-- The extension of a file. -/
def extension? (path : String) : Option String :=
  ((fileName? path).bind fun name => (splitName name).2).map String.ofList

/-- The parts of a path as a text. -/
def ofParts : List String → String
  | "/" :: rest => "/" ++ "/".intercalate rest
  | ps => "/".intercalate ps

/-- A path below a directory. -/
def join (directory path : String) : String :=
  if directory.isEmpty then path
  else if directory.endsWith "/" then directory ++ path
  else directory ++ "/" ++ path

/-- Drops from the end of a reversed path what says nothing: slashes, and dots that are parts of
their own, but not the first part. -/
def trimEnd : List Char → List Char
  | ['/'] => ['/']
  | '/' :: rest => trimEnd rest
  | '.' :: '/' :: rest => trimEnd ('/' :: rest)
  | cs => cs

/-- The directory of a file. -/
def parent (path : String) : String :=
  let back := trimEnd path.toList.reverse
  String.ofList (trimEnd (back.dropWhile (· != '/'))).reverse

/-- Whether the parts of a path come before those of another one. -/
def partsLE : List String → List String → Bool
  | [], _ => true
  | _ :: _, [] => false
  | a :: as, b :: bs =>
    match compare a b with
    | .lt => true
    | .eq => partsLE as bs
    | .gt => false

end Lode.Path
