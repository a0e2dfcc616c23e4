/-
  Files, as far as a run of the program sees them.

  * `Disk` tells what stands at a path;
  * `Disk.ofFiles` is a folder with some files, and no more, seen from inside;
  * `Path.normal` is the spelling of a path in messages: a point and an empty part are left
    out, and two points stay.
-/
import BoxScript.Text.Quoted

namespace BoxScript.CommandLine

namespace Path

/-- The parts of a path that matter. -/
def parts (path : String) : List String :=
  (path.splitOn "/").filter fun part => part != "" && part != "."

/-- The slashes that an absolute path begins with: two of them stay, any other number is
    one. -/
def root (path : String) : String :=
  match path.toList.takeWhile (· == '/') with
  | [] => ""
  | ['/', '/'] => "//"
  | _ => "/"

/-- The spelling of a path in messages. -/
def normal (path : String) : String :=
  match root path ++ "/".intercalate (parts path) with
  | "" => "."
  | text => text

/-- The parts of a path with each two points taken back; `none` if it leads out. -/
def canonical? (path : String) : Option (List String) :=
  if root path != "" then none
  else (parts path).foldlM (fun here part =>
    if part == ".." then (if here.isEmpty then none else some here.dropLast)
    else some (here ++ [part])) []

end Path

/-- What stands at a path: a file, a folder, nothing (but its folder is there), nothing and
    no folder either, or nothing because the way leads through a file. -/
inductive Entry where
  | file (contents : String)
  | folder
  | free
  | lost
  | blocked
  deriving DecidableEq, Repr

/-- What stands at each path. -/
abbrev Disk := String → Entry

namespace Disk

/-- What stands at a place whose folder is there. -/
def entryAt (files : List (List String × String)) (place : List String) : Entry :=
  match files.lookup place with
  | some contents => .file contents
  | none => if files.any fun (other, _) => place.isPrefixOf other then .folder else .free

/-- What stands outside: folders up to the top, and no file is known. -/
def outside : List String → Entry
  | [] => .folder
  | ".." :: rest => outside rest
  | [_] => .free
  | _ :: _ => .lost

/-- Follows the parts of a path from a place. -/
def follow (files : List (List String × String)) (place : List String) : List String → Entry
  | [] => if place.isEmpty then .folder else entryAt files place
  | part :: rest =>
    match (if place.isEmpty then .folder else entryAt files place) with
    | .folder =>
      if part == ".." then
        if place.isEmpty then outside rest else follow files place.dropLast rest
      else follow files (place ++ [part]) rest
    | .file _ => .blocked
    | _ => .lost

/-- A folder with the given files.  At a path that ends in a slash there can only be a
    folder. -/
def ofFiles (files : List (String × String)) : Disk := fun path =>
  let files := files.map fun (name, contents) => (Path.parts name, contents)
  if path = "" then .lost
  else
    let entry := if Path.root path = "" then follow files [] (Path.parts path)
      else outside (Path.parts path)
    match entry, path.toList.getLast? with
    | .file _, some '/' | .free, some '/' => .folder
    | entry, _ => entry

end Disk

/-- Why a file cannot be opened. -/
inductive FileProblem where
  | missing (path : String)
  | isFolder (path : String)
  | notFolder (path : String)
  deriving DecidableEq, Repr

/-- The wording of a problem. -/
def FileProblem.message : FileProblem → String
  | missing path => "[Errno 2] No such file or directory: " ++ Text.quoted path
  | isFolder path => "[Errno 21] Is a directory: " ++ Text.quoted path
  | notFolder path => "[Errno 20] Not a directory: " ++ Text.quoted path

/-- Can a file be written at the path? -/
def Disk.checkWritable (disk : Disk) (path : String) : Except FileProblem Unit :=
  match disk path with
  | .file _ | .free => .ok ()
  | .folder => .error (.isFolder path)
  | .lost => .error (.missing path)
  | .blocked => .error (.notFolder path)

end BoxScript.CommandLine
