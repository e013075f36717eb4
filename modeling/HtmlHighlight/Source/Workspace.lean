import HtmlHighlight.Source.Basic

/-!
# Workspaces

A workspace is what stands below a working directory. A file name is followed from there one part after
the other, as a file system does: `.` and empty parts stay, `..` goes up, and a part that names nothing
ends the search even if the next one would lead back. Nothing is known of the world above the working
directory but that it consists of directories.
-/

namespace HtmlHighlight

/-- The files and directories below a working directory, by the parts of their names. -/
structure Workspace where
  files : List (List Text × ByteArray)
  directories : List (List Text)

namespace Workspace

/-- What a name leads to. -/
inductive Entry where
  | file (content : ByteArray)
  | directory

/-- The parts of a file name. -/
def parts (name : Text) : List Text :=
  name.splitOn '/'

/-- What stands at `path`; a directory is there if something is known to be in it. -/
def entry? (w : Workspace) (path : List Text) : Option Entry :=
  match w.files.find? fun file => file.1 == path with
  | some (_, content) => some (.file content)
  | none =>
    if (w.files.map Prod.fst ++ w.directories).any (path.isPrefixOf ·) then some .directory else none

/-- The path that a name stands for if all directories on its way are there. -/
def pathOf (name : Text) : List Text :=
  (parts name).foldl (fun path part =>
    if part = [] ∨ part = ['.'] then path
    else if part = ['.', '.'] then path.dropLast
    else path ++ [part]) []

/-- The workspace with the given files and directories. -/
def ofNames (files : List (Text × ByteArray)) (directories : List Text) : Workspace :=
  ⟨files.map fun (name, content) => (pathOf name, content), directories.map pathOf⟩

/-- The most bytes that one part of a name may have. -/
def maxPartSize : Nat := 255

/-- The most bytes that a whole name may have. -/
def maxNameSize : Nat := 4095

/-- A directory on the way: one in the workspace, or one somewhere outside of it. -/
inductive Place where
  | inside (path : List Text)
  | outside
  deriving DecidableEq

/-- The directory above. -/
def Place.parent : Place → Place
  | inside [] => outside
  | inside path => inside path.dropLast
  | outside => outside

/-- Follows the parts of a name from a directory. -/
def follow (w : Workspace) (place : Place) : List Text → Except ReadFailure ByteArray
  | [] => .error .isDirectory
  | part :: rest =>
    if part = [] ∨ part = ['.'] then w.follow place rest
    else if part = ['.', '.'] then w.follow place.parent rest
    else if maxPartSize < part.byteSize then .error .nameTooLong
    else match place with
      | .outside => .error .notFound
      | .inside path =>
        match w.entry? (path ++ [part]) with
        | none => .error .notFound
        | some .directory => w.follow (.inside (path ++ [part])) rest
        | some (.file content) => if rest = [] then .ok content else .error .notDirectory

/-- The bytes of the file of the given name. -/
def readFile (w : Workspace) (name : Text) : Except ReadFailure ByteArray :=
  if '\x00' ∈ name then .error .nulInName
  else if name = [] then .error .notFound
  else if maxNameSize < name.byteSize then .error .nameTooLong
  else w.follow (if name.head? = some '/' then .outside else .inside []) (parts name)

/-- The surroundings of a run in a workspace. -/
def environment (w : Workspace) (stdin : ByteArray) : Environment where
  readFile := w.readFile
  stdin := stdin

end Workspace

end HtmlHighlight
