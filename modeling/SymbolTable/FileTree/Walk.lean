/-
# Walking a file tree

The files at or below a path, in the order in which folders list them: the names of one folder
in their order, and what is in a folder at the folder's place.  Files are named by the path that
the walk started from, as it was given, and the names below it.

A path that leads to a file yields that file alone.

A walk opens each folder by the path that it has built up for it.  That path may be too long to
be opened although the walk has reached the folder; the first such folder stops the walk.
-/
import SymbolTable.FileTree.Basic

namespace SymbolTable

/-- A path that a walk could not go on from. -/
structure WalkError where
  path : String
  cause : FileFault
deriving DecidableEq, Repr

def WalkError.message (e : WalkError) : String :=
  "failed to walk source tree: IO error for operation on " ++ e.path ++ ": " ++ e.cause.message

namespace Folder

/-- The paths of all files in a folder whose own path is `path`. -/
def files (path : String) : Folder → List String
  | empty => []
  | file name _ rest => FilePath.inside path name.text :: rest.files path
  | folder name inner rest => inner.files (FilePath.inside path name.text) ++ rest.files path

/-- The first folder below the folder at `path` that cannot be opened by its path. -/
def unopened? (path : String) : Folder → Option WalkError
  | empty => none
  | file _ _ rest => rest.unopened? path
  | folder name inner rest =>
    match FilePath.check (FilePath.inside path name.text) with
    | .error cause => some ⟨FilePath.inside path name.text, cause⟩
    | .ok () => (inner.unopened? (FilePath.inside path name.text)).or (rest.unopened? path)

end Folder

/-- The paths of all files at or below `path`. -/
def FileTree.walk (t : FileTree) (path : String) : Except WalkError (List String) :=
  match t.entry path with
  | .error cause => .error ⟨path, cause⟩
  | .ok (.file _) => .ok [path]
  | .ok (.folder inner) =>
    match inner.unopened? path with
    | some e => .error e
    | none => .ok (inner.files path)

end SymbolTable
