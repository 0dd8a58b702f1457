/-
# Paths of files

A path is a text cut into pieces at each `/`.  Empty pieces and `.` pieces say nothing about
where it leads, `..` leads outward, and any other piece is a name.
-/

namespace SymbolTable.FilePath

/-! ## 1. Pieces -/

/-- Cuts a text at each `/`; there is one more piece than there are cuts. -/
def cut : List Char → List (List Char)
  | [] => [[]]
  | c :: rest =>
    if c = '/' then [] :: cut rest
    else
      match cut rest with
      | piece :: pieces => (c :: piece) :: pieces
      | [] => [[c]]

def pieces (path : String) : List String := (cut path.toList).map String.ofList

/-- The pieces that lead somewhere: neither empty nor `.`. -/
def steps (path : String) : List String :=
  (pieces path).filter fun piece => piece ≠ "" ∧ piece ≠ "."

/-- What two paths have to share to be the same path: whether they start at the top, whether
they start with `.`, and their steps. -/
def components (path : String) : List String :=
  match pieces path with
  | "" :: _ :: _ => "/" :: steps path
  | "." :: _ => "." :: steps path
  | _ => steps path

/-- The path of `name` in the folder at `folder`. -/
def inside (folder name : String) : String :=
  if folder.toList.getLast? = some '/' then folder ++ name else folder ++ "/" ++ name

/-! ## 2. Extensions -/

/-- Cuts a text at its last dot. -/
def cutLastDot : List Char → Option (List Char × List Char)
  | [] => none
  | c :: rest =>
    match cutLastDot rest with
    | some (stem, ext) => some (c :: stem, ext)
    | none => if c = '.' then some ([], rest) else none

/-- What follows the last dot of the last step.  A name whose only dot comes first has no
extension, and neither has `..`. -/
def extension? (path : String) : Option String :=
  match (steps path).getLast? with
  | none => none
  | some last =>
    if last = ".." then none
    else
      match cutLastDot last.toList with
      | some (_ :: _, ext) => some (String.ofList ext)
      | _ => none

end SymbolTable.FilePath
