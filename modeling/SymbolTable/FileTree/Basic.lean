/-
# File trees

A file tree is a folder that a path is followed in.  Each piece of the path is a step from a
folder: `.` and an empty piece stay, `..` goes out (and stays at the top), and a name goes in.
A step is possible only from a folder, so a path that ends in `/` leads to a folder or nowhere.

Some paths are refused before they are followed: one with a zero byte in it, the empty one, and
one of more than 4095 bytes.  A piece that is too long for a name is refused when it is reached,
so what is wrong with the pieces before it comes first.

Whether the last name is there is not part of following a path, because a file can be created.

Writing a file has two parts, and each of them can fail.  Whether the file can be created is a
matter of the tree: there are no permissions here and there is always room for another name.  How
much of the content can be written is a matter of the disk, of which nothing is known: a write may
break off anywhere, and what it has written by then stays (`overwrite`).
-/
import SymbolTable.FileTree.FilePath
import SymbolTable.FileTree.Folder

namespace SymbolTable

/-- Why a file cannot be used. -/
inductive FileFault where
  | notFound
  /-- A file stands where a folder is needed. -/
  | notFolder
  /-- A folder stands where a file is needed. -/
  | isFolder
  /-- The path, or a name in it, has too many bytes. -/
  | tooLong
  /-- The path has a zero byte in it. -/
  | zeroByte
  /-- The content is not a text. -/
  | notText
  /-- The disk has a reason of its own, such as that it is full. -/
  | other (reason : String)
deriving DecidableEq, Repr

def FileFault.message : FileFault → String
  | notFound => "No such file or directory (os error 2)"
  | notFolder => "Not a directory (os error 20)"
  | isFolder => "Is a directory (os error 21)"
  | tooLong => "File name too long (os error 36)"
  | zeroByte => "file name contained an unexpected NUL byte"
  | notText => "stream did not contain valid UTF-8"
  | other reason => reason

/-- A write that breaks off: after how many bytes, and why. -/
structure Outage where
  bytes : Nat
  cause : FileFault
deriving DecidableEq, Repr

/-- What is written of some content, and why the rest is not.  A write that would break off only
later than the content ends is not disturbed. -/
def Outage.cut (outage : Option Outage) (content : Bytes) : Except FileFault Unit × Bytes :=
  match outage with
  | none => (.ok (), content)
  | some o =>
    if o.bytes < content.length then (.error o.cause, content.take o.bytes) else (.ok (), content)

/-- How a disk takes what is written to it: whether a write that is made at this moment breaks off.
Moments are counted by what has happened before. -/
def Disk : Type := (moment : Nat) → Option Outage

/-- A disk that takes everything. -/
def Disk.ample : Disk := fun _ => none

/-- The length of the longest path, in bytes. -/
def FilePath.maxBytes : Nat := 4095

/-- Refuses the paths that lead nowhere in any tree. -/
def FilePath.check (path : String) : Except FileFault Unit :=
  if '\x00' ∈ path.toList then .error .zeroByte
  else if path = "" then .error .notFound
  else if maxBytes < path.utf8ByteSize then .error .tooLong
  else .ok ()

structure FileTree where
  top : Folder
  ordered : top.Ordered
deriving DecidableEq, Repr

namespace FileTree

def empty : FileTree := ⟨.empty, trivial⟩

/-! ## 1. Following paths -/

/-- A place in a tree: the names that lead to it from the top. -/
abbrev Place := List FileName

/-- Where a piece of a path leads from a folder.  A piece of a path that was not refused is a
name unless it is too long. -/
def next (here : Place) (piece : String) : Except FileFault Place :=
  if piece = "" ∨ piece = "." then .ok here
  else if piece = ".." then .ok here.dropLast
  else
    match FileName.ofString? piece with
    | some name => .ok (here ++ [name])
    | none => .error .tooLong

/-- A step from `here`, which has to be a folder. -/
def step (t : FileTree) (here : Place) (piece : String) : Except FileFault Place :=
  match t.top.at? here with
  | some (.folder _) => next here piece
  | some (.file _) => .error .notFolder
  | none => .error .notFound

/-- Where pieces lead from the top. -/
def follow (t : FileTree) (pieces : List String) : Except FileFault Place :=
  pieces.foldlM t.step []

/-- What a path leads to. -/
def entry (t : FileTree) (path : String) : Except FileFault Entry := do
  FilePath.check path
  let place ← t.follow (FilePath.pieces path)
  match t.top.at? place with
  | some entry => .ok entry
  | none => .error .notFound

/-! ## 2. Reading -/

def read (t : FileTree) (path : String) : Except FileFault Bytes := do
  match ← t.entry path with
  | .file content => .ok content
  | .folder _ => .error .isFolder

def readText (t : FileTree) (path : String) : Except FileFault String := do
  match utf8? (← t.read path) with
  | some text => .ok text
  | none => .error .notText

/-! ## 3. Changing -/

/-- Changes the folder at a place, which is made if it is missing. -/
def update (t : FileTree) (place : Place) (change : Folder → Folder)
    (h : ∀ g, g.Ordered → (change g).Ordered) : FileTree :=
  ⟨t.top.update change place, Folder.ordered_update h place t.ordered⟩

/-- The pieces of a path up to its last step, and that step.  Empty pieces at the end are left
out. -/
def splitEnd (path : String) : Option (List String × String) :=
  match (FilePath.pieces path).reverse.dropWhile (· = "") with
  | [] => none
  | last :: front => some (front.reverse, last)

/-- Where a file at `path` would be: its folder, which has to be there, and its name.  A path that
ends in `/`, `.` or `..` is one of a folder. -/
def slot (t : FileTree) (path : String) : Except FileFault (Place × FileName) := do
  FilePath.check path
  match splitEnd path with
  | none => .error .isFolder
  | some (front, last) => do
    let place ← t.follow front
    match t.top.at? place with
    | none => .error .notFound
    | some (.file _) => .error .notFolder
    | some (.folder _) =>
      if last = "." ∨ last = ".." ∨ (FilePath.pieces path).getLast? = some "" then
        .error .isFolder
      else
        match FileName.ofString? last with
        | some name => .ok (place, name)
        | none => .error .tooLong

/-- Where a file at `path` is, or where it is created. -/
def target (t : FileTree) (path : String) : Except FileFault (Place × FileName) := do
  let (place, name) ← t.slot path
  match t.top.at? (place ++ [name]) with
  | some (.folder _) => .error .isFolder
  | _ => .ok (place, name)

/-- The tree with a file of this name in the folder at `place`. -/
def putFile (t : FileTree) (place : Place) (name : FileName) (content : Bytes) : FileTree :=
  t.update place (Folder.set name (.file content)) fun _ hg => Folder.ordered_set hg trivial

/-- Creates a file, or replaces the content of one. -/
def write (t : FileTree) (path : String) (content : Bytes) : Except FileFault FileTree := do
  let (place, name) ← t.target path
  .ok (t.putFile place name content)

/-- Creates a file, or empties the one that is there, and then writes to it what the disk takes. -/
def overwrite (t : FileTree) (path : String) (content : Bytes) (outage : Option Outage) :
    Except FileFault Unit × FileTree :=
  match t.target path with
  | .error fault => (.error fault, t)
  | .ok (place, name) =>
    let created := t.putFile place name []
    let (result, written) := Outage.cut outage content
    (result, created.putFile place name written)

/-- Makes the folders that pieces lead through from `here`, as far as they are missing. -/
def makeFolders (t : FileTree) (here : Place) : (pieces : List String) → Except FileFault FileTree
  | [] => .ok t
  | piece :: rest => do
    let here ← next here piece
    (t.update here id fun _ hg => hg).makeFolders here rest

/-- Makes a folder, and the folders on the way to it. -/
def makeFolder (t : FileTree) (path : String) : Except FileFault FileTree := do
  FilePath.check path
  t.makeFolders [] (FilePath.pieces path)

/-- Creates or replaces a file, and makes the folders on the way to it. -/
def put (t : FileTree) (path : String) (content : Bytes) : Except FileFault FileTree := do
  FilePath.check path
  let t ← t.makeFolders [] (FilePath.pieces path).dropLast
  t.write path content

/-- Takes out what has the last name of a path.  The top has no name, and `.` and `..` are not
names that can be taken out. -/
def unlink (t : FileTree) (path : String) : Except FileFault FileTree := do
  match splitEnd path with
  | none => .error .isFolder
  | some (front, last) => do
    let place ← t.follow front
    match FileName.ofString? last, t.top.at? place with
    | some name, some (.folder _) => .ok (t.update place (Folder.erase name) fun _ hg =>
        Folder.ordered_erase hg)
    | some _, _ => .error .notFound
    | none, some (.folder _) => .error .isFolder
    | none, _ => .error .notFound

/-- Removes a file, or a folder with all that is in it, and tells whether it is gone.  A folder is
emptied before it is taken out, so one that cannot be taken out is left empty.  If the path led
through the folder's own contents, it leads nowhere by then, and that counts as gone. -/
def remove (t : FileTree) (path : String) : Bool × FileTree :=
  match t.entry path, t.follow (FilePath.pieces path) with
  | .ok (.file _), _ =>
    match t.unlink path with
    | .ok t => (true, t)
    | .error _ => (false, t)
  | .ok (.folder _), .ok place =>
    let emptied := t.update place (fun _ => .empty) fun _ _ => trivial
    match emptied.unlink path with
    | .ok t => (true, t)
    | .error fault => (fault = .notFound, emptied)
  | _, _ => (false, t)

end FileTree

end SymbolTable
