/-
# Settings as a document

Settings are read from a JSON document: an object with a member for each setting, in any order.
A setting that is left out takes its standard value, and members of other names are passed over.
A setting that comes twice is refused.  The document may also be a list of the settings in their
order, which may end early.

A save policy is an object with a member `type`, or a list that starts with the type.  Only the
policy `every_n` takes something more: the number of files.
-/
import SymbolTable.Json.Values
import SymbolTable.Settings.Basic
import SymbolTable.FileTree.Basic

namespace SymbolTable

open Json (Reader)

/-! ## 1. Save policies -/

namespace SavePolicy

inductive Tag where
  | everyFile
  | everyFiles
  | atEnd
deriving DecidableEq, Repr

def Tag.ofString? (s : String) : Option Tag :=
  if s = "every_file" then some everyFile
  else if s = "every_n" then some everyFiles
  else if s = "at_end" then some atEnd
  else none

def readTag : Reader Tag := do
  match Tag.ofString? (← Json.text) with
  | some tag => pure tag
  | none => throw .mismatch

/-- What an object has said about a policy so far. -/
structure Members where
  tag : Option Tag
  /-- The values of `files`, each a natural number or not. -/
  files : List (Option Nat)

def readMember (seen : Members) : Reader Members := do
  let name ← Json.key true
  if name = "type" then
    if seen.tag.isSome then throw .mismatch
    else do
      Json.expect ':'
      let tag ← readTag
      pure { seen with tag := some tag }
  else do
    Json.expect ':'
    let value ← Json.natural? 2
    pure (if name = "files" then { seen with files := seen.files ++ [value] } else seen)

/-- The policy that an object describes.  The number of files is given exactly once where it is
needed, and does not matter elsewhere. -/
def Members.policy? : Members → Option SavePolicy
  | ⟨some .everyFile, _⟩ => some .everyFile
  | ⟨some .everyFiles, [some n]⟩ => some (.everyFiles n)
  | ⟨some .atEnd, _⟩ => some .atEnd
  | _ => none

/-- What a list has said about a policy so far: the type, and what follows it. -/
def readItem : Option (Tag × List (Option Nat)) → Reader (Option (Tag × List (Option Nat)))
  | none => do
    let tag ← readTag
    pure (some (tag, []))
  | some (tag, rest) => do
    let value ← Json.natural? 2
    pure (some (tag, rest ++ [value]))

/-- The policy that a list describes.  Nothing follows the type but the number of files, where
it is needed. -/
def ofItems? : Option (Tag × List (Option Nat)) → Option SavePolicy
  | some (.everyFile, []) => some .everyFile
  | some (.everyFiles, [some n]) => some (.everyFiles n)
  | some (.atEnd, []) => some .atEnd
  | _ => none

def orMismatch : Option SavePolicy → Reader SavePolicy
  | some policy => pure policy
  | none => throw .mismatch

def read : Reader SavePolicy := do
  Json.blanks
  match (← Json.look).bind Json.Bracket.opened? with
  | some .object => do
    let _ ← Json.take
    let members ← Json.items '}' readMember ⟨none, []⟩
    orMismatch members.policy?
  | some .list => do
    let _ ← Json.take
    let items ← Json.items ']' readItem none
    orMismatch (ofItems? items)
  | none => Json.wrongShape

end SavePolicy

/-! ## 2. Settings -/

namespace Settings

inductive Field where
  | snapshotPath
  | sourceRoot
  | extensions
  | policy
deriving DecidableEq, Repr

namespace Field

/-- The order of the settings in a list. -/
def all : List Field := [snapshotPath, sourceRoot, extensions, policy]

def key : Field → String
  | snapshotPath => "snapshot_path"
  | sourceRoot => "source_root"
  | extensions => "extensions"
  | policy => "checkpoint"

def ofKey? (name : String) : Option Field := all.find? fun f => f.key = name

end Field

/-- The settings of a document so far, and which ones it has given. -/
structure Draft where
  settings : Settings
  given : List Field

def readField (s : Settings) : Field → Reader Settings
  | .snapshotPath => ({ s with snapshotPath := · }) <$> Json.text
  | .sourceRoot => ({ s with sourceRoot := · }) <$> Json.text
  | .extensions => ({ s with extensions := · }) <$> Json.texts
  | .policy => ({ s with policy := · }) <$> SavePolicy.read

def Draft.read (draft : Draft) (field : Field) : Reader Draft :=
  (⟨·, draft.given ++ [field]⟩) <$> readField draft.settings field

def readMember (draft : Draft) : Reader Draft := do
  let name ← Json.key true
  match Field.ofKey? name with
  | some field =>
    if field ∈ draft.given then throw .mismatch
    else do
      Json.expect ':'
      draft.read field
  | none => do
    Json.expect ':'
    Json.pass .skipped 1
    pure draft

/-- The next setting of a list. -/
def readItem (draft : Draft) : Reader Draft :=
  match Field.all[draft.given.length]? with
  | some field => draft.read field
  | none => throw .malformed

def read : Reader Settings := do
  Json.blanks
  match (← Json.look).bind Json.Bracket.opened? with
  | some .object => do
    let _ ← Json.take
    Draft.settings <$> Json.items '}' readMember ⟨standard, []⟩
  | some .list => do
    let _ ← Json.take
    Draft.settings <$> Json.items ']' readItem ⟨standard, []⟩
  | none => Json.wrongShape

/-- The settings that a document gives. -/
def ofDocument (text : String) : Except Json.Fault Settings := Json.document read text

/-! ## 3. Files -/

/-- A file that cannot be opened or is not a text. -/
structure Unreadable where
  path : String
  cause : FileFault
deriving DecidableEq, Repr

def Unreadable.message (e : Unreadable) : String :=
  "failed to read config " ++ e.path ++ ": " ++ e.cause.message

/-- Why a file gives no settings. -/
inductive ReadError where
  | unreadable (e : Unreadable)
  | invalid (fault : Json.Fault)
deriving DecidableEq, Repr

/-- The settings that a file gives. -/
def ofFile (files : FileTree) (path : String) : Except ReadError Settings :=
  match files.readText path with
  | .error cause => .error (.unreadable ⟨path, cause⟩)
  | .ok text => (ofDocument text).mapError .invalid

end Settings

end SymbolTable
