/-
# Loading a workspace

A table is loaded from its snapshot if that can be read.  Otherwise, or when it is asked for, the
table is rebuilt: every source file is parsed, the objects that are found go into the table that
is there, and the table is saved along the way and at the end.

A rebuild follows a plan that the files and the save policy determine before it starts: parse each
file, save where the policy says so, and save at the end unless the last thing done was a save.  A
plan therefore always ends with a save.  A file that does not parse is noted and does not stop the
rebuild; a save that fails does.

A parser is handed the files as they are when it is called, with the snapshots that were saved so
far among them.  What it makes of them is up to the parser; it leaves them as they are.
-/
import SymbolTable.Snapshot
import SymbolTable.Settings.Basic
import SymbolTable.FileTree.Walk

namespace SymbolTable

/-! ## 1. Parsers -/

/-- A file that does not parse. -/
structure ParseError where
  path : String
  reason : String
deriving DecidableEq, Repr

def ParseError.message (e : ParseError) : String :=
  "failed to parse " ++ e.path ++ ": " ++ e.reason

/-- What a parser has to say about one file: the objects that it found, and why it gave up if it
did.  Objects that were found before it gave up count. -/
structure Report where
  found : List Entity
  failure : Option ParseError
deriving DecidableEq, Repr

/-- A parser is called with the path of a file, and reads what it likes of all the files that there
are.  What it reports may also depend on the calls before: `σ` is what it remembers of them. -/
structure Parser (σ : Type) where
  parse : σ → FileTree → (path : String) → Report × σ

/-! ## 2. Saving -/

/-- A snapshot that could not be written. -/
structure SaveError where
  path : String
  cause : FileFault
deriving DecidableEq, Repr

def SaveError.message (e : SaveError) : String :=
  "snapshot I/O error on " ++ e.path ++ ": " ++ e.cause.message

/-- Writes the table's snapshot to a file, as far as the disk takes it.  Not all or nothing: when
the write breaks off, the file that was there is gone, and a part of the snapshot is in its
place. -/
def Table.save (t : Table) (path : String) (outage : Option Outage) (files : FileTree) :
    Except SaveError Unit × FileTree :=
  let (result, files) := files.overwrite path t.encode outage
  (result.mapError (⟨path, ·⟩), files)

/-! ## 3. Plans -/

/-- One thing that a rebuild does. -/
inductive Action where
  | parse (file : String)
  | save
deriving DecidableEq, Repr

/-- What is left to do when `done` files have been parsed and `files` have not. -/
def SavePolicy.plan (policy : SavePolicy) (done : Nat) : (files : List String) → List Action
  | [] => if done = 0 ∨ !policy.isDue done then [.save] else []
  | file :: rest =>
    .parse file ::
      ((if policy.isDue (done + 1) then [.save] else []) ++ policy.plan (done + 1) rest)

/-- Something that can be seen of a load while it goes on. -/
inductive Event where
  /-- The parser was called for the file at `path`; the files were these. -/
  | called (path : String) (files : FileTree)
  /-- A snapshot was written. -/
  | saved
  /-- A snapshot could not be written, or not to its end. -/
  | unsaved
deriving DecidableEq, Repr

/-- What a load works on: the table, the files, the disk that they are on and what the parser
remembers; and the log of what has happened. -/
structure Workspace (σ : Type) where
  table : Table
  files : FileTree
  disk : Disk
  memory : σ
  log : List Event

/-- What a rebuild has done so far. -/
structure Progress where
  saves : Nat
  failures : List ParseError
deriving DecidableEq, Repr

namespace Workspace

variable {σ : Type}

/-- Adds to the log. -/
def note (event : Event) (w : Workspace σ) : Workspace σ := { w with log := w.log ++ [event] }

/-- Parses a file and takes in what was found. -/
def parseFile (parser : Parser σ) (w : Workspace σ) (file : String) : Report × Workspace σ :=
  let (report, memory) := parser.parse w.memory w.files file
  (report, { w with table := w.table.insertAll report.found, memory }.note (.called file w.files))

/-- Saves the table, if the file can be created and as far as the disk goes along. -/
def save (path : String) (w : Workspace σ) : Except SaveError Unit × Workspace σ :=
  match w.table.save path (w.disk w.log.length) w.files with
  | (.ok (), files) => (.ok (), { w with files }.note .saved)
  | (.error e, files) => (.error e, { w with files }.note .unsaved)

/-- Follows a plan to its end, or to the first save that fails. -/
def follow (parser : Parser σ) (path : String) :
    List Action → Progress → Workspace σ → Except SaveError Progress × Workspace σ
  | [], done, w => (.ok done, w)
  | .parse file :: rest, done, w =>
    let (report, w) := w.parseFile parser file
    follow parser path rest { done with failures := done.failures ++ report.failure.toList } w
  | .save :: rest, done, w =>
    match w.save path with
    | (.ok (), w) => follow parser path rest { done with saves := done.saves + 1 } w
    | (.error e, w) => (.error e, w)

end Workspace

/-! ## 4. Loading -/

/-- What a load has done. -/
inductive Outcome where
  /-- The snapshot was read; it has so many entries besides the Root. -/
  | restored (entries : Nat)
  | rebuilt (files saves : Nat) (failures : List ParseError)
deriving DecidableEq, Repr

/-- Why a load stopped. -/
inductive LoadError where
  | damaged (damage : Snapshot.Damage)
  | unwalked (e : WalkError)
  | unsaved (e : SaveError)
deriving DecidableEq, Repr

/-- The source files that a rebuild parses, in the order of the walk. -/
def Settings.sources (s : Settings) (files : FileTree) : Except WalkError (List String) :=
  (·.filter s.isSource) <$> files.walk s.sourceRoot

namespace Workspace

variable {σ : Type}

/-- Parses all source files and saves the table at `path`.  Nothing is done if the sources cannot
be listed. -/
def rebuild (settings : Settings) (parser : Parser σ) (path : String) (w : Workspace σ) :
    Except LoadError Outcome × Workspace σ :=
  match settings.sources w.files with
  | .error e => (.error (.unwalked e), w)
  | .ok sources =>
    match w.follow parser path (settings.policy.plan 0 sources) ⟨0, []⟩ with
    | (.ok done, w) => (.ok (.rebuilt sources.length done.saves done.failures), w)
    | (.error e, w) => (.error (.unsaved e), w)

/-- Replaces the table by the one in the bytes of a snapshot.  A damaged snapshot changes
nothing. -/
def restore (bytes : Bytes) (w : Workspace σ) : Except LoadError Outcome × Workspace σ :=
  match Table.decode bytes with
  | .ok table => (.ok (.restored table.size), { w with table })
  | .error damage => (.error (.damaged damage), w)

/-- Restores the snapshot at `path`, or rebuilds if that is forced or the snapshot cannot be
read. -/
def load (settings : Settings) (parser : Parser σ) (path : String) (force : Bool)
    (w : Workspace σ) : Except LoadError Outcome × Workspace σ :=
  if force then w.rebuild settings parser path
  else
    match w.files.read path with
    | .ok bytes => w.restore bytes
    | .error _ => w.rebuild settings parser path

end Workspace

end SymbolTable
