/-
# Settings

Where snapshots are kept, which folder holds the sources and which files in it are sources, and
how often a rebuild saves its progress.
-/
import SymbolTable.FileTree.FilePath

namespace SymbolTable

/-! ## 1. When to save -/

/-- When a rebuild saves the table, apart from its end. -/
inductive SavePolicy where
  | everyFile
  | everyFiles (n : Nat)
  | atEnd
deriving DecidableEq, Repr

/-- Whether to save after so many files.  Every zero files means never. -/
def SavePolicy.isDue (policy : SavePolicy) (processed : Nat) : Bool :=
  match policy with
  | everyFile => true
  | everyFiles n => 0 < n && processed % n = 0
  | atEnd => false

/-! ## 2. Settings -/

structure Settings where
  snapshotPath : String
  sourceRoot : String
  extensions : List String
  policy : SavePolicy
deriving DecidableEq, Repr

namespace Settings

def defaultSnapshotFile : String := ".symtab"

def standard : Settings := ⟨defaultSnapshotFile, ".", ["rb"], .everyFile⟩

/-- Whether the extension of a path is one of those that sources have. -/
def isSource (s : Settings) (path : String) : Bool :=
  match FilePath.extension? path with
  | some ext => s.extensions.contains ext
  | none => false

/-- Equality of settings: file paths are equal when their components are. -/
def same (s t : Settings) : Bool :=
  FilePath.components s.snapshotPath = FilePath.components t.snapshotPath &&
    FilePath.components s.sourceRoot = FilePath.components t.sourceRoot &&
    s.extensions = t.extensions && s.policy = t.policy

end Settings

end SymbolTable
