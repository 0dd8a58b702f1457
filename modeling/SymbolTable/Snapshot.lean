/-
# Snapshots

A snapshot is a table laid out flat: its entities in their order, the Root among them, each
naming its parent by path.  As bytes it is a fixed header, the number of entries and the entries.
Bytes after the last entry are not looked at.

Not every list of entries is a table.  `restore` takes the entries in order and refuses the first
one that repeats a path, or that is at the empty path without being a Root; and in the end there
has to be a Root.

* `restore_eq_ok_iff`: what is restored is the entries themselves, if nothing is wrong with them.
-/
import SymbolTable.Wire.Field
import SymbolTable.Table

namespace SymbolTable

structure Snapshot where
  entries : List Entity
deriving DecidableEq, Repr

namespace Snapshot

/-- What is wrong with a snapshot. -/
inductive Damage where
  | badHeader
  | badBody (fault : Wire.Fault)
  | duplicate (path : Path)
  /-- An entry at the empty path that is not a Root. -/
  | notRoot
  | noRoot
deriving DecidableEq, Repr

def Damage.message : Damage → String
  | badHeader => "not a symbol table snapshot (bad header)"
  | badBody fault => "failed to decode snapshot: " ++ fault.message
  | duplicate path => "snapshot contains " ++ path.describe ++ " more than once"
  | notRoot => "snapshot contains a non-root entry with an empty path"
  | noRoot => "snapshot has no root entry"

/-! ## 1. Tables and entries -/

/-- Lays a table out flat. -/
def capture (t : Table) : Snapshot := ⟨t.entities⟩

/-- The first thing that is wrong with entries that follow entries at the paths `seen`. -/
def firstDamage (seen : List Path) : List Entity → Option Damage
  | [] => if .root ∈ seen then none else some .noRoot
  | e :: rest =>
    if e.path ∈ seen then some (.duplicate e.path)
    else if e.path = .root ∧ e.kind ≠ .root then some .notRoot
    else firstDamage (e.path :: seen) rest

/-- The table that the entries make up. -/
def restore (s : Snapshot) : Except Damage Table :=
  match firstDamage [] s.entries with
  | some damage => .error damage
  | none => .ok ⟨s.entries⟩

theorem restore_eq_ok_iff {s : Snapshot} {t : Table} :
    s.restore = .ok t ↔ firstDamage [] s.entries = none ∧ capture t = s := by
  unfold restore
  cases h : firstDamage [] s.entries with
  | some damage => simp
  | none =>
    simp only [Except.ok.injEq, true_and]
    constructor
    · rintro rfl
      rfl
    · rintro rfl
      rfl

/-! ## 2. Entries and bytes -/

def writeEntity (e : Entity) : Bytes :=
  Wire.writeText e.path.text ++ (Wire.writeOption (e.parent.map Path.text) ++
    (Wire.writeText e.kind.tag ++ (Wire.writeSeq Wire.writeText (e.capabilities.map Capability.name) ++
      Wire.writePayload e.payload)))

def readEntity : Wire.Reader Entity := do
  let path ← Wire.readText
  let parent ← Wire.readOption
  let kind ← Wire.readText
  let capabilities ← Wire.readSeq Wire.readText
  let payload ← Wire.readPayload
  pure ⟨⟨path⟩, parent.map Path.mk, ⟨kind⟩, capabilities.map Capability.mk, payload⟩

/-- `SYMTAB` and two zero bytes. -/
def header : Bytes := [0x53, 0x59, 0x4d, 0x54, 0x41, 0x42, 0, 0]

def encode (s : Snapshot) : Bytes := header ++ Wire.writeSeq writeEntity s.entries

/-- The entries that the bytes hold, whether or not they make up a table. -/
def decode (bytes : Bytes) : Except Damage Snapshot :=
  if header.isPrefixOf bytes then
    match Wire.readSeq readEntity (bytes.drop header.length) with
    | .ok (entries, _) => .ok ⟨entries⟩
    | .error fault => .error (.badBody fault)
  else .error .badHeader

end Snapshot

namespace Table

/-- The bytes that a table is saved as. -/
def encode (t : Table) : Bytes := (Snapshot.capture t).encode

/-- The table that bytes were saved from. -/
def decode (bytes : Bytes) : Except Snapshot.Damage Table := do
  (← Snapshot.decode bytes).restore

end Table

end SymbolTable
