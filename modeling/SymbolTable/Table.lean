/-
# The table of code objects

A table holds one entity for each path, in the order in which the paths first arrived.  One of
them is the Root, at the empty path.  The Root is always there: it can be replaced by another
entity of kind `root`, but no listing shows it and nothing removes it.

The entities are kept in a list, without keys of their own: what is stored under a path is the
entity that has this path.  That each entity is stored under its own path is therefore true of
every table by the way it is represented, and nothing has to keep it true; that no two entities
have one path is not, and is part of `WellFormed`.

* `WellFormed`: the paths are distinct and the Root is among the entities;
* `isSome_get?_iff`: what is found is at one of the paths;
* `get?_insert`, `get?_delete`: what a look-up sees after a change;
* `paths_insert`, `paths_delete`: what becomes of the order.
-/
import SymbolTable.Entity

namespace SymbolTable

structure Table where
  entities : List Entity
deriving DecidableEq, Repr

namespace Table

/-! ## 1. Reading -/

def fresh : Table := ⟨[.root]⟩

def get? (t : Table) (p : Path) : Option Entity := t.entities.find? fun e => e.path = p

/-- The Root; a table without one behaves as if it had a fresh one. -/
def root (t : Table) : Entity := (t.get? .root).getD .root

def contains (t : Table) (p : Path) : Bool := (t.get? p).isSome

/-- The path of every entity, the Root's among them. -/
def paths (t : Table) : List Path := t.entities.map Entity.path

/-- The entities that match one of the filters, or all of them if there is no filter.  The Root
is not listed. -/
def select (t : Table) (filters : List Filter) : List Entity :=
  (t.entities.filter fun e => !e.isRoot).filter fun e => filters.isEmpty || filters.any e.matches

/-- How many entities there are besides the Root. -/
def size (t : Table) : Nat := t.entities.length - 1

def isEmpty (t : Table) : Bool := t.size = 0

/-- What every table is in after any number of changes. -/
structure WellFormed (t : Table) : Prop where
  nodup : t.paths.Nodup
  root : ∃ e ∈ t.entities, e.path = .root ∧ e.kind = .root

/-! ## 2. Changing -/

/-- The empty path is for the Root: no entity of another kind is accepted there. -/
def accepts (e : Entity) : Bool := !e.isRoot || e.kind = .root

/-- Stores an entity at its path.  One that was there before gives up its place in the order. -/
def insert (t : Table) (e : Entity) : Table :=
  if accepts e then ⟨upsert Entity.path e t.entities⟩ else t

/-- Stores an entity.  A placeholder is let go. -/
def register (t : Table) : Item → Table
  | .entity e => t.insert e
  | .placeholder _ => t

def insertAll (t : Table) (es : List Entity) : Table := es.foldl insert t

/-- Removes what is at `p`, if that is not the Root, and returns it.  The others keep their
order. -/
def delete (t : Table) (p : Path) : Option Entity × Table :=
  if p = .root then (none, t)
  else (t.get? p, ⟨without Entity.path p t.entities⟩)

/-- Forgets everything. -/
def clear (_ : Table) : Table := fresh

/-! ## 3. Comparing -/

/-- Two tables say the same when they hold the same entities at the same paths, in any order. -/
def same (t u : Table) : Bool :=
  t.entities.length = u.entities.length &&
    t.entities.all fun e => (u.get? e.path).any e.same

/-! ## 4. What look-ups find -/

theorem path_of_get? {t : Table} {p : Path} {e : Entity} (h : t.get? p = some e) : e.path = p := by
  simpa using List.find?_some h

theorem isSome_get?_iff {t : Table} {p : Path} : (t.get? p).isSome ↔ p ∈ t.paths := by
  simp [get?, paths, List.find?_isSome]

theorem mem_paths_of_get? {t : Table} {p : Path} {e : Entity} (h : t.get? p = some e) :
    p ∈ t.paths :=
  isSome_get?_iff.1 (by simp [h])

@[simp] theorem path_root (t : Table) : t.root.path = .root := by
  unfold root
  cases h : t.get? .root with
  | none => rfl
  | some e => exact path_of_get? h

/-! ## 5. What changes do to the view -/

theorem wellFormed_fresh : fresh.WellFormed :=
  ⟨by simp [fresh, paths], ⟨.root, by simp [fresh], rfl, rfl⟩⟩

theorem get?_insert (t : Table) (e : Entity) (p : Path) :
    (t.insert e).get? p = if accepts e ∧ e.path = p then some e else t.get? p := by
  unfold insert
  by_cases h : accepts e
  · simp [h, get?, find?_upsert]
  · simp [h]

theorem paths_insert (t : Table) {e : Entity} (h : accepts e) :
    (t.insert e).paths = if e.path ∈ t.paths then t.paths else t.paths ++ [e.path] := by
  simp [insert, h, paths, map_key_upsert]

theorem get?_delete (t : Table) (p q : Path) (hp : p ≠ .root) :
    (t.delete p).2.get? q = if q = p then none else t.get? q := by
  simp [delete, hp, get?, find?_without]

theorem paths_delete (t : Table) (p : Path) (hp : p ≠ .root) :
    (t.delete p).2.paths = t.paths.filter fun q => q ≠ p := by
  simp [delete, hp, paths, map_key_without]

end Table

end SymbolTable
