/-
# What a name means

A name is looked for from a scope, as a compiler would.  There are three forms:

* `::name` is absolute: it is tried as written, and then without the `::`;
* `#name` is `name`: one `#` in front is dropped;
* `name` is relative: it is looked for in the scope, in what encloses the scope, and so on to
  the Root, and at last as `::name` and `#name`.

In each scope nesting comes before membership.  What encloses a scope is what the table holds at
the scope's parent path, or else the Root.  Parents may form a cycle, so the search keeps the
entities that it has not yet visited and goes on to one of those only; when the parent is not
among them, the Root is next and is the last.

Nothing found is an answer too: a placeholder that keeps the question, or nothing.
-/
import SymbolTable.Table

namespace SymbolTable

/-- What a name resolves to. -/
inductive Answer where
  | found (e : Entity)
  | unresolved (p : Placeholder)
  | notFound
deriving DecidableEq, Repr

def Answer.entity? : Answer → Option Entity
  | found e => some e
  | _ => none

namespace Name

/-- The rest of an absolute name. -/
def absolute? (name : String) : Option String :=
  match name.toList with
  | ':' :: ':' :: rest => some (String.ofList rest)
  | _ => none

/-- A relative name as it is looked for: without one `#` in front. -/
def bare (name : String) : String :=
  match name.toList with
  | '#' :: rest => String.ofList rest
  | _ => name

end Name

/-- What a search has done: the scopes that it has looked into, from first to last, and what it has
found in the last of them. -/
structure Search where
  scopes : List Path
  answer : Option Entity
deriving DecidableEq, Repr

/-- A search that has looked into one more scope before. -/
def Search.after (scope : Path) (s : Search) : Search := { s with scopes := scope :: s.scopes }

namespace Table

variable (t : Table)

/-- `name` in one scope, nested before member. -/
def memberOf? (scope : Path) (name : String) : Option Entity :=
  Separator.ordered.findSome? fun sep => t.get? (scope.join sep name)

/-- Looks for `name` in the Root, where every search ends. -/
def searchRoot (name : String) : Search := ⟨[.root], t.memberOf? .root name⟩

/-- The entities that a search from `start` can still go on to. -/
def others (start : Entity) : List Entity :=
  without Entity.path start.path (without Entity.path .root t.entities)

/-- Looks for `name` in `scope` and outward.  `unseen` are the entities not yet visited, without
the Root. -/
def searchOutward (name : String) (unseen : List Entity) (scope : Entity) : Search :=
  match t.memberOf? scope.path name with
  | some e => ⟨[scope.path], some e⟩
  | none =>
    match _h : scope.parent.bind fun p => unseen.find? fun e => e.path = p with
    | some outer =>
      (searchOutward name (without Entity.path outer.path unseen) outer).after scope.path
    | none => (t.searchRoot name).after scope.path
termination_by unseen.length
decreasing_by
  obtain ⟨p, -, hp⟩ := Option.bind_eq_some_iff.1 _h
  exact length_without_lt (List.mem_of_find?_eq_some hp)

/-- Looks for `name` from `start` to the Root. -/
def search (start : Entity) (name : String) : Search :=
  if start.isRoot then t.searchRoot name else t.searchOutward name (t.others start) start

/-- What a search from `start` finds. -/
def searchFrom (start : Entity) (name : String) : Option Entity := (t.search start name).answer

/-- The last resort of a relative name: a path that starts with a separator. -/
def global? (name : String) : Option Entity :=
  Separator.ordered.findSome? fun sep => t.get? ⟨sep.token ++ name⟩

/-- The entity that `name` means in `scope`.  Without a scope the search starts at the Root. -/
def lookup (scope : Option Entity) (name : String) : Option Entity :=
  match Name.absolute? name with
  | some rest => (t.get? ⟨name⟩).or (t.get? ⟨rest⟩)
  | none =>
    (t.searchFrom (scope.getD t.root) (Name.bare name)).or (t.global? (Name.bare name))

/-- Resolves `name` in `scope`.  A name that is not found becomes a placeholder if one is wanted. -/
def resolve (scope : Option Entity) (name : String) (wanted : Bool) : Answer :=
  match t.lookup scope name with
  | some e => .found e
  | none => if wanted then .unresolved ⟨scope.map Entity.path, name⟩ else .notFound

end Table

/-- Asks a placeholder's question again.  The scope is what the table now holds at its path. -/
def Placeholder.upgrade? (p : Placeholder) (t : Table) : Option Entity :=
  t.lookup (p.scope.bind t.get?) p.name

end SymbolTable
