/-
# Code objects, filters and placeholders

An entity is one code object: where it is, what encloses it, what kind of thing it is, what it
can do, and what the parser had to say about it.  `parent` is a path, not a link: it is looked
up when it is needed, and nothing requires that it leads anywhere.

A placeholder stands for a name that was not found.  It can be offered to a table like an
entity, and is never stored.
-/
import SymbolTable.Path
import SymbolTable.Value

namespace SymbolTable

/-! ## 1. Kinds and capabilities -/

/-- What sort of thing an entity is, such as `class` or `method`.  The parser chooses the tags. -/
structure Kind where
  tag : String
deriving DecidableEq, Repr

namespace Kind

/-- The kind of the Root. -/
def root : Kind := ⟨"root"⟩

def describe (k : Kind) : String := "TypeTag(" ++ k.tag ++ ")"

end Kind

/-- Something that entities of several kinds have in common. -/
structure Capability where
  name : String
deriving DecidableEq, Repr

namespace Capability

/-- Being able to contain other entities. -/
def container : Capability := ⟨"namespace"⟩

def describe (c : Capability) : String := "Capability(" ++ c.name ++ ")"

end Capability

/-! ## 2. Entities -/

structure Entity where
  path : Path
  parent : Option Path
  kind : Kind
  capabilities : List Capability
  payload : Payload
deriving DecidableEq, Repr

namespace Entity

/-- The Root of a fresh table. -/
def root : Entity := ⟨.root, none, .root, [.container], .empty⟩

/-- An entity called `name` inside `outer`. -/
def child (outer : Entity) (sep : Separator) (name : String) (kind : Kind) : Entity :=
  ⟨outer.path.join sep name, some outer.path, kind, [], .empty⟩

/-- An entity at `path`, enclosed by what its path says. -/
def atPath (path : Path) (kind : Kind) : Entity :=
  ⟨path, path.parent?, kind, [], .empty⟩

def withParent (e : Entity) (parent : Option Path) : Entity := { e with parent }

/-- A capability is listed once, where it was first given. -/
def withCapability (e : Entity) (c : Capability) : Entity :=
  if c ∈ e.capabilities then e else { e with capabilities := e.capabilities ++ [c] }

def withProperty (e : Entity) (key : String) (value : Value) : Entity :=
  { e with payload := e.payload.set key value }

def isRoot (e : Entity) : Bool := e.path = .root

def name (e : Entity) : String := e.path.name

def has (e : Entity) (c : Capability) : Bool := c ∈ e.capabilities

/-- Equality that does not count the order of the payload's keys.  The order of the capabilities
counts. -/
def same (a b : Entity) : Bool :=
  a.path = b.path && a.parent = b.parent && a.kind = b.kind &&
    a.capabilities = b.capabilities && a.payload.same b.payload

end Entity

/-! ## 3. Filters -/

/-- What a listing of entities is restricted to. -/
inductive Filter where
  | kind (k : Kind)
  | capability (c : Capability)
deriving DecidableEq, Repr

def Entity.matches (e : Entity) : Filter → Bool
  | .kind k => e.kind = k
  | .capability c => e.has c

/-! ## 4. Placeholders -/

/-- A name that was not found, with the scope in which it was looked for, both as given. -/
structure Placeholder where
  scope : Option Path
  name : String
deriving DecidableEq, Repr

/-- What may be offered to a table. -/
inductive Item where
  | entity (e : Entity)
  | placeholder (p : Placeholder)
deriving DecidableEq, Repr

end SymbolTable
