/-
# Paths of code objects

A path says where a code object lives: `A::B` is `B` nested in `A`, and `A#b` is the member `b`
of `A`.  Any text is a path.  The empty one belongs to the Root.

A path is cut at its last separator, which is found by looking at every place where one could
start: in `A:::B` the two colons next to `B` separate, and the first colon belongs to `A:`.

* `splitLast_eq_append`: nothing is lost when a path is cut;
* `length_parent?_lt`: the enclosing path is shorter, so going outward ends.
-/

namespace SymbolTable

/-- The two ways in which a name belongs to the path before it. -/
inductive Separator where
  /-- A class, module or constant inside a scope. -/
  | nested
  /-- A member of the instances of a scope, such as a method. -/
  | member
deriving DecidableEq, Repr

namespace Separator

def token : Separator → String
  | nested => "::"
  | member => "#"

/-- The order in which candidates are tried: nesting comes before membership. -/
def ordered : List Separator := [nested, member]

/-- The separator at the very start of a text, with the text after it. -/
def atStart : List Char → Option (Separator × List Char)
  | '#' :: after => some (member, after)
  | ':' :: ':' :: after => some (nested, after)
  | _ => none

theorem atStart_eq_append {cs after : List Char} {sep : Separator}
    (h : atStart cs = some (sep, after)) : cs = sep.token.toList ++ after := by
  unfold atStart at h
  split at h
  · simp only [Option.some.injEq, Prod.mk.injEq] at h
    obtain ⟨rfl, rfl⟩ := h
    simp [token]
  · simp only [Option.some.injEq, Prod.mk.injEq] at h
    obtain ⟨rfl, rfl⟩ := h
    simp [token]
  · simp at h

end Separator

/-- The place of a code object. -/
structure Path where
  text : String
deriving DecidableEq, Repr

namespace Path

/-! ## 1. The root and joining -/

def root : Path := ⟨""⟩

/-- The path of `name` inside `p`.  Inside the root it is the bare name. -/
def join (p : Path) (sep : Separator) (name : String) : Path :=
  if p = root then ⟨name⟩ else ⟨p.text ++ sep.token ++ name⟩

/-! ## 2. Cutting at the last separator -/

/-- Cuts a text at its last separator into what stands before it, the separator and what
stands after it. -/
def splitLast : List Char → Option (List Char × Separator × List Char)
  | [] => none
  | c :: rest =>
    match splitLast rest with
    | some (before, sep, after) => some (c :: before, sep, after)
    | none => (Separator.atStart (c :: rest)).map fun (sep, after) => ([], sep, after)

theorem splitLast_eq_append {cs before after : List Char} {sep : Separator}
    (h : splitLast cs = some (before, sep, after)) :
    cs = before ++ sep.token.toList ++ after := by
  induction cs generalizing before with
  | nil => simp [splitLast] at h
  | cons c rest ih =>
    rw [splitLast] at h
    split at h
    · next hr =>
      simp only [Option.some.injEq, Prod.mk.injEq] at h
      obtain ⟨rfl, rfl, rfl⟩ := h
      simp [ih hr]
    · obtain ⟨⟨sep', after'⟩, hs, he⟩ := Option.map_eq_some_iff.1 h
      simp only [Prod.mk.injEq] at he
      obtain ⟨rfl, rfl, rfl⟩ := he
      simpa using Separator.atStart_eq_append hs

/-- The last segment: what follows the last separator. -/
def name (p : Path) : String :=
  match splitLast p.text.toList with
  | some (_, _, after) => String.ofList after
  | none => p.text

/-- The separator in front of the last segment. -/
def separator? (p : Path) : Option Separator :=
  (splitLast p.text.toList).map (·.2.1)

/-- The path that encloses `p`.  A path of one segment lies in the root, and so does one that
starts with its only separator.  Nothing encloses the root. -/
def parent? (p : Path) : Option Path :=
  if p = root then none
  else
    match splitLast p.text.toList with
    | some (before, _, _) => some ⟨String.ofList before⟩
    | none => some root

theorem length_parent?_lt {p q : Path} (h : p.parent? = some q) :
    q.text.length < p.text.length := by
  unfold parent? at h
  split at h
  · simp at h
  · next hp =>
    split at h
    · next before sep after hs =>
      have hcs := congrArg List.length (splitLast_eq_append hs)
      obtain rfl := Option.some.inj h
      have : 0 < sep.token.toList.length := by cases sep <;> decide
      rw [List.length_append, List.length_append, String.length_toList] at hcs
      rw [String.length_ofList]
      omega
    · obtain rfl := Option.some.inj h
      have : p.text.length ≠ 0 := by
        intro h0
        exact hp (by cases p; simp_all [root])
      simp only [root, String.length_empty]
      omega

/-- Every path that encloses `p`, from the inside out. -/
def ancestors (p : Path) : List Path :=
  match _h : p.parent? with
  | none => []
  | some q => q :: q.ancestors
termination_by p.text.length
decreasing_by exact length_parent?_lt _h

/-! ## 3. Order and description -/

instance : LT Path := ⟨fun p q => p.text < q.text⟩

instance : Ord Path := ⟨fun p q => compare p.text q.text⟩

instance (p q : Path) : Decidable (p < q) := inferInstanceAs (Decidable (p.text < q.text))

/-- Paths in the order of their texts, which is the order of their UTF-8 bytes. -/
def sort (ps : List Path) : List Path := ps.mergeSort fun p q => decide (¬ q < p)

/-- How a message names a path. -/
def describe (p : Path) : String :=
  if p = root then "PathKey(<root>)" else "PathKey(" ++ p.text ++ ")"

end Path

end SymbolTable
