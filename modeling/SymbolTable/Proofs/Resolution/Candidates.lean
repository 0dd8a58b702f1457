/-
# What a name may stand for

A name has one sequence of candidate paths, which the table and the scope determine before
anything is looked up: for an absolute name the name itself and the name without its `::`; for a
relative name its paths in every scope that is searched, and at last its global paths.

* `resolve_eq_firstStored`: a name resolves to what is stored at its first candidate that is
  stored, and to nothing if none is.
-/
import SymbolTable.Proofs.Resolution.Scopes

namespace SymbolTable

/-! ## 1. The candidates -/

/-- What follows `token` at the start of a name. -/
def after? (token name : String) : Option String :=
  (token.toList.isPrefixOf? name.toList).map String.ofList

/-- The paths that a local name may have in a scope. -/
def Path.within (scope : Path) (name : String) : List Path :=
  if scope = .root then [⟨name⟩]
  else [⟨scope.text ++ "::" ++ name⟩, ⟨scope.text ++ "#" ++ name⟩]

namespace Table

variable (t : Table)

/-- The scope in which a search starts: the Root if none is given or if it is at the empty path. -/
def startOf (scope : Option Entity) : Entity :=
  match scope with
  | some e => if e.path = .root then t.root else e
  | none => t.root

/-- The paths at which a name is looked for, in their order. -/
def candidates (scope : Option Entity) (name : String) : List Path :=
  match after? "::" name with
  | some rest => [⟨name⟩, ⟨rest⟩]
  | none =>
    let bare := (after? "#" name).getD name
    (t.scopes (t.startOf scope)).flatMap (fun p => p.within bare) ++
      [⟨"::" ++ bare⟩, ⟨"#" ++ bare⟩]

/-- The entity at the first of the paths at which one is stored. -/
def firstStored (ps : List Path) : Option Entity := ps.findSome? t.get?

/-! ## 2. Forms of names -/

theorem after?_nested (name : String) : after? "::" name = Name.absolute? name := by
  unfold after? Name.absolute?
  rcases name.toList with _ | ⟨c, _ | ⟨d, rest⟩⟩
  · rfl
  · by_cases hc : ':' = c <;> simp [List.isPrefixOf?, hc]
  · by_cases hc : ':' = c
    · subst hc
      by_cases hd : ':' = d
      · subst hd
        rfl
      · have hd' : ¬ d = ':' := fun e => hd e.symm
        simp [List.isPrefixOf?, hd, hd']
    · have hc' : ¬ c = ':' := fun e => hc e.symm
      simp [List.isPrefixOf?, hc, hc']

theorem after?_member (name : String) : (after? "#" name).getD name = Name.bare name := by
  unfold after? Name.bare
  rcases name.toList with _ | ⟨c, rest⟩
  · rfl
  · by_cases hc : '#' = c
    · subst hc
      rfl
    · have hc' : ¬ c = '#' := fun e => hc e.symm
      simp [List.isPrefixOf?, hc, hc']

/-! ## 3. Looking into scopes -/

theorem firstStored_append (ps qs : List Path) :
    t.firstStored (ps ++ qs) = (t.firstStored ps).or (t.firstStored qs) :=
  List.findSome?_append

theorem firstStored_cons (p : Path) (ps : List Path) :
    t.firstStored (p :: ps) = (t.get? p).or (t.firstStored ps) :=
  findSome?_cons_eq_or _ _ _

variable {t} in
theorem firstStored_eq_none_iff {ps : List Path} :
    t.firstStored ps = none ↔ ∀ p ∈ ps, ¬ t.contains p := by
  simp [firstStored, contains]

theorem firstStored_flatMap {α : Type} (f : α → List Path) (l : List α) :
    t.firstStored (l.flatMap f) = l.findSome? fun x => t.firstStored (f x) := by
  induction l with
  | nil => rfl
  | cons x l ih => rw [List.flatMap_cons, firstStored_append, ih, findSome?_cons_eq_or]

theorem memberOf?_eq_firstStored (scope : Path) (name : String) :
    t.memberOf? scope name = t.firstStored (scope.within name) := by
  unfold memberOf? firstStored Path.within
  by_cases h : scope = .root
  · cases hg : t.get? ⟨name⟩ <;> simp [Separator.ordered, Path.join, h, hg]
  · simp [Separator.ordered, Path.join, h, Separator.token, findSome?_cons_eq_or]

theorem global?_eq_firstStored (name : String) :
    t.global? name = t.firstStored [⟨"::" ++ name⟩, ⟨"#" ++ name⟩] := rfl

/-- A search that starts at the empty path is a search from the Root, whatever else the scope
says. -/
theorem searchFrom_startOf (scope : Option Entity) (name : String) :
    t.searchFrom (t.startOf scope) name = t.searchFrom (scope.getD t.root) name := by
  cases scope with
  | none => rfl
  | some e =>
    unfold startOf
    by_cases h : e.path = .root
    · simp [searchFrom, h, t.search_of_root h, t.search_of_root t.path_root]
    · simp [h]

theorem lookup_eq_firstStored (scope : Option Entity) (name : String) :
    t.lookup scope name = t.firstStored (t.candidates scope name) := by
  unfold lookup candidates
  rw [after?_nested, after?_member]
  cases Name.absolute? name with
  | some rest => simp [firstStored, findSome?_cons_eq_or]
  | none =>
    have hscope : t.searchFrom (scope.getD t.root) (Name.bare name) =
        t.firstStored
          ((t.scopes (t.startOf scope)).flatMap fun p => p.within (Name.bare name)) := by
      rw [← searchFrom_startOf, searchFrom_eq_scopes, firstStored_flatMap]
      simp only [memberOf?_eq_firstStored]
    rw [firstStored_append, ← hscope, ← global?_eq_firstStored]

/-! ## 4. Resolution -/

theorem entity?_resolve (scope : Option Entity) (name : String) (wanted : Bool) :
    (t.resolve scope name wanted).entity? = t.lookup scope name := by
  unfold resolve
  cases t.lookup scope name with
  | some e => rfl
  | none => cases wanted <;> rfl

variable {t} in
theorem resolve_eq_found_iff {scope : Option Entity} {name : String} {wanted : Bool} {e : Entity} :
    t.resolve scope name wanted = .found e ↔ t.lookup scope name = some e := by
  unfold resolve
  cases t.lookup scope name with
  | some found => simp
  | none => cases wanted <;> simp

/-- **A name means what is stored at its first stored candidate.**  If nothing is stored at any of
them, the answer is a placeholder with the scope's path and the name as they were given, or
nothing if no placeholder is wanted. -/
theorem resolve_eq_firstStored (scope : Option Entity) (name : String) (wanted : Bool) :
    t.resolve scope name wanted =
      match t.firstStored (t.candidates scope name) with
      | some e => .found e
      | none => if wanted then .unresolved ⟨scope.map Entity.path, name⟩ else .notFound := by
  have hlookup := t.lookup_eq_firstStored scope name
  cases hstored : t.firstStored (t.candidates scope name) with
  | some e =>
    rw [hstored] at hlookup
    simp only [resolve, hlookup]
  | none =>
    rw [hstored] at hlookup
    simp only [resolve, hlookup]

end Table
end SymbolTable
