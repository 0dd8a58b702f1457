/-
# What a change to a folder does at each place

A place is reached name by name, so everything here goes by induction on the names: the first one
leads into a folder, and the rest is a place in there.

A folder on the way to a change is a different folder afterwards, but still one.  `sight` is what
can be told of a place without looking into folders, and it changes at one place only.

* `at?_append`, `at?_update`: what stands at a place below a folder, before and after a change;
* `sight_update_set`: putting a file somewhere changes nothing that is seen elsewhere;
* `update_update`, `set_set`: of two changes at one place, the second one decides.
-/
import SymbolTable.FileTree.Folder

namespace SymbolTable

/-- What stands at a place, counted from an entry. -/
def Entry.at? (place : List FileName) : Entry → Option Entry
  | .folder inner => inner.at? place
  | .file content => if place = [] then some (.file content) else none

/-- The content of a file; a folder has none of its own. -/
def Entry.content? : Entry → Option Bytes
  | .file content => some content
  | .folder _ => none

namespace Folder

/-! ## 1. Places, name by name -/

@[simp] theorem at?_nil (f : Folder) : f.at? [] = some (.folder f) := by
  cases f <;> rfl

theorem at?_cons (f : Folder) (name : FileName) (rest : List FileName) :
    f.at? (name :: rest) = (f.get? name).bind fun entry => entry.at? rest := by
  cases rest with
  | nil =>
    rw [at?]
    cases f.get? name with
    | none => rfl
    | some entry => cases entry <;> simp [Entry.at?]
  | cons next rest =>
    rw [at?]
    cases f.get? name with
    | none => rfl
    | some entry => cases entry <;> simp [Entry.at?]

/-- The way to a folder leads through a folder. -/
theorem at?_cons_eq_folder_iff {f g : Folder} {name : FileName} {rest : List FileName} :
    f.at? (name :: rest) = some (.folder g) ↔
      ∃ inner, f.get? name = some (.folder inner) ∧ inner.at? rest = some (.folder g) := by
  rw [at?_cons, Option.bind_eq_some_iff]
  constructor
  · rintro ⟨entry, hget, hat⟩
    cases entry with
    | folder inner => exact ⟨inner, hget, hat⟩
    | file content =>
      rw [Entry.at?] at hat
      split at hat
      · cases hat
      · cases hat
  · rintro ⟨inner, hget, hat⟩
    exact ⟨.folder inner, hget, hat⟩

theorem at?_set_cons (f : Folder) (name next : FileName) (entry : Entry) (rest : List FileName) :
    (f.set name entry).at? (next :: rest) =
      if name = next then entry.at? rest else f.at? (next :: rest) := by
  rw [at?_cons, get?_set]
  split
  · rfl
  · rw [at?_cons]

theorem update_cons {f inner : Folder} {name : FileName} (change : Folder → Folder)
    (rest : List FileName) (h : f.get? name = some (.folder inner)) :
    f.update change (name :: rest) = f.set name (.folder (inner.update change rest)) := by
  rw [update, h]

/-! ## 2. At and below a change -/

theorem at?_append (rest : List FileName) (place : List FileName) :
    ∀ {f g : Folder}, f.at? place = some (.folder g) → f.at? (place ++ rest) = g.at? rest := by
  induction place with
  | nil =>
    intro f g h
    rw [at?_nil, Option.some.injEq, Entry.folder.injEq] at h
    rw [h, List.nil_append]
  | cons name place ih =>
    intro f g h
    obtain ⟨inner, hget, hat⟩ := at?_cons_eq_folder_iff.1 h
    rw [List.cons_append, at?_cons, hget]
    exact ih hat

theorem at?_update {change : Folder → Folder} (rest : List FileName) (place : List FileName) :
    ∀ {f g : Folder}, f.at? place = some (.folder g) →
      (f.update change place).at? (place ++ rest) = (change g).at? rest := by
  induction place with
  | nil =>
    intro f g h
    rw [at?_nil, Option.some.injEq, Entry.folder.injEq] at h
    rw [update, h, List.nil_append]
  | cons name place ih =>
    intro f g h
    obtain ⟨inner, hget, hat⟩ := at?_cons_eq_folder_iff.1 h
    rw [update_cons change place hget, List.cons_append, at?_set_cons, if_pos rfl]
    exact ih hat

/-- What stands anywhere stands in a folder. -/
theorem exists_folder_of_at? {name : FileName} {entry : Entry} (place : List FileName) :
    ∀ {f : Folder}, f.at? (place ++ [name]) = some entry →
      ∃ g, f.at? place = some (.folder g) := by
  induction place with
  | nil => exact fun {f} _ => ⟨f, at?_nil f⟩
  | cons first place ih =>
    intro f h
    rw [List.cons_append, at?_cons] at h
    obtain ⟨inner, hinner, hat⟩ := Option.bind_eq_some_iff.1 h
    cases inner with
    | folder inner =>
      obtain ⟨g, hg⟩ := ih hat
      exact ⟨g, at?_cons_eq_folder_iff.2 ⟨inner, hinner, hg⟩⟩
    | file content => simp [Entry.at?] at hat

/-! ## 3. Elsewhere -/

/-- What is seen at a place: nothing, a file with its content, or a folder. -/
def sight (f : Folder) (place : List FileName) : Option (Option Bytes) :=
  (f.at? place).map Entry.content?

theorem sight_eq_folder_iff {f : Folder} {place : List FileName} :
    f.sight place = some none ↔ ∃ g, f.at? place = some (.folder g) := by
  unfold sight
  cases f.at? place with
  | none => simp
  | some entry => cases entry <;> simp [Entry.content?]

theorem sight_eq_file_iff {f : Folder} {place : List FileName} {content : Bytes} :
    f.sight place = some (some content) ↔ f.at? place = some (.file content) := by
  unfold sight
  cases f.at? place with
  | none => simp
  | some entry => cases entry <;> simp [Entry.content?]

/-- Nothing is below a file, and nothing is below nothing. -/
theorem at?_cons_eq_none {f : Folder} {name : FileName} {rest : List FileName}
    (h : ∀ inner, f.get? name ≠ some (.folder inner)) (hrest : rest ≠ []) :
    f.at? (name :: rest) = none := by
  rw [at?_cons]
  cases hget : f.get? name with
  | none => rfl
  | some entry =>
    cases entry with
    | file content => simp [Entry.at?, hrest]
    | folder inner => exact absurd hget (h inner)

/-- **A file that is put at a place changes nothing that is seen elsewhere**, unless it takes the
place of a folder. -/
theorem sight_update_set {name : FileName} {content : Bytes} (place : List FileName) :
    ∀ {f g : Folder}, f.at? place = some (.folder g) →
      (∀ inner, g.get? name ≠ some (.folder inner)) →
        ∀ {other : List FileName}, other ≠ place ++ [name] →
          (f.update (set name (.file content)) place).sight other = f.sight other := by
  induction place with
  | nil =>
    intro f g hat hname other hother
    rw [at?_nil, Option.some.injEq, Entry.folder.injEq] at hat
    subst hat
    unfold sight
    cases other with
    | nil => simp [Entry.content?]
    | cons next rest =>
      rw [update, at?_set_cons]
      by_cases hnext : name = next
      · subst hnext
        have hrest : rest ≠ [] := fun h => hother (by rw [h]; rfl)
        rw [if_pos rfl, at?_cons_eq_none hname hrest, Entry.at?, if_neg hrest]
      · rw [if_neg hnext]
  | cons first place ih =>
    intro f g hat hname other hother
    obtain ⟨inner, hget, hinner⟩ := at?_cons_eq_folder_iff.1 hat
    rw [update_cons _ place hget]
    unfold sight
    cases other with
    | nil => simp [Entry.content?]
    | cons next rest =>
      rw [at?_set_cons]
      by_cases hnext : first = next
      · subst hnext
        have hrest : rest ≠ place ++ [name] := fun h => hother (by rw [h]; rfl)
        rw [if_pos rfl, at?_cons, hget]
        exact ih hinner hname hrest
      · rw [if_neg hnext]

/-! ## 4. Twice at one place -/

theorem set_cons_self (name : FileName) (entry entry' : Entry) (rest : Folder) :
    (cons name entry rest).set name entry' = cons name entry' rest := by
  have hirrefl : ¬ name < name := String.lt_irrefl name.text
  cases entry <;> simp [cons, set, hirrefl]

theorem set_set (name : FileName) (entry entry' : Entry) (f : Folder) :
    (f.set name entry).set name entry' = f.set name entry' := by
  induction f with
  | empty => exact set_cons_self name entry entry' empty
  | file n content rest ih =>
    rw [set, set]
    by_cases hlt : name < n
    · rw [if_pos hlt, if_pos hlt, set_cons_self]
    · rw [if_neg hlt, if_neg hlt]
      by_cases heq : name = n
      · rw [if_pos heq, if_pos heq, set_cons_self]
      · rw [if_neg heq, if_neg heq, set, if_neg hlt, if_neg heq, ih]
  | folder n inner rest _ ih =>
    rw [set, set]
    by_cases hlt : name < n
    · rw [if_pos hlt, if_pos hlt, set_cons_self]
    · rw [if_neg hlt, if_neg hlt]
      by_cases heq : name = n
      · rw [if_pos heq, if_pos heq, set_cons_self]
      · rw [if_neg heq, if_neg heq, set, if_neg hlt, if_neg heq, ih]

theorem update_update (change change' : Folder → Folder) (place : List FileName) :
    ∀ {f g : Folder}, f.at? place = some (.folder g) →
      (f.update change place).update change' place =
        f.update (fun h => change' (change h)) place := by
  induction place with
  | nil => exact fun _ => rfl
  | cons name place ih =>
    intro f g hat
    obtain ⟨inner, hget, hinner⟩ := at?_cons_eq_folder_iff.1 hat
    have hset : (f.set name (.folder (inner.update change place))).get? name =
        some (.folder (inner.update change place)) := by
      rw [get?_set, if_pos rfl]
    rw [update_cons change place hget, update_cons change' place hset, set_set, ih hinner,
      ← update_cons _ place hget]

end Folder
end SymbolTable
