/-
# Folders

A folder lists files and folders by name, in the order of their names.  Names are valid: a name
is not empty, not `.` or `..`, has no `/` and no zero byte in it, and takes at most 255 bytes.

* `Ordered`: the names increase, at every depth;
* `ordered_set`, `ordered_erase`, `ordered_update`: changes keep the order;
* `get?_set`: what a look-up sees afterwards.
-/
import SymbolTable.Bytes

namespace SymbolTable

/-! ## 1. Names -/

/-- The length of the longest name, in bytes. -/
def maxNameBytes : Nat := 255

def IsFileName (s : String) : Prop :=
  s ≠ "" ∧ s ≠ "." ∧ s ≠ ".." ∧ '/' ∉ s.toList ∧ '\x00' ∉ s.toList ∧
    s.utf8ByteSize ≤ maxNameBytes

instance (s : String) : Decidable (IsFileName s) :=
  inferInstanceAs (Decidable (_ ∧ _))

structure FileName where
  text : String
  valid : IsFileName text
deriving DecidableEq, Repr

namespace FileName

def ofString? (s : String) : Option FileName := if h : IsFileName s then some ⟨s, h⟩ else none

instance : LT FileName := ⟨fun m n => m.text < n.text⟩

instance (m n : FileName) : Decidable (m < n) := inferInstanceAs (Decidable (m.text < n.text))

theorem lt_of_not_lt {m n : FileName} (h : ¬ m < n) (hne : m ≠ n) : n < m := by
  rcases Std.lt_trichotomy m.text n.text with h' | h' | h'
  · exact absurd h' h
  · exact absurd (by cases m; cases n; simp_all) hne
  · exact h'

theorem lt_trans {l m n : FileName} (h : l < m) (h' : m < n) : l < n := String.lt_trans h h'

end FileName

/-! ## 2. Folders -/

inductive Folder where
  | empty
  | file (name : FileName) (content : Bytes) (rest : Folder)
  | folder (name : FileName) (inner : Folder) (rest : Folder)
deriving DecidableEq, Repr

/-- What a name stands for in a folder. -/
inductive Entry where
  | file (content : Bytes)
  | folder (inner : Folder)
deriving DecidableEq, Repr

namespace Folder

def names : Folder → List FileName
  | empty => []
  | file name _ rest => name :: rest.names
  | folder name _ rest => name :: rest.names

def Ordered : Folder → Prop
  | empty => True
  | file name _ rest => (∀ next ∈ rest.names, name < next) ∧ rest.Ordered
  | folder name inner rest =>
    (∀ next ∈ rest.names, name < next) ∧ inner.Ordered ∧ rest.Ordered

end Folder

/-- An entry is in order if it is a file, or a folder that is. -/
def Entry.Ordered : Entry → Prop
  | .file _ => True
  | .folder inner => inner.Ordered

namespace Folder

def get? (name : FileName) : Folder → Option Entry
  | empty => none
  | file n content rest => if n = name then some (.file content) else rest.get? name
  | folder n inner rest => if n = name then some (.folder inner) else rest.get? name

/-- The folder that has `entry` in front of `rest`. -/
def cons (name : FileName) (entry : Entry) (rest : Folder) : Folder :=
  match entry with
  | .file content => file name content rest
  | .folder inner => folder name inner rest

/-- Puts an entry where its name belongs, in place of one of that name. -/
def set (name : FileName) (entry : Entry) : Folder → Folder
  | empty => cons name entry empty
  | file n content rest =>
    if name < n then cons name entry (file n content rest)
    else if name = n then cons name entry rest
    else file n content (rest.set name entry)
  | folder n inner rest =>
    if name < n then cons name entry (folder n inner rest)
    else if name = n then cons name entry rest
    else folder n inner (rest.set name entry)

def erase (name : FileName) : Folder → Folder
  | empty => empty
  | file n content rest => if n = name then rest else file n content (rest.erase name)
  | folder n inner rest => if n = name then rest else folder n inner (rest.erase name)

/-- What is at a place, given by the names that lead to it. -/
def at? : List FileName → Folder → Option Entry
  | [], f => some (.folder f)
  | [name], f => f.get? name
  | name :: next :: rest, f =>
    match f.get? name with
    | some (.folder inner) => inner.at? (next :: rest)
    | _ => none

/-- Changes the folder at a place.  Folders that are missing on the way are made, and nothing
happens if a file is in the way. -/
def update (change : Folder → Folder) : List FileName → Folder → Folder
  | [], f => change f
  | name :: rest, f =>
    match f.get? name with
    | some (.folder inner) => f.set name (.folder (inner.update change rest))
    | some (.file _) => f
    | none => f.set name (.folder (empty.update change rest))

/-! ## 3. Look-ups -/

theorem get?_cons (name m : FileName) (entry : Entry) (rest : Folder) :
    (cons name entry rest).get? m = if name = m then some entry else rest.get? m := by
  cases entry <;> rfl

theorem get?_set (name m : FileName) (entry : Entry) (f : Folder) :
    (f.set name entry).get? m = if name = m then some entry else f.get? m := by
  induction f with
  | empty => exact get?_cons name m entry empty
  | file n content rest ih =>
    rw [set]
    split
    · exact get?_cons name m entry _
    · split
      · next h => subst h; rw [get?_cons, get?]; split <;> rfl
      · next hne =>
        rw [get?, ih, get?]
        by_cases h : n = m
        · rw [if_pos h, if_pos h, if_neg fun e => hne (e.trans h.symm)]
        · rw [if_neg h, if_neg h]
  | folder n inner rest _ ih =>
    rw [set]
    split
    · exact get?_cons name m entry _
    · split
      · next h => subst h; rw [get?_cons, get?]; split <;> rfl
      · next hne =>
        rw [get?, ih, get?]
        by_cases h : n = m
        · rw [if_pos h, if_pos h, if_neg fun e => hne (e.trans h.symm)]
        · rw [if_neg h, if_neg h]

/-! ## 4. Order is kept -/

theorem names_cons (name : FileName) (entry : Entry) (rest : Folder) :
    (cons name entry rest).names = name :: rest.names := by
  cases entry <;> rfl

theorem mem_names_set {m name : FileName} {entry : Entry} {f : Folder}
    (h : m ∈ (f.set name entry).names) : m = name ∨ m ∈ f.names := by
  induction f with
  | empty => simpa [set, names_cons, names] using h
  | file n content rest ih =>
    rw [set] at h
    split at h
    · simpa [names_cons] using h
    · split at h
      · rw [names_cons] at h
        simp only [names, List.mem_cons] at h ⊢
        exact h.imp_right Or.inr
      · simp only [names, List.mem_cons] at h ⊢
        rcases h with h | h
        · exact Or.inr (Or.inl h)
        · exact (ih h).imp_right Or.inr
  | folder n inner rest _ ih =>
    rw [set] at h
    split at h
    · simpa [names_cons] using h
    · split at h
      · rw [names_cons] at h
        simp only [names, List.mem_cons] at h ⊢
        exact h.imp_right Or.inr
      · simp only [names, List.mem_cons] at h ⊢
        rcases h with h | h
        · exact Or.inr (Or.inl h)
        · exact (ih h).imp_right Or.inr

theorem mem_names_erase {m name : FileName} {f : Folder} (h : m ∈ (f.erase name).names) :
    m ∈ f.names := by
  induction f with
  | empty => exact h
  | file n content rest ih =>
    rw [erase] at h
    split at h
    · exact List.mem_cons_of_mem _ h
    · simp only [names, List.mem_cons] at h ⊢
      exact h.imp_right ih
  | folder n inner rest _ ih =>
    rw [erase] at h
    split at h
    · exact List.mem_cons_of_mem _ h
    · simp only [names, List.mem_cons] at h ⊢
      exact h.imp_right ih

theorem ordered_cons {name : FileName} {entry : Entry} {rest : Folder}
    (hn : ∀ next ∈ rest.names, name < next) (he : entry.Ordered) (hr : rest.Ordered) :
    (cons name entry rest).Ordered := by
  cases entry with
  | file content => exact ⟨hn, hr⟩
  | folder inner => exact ⟨hn, he, hr⟩

theorem ordered_get? {name : FileName} {entry : Entry} {f : Folder} (hf : f.Ordered)
    (h : f.get? name = some entry) : entry.Ordered := by
  induction f with
  | empty => simp [get?] at h
  | file n content rest ih =>
    rw [get?] at h
    split at h
    · obtain rfl := Option.some.inj h
      trivial
    · exact ih hf.2 h
  | folder n inner rest _ ih =>
    rw [get?] at h
    split at h
    · obtain rfl := Option.some.inj h
      exact hf.2.1
    · exact ih hf.2.2 h

theorem before_all {m n : FileName} {ns : List FileName} (hlt : m < n)
    (h : ∀ next ∈ ns, n < next) : ∀ next ∈ n :: ns, m < next := by
  intro next hnext
  rcases List.mem_cons.1 hnext with rfl | hnext
  · exact hlt
  · exact FileName.lt_trans hlt (h next hnext)

theorem before_set {m name : FileName} {entry : Entry} {rest : Folder} (hlt : m < name)
    (h : ∀ next ∈ rest.names, m < next) : ∀ next ∈ (rest.set name entry).names, m < next := by
  intro next hnext
  rcases mem_names_set hnext with rfl | hnext
  · exact hlt
  · exact h next hnext

theorem ordered_set {name : FileName} {entry : Entry} {f : Folder} (hf : f.Ordered)
    (he : entry.Ordered) : (f.set name entry).Ordered := by
  induction f with
  | empty => exact ordered_cons (by simp [names]) he trivial
  | file n content rest ih =>
    rw [set]
    split
    · next hlt => exact ordered_cons (before_all hlt hf.1) he hf
    · next hlt =>
      split
      · next heq => exact ordered_cons (heq ▸ hf.1) he hf.2
      · next hne => exact ⟨before_set (FileName.lt_of_not_lt hlt hne) hf.1, ih hf.2⟩
  | folder n inner rest _ ih =>
    rw [set]
    split
    · next hlt => exact ordered_cons (before_all hlt hf.1) he hf
    · next hlt =>
      split
      · next heq => exact ordered_cons (heq ▸ hf.1) he hf.2.2
      · next hne =>
        exact ⟨before_set (FileName.lt_of_not_lt hlt hne) hf.1, hf.2.1, ih hf.2.2⟩

theorem ordered_erase {name : FileName} {f : Folder} (hf : f.Ordered) :
    (f.erase name).Ordered := by
  induction f with
  | empty => trivial
  | file n content rest ih =>
    rw [erase]
    split
    · exact hf.2
    · exact ⟨fun next hnext => hf.1 next (mem_names_erase hnext), ih hf.2⟩
  | folder n inner rest _ ih =>
    rw [erase]
    split
    · exact hf.2.2
    · exact ⟨fun next hnext => hf.1 next (mem_names_erase hnext), hf.2.1, ih hf.2.2⟩

theorem ordered_update {change : Folder → Folder} (hc : ∀ g, g.Ordered → (change g).Ordered) :
    ∀ (place : List FileName) {f : Folder}, f.Ordered → (f.update change place).Ordered
  | [], _, hf => hc _ hf
  | name :: rest, f, hf => by
    rw [update]
    split
    · next inner h => exact ordered_set hf (ordered_update hc rest (ordered_get? hf h))
    · exact hf
    · exact ordered_set hf (ordered_update hc rest (f := empty) trivial)

end Folder

end SymbolTable
