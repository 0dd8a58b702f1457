/-
# What a walk finds

A walk lists the names of a folder in their order, and what is in a folder at the folder's place.
That is the order of the places: two places are compared name by name, by the bytes of the names,
from the outside in.  It is not the order of the paths as texts, because there a `/` comes after
some of the characters that names are made of: `a/x` is listed before `a.b`.

Names in a folder are distinct, so each file has one place and is listed once.  The walk reaches
every folder, but it opens each by its path, and a folder that cannot be opened stops it.

* `files_eq_map`: a walk lists places, each by its path;
* `mem_places_iff`, `pairwise_places`: they are those of the files, in their order;
* `readable_iff`: a walk goes through if each folder can be opened by its path;
* `sources_eq`: which files are the sources of a workspace.
-/
import SymbolTable.Loading
import SymbolTable.Proofs.FileTree.Joining
import SymbolTable.Proofs.Text.Order
import Mathlib.Data.List.Nodup

namespace SymbolTable

open FileTree (Place)
open FilePath (below)

/-! ## 1. The order of places -/

/-- One place comes before another name by name, in the order of the bytes of the names. -/
def FileTree.Before (p q : Place) : Prop :=
  (p.map fun name => utf8 name.text) < q.map fun name => utf8 name.text

namespace FileTree

theorem before_cons (name : FileName) {p q : Place} (h : Before p q) :
    Before (name :: p) (name :: q) :=
  List.cons_lt_cons_iff.mpr (Or.inr ⟨rfl, h⟩)

theorem before_of_lt {m n : FileName} (h : m < n) (p q : Place) : Before (m :: p) (n :: q) :=
  List.cons_lt_cons_iff.mpr (Or.inl (lt_iff_utf8_lt.mp h))

theorem not_before_self (p : Place) : ¬ Before p p := List.lt_irrefl _

end FileTree

namespace Folder

open FileTree

/-! ## 2. The places of files -/

/-- The places of all files in a folder, in the order in which they are listed. -/
def places : Folder → List Place
  | empty => []
  | file name _ rest => [name] :: rest.places
  | folder name inner rest => inner.places.map (name :: ·) ++ rest.places

/-- **A walk lists places, each by its path.** -/
theorem files_eq_map (f : Folder) (path : String) : f.files path = f.places.map (below path) := by
  induction f generalizing path with
  | empty => rfl
  | file name content rest ih => rw [files, places, List.map_cons, ih, ← FilePath.below_inside]; rfl
  | folder name inner rest ihInner ih =>
    have hbelow : below (FilePath.inside path name.text) = fun place => below path (name :: place) :=
      funext fun place => FilePath.below_inside path name place
    rw [files, places, List.map_append, List.map_map, ihInner, ih, hbelow]
    rfl

theorem exists_name_of_mem_places {f : Folder} {place : Place} (h : place ∈ f.places) :
    ∃ name ∈ f.names, ∃ rest, place = name :: rest := by
  induction f with
  | empty => exact absurd h List.not_mem_nil
  | file name content rest ih =>
    rcases List.mem_cons.mp h with rfl | h
    · exact ⟨name, List.mem_cons_self, [], rfl⟩
    · obtain ⟨m, hm, inner, rfl⟩ := ih h
      exact ⟨m, List.mem_cons_of_mem _ hm, inner, rfl⟩
  | folder name inner rest _ ih =>
    rcases List.mem_append.mp h with h | h
    · obtain ⟨deeper, -, rfl⟩ := List.mem_map.mp h
      exact ⟨name, List.mem_cons_self, deeper, rfl⟩
    · obtain ⟨m, hm, deeper, rfl⟩ := ih h
      exact ⟨m, List.mem_cons_of_mem _ hm, deeper, rfl⟩

/-- What stands behind a name in the list of a folder has later names. -/
theorem cons_notMem_places {name : FileName} {rest : Folder}
    (h : ∀ next ∈ rest.names, name < next) (place : Place) : name :: place ∉ rest.places := by
  intro hmem
  obtain ⟨m, hm, deeper, heq⟩ := exists_name_of_mem_places hmem
  obtain ⟨rfl, -⟩ := List.cons.inj heq
  exact String.lt_irrefl _ (h _ hm)

theorem at?_file_cons (name m : FileName) (content : Bytes) (rest : Folder) (place : Place) :
    (file name content rest).at? (m :: place) =
      if name = m then (Entry.file content).at? place else rest.at? (m :: place) := by
  rw [at?_cons, at?_cons, get?]
  split <;> rfl

theorem at?_folder_cons (name m : FileName) (inner rest : Folder) (place : Place) :
    (folder name inner rest).at? (m :: place) =
      if name = m then inner.at? place else rest.at? (m :: place) := by
  rw [at?_cons, at?_cons, get?]
  split <;> rfl

/-- **The places are those of the files.** -/
theorem mem_places_iff {f : Folder} (hf : f.Ordered) {place : Place} :
    place ∈ f.places ↔ ∃ content, f.at? place = some (.file content) := by
  induction f generalizing place with
  | empty =>
    cases place with
    | nil => simp [places]
    | cons m place => simp [places, at?_cons, get?]
  | file name content rest ih =>
    cases place with
    | nil => simpa [places] using fun h => by simpa using exists_name_of_mem_places h
    | cons m place =>
      rw [places, List.mem_cons, at?_file_cons]
      by_cases hm : name = m
      · subst hm
        rw [if_pos rfl, List.cons.injEq, or_iff_left (cons_notMem_places hf.1 place)]
        by_cases hnil : place = [] <;> simp [Entry.at?, hnil]
      · rw [if_neg hm, ← ih hf.2, or_iff_right fun h => hm (List.cons.inj h).1.symm]
  | folder name inner rest ihInner ih =>
    cases place with
    | nil => simpa [places] using fun h => by simpa using exists_name_of_mem_places h
    | cons m place =>
      rw [places, List.mem_append, at?_folder_cons]
      by_cases hm : name = m
      · subst hm
        rw [if_pos rfl, or_iff_left (cons_notMem_places hf.1 place), ← ihInner hf.2.1]
        simp
      · rw [if_neg hm, ← ih hf.2.2]
        simp [hm]

/-- **They are listed in their order.** -/
theorem pairwise_places {f : Folder} (hf : f.Ordered) : f.places.Pairwise Before := by
  have hlater : ∀ {name : FileName} {rest : Folder} (p : Place),
      (∀ next ∈ rest.names, name < next) → ∀ q ∈ rest.places, Before (name :: p) q := by
    intro name rest p h q hq
    obtain ⟨m, hm, deeper, rfl⟩ := exists_name_of_mem_places hq
    exact before_of_lt (h m hm) p deeper
  induction f with
  | empty => exact List.Pairwise.nil
  | file name content rest ih => exact List.pairwise_cons.mpr ⟨hlater [] hf.1, ih hf.2⟩
  | folder name inner rest ihInner ih =>
    refine List.pairwise_append.mpr ⟨?_, ih hf.2.2, ?_⟩
    · exact List.pairwise_map.mpr ((ihInner hf.2.1).imp (before_cons name))
    · intro p hp q hq
      obtain ⟨deeper, -, rfl⟩ := List.mem_map.mp hp
      exact hlater deeper hf.1 q hq

/-! ## 3. Folders that cannot be opened -/

theorem mem_names_of_at? {f : Folder} {m : FileName} {place : Place} {entry : Entry}
    (h : f.at? (m :: place) = some entry) : m ∈ f.names := by
  rw [at?_cons] at h
  obtain ⟨found, hfound, -⟩ := Option.bind_eq_some_iff.mp h
  clear h
  induction f with
  | empty => simp [get?] at hfound
  | file name content rest ih =>
    rw [get?] at hfound
    split at hfound
    · next heq => exact heq ▸ List.mem_cons_self
    · exact List.mem_cons_of_mem _ (ih hfound)
  | folder name inner rest _ ih =>
    rw [get?] at hfound
    split at hfound
    · next heq => exact heq ▸ List.mem_cons_self
    · exact List.mem_cons_of_mem _ (ih hfound)

/-- What is in the rest of a folder's list has another name than what is in front. -/
theorem ne_of_at?_rest {name m : FileName} {rest : Folder} {place : Place} {entry : Entry}
    (hlater : ∀ next ∈ rest.names, name < next) (h : rest.at? (m :: place) = some entry) :
    name ≠ m := by
  rintro rfl
  exact String.lt_irrefl _ (hlater _ (mem_names_of_at? h))

/-- **What stops a walk is a folder whose path is refused.** -/
theorem exists_of_unopened? {f : Folder} (hf : f.Ordered) {path : String} {e : WalkError}
    (h : f.unopened? path = some e) :
    ∃ m place inner, f.at? (m :: place) = some (.folder inner) ∧
      FilePath.check (below path (m :: place)) = .error e.cause ∧
        e.path = below path (m :: place) := by
  induction f generalizing path with
  | empty => cases h
  | file name content rest ih =>
    obtain ⟨m, place, inner, hat, hcheck⟩ := ih hf.2 h
    refine ⟨m, place, inner, ?_, hcheck⟩
    rw [at?_file_cons, if_neg (ne_of_at?_rest hf.1 hat), hat]
  | folder name inner rest ihInner ih =>
    rw [unopened?] at h
    split at h
    · next cause hcause =>
      cases h
      refine ⟨name, [], inner, ?_, ?_⟩
      · rw [at?_folder_cons, if_pos rfl, at?_nil]
      · rw [← FilePath.below_inside, FilePath.below_nil]
        exact ⟨hcause, rfl⟩
    · rcases Option.or_eq_some_iff.mp h with h | ⟨-, h⟩
      · obtain ⟨m, place, deeper, hat, hcheck⟩ := ihInner hf.2.1 h
        refine ⟨name, m :: place, deeper, ?_, ?_⟩
        · rw [at?_folder_cons, if_pos rfl, hat]
        · rw [← FilePath.below_inside]
          exact hcheck
      · obtain ⟨m, place, deeper, hat, hcheck⟩ := ih hf.2.2 h
        refine ⟨m, place, deeper, ?_, hcheck⟩
        rw [at?_folder_cons, if_neg (ne_of_at?_rest hf.1 hat), hat]

/-- Where nothing stops a walk, no folder's path is refused. -/
theorem check_of_unopened? {f : Folder} {path : String} (h : f.unopened? path = none)
    {m : FileName} {place : Place} {inner : Folder}
    (hat : f.at? (m :: place) = some (.folder inner)) :
    FilePath.check (below path (m :: place)) = .ok () := by
  induction f generalizing path m place with
  | empty => simp [at?_cons, get?] at hat
  | file name content rest ih =>
    rw [at?_file_cons] at hat
    split at hat
    · rw [Entry.at?] at hat
      split at hat <;> cases hat
    · exact ih h hat
  | folder name found rest ihInner ih =>
    rw [unopened?] at h
    split at h
    · cases h
    · next hcheck =>
      obtain ⟨hfound, hrest⟩ := Option.or_eq_none_iff.mp h
      rw [at?_folder_cons] at hat
      split at hat
      · next heq =>
        subst heq
        rw [← FilePath.below_inside]
        cases place with
        | nil => exact hcheck
        | cons m place => exact ihInner hfound hat
      · exact ih hrest hat

theorem ordered_at? {f : Folder} (hf : f.Ordered) {place : Place} {entry : Entry}
    (h : f.at? place = some entry) : entry.Ordered := by
  induction place generalizing f with
  | nil =>
    rw [at?_nil] at h
    cases h
    exact hf
  | cons name place ih =>
    rw [at?_cons] at h
    obtain ⟨found, hfound, hat⟩ := Option.bind_eq_some_iff.mp h
    have hordered := ordered_get? hf hfound
    cases found with
    | folder inner => exact ih hordered hat
    | file content =>
      rw [Entry.at?] at hat
      split at hat
      · cases hat
        trivial
      · cases hat

end Folder

/-! ## 4. Walks -/

namespace Entry

/-- The places of all files at or below an entry, counted from there. -/
def places : Entry → List Place
  | .file _ => [[]]
  | .folder inner => inner.places

/-- The first folder below an entry that cannot be opened by its path. -/
def unopened? (path : String) : Entry → Option WalkError
  | .file _ => none
  | .folder inner => inner.unopened? path

theorem mem_places_iff {root : Entry} (h : root.Ordered) {place : Place} :
    place ∈ root.places ↔ ∃ content, root.at? place = some (.file content) := by
  cases root with
  | file content => by_cases hnil : place = [] <;> simp [places, at?, hnil]
  | folder inner => exact Folder.mem_places_iff h

theorem pairwise_places {root : Entry} (h : root.Ordered) :
    root.places.Pairwise FileTree.Before := by
  cases root with
  | file content => exact List.pairwise_singleton _ _
  | folder inner => exact Folder.pairwise_places h

end Entry

namespace FileTree

variable {t : FileTree} {path : String} {root : Entry}

theorem ordered_entry (h : t.entry path = .ok root) : root.Ordered := by
  obtain ⟨-, place, -, hat⟩ := entry_eq_ok_iff.mp h
  exact Folder.ordered_at? t.ordered hat

theorem walk_of_opened (h : t.entry path = .ok root) (hopen : root.unopened? path = none) :
    t.walk path = .ok (root.places.map (below path)) := by
  rw [walk, h]
  cases root with
  | file content => rfl
  | folder inner =>
    have hinner : inner.unopened? path = none := hopen
    simp only [hinner, Entry.places, Folder.files_eq_map]

theorem walk_of_unopened (h : t.entry path = .ok root) {e : WalkError}
    (hopen : root.unopened? path = some e) : t.walk path = .error e := by
  rw [walk, h]
  cases root with
  | file content => cases hopen
  | folder inner =>
    have hinner : inner.unopened? path = some e := hopen
    simp only [hinner]

/-- Each folder at or below a path, which leads to `root`, can be opened by its path. -/
def Readable (t : FileTree) (path : String) (root : Entry) : Prop :=
  ∀ place inner, root.at? place = some (.folder inner) →
    t.entry (below path place) = .ok (.folder inner)

/-- A folder that stops a walk cannot be opened. -/
theorem exists_of_unopened? (h : t.entry path = .ok root) {e : WalkError}
    (he : root.unopened? path = some e) :
    ∃ place inner, root.at? place = some (.folder inner) ∧ e.path = below path place ∧
      t.entry (below path place) = .error e.cause := by
  cases root with
  | file content => cases he
  | folder found =>
    obtain ⟨m, place, inner, hat, hcheck, hpath⟩ :=
      Folder.exists_of_unopened? (ordered_entry h) he
    refine ⟨m :: place, inner, hat, hpath, ?_⟩
    rw [entry, hcheck]
    rfl

/-- **A walk goes through if each folder can be opened by its path.** -/
theorem readable_iff (h : t.entry path = .ok root) :
    t.Readable path root ↔ root.unopened? path = none := by
  constructor
  · intro hreadable
    cases hopen : root.unopened? path with
    | none => rfl
    | some e =>
      obtain ⟨place, inner, hat, -, hentry⟩ := exists_of_unopened? h hopen
      rw [hreadable place inner hat] at hentry
      cases hentry
  · intro hopen place inner hat
    refine entry_below h hat ?_
    cases place with
    | nil => exact (entry_eq_ok_iff.mp h).1
    | cons m place =>
      cases root with
      | file content => simp [Entry.at?] at hat
      | folder found => exact Folder.check_of_unopened? hopen hat

/-- A folder whose path is too long cannot be opened, although the walk has come to it. -/
theorem not_readable_of_tooLong {place : Place} {inner : Folder}
    (hat : root.at? place = some (.folder inner))
    (hlong : FilePath.maxBytes < (below path place).utf8ByteSize) : ¬ t.Readable path root := by
  intro h
  obtain ⟨hcheck, -⟩ := entry_eq_ok_iff.mp (h place inner hat)
  simp only [FilePath.check, hlong, if_true] at hcheck
  split at hcheck
  · cases hcheck
  · split at hcheck
    · cases hcheck
    · cases hcheck

/-- The top by a path of so many steps that stay there: `.`, `./.`, `././.` and so on. -/
def dots : Nat → String
  | 0 => "."
  | n + 1 => "." ++ "/" ++ dots n

theorem utf8ByteSize_dots (n : Nat) : (dots n).utf8ByteSize = 2 * n + 1 := by
  induction n with
  | zero => rfl
  | succ n ih =>
    have hstep : ("." ++ "/").utf8ByteSize = 2 := rfl
    rw [dots, String.utf8ByteSize_append, ih, hstep]
    omega

theorem zero_notMem_dots (n : Nat) : '\x00' ∉ (dots n).toList := by
  induction n with
  | zero => decide
  | succ n ih => simpa [dots, String.toList_append] using ih

theorem follow_dots (t : FileTree) (n : Nat) : t.follow (FilePath.pieces (dots n)) = .ok [] := by
  have hpieces : FilePath.pieces "." = ["."] := by decide
  have hstay : t.step [] "." = .ok [] := by simp [step, next]
  induction n with
  | zero =>
    rw [dots, hpieces, follow, List.foldlM_cons, hstay]
    rfl
  | succ n ih =>
    rw [dots, FilePath.pieces_append_slash, hpieces, List.singleton_append, follow,
      List.foldlM_cons, hstay]
    exact ih

theorem entry_dots (t : FileTree) {n : Nat} (hn : 2 * n + 1 ≤ FilePath.maxBytes) :
    t.entry (dots n) = .ok (.folder t.top) := by
  have hsize := utf8ByteSize_dots n
  have hne : dots n ≠ "" := by
    intro hempty
    rw [hempty, String.utf8ByteSize_empty] at hsize
    omega
  refine entry_eq_ok_iff.mpr ⟨?_, [], t.follow_dots n, Folder.at?_nil _⟩
  rw [FilePath.check, if_neg (zero_notMem_dots n), if_neg hne, if_neg (by omega)]

end FileTree

/-! ## 5. Sources -/

namespace Settings

variable {s : Settings} {t : FileTree} {root : Entry}

/-- The sources at and below `root`, where the settings say that the sources are: `found` are their
places. -/
structure Lists (s : Settings) (root : Entry) (found : List Place) : Prop where
  /-- They are the files that are sources by their paths. -/
  mem : ∀ place, place ∈ found ↔
    (∃ content, root.at? place = some (.file content)) ∧ s.isSource (below s.sourceRoot place)
  /-- They are listed in their order. -/
  sorted : found.Pairwise FileTree.Before
  /-- No path is listed twice. -/
  once : (found.map (below s.sourceRoot)).Nodup
  /-- No folder is listed, whatever its name is. -/
  no_folder : ∀ place inner, root.at? place = some (.folder inner) →
    below s.sourceRoot place ∉ found.map (below s.sourceRoot)

theorem lists_places (s : Settings) (h : root.Ordered) :
    s.Lists root (root.places.filter fun place => s.isSource (below s.sourceRoot place)) := by
  have hmem : ∀ place,
      place ∈ root.places.filter (fun place => s.isSource (below s.sourceRoot place)) ↔
        (∃ content, root.at? place = some (.file content)) ∧
          s.isSource (below s.sourceRoot place) := by
    intro place
    rw [List.mem_filter, Entry.mem_places_iff h]
  have hsorted := (Entry.pairwise_places h).filter fun place => s.isSource (below s.sourceRoot place)
  have hinjective := FilePath.below_injective s.sourceRoot
  refine ⟨hmem, hsorted, ?_, ?_⟩
  · refine List.Nodup.map hinjective (hsorted.imp ?_)
    rintro place _ hbefore rfl
    exact FileTree.not_before_self place hbefore
  · intro place inner hat hlisted
    obtain ⟨place', hplace', heq⟩ := List.mem_map.mp hlisted
    obtain rfl := hinjective heq
    obtain ⟨⟨content, hfile⟩, -⟩ := (hmem _).mp hplace'
    rw [hat] at hfile
    cases hfile

/-- **The sources are the files at and below the root that are sources by their paths, each once, in
the order of their places.**  They are named by their places below the root as it is written.  If
there is a folder that cannot be opened by its path, there is no list but an error that names such
a folder and says why. -/
theorem sources_eq (hroot : t.entry s.sourceRoot = .ok root) :
    (t.Readable s.sourceRoot root →
      ∃ found, s.sources t = .ok (found.map (below s.sourceRoot)) ∧ s.Lists root found) ∧
    (¬ t.Readable s.sourceRoot root →
      ∃ e place inner, s.sources t = .error e ∧ root.at? place = some (.folder inner) ∧
        e.path = below s.sourceRoot place ∧ t.entry e.path = .error e.cause) := by
  rw [FileTree.readable_iff hroot]
  constructor
  · intro hopen
    refine ⟨_, ?_, s.lists_places (FileTree.ordered_entry hroot)⟩
    rw [sources, FileTree.walk_of_opened hroot hopen]
    exact congrArg Except.ok List.filter_map
  · intro hopen
    obtain ⟨e, he⟩ := Option.ne_none_iff_exists'.mp hopen
    obtain ⟨place, inner, hat, hpath, hentry⟩ := FileTree.exists_of_unopened? hroot he
    refine ⟨e, place, inner, ?_, hat, hpath, hpath ▸ hentry⟩
    rw [sources, FileTree.walk_of_unopened hroot he]
    rfl

/-- Two folders among the sources, one of them named like a source, and files that come in another
order as texts.  And a folder that cannot be opened, because the path to the root is long already. -/
theorem sources_eq_nested :
    let a : Folder := .file ⟨"x.rb", by decide⟩ [] .empty
    let d : Folder := .file ⟨"y.rb", by decide⟩ [] (.file ⟨"z.md", by decide⟩ [] .empty)
    let lib : Folder := .folder ⟨"a", by decide⟩ a (.file ⟨"a.rb", by decide⟩ []
      (.folder ⟨"d.rb", by decide⟩ d .empty))
    let t : FileTree := ⟨.folder ⟨"lib", by decide⟩ lib .empty, ⟨nofun, ⟨by decide,
      ⟨nofun, trivial⟩, by decide, nofun, ⟨by decide, nofun, trivial⟩, trivial⟩, trivial⟩⟩
    let s : Settings := { Settings.standard with sourceRoot := "lib/" }
    let s' : Settings := { Settings.standard with sourceRoot := FileTree.dots 2046 }
    (t.entry "lib/" = .ok (.folder lib) ∧ t.Readable "lib/" (.folder lib) ∧
      s.sources t = .ok ["lib/a/x.rb", "lib/a.rb", "lib/d.rb/y.rb"] ∧
      ∃ found, s.sources t = .ok (found.map (below "lib/")) ∧ s.Lists (.folder lib) found) ∧
    (t.entry (FileTree.dots 2046) = .ok (.folder t.top) ∧
      ¬ t.Readable (FileTree.dots 2046) (.folder t.top) ∧
      ∃ e place inner, s'.sources t = .error e ∧ t.top.at? place = some (.folder inner) ∧
        e.path = below (FileTree.dots 2046) place ∧ t.entry e.path = .error e.cause) := by
  intro a d lib t s s'
  have hroot : t.entry "lib/" = .ok (.folder lib) := by decide +kernel
  have hopen : t.Readable "lib/" (.folder lib) :=
    (FileTree.readable_iff hroot).mpr (by decide +kernel)
  have hroot' : t.entry (FileTree.dots 2046) = .ok (.folder t.top) := t.entry_dots (by decide)
  have hat : (Entry.folder t.top).at? [⟨"lib", by decide⟩] = some (.folder lib) := rfl
  have hlong : FilePath.maxBytes <
      (below (FileTree.dots 2046) [⟨"lib", by decide⟩]).utf8ByteSize := by
    have hsize := FilePath.le_utf8ByteSize_inside (FileTree.dots 2046) "lib"
    rw [FileTree.utf8ByteSize_dots] at hsize
    rw [FilePath.below_of_ne_nil (List.cons_ne_nil _ _), FilePath.relative_singleton]
    exact Nat.lt_of_lt_of_le (by decide) hsize
  have hshut : ¬ t.Readable (FileTree.dots 2046) (.folder t.top) :=
    FileTree.not_readable_of_tooLong hat hlong
  exact ⟨⟨hroot, hopen, by decide +kernel, (sources_eq (s := s) hroot).1 hopen⟩, hroot', hshut,
    (sources_eq (s := s') hroot').2 hshut⟩

end Settings
end SymbolTable
