/-
# Sources and their extensions

Whether a file is a source is decided by its path alone, and of the path only by the last piece that
leads somewhere: an empty piece and `.` do not.  So neither the folders in front of that piece count
nor a `/` or a `/.` after it.

The extension is what follows the last dot of the piece, so there is no dot in it.  A dot with
nothing in front of it begins no extension, and `..` has none.

* `cut_eq_splitOn`, `cutLastDot_eq_some_iff`: the two ways of cutting, without their recursions;
* `lastStep?_append_slash`: the last piece of a path with a folder in front;
* `extension?_eq_some_iff`: what an extension is;
* `isSource_iff`: which paths are those of sources.
-/
import SymbolTable.Settings.Basic
import SymbolTable.Proofs.FileTree.Joining

namespace SymbolTable
namespace FilePath

/-! ## 1. Cutting -/

theorem cut_eq_splitOn (cs : List Char) : cut cs = cs.splitOn '/' := by
  induction cs with
  | nil => rfl
  | cons c rest ih =>
    rw [cut, List.splitOn_cons_eq_if_modifyHead, ih]
    simp only [beq_iff_eq]
    split
    · rfl
    · obtain ⟨piece, pieces, hrest⟩ := List.exists_cons_of_ne_nil (cut_ne_nil rest)
      rw [← ih, hrest]
      rfl

theorem cutLastDot_eq_none_iff {cs : List Char} : cutLastDot cs = none ↔ '.' ∉ cs := by
  induction cs with
  | nil => simp [cutLastDot]
  | cons c rest ih =>
    rw [cutLastDot, List.mem_cons, not_or, ← ih]
    cases cutLastDot rest <;> simp [eq_comm]

/-- **A name is cut at the dot after which no other one comes.** -/
theorem cutLastDot_eq_some_iff {cs stem ext : List Char} :
    cutLastDot cs = some (stem, ext) ↔ cs = stem ++ '.' :: ext ∧ '.' ∉ ext := by
  constructor
  · intro h
    induction cs generalizing stem with
    | nil => cases h
    | cons c rest ih =>
      rw [cutLastDot] at h
      cases hrest : cutLastDot rest with
      | some found =>
        obtain ⟨inner, ext'⟩ := found
        rw [hrest] at h
        cases h
        obtain ⟨htext, hext⟩ := ih hrest
        exact ⟨by rw [htext, List.cons_append], hext⟩
      | none =>
        rw [hrest] at h
        obtain ⟨rfl, heq⟩ := Option.ite_none_right_eq_some.mp h
        cases heq
        exact ⟨rfl, cutLastDot_eq_none_iff.mp hrest⟩
  · rintro ⟨rfl, hext⟩
    induction stem with
    | nil => rw [List.nil_append, cutLastDot, cutLastDot_eq_none_iff.mpr hext, if_pos rfl]
    | cons c stem ih => rw [List.cons_append, cutLastDot, ih]

/-! ## 2. The last piece -/

variable {path path' : String}

/-- The last piece of a path that is neither empty nor `.`. -/
def lastStep? (path : String) : Option String :=
  (((path.toList.splitOn '/').map String.ofList).filter fun piece =>
    piece ≠ "" ∧ piece ≠ ".").getLast?

theorem getLast?_steps (path : String) : (steps path).getLast? = lastStep? path := by
  rw [lastStep?, ← cut_eq_splitOn]
  rfl

theorem steps_append_slash (s s' : String) : steps (s ++ "/" ++ s') = steps s ++ steps s' := by
  rw [steps, pieces_append_slash, List.filter_append]
  rfl

/-- **Folders in front count only if nothing comes after them.** -/
theorem lastStep?_append_slash (folder path : String) :
    lastStep? (folder ++ "/" ++ path) = (lastStep? path).or (lastStep? folder) := by
  rw [← getLast?_steps, steps_append_slash, List.getLast?_append, getLast?_steps, getLast?_steps]

/-! ## 3. Extensions -/

theorem extension?_congr (h : lastStep? path = lastStep? path') :
    extension? path = extension? path' := by
  rw [extension?, extension?, getLast?_steps, getLast?_steps, h]

theorem cutLastDot_toList_iff {last stem ext : String} :
    cutLastDot last.toList = some (stem.toList, ext.toList) ↔
      last = stem ++ "." ++ ext ∧ '.' ∉ ext.toList := by
  rw [cutLastDot_eq_some_iff, ← String.toList_inj]
  simp [String.toList_append]

/-- **An extension is what follows the last dot of the last piece**, if something stands in front of
that dot and the piece is not `..`. -/
theorem extension?_eq_some_iff {ext : String} :
    extension? path = some ext ↔ ∃ last, lastStep? path = some last ∧ last ≠ ".." ∧
      ∃ stem, last = stem ++ "." ++ ext ∧ stem ≠ "" ∧ '.' ∉ ext.toList := by
  rw [extension?, getLast?_steps]
  constructor
  · intro h
    cases hlast : lastStep? path with
    | none => simp [hlast] at h
    | some last =>
      simp only [hlast, Option.ite_none_left_eq_some] at h
      obtain ⟨hdots, h⟩ := h
      split at h
      · next c stem ext' hcut =>
        obtain rfl := Option.some.inj h
        have hcut' : cutLastDot last.toList =
            some ((String.ofList (c :: stem)).toList, (String.ofList ext').toList) := by
          rw [String.toList_ofList, String.toList_ofList, hcut]
        obtain ⟨htext, hext⟩ := cutLastDot_toList_iff.mp hcut'
        refine ⟨last, rfl, hdots, String.ofList (c :: stem), htext, ?_, hext⟩
        simp
      · cases h
  · rintro ⟨last, hlast, hdots, stem, htext, hstem, hext⟩
    have hcut := cutLastDot_toList_iff.mpr ⟨htext, hext⟩
    have hne : stem.toList ≠ [] := fun h => hstem (String.toList_eq_nil_iff.mp h)
    obtain ⟨c, rest, hrest⟩ := List.exists_cons_of_ne_nil hne
    rw [hrest] at hcut
    simp [hlast, hdots, hcut]

end FilePath

/-! ## 4. Sources -/

namespace Settings

open FilePath (lastStep?)

variable {s : Settings} {path path' : String}

theorem isSource_iff_extension? :
    s.isSource path ↔ ∃ ext ∈ s.extensions, FilePath.extension? path = some ext := by
  unfold isSource
  cases FilePath.extension? path with
  | none => simp
  | some ext => simp

theorem isSource_congr (h : lastStep? path = lastStep? path') :
    s.isSource path = s.isSource path' := by
  rw [isSource, isSource, FilePath.extension?_congr h]

/-- A folder in front makes no difference to a path with a piece of its own, and a path without one
makes no difference to the folder. -/
theorem isSource_append_slash (s : Settings) (folder path : String) :
    ((lastStep? path).isSome → s.isSource (folder ++ "/" ++ path) = s.isSource path) ∧
      (lastStep? path = none → s.isSource (folder ++ "/" ++ path) = s.isSource folder) := by
  refine ⟨fun h => isSource_congr ?_, fun h => isSource_congr ?_⟩
  · rw [FilePath.lastStep?_append_slash, Option.or_of_isSome h]
  · rw [FilePath.lastStep?_append_slash, h, Option.none_or]

/-- Extensions with a dot in them may as well be left out. -/
theorem isSource_without_dots (s : Settings) (path : String) :
    { s with extensions := s.extensions.filter fun ext => '.' ∉ ext.toList }.isSource path =
      s.isSource path := by
  rw [Bool.eq_iff_iff, isSource_iff_extension?, isSource_iff_extension?]
  constructor
  · rintro ⟨ext, hmem, hext⟩
    exact ⟨ext, List.mem_of_mem_filter hmem, hext⟩
  · rintro ⟨ext, hmem, hext⟩
    obtain ⟨-, -, -, -, -, -, hdot⟩ := FilePath.extension?_eq_some_iff.mp hext
    exact ⟨ext, List.mem_filter.mpr ⟨hmem, by simpa using hdot⟩, hext⟩

/-- **Which paths are those of sources.**  The last piece that leads somewhere is not `..`, and is
something, a dot and one of the extensions, with no dot in that.  So a folder in front of a path
makes no difference if the path has such a piece, and neither does a `/` or a `/.` at the end; and
an extension with a dot in it never counts. -/
theorem isSource_iff (s : Settings) (path : String) :
    (s.isSource path ↔ ∃ last, lastStep? path = some last ∧ last ≠ ".." ∧
      ∃ stem ext, last = stem ++ "." ++ ext ∧ stem ≠ "" ∧ '.' ∉ ext.toList ∧
        ext ∈ s.extensions) ∧
    (∀ folder, ((lastStep? path).isSome → s.isSource (folder ++ "/" ++ path) = s.isSource path) ∧
      (lastStep? path = none → s.isSource (folder ++ "/" ++ path) = s.isSource folder)) ∧
    s.isSource (path ++ "/") = s.isSource path ∧ s.isSource (path ++ "/.") = s.isSource path ∧
    { s with extensions := s.extensions.filter fun ext => '.' ∉ ext.toList }.isSource path =
      s.isSource path := by
  have hslash := (isSource_append_slash s path "").2 (by decide +kernel)
  have hdot := (isSource_append_slash s path ".").2 (by decide +kernel)
  refine ⟨?_, fun folder => isSource_append_slash s folder path, ?_, ?_,
    isSource_without_dots s path⟩
  · rw [isSource_iff_extension?]
    simp only [FilePath.extension?_eq_some_iff]
    constructor
    · rintro ⟨ext, hmem, last, hlast, hdots, stem, htext, hstem, hext⟩
      exact ⟨last, hlast, hdots, stem, ext, htext, hstem, hext, hmem⟩
    · rintro ⟨last, hlast, hdots, stem, ext, htext, hstem, hext, hmem⟩
      exact ⟨ext, hmem, last, hlast, hdots, stem, htext, hstem, hext⟩
  · rwa [String.append_empty] at hslash
  · rwa [String.append_assoc] at hdot

/-- Two dots in a name, of which the last one counts, although the settings have both spellings of
the extension; a folder in front of a path that ends in `/.`; a path without a piece of its own; and
`..`, which has no extension although the settings have the empty one. -/
theorem isSource_iff_dotted :
    let s : Settings := { standard with extensions := ["tar.gz", "gz", ""] }
    (lastStep? "lib/x.tar.gz" = some "x.tar.gz" ∧ s.isSource "lib/x.tar.gz") ∧
      ((lastStep? "x.tar.gz/.").isSome ∧
        s.isSource ("lib" ++ "/" ++ "x.tar.gz/.") = s.isSource "x.tar.gz/.") ∧
      (lastStep? "." = none ∧ s.isSource ("x.gz" ++ "/" ++ ".") = s.isSource "x.gz") ∧
      (lastStep? "lib/.." = some ".." ∧ ¬ s.isSource "lib/..") := by
  intro s
  have hname : lastStep? "lib/x.tar.gz" = some "x.tar.gz" := by decide +kernel
  have hown : (lastStep? "x.tar.gz/.").isSome := by decide +kernel
  have hnone : lastStep? "." = none := by decide +kernel
  have hdots : lastStep? "lib/.." = some ".." := by decide +kernel
  obtain ⟨hsource, -⟩ := isSource_iff s "lib/x.tar.gz"
  obtain ⟨-, hfolder, -⟩ := isSource_iff s "x.tar.gz/."
  obtain ⟨-, hnothing, -⟩ := isSource_iff s "."
  obtain ⟨hsource', -⟩ := isSource_iff s "lib/.."
  refine ⟨⟨hname, hsource.mpr ⟨_, hname, by decide, "x.tar", "gz", by decide +kernel⟩⟩,
    ⟨hown, (hfolder "lib").1 hown⟩, ⟨hnone, (hnothing "x.gz").2 hnone⟩, hdots, fun h => ?_⟩
  obtain ⟨last, hlast, hne, -⟩ := hsource'.mp h
  exact hne (Option.some.inj (hlast.symm.trans hdots))

end Settings
end SymbolTable
