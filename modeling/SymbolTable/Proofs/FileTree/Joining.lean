/-
# Paths below a path

What lies below a folder is named by the folder's path as it is written, and the names that lead on
from there, with a `/` between any two.  If the folder's path ends in `/` itself, no other one is
put there.

Names have no `/` in them, so the pieces of such a path tell the names again: different places have
different paths (`below_injective`).  And following the path leads where following the names from
the folder leads (`entry_below`).
-/
import SymbolTable.Proofs.FileTree.Writing
import Mathlib.Data.List.Basic

namespace SymbolTable

theorem FileName.eq_of_text_eq {m n : FileName} (h : m.text = n.text) : m = n := by
  cases m
  cases n
  cases h
  rfl

namespace FilePath

/-! ## 1. Pieces of texts that are put together -/

theorem cut_ne_nil (cs : List Char) : cut cs ≠ [] := by
  cases cs with
  | nil => simp [cut]
  | cons c rest =>
    rw [cut]
    split
    · simp
    · split <;> simp

theorem cut_append_slash (xs ys : List Char) : cut (xs ++ '/' :: ys) = cut xs ++ cut ys := by
  induction xs with
  | nil => simp [cut]
  | cons c rest ih =>
    rw [List.cons_append, cut, cut, ih]
    split
    · rfl
    · obtain ⟨piece, pieces, hrest⟩ := List.exists_cons_of_ne_nil (cut_ne_nil rest)
      rw [hrest, List.cons_append]
      rfl

theorem cut_of_notMem {cs : List Char} (h : '/' ∉ cs) : cut cs = [cs] := by
  induction cs with
  | nil => rfl
  | cons c rest ih =>
    rw [List.mem_cons, not_or] at h
    rw [cut, if_neg fun heq => h.1 heq.symm, ih h.2]

theorem pieces_append_slash (s s' : String) : pieces (s ++ "/" ++ s') = pieces s ++ pieces s' := by
  have hlist : (s ++ "/" ++ s').toList = s.toList ++ '/' :: s'.toList := by
    simp [String.toList_append]
  rw [pieces, hlist, cut_append_slash, List.map_append]
  rfl

theorem pieces_name (name : FileName) : pieces name.text = [name.text] := by
  obtain ⟨-, -, -, hslash, -⟩ := name.valid
  rw [pieces, cut_of_notMem hslash, List.map_singleton, String.ofList_toList]

/-! ## 2. Paths of places -/

/-- The path that leads from a folder to a place in it. -/
def relative (place : FileTree.Place) : String := "/".intercalate (place.map FileName.text)

/-- The path of a place below `root`, which is left as it is written.  The place of the root itself
has the root's path. -/
def below (root : String) (place : FileTree.Place) : String :=
  if place = [] then root else inside root (relative place)

variable {root : String} {place place' : FileTree.Place} {name : FileName}

@[simp] theorem below_nil (root : String) : below root [] = root := rfl

theorem below_of_ne_nil (h : place ≠ []) : below root place = inside root (relative place) :=
  if_neg h

theorem relative_singleton (name : FileName) : relative [name] = name.text :=
  String.intercalate_singleton

theorem relative_cons (name : FileName) (h : place ≠ []) :
    relative (name :: place) = name.text ++ "/" ++ relative place := by
  obtain ⟨next, rest, rfl⟩ := List.exists_cons_of_ne_nil h
  exact String.intercalate_cons_cons

theorem inside_inside (root : String) (name : FileName) (s : String) :
    inside (inside root name.text) s = inside root (name.text ++ "/" ++ s) := by
  obtain ⟨hempty, -, -, hslash, -⟩ := name.valid
  have hne : name.text.toList ≠ [] := fun h => hempty (String.toList_eq_nil_iff.mp h)
  have hend : ∀ front : String, (front ++ name.text).toList.getLast? ≠ some '/' := by
    intro front h
    rw [String.toList_append, List.getLast?_append_of_ne_nil _ hne] at h
    exact hslash (List.mem_of_getLast? h)
  have hnot : (inside root name.text).toList.getLast? ≠ some '/' := by
    unfold inside
    split
    · exact hend root
    · exact hend (root ++ "/")
  rw [inside, if_neg hnot]
  unfold inside
  split <;> simp [String.append_assoc]

/-- A place is reached folder by folder. -/
theorem below_inside (root : String) (name : FileName) (place : FileTree.Place) :
    below (inside root name.text) place = below root (name :: place) := by
  rw [below_of_ne_nil (List.cons_ne_nil name place)]
  by_cases h : place = []
  · rw [h, below_nil, relative_singleton]
  · rw [below_of_ne_nil h, inside_inside, relative_cons name h]

/-! ## 3. Different places, different paths -/

theorem pieces_relative (h : place ≠ []) : pieces (relative place) = place.map FileName.text := by
  induction place with
  | nil => exact absurd rfl h
  | cons name rest ih =>
    by_cases hrest : rest = []
    · rw [hrest, relative_singleton, pieces_name]
      rfl
    · rw [relative_cons name hrest, pieces_append_slash, pieces_name, ih hrest]
      rfl

theorem relative_ne_empty (h : place ≠ []) : relative place ≠ "" := by
  intro hempty
  have hpieces := pieces_relative h
  rw [hempty] at hpieces
  obtain ⟨name, rest, rfl⟩ := List.exists_cons_of_ne_nil h
  rw [List.map_cons] at hpieces
  exact name.valid.1 (List.cons.inj hpieces).1.symm

theorem inside_ne_self (root : String) {s : String} (h : s ≠ "") : inside root s ≠ root := by
  intro heq
  have hlength := congrArg String.length heq
  have hpos : s.length ≠ 0 := fun h0 => h (String.length_eq_zero_iff.mp h0)
  unfold inside at hlength
  split at hlength
  · rw [String.length_append] at hlength
    omega
  · rw [String.length_append, String.length_append] at hlength
    omega

theorem le_utf8ByteSize_inside (root s : String) :
    root.utf8ByteSize + s.utf8ByteSize ≤ (inside root s).utf8ByteSize := by
  unfold inside
  split
  · exact Nat.le_of_eq String.utf8ByteSize_append.symm
  · rw [String.utf8ByteSize_append, String.utf8ByteSize_append]
    omega

theorem inside_injective {s s' : String} (h : inside root s = inside root s') : s = s' := by
  unfold inside at h
  split at h
  · exact (String.append_right_inj root).mp h
  · exact (String.append_right_inj _).mp h

/-- **Different places below a path have different paths.** -/
theorem below_injective (root : String) : Function.Injective (below root) := by
  intro place place' h
  by_cases hnil : place = []
  · by_cases hnil' : place' = []
    · rw [hnil, hnil']
    · rw [hnil, below_nil, below_of_ne_nil hnil'] at h
      exact absurd h.symm (inside_ne_self root (relative_ne_empty hnil'))
  · by_cases hnil' : place' = []
    · rw [hnil', below_nil, below_of_ne_nil hnil] at h
      exact absurd h (inside_ne_self root (relative_ne_empty hnil))
    · rw [below_of_ne_nil hnil, below_of_ne_nil hnil'] at h
      have hnames := congrArg pieces (inside_injective h)
      rw [pieces_relative hnil, pieces_relative hnil'] at hnames
      exact List.map_injective_iff.mpr (fun _ _ => FileName.eq_of_text_eq) hnames

end FilePath

namespace FileTree

variable {t : FileTree} {path : String} {root entry : Entry}

/-! ## 4. Where paths below a path lead -/

/-- Names lead from a folder to what is in it. -/
theorem foldlM_names (place : Place) :
    ∀ {here : Place} {inner : Folder}, t.top.at? here = some (.folder inner) →
      inner.at? place = some entry →
        (place.map FileName.text).foldlM t.step here = .ok (here ++ place) := by
  induction place with
  | nil => exact fun {here} _ _ _ => by rw [List.append_nil]; rfl
  | cons name rest ih =>
    intro here inner hhere hat
    have hfolder : t.sight here = some none := Folder.sight_eq_folder_iff.mpr ⟨inner, hhere⟩
    rw [List.map_cons, List.foldlM_cons, step_eq_ok_iff.mpr ⟨hfolder, next_name here name⟩]
    cases rest with
    | nil => rfl
    | cons next rest =>
      rw [Folder.at?_cons] at hat
      obtain ⟨found, hfound, hrest⟩ := Option.bind_eq_some_iff.mp hat
      cases found with
      | file content => simp [Entry.at?] at hrest
      | folder deeper =>
        have hnext : t.top.at? (here ++ [name]) = some (.folder deeper) := by
          rw [Folder.at?_append [name] here hhere]
          exact hfound
        have hfollow := ih hnext hrest
        rw [List.append_assoc] at hfollow
        exact hfollow

/-- The pieces of a path inside a folder's path.  A `/` at the end of the folder's path makes no
difference to where it leads. -/
theorem follow_inside {here : Place} (s : String)
    (hfollow : t.follow (FilePath.pieces path) = .ok here) :
    t.follow (FilePath.pieces (FilePath.inside path s)) =
      (FilePath.pieces s).foldlM t.step here := by
  unfold FilePath.inside
  split
  · next hslash =>
    obtain ⟨front, hfront⟩ : ∃ front, path = front ++ "/" := by
      obtain ⟨cs, hcs⟩ := List.getLast?_eq_some_iff.mp hslash
      refine ⟨String.ofList cs, ?_⟩
      rw [← String.toList_inj, hcs]
      simp
    have hpieces : FilePath.pieces path = FilePath.pieces front ++ [""] := by
      have hsplit := FilePath.pieces_append_slash front ""
      rwa [String.append_empty, ← hfront] at hsplit
    rw [hpieces, follow, List.foldlM_append] at hfollow
    obtain ⟨there, hthere, hlast⟩ := bind_eq_ok_iff.mp hfollow
    rw [List.foldlM_cons] at hlast
    obtain ⟨there', hstep, hend⟩ := bind_eq_ok_iff.mp hlast
    cases hend
    obtain ⟨-, hnext⟩ := step_eq_ok_iff.mp hstep
    have hsame : there = here := by simpa [next] using hnext
    rw [hfront, FilePath.pieces_append_slash, follow, List.foldlM_append, hthere, hsame]
    rfl
  · rw [FilePath.pieces_append_slash, follow, List.foldlM_append]
    rw [follow] at hfollow
    rw [hfollow]
    rfl

/-- **The path of a place below a path leads to what is there**, unless it is refused. -/
theorem entry_below {place : Place} (hroot : t.entry path = .ok root)
    (hat : root.at? place = some entry)
    (hcheck : FilePath.check (FilePath.below path place) = .ok ()) :
    t.entry (FilePath.below path place) = .ok entry := by
  obtain ⟨-, here, hfollow, hhere⟩ := entry_eq_ok_iff.mp hroot
  cases root with
  | file content =>
    rw [Entry.at?] at hat
    split at hat
    · next hnil =>
      cases hat
      rw [hnil, FilePath.below_nil]
      exact hroot
    · cases hat
  | folder inner =>
    refine entry_eq_ok_iff.mpr ⟨hcheck, here ++ place, ?_, ?_⟩
    · by_cases hnil : place = []
      · rw [hnil, FilePath.below_nil, List.append_nil]
        exact hfollow
      · rw [FilePath.below_of_ne_nil hnil, follow_inside _ hfollow,
          FilePath.pieces_relative hnil]
        exact foldlM_names place hhere hat
    · rw [Folder.at?_append place here hhere]
      exact hat

end FileTree
end SymbolTable
