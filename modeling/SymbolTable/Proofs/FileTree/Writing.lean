/-
# Writing files

A file that is written stands at one place of the tree, its home, and can be read from there by
the path that it was written to.  Nothing that is seen at any other place changes, and the next
file that is written to the same path takes this one's place as if it had never been there.

All of it rests on one fact: a path that led through folders before the writing leads through
folders afterwards, so it still leads where it led (`follow_mono`).

Whether a file can be created is decided by the tree (`target_eq_ok_iff`), because a tree has no
permissions and no limit on its names.  Whether the content then gets into the file is decided by
the disk, and a write that breaks off is a write of the beginning of the content
(`overwrite_eq_error_iff`).

* `write_eq_ok_iff`, `overwrite_eq_ok_iff`: what writing needs and does;
* `overwrite_eq_error_iff`: the two ways in which it fails;
* `read_write`: the path reads as what was written to it;
* `sight_write`: nothing else changes;
* `write_write`: the last content written to a path is what counts.
-/
import SymbolTable.FileTree.Basic
import SymbolTable.Proofs.FileTree.Places

namespace SymbolTable

theorem bind_eq_ok_iff {ε α β : Type} {x : Except ε α} {f : α → Except ε β} {y : β} :
    x >>= f = .ok y ↔ ∃ a, x = .ok a ∧ f a = .ok y := by
  cases x with
  | error e => simp [bind, Except.bind]
  | ok a => simp [bind, Except.bind]

/-! ## 1. What a disk takes -/

namespace Outage

/-- The disk takes all of the content. -/
def Spares (outage : Option Outage) (content : Bytes) : Prop :=
  ∀ o, outage = some o → content.length ≤ o.bytes

theorem spares_none (content : Bytes) : Spares none content := nofun

theorem cut_of_spares {outage : Option Outage} {content : Bytes} (h : Spares outage content) :
    cut outage content = (.ok (), content) := by
  unfold cut
  cases outage with
  | none => rfl
  | some o =>
    dsimp only
    rw [if_neg (Nat.not_lt.2 (h o rfl))]

theorem cut_of_lt {o : Outage} {content : Bytes} (h : o.bytes < content.length) :
    cut (some o) content = (.error o.cause, content.take o.bytes) := by
  unfold cut
  dsimp only
  rw [if_pos h]

theorem spares_or (outage : Option Outage) (content : Bytes) :
    Spares outage content ∨ ∃ o, outage = some o ∧ o.bytes < content.length := by
  cases outage with
  | none => exact Or.inl (spares_none content)
  | some o =>
    rcases Nat.lt_or_ge o.bytes content.length with hlt | hge
    · exact Or.inr ⟨o, rfl, hlt⟩
    · refine Or.inl ?_
      rintro o' ⟨⟩
      exact hge

end Outage

namespace FileTree

variable {t t' : FileTree}

/-! ## 2. Following paths in a changed tree -/

/-- What is seen at a place: nothing, a file with its content, or a folder. -/
def sight (t : FileTree) (place : Place) : Option (Option Bytes) := t.top.sight place

theorem step_eq_ok_iff {here there : Place} {piece : String} :
    t.step here piece = .ok there ↔ t.sight here = some none ∧ next here piece = .ok there := by
  rw [sight, Folder.sight_eq_folder_iff, step]
  cases t.top.at? here with
  | none => simp
  | some entry => cases entry <;> simp

/-- Where every folder of a tree is a folder of another one, paths lead to the same places. -/
theorem follow_mono (h : ∀ place, t.sight place = some none → t'.sight place = some none)
    (pieces : List String) :
    ∀ {here there : Place}, pieces.foldlM t.step here = .ok there →
      pieces.foldlM t'.step here = .ok there := by
  induction pieces with
  | nil => exact fun h => h
  | cons piece rest ih =>
    intro here there hfollow
    rw [List.foldlM_cons] at hfollow ⊢
    cases hstep : t.step here piece with
    | error fault => rw [hstep] at hfollow; cases hfollow
    | ok next =>
      obtain ⟨hfolder, hnext⟩ := step_eq_ok_iff.1 hstep
      rw [hstep] at hfollow
      rw [step_eq_ok_iff.2 ⟨h here hfolder, hnext⟩]
      exact ih hfollow

/-- What a path leads to stands at the place that it leads to. -/
theorem entry_eq_ok_iff {path : String} {entry : Entry} :
    t.entry path = .ok entry ↔ FilePath.check path = .ok () ∧
      ∃ place, t.follow (FilePath.pieces path) = .ok place ∧ t.top.at? place = some entry := by
  constructor
  · intro h
    obtain ⟨⟨⟩, hcheck, hrest⟩ := bind_eq_ok_iff.1 h
    obtain ⟨place, hfollow, hat⟩ := bind_eq_ok_iff.1 hrest
    refine ⟨hcheck, place, hfollow, ?_⟩
    split at hat
    · next hfound =>
      cases hat
      exact hfound
    · cases hat
  · rintro ⟨hcheck, place, hfollow, hat⟩
    refine bind_eq_ok_iff.2 ⟨(), hcheck, bind_eq_ok_iff.2 ⟨place, hfollow, ?_⟩⟩
    rw [hat]

/-! ## 3. Homes of files -/

/-- What `slot` asks for before it names a folder and a name in it. -/
structure Home (t : FileTree) (path : String) (place : Place) (name : FileName) : Prop where
  valid : FilePath.check path = .ok ()
  /-- The last piece of the path is the name, and the pieces before it lead to the folder. -/
  pieces : ∃ front, FilePath.pieces path = front ++ [name.text] ∧ t.follow front = .ok place
  folder : t.sight place = some none

theorem splitEnd_of_getLast? {path last : String} {front : List String}
    (hlast : (FilePath.pieces path).getLast? ≠ some "") :
    splitEnd path = some (front, last) ↔ FilePath.pieces path = front ++ [last] := by
  unfold splitEnd
  rcases List.eq_nil_or_concat (FilePath.pieces path) with h | ⟨front', last', h⟩
  · simp [h]
  · have hne : ¬ last' = "" := by
      rintro rfl
      exact hlast (by simp [h])
    simp [h, hne]

theorem ofString?_eq_some_iff {s : String} {name : FileName} :
    FileName.ofString? s = some name ↔ s = name.text := by
  unfold FileName.ofString?
  constructor
  · intro h
    split at h
    · rw [← Option.some.inj h]
    · cases h
  · rintro rfl
    rw [dif_pos name.valid]

/-- A name leads inward. -/
theorem next_name (place : Place) (name : FileName) :
    next place name.text = .ok (place ++ [name]) := by
  obtain ⟨hempty, hdot, hdots, -⟩ := name.valid
  have hname : FileName.ofString? name.text = some name := ofString?_eq_some_iff.2 rfl
  simp [next, hempty, hdot, hdots, hname]

theorem slot_eq_ok_iff {path : String} {place : Place} {name : FileName} :
    t.slot path = .ok (place, name) ↔ t.Home path place name := by
  unfold slot
  rw [bind_eq_ok_iff]
  constructor
  · rintro ⟨⟨⟩, hcheck, h⟩
    split at h
    · cases h
    · next front last hsplit =>
      obtain ⟨here, hfollow, h⟩ := bind_eq_ok_iff.1 h
      split at h
      · cases h
      · cases h
      · next g hg =>
        split at h
        · cases h
        · next hlast =>
          rw [not_or, not_or] at hlast
          split at h
          · next n hn =>
            cases h
            rw [ofString?_eq_some_iff] at hn
            subst hn
            exact ⟨hcheck, ⟨front, (splitEnd_of_getLast? hlast.2.2).1 hsplit, hfollow⟩,
              Folder.sight_eq_folder_iff.2 ⟨g, hg⟩⟩
          · cases h
  · rintro ⟨hcheck, ⟨front, hpieces, hfollow⟩, hfolder⟩
    obtain ⟨g, hg⟩ := Folder.sight_eq_folder_iff.1 hfolder
    obtain ⟨hempty, hdot, hdots, -⟩ := name.valid
    have hlast : (FilePath.pieces path).getLast? ≠ some "" := by
      simpa [hpieces] using hempty
    have hname : FileName.ofString? name.text = some name := ofString?_eq_some_iff.2 rfl
    refine ⟨(), hcheck, ?_⟩
    rw [(splitEnd_of_getLast? hlast).2 hpieces]
    simp [hfollow, hg, hdot, hdots, hlast, hname, bind, Except.bind]

/-- A path keeps its home where folders stay folders. -/
theorem Home.mono {path : String} {place : Place} {name : FileName} (h : t.Home path place name)
    (hmono : ∀ place, t.sight place = some none → t'.sight place = some none) :
    t'.Home path place name := by
  obtain ⟨front, hpieces, hfollow⟩ := h.pieces
  exact ⟨h.valid, ⟨front, hpieces, follow_mono hmono front hfollow⟩, hmono place h.folder⟩

/-! ## 4. What writing does -/

theorem eq_of_top_eq (h : t.top = t'.top) : t = t' := by
  cases t
  cases t'
  cases h
  rfl

/-- **A file can be created or replaced where it has a home and no folder has its name.** -/
theorem target_eq_ok_iff {path : String} {place : Place} {name : FileName} :
    t.target path = .ok (place, name) ↔
      t.Home path place name ∧ t.sight (place ++ [name]) ≠ some none := by
  have hfolder : ∀ place : Place, t.sight place ≠ some none ↔
      ∀ inner, t.top.at? place ≠ some (.folder inner) := by
    intro place
    rw [sight, ne_eq, Folder.sight_eq_folder_iff, not_exists]
  unfold target
  rw [bind_eq_ok_iff]
  constructor
  · rintro ⟨⟨here, last⟩, hslot, h⟩
    dsimp only at h
    split at h
    · cases h
    · next hnot =>
      cases h
      exact ⟨slot_eq_ok_iff.1 hslot, (hfolder _).2 hnot⟩
  · rintro ⟨hhome, hnot⟩
    refine ⟨(place, name), slot_eq_ok_iff.2 hhome, ?_⟩
    dsimp only
    split
    · next inner hinner => exact absurd hinner ((hfolder _).1 hnot inner)
    · rfl

/-- **Writing needs a home that is not a folder, and puts the file there.** -/
theorem write_eq_ok_iff {path : String} {content : Bytes} :
    t.write path content = .ok t' ↔
      ∃ place name, t.Home path place name ∧ t.sight (place ++ [name]) ≠ some none ∧
        t' = t.putFile place name content := by
  unfold write
  rw [bind_eq_ok_iff]
  constructor
  · rintro ⟨⟨place, name⟩, htarget, h⟩
    obtain ⟨hhome, hnot⟩ := target_eq_ok_iff.1 htarget
    exact ⟨place, name, hhome, hnot, (Except.ok.inj h).symm⟩
  · rintro ⟨place, name, hhome, hnot, rfl⟩
    exact ⟨(place, name), target_eq_ok_iff.2 ⟨hhome, hnot⟩, rfl⟩

/-- `write` leaves the disk out, so a place for the file is all that it needs. -/
theorem exists_write_iff {path : String} {content : Bytes} :
    (∃ t', t.write path content = .ok t') ↔ ∃ home, t.target path = .ok home := by
  constructor
  · rintro ⟨t', h⟩
    obtain ⟨home, htarget, -⟩ := bind_eq_ok_iff.1 h
    exact ⟨home, htarget⟩
  · rintro ⟨home, htarget⟩
    exact ⟨_, bind_eq_ok_iff.2 ⟨home, htarget, rfl⟩⟩

theorem at?_putFile {place : Place} {name : FileName} {content : Bytes}
    (h : t.sight place = some none) :
    (t.putFile place name content).top.at? (place ++ [name]) = some (.file content) := by
  obtain ⟨g, hg⟩ := Folder.sight_eq_folder_iff.1 h
  refine (Folder.at?_update [name] place hg).trans ?_
  rw [Folder.at?_set_cons, if_pos rfl, Entry.at?, if_pos rfl]

/-- Of two files that are put at one place, the second one is there. -/
theorem putFile_putFile {place : Place} (name : FileName) (content content' : Bytes)
    (h : t.sight place = some none) :
    (t.putFile place name content).putFile place name content' =
      t.putFile place name content' := by
  obtain ⟨g, hg⟩ := Folder.sight_eq_folder_iff.1 h
  have hset : (fun f : Folder => (f.set name (.file content)).set name (.file content')) =
      Folder.set name (.file content') :=
    funext fun f => Folder.set_set name _ _ f
  have htop := Folder.update_update (Folder.set name (.file content))
    (Folder.set name (.file content')) place hg
  rw [hset] at htop
  exact eq_of_top_eq htop

theorem sight_putFile {place other : Place} {name : FileName} {content : Bytes}
    (h : t.sight place = some none) (hnot : t.sight (place ++ [name]) ≠ some none)
    (hother : other ≠ place ++ [name]) :
    (t.putFile place name content).sight other = t.sight other := by
  obtain ⟨g, hg⟩ := Folder.sight_eq_folder_iff.1 h
  have hname : ∀ inner, g.get? name ≠ some (.folder inner) := by
    intro inner hinner
    refine hnot (Folder.sight_eq_folder_iff.2 ⟨inner, ?_⟩)
    rw [Folder.at?_append [name] place hg]
    exact hinner
  exact Folder.sight_update_set place hg hname hother

theorem sight_write {path : String} {content : Bytes} (h : t.write path content = .ok t') :
    ∃ place name, t.Home path place name ∧ t'.sight (place ++ [name]) = some (some content) ∧
      ∀ other, other ≠ place ++ [name] → t'.sight other = t.sight other := by
  obtain ⟨place, name, hhome, hnot, rfl⟩ := write_eq_ok_iff.1 h
  exact ⟨place, name, hhome, Folder.sight_eq_file_iff.2 (at?_putFile hhome.folder),
    fun other hother => sight_putFile hhome.folder hnot hother⟩

/-- At every place but the one of `path` the same is seen. -/
def SameElsewhere (path : String) (t t' : FileTree) : Prop :=
  ∃ place name, t.Home path place name ∧
    ∀ other, other ≠ place ++ [name] → t'.sight other = t.sight other

theorem sameElsewhere_write {path : String} {content : Bytes}
    (h : t.write path content = .ok t') : SameElsewhere path t t' := by
  obtain ⟨place, name, hhome, -, hothers⟩ := sight_write h
  exact ⟨place, name, hhome, hothers⟩

/-- Folders stay folders when a file is written. -/
theorem sight_folder_of_write {path : String} {content : Bytes}
    (h : t.write path content = .ok t') {place : Place} (hfolder : t.sight place = some none) :
    t'.sight place = some none := by
  obtain ⟨home, name, hhome, hnot, rfl⟩ := write_eq_ok_iff.1 h
  have hne : place ≠ home ++ [name] := fun heq => hnot (heq ▸ hfolder)
  rw [sight_putFile hhome.folder hnot hne, hfolder]

/-! ## 5. Reading and writing again -/

/-- What is read is the content of the file that the path leads to. -/
theorem follow_of_read {path : String} {content : Bytes} (h : t.read path = .ok content) :
    FilePath.check path = .ok () ∧ ∃ place, t.follow (FilePath.pieces path) = .ok place ∧
      t.sight place = some (some content) := by
  obtain ⟨entry, hentry, hcontent⟩ := bind_eq_ok_iff.1 h
  obtain ⟨hcheck, place, hplace, hat⟩ := entry_eq_ok_iff.1 hentry
  refine ⟨hcheck, place, hplace, Folder.sight_eq_file_iff.2 ?_⟩
  cases entry with
  | file bytes =>
    cases hcontent
    exact hat
  | folder inner => cases hcontent

/-- What is read is seen at some place. -/
theorem exists_sight_of_read {path : String} {content : Bytes} (h : t.read path = .ok content) :
    ∃ place, t.sight place = some (some content) := by
  obtain ⟨-, place, -, hsight⟩ := follow_of_read h
  exact ⟨place, hsight⟩

/-- A step that does not lead to a folder is by name. -/
theorem next_eq_append {here place : Place} {piece : String} (hnext : next here piece = .ok place)
    (hfolder : t.sight here = some none) (hnot : t.sight place ≠ some none) :
    ∃ name : FileName, piece = name.text ∧ place = here ++ [name] := by
  unfold next at hnext
  split at hnext
  · cases hnext
    exact absurd hfolder hnot
  · split at hnext
    · cases hnext
      refine absurd ?_ hnot
      -- the folder around a folder, or the top
      rcases List.eq_nil_or_concat here with rfl | ⟨outer, name, rfl⟩
      · exact hfolder
      · obtain ⟨g, hg⟩ := Folder.sight_eq_folder_iff.1 hfolder
        rw [List.concat_eq_append, List.dropLast_concat]
        exact Folder.sight_eq_folder_iff.2 (Folder.exists_folder_of_at? outer (by simpa using hg))
    · split at hnext
      · next name hname =>
        cases hnext
        exact ⟨name, ofString?_eq_some_iff.1 hname, rfl⟩
      · cases hnext

/-- Where a file can be read, there is a place to write one.  A tree has no permissions that would
forbid it; what the disk takes of what is written is another question. -/
theorem exists_target_of_read {path : String} {content : Bytes} (h : t.read path = .ok content) :
    ∃ home, t.target path = .ok home := by
  obtain ⟨hcheck, place, hfollow, hsight⟩ := follow_of_read h
  have hnot : t.sight place ≠ some none := by simp [hsight]
  rcases List.eq_nil_or_concat (FilePath.pieces path) with hnil | ⟨front, last, hpieces⟩
  · rw [hnil] at hfollow
    cases hfollow
    exact absurd (Folder.sight_eq_folder_iff.2 ⟨_, Folder.at?_nil _⟩) hnot
  · rw [List.concat_eq_append] at hpieces
    rw [hpieces, follow, List.foldlM_append] at hfollow
    obtain ⟨here, hhere, hstep⟩ := bind_eq_ok_iff.1 hfollow
    rw [List.foldlM_cons] at hstep
    obtain ⟨there, hthere, hlast⟩ := bind_eq_ok_iff.1 hstep
    cases hlast
    obtain ⟨hfolder, hnext⟩ := step_eq_ok_iff.1 hthere
    obtain ⟨name, rfl, rfl⟩ := next_eq_append hnext hfolder hnot
    exact ⟨(here, name), target_eq_ok_iff.2 ⟨⟨hcheck, ⟨front, hpieces, hhere⟩, hfolder⟩, hnot⟩⟩

/-- **The path that was written to reads as what was written.** -/
theorem read_write {path : String} {content : Bytes} (h : t.write path content = .ok t') :
    t'.read path = .ok content := by
  have hmono : ∀ place, t.sight place = some none → t'.sight place = some none :=
    fun place => sight_folder_of_write h
  obtain ⟨place, name, hhome, -, rfl⟩ := write_eq_ok_iff.1 h
  have hhome' := hhome.mono hmono
  obtain ⟨front, hpieces, hfollow⟩ := hhome'.pieces
  have hplace : (t.putFile place name content).follow (FilePath.pieces path) =
      .ok (place ++ [name]) := by
    rw [hpieces, follow, List.foldlM_append]
    refine bind_eq_ok_iff.2 ⟨place, hfollow, ?_⟩
    rw [List.foldlM_cons, step_eq_ok_iff.2 ⟨hhome'.folder, next_name place name⟩]
    rfl
  have hentry : (t.putFile place name content).entry path = .ok (.file content) :=
    entry_eq_ok_iff.2 ⟨hhome.valid, _, hplace, at?_putFile hhome.folder⟩
  exact bind_eq_ok_iff.2 ⟨_, hentry, rfl⟩

/-- The next file that is written to a path has the same place. -/
theorem target_write {path : String} {content : Bytes} (h : t.write path content = .ok t') :
    t'.target path = t.target path := by
  have hmono : ∀ place, t.sight place = some none → t'.sight place = some none :=
    fun place => sight_folder_of_write h
  obtain ⟨place, name, hhome, hnot, rfl⟩ := write_eq_ok_iff.1 h
  have hfile : (t.putFile place name content).sight (place ++ [name]) ≠ some none := by
    rw [sight, Folder.sight_eq_file_iff.2 (at?_putFile hhome.folder)]
    simp
  rw [target_eq_ok_iff.2 ⟨hhome, hnot⟩, target_eq_ok_iff.2 ⟨hhome.mono hmono, hfile⟩]

/-- **The last content written to a path is what counts.** -/
theorem write_write {path : String} {content : Bytes} (h : t.write path content = .ok t')
    (content' : Bytes) : t'.write path content' = t.write path content' := by
  obtain ⟨⟨place, name⟩, htarget, hput⟩ := bind_eq_ok_iff.1 h
  obtain rfl : t.putFile place name content = t' := Except.ok.inj hput
  have hfolder := (target_eq_ok_iff.1 htarget).1.folder
  rw [write, write, target_write h, htarget]
  exact congrArg Except.ok (putFile_putFile name content content' hfolder)

/-! ## 6. Writes that can break off -/

variable {path : String} {content : Bytes} {outage : Option Outage}

theorem overwrite_of_target (content : Bytes) (outage : Option Outage) {home : Place × FileName}
    (h : t.target path = .ok home) :
    ∃ t', t.write path (Outage.cut outage content).2 = .ok t' ∧
      t.overwrite path content outage = ((Outage.cut outage content).1, t') := by
  obtain ⟨place, name⟩ := home
  have hhome := (target_eq_ok_iff.1 h).1
  refine ⟨t.putFile place name (Outage.cut outage content).2, bind_eq_ok_iff.2 ⟨_, h, rfl⟩, ?_⟩
  rw [overwrite, h]
  dsimp only
  rw [putFile_putFile _ _ _ hhome.folder]

theorem overwrite_of_not_target {fault : FileFault} (h : t.target path = .error fault) :
    t.overwrite path content outage = (.error fault, t) := by
  rw [overwrite, h]

/-- **All of the content is written where there is a place for the file and the disk takes it.** -/
theorem overwrite_eq_ok_iff :
    t.overwrite path content outage = (.ok (), t') ↔
      t.write path content = .ok t' ∧ Outage.Spares outage content := by
  cases htarget : t.target path with
  | error fault =>
    rw [overwrite_of_not_target htarget, write, htarget]
    exact ⟨nofun, nofun⟩
  | ok home =>
    obtain ⟨u, hu, heq⟩ := overwrite_of_target content outage htarget
    rw [heq]
    rcases Outage.spares_or outage content with hspares | ⟨o, rfl, hlt⟩
    · rw [Outage.cut_of_spares hspares] at hu ⊢
      rw [hu]
      simp [hspares]
    · rw [Outage.cut_of_lt hlt]
      constructor
      · nofun
      · rintro ⟨-, hspares⟩
        exact absurd (hspares o rfl) (Nat.not_le.2 hlt)

/-- **A write fails where there is no place for the file, and then it does nothing, or it breaks
off, and then it has written the beginning of the content.** -/
theorem overwrite_eq_error_iff {fault : FileFault} :
    t.overwrite path content outage = (.error fault, t') ↔
      (t.target path = .error fault ∧ t' = t) ∨
        ∃ bytes, outage = some ⟨bytes, fault⟩ ∧ bytes < content.length ∧
          t.write path (content.take bytes) = .ok t' := by
  cases htarget : t.target path with
  | error cause =>
    have hno : ∀ c, t.write path c ≠ .ok t' := by
      intro c hc
      rw [write, htarget] at hc
      cases hc
    rw [overwrite_of_not_target htarget]
    simp [hno, eq_comm]
  | ok home =>
    obtain ⟨u, hu, heq⟩ := overwrite_of_target content outage htarget
    rw [heq]
    rcases Outage.spares_or outage content with hspares | ⟨o, rfl, hlt⟩
    · rw [Outage.cut_of_spares hspares]
      constructor
      · nofun
      · rintro (⟨h, -⟩ | ⟨bytes, rfl, hlt, -⟩)
        · cases h
        · exact absurd (hspares _ rfl) (Nat.not_le.2 hlt)
    · rw [Outage.cut_of_lt hlt] at hu ⊢
      constructor
      · intro h
        cases h
        exact Or.inr ⟨o.bytes, rfl, hlt, hu⟩
      · rintro (⟨h, -⟩ | ⟨bytes, h, -, hwrite⟩)
        · cases h
        · cases h
          rw [hu] at hwrite
          cases hwrite
          rfl

end FileTree
end SymbolTable
