/-
# What the steps of a load do

Everything that a load is made of succeeds in one way only, and the lemmas here say in which: a
save writes the table's bytes and is logged, a plan goes on after a save, a rebuild follows the
plan for its sources, and a load rebuilds only where the snapshot does not decide.

A save has two ways to fail, because it creates the file before it writes to it
(`Table.save_eq_error_iff`).  Whether the file can be created is decided by the tree and is the same
for every table; how much is written is up to the disk.  What one save leaves is no trace for the
next one that goes through (`write_of_save`).

What every step keeps, a load keeps (`load_keeps`).
-/
import SymbolTable.Loading
import SymbolTable.Proofs.FileTree.Writing

namespace SymbolTable

variable {σ : Type} {path : String}

/-! ## 1. Saving tables -/

namespace Table

variable {t : Table} {files files' : FileTree} {outage : Option Outage}

theorem save_eq_ok_iff :
    t.save path outage files = (.ok (), files') ↔
      files.write path t.encode = .ok files' ∧ Outage.Spares outage t.encode := by
  rw [← FileTree.overwrite_eq_ok_iff, save]
  rcases files.overwrite path t.encode outage with ⟨_ | ⟨⟨⟩⟩, written⟩
  · exact ⟨nofun, nofun⟩
  · constructor
    · intro h
      cases h
      rfl
    · intro h
      cases h
      rfl

/-- **A save fails in two ways.**  Either there is no place for the file and nothing changes, or the
write breaks off and the beginning of the snapshot is in the file. -/
theorem save_eq_error_iff {e : SaveError} :
    t.save path outage files = (.error e, files') ↔ e.path = path ∧
      ((files.target path = .error e.cause ∧ files' = files) ∨
        ∃ bytes, outage = some ⟨bytes, e.cause⟩ ∧ bytes < t.encode.length ∧
          files.write path (t.encode.take bytes) = .ok files') := by
  rw [← FileTree.overwrite_eq_error_iff, save]
  rcases files.overwrite path t.encode outage with ⟨cause | ⟨⟨⟩⟩, written⟩
  · constructor
    · intro h
      cases h
      exact ⟨rfl, rfl⟩
    · rintro ⟨rfl, h⟩
      cases h
      rfl
  · constructor
    · nofun
    · rintro ⟨-, h⟩
      cases h

end Table

namespace Workspace

variable {parser : Parser σ} {w w' : Workspace σ}

/-! ## 2. Saving on the way -/

section Notes

variable (event : Event) (w : Workspace σ)

@[simp] theorem table_note : (w.note event).table = w.table := rfl

@[simp] theorem memory_note : (w.note event).memory = w.memory := rfl

@[simp] theorem log_note : (w.note event).log = w.log ++ [event] := rfl

end Notes

theorem save_eq_ok_iff :
    w.save path = (.ok (), w') ↔ ∃ files, w.files.write path w.table.encode = .ok files ∧
      Outage.Spares (w.disk w.log.length) w.table.encode ∧ w' = { w with files }.note .saved := by
  have hsave : w.save path = (.ok (), w') ↔
      ∃ files, w.table.save path (w.disk w.log.length) w.files = (.ok (), files) ∧
        w' = { w with files }.note .saved := by
    unfold save
    rcases w.table.save path (w.disk w.log.length) w.files with ⟨_ | ⟨⟨⟩⟩, written⟩
    · simp
    · simp [eq_comm]
  simp only [hsave, Table.save_eq_ok_iff, and_assoc]

theorem save_eq_error_iff {e : SaveError} :
    w.save path = (.error e, w') ↔
      ∃ files, w.table.save path (w.disk w.log.length) w.files = (.error e, files) ∧
        w' = { w with files }.note .unsaved := by
  unfold save
  rcases w.table.save path (w.disk w.log.length) w.files with ⟨_ | ⟨⟨⟩⟩, written⟩
  · simp [eq_comm, and_assoc, exists_and_left]
  · simp

theorem table_save (w : Workspace σ) : (w.save path).2.table = w.table := by
  unfold save
  split
  · rfl
  · rfl

theorem disk_save (w : Workspace σ) : (w.save path).2.disk = w.disk := by
  unfold save
  split
  · rfl
  · rfl

/-- **However a save ends, it changes nothing or has written the beginning of the snapshot.**  The
beginning may be all of it. -/
theorem files_save (w : Workspace σ) :
    (w.save path).2.files = w.files ∨
      ∃ front, front <+: w.table.encode ∧ w.files.write path front = .ok (w.save path).2.files := by
  rcases hsave : w.save path with ⟨e | ⟨⟨⟩⟩, w'⟩
  · obtain ⟨files, htable, rfl⟩ := save_eq_error_iff.1 hsave
    rcases (Table.save_eq_error_iff.1 htable).2 with ⟨-, rfl⟩ | ⟨bytes, -, -, hwrite⟩
    · exact Or.inl rfl
    · exact Or.inr ⟨_, List.take_prefix _ _, hwrite⟩
  · obtain ⟨files, hwrite, -, rfl⟩ := save_eq_ok_iff.1 hsave
    exact Or.inr ⟨_, List.prefix_rfl, hwrite⟩

/-- Where there is a place for the file and the disk takes everything, a save goes through. -/
theorem save_of_ample (hdisk : w.disk = .ample) {home : FileTree.Place × FileName}
    (h : w.files.target path = .ok home) :
    ∃ w', w.save path = (.ok (), w') ∧ w'.disk = .ample ∧
      w'.files.target path = .ok home := by
  obtain ⟨files, hwrite⟩ := FileTree.exists_write_iff.2 ⟨home, h⟩
  have hspares : Outage.Spares (w.disk w.log.length) w.table.encode :=
    hdisk ▸ Outage.spares_none _
  exact ⟨_, save_eq_ok_iff.2 ⟨files, hwrite, hspares, rfl⟩, hdisk,
    (FileTree.target_write hwrite).trans h⟩

/-- What has just been saved, saved again, leaves the files as they are. -/
theorem write_of_save (h : w.save path = (.ok (), w')) :
    w'.files.write path w'.table.encode = .ok w'.files := by
  obtain ⟨files, hwrite, -, rfl⟩ := save_eq_ok_iff.1 h
  exact (FileTree.write_write hwrite _).trans hwrite

theorem follow_parse (file : String) (rest : List Action) (done : Progress) :
    w.follow parser path (.parse file :: rest) done =
      (w.parseFile parser file).2.follow parser path rest
        { done with failures := done.failures ++
            (w.parseFile parser file).1.failure.toList } := rfl

theorem follow_save_eq_ok_iff {rest : List Action} {done done' : Progress} :
    w.follow parser path (.save :: rest) done = (.ok done', w') ↔
      ∃ w₁, w.save path = (.ok (), w₁) ∧
        w₁.follow parser path rest { done with saves := done.saves + 1 } = (.ok done', w') := by
  rw [follow]
  rcases w.save path with ⟨_ | ⟨⟨⟩⟩, w₁⟩
  · simp
  · simp

/-! ## 3. Restoring and rebuilding -/

variable {settings : Settings} {force : Bool} {n saves : Nat} {failures : List ParseError}

/-- A snapshot that can be read decides what happens, and the parser has no say. -/
theorem load_eq_of_read {bytes : Bytes} (h : w.files.read path = .ok bytes) (settings : Settings)
    (parser : Parser σ) :
    w.load settings parser path false = w.restore bytes := by
  rw [load, h]
  rfl

theorem rebuild_eq_ok_iff :
    w.rebuild settings parser path = (.ok (.rebuilt n saves failures), w') ↔
      ∃ sources, settings.sources w.files = .ok sources ∧ n = sources.length ∧
        w.follow parser path (settings.policy.plan 0 sources) ⟨0, []⟩ =
          (.ok ⟨saves, failures⟩, w') := by
  unfold rebuild
  cases settings.sources w.files with
  | error e => simp
  | ok sources =>
    simp only [Except.ok.injEq, exists_eq_left']
    split
    · next done u heq =>
      rw [heq]
      cases done
      simp [and_assoc, eq_comm]
    · next e u heq => simp [heq]

theorem restore_ne_rebuilt {bytes : Bytes} :
    w.restore bytes ≠ (.ok (.rebuilt n saves failures), w') := by
  unfold restore
  split <;> simp

theorem rebuild_ne_restored : w.rebuild settings parser path ≠ (.ok (.restored n), w') := by
  unfold rebuild
  split
  · simp
  · split <;> simp

/-- Restoring never rebuilds, so a load that has rebuilt was one that had to, and would have
been under any settings. -/
theorem load_eq_rebuild
    (h : w.load settings parser path force = (.ok (.rebuilt n saves failures), w'))
    (settings' : Settings) :
    w.load settings' parser path force = w.rebuild settings' parser path := by
  cases force with
  | true => rfl
  | false =>
    cases hread : w.files.read path with
    | ok bytes =>
      rw [load_eq_of_read hread] at h
      exact absurd h restore_ne_rebuilt
    | error fault =>
      rw [load, hread]
      rfl

/-! ## 4. What loading keeps -/

section Keeping

variable {I : Workspace σ → Prop}

/-- What parsing and saving keep, following a plan keeps, whether it gets to its end or not.  A save
that fails has to keep it too, because it may have changed the files. -/
theorem follow_keeps (hparse : ∀ w file, I w → I (w.parseFile parser file).2)
    (hsave : ∀ w, I w → I (w.save path).2) (actions : List Action) :
    ∀ (done : Progress) (w : Workspace σ), I w → I (w.follow parser path actions done).2 := by
  induction actions with
  | nil => exact fun _ _ h => h
  | cons action rest ih =>
    intro done w h
    cases action with
    | parse file => exact ih _ _ (hparse w file h)
    | save =>
      have hw := hsave w h
      rw [follow]
      split
      · next heq =>
        rw [heq] at hw
        exact ih _ _ hw
      · next heq =>
        rw [heq] at hw
        exact hw

/-- What parsing and saving keep, and taking in the table of a snapshot that can be read, loading
keeps. -/
theorem load_keeps (hparse : ∀ w file, I w → I (w.parseFile parser file).2)
    (hsave : ∀ w, I w → I (w.save path).2)
    (hrestore : ∀ (w : Workspace σ) bytes table, w.files.read path = .ok bytes →
      Table.decode bytes = .ok table → I w → I { w with table })
    (settings : Settings) (force : Bool) {w : Workspace σ} (h : I w) :
    I (w.load settings parser path force).2 := by
  have hrebuild : I (w.rebuild settings parser path).2 := by
    unfold rebuild
    split
    · exact h
    · next sources _ =>
      have hfollow := follow_keeps hparse hsave (settings.policy.plan 0 sources) ⟨0, []⟩ w h
      split
      · next heq => rwa [heq] at hfollow
      · next heq => rwa [heq] at hfollow
  unfold load
  split
  · exact hrebuild
  · split
    · next bytes hread =>
      unfold restore
      split
      · next table htable => exact hrestore w bytes table hread htable h
      · exact h
    · exact hrebuild

end Keeping

theorem disk_load (settings : Settings) (parser : Parser σ) (path : String) (force : Bool)
    (w : Workspace σ) : (w.load settings parser path force).2.disk = w.disk :=
  load_keeps (I := fun u => u.disk = w.disk) (fun _ _ h => h)
    (fun u h => (disk_save u).trans h) (fun _ _ _ _ _ h => h) settings force rfl

end Workspace
end SymbolTable
