/-
# Loading and saving again and again

A snapshot that comes from somewhere else need not be the one that this library would have written
for the same table.  It is replaced by that one when it is loaded and the table is saved to where it
came from, and that is all that ever happens to it: the next load reads the same table and the next
save writes the same bytes (`Settled`).  A file that was loaded has a place where it can be saved,
so on a disk that takes everything no cycle fails.

* `Settled.cycle`, `Settled.cycles`: what no cycle changes;
* `Settled.cycles_ok`: cycles that do not fail;
* `load_save_canonical`: every snapshot that can be decoded, and every one that can be loaded.
-/
import SymbolTable.Proofs.Loading.Steps
import SymbolTable.Proofs.Snapshot.Canonical

namespace SymbolTable

theorem Table.decode_eq_ok_iff {bytes : Bytes} {t : Table} :
    Table.decode bytes = .ok t ↔
      ∃ s, Snapshot.decode bytes = .ok s ∧ s.restore = .ok t :=
  bind_eq_ok_iff

/-- What was decoded from some bytes is decoded from its own. -/
theorem Table.decode_encode_of_decode {bytes : Bytes} {t : Table}
    (h : Table.decode bytes = .ok t) : Table.decode t.encode = .ok t := by
  obtain ⟨s, hs, hrestore⟩ := Table.decode_eq_ok_iff.1 h
  obtain rfl : Snapshot.capture t = s := (Snapshot.restore_eq_ok_iff.1 hrestore).2
  exact Table.decode_eq_ok_iff.2 ⟨_, Snapshot.decode_encode_of_decode hs, hrestore⟩

namespace Workspace

variable {σ : Type}

/-! ## 1. Cycles -/

/-- Loads the table and saves it to the same path. -/
def cycle (settings : Settings) (parser : Parser σ) (path : String) (w : Workspace σ) :
    Except LoadError (Workspace σ) :=
  match w.load settings parser path false with
  | (.error e, _) => .error e
  | (.ok _, w') =>
    match w'.save path with
    | (.error e, _) => .error (.unsaved e)
    | (.ok (), w'') => .ok w''

/-- Some cycles, one after the other. -/
def cycles (settings : Settings) (parser : Parser σ) (path : String) :
    (n : Nat) → Workspace σ → Except LoadError (Workspace σ)
  | 0, w => .ok w
  | n + 1, w => do
    let w' ← w.cycle settings parser path
    cycles settings parser path n w'

/-! ## 2. What no cycle changes -/

variable {settings : Settings} {parser : Parser σ} {path : String} {w w' : Workspace σ} {t : Table}

/-- The file at `path` holds what is written for the table. -/
structure Settled (path : String) (t : Table) (w : Workspace σ) : Prop where
  table : w.table = t
  read : w.files.read path = .ok t.encode
  write : w.files.write path t.encode = .ok w.files
  decode : Table.decode t.encode = .ok t

/-- A load restores the table that is in the snapshot, and changes nothing else. -/
theorem load_eq_restored_iff {n : Nat} :
    w.load settings parser path false = (.ok (.restored n), w') ↔
      ∃ bytes t, w.files.read path = .ok bytes ∧ Table.decode bytes = .ok t ∧ n = t.size ∧
        w' = { w with table := t } := by
  constructor
  · intro h
    cases hread : w.files.read path with
    | ok bytes =>
      rw [load_eq_of_read hread, restore] at h
      split at h
      · next table htable =>
        cases h
        exact ⟨bytes, table, rfl, htable, rfl, rfl⟩
      · cases h
    | error fault =>
      rw [load, hread] at h
      exact absurd h rebuild_ne_restored
  · rintro ⟨bytes, t, hread, hdecode, rfl, rfl⟩
    rw [load_eq_of_read hread, restore, hdecode]

/-- A table that was decoded and then saved has settled. -/
theorem settled_of_save {bytes : Bytes} (hdecode : Table.decode bytes = .ok w.table)
    (hsave : w.save path = (.ok (), w')) : Settled path w.table w' := by
  obtain ⟨files, hwrite, -, rfl⟩ := save_eq_ok_iff.1 hsave
  exact {
    table := rfl
    read := FileTree.read_write hwrite
    write := write_of_save hsave
    decode := Table.decode_encode_of_decode hdecode }

namespace Settled

/-- A cycle is a save, because there is nothing new to load. -/
theorem cycle_eq_ok_iff (h : Settled path t w) (settings : Settings) (parser : Parser σ) :
    w.cycle settings parser path = .ok w' ↔ w.save path = (.ok (), w') := by
  have hload : w.load settings parser path false = (.ok (.restored t.size), w) := by
    rw [load_eq_of_read h.read, restore, h.decode, ← h.table]
  rw [Workspace.cycle, hload]
  dsimp only
  rcases w.save path with ⟨e | ⟨⟨⟩⟩, u⟩
  · simp
  · simp

theorem cycle (h : Settled path t w) (hcycle : w.cycle settings parser path = .ok w') :
    Settled path t w' ∧ w'.files = w.files := by
  obtain ⟨files, hwrite, -, rfl⟩ := save_eq_ok_iff.1 ((h.cycle_eq_ok_iff settings parser).1 hcycle)
  rw [h.table, h.write] at hwrite
  cases hwrite
  exact ⟨⟨h.table, h.read, h.write, h.decode⟩, rfl⟩

/-- **Once a table has settled, the files stay as they are.** -/
theorem cycles {n : Nat} :
    ∀ {w : Workspace σ}, Settled path t w → w.cycles settings parser path n = .ok w' →
      w'.files = w.files := by
  induction n with
  | zero =>
    intro w _ hcycles
    cases hcycles
    rfl
  | succ n ih =>
    intro w h hcycles
    obtain ⟨w₁, hcycle, hrest⟩ := bind_eq_ok_iff.1 hcycles
    obtain ⟨hsettled, hfiles⟩ := h.cycle hcycle
    exact (ih hsettled hrest).trans hfiles

/-- On a disk that takes everything, cycles do not fail. -/
theorem cycles_ok (settings : Settings) (parser : Parser σ) (n : Nat) :
    ∀ {w : Workspace σ}, Settled path t w → w.disk = .ample →
      ∃ w', w.cycles settings parser path n = .ok w' := by
  induction n with
  | zero => exact fun {w} _ _ => ⟨w, rfl⟩
  | succ n ih =>
    intro w h hdisk
    obtain ⟨home, htarget⟩ := FileTree.exists_write_iff.1 ⟨_, h.write⟩
    obtain ⟨w₁, hsave, hdisk₁, -⟩ := save_of_ample hdisk htarget
    have hcycle := (h.cycle_eq_ok_iff settings parser).2 hsave
    obtain ⟨w', hrest⟩ := ih (h.cycle hcycle).1 hdisk₁
    exact ⟨w', bind_eq_ok_iff.2 ⟨w₁, hcycle, hrest⟩⟩

end Settled

/-! ## 3. Snapshots from anywhere -/

/-- **The bytes of what was decoded are the shortest that it can be decoded from**, and no others
are as short.  A snapshot that is loaded and saved is replaced by them, and stays as it is from then
on.  On a disk that takes everything, none of this fails. -/
theorem load_save_canonical {bytes : Bytes} {s : Snapshot} (h : Snapshot.decode bytes = .ok s) :
    (Snapshot.decode s.encode = .ok s ∧ s.encode.length ≤ bytes.length ∧
      (s.encode.length = bytes.length → s.encode = bytes)) ∧
    ∀ {σ : Type} (settings : Settings) (parser : Parser σ) (path : String) (w w' : Workspace σ)
      (n : Nat), w.files.read path = .ok bytes →
      w.load settings parser path false = (.ok (.restored n), w') →
      (∀ w₁, w'.save path = (.ok (), w₁) → w₁.files.read path = .ok s.encode ∧
        ∀ n w₂, w₁.cycles settings parser path n = .ok w₂ → w₂.files = w₁.files) ∧
      (w.disk = .ample → ∃ w₁, w'.save path = (.ok (), w₁) ∧
        ∀ n, ∃ w₂, w₁.cycles settings parser path n = .ok w₂) := by
  have hspells := Snapshot.spells_of_decode h
  refine ⟨⟨Snapshot.decode_encode_of_decode h, hspells.length_le, hspells.eq_of_length_eq⟩, ?_⟩
  intro σ settings parser path w w' n hread hload
  obtain ⟨bytes', t, hread', hdecode, -, rfl⟩ := load_eq_restored_iff.1 hload
  obtain rfl : bytes = bytes' := by simpa [hread] using hread'
  obtain ⟨s', hs', hrestore⟩ := Table.decode_eq_ok_iff.1 hdecode
  obtain rfl : s = s' := by simpa [h] using hs'
  obtain rfl : Snapshot.capture t = s := (Snapshot.restore_eq_ok_iff.1 hrestore).2
  constructor
  · intro w₁ hsave
    have hsettled := settled_of_save hdecode hsave
    exact ⟨hsettled.read, fun n w₂ hcycles => hsettled.cycles hcycles⟩
  · intro hdisk
    obtain ⟨home, htarget⟩ := FileTree.exists_target_of_read hread
    have hdisk' : ({ w with table := t } : Workspace σ).disk = .ample := hdisk
    obtain ⟨w₁, hsave, hdisk₁, -⟩ := save_of_ample hdisk' htarget
    have hsettled := settled_of_save hdecode hsave
    exact ⟨w₁, hsave, fun n => hsettled.cycles_ok settings parser n hdisk₁⟩

/-- A padded count, a property that is given twice, a padded number and two bytes too many. -/
theorem load_save_canonical_padded :
    let bytes : Bytes := Snapshot.header ++ [0x81, 0x00] ++
      ([0, 0, 4, 0x72, 0x6f, 0x6f, 0x74, 0] ++ [2, 1, 0x61, 2, 1, 1, 0x61, 1, 0x83, 0x80, 0x00]) ++
      [7, 7]
    let root : Entity := ⟨.root, none, .root, [], .ofPairs [("a", .integer (-2))]⟩
    let s : Snapshot := ⟨[root]⟩
    let parser : Parser Unit := ⟨fun _ _ path => (⟨[], some ⟨path, "no"⟩⟩, ())⟩
    let files : FileTree := ⟨.file ⟨"s", by decide⟩ bytes .empty, by
      simp [Folder.Ordered, Folder.names]⟩
    let w : Workspace Unit := ⟨.fresh, files, .ample, (), []⟩
    let w' : Workspace Unit := { w with table := ⟨[root]⟩ }
    (Snapshot.decode bytes = .ok s ∧ w.files.read "s" = .ok bytes ∧
      w.load .standard parser "s" false = (.ok (.restored 0), w') ∧ w.disk = .ample) ∧
    (s.encode.length = 22 ∧ bytes.length = 31 ∧ Snapshot.decode s.encode = .ok s) ∧
    ∃ w₁, w'.save "s" = (.ok (), w₁) ∧ w₁.files.read "s" = .ok s.encode ∧
      ∃ w₂, w₁.cycles .standard parser "s" 3 = .ok w₂ ∧ w₂.files = w₁.files := by
  intro bytes root s parser files w w'
  have hdecode : Snapshot.decode bytes = .ok s := by decide +kernel
  have hread : w.files.read "s" = .ok bytes := by decide +kernel
  have hload : w.load .standard parser "s" false = (.ok (.restored 0), w') :=
    load_eq_restored_iff.2 ⟨bytes, ⟨[root]⟩, hread, by decide +kernel, rfl, rfl⟩
  obtain ⟨hcanonical, hcycles⟩ := load_save_canonical hdecode
  obtain ⟨hstays, hends⟩ := hcycles .standard parser "s" w w' 0 hread hload
  obtain ⟨w₁, hsave, hcycle⟩ := hends rfl
  obtain ⟨hsaved, hsettled⟩ := hstays w₁ hsave
  obtain ⟨w₂, hw₂⟩ := hcycle 3
  exact ⟨⟨hdecode, hread, hload, rfl⟩, ⟨by decide +kernel, by decide +kernel, hcanonical.1⟩,
    w₁, hsave, hsaved, w₂, hw₂, hsettled 3 w₂ hw₂⟩

end Workspace
end SymbolTable
