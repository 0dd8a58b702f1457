/-
# Loading what was saved

A table that was saved is the table that is loaded, whatever table was there before and whatever
the parser would have said: the snapshot is read, so nothing is parsed.

The way there and back has four stages, each with its own statement: entries
(`Snapshot.restore_capture`), bytes (`Snapshot.decode_encode`), the file (`FileTree.read_write`)
and the table that is replaced (`restore_encode`).

* `load_saved`: loading what a run has left and saved.
-/
import SymbolTable.Proofs.Loading.Steps
import SymbolTable.Proofs.Snapshot.RoundTrip
import SymbolTable.Proofs.Table.Runs

namespace SymbolTable

namespace Workspace

variable {σ : Type}

/-- The bytes of a table replace the table that is there by that one, and change nothing else. -/
theorem restore_encode {t : Table} (hwf : t.WellFormed) (hfit : t.Fits) (w : Workspace σ) :
    w.restore t.encode = (.ok (.restored t.size), { w with table := t }) := by
  rw [restore, Table.decode_encode hwf hfit]

/-- **A table that was saved is loaded as it was**, on whatever disk the save went through.  The
table that was there is gone, and what is remembered and logged of calls to the parser is what it
was. -/
theorem load_saved (run : List Change) {path : String} {outage : Option Outage} {files : FileTree}
    {w : Workspace σ} (hfit : (Table.after run).Fits)
    (hsave : (Table.after run).save path outage files = (.ok (), w.files)) (settings : Settings)
    (parser : Parser σ) :
    w.load settings parser path false =
      (.ok (.restored (Table.after run).size), { w with table := Table.after run }) := by
  have hread := FileTree.read_write (Table.save_eq_ok_iff.1 hsave).1
  rw [load_eq_of_read hread]
  exact restore_encode (Table.wellFormed_after run) hfit w

/-- A list inside a list, a parent that is not stored, a Root that was registered again, and
another table that is gone. -/
theorem load_saved_nested :
    let method := (Entity.atPath ⟨"A::f"⟩ ⟨"method"⟩).withProperty "sizes"
      (.list [.integer (-1), .list [.text "é", .boolean true]])
    let root := Entity.root.withProperty "seen" (.boolean true)
    let run : List Change :=
      [.register (.entity method), .register (.entity root),
        .register (.entity (Entity.atPath ⟨"B"⟩ ⟨"class"⟩)), .delete ⟨"B"⟩]
    let files : FileTree := ⟨.file ⟨"s", by decide⟩ (Table.after run).encode .empty, by
      simp [Folder.Ordered, Folder.names]⟩
    let table := Table.fresh.insert (Entity.atPath ⟨"C"⟩ ⟨"class"⟩)
    let w : Workspace Unit := ⟨table, files, .ample, (), []⟩
    (Table.after run).Fits ∧ (Table.after run).save "s" none .empty = (.ok (), w.files) ∧
      w.load .standard ⟨fun _ _ path => (⟨[], some ⟨path, "no"⟩⟩, ())⟩ "s" false =
        (.ok (.restored 1), { w with table := Table.after run }) := by
  intro method root run files table w
  have hfit : (Table.after run).Fits := by decide +kernel
  have hsave : (Table.after run).save "s" none .empty = (.ok (), w.files) := rfl
  exact ⟨hfit, hsave, load_saved run hfit hsave .standard _⟩

end Workspace
end SymbolTable
