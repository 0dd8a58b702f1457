/-
# Sessions

In a session one table is edited, saved and loaded again and again, and the files that one step
leaves are those that the next one finds, whether the step came to a good end or not.  Nothing is in
the table that was not registered by the caller or found by a parser, because a snapshot holds only
what was saved to it: what is decoded from it is the table that was encoded, also if the disk did
not take all of it (`Table.eq_of_decode_part`).

So what is true of every entity that comes in is true of every entity that is ever stored.

* `only_perform`: one step;
* `only_session`: a session.
-/
import SymbolTable.Proofs.Snapshot.Faithful
import SymbolTable.Proofs.Table.History

namespace SymbolTable

variable {σ : Type} {P : Entity → Prop}

/-! ## 1. What comes in, and where it can be -/

/-- Something that is done in a workspace. -/
inductive Step (σ : Type) where
  | edit (c : Edit)
  | save (path : String)
  | load (settings : Settings) (parser : Parser σ) (path : String) (force : Bool)

/-- The parser finds only such entities, whatever it remembers and whatever is in the files. -/
def Parser.Only (P : Entity → Prop) (parser : Parser σ) : Prop :=
  ∀ memory files file, ∀ e ∈ (parser.parse memory files file).1.found, P e

/-- The change brings in only such entities. -/
def Edit.Only (P : Entity → Prop) : Edit → Prop
  | .register (.entity e) => P e
  | _ => True

/-- The step brings in only such entities. -/
def Step.Only (P : Entity → Prop) : Step σ → Prop
  | .edit c => c.Only P
  | .load _ parser _ _ => parser.Only P
  | _ => True

/-- Only such entities are stored. -/
def Table.Only (P : Entity → Prop) (t : Table) : Prop := ∀ e ∈ t.entities, P e

/-- Only such entities are in the files that hold a table, wherever they are. -/
def FileTree.Only (P : Entity → Prop) (files : FileTree) : Prop :=
  ∀ place content t, files.sight place = some (some content) →
    Table.decode content = .ok t → t.Only P

/-- Only such entities are stored, and no others can be loaded. -/
structure Workspace.Only (P : Entity → Prop) (w : Workspace σ) : Prop where
  table : w.table.Only P
  files : w.files.Only P

theorem FileTree.only_empty : FileTree.empty.Only P := by
  intro place content t hsight
  have hat := Folder.sight_eq_file_iff.1 hsight
  cases place with
  | nil => cases hat
  | cons name rest =>
    rw [Folder.at?_cons] at hat
    cases hat

/-! ## 2. Changes -/

namespace Table

variable {t : Table}

theorem Only.insert {e : Entity} (h : t.Only P) (he : P e) : (t.insert e).Only P := by
  unfold Table.insert
  split
  · intro x hx
    rcases mem_of_mem_upsert hx with rfl | hx
    · exact he
    · exact h x hx
  · exact h

/-- A table that is cleared has a fresh Root. -/
theorem Only.apply (hroot : P .root) {c : Edit} (h : t.Only P) (hc : c.Only P) :
    (t.apply c.change).Only P := by
  cases c with
  | register item =>
    cases item with
    | entity e => exact h.insert hc
    | placeholder p => exact h
  | delete p =>
    show (t.delete p).2.Only P
    unfold delete
    split
    · exact h
    · exact fun e he => h e (List.mem_filter.1 he).1
  | clear =>
    intro e he
    rw [List.mem_singleton.1 he]
    exact hroot

end Table

/-! ## 3. Saves and loads -/

namespace Workspace

variable {parser : Parser σ} {path : String} {w : Workspace σ}

/-- Where the snapshot is, the table is, or a part of it; elsewhere is what was there. -/
theorem Only.save (h : w.Only P) : (w.save path).2.Only P := by
  refine ⟨(table_save w).symm ▸ h.table, ?_⟩
  rcases files_save w with hsame | ⟨front, hpart, hwrite⟩
  · rw [hsame]
    exact h.files
  · obtain ⟨home, name, -, hhere, hothers⟩ := FileTree.sight_write hwrite
    intro place content t hsight hdecode
    by_cases hplace : place = home ++ [name]
    · rw [hplace] at hsight
      obtain rfl : front = content := by simpa using hhere.symm.trans hsight
      rw [Table.eq_of_decode_part hpart hdecode]
      exact h.table
    · exact h.files place content t ((hothers place hplace).symm.trans hsight) hdecode

theorem Only.parseFile (h : w.Only P) (hparser : parser.Only P) (file : String) :
    (w.parseFile parser file).2.Only P where
  table := Table.insertAll_keeps
    (fun _ e he ht => ht.insert (hparser w.memory w.files file e he)) h.table
  files := h.files

theorem Only.load (h : w.Only P) (hparser : parser.Only P) (settings : Settings) (force : Bool) :
    (w.load settings parser path force).2.Only P := by
  refine load_keeps (I := Workspace.Only P) ?_ ?_ ?_ settings force h
  · exact fun w file hw => hw.parseFile hparser file
  · exact fun w hw => hw.save
  · intro w bytes table hread hdecode hw
    obtain ⟨place, hsight⟩ := FileTree.exists_sight_of_read hread
    exact ⟨hw.files place bytes table hsight hdecode, hw.files⟩

/-! ## 4. Sessions -/

/-- Does a step.  One that fails leaves what it has come to. -/
def perform (w : Workspace σ) : Step σ → Workspace σ
  | .edit c => { w with table := w.table.apply c.change }
  | .save path => (w.save path).2
  | .load settings parser path force => (w.load settings parser path force).2

/-- Does some steps, one after the other. -/
def session (w : Workspace σ) (steps : List (Step σ)) : Workspace σ := steps.foldl perform w

theorem only_perform (hroot : P .root) {step : Step σ} (h : w.Only P) (hstep : step.Only P) :
    (w.perform step).Only P := by
  cases step with
  | edit c => exact ⟨h.table.apply hroot hstep, h.files⟩
  | save path => exact h.save
  | load settings parser path force => exact h.load hstep settings force

/-- **Only what has come in is ever stored.** -/
theorem only_session (hroot : P .root) {steps : List (Step σ)} (h : w.Only P)
    (hsteps : ∀ step ∈ steps, step.Only P) : (w.session steps).Only P := by
  induction steps generalizing w with
  | nil => exact h
  | cons step rest ih =>
    exact ih (only_perform hroot h (hsteps step List.mem_cons_self))
      fun s hs => hsteps s (List.mem_cons_of_mem step hs)

end Workspace
end SymbolTable
