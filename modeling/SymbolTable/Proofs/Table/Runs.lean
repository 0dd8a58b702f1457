/-
# Tables after any run

A run is a list of changes, made one after the other to a fresh table.  Parsers, files, settings
and bytes come from outside and may be anything.

What every change keeps is `WellFormed`: distinct paths and a Root.  That suffices for everything
that reading a table takes for granted, which `Consistent` lists.

* `wellFormed_apply`: what one change keeps;
* `consistent_after`: what holds after any run.
-/
import SymbolTable.Proofs.Loading.Steps
import SymbolTable.Proofs.Snapshot.Restoring

namespace SymbolTable

/-! ## 1. Runs -/

/-- One thing that can happen to a table. -/
inductive Change : Type 1 where
  | register (item : Item)
  | delete (p : Path)
  | clear
  /-- A load in a workspace, whose own table does not matter. -/
  | load {σ : Type} (settings : Settings) (parser : Parser σ) (path : String) (force : Bool)
      (w : Workspace σ)
  /-- The table in the bytes takes the place of the one that is there, if they hold a table. -/
  | decode (bytes : Bytes)

namespace Table

def apply (t : Table) : Change → Table
  | .register item => t.register item
  | .delete p => (t.delete p).2
  | .clear => t.clear
  | .load settings parser path force w =>
    ({ w with table := t }.load settings parser path force).2.table
  | .decode bytes =>
    match Table.decode bytes with
    | .ok u => u
    | .error _ => t

/-- The table that a run leaves. -/
def after (run : List Change) : Table := run.foldl apply fresh

/-! ## 2. What single changes keep -/

variable {t : Table}

theorem WellFormed.get?_root (h : t.WellFormed) : ∃ r, t.get? .root = some r ∧ r.kind = .root := by
  obtain ⟨r, hr⟩ := Option.isSome_iff_exists.1 (isSome_get?_iff.2 h.root_mem_paths)
  exact ⟨r, hr, h.kind_eq_root (List.mem_of_find?_eq_some hr) (path_of_get? hr)⟩

theorem WellFormed.get?_root_eq (h : t.WellFormed) : t.get? .root = some t.root := by
  obtain ⟨r, hr, -⟩ := h.get?_root
  rw [Table.root, hr, Option.getD_some]

theorem wellFormed_of_get?_root {r : Entity} (hnd : t.paths.Nodup) (hr : t.get? .root = some r)
    (hk : r.kind = .root) : t.WellFormed :=
  ⟨hnd, r, List.mem_of_find?_eq_some hr, path_of_get? hr, hk⟩

theorem WellFormed.insert (h : t.WellFormed) (e : Entity) : (t.insert e).WellFormed := by
  obtain ⟨r, hr, hk⟩ := h.get?_root
  have hnd : (t.insert e).paths.Nodup := by
    unfold Table.insert
    split
    · exact nodup_upsert Entity.path e h.nodup
    · exact h.nodup
  have hget := get?_insert t e .root
  by_cases he : accepts e ∧ e.path = .root
  · rw [if_pos he] at hget
    have hek : e.kind = .root := by simpa [accepts, Entity.isRoot, he.2] using he.1
    exact wellFormed_of_get?_root hnd hget hek
  · rw [if_neg he] at hget
    exact wellFormed_of_get?_root hnd (hget.trans hr) hk

theorem WellFormed.register (h : t.WellFormed) (item : Item) : (t.register item).WellFormed := by
  cases item with
  | entity e => exact h.insert e
  | placeholder p => exact h

theorem WellFormed.delete (h : t.WellFormed) (p : Path) : (t.delete p).2.WellFormed := by
  by_cases hp : p = .root
  · simpa [Table.delete, hp] using h
  · obtain ⟨r, hr, hk⟩ := h.get?_root
    have hnd : (t.delete p).2.paths.Nodup := by
      rw [paths_delete t p hp]
      exact h.nodup.filter _
    have hget := get?_delete t p .root hp
    rw [if_neg (fun e => hp e.symm)] at hget
    exact wellFormed_of_get?_root hnd (hget.trans hr) hk

end Table

/-! ## 3. What loading keeps -/

/-- What single insertions keep, many keep. -/
theorem Table.insertAll_keeps {P : Table → Prop} {es : List Entity}
    (hP : ∀ t, ∀ e ∈ es, P t → P (t.insert e)) {t : Table} (h : P t) : P (t.insertAll es) := by
  induction es generalizing t with
  | nil => exact h
  | cons e rest ih =>
    exact ih (fun u x hx => hP u x (List.mem_cons_of_mem e hx)) (hP t e List.mem_cons_self h)

/-- What insertions keep and decoded tables have, loading keeps. -/
theorem Workspace.table_load {σ : Type} {parser : Parser σ} {P : Table → Prop}
    (hP : ∀ t e, P t → P (t.insert e)) (hdecode : ∀ bytes t, Table.decode bytes = .ok t → P t)
    (settings : Settings) (path : String) (force : Bool) {w : Workspace σ} (h : P w.table) :
    P (w.load settings parser path force).2.table := by
  refine load_keeps (I := fun w => P w.table) ?_ ?_ ?_ settings force h
  · exact fun w file hw => Table.insertAll_keeps (fun t e _ => hP t e) hw
  · intro w hw
    rwa [table_save]
  · exact fun w bytes table _ hd _ => hdecode bytes table hd

/-! ## 4. What every run keeps -/

namespace Table

theorem wellFormed_apply {t : Table} (h : t.WellFormed) (change : Change) :
    (t.apply change).WellFormed := by
  cases change with
  | register item => exact h.register item
  | delete p => exact h.delete p
  | clear => exact wellFormed_fresh
  | load settings parser path force w =>
    exact Workspace.table_load (fun _ e ht => ht.insert e) (fun _ _ => wellFormed_of_decode)
      settings path force h
  | decode bytes =>
    rw [apply]
    split
    · next u hu => exact wellFormed_of_decode hu
    · exact h

theorem wellFormed_after (run : List Change) : (after run).WellFormed := by
  have hrun : ∀ (run : List Change) (t : Table), t.WellFormed → (run.foldl apply t).WellFormed := by
    intro run
    induction run with
    | nil => exact fun _ ht => ht
    | cons change rest ih => exact fun t ht => ih (t.apply change) (wellFormed_apply ht change)
  exact hrun run fresh wellFormed_fresh

/-! ## 5. What readers rely on -/

/-- What reading a table takes for granted. -/
structure Consistent (t : Table) : Prop where
  /-- One entity is at the empty path, and its kind is that of a Root. -/
  root : ∃ r, t.entities.filter Entity.isRoot = [r] ∧ r.kind = .root ∧ t.get? .root = some r
  /-- Under each path is the entity that has this path. -/
  stored : ∀ p e, t.get? p = some e ↔ e ∈ t.entities ∧ e.path = p
  nodup : t.paths.Nodup
  listed : (t.select []).map Entity.path = t.paths.filter fun p => p ≠ .root
  /-- Taking the Root away from the count does not go below zero. -/
  size : t.entities.length = t.size + 1 ∧ t.size = (t.select []).length
  isEmpty : t.isEmpty ↔ t.size = 0
  present : ∀ p, (t.contains p ↔ (t.get? p).isSome) ∧ (t.contains p ↔ p ∈ t.paths)

variable {t : Table}

theorem WellFormed.get?_eq_some_iff (h : t.WellFormed) {p : Path} {e : Entity} :
    t.get? p = some e ↔ e ∈ t.entities ∧ e.path = p := by
  constructor
  · intro hg
    exact ⟨List.mem_of_find?_eq_some hg, path_of_get? hg⟩
  · rintro ⟨he, rfl⟩
    obtain ⟨e', hg⟩ := Option.isSome_iff_exists.1 (isSome_get?_iff.2 (List.mem_map_of_mem he))
    have heq : e' = e :=
      List.inj_on_of_nodup_map h.nodup (List.mem_of_find?_eq_some hg) he (path_of_get? hg)
    rw [hg, heq]

theorem select_nil (t : Table) : t.select [] = t.entities.filter fun e => !e.isRoot := by
  simp [select]

theorem map_path_select_nil (t : Table) :
    (t.select []).map Entity.path = t.paths.filter fun p => p ≠ .root := by
  simp [select_nil, paths, List.filter_map, Function.comp_def, Entity.isRoot]

theorem WellFormed.filter_isRoot (h : t.WellFormed) {r : Entity} (hr : t.get? .root = some r) :
    t.entities.filter Entity.isRoot = [r] := by
  have hmap : (t.entities.filter Entity.isRoot).map Entity.path =
      t.paths.filter fun p => p = .root := by
    rw [paths, List.filter_map]
    rfl
  rw [List.filter_eq (l := t.paths) .root,
    List.count_eq_one_of_mem h.nodup h.root_mem_paths] at hmap
  obtain ⟨r', hr', -⟩ := List.map_eq_singleton_iff.1 hmap
  have hmem : r ∈ t.entities.filter Entity.isRoot :=
    List.mem_filter.2 ⟨List.mem_of_find?_eq_some hr, by simp [Entity.isRoot, path_of_get? hr]⟩
  rw [hr', List.mem_singleton] at hmem
  rw [hr', hmem]

theorem WellFormed.length_eq (h : t.WellFormed) :
    t.entities.length = (t.select []).length + 1 := by
  obtain ⟨r, hr, -⟩ := h.get?_root
  have hadd := List.length_eq_length_filter_add (l := t.entities) Entity.isRoot
  rw [h.filter_isRoot hr, ← select_nil] at hadd
  simp only [List.length_singleton] at hadd
  omega

/-- **After any run the table is consistent.** -/
theorem consistent_after (run : List Change) : (after run).Consistent := by
  have h := wellFormed_after run
  obtain ⟨r, hr, hk⟩ := h.get?_root
  have hlen := h.length_eq
  have hsize : (after run).size = ((after run).select []).length := by
    unfold Table.size
    omega
  exact {
    root := ⟨r, h.filter_isRoot hr, hk, hr⟩
    stored := fun p e => h.get?_eq_some_iff
    nodup := h.nodup
    listed := map_path_select_nil _
    size := ⟨by omega, hsize⟩
    isEmpty := by simp [Table.isEmpty]
    present := fun p => ⟨Iff.rfl, isSome_get?_iff⟩ }

end Table
end SymbolTable
