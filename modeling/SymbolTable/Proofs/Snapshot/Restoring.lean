/-
# Which entries make up a table

`restore` looks at the entries one by one.  What it accepts can be said of the list as a whole:
the paths are distinct, only Roots are at the empty path, and there is one.  That is what makes a
table well formed, so restoring accepts the well-formed tables, laid out flat, and nothing else.

* `firstDamage_eq_none_iff`: when nothing is wrong with entries that follow others;
* `restore_eq_ok_iff_wellFormed`: which snapshots are accepted, and as what.
-/
import SymbolTable.Snapshot
import Mathlib.Data.List.Nodup

namespace SymbolTable

/-! ## 1. Well-formed tables -/

namespace Table

variable {t : Table}

/-- In a well-formed table every entity at the empty path is the Root. -/
theorem WellFormed.kind_eq_root (h : t.WellFormed) {e : Entity} (he : e ∈ t.entities)
    (hp : e.path = .root) : e.kind = .root := by
  obtain ⟨r, hr, hrp, hrk⟩ := h.root
  have heq : e = r := List.inj_on_of_nodup_map h.nodup he hr (hp.trans hrp.symm)
  rw [heq, hrk]

theorem WellFormed.root_mem_paths (h : t.WellFormed) : .root ∈ t.paths := by
  obtain ⟨r, hr, hrp, -⟩ := h.root
  exact hrp ▸ List.mem_map_of_mem hr

theorem wellFormed_iff :
    t.WellFormed ↔ t.paths.Nodup ∧ (∀ e ∈ t.entities, e.path = .root → e.kind = .root) ∧
      .root ∈ t.paths := by
  constructor
  · intro h
    exact ⟨h.nodup, fun e he hp => h.kind_eq_root he hp, h.root_mem_paths⟩
  · rintro ⟨hnd, hkind, hroot⟩
    obtain ⟨r, hr, hrp⟩ := List.mem_map.1 hroot
    exact ⟨hnd, r, hr, hrp, hkind r hr hrp⟩

end Table

/-! ## 2. Restoring -/

namespace Snapshot

/-- Nothing is wrong with an entry and what follows it. -/
theorem firstDamage_cons_eq_none_iff {seen : List Path} {e : Entity} {rest : List Entity} :
    firstDamage seen (e :: rest) = none ↔
      e.path ∉ seen ∧ (e.path = .root → e.kind = .root) ∧
        firstDamage (e.path :: seen) rest = none := by
  rw [firstDamage]
  by_cases hseen : e.path ∈ seen
  · simp [hseen]
  · rw [if_neg hseen]
    by_cases hroot : e.path = .root ∧ e.kind ≠ .root
    · rw [if_pos hroot]
      simp [hroot]
    · rw [if_neg hroot]
      have hkind : e.path = .root → e.kind = .root := by
        intro hp
        by_contra hk
        exact hroot ⟨hp, hk⟩
      exact ⟨fun h => ⟨hseen, hkind, h⟩, fun h => h.2.2⟩

/-- Nothing is wrong with entries that follow entries at the paths `seen` exactly when they repeat
no path, are Roots where the path is empty, and a Root is among them or has been seen. -/
theorem firstDamage_eq_none_iff {seen : List Path} {es : List Entity} :
    firstDamage seen es = none ↔
      (∀ e ∈ es, e.path ∉ seen) ∧ (es.map Entity.path).Nodup ∧
        (∀ e ∈ es, e.path = .root → e.kind = .root) ∧
          (.root ∈ seen ∨ .root ∈ es.map Entity.path) := by
  induction es generalizing seen with
  | nil => by_cases h : Path.root ∈ seen <;> simp [firstDamage, h]
  | cons e rest ih =>
    rw [firstDamage_cons_eq_none_iff, ih]
    simp only [List.mem_cons, not_or, forall_eq_or_imp, List.map_cons, List.nodup_cons]
    constructor
    · rintro ⟨hseen, hk, hfresh, hnd, hkind, hr⟩
      refine ⟨⟨hseen, fun x hx => (hfresh x hx).2⟩, ⟨?_, hnd⟩, ⟨hk, hkind⟩, ?_⟩
      · intro hmem
        obtain ⟨x, hx, hxe⟩ := List.mem_map.1 hmem
        exact (hfresh x hx).1 hxe
      · rcases hr with (hr | hr) | hr
        · exact Or.inr (Or.inl hr)
        · exact Or.inl hr
        · exact Or.inr (Or.inr hr)
    · rintro ⟨⟨hseen, hfresh⟩, ⟨hnot, hnd⟩, ⟨hk, hkind⟩, hr⟩
      refine ⟨hseen, hk, fun x hx => ⟨?_, hfresh x hx⟩, hnd, hkind, ?_⟩
      · intro hxe
        exact hnot (hxe ▸ List.mem_map_of_mem hx)
      · rcases hr with hr | hr | hr
        · exact Or.inl (Or.inr hr)
        · exact Or.inl (Or.inl hr)
        · exact Or.inr hr

/-- **Restoring accepts exactly the well-formed tables, laid out flat.** -/
theorem restore_eq_ok_iff_wellFormed {s : Snapshot} {t : Table} :
    s.restore = .ok t ↔ t.WellFormed ∧ capture t = s := by
  rw [restore_eq_ok_iff, firstDamage_eq_none_iff, Table.wellFormed_iff]
  constructor
  · rintro ⟨⟨-, hnd, hkind, hroot⟩, rfl⟩
    exact ⟨⟨hnd, hkind, hroot.resolve_left List.not_mem_nil⟩, rfl⟩
  · rintro ⟨⟨hnd, hkind, hroot⟩, rfl⟩
    exact ⟨⟨fun _ _ => List.not_mem_nil, hnd, hkind, Or.inr hroot⟩, rfl⟩

theorem restore_capture {t : Table} (h : t.WellFormed) : (capture t).restore = .ok t :=
  restore_eq_ok_iff_wellFormed.mpr ⟨h, rfl⟩

end Snapshot

theorem Table.wellFormed_of_decode {bytes : Bytes} {t : Table} (h : Table.decode bytes = .ok t) :
    t.WellFormed := by
  unfold Table.decode at h
  cases hs : Snapshot.decode bytes with
  | error damage => rw [hs] at h; simp [bind, Except.bind] at h
  | ok s =>
    rw [hs] at h
    exact (Snapshot.restore_eq_ok_iff_wellFormed.mp h).1

end SymbolTable
