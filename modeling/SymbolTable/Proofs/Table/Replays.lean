/-
# Storing the same entities again

Entities that are stored one after the other may be at one path, and then the first one says where
it stands and the last one what is there.  Stored again on top of all that, the first ones displace
the last ones for a while, but in the end the table is the one from which the second round started.

The induction takes the entities from the end.  The last of them need not wait: storing it before
the others and again after them is storing it after them (`upsert_upsert_self`, and `upsert_comm`
for others that have their places already), so the second round without it starts from the table
without it.

* `insertAll_insert`: the last entity, stored early;
* `insertAll_insertAll`: the second round changes nothing.
-/
import SymbolTable.Table
import Mathlib.Data.List.Induction

namespace SymbolTable

/-! ## 1. Storing two elements -/

section Upserting

variable {α κ : Type} [DecidableEq κ] {key : α → κ} {x y : α}

/-- Of two elements with one key, the second one counts. -/
theorem upsert_upsert_self (h : key x = key y) (l : List α) :
    upsert key y (upsert key x l) = upsert key y l := by
  induction l with
  | nil => simp [upsert, h]
  | cons z rest ih =>
    rw [upsert, upsert]
    by_cases hz : key z = key x
    · rw [if_pos hz, if_pos (hz.trans h), upsert, if_pos h]
    · have hz' : ¬ key z = key y := fun e => hz (e.trans h.symm)
      rw [if_neg hz, if_neg hz', upsert, if_neg hz', ih]

/-- Elements with two keys can be stored in any order, if one of them has its place already. -/
theorem upsert_comm (h : key x ≠ key y) {l : List α} (hy : key y ∈ l.map key) :
    upsert key y (upsert key x l) = upsert key x (upsert key y l) := by
  induction l with
  | nil => cases hy
  | cons z rest ih =>
    by_cases hzx : key z = key x
    · have hzy : ¬ key z = key y := fun e => h (hzx.symm.trans e)
      simp only [upsert, hzx, h, if_true, if_false]
    · by_cases hzy : key z = key y
      · have hyx : ¬ key y = key x := fun e => h e.symm
        simp only [upsert, hzy, hyx, if_true, if_false]
      · have hrest : key y ∈ rest.map key := (List.mem_cons.1 hy).resolve_left fun e => hzy e.symm
        simp only [upsert, hzx, hzy, if_false, ih hrest]

end Upserting

/-! ## 2. Storing many entities twice -/

namespace Table

variable {t : Table} {e f : Entity} {es : List Entity}

/-- All entities that would be accepted have their places in the table. -/
def Places (t : Table) (es : List Entity) : Prop := ∀ e ∈ es, accepts e → e.path ∈ t.paths

theorem insert_of_not_accepts (h : ¬ accepts e) (t : Table) : t.insert e = t := if_neg h

theorem mem_paths_insert {p : Path} (h : p ∈ t.paths) (e : Entity) : p ∈ (t.insert e).paths := by
  by_cases he : accepts e
  · rw [paths_insert t he]
    split
    · exact h
    · exact List.mem_append_left _ h
  · rwa [insert_of_not_accepts he]

theorem Places.insert (h : t.Places es) (e : Entity) : (t.insert e).Places es :=
  fun f hf hacc => mem_paths_insert (h f hf hacc) e

theorem insertAll_append (t : Table) (es fs : List Entity) :
    t.insertAll (es ++ fs) = (t.insertAll es).insertAll fs := List.foldl_append

/-- What was stored has its place. -/
theorem places_insertAll (t : Table) (es : List Entity) : (t.insertAll es).Places es := by
  induction es using List.reverseRecOn with
  | nil => exact fun e he => nomatch he
  | append_singleton es e ih =>
    rw [insertAll_append]
    intro f hf hacc
    rcases List.mem_append.1 hf with hf | hf
    · exact ih.insert e f hf hacc
    · obtain rfl := List.mem_singleton.1 hf
      show f.path ∈ ((t.insertAll es).insert f).paths
      rw [paths_insert _ hacc]
      split
      · next h => exact h
      · exact List.mem_append_right _ List.mem_cons_self

theorem insert_insert_self (h : e.path = f.path) (hf : accepts f) (t : Table) :
    (t.insert e).insert f = t.insert f := by
  by_cases he : accepts e
  · simp only [insert, he, hf, if_true, upsert_upsert_self h]
  · rw [insert_of_not_accepts he]

theorem insert_comm (h : e.path ≠ f.path) (hf : f.path ∈ t.paths) :
    (t.insert e).insert f = (t.insert f).insert e := by
  by_cases he : accepts e
  · by_cases hacc : accepts f
    · simp only [insert, he, hacc, if_true, upsert_comm h hf]
    · rw [insert_of_not_accepts hacc, insert_of_not_accepts hacc]
  · rw [insert_of_not_accepts he, insert_of_not_accepts he]

/-- **An entity that is stored after others need not be stored before them**, if they have their
places already. -/
theorem insertAll_insert (h : t.Places es) (e : Entity) :
    ((t.insert e).insertAll es).insert e = (t.insertAll es).insert e := by
  induction es generalizing t with
  | nil =>
    by_cases he : accepts e
    · exact insert_insert_self rfl he t
    · exact insert_of_not_accepts he _
  | cons f rest ih =>
    have hrest : t.Places rest := fun x hx => h x (List.mem_cons_of_mem f hx)
    show (((t.insert e).insert f).insertAll rest).insert e = ((t.insert f).insertAll rest).insert e
    by_cases hf : accepts f
    · by_cases hpath : e.path = f.path
      · rw [insert_insert_self hpath hf]
      · rw [insert_comm hpath (h f List.mem_cons_self hf)]
        exact ih (hrest.insert f)
    · rw [insert_of_not_accepts hf, insert_of_not_accepts hf]
      exact ih hrest

/-- **Storing the same entities again changes nothing.** -/
theorem insertAll_insertAll (t : Table) (es : List Entity) :
    (t.insertAll es).insertAll es = t.insertAll es := by
  induction es using List.reverseRecOn with
  | nil => rfl
  | append_singleton es e ih =>
    have hlast := insertAll_insert (t.places_insertAll es) e
    rw [ih] at hlast
    rw [insertAll_append, insertAll_append]
    exact hlast

end Table
end SymbolTable
