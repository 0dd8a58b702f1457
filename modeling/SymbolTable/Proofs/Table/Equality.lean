/-
# Equal tables

Equality of tables does not count the order of their entities, and equality of entities does not
count the order of their properties.  Tables are compared by their lists, but what the comparison
says is about look-ups: two tables are equal when the same is found in both, at every path
(`same_iff`).

A table that entities are registered in, and nothing else, holds what was registered last at each
path.  So the order of registrations matters only among those at one path.

* `get?_ofItems`: what is found after some registrations;
* `same_ofItems_iff`: when two sequences of registrations lead to equal tables;
* `standing_perm`: registrations at distinct paths can come in any order.
-/
import SymbolTable.Proofs.Table.History
import Mathlib.Data.List.Perm.Subperm

namespace SymbolTable

/-! ## 1. Entities -/

/-- An element of a list with distinct keys is found by its key. -/
theorem find?_of_mem {α κ : Type} [DecidableEq κ] {key : α → κ} {x : α} {l : List α}
    (h : (l.map key).Nodup) (hx : x ∈ l) : l.find? (fun y => key y = key x) = some x := by
  induction l with
  | nil => cases hx
  | cons y rest ih =>
    rw [List.map_cons, List.nodup_cons] at h
    by_cases hkey : key y = key x
    · have hxy : x = y := by
        rcases List.mem_cons.1 hx with hx | hx
        · exact hx
        · exact absurd (hkey ▸ List.mem_map_of_mem hx) h.1
      rw [hxy, List.find?_cons_of_pos (by simp)]
    · have hrest : x ∈ rest := (List.mem_cons.1 hx).resolve_left fun e => hkey (by rw [e])
      rw [List.find?_cons_of_neg (by simpa using hkey), ih h.2 hrest]

theorem Payload.same_refl (p : Payload) : p.same p := by
  have hget : ∀ pair ∈ p.pairs, p.get? pair.1 = some pair.2 := by
    intro pair hpair
    rw [get?, find?_of_mem p.nodup hpair]
    rfl
  simpa [same] using fun key value hpair => hget (key, value) hpair

namespace Entity

variable {a b : Entity}

theorem same_refl (a : Entity) : a.same a := by
  simp [same, a.payload.same_refl]

theorem path_eq_of_same (h : a.same b) : a.path = b.path := by
  simp only [same, Bool.and_eq_true, decide_eq_true_eq] at h
  exact h.1.1.1.1

theorem parent_eq_of_same (h : a.same b) : a.parent = b.parent := by
  simp only [same, Bool.and_eq_true, decide_eq_true_eq] at h
  exact h.1.1.1.2

end Entity

/-- Equal entities, or none on both sides. -/
def SameEntity (a b : Option Entity) : Prop := Option.Rel (fun x y => x.same y) a b

theorem SameEntity.refl (a : Option Entity) : SameEntity a a := by
  cases a with
  | none => exact .none
  | some e => exact .some e.same_refl

theorem SameEntity.isSome_eq {a b : Option Entity} (h : SameEntity a b) : a.isSome = b.isSome := by
  cases h with
  | some => rfl
  | none => rfl

theorem sameEntity_some_iff {e : Entity} {o : Option Entity} :
    SameEntity (some e) o ↔ o.any e.same := by
  cases o with
  | none => exact ⟨nofun, nofun⟩
  | some e' =>
    constructor
    · rintro ⟨h⟩
      exact h
    · exact fun h => .some h

/-! ## 2. Tables -/

namespace Table

variable {t u : Table}

theorem get?_eq_none_iff {p : Path} : t.get? p = none ↔ p ∉ t.paths := by
  rw [← isSome_get?_iff, Option.not_isSome_iff_eq_none]

/-- **Tables are equal when the same is found in both at every path.** -/
theorem same_iff (ht : t.WellFormed) (hu : u.WellFormed) :
    t.same u ↔ ∀ p, SameEntity (t.get? p) (u.get? p) := by
  simp only [same, Bool.and_eq_true, decide_eq_true_eq, List.all_eq_true, ← sameEntity_some_iff]
  constructor
  · rintro ⟨hlen, hall⟩ p
    -- as many paths, all of them in the other table: the same paths
    have hsub : t.paths ⊆ u.paths := by
      intro q hq
      obtain ⟨e, he, rfl⟩ := List.mem_map.1 hq
      by_contra hnot
      have hsame := hall e he
      rw [get?_eq_none_iff.2 hnot] at hsame
      cases hsame
    have hperm : t.paths.Perm u.paths :=
      (List.subperm_of_subset ht.nodup hsub).perm_of_length_le (by simp [paths, hlen])
    cases hget : t.get? p with
    | none =>
      rw [get?_eq_none_iff, hperm.mem_iff, ← get?_eq_none_iff] at hget
      rw [hget]
      exact .none
    | some e =>
      have hsame := hall e (List.mem_of_find?_eq_some hget)
      rwa [path_of_get? hget] at hsame
  · intro h
    have hmem : ∀ p, p ∈ t.paths ↔ p ∈ u.paths := by
      intro p
      rw [← isSome_get?_iff, ← isSome_get?_iff, (h p).isSome_eq]
    have hperm := (List.perm_ext_iff_of_nodup ht.nodup hu.nodup).2 hmem
    refine ⟨by simpa [paths] using hperm.length_eq, fun e he => ?_⟩
    have hsame := h e.path
    rwa [ht.get?_eq_some_iff.2 ⟨he, rfl⟩] at hsame

end Table

/-! ## 3. Registrations -/

def Item.entity? : Item → Option Entity
  | .entity e => some e
  | .placeholder _ => none

/-- The entity is accepted at `p`.  At the empty path only Roots are. -/
def Entity.AcceptedAt (e : Entity) (p : Path) : Prop := e.path = p ∧ (p = .root → e.kind = .root)

instance (e : Entity) (p : Path) : Decidable (e.AcceptedAt p) := inferInstanceAs (Decidable (_ ∧ _))

/-- The last of the entities that are accepted at `p`. -/
def lastAccepted? (items : List Item) (p : Path) : Option Entity :=
  (items.filterMap Item.entity?).reverse.find? fun e => e.AcceptedAt p

/-- What stands at `p` after some registrations: what was accepted there last, or the Root of a
fresh table. -/
def standing (items : List Item) (p : Path) : Option Entity :=
  (lastAccepted? items p).or (if p = .root then some .root else none)

theorem lastAccepted?_append_entity (items : List Item) (e : Entity) (p : Path) :
    lastAccepted? (items ++ [.entity e]) p =
      if e.AcceptedAt p then some e else lastAccepted? items p := by
  have hlast : (items ++ [Item.entity e]).filterMap Item.entity? =
      items.filterMap Item.entity? ++ [e] :=
    List.filterMap_append
  rw [lastAccepted?, hlast, List.reverse_append, List.reverse_singleton, List.singleton_append,
    List.find?_cons]
  split
  · next h => rw [if_pos (of_decide_eq_true h)]
  · next h => rw [if_neg (of_decide_eq_false h), lastAccepted?]

theorem lastAccepted?_append_placeholder (items : List Item) (q : Placeholder) (p : Path) :
    lastAccepted? (items ++ [.placeholder q]) p = lastAccepted? items p := by
  have hlast : (items ++ [Item.placeholder q]).filterMap Item.entity? =
      items.filterMap Item.entity? := by
    rw [List.filterMap_append]
    exact List.append_nil _
  rw [lastAccepted?, hlast, lastAccepted?]

namespace Table

/-- A fresh table in which some items are registered. -/
def ofItems (items : List Item) : Table := after (items.map .register)

theorem ofItems_append_singleton (items : List Item) (item : Item) :
    ofItems (items ++ [item]) = (ofItems items).register item := by
  simp [ofItems, after, apply]

/-- **What is found is what was accepted last.**  The induction takes the registrations from the
end. -/
theorem get?_ofItems (items : List Item) (p : Path) :
    (ofItems items).get? p = standing items p := by
  induction items using List.reverseRecOn with
  | nil =>
    refine Option.ext fun e => ?_
    rw [show ofItems [] = fresh from rfl, get?_fresh]
    by_cases h : p = .root <;> simp [standing, lastAccepted?, h, eq_comm]
  | append_singleton items item ih =>
    rw [ofItems_append_singleton, standing]
    cases item with
    | placeholder q => rw [lastAccepted?_append_placeholder, register, ih, standing]
    | entity e =>
      have hacc : (accepts e ∧ e.path = p) ↔ e.AcceptedAt p := by
        rw [accepts_iff]
        constructor
        · rintro ⟨h, rfl⟩
          exact ⟨rfl, h⟩
        · rintro ⟨rfl, h⟩
          exact ⟨h, rfl⟩
      rw [lastAccepted?_append_entity, register, get?_insert, ih, standing]
      simp only [hacc]
      split
      · rfl
      · rfl

/-- Two sequences of registrations lead to equal tables when what was accepted last is equal at
every path. -/
theorem same_ofItems (xs ys : List Item) :
    (ofItems xs).same (ofItems ys) ↔ ∀ p, SameEntity (standing xs p) (standing ys p) := by
  simp only [← get?_ofItems]
  exact same_iff (wellFormed_after _) (wellFormed_after _)

end Table

/-! ## 4. Registrations at distinct paths -/

theorem lastAccepted?_eq_some_iff {items : List Item} (p : Path) (e : Entity)
    (h : ((items.filterMap Item.entity?).map Entity.path).Nodup) :
    lastAccepted? items p = some e ↔ .entity e ∈ items ∧ e.AcceptedAt p := by
  have hmem {x : Entity} : x ∈ (items.filterMap Item.entity?).reverse ↔ .entity x ∈ items := by
    rw [List.mem_reverse, List.mem_filterMap]
    constructor
    · rintro ⟨item, hitem, hx⟩
      cases item with
      | entity y =>
        cases hx
        exact hitem
      | placeholder q => cases hx
    · exact fun hx => ⟨_, hx, rfl⟩
  have hsome {x : Entity} (hx : lastAccepted? items p = some x) :
      .entity x ∈ items ∧ x.AcceptedAt p := by
    have haccepted := List.find?_some hx
    rw [decide_eq_true_eq] at haccepted
    exact ⟨hmem.1 (List.mem_of_find?_eq_some hx), haccepted⟩
  constructor
  · exact hsome
  · rintro ⟨he, haccepted⟩
    have hfound : (lastAccepted? items p).isSome := by
      rw [lastAccepted?, List.find?_isSome]
      exact ⟨e, hmem.2 he, decide_eq_true haccepted⟩
    obtain ⟨e', hlast⟩ := Option.isSome_iff_exists.1 hfound
    obtain ⟨he', haccepted'⟩ := hsome hlast
    have heq : e' = e :=
      List.inj_on_of_nodup_map h (List.mem_reverse.1 (hmem.2 he')) (List.mem_reverse.1 (hmem.2 he))
        (haccepted'.1.trans haccepted.1.symm)
    exact heq ▸ hlast

/-- **Where each path comes once, the order does not matter.** -/
theorem standing_perm {xs ys : List Item} (h : xs.Perm ys)
    (hnd : ((xs.filterMap Item.entity?).map Entity.path).Nodup) (p : Path) :
    standing xs p = standing ys p := by
  have hnd' : ((ys.filterMap Item.entity?).map Entity.path).Nodup :=
    ((h.filterMap _).map _).nodup_iff.1 hnd
  have hlast : lastAccepted? xs p = lastAccepted? ys p := by
    refine Option.ext fun e => ?_
    rw [lastAccepted?_eq_some_iff p e hnd, lastAccepted?_eq_some_iff p e hnd', h.mem_iff]
  rw [standing, standing, hlast]

end SymbolTable
