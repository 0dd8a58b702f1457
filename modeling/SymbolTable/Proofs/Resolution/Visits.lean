/-
# The scopes that a search looks into, one by one

A search has looked into some scopes when it ends, and has found something or not.  `visits` are the
scopes: they end with the one in which the name is found (`searchFrom_eq_visits`), and where nothing
is found they are all of them (`visits_eq_scopes`).

* `visits_eq_upTo`: a search looks into the scopes of the walk up to the first match;
* `visits_eq_scopes`: a name that matches nowhere is looked for in all of them;
* `nodup_scopes`: no scope is among them twice.
-/
import SymbolTable.Proofs.Resolution.Scopes

namespace SymbolTable

/-- The elements up to the first one at which to stop, and that one. -/
def upTo {α : Type} (stop : α → Bool) : List α → List α
  | [] => []
  | x :: rest => if stop x then [x] else x :: upTo stop rest

section UpTo

variable {α : Type} {stop : α → Bool}

theorem upTo_isPrefix (stop : α → Bool) (l : List α) : upTo stop l <+: l := by
  induction l with
  | nil => exact List.prefix_rfl
  | cons x rest ih =>
    rw [upTo]
    split
    · exact List.prefix_append [x] rest
    · exact (List.prefix_cons_inj x).mpr ih

theorem upTo_eq_self {l : List α} (h : ∀ x ∈ l, stop x = false) : upTo stop l = l := by
  induction l with
  | nil => rfl
  | cons x rest ih =>
    have hx : ¬ stop x = true := by simp [h x List.mem_cons_self]
    rw [upTo, if_neg hx, ih fun y hy => h y (List.mem_cons_of_mem x hy)]

/-- The first match in a list is the first match up to there. -/
theorem findSome?_upTo {β : Type} (f : α → Option β) (l : List α) :
    (upTo (fun x => (f x).isSome) l).findSome? f = l.findSome? f := by
  induction l with
  | nil => rfl
  | cons x rest ih =>
    rw [upTo]
    cases h : f x with
    | some y => simp [h]
    | none => simp [h, ih]

end UpTo

theorem Search.scopes_through (look : Path → Option Entity) (scopes : List Path) :
    (through look scopes).scopes = upTo (fun p => (look p).isSome) scopes := by
  induction scopes with
  | nil => rfl
  | cons p rest ih =>
    rw [through, upTo]
    cases look p with
    | some e => rfl
    | none => exact congrArg _ ih

namespace Table

variable (t : Table)

/-! ## 1. Where a search looks -/

/-- The scopes that a search from `start` looks into. -/
def visits (start : Entity) (name : String) : List Path := (t.search start name).scopes

/-- The scopes that are looked into for what `name` means in `scope`.  An absolute name is not
looked for in scopes. -/
def visited (scope : Option Entity) (name : String) : List Path :=
  match Name.absolute? name with
  | some _ => []
  | none => t.visits (scope.getD t.root) (Name.bare name)

variable {start : Entity} {name : String}

/-- **A search looks into the scopes up to the first one in which the name is found.** -/
theorem visits_eq_upTo (start : Entity) (name : String) :
    t.visits start name = upTo (fun p => (t.memberOf? p name).isSome) (t.scopes start) := by
  rw [visits, search_eq_through, Search.scopes_through]

/-- **A search finds the first match in the scopes that it looks into.** -/
theorem searchFrom_eq_visits (start : Entity) (name : String) :
    t.searchFrom start name = (t.visits start name).findSome? fun p => t.memberOf? p name := by
  rw [searchFrom_eq_scopes, visits_eq_upTo, findSome?_upTo]

/-! ## 2. How far a search goes -/

theorem visits_isPrefix (start : Entity) (name : String) :
    t.visits start name <+: t.scopes start := by
  rw [visits_eq_upTo]
  exact upTo_isPrefix _ _

/-- **A name that matches nowhere is looked for in all scopes**, in their order. -/
theorem visits_eq_scopes (hnone : ∀ p ∈ t.scopes start, t.memberOf? p name = none) :
    t.visits start name = t.scopes start := by
  rw [visits_eq_upTo]
  refine upTo_eq_self fun p hp => ?_
  rw [hnone p hp]
  rfl

theorem visits_of_none (h : t.searchFrom start name = none) :
    t.visits start name = t.scopes start := by
  rw [searchFrom_eq_scopes, List.findSome?_eq_none_iff] at h
  exact t.visits_eq_scopes h

/-- Each scope is looked into once, and the Root comes last. -/
theorem nodup_scopes (start : Entity) : (t.scopes start).Nodup := by
  refine List.nodup_append.2 ⟨t.nodup_outward fun _ hm => t.not_turns hm, by simp, ?_⟩
  intro p hp q hq hpq
  obtain ⟨n, hn, rfl⟩ := List.mem_map.1 hp
  rw [List.mem_singleton.1 hq] at hpq
  exact t.not_turns (List.mem_range.1 hn) (Or.inl hpq)

end Table
end SymbolTable
