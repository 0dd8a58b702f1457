/-
# The scopes that a search goes through

Going outward from a scope never ends by itself: what encloses the Root is the Root, and parents
may form a cycle.  `outward` is that endless walk, and `turn` is the first place on it that a
search does not go on to, because it is the Root or a path that has already occurred.  From there
a search turns to the Root.  `scopes` lists the paths that are searched: the places before the
turn, and the Root.

Every place after the first is the Root or holds an entity of the table, so the turn comes
(`exists_turns`), and at the latest when every entity has been met (`turn_le`).

* `search_eq_through`: a search goes through `scopes`, in that order, until it finds something;
* `searchFrom_eq_scopes`: what it finds is the first match in them.
-/
import SymbolTable.Resolution
import Mathlib.Data.Nat.Find
import Mathlib.Data.List.Nodup
import Mathlib.Data.List.Perm.Subperm

namespace SymbolTable

/-! ## 1. Searches through a list of scopes -/

theorem findSome?_cons_eq_or {α β : Type} (f : α → Option β) (x : α) (l : List α) :
    (x :: l).findSome? f = (f x).or (l.findSome? f) := by
  cases h : f x with
  | none => simp [h]
  | some y => simp [h]

namespace Search

/-- What has been done when one scope after the other was looked into until something was found. -/
def through (look : Path → Option Entity) : List Path → Search
  | [] => ⟨[], none⟩
  | p :: rest =>
    match look p with
    | some e => ⟨[p], some e⟩
    | none => (through look rest).after p

theorem answer_through (look : Path → Option Entity) (scopes : List Path) :
    (through look scopes).answer = scopes.findSome? look := by
  induction scopes with
  | nil => rfl
  | cons p rest ih =>
    rw [through, findSome?_cons_eq_or]
    cases look p with
    | some e => rfl
    | none => exact ih

end Search

namespace Table

variable (t : Table)

/-! ## 2. The walk outward -/

/-- What encloses a scope: the entity that the table holds at its parent path, or the Root. -/
def enclosing (scope : Entity) : Entity := (scope.parent.bind t.get?).getD t.root

/-- The scopes from `start` outward, as if nothing ever stopped the walk. -/
def outward (start : Entity) : Nat → Entity
  | 0 => start
  | n + 1 => t.enclosing (outward start n)

theorem outward_outward (e : Entity) (m n : Nat) :
    t.outward (t.outward e m) n = t.outward e (m + n) := by
  induction n with
  | zero => rfl
  | succ n ih =>
    show t.enclosing (t.outward (t.outward e m) n) = t.enclosing (t.outward e (m + n))
    rw [ih]

theorem outward_enclosing (e : Entity) (n : Nat) :
    t.outward (t.enclosing e) n = t.outward e (n + 1) := by
  rw [Nat.add_comm]
  exact t.outward_outward e 1 n

/-- What encloses a scope is stored, unless it is the Root. -/
theorem enclosing_mem_paths {scope : Entity} (h : (t.enclosing scope).path ≠ .root) :
    (t.enclosing scope).path ∈ t.paths := by
  unfold enclosing at h ⊢
  cases hb : scope.parent.bind t.get? with
  | none => rw [hb] at h; exact absurd t.path_root h
  | some outer =>
    obtain ⟨p, -, hp⟩ := Option.bind_eq_some_iff.1 hb
    rw [Option.getD_some, path_of_get? hp]
    exact mem_paths_of_get? hp

/-! ## 3. The turn -/

/-- Place `n` of the walk is not searched: it is the Root, or its path has occurred before. -/
def Turns (start : Entity) (n : Nat) : Prop :=
  (t.outward start n).path = .root ∨ ∃ m < n, (t.outward start m).path = (t.outward start n).path

instance (start : Entity) (n : Nat) : Decidable (t.Turns start n) :=
  inferInstanceAs (Decidable (_ ∨ _))

variable {start : Entity}

/-- Before the turn no path occurs twice. -/
theorem nodup_outward {n : Nat} (h : ∀ m < n, ¬ t.Turns start m) :
    ((List.range n).map fun m => (t.outward start m).path).Nodup := by
  refine List.Nodup.map_on ?_ List.nodup_range
  intro i hi j hj hij
  rw [List.mem_range] at hi hj
  rcases Nat.lt_trichotomy i j with hlt | heq | hlt
  · exact absurd (Or.inr ⟨i, hlt, hij⟩) (h j hj)
  · exact heq
  · exact absurd (Or.inr ⟨j, hlt, hij.symm⟩) (h i hi)

/-- The places before the turn are the start and places at which an entity is stored. -/
theorem outward_subset {n : Nat} (h : ∀ m < n, ¬ t.Turns start m) :
    ((List.range n).map fun m => (t.outward start m).path) ⊆ start.path :: t.paths := by
  intro p hp
  obtain ⟨m, hm, rfl⟩ := List.mem_map.1 hp
  cases m with
  | zero => exact List.mem_cons_self
  | succ m =>
    have hroot : (t.outward start (m + 1)).path ≠ .root := fun hr =>
      h (m + 1) (List.mem_range.1 hm) (Or.inl hr)
    exact List.mem_cons_of_mem _ (t.enclosing_mem_paths hroot)

theorem le_of_not_turns {n : Nat} (h : ∀ m < n, ¬ t.Turns start m) :
    n ≤ t.entities.length + 1 := by
  have hle := (List.subperm_of_subset (t.nodup_outward h) (t.outward_subset h)).length_le
  simpa [paths] using hle

theorem exists_turns (start : Entity) : ∃ n, t.Turns start n := by
  by_contra hno
  have hle := t.le_of_not_turns (n := t.entities.length + 2) fun m _ hm => hno ⟨m, hm⟩
  omega

/-- The first place that is not searched. -/
def turn (start : Entity) : Nat := Nat.find (t.exists_turns start)

theorem turns_turn : t.Turns start (t.turn start) := Nat.find_spec (t.exists_turns start)

theorem not_turns {m : Nat} (h : m < t.turn start) : ¬ t.Turns start m :=
  Nat.find_min (t.exists_turns start) h

theorem turn_le : t.turn start ≤ t.entities.length + 1 :=
  t.le_of_not_turns fun _ hm => t.not_turns hm

theorem turn_eq_zero (h : start.path = .root) : t.turn start = 0 := by
  by_contra hne
  exact t.not_turns (Nat.pos_of_ne_zero hne) (Or.inl h)

theorem turn_pos (h : start.path ≠ .root) : 0 < t.turn start := by
  refine Nat.pos_of_ne_zero fun h0 => ?_
  have hturn := @turns_turn t start
  rw [h0] at hturn
  rcases hturn with hroot | ⟨m, hm, -⟩
  · exact h hroot
  · exact absurd hm (Nat.not_lt_zero m)

/-- The paths of the scopes that a search from `start` looks into. -/
def scopes (start : Entity) : List Path :=
  ((List.range (t.turn start)).map fun n => (t.outward start n).path) ++ [.root]

theorem scopes_root (h : start.path = .root) : t.scopes start = [.root] := by
  unfold scopes
  rw [t.turn_eq_zero h]
  rfl

/-- The scopes are the paths of the walk: walks through the same paths have the same scopes. -/
theorem scopes_congr {t u : Table} {e e' : Entity}
    (h : ∀ n, (t.outward e n).path = (u.outward e' n).path) : t.scopes e = u.scopes e' := by
  have hturns : ∀ n, t.Turns e n ↔ u.Turns e' n := by
    intro n
    simp only [Turns, h]
  have hturn : t.turn e = u.turn e' := by
    refine (Nat.find_eq_iff _).mpr ⟨(hturns _).mpr u.turns_turn, fun n hn => ?_⟩
    rw [hturns]
    exact u.not_turns hn
  simp only [scopes, hturn, h]

/-! ## 4. A search follows the walk -/

/-- `unseen` is what a search that stands at place `n` has not visited: neither the Root nor a path
that has occurred up to there can be found in it, and everything else can. -/
def Unseen (start : Entity) (n : Nat) (unseen : List Entity) : Prop :=
  ∀ p, unseen.find? (fun e => e.path = p) =
    if p = .root ∨ ∃ m < n + 1, (t.outward start m).path = p then none else t.get? p

theorem unseen_others (start : Entity) : t.Unseen start 0 (t.others start) := by
  intro p
  have hstart : (∃ m < 0 + 1, (t.outward start m).path = p) ↔ p = start.path := by
    simp [outward, eq_comm]
  simp only [others, find?_without, hstart]
  by_cases h : p = start.path
  · simp [h]
  · simp only [h, if_false, or_false]
    rfl

/-- What a search goes on to is the next place of the walk, and nothing at the turn. -/
theorem find?_unseen {n : Nat} {unseen : List Entity} (h : t.Unseen start n unseen) :
    ((t.outward start n).parent.bind fun p => unseen.find? fun e => e.path = p) =
      if t.Turns start (n + 1) then none else some (t.outward start (n + 1)) := by
  have hnext : t.outward start (n + 1) = t.enclosing (t.outward start n) := rfl
  have hroot : t.outward start (n + 1) = t.root → t.Turns start (n + 1) := fun hr =>
    Or.inl (by rw [hr, path_root])
  cases hp : (t.outward start n).parent with
  | none =>
    rw [Option.bind_none, if_pos (hroot (by rw [hnext, enclosing, hp]; rfl))]
  | some p =>
    rw [Option.bind_some, h p]
    cases hg : t.get? p with
    | none =>
      rw [if_pos (hroot (by rw [hnext, enclosing, hp, Option.bind_some, hg]; rfl)), ite_self]
    | some outer =>
      have houter : t.outward start (n + 1) = outer := by
        rw [hnext, enclosing, hp, Option.bind_some, hg, Option.getD_some]
      simp only [Turns, houter, path_of_get? hg]

theorem unseen_next {n : Nat} {unseen : List Entity} (h : t.Unseen start n unseen) :
    t.Unseen start (n + 1) (without Entity.path (t.outward start (n + 1)).path unseen) := by
  intro p
  rw [find?_without, h p]
  by_cases hp : p = (t.outward start (n + 1)).path
  · rw [if_pos hp, if_pos (Or.inr ⟨n + 1, by omega, hp.symm⟩)]
  · have hiff : (∃ m < n + 1 + 1, (t.outward start m).path = p) ↔
        ∃ m < n + 1, (t.outward start m).path = p := by
      constructor
      · rintro ⟨m, hm, hmp⟩
        have hne : m ≠ n + 1 := fun e => hp (e ▸ hmp.symm)
        exact ⟨m, by omega, hmp⟩
      · rintro ⟨m, hm, hmp⟩
        exact ⟨m, by omega, hmp⟩
    simp only [hp, if_false, hiff]

theorem searchOutward_of_some {name : String} {unseen : List Entity} {scope e : Entity}
    (h : t.memberOf? scope.path name = some e) :
    t.searchOutward name unseen scope = ⟨[scope.path], some e⟩ := by
  rw [searchOutward, h]

/-- Where nothing is found, a search goes on. -/
theorem searchOutward_of_none {name : String} {unseen : List Entity} {scope : Entity}
    (h : t.memberOf? scope.path name = none) :
    t.searchOutward name unseen scope = Search.after scope.path
      (match scope.parent.bind fun p => unseen.find? fun e => e.path = p with
      | some outer => t.searchOutward name (without Entity.path outer.path unseen) outer
      | none => t.searchRoot name) := by
  rw [searchOutward, h]
  dsimp only
  split
  · next hb => rw [hb]
  · next hb => rw [hb]

theorem search_of_root {start : Entity} (h : start.path = .root) (name : String) :
    t.search start name = t.searchRoot name := by
  simp [search, Entity.isRoot, h]

theorem searchRoot_eq_through (name : String) :
    t.searchRoot name = .through (fun p => t.memberOf? p name) [.root] := by
  rw [searchRoot, Search.through]
  cases t.memberOf? .root name with
  | some e => rfl
  | none => rfl

/-- The induction is on the number `k` of places that are left before the turn. -/
theorem searchOutward_eq_through (name : String) (k : Nat) :
    ∀ (n : Nat) (unseen : List Entity), n + k + 1 = t.turn start → t.Unseen start n unseen →
      t.searchOutward name unseen (t.outward start n) = .through (fun p => t.memberOf? p name)
        (((List.range' n (k + 1)).map fun m => (t.outward start m).path) ++ [Path.root]) := by
  induction k with
  | zero =>
    intro n unseen hn hu
    have hturn : t.Turns start (n + 1) := hn ▸ t.turns_turn
    rw [List.range'_succ, List.map_cons, List.cons_append, Search.through]
    cases hmember : t.memberOf? (t.outward start n).path name with
    | some e => exact t.searchOutward_of_some hmember
    | none =>
      rw [t.searchOutward_of_none hmember, t.find?_unseen hu, if_pos hturn]
      exact congrArg _ (t.searchRoot_eq_through name)
  | succ k ih =>
    intro n unseen hn hu
    have hturn : ¬ t.Turns start (n + 1) := t.not_turns (by omega)
    rw [List.range'_succ, List.map_cons, List.cons_append, Search.through]
    cases hmember : t.memberOf? (t.outward start n).path name with
    | some e => exact t.searchOutward_of_some hmember
    | none =>
      rw [t.searchOutward_of_none hmember, t.find?_unseen hu, if_neg hturn]
      exact congrArg _ (ih (n + 1) _ (by omega) (t.unseen_next hu))

/-- **A search goes through the scopes**, in their order. -/
theorem search_eq_through (start : Entity) (name : String) :
    t.search start name = .through (fun p => t.memberOf? p name) (t.scopes start) := by
  unfold scopes
  by_cases hroot : start.path = .root
  · rw [t.search_of_root hroot, t.turn_eq_zero hroot]
    exact t.searchRoot_eq_through name
  · have hpos := t.turn_pos hroot
    have hsearch := t.searchOutward_eq_through name (t.turn start - 1) 0 _ (by omega)
      (t.unseen_others start)
    rw [Nat.sub_add_cancel hpos, ← List.range_eq_range'] at hsearch
    simp only [search, Entity.isRoot, hroot, decide_false, Bool.false_eq_true, if_false]
    exact hsearch

/-- **What a search finds is the first match in the scopes.** -/
theorem searchFrom_eq_scopes (start : Entity) (name : String) :
    t.searchFrom start name = (t.scopes start).findSome? fun p => t.memberOf? p name := by
  rw [searchFrom, search_eq_through, Search.answer_through]

end Table
end SymbolTable
