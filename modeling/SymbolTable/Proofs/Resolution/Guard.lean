/-
# The guard against cycles

A search remembers where it has been and does not go there again.  Without that it would stop at
the Root only, and for parents that form a cycle it would never stop.  The guard costs nothing: a
path stands for one entity, so where a path comes again, everything that follows has been there
before.

That a path stands for one entity has to be said of the scope in which the search starts, which
need not be stored: the table must not hold another entity at its path.

`Reaches` and `Walk` are the walk without the guard, which may be endless: the places that it comes
to, and what it finds.

* `outward_eq_of_path_eq`: where a path comes again, the entity does;
* `Reaches.new_or_seen`: a place without the guard is one with it, or its path has been searched;
* `findSome?_scopes_of_walk`: what the walk without the guard finds, the search finds;
* `guarded`: all that the guard does and does not do.
-/
import SymbolTable.Proofs.Resolution.Visits
import SymbolTable.Proofs.Table.Runs

namespace SymbolTable

/-- Where no element comes twice, there is nothing to erase. -/
theorem eraseDups_of_nodup {l : List Path} (h : l.Nodup) : l.eraseDups = l := by
  induction l with
  | nil => exact List.eraseDups_nil
  | cons p rest ih =>
    obtain ⟨hp, hrest⟩ := List.nodup_cons.mp h
    have hself : rest.filter (fun q => !q == p) = rest := by
      refine List.filter_eq_self.mpr fun q hq => ?_
      have hne : q ≠ p := fun heq => hp (heq ▸ hq)
      simp [hne]
    rw [List.eraseDups_cons, hself, ih hrest]

namespace Table

variable {t : Table} {start : Entity}

/-! ## 1. The walk without the guard -/

/-- The walk that only the Root stops comes to place `n`. -/
def Reaches (t : Table) (start : Entity) (n : Nat) : Prop :=
  ∀ m < n, (t.outward start m).path ≠ .root

/-- What the walk that only the Root stops finds: a match, or nothing when it has come to the
Root.  Where it goes on for ever it finds neither. -/
inductive Walk (t : Table) (name : String) : Entity → Option Entity → Prop
  | found {scope e : Entity} (h : t.memberOf? scope.path name = some e) : Walk t name scope (some e)
  | ended {scope : Entity} (h : t.memberOf? scope.path name = none) (hroot : scope.path = .root) :
      Walk t name scope none
  | further {scope : Entity} {answer : Option Entity} (h : t.memberOf? scope.path name = none)
      (hroot : scope.path ≠ .root) (hnext : Walk t name (t.enclosing scope) answer) :
      Walk t name scope answer

/-- The paths of the places before `n`. -/
def trail (t : Table) (start : Entity) (n : Nat) : List Path :=
  (List.range n).map fun m => (t.outward start m).path

theorem Reaches.mono {m n : Nat} (h : t.Reaches start n) (hmn : m ≤ n) : t.Reaches start m :=
  fun k hk => h k (Nat.lt_of_lt_of_le hk hmn)

theorem mem_trail {p : Path} {n : Nat} :
    p ∈ t.trail start n ↔ ∃ m < n, (t.outward start m).path = p := by
  simp [trail]

theorem trail_succ (n : Nat) :
    t.trail start (n + 1) = t.trail start n ++ [(t.outward start n).path] := by
  rw [trail, List.range_succ, List.map_append]
  rfl

theorem trail_isPrefix (t : Table) (start : Entity) {m n : Nat} (h : m ≤ n) :
    t.trail start m <+: t.trail start n := by
  induction n with
  | zero =>
    obtain rfl := Nat.le_zero.mp h
    exact List.prefix_rfl
  | succ n ih =>
    rcases Nat.lt_or_ge n m with hlt | hge
    · obtain rfl := Nat.le_antisymm h hlt
      exact List.prefix_rfl
    · rw [trail_succ]
      exact (ih hge).trans (List.prefix_append _ _)

theorem scopes_eq_trail : t.scopes start = t.trail start (t.turn start) ++ [.root] := rfl

/-! ## 2. Places whose path comes again -/

/-- What encloses a scope is what the table holds at its path. -/
theorem WellFormed.get?_enclosing (ht : t.WellFormed) (scope : Entity) :
    t.get? (t.enclosing scope).path = some (t.enclosing scope) := by
  unfold Table.enclosing
  cases hb : scope.parent.bind t.get? with
  | none => rw [Option.getD_none, path_root, ht.get?_root_eq]
  | some outer =>
    obtain ⟨p, -, hp⟩ := Option.bind_eq_some_iff.mp hb
    rw [Option.getD_some, path_of_get? hp, hp]

/-- **Where a path comes again, the entity does.** -/
theorem outward_eq_of_path_eq (ht : t.WellFormed)
    (hstart : ∀ e, t.get? start.path = some e → e = start) {m n : Nat} (hmn : m < n)
    (h : (t.outward start m).path = (t.outward start n).path) :
    t.outward start m = t.outward start n := by
  obtain ⟨k, rfl⟩ := Nat.exists_eq_add_one_of_ne_zero (Nat.ne_zero_of_lt hmn)
  have hlater : t.get? (t.outward start (k + 1)).path = some (t.outward start (k + 1)) :=
    ht.get?_enclosing _
  rw [← h] at hlater
  cases m with
  | zero => exact (hstart _ hlater).symm
  | succ m =>
    have hearlier : t.get? (t.outward start (m + 1)).path = some (t.outward start (m + 1)) :=
      ht.get?_enclosing _
    exact Option.some.inj (hearlier.symm.trans hlater)

/-- **Without the guard the walk comes to no other paths.**  A place is searched, or it is the
Root at the turn, or its path has been searched.  Once a path has come again, place `n` holds what a
place before it holds, and the induction goes down to that one. -/
theorem Reaches.new_or_seen (ht : t.WellFormed)
    (hstart : ∀ e, t.get? start.path = some e → e = start) {n : Nat} (h : t.Reaches start n) :
    (n < t.turn start ∨ n = t.turn start ∧ (t.outward start n).path = .root) ∨
      (t.turn start ≤ n ∧ (t.outward start (t.turn start)).path ≠ .root ∧
        (t.outward start n).path ∈ t.trail start (t.turn start)) := by
  induction n using Nat.strongRecOn with
  | ind n ih =>
    rcases Nat.lt_or_ge n (t.turn start) with hlt | hge
    · exact Or.inl (Or.inl hlt)
    · rcases @turns_turn t start with hroot | ⟨m, hm, heq⟩
      · have hn : n = t.turn start := by
          by_contra hne
          exact h _ (by omega) hroot
        exact Or.inl (Or.inr ⟨hn, hn ▸ hroot⟩)
      · have hturn : (t.outward start (t.turn start)).path ≠ .root := fun hroot =>
          t.not_turns hm (Or.inl (heq.trans hroot))
        have hback : t.outward start n = t.outward start (m + (n - t.turn start)) := by
          rw [← outward_outward, outward_eq_of_path_eq ht hstart hm heq, outward_outward,
            Nat.add_sub_cancel' hge]
        refine Or.inr ⟨hge, hturn, ?_⟩
        rw [hback]
        rcases ih (m + (n - t.turn start)) (by omega) (h.mono (by omega)) with
          (hlt | ⟨hk, hroot⟩) | ⟨-, -, hseen⟩
        · exact mem_trail.mpr ⟨_, hlt, rfl⟩
        · exact absurd (hk ▸ hroot) hturn
        · exact hseen

/-! ## 3. Where the search looks -/

theorem nodup_trail {n : Nat} (h : n ≤ t.turn start) : (t.trail start n).Nodup :=
  t.nodup_outward fun _ hm => t.not_turns (Nat.lt_of_lt_of_le hm h)

theorem root_notMem_trail : .root ∉ t.trail start (t.turn start) := by
  intro hmem
  obtain ⟨n, hn, hroot⟩ := mem_trail.mp hmem
  exact t.not_turns hn (Or.inl hroot)

theorem trail_succ_isPrefix {n : Nat}
    (h : n < t.turn start ∨ n = t.turn start ∧ (t.outward start n).path = .root) :
    t.trail start (n + 1) <+: t.scopes start := by
  rcases h with hlt | ⟨hturn, hroot⟩
  · exact (t.trail_isPrefix start hlt).trans (List.prefix_append _ _)
  · have hall : t.trail start (n + 1) = t.scopes start := by
      rw [trail_succ, hroot, hturn, scopes_eq_trail]
    exact hall ▸ List.prefix_rfl

/-- **The scopes begin with the paths of the walk, each where it first comes.** -/
theorem eraseDups_trail_isPrefix (ht : t.WellFormed)
    (hstart : ∀ e, t.get? start.path = some e → e = start) {n : Nat} (h : t.Reaches start n) :
    (t.trail start (n + 1)).eraseDups <+: t.scopes start := by
  rcases h.new_or_seen ht hstart with hnew | ⟨hge, hturn, -⟩
  · have hpart := trail_succ_isPrefix hnew
    rw [eraseDups_of_nodup ((t.nodup_scopes start).sublist hpart.sublist)]
    exact hpart
  · -- the walk goes round: after the turn nothing comes that is not in the trail already
    obtain ⟨later, hlater⟩ := t.trail_isPrefix start (Nat.le_succ_of_le hge)
    have hseen : later.removeAll (t.trail start (t.turn start)) = [] := by
      refine List.filter_eq_nil_iff.mpr fun p hp => ?_
      have hmem : p ∈ t.trail start (n + 1) := hlater ▸ List.mem_append_right _ hp
      obtain ⟨k, hk, rfl⟩ := mem_trail.mp hmem
      rcases (h.mono (Nat.le_of_lt_succ hk)).new_or_seen ht hstart with
        (hlt | ⟨hkturn, hroot⟩) | ⟨-, -, hk⟩
      · simp [mem_trail.mpr ⟨k, hlt, rfl⟩]
      · exact absurd (hkturn ▸ hroot) hturn
      · simp [hk]
    rw [← hlater, List.eraseDups_append, eraseDups_of_nodup (nodup_trail (Nat.le_refl _)), hseen,
      List.eraseDups_nil, List.append_nil]
    exact List.prefix_append _ _

/-- Nowhere else does a search look but in places of the walk, and at the Root. -/
theorem mem_scopes {p : Path} (h : p ∈ t.scopes start) :
    p = .root ∨ ∃ n, t.Reaches start n ∧ (t.outward start n).path = p := by
  rcases List.mem_append.mp h with hp | hp
  · obtain ⟨n, hn, rfl⟩ := mem_trail.mp hp
    refine Or.inr ⟨n, fun m hm hroot => ?_, rfl⟩
    exact t.not_turns (Nat.lt_trans hm hn) (Or.inl hroot)
  · exact Or.inl (List.mem_singleton.mp hp)

/-- The scopes besides the Root are the start and entities besides the Root. -/
theorem length_scopes_le (ht : t.WellFormed) (start : Entity) :
    (t.scopes start).length ≤ t.entities.length + 1 := by
  have hbefore : ∀ m < t.turn start, ¬ t.Turns start m := fun _ hm => t.not_turns hm
  have hnd : (Path.root :: t.trail start (t.turn start)).Nodup :=
    List.nodup_cons.mpr ⟨root_notMem_trail, nodup_trail (Nat.le_refl _)⟩
  have hsub : Path.root :: t.trail start (t.turn start) ⊆ start.path :: t.paths :=
    List.cons_subset.mpr
      ⟨List.mem_cons_of_mem _ ht.root_mem_paths, t.outward_subset hbefore⟩
  have hle := (List.subperm_of_subset hnd hsub).length_le
  simp only [List.length_cons, paths, List.length_map] at hle
  rw [scopes_eq_trail, List.length_append, List.length_singleton]
  omega

/-! ## 4. What the search finds -/

/-- **What the walk without the guard finds, the search finds.**  The walk is at place `n` and has
found nothing before. -/
theorem findSome?_scopes_of_walk {name : String} (ht : t.WellFormed)
    (hstart : ∀ e, t.get? start.path = some e → e = start) {scope : Entity} {answer : Option Entity}
    (h : t.Walk name scope answer) :
    ∀ n, t.outward start n = scope → t.Reaches start n →
      (∀ p ∈ t.trail start n, t.memberOf? p name = none) →
        ((t.scopes start).findSome? fun p => t.memberOf? p name) = answer := by
  induction h with
  | @found scope e h =>
    intro n hn hreach hnone
    subst hn
    rcases hreach.new_or_seen ht hstart with hnew | ⟨hge, -, hseen⟩
    · obtain ⟨rest, hrest⟩ := trail_succ_isPrefix hnew
      rw [trail_succ, List.append_assoc] at hrest
      exact List.findSome?_eq_some_iff.mpr ⟨_, _, rest, hrest.symm, h, hnone⟩
    · have hno := hnone _ ((t.trail_isPrefix start hge).subset hseen)
      rw [hno] at h
      cases h
  | @ended scope h hroot =>
    intro n hn hreach hnone
    subst hn
    have hturn : t.turn start ≤ n := by
      by_contra hlt
      exact t.not_turns (Nat.not_le.mp hlt) (Or.inl hroot)
    rw [hroot] at h
    refine List.findSome?_eq_none_iff.mpr fun p hp => ?_
    rcases List.mem_append.mp hp with hp | hp
    · exact hnone p ((t.trail_isPrefix start hturn).subset hp)
    · rw [List.mem_singleton.mp hp, h]
  | @further scope answer h hroot _ ih =>
    intro n hn hreach hnone
    subst hn
    refine ih (n + 1) rfl ?_ ?_
    · intro m hm
      rcases Nat.lt_succ_iff_lt_or_eq.mp hm with hlt | rfl
      · exact hreach m hlt
      · exact hroot
    · intro p hp
      rw [trail_succ] at hp
      rcases List.mem_append.mp hp with hp | hp
      · exact hnone p hp
      · rw [List.mem_singleton.mp hp, h]

/-- What a search does, beside the walk that only the Root stops. -/
structure Guarded (t : Table) (start : Entity) : Prop where
  /-- The search looks into the scopes that are written down, and takes the first match. -/
  looked : ∀ name, t.searchFrom start name =
    (t.visits start name).findSome? fun p => t.memberOf? p name
  /-- Where a name is not found, every path that the walk comes to is searched, in the order in which
  they first come. -/
  reached : ∀ name, t.searchFrom start name = none → ∀ n, t.Reaches start n →
    (t.trail start (n + 1)).eraseDups <+: t.visits start name
  /-- Nothing else is searched but the Root. -/
  only : ∀ name, ∀ p ∈ t.visits start name,
    p = .root ∨ ∃ n, t.Reaches start n ∧ (t.outward start n).path = p
  /-- No path is searched twice. -/
  nodup : ∀ name, (t.visits start name).Nodup
  /-- No more scopes are searched than there are entities, and one. -/
  length_le : ∀ name, (t.visits start name).length ≤ t.entities.length + 1
  /-- Where a name is not found, the Root is searched, after all the others. -/
  root_last : ∀ name, t.searchFrom start name = none →
    ∃ others, t.visits start name = others ++ [.root] ∧ .root ∉ others
  /-- What the walk finds, the search finds; and it finds nothing where the walk ends with
  nothing. -/
  answer : ∀ name answer, t.Walk name start answer → t.searchFrom start name = answer
  /-- So a relative name means what the walk finds, and otherwise what it means globally.  Without
  a scope the walk starts at the Root. -/
  lookup : ∀ scope name answer, scope.getD t.root = start → Name.absolute? name = none →
    t.Walk (Name.bare name) start answer →
      t.lookup scope name = answer.or (t.global? (Name.bare name))

/-- **The guard loses nothing and ends every search**, for a scope that is stored and for one at
whose path nothing is stored. -/
theorem guarded (ht : t.WellFormed)
    (hstart : t.get? start.path = some start ∨ ¬ t.contains start.path) : t.Guarded start := by
  have hown : ∀ e, t.get? start.path = some e → e = start := by
    intro e he
    rcases hstart with hstored | hnot
    · exact Option.some.inj (he.symm.trans hstored)
    · rw [contains, he] at hnot
      exact absurd rfl hnot
  have hanswer : ∀ name answer, t.Walk name start answer → t.searchFrom start name = answer := by
    intro name answer hwalk
    rw [searchFrom_eq_scopes]
    exact findSome?_scopes_of_walk ht hown hwalk 0 rfl (fun m hm => absurd hm (Nat.not_lt_zero m))
      fun p hp => absurd hp List.not_mem_nil
  refine ⟨t.searchFrom_eq_visits start, ?_, ?_, ?_, ?_, ?_, hanswer, ?_⟩
  · intro name hnone n hreach
    rw [t.visits_of_none hnone]
    exact eraseDups_trail_isPrefix ht hown hreach
  · intro name p hp
    exact mem_scopes ((t.visits_isPrefix start name).subset hp)
  · intro name
    exact (t.nodup_scopes start).sublist (t.visits_isPrefix start name).sublist
  · intro name
    exact Nat.le_trans (t.visits_isPrefix start name).length_le (length_scopes_le ht start)
  · intro name hnone
    exact ⟨_, t.visits_of_none hnone, root_notMem_trail⟩
  · intro scope name answer hscope hrelative hwalk
    rw [Table.lookup, hrelative, hscope]
    exact congrArg (Option.or · _) (hanswer _ _ hwalk)

/-- Two modules that are each other's parents, and a Root that lies in one of them; seen from a
class in one of them that is not stored, and from the other one, which is. -/
theorem guarded_cycle :
    let x := (Entity.atPath ⟨"X"⟩ ⟨"module"⟩).withParent (some ⟨"Y"⟩)
    let y := (Entity.atPath ⟨"Y"⟩ ⟨"module"⟩).withParent (some ⟨"X"⟩)
    let f := Entity.atPath ⟨"Y#f"⟩ ⟨"method"⟩
    let z := (Entity.atPath ⟨"Z"⟩ ⟨"class"⟩).withParent (some ⟨"X"⟩)
    let t := fresh.insertAll [x, y, f, Entity.root.withParent (some ⟨"X"⟩)]
    t.WellFormed ∧ ((t.get? z.path = some z ∨ ¬ t.contains z.path) ∧ t.Guarded z) ∧
      ((t.get? y.path = some y ∨ ¬ t.contains y.path) ∧ t.Guarded y) ∧
      (t.searchFrom z "g" = none ∧ t.Reaches z 5 ∧
        (t.trail z 6).eraseDups <+: t.visits z "g" ∧
        t.visits z "g" = [⟨"Z"⟩, ⟨"X"⟩, ⟨"Y"⟩, .root]) ∧
      t.Walk "f" z (some f) ∧ t.searchFrom z "f" = some f ∧ t.lookup (some z) "#f" = some f := by
  intro x y f z t
  have ht : t.WellFormed := by
    refine insertAll_keeps (fun _ e _ hu => hu.insert e) wellFormed_fresh
  have hz : t.get? z.path = some z ∨ ¬ t.contains z.path := Or.inr (by decide +kernel)
  have hy : t.get? y.path = some y ∨ ¬ t.contains y.path := Or.inl (by decide +kernel)
  have hnone : t.searchFrom z "g" = none := by decide +kernel
  have hreach : t.Reaches z 5 := by
    unfold Reaches
    decide +kernel
  have hvisits : t.visits z "g" = [⟨"Z"⟩, ⟨"X"⟩, ⟨"Y"⟩, .root] := by decide +kernel
  have hwalk : t.Walk "f" z (some f) := by
    refine .further (by decide +kernel) (by decide +kernel) ?_
    refine .further (by decide +kernel) (by decide +kernel) ?_
    exact .found (by decide +kernel)
  have hguard := guarded ht hz
  exact ⟨ht, ⟨hz, hguard⟩, ⟨hy, guarded ht hy⟩,
    ⟨hnone, hreach, hguard.reached _ hnone 5 hreach, hvisits⟩, hwalk, hguard.answer _ _ hwalk,
    hguard.lookup (some z) "#f" _ rfl (by decide +kernel) hwalk⟩

end Table
end SymbolTable
