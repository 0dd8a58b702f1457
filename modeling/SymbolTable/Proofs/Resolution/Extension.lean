/-
# Names in a table that has grown

An entity at a new path does two things to a search.  It is another candidate, and it can be a
scope that was missing: where a parent led nowhere, the walk turned to the Root, and now it goes on,
perhaps through a cycle.  But it comes to the Root all the same, and what it has searched before is
what it searched before.  So what a name could mean it can still mean, and a name that means
something never stops meaning anything.

`t.PartOf u` is all that the first half needs: `u` holds what `t` holds, and perhaps more.

* `PartOf.outward_eq`, `PartOf.scopes_subset`: the new walk begins with the old one, up to its turn;
* `outward_insert`: where nothing has the new path for its parent, the walks are the same;
* `firstStored_insert_iff`: when the new entity is what is found;
* `resolve_register_new`: what an entity at a new path does to a name.
-/
import SymbolTable.Proofs.Resolution.Candidates
import SymbolTable.Proofs.Resolution.Guard

namespace SymbolTable
namespace Table

/-! ## 1. Tables that hold more -/

/-- What is found in `t` is found in `u`. -/
def PartOf (t u : Table) : Prop := ∀ p e, t.get? p = some e → u.get? p = some e

variable {t u : Table} {start : Entity}

namespace PartOf

theorem root_eq (h : t.PartOf u) (ht : t.WellFormed) : u.root = t.root := by
  have hroot := h _ _ ht.get?_root_eq
  rw [Table.root, hroot, Option.getD_some]

/-- Before the turn a search has only gone where `t` holds something, so it goes there in `u`. -/
theorem outward_eq (h : t.PartOf u) {n : Nat} (hn : n < t.turn start) :
    u.outward start n = t.outward start n := by
  induction n with
  | zero => rfl
  | succ n ih =>
    have hnext : t.outward start (n + 1) = t.enclosing (t.outward start n) := rfl
    have hroot : (t.outward start (n + 1)).path ≠ .root := fun hroot =>
      t.not_turns hn (Or.inl hroot)
    show u.enclosing (u.outward start n) = _
    rw [ih (Nat.lt_of_succ_lt hn)]
    rw [hnext] at hroot ⊢
    unfold enclosing at hroot ⊢
    cases hb : (t.outward start n).parent.bind t.get? with
    | none =>
      rw [hb] at hroot
      exact absurd t.path_root hroot
    | some outer =>
      obtain ⟨p, hp, hstored⟩ := Option.bind_eq_some_iff.mp hb
      rw [hp, Option.bind_some, h p outer hstored]
      rfl

theorem turn_le (h : t.PartOf u) : t.turn start ≤ u.turn start := by
  refine (Nat.le_find_iff _ _).mpr fun m hm hturns => ?_
  refine t.not_turns hm ?_
  rcases hturns with hroot | ⟨k, hk, heq⟩
  · exact Or.inl (h.outward_eq hm ▸ hroot)
  · rw [h.outward_eq hm, h.outward_eq (Nat.lt_trans hk hm)] at heq
    exact Or.inr ⟨k, hk, heq⟩

/-- **Scopes are not lost.** -/
theorem scopes_subset (h : t.PartOf u) (start : Entity) : t.scopes start ⊆ u.scopes start := by
  intro p hp
  rw [scopes_eq_trail] at hp ⊢
  rcases List.mem_append.mp hp with hp | hp
  · obtain ⟨n, hn, rfl⟩ := mem_trail.mp hp
    have hn' : n < u.turn start := Nat.lt_of_lt_of_le hn h.turn_le
    exact List.mem_append_left _ (mem_trail.mpr ⟨n, hn', by rw [h.outward_eq hn]⟩)
  · exact List.mem_append_right _ hp

theorem startOf_eq (h : t.PartOf u) (ht : t.WellFormed) (scope : Option Entity) :
    u.startOf scope = t.startOf scope := by
  unfold startOf
  rw [h.root_eq ht]

theorem candidates_subset (h : t.PartOf u) (ht : t.WellFormed) (scope : Option Entity)
    (name : String) : t.candidates scope name ⊆ u.candidates scope name := by
  unfold candidates
  rw [h.startOf_eq ht]
  split
  · exact List.Subset.refl _
  · refine List.append_subset.mpr ⟨?_, List.subset_append_right _ _⟩
    refine List.subset_append_of_subset_left _ fun p hp => ?_
    obtain ⟨q, hq, hpq⟩ := List.mem_flatMap.mp hp
    exact List.mem_flatMap.mpr ⟨q, h.scopes_subset _ hq, hpq⟩

/-- **What means something keeps meaning something.** -/
theorem isSome_lookup (h : t.PartOf u) (ht : t.WellFormed) {scope : Option Entity} {name : String}
    (hfound : (t.lookup scope name).isSome) : (u.lookup scope name).isSome := by
  rw [lookup_eq_firstStored, firstStored, List.findSome?_isSome_iff] at hfound ⊢
  obtain ⟨p, hp, hstored⟩ := hfound
  obtain ⟨e, he⟩ := Option.isSome_iff_exists.mp hstored
  exact ⟨p, h.candidates_subset ht scope name hp, by rw [h p e he]; rfl⟩

theorem resolve_found (h : t.PartOf u) (ht : t.WellFormed) {scope : Option Entity} {name : String}
    {wanted : Bool} {e : Entity} (hfound : t.resolve scope name wanted = .found e) :
    ∃ e', u.resolve scope name wanted = .found e' := by
  have hold : (t.lookup scope name).isSome :=
    Option.isSome_iff_exists.mpr ⟨e, resolve_eq_found_iff.mp hfound⟩
  obtain ⟨e', he'⟩ := Option.isSome_iff_exists.mp (h.isSome_lookup ht hold)
  exact ⟨e', resolve_eq_found_iff.mpr he'⟩

end PartOf

/-! ## 2. An entity at a new path -/

variable {n : Entity}

/-- The Root's path is taken, so an entity at a new path is accepted. -/
theorem WellFormed.get?_insert_new (ht : t.WellFormed) (hn : ¬ t.contains n.path) (p : Path) :
    (t.insert n).get? p = if n.path = p then some n else t.get? p := by
  have hroot : n.path ≠ .root := by
    intro hroot
    rw [hroot, contains, ht.get?_root_eq] at hn
    exact hn rfl
  have haccepts : accepts n := by simp [accepts, Entity.isRoot, hroot]
  simp only [get?_insert, haccepts, true_and]

theorem WellFormed.partOf_insert (ht : t.WellFormed) (hn : ¬ t.contains n.path) :
    t.PartOf (t.insert n) := by
  intro p e he
  have hne : n.path ≠ p := by
    rintro rfl
    rw [contains, he] at hn
    exact hn rfl
  rw [ht.get?_insert_new hn, if_neg hne, he]

theorem enclosing_insert (ht : t.WellFormed) (hn : ¬ t.contains n.path) {scope : Entity}
    (hscope : scope.parent ≠ some n.path) : (t.insert n).enclosing scope = t.enclosing scope := by
  unfold enclosing
  rw [(ht.partOf_insert hn).root_eq ht]
  cases hp : scope.parent with
  | none => rfl
  | some p =>
    have hne : n.path ≠ p := fun heq => hscope (heq ▸ hp)
    rw [Option.bind_some, Option.bind_some, ht.get?_insert_new hn, if_neg hne]

/-- **Where nothing has the new path for its parent, the walks are the same.** -/
theorem outward_insert (ht : t.WellFormed) (hn : ¬ t.contains n.path)
    (hold : ∀ e ∈ t.entities, e.parent ≠ some n.path) (hstart : start.parent ≠ some n.path)
    (k : Nat) : (t.insert n).outward start k = t.outward start k := by
  induction k with
  | zero => rfl
  | succ k ih =>
    have hparent : (t.outward start k).parent ≠ some n.path := by
      cases k with
      | zero => exact hstart
      | succ k => exact hold _ (List.mem_of_find?_eq_some (ht.get?_enclosing _))
    show (t.insert n).enclosing ((t.insert n).outward start k) = t.enclosing (t.outward start k)
    rw [ih, enclosing_insert ht hn hparent]

theorem candidates_insert (ht : t.WellFormed) (hn : ¬ t.contains n.path)
    (hold : ∀ e ∈ t.entities, e.parent ≠ some n.path) {scope : Option Entity}
    (hscope : ∀ e ∈ scope, e.parent ≠ some n.path) (name : String) :
    (t.insert n).candidates scope name = t.candidates scope name := by
  have hroot : t.root.parent ≠ some n.path := hold _ (List.mem_of_find?_eq_some ht.get?_root_eq)
  have hstart : (t.startOf scope).parent ≠ some n.path := by
    cases scope with
    | none => exact hroot
    | some e =>
      unfold startOf
      dsimp only
      split
      · exact hroot
      · exact hscope e rfl
  have hscopes : (t.insert n).scopes (t.startOf scope) = t.scopes (t.startOf scope) :=
    scopes_congr fun k => by rw [outward_insert ht hn hold hstart]
  unfold candidates
  rw [(ht.partOf_insert hn).startOf_eq ht, hscopes]

/-! ## 3. What is found first -/

theorem firstStored_insert (ht : t.WellFormed) (hn : ¬ t.contains n.path) (ps : List Path) :
    (t.insert n).firstStored ps = t.firstStored ps ∨ (t.insert n).firstStored ps = some n := by
  induction ps with
  | nil => exact Or.inl rfl
  | cons p ps ih =>
    rw [firstStored_cons, firstStored_cons, ht.get?_insert_new hn]
    by_cases hp : n.path = p
    · rw [if_pos hp]
      exact Or.inr rfl
    · rw [if_neg hp]
      cases t.get? p with
      | some e => exact Or.inl rfl
      | none => exact ih

/-- **The new entity is what is found, where its path comes before all that are stored.** -/
theorem firstStored_insert_iff (ht : t.WellFormed) (hn : ¬ t.contains n.path) (ps : List Path) :
    (t.insert n).firstStored ps = some n ↔
      ∃ before after, ps = before ++ n.path :: after ∧ ∀ q ∈ before, ¬ t.contains q := by
  have hpart := ht.partOf_insert hn
  constructor
  · intro h
    obtain ⟨before, p, after, rfl, hp, hbefore⟩ := List.findSome?_eq_some_iff.mp h
    refine ⟨before, after, by rw [path_of_get? hp], fun q hq hstored => ?_⟩
    obtain ⟨e, he⟩ := Option.isSome_iff_exists.mp hstored
    have hnone := hbefore q hq
    rw [hpart q e he] at hnone
    cases hnone
  · rintro ⟨before, after, rfl, hbefore⟩
    have hown : (t.insert n).get? n.path = some n := by
      rw [ht.get?_insert_new hn, if_pos rfl]
    have hold : t.firstStored before = none := firstStored_eq_none_iff.mpr hbefore
    -- the path may come among the earlier ones too, and then it is found there
    rw [firstStored_append]
    rcases firstStored_insert ht hn before with h | h
    · rw [h, hold, Option.none_or, firstStored_cons, hown, Option.some_or]
    · rw [h, Option.some_or]

/-! ## 4. What a name means then -/

/-- **What an entity at a new path does to a name.**  A name that means something goes on to mean
something, whatever scopes the new entity opens.  And where it is nobody's parent, names mean what
they meant, or the new entity: that one if its path is a candidate before all that are stored. -/
theorem resolve_register_new (ht : t.WellFormed) (hn : ¬ t.contains n.path) (scope : Option Entity)
    (name : String) (wanted : Bool) :
    (∀ e, t.resolve scope name wanted = .found e →
      ∃ e', (t.register (.entity n)).resolve scope name wanted = .found e') ∧
    ((∀ e ∈ scope, e.parent ≠ some n.path) → (∀ e ∈ t.entities, e.parent ≠ some n.path) →
      ((t.register (.entity n)).resolve scope name wanted = t.resolve scope name wanted ∨
        (t.register (.entity n)).resolve scope name wanted = .found n) ∧
      ((t.register (.entity n)).resolve scope name wanted = .found n ↔
        ∃ before after, t.candidates scope name = before ++ n.path :: after ∧
          ∀ q ∈ before, ¬ t.contains q)) := by
  refine ⟨fun e hfound => (ht.partOf_insert hn).resolve_found ht hfound, fun hscope hold => ?_⟩
  have hregister : t.register (.entity n) = t.insert n := rfl
  rw [← firstStored_insert_iff ht hn, hregister]
  rw [resolve, resolve, lookup_eq_firstStored, lookup_eq_firstStored,
    candidates_insert ht hn hold hscope]
  constructor
  · rcases firstStored_insert ht hn (t.candidates scope name) with h | h
    · rw [h]
      exact Or.inl rfl
    · rw [h]
      exact Or.inr rfl
  · cases h : (t.insert n).firstStored (t.candidates scope name) with
    | some e => simp
    | none => cases wanted <;> simp

/-- A class whose module is missing, and a name that it finds at the Root.  The module comes, and
lies in the class: its parent chain is a cycle, and the name is found as before.  Then a method of
the class comes instead: it is nobody's parent, and the name means the method. -/
theorem resolve_register_new_missing :
    let b := (Entity.atPath ⟨"A::B"⟩ ⟨"class"⟩).withParent (some ⟨"M"⟩)
    let x := Entity.atPath ⟨"x"⟩ ⟨"method"⟩
    let m := (Entity.atPath ⟨"M"⟩ ⟨"module"⟩).withParent (some ⟨"A::B"⟩)
    let f := Entity.atPath ⟨"A::B#x"⟩ ⟨"method"⟩
    let t := fresh.insertAll [b, x]
    t.WellFormed ∧
      (¬ t.contains m.path ∧ t.resolve (some b) "x" true = .found x ∧
        ∃ e', (t.register (.entity m)).resolve (some b) "x" true = .found e') ∧
      (¬ t.contains f.path ∧ (∀ e ∈ some b, e.parent ≠ some f.path) ∧
        (∀ e ∈ t.entities, e.parent ≠ some f.path) ∧
        (t.register (.entity f)).resolve (some b) "x" true = .found f ∧
        ∃ before after, t.candidates (some b) "x" = before ++ ⟨"A::B#x"⟩ :: after ∧
          ∀ q ∈ before, ¬ t.contains q) := by
  intro b x m f t
  have ht : t.WellFormed := insertAll_keeps (fun _ e _ hu => hu.insert e) wellFormed_fresh
  have hm : ¬ t.contains m.path := by decide +kernel
  have hf : ¬ t.contains f.path := by decide +kernel
  have hx : t.resolve (some b) "x" true = .found x := by decide +kernel
  have hscope : ∀ e ∈ some b, e.parent ≠ some f.path := by
    intro e he
    rw [← Option.mem_some.mp he]
    decide +kernel
  have hold : ∀ e ∈ t.entities, e.parent ≠ some f.path := by decide +kernel
  have hfound : (t.register (.entity f)).resolve (some b) "x" true = .found f := by decide +kernel
  obtain ⟨hkept, -⟩ := resolve_register_new ht hm (some b) "x" true
  obtain ⟨-, hnew⟩ := resolve_register_new ht hf (some b) "x" true
  exact ⟨ht, ⟨hm, hx, hkept x hx⟩, hf, hscope, hold, hfound, (hnew hscope hold).2.mp hfound⟩

end Table
end SymbolTable
