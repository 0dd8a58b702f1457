/-
# Asking again

A placeholder keeps a question: the name, and the path of the scope.  When it is upgraded the scope
is looked up again, and if nothing is stored at its path any more the search starts at the Root.

Nothing is found by that which was not looked for before.  Every search ends at the Root, so what
is looked for from the Root is the end of what is looked for from any scope
(`candidates_none_isSuffix`), and a search that has failed has failed from the Root too.  In
another table that holds the scope the question means what it means there, because a search uses
nothing of a scope but its path and its parent.

* `lookup_none_of_lookup`: what is not found in a scope is not found without one;
* `upgrade?_eq_lookup`: a placeholder asks what its scope would ask;
* `resolve_upgrade?`: no query both fails and upgrades, and upgrades are queries.
-/
import SymbolTable.Proofs.Resolution.Equality

namespace SymbolTable
namespace Table

variable {t : Table} {scope : Option Entity} {name : String}

/-! ## 1. The Root is asked last -/

/-- **What is looked for without a scope is looked for at the end of every search.** -/
theorem candidates_none_isSuffix (t : Table) (scope : Option Entity) (name : String) :
    t.candidates none name <:+ t.candidates scope name := by
  unfold candidates
  cases after? "::" name with
  | some rest => exact List.suffix_rfl
  | none =>
    have hroot : t.scopes (t.startOf none) = [.root] := t.scopes_root t.path_root
    rw [hroot]
    simp only [scopes, List.flatMap_append]
    rw [List.append_assoc]
    exact List.suffix_append _ _

/-- What is not found in a scope is not found from the Root. -/
theorem lookup_none_of_lookup (h : t.lookup scope name = none) : t.lookup none name = none := by
  rw [lookup_eq_firstStored, firstStored_eq_none_iff] at h ⊢
  intro p hp
  exact h p ((t.candidates_none_isSuffix scope name).subset hp)

/-! ## 2. The scope is looked up again -/

/-- A scope at the empty path is no scope. -/
theorem lookup_of_root (h : ∀ e ∈ scope, e.path = .root) :
    t.lookup scope name = t.lookup none name := by
  have hstart : t.startOf scope = t.startOf none := by
    cases scope with
    | none => rfl
    | some e => simp [startOf, h e rfl]
  simp only [lookup_eq_firstStored, candidates, hstart]

/-- Of a scope nothing counts but what equal entities share. -/
theorem lookup_congr {scope' : Option Entity} (h : SameEntity scope scope') :
    t.lookup scope name = t.lookup scope' name := by
  have halike : t.Alike t := fun p => .refl _
  rw [lookup_eq_firstStored, lookup_eq_firstStored, halike.candidates_eq h]

/-- **A placeholder asks what its scope would ask**, where the table holds that scope at its path, or
where the scope is the Root. -/
theorem upgrade?_eq_lookup
    (h : ∀ e ∈ scope, e.path = .root ∨ SameEntity (t.get? e.path) (some e)) :
    Placeholder.upgrade? ⟨scope.map Entity.path, name⟩ t = t.lookup scope name := by
  unfold Placeholder.upgrade?
  cases scope with
  | none => rfl
  | some e =>
    show t.lookup (t.get? e.path) name = t.lookup (some e) name
    rcases h e rfl with hroot | hsame
    · have hown : t.lookup (some e) name = t.lookup none name :=
        lookup_of_root fun e' he' => by rw [← Option.mem_some.mp he', hroot]
      rw [hown]
      exact lookup_of_root fun e' he' => (path_of_get? he').trans hroot
    · exact lookup_congr hsame

/-! ## 3. Failing and upgrading -/

theorem resolve_eq_unresolved_iff {p : Placeholder} :
    t.resolve scope name true = .unresolved p ↔
      t.lookup scope name = none ∧ p = ⟨scope.map Entity.path, name⟩ := by
  unfold resolve
  cases t.lookup scope name with
  | none => simp [eq_comm]
  | some e => simp

theorem resolve_unwanted (t : Table) (scope : Option Entity) (name : String) :
    t.resolve scope name false =
      match t.lookup scope name with
      | some e => .found e
      | none => .notFound := by
  unfold resolve
  cases t.lookup scope name <;> rfl

/-- Where a search in a scope fails, its placeholder has nothing to be upgraded to.  The scope is
found again, or else the question goes to the Root. -/
theorem upgrade?_eq_none (hscope : ∀ e ∈ scope, t.get? e.path = some e ∨ ¬ t.contains e.path)
    (h : t.lookup scope name = none) :
    Placeholder.upgrade? ⟨scope.map Entity.path, name⟩ t = none := by
  cases scope with
  | none => exact h
  | some e =>
    rcases hscope e rfl with hstored | hnot
    · rw [upgrade?_eq_lookup fun e' he' => ?_, h]
      obtain rfl := Option.mem_some.mp he'
      exact Or.inr (hstored ▸ .refl _)
    · have hgone : t.get? e.path = none := by simpa [contains] using hnot
      have hupgrade : Placeholder.upgrade? ⟨some e.path, name⟩ t = t.lookup none name := by
        simp [Placeholder.upgrade?, hgone]
      exact hupgrade.trans (lookup_none_of_lookup h)

/-- **No query fails and upgrades on one table, and to upgrade is to query.**  The scope is none, or
stored, or at a path at which nothing is stored.  The placeholder of a query that fails finds nothing
in the same table, and registering it changes nothing.  In any table that holds the scope, it finds
what the query finds there; in any table at all, if the scope is the Root or none. -/
theorem resolve_upgrade? {p : Placeholder}
    (hscope : ∀ e ∈ scope, t.get? e.path = some e ∨ ¬ t.contains e.path)
    (h : t.resolve scope name true = .unresolved p) :
    p.upgrade? t = none ∧ t.register (.placeholder p) = t ∧
      ∀ u : Table, (∀ e ∈ scope, e.path = .root ∨ SameEntity (u.get? e.path) (some e)) →
        u.resolve scope name false =
          match p.upgrade? u with
          | some e => .found e
          | none => .notFound := by
  obtain ⟨hnone, rfl⟩ := resolve_eq_unresolved_iff.mp h
  refine ⟨upgrade?_eq_none hscope hnone, rfl, fun u hu => ?_⟩
  rw [upgrade?_eq_lookup hu, resolve_unwanted]

/-- A class and a module that are each other's parents, and a name that is in neither.  In another
table the module is missing, and the class is there with its properties the other way round; there
the name is found at the Root, by the query and by the placeholder. -/
theorem resolve_upgrade?_cycle :
    let bare := (Entity.atPath ⟨"A::B"⟩ ⟨"class"⟩).withParent (some ⟨"M"⟩)
    let b := (bare.withProperty "line" (.integer 3)).withProperty "file" (.text "b.rb")
    let b' := (bare.withProperty "file" (.text "b.rb")).withProperty "line" (.integer 3)
    let m := (Entity.atPath ⟨"M"⟩ ⟨"module"⟩).withParent (some ⟨"A::B"⟩)
    let x := Entity.atPath ⟨"x"⟩ ⟨"method"⟩
    let t := fresh.insertAll [b, m]
    let u := fresh.insertAll [x, b']
    let p : Placeholder := ⟨some ⟨"A::B"⟩, "x"⟩
    (∀ e ∈ some b, t.get? e.path = some e ∨ ¬ t.contains e.path) ∧
      t.resolve (some b) "x" true = .unresolved p ∧
      (∀ e ∈ some b, e.path = .root ∨ SameEntity (u.get? e.path) (some e)) ∧
      p.upgrade? t = none ∧ t.register (.placeholder p) = t ∧
      p.upgrade? u = some x ∧ u.resolve (some b) "x" false = .found x := by
  intro bare b b' m x t u p
  have hscope : ∀ e ∈ some b, t.get? e.path = some e ∨ ¬ t.contains e.path := by
    intro e he
    rw [← Option.mem_some.mp he]
    decide +kernel
  have hfails : t.resolve (some b) "x" true = .unresolved p := by decide +kernel
  have hstored : u.get? b.path = some b' := by decide +kernel
  have hsame : b'.same b := by decide +kernel
  have hother : ∀ e ∈ some b, e.path = .root ∨ SameEntity (u.get? e.path) (some e) := by
    intro e he
    rw [← Option.mem_some.mp he, hstored]
    exact Or.inr (.some hsame)
  have hfound : p.upgrade? u = some x := by decide +kernel
  obtain ⟨hnone, hregister, hquery⟩ := resolve_upgrade? hscope hfails
  have hquery := hquery u hother
  rw [hfound] at hquery
  exact ⟨hscope, hfails, hother, hnone, hregister, hfound, hquery⟩

/-- A scope that is neither stored nor missing: the table holds another entity at its path, and that
one leads to what the scope does not lead to. -/
example :
    let a := Entity.atPath ⟨"A"⟩ ⟨"class"⟩
    let t := fresh.insertAll [a.withParent (some ⟨"M"⟩), .atPath ⟨"M"⟩ ⟨"module"⟩,
      .atPath ⟨"M::x"⟩ ⟨"method"⟩]
    t.resolve (some a) "x" true = .unresolved ⟨some ⟨"A"⟩, "x"⟩ ∧
      (Placeholder.upgrade? ⟨some ⟨"A"⟩, "x"⟩ t).isSome := by
  decide +kernel

end Table
end SymbolTable
