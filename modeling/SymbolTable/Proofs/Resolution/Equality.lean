/-
# Names in equal tables

A search never looks at the order of the entities.  All that it does with a table is to look paths
up, and of what it finds on its way it only uses the path and the parent.  So in tables in which
the same is found everywhere (`Alike`), walks from equal scopes go through the same paths, names
have the same candidates, and the answers are equal.

* `same_outward`: the walks;
* `Alike.scopes_eq`, `Alike.candidates_eq`: where names are looked for;
* `same_lookup`: what they mean;
* `same_ofItems_iff`: when tables are equal, and that equal tables give equal answers.
-/
import SymbolTable.Proofs.Resolution.Candidates
import SymbolTable.Proofs.Table.Equality

namespace SymbolTable

/-- Equal entities, the same placeholder, or nothing on both sides. -/
def Answer.same : Answer → Answer → Bool
  | .found e, .found e' => e.same e'
  | .unresolved p, .unresolved p' => p = p'
  | .notFound, .notFound => true
  | _, _ => false

namespace SameEntity

variable {a a' b b' : Option Entity}

theorem getD {e e' : Entity} (h : SameEntity a b) (he : e.same e') :
    (a.getD e).same (b.getD e') := by
  cases h with
  | some hsame => exact hsame
  | none => exact he

theorem or (h : SameEntity a b) (h' : SameEntity a' b') : SameEntity (a.or a') (b.or b') := by
  cases h with
  | some hsame => exact .some hsame
  | none => exact h'

end SameEntity

namespace Table

/-- At every path the same is found in both tables. -/
def Alike (t u : Table) : Prop := ∀ p, SameEntity (t.get? p) (u.get? p)

variable {t u : Table} {e e' : Entity}

/-! ## 1. Walks -/

theorem Alike.bind (h : t.Alike u) (o : Option Path) :
    SameEntity (o.bind t.get?) (o.bind u.get?) := by
  cases o with
  | none => exact .none
  | some p => exact h p

theorem Alike.root (h : t.Alike u) : t.root.same u.root :=
  (h .root).getD Entity.root.same_refl

theorem Alike.enclosing (h : t.Alike u) (he : e.same e') :
    (t.enclosing e).same (u.enclosing e') := by
  unfold Table.enclosing
  rw [Entity.parent_eq_of_same he]
  exact (h.bind _).getD h.root

/-- **Walks from equal scopes stay equal.** -/
theorem same_outward (h : t.Alike u) (he : e.same e') (n : Nat) :
    (t.outward e n).same (u.outward e' n) := by
  induction n with
  | zero => exact he
  | succ n ih => exact h.enclosing ih

theorem Alike.path_outward (h : t.Alike u) (he : e.same e') (n : Nat) :
    (t.outward e n).path = (u.outward e' n).path :=
  Entity.path_eq_of_same (same_outward h he n)

theorem Alike.scopes_eq (h : t.Alike u) (he : e.same e') : t.scopes e = u.scopes e' :=
  scopes_congr (h.path_outward he)

/-! ## 2. Answers -/

variable {scope scope' : Option Entity}

theorem Alike.startOf (h : t.Alike u) (hscope : SameEntity scope scope') :
    (t.startOf scope).same (u.startOf scope') := by
  cases hscope with
  | none => exact h.root
  | some he =>
    unfold Table.startOf
    simp only [Entity.path_eq_of_same he]
    split
    · exact h.root
    · exact he

theorem Alike.candidates_eq (h : t.Alike u) (hscope : SameEntity scope scope') (name : String) :
    t.candidates scope name = u.candidates scope' name := by
  unfold candidates
  rw [h.scopes_eq (h.startOf hscope)]

theorem Alike.firstStored (h : t.Alike u) (ps : List Path) :
    SameEntity (t.firstStored ps) (u.firstStored ps) := by
  induction ps with
  | nil => exact .none
  | cons p ps ih =>
    rw [firstStored_cons, firstStored_cons]
    exact (h p).or ih

theorem same_lookup (h : t.Alike u) (hscope : SameEntity scope scope') (name : String) :
    SameEntity (t.lookup scope name) (u.lookup scope' name) := by
  rw [lookup_eq_firstStored, lookup_eq_firstStored, h.candidates_eq hscope]
  exact h.firstStored _

theorem same_resolve (h : t.Alike u) (hscope : SameEntity scope scope') (name : String)
    (wanted : Bool) : (t.resolve scope name wanted).same (u.resolve scope' name wanted) := by
  have hpath : scope.map Entity.path = scope'.map Entity.path := by
    cases hscope with
    | some he => exact congrArg some (Entity.path_eq_of_same he)
    | none => rfl
  have hlookup := same_lookup h hscope name
  unfold resolve
  generalize t.lookup scope name = found, u.lookup scope' name = found' at hlookup ⊢
  cases hlookup with
  | some hsame => exact hsame
  | none =>
    rw [hpath]
    cases wanted <;> simp [Answer.same]

/-- Whatever they are asked, both tables give equal answers. -/
structure EqualAnswers (t u : Table) : Prop where
  get? : ∀ p, SameEntity (t.get? p) (u.get? p)
  resolve : ∀ scope name wanted, (t.resolve scope name wanted).same (u.resolve scope name wanted)
  /-- The scope may be what each of the tables holds at some path. -/
  resolve_stored : ∀ p name wanted,
    (t.resolve (t.get? p) name wanted).same (u.resolve (u.get? p) name wanted)
  upgrade? : ∀ p : Placeholder, SameEntity (p.upgrade? t) (p.upgrade? u)

theorem Alike.equalAnswers (h : t.Alike u) : EqualAnswers t u where
  get? := h
  resolve scope name wanted := same_resolve h (SameEntity.refl scope) name wanted
  resolve_stored p name wanted := same_resolve h (h p) name wanted
  upgrade? p := same_lookup h (h.bind p.scope) p.name

/-- **Tables are equal when what was accepted last at each path is equal**, so registrations at
distinct paths can come in any order; and whatever run has led to them, equal tables give equal
answers. -/
theorem same_ofItems_iff :
    (∀ xs ys : List Item, (ofItems xs).same (ofItems ys) ↔
      ∀ p, SameEntity (standing xs p) (standing ys p)) ∧
    (∀ xs ys : List Item, xs.Perm ys → ((xs.filterMap Item.entity?).map Entity.path).Nodup →
      (ofItems xs).same (ofItems ys)) ∧
    ∀ run run' : List Change, (after run).same (after run') →
      EqualAnswers (after run) (after run') := by
  refine ⟨same_ofItems, fun xs ys hperm hnd => ?_, fun run run' h => ?_⟩
  · rw [same_ofItems]
    intro p
    rw [standing_perm hperm hnd]
    exact SameEntity.refl _
  · exact Alike.equalAnswers ((same_iff (wellFormed_after run) (wellFormed_after run')).1 h)

/-- Two entities that come in either order, one of them registered twice and with its properties the
other way round; and another Root, and an entity that is refused. -/
theorem same_ofItems_iff_swapped :
    let outer := (Entity.atPath ⟨"A"⟩ ⟨"module"⟩).withProperty "x" (.integer 1)
    let turned := ((Entity.atPath ⟨"A"⟩ ⟨"module"⟩).withProperty "y" (.boolean true)).withProperty
      "x" (.integer 1)
    let inner := Entity.atPath ⟨"A::f"⟩ ⟨"method"⟩
    let root := Entity.root.withProperty "seen" (.boolean true)
    let refused : Entity := Entity.atPath .root ⟨"class"⟩
    let xs : List Item := [.entity (outer.withProperty "y" (.boolean true)), .entity inner,
      .entity root]
    let ys : List Item := [.entity root, .entity inner, .entity outer, .placeholder ⟨none, "f"⟩,
      .entity refused, .entity turned]
    let zs : List Item := [.entity root, .entity (outer.withProperty "y" (.boolean true)),
      .entity inner]
    (xs.Perm zs ∧ ((xs.filterMap Item.entity?).map Entity.path).Nodup ∧
      (ofItems xs).same (ofItems ys)) ∧
    (ofItems xs).same (ofItems zs) ∧ SameEntity (standing xs ⟨"A"⟩) (standing ys ⟨"A"⟩) ∧
      EqualAnswers (ofItems xs) (ofItems ys) := by
  intro outer turned inner root refused xs ys zs
  have hperm : xs.Perm zs := by decide +kernel
  have hnd : ((xs.filterMap Item.entity?).map Entity.path).Nodup := by decide +kernel
  have hsame : (ofItems xs).same (ofItems ys) := by decide +kernel
  obtain ⟨hiff, hany, hanswers⟩ := same_ofItems_iff
  exact ⟨⟨hperm, hnd, hsame⟩, hany xs zs hperm hnd, (hiff xs ys).1 hsame _,
    hanswers (xs.map .register) (ys.map .register) hsame⟩

end Table
end SymbolTable
