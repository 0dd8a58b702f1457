/-
# What is wrong with a snapshot, and what is not

`restore` goes through the entries once and stops at the first that cannot be stored.  Which one
that is can be said of the list alone: the first whose path has occurred before it, or whose path
is empty although it is not a Root.  A missing Root is noticed at the end, so it counts only if
nothing else is wrong.

A table can also be made in two passes, entities first and their parents afterwards.  The second
pass knows the entities by their positions only.  `restoreInPasses` does that, and it comes to the
same: the first pass gives up none of the entries' places, so position `i` is where entry `i`
went.  A parent is never looked up, and it does not matter whether it is in the list.

* `firstDamage_append`: entries with which nothing is wrong are passed over;
* `create_eq`, `link_append`: the two passes;
* `restore_cases`: what restoring does with any entries.
-/
import SymbolTable.Proofs.Table.Runs

namespace SymbolTable
namespace Snapshot

/-! ## 1. The first damaged entry -/

section Entries

variable (s : Snapshot)

/-- The path of entry `i` has occurred before. -/
def Repeats (i : Fin s.entries.length) : Prop := ∃ j < i, s.entries[j].path = s.entries[i].path

/-- Entry `i` is at the empty path and is not a Root. -/
def Stray (i : Fin s.entries.length) : Prop :=
  s.entries[i].path = .root ∧ s.entries[i].kind ≠ .root

def Damaged (i : Fin s.entries.length) : Prop := s.Repeats i ∨ s.Stray i

/-- Entry `i` is damaged, and no entry before it is. -/
def FirstDamaged (i : Fin s.entries.length) : Prop := s.Damaged i ∧ ∀ j < i, ¬ s.Damaged j

end Entries

/-- Entries that can be stored one after the other: new paths, and Roots at the empty one. -/
structure Storable (es : List Entity) : Prop where
  nodup : (es.map Entity.path).Nodup
  kind : ∀ e ∈ es, e.path = .root → e.kind = .root

variable {s : Snapshot}

/-- The entries before `n` can be stored if none of them is damaged. -/
theorem storable_take {n : Nat} (h : ∀ i : Fin s.entries.length, i.val < n → ¬ s.Damaged i) :
    Storable (s.entries.take n) := by
  refine ⟨?_, ?_⟩
  · rw [List.Nodup, List.pairwise_iff_getElem]
    intro i j hi hj hij heq
    simp only [List.length_map, List.length_take, Nat.lt_min] at hi hj
    simp only [List.getElem_map, List.getElem_take] at heq
    exact h ⟨j, hj.2⟩ hj.1 (Or.inl ⟨⟨i, hi.2⟩, hij, heq⟩)
  · intro e he hroot
    obtain ⟨i, hi, rfl⟩ := List.mem_take_iff_getElem.mp he
    rw [Nat.lt_min] at hi
    by_contra hkind
    exact h ⟨i, hi.2⟩ hi.1 (Or.inr ⟨hroot, hkind⟩)

theorem storable_of_not_damaged (h : ∀ i, ¬ s.Damaged i) : Storable s.entries := by
  have htake := storable_take (s := s) (n := s.entries.length) fun i _ => h i
  rwa [List.take_length] at htake

theorem repeats_iff {i : Fin s.entries.length} :
    s.Repeats i ↔ s.entries[i].path ∈ (s.entries.take i).map Entity.path := by
  rw [List.mem_map]
  constructor
  · rintro ⟨j, hj, heq⟩
    refine ⟨s.entries[j], List.mem_take_iff_getElem.mpr ⟨j, ?_, rfl⟩, heq⟩
    exact Nat.lt_min.mpr ⟨hj, j.isLt⟩
  · rintro ⟨e, he, heq⟩
    obtain ⟨j, hj, rfl⟩ := List.mem_take_iff_getElem.mp he
    rw [Nat.lt_min] at hj
    exact ⟨⟨j, hj.2⟩, hj.1, heq⟩

/-! ## 2. One pass -/

/-- Which paths have been seen matters, not in which order. -/
theorem firstDamage_congr {seen seen' : List Path} (h : ∀ p, p ∈ seen ↔ p ∈ seen')
    (es : List Entity) : firstDamage seen es = firstDamage seen' es := by
  induction es generalizing seen seen' with
  | nil => simp only [firstDamage, h]
  | cons e rest ih =>
    have hnext : ∀ p, p ∈ e.path :: seen ↔ p ∈ e.path :: seen' := by
      intro p
      rw [List.mem_cons, List.mem_cons, h]
    simp only [firstDamage, h, ih hnext]

/-- **Entries that can be stored are passed over.** -/
theorem firstDamage_append (seen : List Path) {front : List Entity}
    (hseen : ∀ e ∈ front, e.path ∉ seen) (h : Storable front) (rest : List Entity) :
    firstDamage seen (front ++ rest) = firstDamage (front.map Entity.path ++ seen) rest := by
  induction front generalizing seen with
  | nil => rfl
  | cons e front ih =>
    have hnd := List.nodup_cons.mp h.nodup
    have hkind : ¬ (e.path = .root ∧ e.kind ≠ .root) := fun hroot =>
      hroot.2 (h.kind e List.mem_cons_self hroot.1)
    have hfront : ∀ x ∈ front, x.path ∉ e.path :: seen := by
      intro x hx hmem
      rcases List.mem_cons.mp hmem with heq | hmem
      · exact hnd.1 (heq ▸ List.mem_map_of_mem hx)
      · exact hseen x (List.mem_cons_of_mem e hx) hmem
    have hstorable : Storable front := ⟨hnd.2, fun x hx => h.kind x (List.mem_cons_of_mem e hx)⟩
    rw [List.cons_append, firstDamage, if_neg (hseen e List.mem_cons_self), if_neg hkind,
      ih (e.path :: seen) hfront hstorable]
    refine firstDamage_congr (fun p => ?_) rest
    simp only [List.map_cons, List.cons_append, List.mem_append, List.mem_cons]
    tauto

theorem firstDamage_of_storable {es : List Entity} (h : Storable es) :
    firstDamage [] es = if .root ∈ es.map Entity.path then none else some .noRoot := by
  have happend := firstDamage_append [] (fun _ _ => List.not_mem_nil) h []
  rwa [List.append_nil, List.append_nil, firstDamage] at happend

/-- What stops at the first damaged entry: a path that has occurred wins over a missing Root
kind. -/
theorem firstDamage_of_firstDamaged {i : Fin s.entries.length} (h : s.FirstDamaged i) :
    (s.Repeats i → firstDamage [] s.entries = some (.duplicate s.entries[i].path)) ∧
    (¬ s.Repeats i → firstDamage [] s.entries = some .notRoot) := by
  have hsplit : s.entries = s.entries.take i ++ s.entries[i] :: s.entries.drop (i + 1) := by
    rw [Fin.getElem_fin, List.getElem_cons_drop, List.take_append_drop]
  have hfront := storable_take (s := s) (n := i) fun j hj => h.2 j hj
  have hpass := firstDamage_append [] (fun _ _ => List.not_mem_nil) hfront
    (s.entries[i] :: s.entries.drop (i + 1))
  rw [← hsplit, List.append_nil, firstDamage] at hpass
  refine ⟨fun hrepeats => ?_, fun hfresh => ?_⟩
  · rw [hpass, if_pos (repeats_iff.mp hrepeats)]
  · have hstray : s.entries[i].path = .root ∧ s.entries[i].kind ≠ .root := h.1.resolve_left hfresh
    rw [hpass, if_neg (mt repeats_iff.mpr hfresh), if_pos hstray]

/-! ## 3. Two passes -/

/-- The first pass: each entity without its parent, stored at its path behind those that are
`made`. -/
def create (made : List Entity) : List Entity → Except Damage (List Entity)
  | [] => if made.any Entity.isRoot then .ok made else .error .noRoot
  | e :: rest =>
    if made.any fun m => m.path = e.path then .error (.duplicate e.path)
    else if e.path = .root ∧ e.kind ≠ .root then .error .notRoot
    else create (upsert Entity.path (e.withParent none) made) rest

/-- The second pass: parents go to the entities at their positions, from `i` on. -/
def link (made : List Entity) (i : Nat) : List (Option Path) → List Entity
  | [] => made
  | none :: rest => link made (i + 1) rest
  | some p :: rest => link (made.modify i fun e => e.withParent (some p)) (i + 1) rest

/-- Makes the entities, and gives them their parents when all of them are there. -/
def restoreInPasses (s : Snapshot) : Except Damage Table :=
  match create [] s.entries with
  | .ok made => .ok ⟨link made 0 (s.entries.map Entity.parent)⟩
  | .error damage => .error damage

/-- One entry in the first pass: it is refused for what one pass refuses it for, or it goes to the
end. -/
theorem create_cons {made : List Entity} {e : Entity} {rest : List Entity} :
    create made (e :: rest) =
      if e.path ∈ made.map Entity.path then .error (.duplicate e.path)
      else if e.path = .root ∧ e.kind ≠ .root then .error .notRoot
      else create (made ++ [e.withParent none]) rest := by
  have hany : (made.any fun m => m.path = e.path) ↔ e.path ∈ made.map Entity.path := by
    simp [List.any_eq_true]
  rw [create]
  simp only [hany]
  by_cases hmem : e.path ∈ made.map Entity.path
  · rw [if_pos hmem, if_pos hmem]
  · have hnew : upsert Entity.path (e.withParent none) made = made ++ [e.withParent none] :=
      upsert_of_notMem hmem
    rw [if_neg hmem, if_neg hmem, hnew]

/-- The first pass refuses what one pass refuses, and otherwise keeps the order of the entries. -/
theorem create_eq (made es : List Entity) :
    create made es = (firstDamage (made.map Entity.path) es).elim
      (.ok (made ++ es.map fun e => e.withParent none)) .error := by
  induction es generalizing made with
  | nil =>
    have hany : made.any Entity.isRoot ↔ .root ∈ made.map Entity.path := by
      simp [List.any_eq_true, Entity.isRoot]
    rw [create, firstDamage, List.map_nil, List.append_nil]
    by_cases hroot : .root ∈ made.map Entity.path
    · rw [if_pos hroot, if_pos (hany.mpr hroot)]
      rfl
    · rw [if_neg hroot, if_neg (mt hany.mp hroot)]
      rfl
  | cons e rest ih =>
    rw [create_cons, firstDamage]
    by_cases hmem : e.path ∈ made.map Entity.path
    · rw [if_pos hmem, if_pos hmem]
      rfl
    · rw [if_neg hmem, if_neg hmem]
      by_cases hstray : e.path = .root ∧ e.kind ≠ .root
      · rw [if_pos hstray, if_pos hstray]
        rfl
      · have hseen : ∀ p, p ∈ (made ++ [e.withParent none]).map Entity.path ↔
            p ∈ e.path :: made.map Entity.path := by
          intro p
          rw [List.map_append, List.mem_append, List.mem_cons, or_comm]
          exact or_congr_left List.mem_singleton
        rw [if_neg hstray, if_neg hstray, ih, firstDamage_congr hseen, List.append_assoc]
        rfl

/-- **Position by position, each entity gets the parent of its entry.**  `front` are the entities
that have theirs. -/
theorem link_append (front es : List Entity) :
    link (front ++ es.map fun e => e.withParent none) front.length (es.map Entity.parent) =
      front ++ es := by
  induction es generalizing front with
  | nil => rw [List.map_nil, List.map_nil, List.append_nil, link]
  | cons e rest ih =>
    have hnext := ih (front ++ [e])
    rw [List.length_append, List.length_singleton, List.append_assoc, List.append_assoc] at hnext
    cases hparent : e.parent with
    | none =>
      have hself : e.withParent none = e := by
        rw [← hparent]
        rfl
      rw [List.map_cons, List.map_cons, hparent, link, hself]
      exact hnext
    | some p =>
      have hself : (e.withParent none).withParent (some p) = e := by
        rw [← hparent]
        rfl
      have hmodify : (front ++ e.withParent none :: rest.map fun e => e.withParent none).modify
          front.length (fun e => e.withParent (some p)) =
            front ++ e :: rest.map fun e => e.withParent none := by
        have hplace := List.modifyTailIdx_add (List.modifyHead fun e => e.withParent (some p)) 0
          front (e.withParent none :: rest.map fun e => e.withParent none)
        rw [Nat.add_zero] at hplace
        refine hplace.trans ?_
        rw [List.modifyTailIdx_zero, List.modifyHead_cons, hself]
      rw [List.map_cons, List.map_cons, hparent, link, hmodify]
      exact hnext

theorem restoreInPasses_eq (s : Snapshot) : s.restoreInPasses = s.restore := by
  have hlink := link_append [] s.entries
  rw [restoreInPasses, restore, create_eq]
  cases h : firstDamage [] s.entries with
  | some damage =>
    rw [List.map_nil, h]
    rfl
  | none =>
    rw [List.map_nil, h]
    exact congrArg (fun entities => (Except.ok ⟨entities⟩ : Except Damage Table)) hlink

/-! ## 4. Any entries -/

theorem restore_of_some {damage : Damage} (h : firstDamage [] s.entries = some damage) :
    s.restore = .error damage := by
  rw [restore, h]

/-- **What restoring does with any entries**, in one pass or in two, and with those of a table. -/
theorem restore_cases :
    (∀ s : Snapshot,
      s.restoreInPasses = s.restore ∧
      (∀ i, s.FirstDamaged i →
        (s.Repeats i → s.restore = .error (.duplicate s.entries[i].path)) ∧
        (¬ s.Repeats i → s.restore = .error .notRoot)) ∧
      ((∀ i, ¬ s.Damaged i) →
        ((∀ e ∈ s.entries, e.path ≠ .root) → s.restore = .error .noRoot) ∧
        ((∃ e ∈ s.entries, e.path = .root) → ∃ t, s.restore = .ok t ∧ capture t = s))) ∧
    ∀ run : List Change, (capture (Table.after run)).restore = .ok (Table.after run) := by
  refine ⟨fun s => ⟨s.restoreInPasses_eq, fun i hi => ?_, fun hnone => ?_⟩, fun run => ?_⟩
  · obtain ⟨hrepeats, hfresh⟩ := firstDamage_of_firstDamaged hi
    exact ⟨fun h => restore_of_some (hrepeats h), fun h => restore_of_some (hfresh h)⟩
  · have hpass := firstDamage_of_storable (storable_of_not_damaged hnone)
    refine ⟨fun hno => ?_, ?_⟩
    · have hmissing : .root ∉ s.entries.map Entity.path := by
        intro hmem
        obtain ⟨e, he, hroot⟩ := List.mem_map.mp hmem
        exact hno e he hroot
      rw [if_neg hmissing] at hpass
      exact restore_of_some hpass
    · rintro ⟨e, he, hroot⟩
      rw [if_pos (hroot ▸ List.mem_map_of_mem he)] at hpass
      exact ⟨⟨s.entries⟩, restore_eq_ok_iff.mpr ⟨hpass, rfl⟩, rfl⟩
  · exact restore_capture (Table.wellFormed_after run)

/-- A second Root of another kind, which repeats a path before it is anything else; a stray entry
in front of a repeated path; entries without a Root; and a Root that comes last, behind an entity
that names itself as its parent and one whose parent is not there. -/
theorem restore_cases_competing :
    let outer := Entity.atPath ⟨"A"⟩ ⟨"module"⟩
    let stray := Entity.atPath .root ⟨"class"⟩
    let own := outer.withParent (some ⟨"A"⟩)
    let lost := Entity.atPath ⟨"B::C"⟩ ⟨"class"⟩
    let repeated : Snapshot := ⟨[.root, outer, stray, outer]⟩
    let strayed : Snapshot := ⟨[outer, stray, outer]⟩
    let rootless : Snapshot := ⟨[outer, lost]⟩
    let whole : Snapshot := ⟨[own, lost, .root]⟩
    (∃ i, i.val = 2 ∧ repeated.FirstDamaged i ∧ repeated.Repeats i ∧
      repeated.restore = .error (.duplicate .root)) ∧
    (∃ i, i.val = 1 ∧ strayed.FirstDamaged i ∧ ¬ strayed.Repeats i ∧
      strayed.restore = .error .notRoot) ∧
    ((∀ i, ¬ rootless.Damaged i) ∧ (∀ e ∈ rootless.entries, e.path ≠ .root) ∧
      rootless.restore = .error .noRoot) ∧
    (∀ i, ¬ whole.Damaged i) ∧ (∃ e ∈ whole.entries, e.path = .root) ∧
      (∃ t, whole.restore = .ok t ∧ capture t = whole) ∧
      (capture (Table.after [.register (.entity own)])).restore =
        .ok (Table.after [.register (.entity own)]) := by
  intro outer stray own lost repeated strayed rootless whole
  obtain ⟨hany, hrun⟩ := restore_cases
  have h₁ : repeated.FirstDamaged ⟨2, by decide⟩ := by
    unfold FirstDamaged Damaged Repeats Stray
    decide +kernel
  have h₂ : repeated.Repeats ⟨2, by decide⟩ := ⟨⟨0, by decide⟩, by decide, rfl⟩
  have h₃ : strayed.FirstDamaged ⟨1, by decide⟩ := by
    unfold FirstDamaged Damaged Repeats Stray
    decide +kernel
  have h₄ : ¬ strayed.Repeats ⟨1, by decide⟩ := by
    unfold Repeats
    decide +kernel
  have h₅ : ∀ i, ¬ rootless.Damaged i := by
    unfold Damaged Repeats Stray
    decide +kernel
  have h₆ : ∀ e ∈ rootless.entries, e.path ≠ .root := by decide +kernel
  have h₇ : ∀ i, ¬ whole.Damaged i := by
    unfold Damaged Repeats Stray
    decide +kernel
  have h₈ : ∃ e ∈ whole.entries, e.path = .root := by decide +kernel
  exact ⟨⟨_, rfl, h₁, h₂, ((hany repeated).2.1 _ h₁).1 h₂⟩,
    ⟨_, rfl, h₃, h₄, ((hany strayed).2.1 _ h₃).2 h₄⟩,
    ⟨h₅, h₆, ((hany rootless).2.2 h₅).1 h₆⟩, h₇, h₈, ((hany whole).2.2 h₇).2 h₈, hrun _⟩

end Snapshot
end SymbolTable
