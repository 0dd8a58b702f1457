/-
# Tables and their history

A table that was only registered to, deleted from and cleared is determined by these changes.  A
change counts for a path if it stored an entity there and nothing that came after it has removed
what is at that path.  Among the changes that count for a path, the last one says what is stored
and the first one says where the path stands in the order.

Nothing here looks at a table that some of the changes have led to: what counts is read off the
list of changes, by their numbers.

* `counts_append`: what one more change counts for;
* `get?_ofHistory`: what is stored is what was stored last;
* `paths_ofHistory`: the paths are in the order in which they were stored first;
* `determined_ofHistory`: both, with what deletions return and what is ignored.
-/
import SymbolTable.Proofs.Table.Runs
import Mathlib.Data.List.Induction
import Mathlib.Data.Nat.Find

namespace SymbolTable

/-! ## 1. Changes that count -/

/-- A change that a caller makes to a table. -/
inductive Edit where
  | register (item : Item)
  | delete (p : Path)
  | clear
deriving DecidableEq, Repr

namespace Edit

def change : Edit → Change
  | register item => .register item
  | delete p => .delete p
  | clear => .clear

/-- The change stores `e`.  At the empty path only a Root is stored. -/
def Stores (c : Edit) (e : Entity) : Prop :=
  c = register (.entity e) ∧ (e.path = .root → e.kind = .root)

/-- The change removes what was registered at `p`.  Clearing removes everything, also what was
registered at the empty path, and deleting spares the empty path. -/
def Removes (c : Edit) (p : Path) : Prop := c = clear ∨ (c = delete p ∧ p ≠ .root)

instance (c : Edit) (p : Path) : Decidable (c.Removes p) := inferInstanceAs (Decidable (_ ∨ _))

end Edit

/-- Changes, from first to last. -/
abbrev History := List Edit

namespace History

/-- Change number `i` stores `e`, and no later change removes what is at its path. -/
structure Counts (h : History) (i : Nat) (e : Entity) : Prop where
  stored : ∃ c, h[i]? = some c ∧ c.Stores e
  kept : ∀ j c, i < j → h[j]? = some c → ¬ c.Removes e.path

/-- Something was registered at `p` since it was last removed. -/
def Live (h : History) (p : Path) : Prop := ∃ i e, h.Counts i e ∧ e.path = p

/-- Change number `i` is the first that counts for `p`. -/
def First (h : History) (p : Path) (i : Nat) : Prop :=
  (∃ e, h.Counts i e ∧ e.path = p) ∧ ∀ j e, h.Counts j e → e.path = p → i ≤ j

/-- The last change that counts for the path of `e` stores `e`. -/
def Last (h : History) (e : Entity) : Prop :=
  ∃ i, h.Counts i e ∧ ∀ j e', h.Counts j e' → e'.path = e.path → j ≤ i

variable {h : History} {c : Edit} {e e' : Entity} {p q : Path} {i j : Nat}

theorem Counts.lt_length (hi : h.Counts i e) : i < h.length := by
  obtain ⟨c, hc, -⟩ := hi.stored
  exact (List.getElem?_eq_some_iff.1 hc).1

theorem not_counts_nil : ¬ Counts [] i e := fun hi => absurd hi.lt_length (Nat.not_lt_zero i)

theorem Live.exists_first (hp : h.Live p) : ∃ i, h.First p i := by
  classical
  have hex : ∃ i, ∃ e, h.Counts i e ∧ e.path = p := hp
  exact ⟨Nat.find hex, Nat.find_spec hex, fun j e hj he => Nat.find_min' hex ⟨e, hj, he⟩⟩

theorem First.lt_length (hp : h.First p i) : i < h.length := by
  obtain ⟨⟨e, hi, -⟩, -⟩ := hp
  exact hi.lt_length

/-- One more change counts if it stores something, and lets what it does not remove count on. -/
theorem counts_append :
    (h ++ [c]).Counts i e ↔ (h.Counts i e ∧ ¬ c.Removes e.path) ∨ (i = h.length ∧ c.Stores e) := by
  have hlast : (h ++ [c])[h.length]? = some c := by simp
  constructor
  · rintro ⟨⟨c', hc', hstores⟩, hkept⟩
    by_cases hi : i < h.length
    · rw [List.getElem?_append_left hi] at hc'
      refine Or.inl ⟨⟨⟨c', hc', hstores⟩, fun j d hij hd => ?_⟩, hkept _ _ hi hlast⟩
      have hj := (List.getElem?_eq_some_iff.1 hd).1
      exact hkept j d hij (by rw [List.getElem?_append_left hj, hd])
    · have hlen := (List.getElem?_eq_some_iff.1 hc').1
      rw [List.length_append, List.length_singleton] at hlen
      obtain rfl : i = h.length := by omega
      rw [hlast] at hc'
      cases hc'
      exact Or.inr ⟨rfl, hstores⟩
  · rintro (⟨hi, hnot⟩ | ⟨rfl, hstores⟩)
    · obtain ⟨c', hc', hstores⟩ := hi.stored
      refine ⟨⟨c', by rw [List.getElem?_append_left hi.lt_length, hc'], hstores⟩, ?_⟩
      intro j d hij hd
      rw [List.getElem?_append] at hd
      split at hd
      · exact hi.kept j d hij hd
      · rw [List.mem_singleton.1 (List.mem_of_getElem? hd)]
        exact hnot
    · refine ⟨⟨c, hlast, hstores⟩, fun j d hij hd => ?_⟩
      have hlen := (List.getElem?_eq_some_iff.1 hd).1
      rw [List.length_append, List.length_singleton] at hlen
      omega

/-! ## 2. One more change

A change stores an entity and removes nothing, or it stores nothing. -/

theorem counts_append_of_stores (hc : c.Stores e) :
    (h ++ [c]).Counts i e' ↔ h.Counts i e' ∨ (i = h.length ∧ e' = e) := by
  obtain ⟨rfl, hroot⟩ := hc
  rw [counts_append]
  have hnot : ¬ (Edit.register (.entity e)).Removes e'.path := by simp [Edit.Removes]
  have hstores : (Edit.register (.entity e)).Stores e' ↔ e' = e := by
    constructor
    · rintro ⟨heq, -⟩
      cases heq
      rfl
    · rintro rfl
      exact ⟨rfl, hroot⟩
  rw [hstores]
  exact or_congr_left (and_iff_left hnot)

theorem counts_append_of_not_stores (hc : ∀ e, ¬ c.Stores e) :
    (h ++ [c]).Counts i e ↔ h.Counts i e ∧ ¬ c.Removes e.path := by
  rw [counts_append]
  exact or_iff_left fun hstores => hc e hstores.2

theorem live_append_of_stores (hc : c.Stores e) :
    (h ++ [c]).Live p ↔ h.Live p ∨ e.path = p := by
  simp only [Live, counts_append_of_stores hc]
  constructor
  · rintro ⟨i, e', hi | ⟨-, rfl⟩, hp⟩
    · exact Or.inl ⟨i, e', hi, hp⟩
    · exact Or.inr hp
  · rintro (⟨i, e', hi, hp⟩ | hp)
    · exact ⟨i, e', Or.inl hi, hp⟩
    · exact ⟨_, e, Or.inr ⟨rfl, rfl⟩, hp⟩

theorem live_append_of_not_stores (hc : ∀ e, ¬ c.Stores e) :
    (h ++ [c]).Live p ↔ h.Live p ∧ ¬ c.Removes p := by
  simp only [Live, counts_append_of_not_stores hc]
  constructor
  · rintro ⟨i, e, ⟨hi, hnot⟩, rfl⟩
    exact ⟨⟨i, e, hi, rfl⟩, hnot⟩
  · rintro ⟨⟨i, e, hi, rfl⟩, hnot⟩
    exact ⟨i, e, ⟨hi, hnot⟩, rfl⟩

/-- A path keeps its place when it is registered again. -/
theorem First.append_of_stores (hc : c.Stores e) (hp : h.First p i) : (h ++ [c]).First p i := by
  obtain ⟨⟨x, hx, hxp⟩, hleast⟩ := hp
  refine ⟨⟨x, (counts_append_of_stores hc).2 (Or.inl hx), hxp⟩, fun j y hj hy => ?_⟩
  rcases (counts_append_of_stores hc).1 hj with hj | ⟨rfl, -⟩
  · exact hleast j y hj hy
  · exact Nat.le_of_lt hx.lt_length

/-- A new path comes after all others. -/
theorem first_append_of_not_live (hc : c.Stores e) (hnew : ¬ h.Live e.path) :
    (h ++ [c]).First e.path h.length := by
  refine ⟨⟨e, (counts_append_of_stores hc).2 (Or.inr ⟨rfl, rfl⟩), rfl⟩, fun j y hj hy => ?_⟩
  rcases (counts_append_of_stores hc).1 hj with hj | ⟨rfl, -⟩
  · exact absurd ⟨j, y, hj, hy⟩ hnew
  · exact Nat.le_refl _

theorem First.append_of_not_stores (hc : ∀ e, ¬ c.Stores e) (hp : h.First p i)
    (hnot : ¬ c.Removes p) : (h ++ [c]).First p i := by
  obtain ⟨⟨x, hx, rfl⟩, hleast⟩ := hp
  exact ⟨⟨x, (counts_append_of_not_stores hc).2 ⟨hx, hnot⟩, rfl⟩,
    fun j y hj hy => hleast j y ((counts_append_of_not_stores hc).1 hj).1 hy⟩

theorem last_append_of_stores (hc : c.Stores e) :
    (h ++ [c]).Last e' ↔ e' = e ∨ (e'.path ≠ e.path ∧ h.Last e') := by
  simp only [Last, counts_append_of_stores hc]
  constructor
  · rintro ⟨i, hi | ⟨-, rfl⟩, hmost⟩
    · by_cases hpath : e.path = e'.path
      · exact absurd (hmost h.length e (Or.inr ⟨rfl, rfl⟩) hpath) (Nat.not_le.2 hi.lt_length)
      · exact Or.inr ⟨fun heq => hpath heq.symm, i, hi, fun j y hj hy => hmost j y (Or.inl hj) hy⟩
    · exact Or.inl rfl
  · rintro (rfl | ⟨hpath, i, hi, hmost⟩)
    · refine ⟨h.length, Or.inr ⟨rfl, rfl⟩, fun j y hj _ => ?_⟩
      rcases hj with hj | ⟨rfl, -⟩
      · exact Nat.le_of_lt hj.lt_length
      · exact Nat.le_refl _
    · refine ⟨i, Or.inl hi, fun j y hj hy => ?_⟩
      rcases hj with hj | ⟨-, rfl⟩
      · exact hmost j y hj hy
      · exact absurd hy.symm hpath

theorem last_append_of_not_stores (hc : ∀ e, ¬ c.Stores e) :
    (h ++ [c]).Last e ↔ h.Last e ∧ ¬ c.Removes e.path := by
  simp only [Last, counts_append_of_not_stores hc]
  constructor
  · rintro ⟨i, ⟨hi, hnot⟩, hmost⟩
    exact ⟨⟨i, hi, fun j y hj hy => hmost j y ⟨hj, hy ▸ hnot⟩ hy⟩, hnot⟩
  · rintro ⟨⟨i, hi, hmost⟩, hnot⟩
    exact ⟨i, ⟨hi, hnot⟩, fun j y hj hy => hmost j y hj.1 hy⟩

end History

/-! ## 3. The table that a history leaves -/

namespace Table

open History

/-- The table that is left when a fresh one is changed. -/
def ofHistory (h : History) : Table := after (h.map Edit.change)

theorem ofHistory_append (h : History) (c : Edit) :
    ofHistory (h ++ [c]) = (ofHistory h).apply c.change := by
  simp [ofHistory, after]

variable {t : Table} {c : Edit} {e : Entity} {p : Path}

theorem accepts_iff : accepts e ↔ (e.path = .root → e.kind = .root) := by
  by_cases h : e.path = .root <;> simp [accepts, Entity.isRoot, h]

theorem apply_of_stores (hc : c.Stores e) : t.apply c.change = t.insert e ∧ accepts e := by
  obtain ⟨rfl, hroot⟩ := hc
  exact ⟨rfl, accepts_iff.2 hroot⟩

/-- What a change that stores nothing does: it leaves the table alone, or deletes, or clears. -/
theorem apply_of_not_stores (hc : ∀ e, ¬ c.Stores e) :
    (t.apply c.change = t ∧ ∀ p, ¬ c.Removes p) ∨
      (∃ p, p ≠ .root ∧ t.apply c.change = (t.delete p).2 ∧ ∀ q, c.Removes q ↔ q = p) ∨
        (t.apply c.change = fresh ∧ ∀ p, c.Removes p) := by
  cases c with
  | register item =>
    refine Or.inl ⟨?_, fun p => by simp [Edit.Removes]⟩
    cases item with
    | placeholder _ => rfl
    | entity e =>
      have hnot : ¬ accepts e := fun h => hc e ⟨rfl, accepts_iff.1 h⟩
      exact if_neg hnot
  | delete p =>
    by_cases hp : p = .root
    · subst hp
      refine Or.inl ⟨by simp [apply, Edit.change, delete], fun q => ?_⟩
      rintro (h | ⟨h, hq⟩)
      · cases h
      · cases h
        exact hq rfl
    · refine Or.inr (Or.inl ⟨p, hp, rfl, fun q => ?_⟩)
      constructor
      · rintro (h | ⟨h, -⟩)
        · cases h
        · cases h
          rfl
      · rintro rfl
        exact Or.inr ⟨rfl, hp⟩
  | clear => exact Or.inr (Or.inr ⟨rfl, fun p => Or.inl rfl⟩)

theorem get?_fresh : fresh.get? p = some e ↔ p = .root ∧ e = .root := by
  unfold get? fresh
  by_cases h : p = .root
  · subst h
    simp [Entity.root, eq_comm]
  · have h' : ¬ Entity.root.path = p := fun heq => h heq.symm
    simp [h, h']

theorem get?_of_not_stores (hc : ∀ e, ¬ c.Stores e) :
    (t.apply c.change).get? p = some e ↔
      (t.get? p = some e ∧ ¬ c.Removes p) ∨ (p = .root ∧ e = .root ∧ c.Removes p) := by
  rcases apply_of_not_stores (t := t) hc with ⟨happly, hnone⟩ | ⟨q, hq, happly, hiff⟩ |
    ⟨happly, hall⟩
  · simp [happly, hnone p]
  · rw [happly, get?_delete t q p hq, hiff p]
    by_cases hpq : p = q
    · simp [hpq, hq]
    · simp [hpq]
  · simp [happly, get?_fresh, hall p]

theorem paths_of_not_stores (hc : ∀ e, ¬ c.Stores e) {live : List Path}
    (hpaths : t.paths = .root :: live) :
    (t.apply c.change).paths = .root :: live.filter fun p => ¬ c.Removes p := by
  rcases apply_of_not_stores (t := t) hc with ⟨happly, hnone⟩ | ⟨q, hq, happly, hiff⟩ |
    ⟨happly, hall⟩
  · simp [happly, hpaths, hnone]
  · have hroot : Path.root ≠ q := fun heq => hq heq.symm
    simp [happly, paths_delete t q hq, hpaths, hiff, hroot]
  · simp [happly, hall, fresh, paths, Entity.root]

/-- **What is stored at a path is what was stored there last**, of what still counts.  The Root of a
fresh table is there until another one is registered. -/
theorem get?_ofHistory (h : History) : ∀ {p : Path} {e : Entity},
    (ofHistory h).get? p = some e ↔
      (e.path = p ∧ h.Last e) ∨ (p = .root ∧ e = .root ∧ ¬ h.Live .root) := by
  induction h using List.reverseRecOn with
  | nil =>
    intro p e
    simp [ofHistory, after, get?_fresh, Last, Live, not_counts_nil]
  | append_singleton h c ih =>
    intro p e
    rw [ofHistory_append]
    by_cases hc : ∃ x, c.Stores x
    · obtain ⟨x, hx⟩ := hc
      obtain ⟨happly, haccepts⟩ := apply_of_stores (t := ofHistory h) hx
      rw [happly, get?_insert, last_append_of_stores hx, live_append_of_stores hx]
      by_cases hpx : x.path = p
      · subst hpx
        rw [if_pos ⟨haccepts, rfl⟩]
        constructor
        · rintro h
          cases h
          exact Or.inl ⟨rfl, Or.inl rfl⟩
        · rintro (⟨hpath, rfl | ⟨hne, -⟩⟩ | ⟨hroot, -, hnot⟩)
          · rfl
          · exact absurd hpath hne
          · exact absurd (Or.inr hroot) hnot
      · rw [if_neg fun h => hpx h.2, ih]
        constructor
        · rintro (⟨rfl, hlast⟩ | ⟨rfl, hroot, hnot⟩)
          · exact Or.inl ⟨rfl, Or.inr ⟨fun heq => hpx heq.symm, hlast⟩⟩
          · exact Or.inr ⟨rfl, hroot, fun h => h.elim hnot hpx⟩
        · rintro (⟨rfl, rfl | ⟨-, hlast⟩⟩ | ⟨rfl, hroot, hnot⟩)
          · exact absurd rfl hpx
          · exact Or.inl ⟨rfl, hlast⟩
          · exact Or.inr ⟨rfl, hroot, fun h => hnot (Or.inl h)⟩
    · rw [not_exists] at hc
      rw [get?_of_not_stores hc, ih, last_append_of_not_stores hc, live_append_of_not_stores hc]
      constructor
      · rintro (⟨⟨rfl, hlast⟩ | ⟨rfl, hroot, hlive⟩, hnot⟩ | ⟨rfl, hroot, hremoved⟩)
        · exact Or.inl ⟨rfl, hlast, hnot⟩
        · exact Or.inr ⟨rfl, hroot, fun h => hlive h.1⟩
        · exact Or.inr ⟨rfl, hroot, fun h => h.2 hremoved⟩
      · rintro (⟨rfl, hlast, hnot⟩ | ⟨rfl, hroot, hnot⟩)
        · exact Or.inl ⟨Or.inl ⟨rfl, hlast⟩, hnot⟩
        · by_cases hremoved : c.Removes .root
          · exact Or.inr ⟨rfl, hroot, hremoved⟩
          · exact Or.inl ⟨Or.inr ⟨rfl, hroot, fun hlive => hnot ⟨hlive, hremoved⟩⟩, hremoved⟩

/-- **The paths after the first are those that something counts for**, in the order of the first
changes that count for them. -/
theorem paths_ofHistory (h : History) :
    ∃ live, (ofHistory h).paths = .root :: live ∧ (∀ p, p ∈ live ↔ p ≠ .root ∧ h.Live p) ∧
      live.Pairwise fun p q => ∃ i j, h.First p i ∧ h.First q j ∧ i < j := by
  induction h using List.reverseRecOn with
  | nil =>
    exact ⟨[], rfl, by simp [Live, not_counts_nil], List.Pairwise.nil⟩
  | append_singleton h c ih =>
    obtain ⟨live, hpaths, hmem, horder⟩ := ih
    rw [ofHistory_append]
    by_cases hc : ∃ x, c.Stores x
    · obtain ⟨x, hx⟩ := hc
      obtain ⟨happly, haccepts⟩ := apply_of_stores (t := ofHistory h) hx
      have hkeep : live.Pairwise fun p q =>
          ∃ i j, First (h ++ [c]) p i ∧ First (h ++ [c]) q j ∧ i < j :=
        horder.imp fun ⟨i, j, hi, hj, hij⟩ =>
          ⟨i, j, hi.append_of_stores hx, hj.append_of_stores hx, hij⟩
      rw [happly, paths_insert _ haccepts, hpaths]
      by_cases hold : x.path ∈ Path.root :: live
      · rw [if_pos hold]
        refine ⟨live, rfl, fun p => ?_, hkeep⟩
        rw [hmem, live_append_of_stores hx]
        constructor
        · exact fun ⟨hp, hlive⟩ => ⟨hp, Or.inl hlive⟩
        · rintro ⟨hp, hlive | rfl⟩
          · exact ⟨hp, hlive⟩
          · exact (hmem _).1 ((List.mem_cons.1 hold).resolve_left hp)
      · rw [if_neg hold]
        refine ⟨live ++ [x.path], rfl, fun p => ?_, ?_⟩
        · rw [List.mem_append, hmem, List.mem_singleton, live_append_of_stores hx]
          constructor
          · rintro (⟨hp, hlive⟩ | rfl)
            · exact ⟨hp, Or.inl hlive⟩
            · exact ⟨fun heq => hold (heq ▸ List.mem_cons_self), Or.inr rfl⟩
          · rintro ⟨hp, hlive | rfl⟩
            · exact Or.inl ⟨hp, hlive⟩
            · exact Or.inr rfl
        · have hnew : ¬ Live h x.path := by
            intro hlive
            by_cases hroot : x.path = .root
            · exact hold (hroot ▸ List.mem_cons_self)
            · exact hold (List.mem_cons_of_mem _ ((hmem _).2 ⟨hroot, hlive⟩))
          refine List.pairwise_append.2 ⟨hkeep, List.pairwise_singleton _ _, ?_⟩
          intro p hp q hq
          obtain ⟨i, hi⟩ := ((hmem p).1 hp).2.exists_first
          rw [List.mem_singleton.1 hq]
          exact ⟨i, h.length, hi.append_of_stores hx, first_append_of_not_live hx hnew,
            hi.lt_length⟩
    · rw [not_exists] at hc
      refine ⟨_, paths_of_not_stores hc hpaths, fun p => ?_, ?_⟩
      · rw [live_append_of_not_stores hc]
        simp [hmem, and_assoc]
      · rw [List.pairwise_filter]
        refine horder.imp fun ⟨i, j, hi, hj, hij⟩ hp hq => ?_
        rw [decide_eq_true_eq] at hp hq
        exact ⟨i, j, hi.append_of_not_stores hc hp, hj.append_of_not_stores hc hq, hij⟩

/-- What its history says of a table. -/
structure Determined (h : History) (t : Table) : Prop where
  /-- The Root comes first, and then what was registered since it was last removed, in the order of
  the first registrations since then. -/
  paths : ∃ live, t.paths = .root :: live ∧ (∀ p, p ∈ live ↔ p ≠ .root ∧ h.Live p) ∧
    live.Pairwise fun p q => ∃ i j, h.First p i ∧ h.First q j ∧ i < j
  /-- What is stored is what was registered last. -/
  stored : ∀ p e, p ≠ .root → (t.get? p = some e ↔ e.path = p ∧ h.Last e)
  /-- The Root is the one that was registered last, or that of a fresh table. -/
  root : ∀ e, t.get? .root = some e ↔ (e.path = .root ∧ h.Last e) ∨ (e = .root ∧ ¬ h.Live .root)
  /-- Deleting gives back what was registered last, and nothing for the Root. -/
  deleted : ∀ p e, (t.delete p).1 = some e ↔ p ≠ .root ∧ e.path = p ∧ h.Last e
  placeholder : ∀ p, t.register (.placeholder p) = t
  /-- No other kind of entity takes the place of the Root. -/
  refused : ∀ e, e.path = .root → e.kind ≠ .root → t.register (.entity e) = t

/-- **A table is determined by its history.** -/
theorem determined_ofHistory (h : History) : Determined h (ofHistory h) := by
  have hstored : ∀ p e, p ≠ .root → ((ofHistory h).get? p = some e ↔ e.path = p ∧ h.Last e) := by
    intro p e hp
    rw [get?_ofHistory]
    exact or_iff_left fun hroot => hp hroot.1
  exact {
    paths := paths_ofHistory h
    stored := hstored
    root := fun e => by simp [get?_ofHistory]
    deleted := by
      intro p e
      by_cases hp : p = .root
      · simp [delete, hp]
      · simp [delete, hp, hstored p e hp]
    placeholder := fun p => rfl
    refused := by
      intro e hpath hkind
      have hnot : ¬ accepts e := fun haccepts => hkind (accepts_iff.1 haccepts hpath)
      exact if_neg hnot }

end Table
end SymbolTable
