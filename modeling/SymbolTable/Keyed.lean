/-
# Lists in which each element has a key

The table keeps entities by path and an entity keeps properties by name.  Both remember the
order in which the keys first arrived, so both are lists, and both store with `upsert`: a key
that is there already keeps its place and takes the new element, and a new key goes to the end.
`without` takes a key out and leaves the others in their order.

* `map_key_upsert`, `upsert_of_notMem`: what happens to the keys, and where a new one goes;
* `nodup_upsert`: distinct keys stay distinct;
* `find?_upsert`, `find?_without`: what a look-up sees afterwards;
* `length_without_lt`: taking out a key that is there makes the list shorter.
-/

namespace SymbolTable

variable {α κ : Type} [DecidableEq κ]

/-! ## 1. Storing -/

/-- Puts `x` where the list has its key already, or at the end. -/
def upsert (key : α → κ) (x : α) : List α → List α
  | [] => [x]
  | y :: rest => if key y = key x then x :: rest else y :: upsert key x rest

theorem map_key_upsert (key : α → κ) (x : α) (l : List α) :
    (upsert key x l).map key =
      if key x ∈ l.map key then l.map key else l.map key ++ [key x] := by
  induction l with
  | nil => simp [upsert]
  | cons y rest ih =>
    by_cases h : key y = key x
    · simp [upsert, h]
    · have h' : ¬ key x = key y := fun e => h e.symm
      simp only [upsert, h, if_false, List.map_cons, ih, List.mem_cons, h', false_or]
      split <;> simp

/-- A new key goes to the end. -/
theorem upsert_of_notMem {key : α → κ} {x : α} {l : List α} (h : key x ∉ l.map key) :
    upsert key x l = l ++ [x] := by
  induction l with
  | nil => rfl
  | cons y rest ih =>
    rw [List.map_cons, List.mem_cons, not_or] at h
    have hne : ¬ key y = key x := fun e => h.1 e.symm
    rw [upsert, if_neg hne, ih h.2, List.cons_append]

theorem mem_of_mem_upsert {key : α → κ} {x y : α} {l : List α} (h : y ∈ upsert key x l) :
    y = x ∨ y ∈ l := by
  induction l with
  | nil => exact Or.inl (List.mem_singleton.1 h)
  | cons z rest ih =>
    rw [upsert] at h
    split at h
    · exact (List.mem_cons.1 h).imp_right (List.mem_cons_of_mem z)
    · rcases List.mem_cons.1 h with rfl | h
      · exact Or.inr List.mem_cons_self
      · exact (ih h).imp_right (List.mem_cons_of_mem z)

theorem nodup_upsert (key : α → κ) (x : α) {l : List α} (h : (l.map key).Nodup) :
    ((upsert key x l).map key).Nodup := by
  rw [map_key_upsert]
  split
  · exact h
  · next hx =>
    rw [List.nodup_append]
    refine ⟨h, by simp, ?_⟩
    intro a ha b hb e
    rw [List.mem_singleton] at hb
    exact hx (hb ▸ e ▸ ha)

/-- A look-up finds the new element under its key and is not disturbed elsewhere. -/
theorem find?_upsert (key : α → κ) (x : α) (k : κ) (l : List α) :
    (upsert key x l).find? (fun y => key y = k) =
      if key x = k then some x else l.find? (fun y => key y = k) := by
  induction l with
  | nil => by_cases h : key x = k <;> simp [upsert, h]
  | cons y rest ih =>
    rw [upsert]
    by_cases h : key y = key x
    · by_cases hk : key x = k <;> simp [h, hk]
    · rw [if_neg h]
      by_cases hk : key y = k
      · have hx : ¬ key x = k := fun e => h (hk.trans e.symm)
        simp [hk, hx]
      · simp [hk, ih]

/-! ## 2. Taking out -/

/-- The elements whose key is not `k`. -/
def without (key : α → κ) (k : κ) (l : List α) : List α := l.filter fun y => key y ≠ k

theorem map_key_without (key : α → κ) (k : κ) (l : List α) :
    (without key k l).map key = (l.map key).filter fun k' => k' ≠ k := by
  simp [without, List.filter_map, Function.comp_def]

theorem find?_without (key : α → κ) (k k' : κ) (l : List α) :
    (without key k l).find? (fun y => key y = k') =
      if k' = k then none else l.find? (fun y => key y = k') := by
  simp only [without, List.find?_filter]
  by_cases h : k' = k
  · simp [h]
  · rw [if_neg h]
    congr 1
    funext y
    by_cases hy : key y = k' <;> simp [hy, h]

theorem length_without_lt {key : α → κ} {x : α} {l : List α} (h : x ∈ l) :
    (without key (key x) l).length < l.length :=
  List.length_filter_lt_length_iff_exists.2 ⟨x, h, by simp⟩

end SymbolTable
