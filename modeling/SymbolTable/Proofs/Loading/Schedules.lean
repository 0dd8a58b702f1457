/-
# When a rebuild saves

A save policy is a period, or none: a save is due after every so many files.  Everything that a
rebuild's saves depend on can be computed from the period and the number of files: how many saves
there are (`savesFor`), after how many files the first one is made (`firstSave`), and which one was
the last when some files are done (`lastSave?`).

What one more file changes about these numbers depends on one thing only, whether a save is due
after it (`savesBy_succ`, `lastSave?_succ`).
-/
import SymbolTable.Settings.Basic
import Mathlib.Data.Nat.Init

namespace SymbolTable
namespace SavePolicy

variable (policy : SavePolicy)

/-! ## 1. Periods -/

/-- After how many files the next save is due.  A policy without a period saves at the end. -/
def period? : SavePolicy → Option Nat
  | everyFile => some 1
  | everyFiles n => if 0 < n then some n else none
  | atEnd => none

/-- How many saves are due by the time `j` files are done. -/
def savesBy (j : Nat) : Nat :=
  match policy.period? with
  | some k => j / k
  | none => 0

/-- How often the table is saved when `n` files are parsed. -/
def savesFor (n : Nat) : Nat :=
  match policy.period? with
  | some k => max 1 ((n + k - 1) / k)
  | none => 1

/-- After how many of `n` files the table is saved for the first time. -/
def firstSave (n : Nat) : Nat :=
  match policy.period? with
  | some k => min k n
  | none => n

/-- After how many files the table was saved for the last time, when `j` files are done and the
next one is not. -/
def lastSave? (j : Nat) : Option Nat :=
  match policy.period? with
  | some k => if 0 < k * (j / k) then some (k * (j / k)) else none
  | none => none

variable {policy}

theorem period?_pos {k : Nat} (h : policy.period? = some k) : 0 < k := by
  cases policy with
  | everyFile => exact Option.some.inj h ▸ Nat.one_pos
  | everyFiles n =>
    rw [period?] at h
    split at h
    · next hn => exact Option.some.inj h ▸ hn
    · cases h
  | atEnd => cases h

theorem isDue_of_period? {k : Nat} (h : policy.period? = some k) (j : Nat) :
    policy.isDue j ↔ k ∣ j := by
  cases policy with
  | everyFile => simp [isDue, ← Option.some.inj h]
  | everyFiles n =>
    rw [period?] at h
    split at h
    · next hn =>
      obtain rfl := Option.some.inj h
      simp [isDue, hn, Nat.dvd_iff_mod_eq_zero]
    · cases h
  | atEnd => cases h

theorem not_isDue_of_period? (h : policy.period? = none) (j : Nat) : ¬ policy.isDue j := by
  cases policy with
  | everyFile => cases h
  | everyFiles n =>
    rw [period?] at h
    split at h
    · cases h
    · next hn => simp [isDue, hn]
  | atEnd => simp [isDue]

/-! ## 2. One more file -/

theorem savesBy_succ (j : Nat) :
    policy.savesBy (j + 1) = policy.savesBy j + if policy.isDue (j + 1) then 1 else 0 := by
  unfold savesBy
  cases h : policy.period? with
  | none => simp [not_isDue_of_period? h]
  | some k => simp only [Nat.succ_div, isDue_of_period? h]

theorem savesBy_zero : policy.savesBy 0 = 0 := by
  unfold savesBy
  split
  · exact Nat.zero_div _
  · rfl

theorem lastSave?_succ (j : Nat) :
    policy.lastSave? (j + 1) =
      if policy.isDue (j + 1) then some (j + 1) else policy.lastSave? j := by
  unfold lastSave?
  cases h : policy.period? with
  | none => simp [not_isDue_of_period? h]
  | some k =>
    simp only [isDue_of_period? h]
    by_cases hdvd : k ∣ j + 1
    · rw [Nat.mul_div_cancel' hdvd, if_pos (Nat.succ_pos j), if_pos hdvd]
    · simp [Nat.succ_div, hdvd]

theorem lastSave?_of_isDue {j : Nat} (h : policy.isDue (j + 1)) :
    policy.lastSave? (j + 1) = some (j + 1) := by
  rw [lastSave?_succ, if_pos h]

theorem lastSave?_zero : policy.lastSave? 0 = none := by
  unfold lastSave?
  split
  · simp
  · rfl

/-- A save that was made was made before now. -/
theorem lastSave?_le {i j : Nat} (h : i ∈ policy.lastSave? j) : i ≤ j := by
  unfold lastSave? at h
  split at h
  · split at h
    · exact Option.some.inj h ▸ Nat.mul_div_le j _
    · cases h
  · cases h

/-- The last save is one that was due, less than a period ago. -/
theorem lastSave?_of_period? {k j : Nat} (h : policy.period? = some k) (hj : k ≤ j) :
    ∃ i, policy.lastSave? j = some i ∧ i ≤ j ∧ j < i + k := by
  have hk := period?_pos h
  have hdiv : 0 < j / k := Nat.div_pos hj hk
  refine ⟨k * (j / k), ?_, Nat.mul_div_le j k, Nat.lt_mul_div_succ j hk⟩
  rw [lastSave?, h]
  exact if_pos (Nat.mul_pos hk hdiv)

/-! ## 3. The beginning -/

/-- No save was due by the time `j` files are done. -/
def NotYet (policy : SavePolicy) (j : Nat) : Prop := ∀ k, policy.period? = some k → j < k

theorem notYet_zero : policy.NotYet 0 := fun _ h => period?_pos h

/-- The first save is the first one that is due. -/
theorem firstSave_of_isDue {j n : Nat} (h : policy.NotYet j) (hdue : policy.isDue (j + 1))
    (hn : j < n) : policy.firstSave n = j + 1 := by
  unfold firstSave
  cases hk : policy.period? with
  | none => exact absurd hdue (not_isDue_of_period? hk _)
  | some k =>
    have hle := Nat.le_of_dvd (Nat.succ_pos j) ((isDue_of_period? hk _).1 hdue)
    have hlt := h k hk
    dsimp only
    omega

theorem NotYet.succ {j : Nat} (h : policy.NotYet j) (hdue : ¬ policy.isDue (j + 1)) :
    policy.NotYet (j + 1) := by
  intro k hk
  have hne : k ≠ j + 1 := fun heq => hdue ((isDue_of_period? hk _).2 (heq ▸ Nat.dvd_refl _))
  have hlt := h k hk
  omega

/-- Until a save is due, the first one is still to come. -/
theorem NotYet.lt_firstSave {j n : Nat} (h : policy.NotYet j) (hn : j < n) :
    j < policy.firstSave n := by
  unfold firstSave
  cases hk : policy.period? with
  | none => exact hn
  | some k => exact Nat.lt_min.2 ⟨h k hk, hn⟩

theorem NotYet.not_isDue {j : Nat} (h : policy.NotYet j) : j = 0 ∨ !policy.isDue j := by
  by_cases hdue : policy.isDue j
  · cases hk : policy.period? with
    | none => exact absurd hdue (not_isDue_of_period? hk _)
    | some k => exact Or.inl (Nat.eq_zero_of_dvd_of_lt ((isDue_of_period? hk _).1 hdue) (h k hk))
  · simp [hdue]

/-! ## 4. The end -/

theorem savesFor_succ (n : Nat) : policy.savesFor (n + 1) = policy.savesBy n + 1 := by
  unfold savesFor savesBy
  cases h : policy.period? with
  | none => rfl
  | some k =>
    have hadd : n + 1 + k - 1 = n + k := by omega
    dsimp only
    rw [hadd, Nat.add_div_right n (period?_pos h)]
    exact Nat.max_eq_right (Nat.succ_pos _)

/-- One more save is made at the end, unless the last file was followed by one. -/
theorem savesFor_eq (n : Nat) :
    policy.savesFor n = policy.savesBy n + if n = 0 ∨ !policy.isDue n then 1 else 0 := by
  cases n with
  | zero =>
    unfold savesFor savesBy
    cases h : policy.period? with
    | none => rfl
    | some k =>
      have hlt : k - 1 < k := Nat.sub_lt (period?_pos h) Nat.one_pos
      simp [Nat.div_eq_of_lt hlt]
  | succ n =>
    rw [savesFor_succ, savesBy_succ]
    by_cases hdue : policy.isDue (n + 1)
    · simp [hdue]
    · simp [hdue]

end SavePolicy
end SymbolTable
