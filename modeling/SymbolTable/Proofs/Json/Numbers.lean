/-
# Numbers

A number is read digit by digit, and it ends where the next character cannot be a part of it.  So
everything here depends on what follows.  `Avoids p` says that what follows does not start with a
character that `p` wants.

* `reads_number`: whatever the grammar calls a number is read;
* `reads_natural`: the decimal digits of a natural number below 2 ^ 64 are read for that number,
  which is in the range of numbers that are looked at.
-/
import SymbolTable.Proofs.Json.Reading
import Mathlib.Algebra.Group.Nat.Defs

namespace SymbolTable.Json

/-! ## 1. What follows -/

/-- The text does not start with a character that `p` wants. -/
def Avoids (p : Char → Bool) (t : Text) : Prop := ∀ c ∈ t.head?, p c = false

section Avoids

variable {p : Char → Bool} {c : Char} {t rest : Text}

theorem Avoids.nil : Avoids p [] := fun _ h => nomatch h

theorem Avoids.cons (h : p c = false) (t : Text) : Avoids p (c :: t) := by simpa [Avoids] using h

theorem Avoids.append (h : Avoids p t) (hrest : Avoids p rest) : Avoids p (t ++ rest) := by
  cases t with
  | nil => exact hrest
  | cons c t => exact .cons (h c rfl) _

def isSign (c : Char) : Bool := c = '-' || c = '+'

/-- What follows ends the digits before a point, and is no point. -/
def EndsWhole (rest : Text) : Prop := Avoids isDigit rest ∧ Avoids (· = '.') rest

theorem Avoids.minus (h : Avoids isSign rest) : Avoids (· = '-') rest :=
  fun c hc => (Bool.or_eq_false_iff.mp (h c hc)).1

theorem Avoids.plus (h : Avoids isSign rest) : Avoids (· = '+') rest :=
  fun c hc => (Bool.or_eq_false_iff.mp (h c hc)).2

theorem Ends.avoids_digits (h : Ends rest) : Avoids isDigit rest := fun c hc => (h c hc).1

theorem Ends.avoids (h : Ends rest) (hp : ∀ c, p c = true → c ∈ ['.', 'e', 'E']) :
    Avoids p rest := by
  intro c hc
  cases hpc : p c with
  | false => rfl
  | true => exact absurd (hp c hpc) (h c hc).2

theorem reads_optional (h : p c = true) : Reads Anything (optional p) [c] true := by
  intro rest _
  rw [List.singleton_append, optional, if_pos h]

theorem reads_optional_nil : Reads (Avoids p) (optional p) [] false := by
  intro rest hrest
  cases rest with
  | nil => rfl
  | cons c rest =>
    have hc : ¬ p c = true := by simp [hrest c rfl]
    rw [List.nil_append, optional, if_neg hc]

end Avoids

/-! ## 2. The parts of a number -/

theorem Digits.isDigit {ds : Text} (h : Digits ds) : ∀ c ∈ ds, isDigit c := by
  intro c hc
  simpa [Json.isDigit] using h.2 c hc

theorem reads_digits {ds : Text} (missing : Fault) (h : Digits ds) :
    Reads (Avoids isDigit) (digits missing) ds (ds.map digitValue) := by
  intro rest hrest
  have none_left : rest.takeWhile isDigit = [] ∧ rest.dropWhile isDigit = rest := by
    cases rest with
    | nil => exact ⟨rfl, rfl⟩
    | cons c rest =>
      have hc := hrest c rfl
      simp [hc]
  have taken : (ds ++ rest).takeWhile isDigit = ds := by
    rw [List.takeWhile_append_of_pos h.isDigit, none_left.1, List.append_nil]
  have left : (ds ++ rest).dropWhile isDigit = rest := by
    rw [List.dropWhile_append_of_pos h.isDigit, none_left.2]
  obtain ⟨c, cs, rfl⟩ := List.exists_cons_of_ne_nil h.1
  simp only [digits, taken, left]

theorem digitValue_eq_zero {c : Char} (hc : isDigit c = true) (h : digitValue c = 0) : c = '0' := by
  have first : '0' ≤ c ∧ c ≤ '9' := by simpa [isDigit] using hc
  have least : '0'.toNat ≤ c.toNat := Char.le_def.mp first.1
  exact Char.toNat_inj.mp (Nat.le_antisymm (Nat.le_of_sub_eq_zero h) least)

theorem reads_whole {t : Text} (missing : Fault) (h : WholePart t) :
    Reads (Avoids isDigit) (whole missing) t (t.map digitValue) := by
  have fine : ¬ ((t.map digitValue).head? = some 0 ∧ 1 < (t.map digitValue).length) := by
    rintro ⟨hzero, hlong⟩
    obtain ⟨c, cs, rfl⟩ := List.exists_cons_of_ne_nil h.1.1
    have hc : c = '0' :=
      digitValue_eq_zero (h.1.isDigit c List.mem_cons_self) (by simpa using hzero)
    have alone := h.2 (by rw [hc]; rfl)
    simp [alone] at hlong
  rw [← List.append_nil t, whole]
  refine (reads_digits missing h.1).bind_of ?_ fun rest hrest => hrest
  rw [List.append_nil, if_neg fine]
  exact .pure _

theorem reads_no_fraction (missing : Fault) : Reads EndsWhole (fraction? missing) [] none :=
  reads_optional_nil.bind_of (.pure none) fun _ hrest => hrest.2

theorem reads_fraction {t : Text} (missing : Fault) (h : FractionPart t) :
    ∃ f, Reads EndsWhole (fraction? missing) t f := by
  rcases h with rfl | ⟨ds, hds, rfl⟩
  · exact ⟨none, reads_no_fraction missing⟩
  · refine ⟨some (ds.map digitValue), ?_⟩
    have point : Reads Anything (optional (· = '.')) ['.'] true := reads_optional rfl
    exact point.bind fun rest hrest => (reads_digits missing hds).map rfl rest hrest.1

theorem reads_sign {t : Text} (h : t ∈ [[], ['+'], ['-']]) :
    ∃ negative, Reads (Avoids isSign) sign t negative := by
  simp only [List.mem_cons, List.not_mem_nil, or_false] at h
  rcases h with rfl | rfl | rfl
  · have skip : Reads (Avoids isSign) (optional (· = '+') >>= fun _ => pure false) [] false :=
      reads_optional_nil.bind_of (.pure false) fun _ hrest => hrest.plus
    exact ⟨false, reads_optional_nil.bind_of skip fun _ hrest => hrest.minus⟩
  · have skip : Reads Anything (optional (· = '+')) ['+'] true := reads_optional rfl
    exact ⟨false, reads_optional_nil.bind_of (skip.bind (.pure false))
      fun rest _ => .cons rfl rest⟩
  · have skip : Reads Anything (optional (· = '-')) ['-'] true := reads_optional rfl
    exact ⟨true, skip.bind (.pure true)⟩

/-- A digit is not a sign. -/
theorem Digits.avoids_sign {ds : Text} (h : Digits ds) (rest : Text) :
    Avoids isSign (ds ++ rest) := by
  obtain ⟨c, cs, rfl⟩ := List.exists_cons_of_ne_nil h.1
  refine .cons ?_ _
  have hc := h.isDigit c List.mem_cons_self
  have hminus : c ≠ '-' := by rintro rfl; exact absurd hc (by decide)
  have hplus : c ≠ '+' := by rintro rfl; exact absurd hc (by decide)
  simp [isSign, hminus, hplus]

theorem reads_no_exponent (missing : Fault) : Reads Ends (exponent? missing) [] none := by
  refine reads_optional_nil.bind_of (.pure none) fun rest hrest => ?_
  exact hrest.avoids fun c hc => List.mem_cons_of_mem _ (by simpa using hc)

theorem reads_exponent {t : Text} (missing : Fault) (h : ExponentPart t) :
    ∃ e, Reads Ends (exponent? missing) t e := by
  rcases h with rfl | ⟨letter, hletter, signs, hsigns, ds, hds, rfl⟩
  · exact ⟨none, reads_no_exponent missing⟩
  · obtain ⟨negative, hnegative⟩ := reads_sign hsigns
    have hmark : Reads Anything (optional fun c => c = 'e' || c = 'E') [letter] true :=
      reads_optional (by simpa using hletter)
    have hdigits : Reads Ends (digits missing) ds (ds.map digitValue) :=
      fun rest hrest => reads_digits missing hds rest hrest.avoids_digits
    let n := decimal (ds.map digitValue)
    have hvalue : letter :: (signs ++ ds) = [letter] ++ (signs ++ (ds ++ [])) := by simp
    rw [hvalue]
    refine ⟨some (if negative then -(n : Int) else n), hmark.bind (hnegative.bind_of
      (hdigits.bind_of (.pure _) fun _ hrest => hrest) fun rest _ => ?_)⟩
    rw [List.append_nil]
    exact hds.avoids_sign rest

/-! ## 3. Numbers -/

theorem FractionPart.avoids {t : Text} (h : FractionPart t) : Avoids isDigit t := by
  rcases h with rfl | ⟨ds, -, rfl⟩
  · exact .nil
  · exact .cons rfl ds

theorem ExponentPart.avoids {t : Text} (h : ExponentPart t) :
    Avoids isDigit t ∧ Avoids (· = '.') t := by
  rcases h with rfl | ⟨letter, hletter, signs, -, ds, -, rfl⟩
  · exact ⟨.nil, .nil⟩
  · simp only [List.mem_cons, List.not_mem_nil, or_false] at hletter
    rcases hletter with rfl | rfl
    all_goals exact ⟨.cons rfl _, .cons rfl _⟩

theorem reads_minus {signs : Text} (h : signs ∈ [[], ['-']]) :
    Reads (Avoids isSign) (optional (· = '-')) signs (signs = ['-'] : Bool) := by
  intro rest hrest
  simp only [List.mem_cons, List.not_mem_nil, or_false] at h
  rcases h with rfl | rfl
  · exact reads_optional_nil rest hrest.minus
  · exact reads_optional rfl rest trivial

/-- A number from its parts. -/
theorem reads_parts {signs w f e : Text} {fraction : Option (List Nat)} {exponent : Option Int}
    (missing : Fault) (hsigns : signs ∈ [[], ['-']]) (hw : WholePart w) (hf : FractionPart f)
    (he : ExponentPart e)
    (hfraction : Reads EndsWhole (fraction? missing) f fraction)
    (hexponent : Reads Ends (exponent? missing) e exponent) :
    Reads Ends (number missing) (signs ++ (w ++ (f ++ e)))
      ⟨signs = ['-'], w.map digitValue, fraction, exponent⟩ := by
  have tail : Reads Ends (do
      let exponent ← exponent? missing
      pure (⟨signs = ['-'], w.map digitValue, fraction, exponent⟩ : Number)) (e ++ [])
      ⟨signs = ['-'], w.map digitValue, fraction, exponent⟩ :=
    hexponent.bind_of (.pure _) fun _ hrest => hrest
  rw [List.append_nil] at tail
  rw [number]
  refine (reads_minus hsigns).bind_of ((reads_whole missing hw).bind_of
    (hfraction.bind_of tail fun rest hrest => ?_) fun rest hrest => ?_) fun rest _ => ?_
  · exact ⟨he.avoids.1.append hrest.avoids_digits, he.avoids.2.append (hrest.avoids (by simp))⟩
  · exact (hf.avoids.append he.avoids.1).append hrest.avoids_digits
  · rw [List.append_assoc]
    exact hw.1.avoids_sign _

theorem reads_number {t : Text} (missing : Fault) (h : IsNumber t) :
    ∃ n, Reads Ends (number missing) t n := by
  obtain ⟨signs, hsigns, w, f, e, hw, hf, he, rfl⟩ := h
  obtain ⟨fraction, hfraction⟩ := reads_fraction missing hf
  obtain ⟨exponent, hexponent⟩ := reads_exponent missing he
  exact ⟨_, reads_parts missing hsigns hw hf he hfraction hexponent⟩

/-! ## 4. Natural numbers -/

theorem decimal_toDigits (n : Nat) : decimal ((Nat.toDigits 10 n).map digitValue) = n := by
  have h := Nat.ofDigitChars_toDigits (b := 10) (n := n) (by decide) (by decide)
  rwa [decimal, List.foldl_map]

theorem digits_toDigits (n : Nat) : Digits (Nat.toDigits 10 n) := by
  refine ⟨Nat.toDigits_ne_nil, fun c hc => ?_⟩
  have hdigit := Nat.isDigit_of_mem_toDigits (by decide) (by decide) hc
  have hrange : 48 ≤ c.val ∧ c.val ≤ 57 := by simpa [Char.isDigit] using hdigit
  exact hrange

/-- No zero leads, because the number before the last digit has none. -/
theorem wholePart_toDigits (n : Nat) : WholePart (Nat.toDigits 10 n) := by
  refine ⟨digits_toDigits n, ?_⟩
  induction n using Nat.strongRecOn with
  | ind n ih =>
    by_cases hn : n < 10
    · rw [Nat.toDigits_of_lt_base hn]
      simp
    · have hfront : (Nat.toDigits 10 (n / 10)).head?.isSome := by simp [Nat.toDigits_ne_nil]
      rw [Nat.toDigits_of_base_le (by decide) (by omega), List.head?_append,
        Option.or_of_isSome hfront]
      intro hzero
      have alone := decimal_toDigits (n / 10)
      rw [ih (n / 10) (by omega) hzero] at alone
      have zero : n / 10 = 0 := alone.symm
      omega

namespace Number

theorem le_foldl (ds : List Nat) (start : Nat) :
    start ≤ ds.foldl (fun n d => 10 * n + d) start := by
  induction ds generalizing start with
  | nil => exact Nat.le_refl _
  | cons d ds ih => exact Nat.le_trans (by omega) (ih (10 * start + d))

theorem gather_of_lt {ds : List Nat} {start : Nat}
    (h : ds.foldl (fun n d => 10 * n + d) start < 2 ^ 64) :
    gather start ds = (ds.foldl (fun n d => 10 * n + d) start, 0) := by
  induction ds generalizing start with
  | nil => rfl
  | cons d ds ih =>
    have hd : 10 * start + d < Nat.pow 2 64 := Nat.lt_of_le_of_lt (le_foldl ds _) h
    rw [gather, if_pos hd]
    exact ih h

/-- Rounding adds at most one unit of the last place that is kept. -/
theorem roundTo53_le (n : Nat) : roundTo53 n ≤ n + 2 ^ (n.log2 + 1 - 53) := by
  have hdiv : n / 2 ^ (n.log2 + 1 - 53) * 2 ^ (n.log2 + 1 - 53) ≤ n := Nat.div_mul_le_self n _
  have hpow : Nat.pow 2 (n.log2 + 1 - 53) = 2 ^ (n.log2 + 1 - 53) := rfl
  simp only [roundTo53, hpow]
  split
  · rw [Nat.add_mul, Nat.one_mul]
    exact Nat.add_le_add_right hdiv _
  · exact Nat.le_add_right_of_le hdiv

theorem tooLarge_natural {n : Nat} (h : n < 2 ^ 64) : tooLarge n 0 = false := by
  have hlog : n = 0 ∨ n.log2 < 64 := by
    by_cases hn : n = 0
    · exact .inl hn
    · exact .inr ((Nat.log2_lt hn).mpr h)
  rcases hlog with rfl | hlog
  · rfl
  have hunit : 2 ^ (n.log2 + 1 - 53) ≤ 2 ^ 11 := Nat.pow_le_pow_right (by decide) (by omega)
  have hone : roundTo53 (Nat.pow 10 (0 : Int).toNat) = 1 := by decide
  have hround : roundTo53 n ≤ 2 ^ 65 := by
    have := roundTo53_le n
    omega
  have hfar : 2 ^ 65 < Nat.pow 2 1024 - Nat.pow 2 970 := by decide +kernel
  have hlarge : ¬ Nat.pow 2 1024 - Nat.pow 2 970 ≤ roundTo53 n :=
    Nat.not_le.mpr (Nat.lt_of_le_of_lt hround hfar)
  rw [tooLarge, hone, Nat.mul_one, decide_eq_false hlarge]
  simp

theorem inRange_natural {ds : List Nat} (h : decimal ds < 2 ^ 64) :
    inRange ⟨false, ds, none, none⟩ = true := by
  have hgather : gather 0 ds = (decimal ds, 0) := gather_of_lt h
  have hlarge := tooLarge_natural h
  simp only [inRange, hgather, Option.getD_none, gather]
  simpa using hlarge

end Number

/-- Decimal digits are read for the number that they spell. -/
theorem reads_natural (n : Nat) (missing : Fault) :
    Reads Ends (number missing) (Nat.toDigits 10 n)
      ⟨false, (Nat.toDigits 10 n).map digitValue, none, none⟩ := by
  have hparts : Reads Ends (number missing) ([] ++ (Nat.toDigits 10 n ++ ([] ++ [])))
      ⟨([] : Text) = ['-'], _, none, none⟩ :=
    reads_parts missing (by simp) (wholePart_toDigits n) (.inl rfl) (.inl rfl)
      (reads_no_fraction missing) (reads_no_exponent missing)
  simpa using hparts

end SymbolTable.Json
