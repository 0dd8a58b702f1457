/-
# Passing over values

Whatever the grammar derives as a value is passed over, to its last character and no further.  The
reader keeps open brackets on a stack and takes one step at a time, while the grammar nests.  So
the induction is on the derivation, for every stack: a value is passed in so many steps, and then
the stack is what it was (`Passed`).  No character takes more than two steps, and this is why the
reader has fuel enough.

* `reads_pass`: a value that nobody asked for is passed over;
* `reads_natural?`: where a number is asked for, a natural number is read.
-/
import SymbolTable.Proofs.Json.Numbers

namespace SymbolTable.Json

/-! ## 1. Scalars -/

/-- What a number starts with does not start anything else. -/
theorem ne_of_isDigit {c : Char} (h : c = '-' ∨ isDigit c = true) {d : Char}
    (hd : d ≠ '-' ∧ isDigit d = false) : c ≠ d := by
  rintro rfl
  rcases h with rfl | h
  · exact hd.1 rfl
  · rw [h] at hd
    exact absurd hd.2 (by decide)

theorem isBlank_of_isDigit {c : Char} (h : c = '-' ∨ isDigit c = true) : isBlank c = false := by
  have hspace := ne_of_isDigit h (d := ' ') (by decide)
  have htab := ne_of_isDigit h (d := '\t') (by decide)
  have hline := ne_of_isDigit h (d := '\n') (by decide)
  have hreturn := ne_of_isDigit h (d := '\r') (by decide)
  simp [isBlank, hspace, htab, hline, hreturn]

theorem opened?_of_isDigit {c : Char} (h : c = '-' ∨ isDigit c = true) :
    Bracket.opened? c = none := by
  rw [Bracket.opened?, if_neg (ne_of_isDigit h (by decide)), if_neg (ne_of_isDigit h (by decide))]

/-- A number that is read and is in range, where that matters, is a scalar. -/
theorem reads_scalar_of_number {r : Rules} {c : Char} {t : Text} {n : Number}
    (hc : c = '-' ∨ isDigit c = true) (h : Reads Ends (number r.missing) (c :: t) n)
    (hrange : r.ranged = true → n.inRange = true) :
    Reads Ends (scalar r) (c :: t) (.ofNumber n) := by
  intro rest hrest
  have hnumber : (c = '-' || isDigit c) = true := by simpa using hc
  have hquote := ne_of_isDigit hc (d := '"') (by decide)
  have ht := ne_of_isDigit hc (d := 't') (by decide)
  have hf := ne_of_isDigit hc (d := 'f') (by decide)
  have hn := ne_of_isDigit hc (d := 'n') (by decide)
  have hread : number r.missing (c :: (t ++ rest)) = .ok (n, rest) := h rest hrest
  have hfine : ¬ (r.ranged && !n.inRange) = true := by simpa using hrange
  rw [List.cons_append, scalar, look_bind]
  -- the other cases of the match are ruled out by what `c` is not
  simp only [List.head?_cons, hnumber, if_true, bind_apply, hread, if_neg hfine]
  rfl

theorem IsNumber.exists_first {t : Text} (h : IsNumber t) :
    ∃ c t', t = c :: t' ∧ (c = '-' ∨ isDigit c = true) := by
  obtain ⟨signs, hsigns, w, f, e, hw, -, -, rfl⟩ := h
  simp only [List.mem_cons, List.not_mem_nil, or_false] at hsigns
  rcases hsigns with rfl | rfl
  · obtain ⟨c, cs, rfl⟩ := List.exists_cons_of_ne_nil hw.1.1
    exact ⟨c, _, rfl, .inr (hw.1.isDigit c List.mem_cons_self)⟩
  · exact ⟨'-', _, rfl, .inl rfl⟩

theorem reads_scalar_number {t : Text} (h : IsNumber t) :
    ∃ x, Reads Ends (scalar .skipped) t x := by
  obtain ⟨n, hn⟩ := reads_number .malformed h
  obtain ⟨c, t', rfl, hc⟩ := h.exists_first
  exact ⟨_, reads_scalar_of_number hc hn fun hranged => nomatch hranged⟩

theorem reads_scalar_literal {word : String} (h : word ∈ ["true", "false", "null"]) :
    Reads Anything (scalar .skipped) word.toList .other := by
  have letters_of : ∀ word : List Char, Reads Anything (do letters word; pure Scalar.other)
      (word ++ []) .other := fun word => (reads_letters word).bind (.pure _)
  simp only [List.mem_cons, List.not_mem_nil, or_false] at h
  rcases h with rfl | rfl | rfl
  · exact letters_of ['t', 'r', 'u', 'e']
  · exact letters_of ['f', 'a', 'l', 's', 'e']
  · exact letters_of ['n', 'u', 'l', 'l']

theorem reads_scalar_string {body : Text} (h : StringBody body) :
    ∃ x, Reads Anything (scalar .skipped) ('"' :: (body ++ ['"'])) x := by
  obtain ⟨cs, hcs⟩ := Adds.stringBody h
  exact ⟨_, fun rest _ => hcs.reads_stringRest.map rfl rest trivial⟩

theorem reads_scalar_natural {n : Nat} (h : n < 2 ^ 64) :
    Reads Ends (scalar .kept) (Nat.toDigits 10 n) (.natural n) := by
  have hspelled := decimal_toDigits n
  have hread := reads_natural n .cutShort
  obtain ⟨c, cs, hcs⟩ := List.exists_cons_of_ne_nil (digits_toDigits n).1
  have hc : isDigit c = true := (digits_toDigits n).isDigit c (by simp [hcs])
  have hrange := Number.inRange_natural (hspelled.symm ▸ h)
  have hvalue : Scalar.ofNumber ⟨false, (Nat.toDigits 10 n).map digitValue, none, none⟩ =
      .natural n := by
    have hsmall : n < Nat.pow 2 64 := h
    simp [Scalar.ofNumber, Number.natural?, hspelled, hsmall]
  rw [← hvalue]
  rw [hcs] at hread ⊢
  exact reads_scalar_of_number (.inr hc) hread fun _ => hcs ▸ hrange

/-- Where a number is asked for, a natural number is read. -/
theorem reads_natural? {n : Nat} (h : n < 2 ^ 64) (outer : Nat) {before : Text}
    (hbefore : Blanks before) :
    Reads Ends (natural? outer) (before ++ Nat.toDigits 10 n) (some n) := by
  intro rest hrest
  have hread := reads_scalar_natural h rest hrest
  obtain ⟨c, cs, hcs⟩ := List.exists_cons_of_ne_nil (digits_toDigits n).1
  have hc : c = '-' ∨ isDigit c = true := .inr ((digits_toDigits n).isDigit c (by simp [hcs]))
  rw [hcs] at hread ⊢
  rw [natural?, blanks_bind, List.append_assoc, skipBlanks_append hbefore, List.cons_append,
    skipBlanks_cons (isBlank_of_isDigit hc), look_bind, List.head?_cons, Option.bind_some,
    opened?_of_isDigit hc]
  show (scalar .kept >>= _) ((c :: cs) ++ rest) = _
  rw [bind_apply, hread]
  rfl

/-! ## 2. Steps -/

section Steps

variable {r : Rules} {outer : Nat} {b : Bracket} {stack : List Bracket}

theorem Bracket.opened?_opening (b : Bracket) : opened? b.opening = some b := by cases b <;> rfl

theorem Bracket.isBlank_opening (b : Bracket) : isBlank b.opening = false := by cases b <;> rfl

theorem passFrom_open (hdeep : r.deepest = none) {before : Text} (h : Blanks before) (fuel : Nat)
    (rest : Text) :
    passFrom r outer (fuel + 1) .value stack (before ++ b.opening :: rest) =
      passFrom r outer fuel .first (b :: stack) rest := by
  rw [passFrom, blanks_bind, skipBlanks_append h, skipBlanks_cons b.isBlank_opening, look_bind,
    List.head?_cons, Option.bind_some, b.opened?_opening]
  simp only [hdeep, Option.any_none, Bool.false_eq_true, if_false, take_bind]

theorem passFrom_scalar {c : Char} {before text rest : Text} {x : Scalar} (h : Blanks before)
    (hc : isBlank c = false) (hopened : Bracket.opened? c = none)
    (hread : scalar r (c :: text) = .ok (x, rest)) (fuel : Nat) :
    passFrom r outer (fuel + 1) .value stack (before ++ c :: text) =
      passFrom r outer fuel .more stack rest := by
  rw [passFrom, blanks_bind, skipBlanks_append h, skipBlanks_cons hc, look_bind,
    List.head?_cons, Option.bind_some, hopened]
  simp only [bind_apply, hread]

theorem passFrom_close {due : Due} (hdue : due ≠ .value) {after : Text} (h : Blanks after)
    (fuel : Nat) (rest : Text) :
    passFrom r outer (fuel + 1) due (b :: stack) (after ++ b.close :: rest) =
      passFrom r outer fuel .more stack rest := by
  cases due with
  | value => exact absurd rfl hdue
  | first | more =>
    rw [passFrom, blanks_bind, skipBlanks_append h, skipBlanks_cons b.isBlank_close, look_bind]
    · simp only [List.head?_cons, if_true, take_bind]
    · exact hdue

theorem passFrom_comma {after : Text} (h : Blanks after) (fuel : Nat) (rest : Text) :
    passFrom r outer (fuel + 1) .more (b :: stack) (after ++ ',' :: rest) =
      (b.label r >>= fun _ => passFrom r outer fuel .value (b :: stack)) rest := by
  have hopen : ',' ≠ b.close := by cases b <;> decide
  rw [passFrom, blanks_bind, skipBlanks_append h, skipBlanks_cons rfl, look_bind]
  · simp [hopen, take_bind]
  · simp

theorem skipBlanks_skipBlanks (text : Text) : skipBlanks (skipBlanks text) = skipBlanks text := by
  induction text with
  | nil => rfl
  | cons c text ih =>
    cases hc : isBlank c with
    | false => rw [skipBlanks_cons hc, skipBlanks_cons hc]
    | true =>
      have hskip : skipBlanks (c :: text) = skipBlanks text := List.dropWhile_cons_of_pos hc
      rw [hskip, ih]

/-- What comes before a value is passed over together with the blanks around it. -/
theorem label_skipBlanks (fuel : Nat) (text : Text) :
    (b.label r >>= fun _ => passFrom r outer fuel .value stack) (skipBlanks text) =
      (b.label r >>= fun _ => passFrom r outer fuel .value stack) text := by
  cases b with
  | list =>
    show passFrom r outer fuel .value stack (skipBlanks text) =
      passFrom r outer fuel .value stack text
    cases fuel with
    | zero => rfl
    | succ fuel => rw [passFrom, blanks_bind, skipBlanks_skipBlanks, blanks_bind]
  | object =>
    have hquote : expect '"' (skipBlanks text) = expect '"' text := by
      rw [expect, blanks_bind, skipBlanks_skipBlanks, blanks_bind]
    rw [Bracket.label, key, bind_assoc, bind_assoc, bind_apply, hquote, ← bind_apply]

theorem passFrom_first {text : Text} {c : Char} (hc : (skipBlanks text).head? = some c)
    (hopen : c ≠ b.close) (fuel : Nat) :
    passFrom r outer (fuel + 1) .first (b :: stack) text =
      (b.label r >>= fun _ => passFrom r outer fuel .value (b :: stack)) text := by
  rw [passFrom, blanks_bind, look_bind, hc]
  · simp only [if_neg hopen, if_true]
    exact label_skipBlanks fuel text
  · simp

end Steps

/-! ## 3. Values -/

theorem IsLabel.reads {b : Bracket} {t : Text} (h : IsLabel b t) (r : Rules)
    (hpairs : r.pairs = false) :
    ∃ front after, t = front ++ after ∧ Blanks after ∧ Reads Anything (b.label r) front () := by
  cases b with
  | list => exact ⟨[], t, rfl, h, .pure ()⟩
  | object =>
    obtain ⟨before, body, between, after, hbefore, hbody, hbetween, hafter, rfl⟩ := h
    obtain ⟨cs, hcs⟩ := Adds.stringBody hbody
    refine ⟨(before ++ '"' :: (body ++ ['"'])) ++ (between ++ [':']), after, by simp, hafter, ?_⟩
    rw [Bracket.label, hpairs]
    exact (hcs.reads_key hbefore).bind (reads_expect hbetween rfl)

theorem Derives.exists_first {v : Text} (h : Derives .value v) :
    ∃ c v', v = c :: v' ∧ isBlank c = false ∧ c ≠ ']' := by
  cases h with
  | literal h =>
    simp only [List.mem_cons, List.not_mem_nil, or_false] at h
    rcases h with rfl | rfl | rfl
    all_goals exact ⟨_, _, rfl, by decide⟩
  | number h =>
    obtain ⟨c, v', rfl, hc⟩ := h.exists_first
    exact ⟨c, v', rfl, isBlank_of_isDigit hc, ne_of_isDigit hc (by decide)⟩
  | string h => exact ⟨_, _, rfl, by decide⟩
  | @empty b => exact ⟨_, _, rfl, by cases b <;> decide⟩
  | @filled b => exact ⟨_, _, rfl, by cases b <;> decide⟩

/-- What stands between brackets does not start with the closing one. -/
theorem Derives.head?_items {b : Bracket} {t : Text} (h : Derives (.items b) t) :
    ∃ c, c ≠ b.close ∧ ∀ rest, (skipBlanks (t ++ rest)).head? = some c := by
  have labelled : ∀ label value : Text, IsLabel b label → Derives .value value →
      ∃ c, c ≠ b.close ∧ ∀ rest, (skipBlanks (label ++ (value ++ rest))).head? = some c := by
    intro label value hlabel hvalue
    cases b with
    | list =>
      obtain ⟨c, v', rfl, hblank, hc⟩ := hvalue.exists_first
      refine ⟨c, hc, fun rest => ?_⟩
      rw [skipBlanks_append hlabel, List.cons_append, skipBlanks_cons hblank, List.head?_cons]
    | object =>
      obtain ⟨before, body, between, after, hbefore, -, -, -, rfl⟩ := hlabel
      refine ⟨'"', by decide, fun rest => ?_⟩
      rw [List.append_assoc, skipBlanks_append hbefore, List.cons_append, skipBlanks_cons rfl,
        List.head?_cons]
  cases h with
  | last hlabel hvalue | more hlabel hvalue =>
    obtain ⟨c, hc, hfirst⟩ := labelled _ _ hlabel hvalue
    refine ⟨c, hc, fun rest => ?_⟩
    rw [List.append_assoc, List.append_assoc]
    exact hfirst _

/-- So many steps pass over the text, whatever is on the stack.  Between brackets the first item
has been reached. -/
def Passed (outer : Nat) : Symbol → Text → Prop
  | .value, v => ∃ steps, steps ≤ 2 * v.length ∧ ∀ fuel stack before rest,
      Blanks before → Ends rest →
        passFrom .skipped outer (fuel + steps) .value stack (before ++ (v ++ rest)) =
          passFrom .skipped outer fuel .more stack rest
  | .items b, t => ∃ steps, steps ≤ 2 * t.length + 1 ∧ ∀ fuel stack rest,
      (b.label .skipped >>= fun _ =>
          passFrom .skipped outer (fuel + steps) .value (b :: stack)) (t ++ b.close :: rest) =
        passFrom .skipped outer fuel .more stack rest

theorem passed_scalar {outer : Nat} {v : Text} (h : ∃ x, Reads Ends (scalar .skipped) v x)
    (hfirst : ∃ c v', v = c :: v' ∧ isBlank c = false ∧ Bracket.opened? c = none) :
    Passed outer .value v := by
  obtain ⟨x, hx⟩ := h
  obtain ⟨c, v', rfl, hblank, hopened⟩ := hfirst
  have hsteps : 1 ≤ 2 * (c :: v').length := by simp only [List.length_cons]; omega
  refine ⟨1, hsteps, fun fuel stack before rest hbefore hrest => ?_⟩
  exact passFrom_scalar hbefore hblank hopened (hx rest hrest) fuel

theorem passed_item {outer : Nat} {b : Bracket} {label v : Text} (hlabel : IsLabel b label)
    (hv : Passed outer .value v) :
    ∃ steps, steps ≤ 2 * v.length ∧ ∀ fuel stack rest, Ends rest →
      (b.label .skipped >>= fun _ =>
          passFrom .skipped outer (fuel + steps) .value (b :: stack)) (label ++ (v ++ rest)) =
        passFrom .skipped outer fuel .more (b :: stack) rest := by
  obtain ⟨steps, hsteps, hpass⟩ := hv
  obtain ⟨front, after, rfl, hafter, hread⟩ := hlabel.reads .skipped rfl
  refine ⟨steps, hsteps, fun fuel stack rest hrest => ?_⟩
  rw [bind_apply, List.append_assoc, hread _ trivial]
  exact hpass fuel (b :: stack) after rest hafter hrest

theorem passed_empty (outer : Nat) (b : Bracket) {t : Text} (h : Blanks t) :
    Passed outer .value (b.opening :: (t ++ [b.close])) := by
  have hsteps : 2 ≤ 2 * (b.opening :: (t ++ [b.close])).length := by
    rw [List.length_cons]
    omega
  refine ⟨2, hsteps, fun fuel stack before rest hbefore _ => ?_⟩
  have split : b.opening :: (t ++ [b.close]) ++ rest = b.opening :: (t ++ b.close :: rest) := by
    simp
  rw [split]
  exact (passFrom_open rfl hbefore (fuel + 1) _).trans (passFrom_close (by decide) h fuel rest)

theorem passed_filled {outer : Nat} {b : Bracket} {t : Text} (h : Derives (.items b) t)
    (ht : Passed outer (.items b) t) : Passed outer .value (b.opening :: (t ++ [b.close])) := by
  obtain ⟨steps, hsteps, hpass⟩ := ht
  obtain ⟨c, hc, hfirst⟩ := h.head?_items
  have hbound : steps + 2 ≤ 2 * (b.opening :: (t ++ [b.close])).length := by
    simp only [List.length_cons, List.length_append, List.length_nil]
    omega
  refine ⟨steps + 2, hbound, fun fuel stack before rest hbefore _ => ?_⟩
  have split : b.opening :: (t ++ [b.close]) ++ rest = b.opening :: (t ++ b.close :: rest) := by
    simp
  rw [split]
  exact (passFrom_open rfl hbefore (fuel + steps + 1) _).trans
    ((passFrom_first (hfirst _) hc _).trans (hpass fuel stack rest))

theorem passed_last {outer : Nat} {b : Bracket} {label v after : Text} (hlabel : IsLabel b label)
    (hv : Passed outer .value v) (hafter : Blanks after) :
    Passed outer (.items b) (label ++ (v ++ after)) := by
  obtain ⟨steps, hsteps, hpass⟩ := passed_item hlabel hv
  have hbound : steps + 1 ≤ 2 * (label ++ (v ++ after)).length + 1 := by
    simp only [List.length_append]
    omega
  refine ⟨steps + 1, hbound, fun fuel stack rest => ?_⟩
  have split : label ++ (v ++ after) ++ b.close :: rest =
      label ++ (v ++ (after ++ b.close :: rest)) := by simp
  have order : fuel + (steps + 1) = fuel + 1 + steps := by omega
  rw [split, order]
  exact (hpass (fuel + 1) stack _ (.of_blanks hafter (.close b rest))).trans
    (passFrom_close (by decide) hafter fuel rest)

theorem passed_more {outer : Nat} {b : Bracket} {label v after more : Text}
    (hlabel : IsLabel b label) (hv : Passed outer .value v) (hafter : Blanks after)
    (hmore : Passed outer (.items b) more) :
    Passed outer (.items b) (label ++ (v ++ (after ++ ',' :: more))) := by
  obtain ⟨steps, hsteps, hpass⟩ := passed_item hlabel hv
  obtain ⟨steps', hsteps', hpass'⟩ := hmore
  have hbound : steps + (steps' + 1) ≤
      2 * (label ++ (v ++ (after ++ ',' :: more))).length + 1 := by
    simp only [List.length_append, List.length_cons]
    omega
  refine ⟨steps + (steps' + 1), hbound, fun fuel stack rest => ?_⟩
  have split : label ++ (v ++ (after ++ ',' :: more)) ++ b.close :: rest =
      label ++ (v ++ (after ++ ',' :: (more ++ b.close :: rest))) := by simp
  have order : fuel + (steps + (steps' + 1)) = fuel + steps' + 1 + steps := by omega
  rw [split, order]
  exact (hpass (fuel + steps' + 1) stack _ (.of_blanks hafter (.comma _))).trans
    ((passFrom_comma hafter _ _).trans (hpass' fuel stack rest))

/-- Whatever the grammar derives is passed over, by induction on how it is derived. -/
theorem Derives.passed {s : Symbol} {t : Text} (h : Derives s t) (outer : Nat) :
    Passed outer s t := by
  induction h with
  | literal h =>
    refine passed_scalar ⟨_, (reads_scalar_literal h).ends⟩ ?_
    simp only [List.mem_cons, List.not_mem_nil, or_false] at h
    rcases h with rfl | rfl | rfl
    all_goals exact ⟨_, _, rfl, by decide⟩
  | number h =>
    obtain ⟨c, v', rfl, hc⟩ := h.exists_first
    exact passed_scalar (reads_scalar_number h)
      ⟨c, v', rfl, isBlank_of_isDigit hc, opened?_of_isDigit hc⟩
  | string h =>
    obtain ⟨x, hx⟩ := reads_scalar_string h
    exact passed_scalar ⟨x, hx.ends⟩ ⟨_, _, rfl, by decide⟩
  | empty h => exact passed_empty outer _ h
  | filled h ih => exact passed_filled h ih
  | last hlabel _ hafter ih => exact passed_last hlabel ih hafter
  | more hlabel _ hafter _ ih ihmore => exact passed_more hlabel ih hafter ihmore

/-- **Any value is passed over**, to its last character. -/
theorem reads_pass {v before : Text} (h : Derives .value v) (hbefore : Blanks before)
    (outer : Nat) : Reads Ends (pass .skipped outer) (before ++ v) () := by
  obtain ⟨steps, hsteps, hpass⟩ := h.passed outer
  intro rest hrest
  obtain ⟨left, hleft⟩ : ∃ left, 2 * (before ++ v ++ rest).length + 2 = left + 1 + steps := by
    refine ⟨2 * (before ++ v ++ rest).length + 1 - steps, ?_⟩
    simp only [List.length_append]
    omega
  show passFrom .skipped outer (2 * (before ++ v ++ rest).length + 2) .value [] _ = _
  rw [hleft, List.append_assoc, hpass (left + 1) [] before rest hbefore hrest]
  rfl

end SymbolTable.Json
