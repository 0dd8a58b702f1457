/-
# Reading what the grammar describes

`Reads ok read t x` says that a reader takes the text `t` for `x` and leaves what follows it, as
long as that is `ok`.  Most readers do not care what follows; a number has to be followed by
something that cannot be a part of it (`Ends`).

* `reads_expect`, `reads_key`, `reads_text`: what stands between values, and strings;
* `reads_items`: items between brackets, each of which is read when those before it have been.
-/
import SymbolTable.Proofs.Json.Grammar

namespace SymbolTable.Json

/-! ## 1. Readers -/

theorem bind_apply {α β : Type} (read : Reader α) (next : α → Reader β) (text : Text) :
    (read >>= next) text =
      match read text with
      | .ok (x, rest) => next x rest
      | .error fault => .error fault := by
  show StateT.bind read next text = _
  unfold StateT.bind
  cases read text with
  | error fault => rfl
  | ok result => rfl

/-- Whatever follows. -/
def Anything : Text → Prop := fun _ => True

/-- What follows is not a part of a number. -/
def Ends (rest : Text) : Prop := ∀ c ∈ rest.head?, isDigit c = false ∧ c ∉ ['.', 'e', 'E']

/-- The reader takes `t` for `x` if what follows is `ok`. -/
def Reads {α : Type} (ok : Text → Prop) (read : Reader α) (t : Text) (x : α) : Prop :=
  ∀ rest, ok rest → read (t ++ rest) = .ok (x, rest)

namespace Reads

variable {α β : Type} {ok : Text → Prop} {read : Reader α} {t : Text} {x : α}

theorem pure (x : α) : Reads ok (Pure.pure x) [] x := fun _ _ => rfl

theorem ends (h : Reads Anything read t x) : Reads Ends read t x := fun rest _ => h rest trivial

/-- Two readers one after the other, where what the second takes is `ok` after the first. -/
theorem bind_of {ok' : Text → Prop} {next : α → Reader β} {t' : Text} {y : β}
    (h : Reads ok read t x) (h' : Reads ok' (next x) t' y)
    (hok : ∀ rest, ok' rest → ok (t' ++ rest)) : Reads ok' (read >>= next) (t ++ t') y := by
  intro rest hrest
  rw [bind_apply, List.append_assoc, h _ (hok rest hrest)]
  exact h' rest hrest

theorem bind {next : α → Reader β} {t' : Text} {y : β} (h : Reads Anything read t x)
    (h' : Reads ok (next x) t' y) : Reads ok (read >>= next) (t ++ t') y :=
  h.bind_of h' fun _ _ => trivial

theorem bind_pure {f : α → β} {y : β} (h : Reads ok read t x) (hy : f x = y) :
    Reads ok (read >>= fun x => Pure.pure (f x)) t y := by
  intro rest hrest
  subst hy
  rw [bind_apply, h rest hrest]
  rfl

theorem map {f : α → β} {y : β} (h : Reads ok read t x) (hy : f x = y) :
    Reads ok (f <$> read) t y := by
  rw [← bind_pure_comp]
  exact h.bind_pure hy

end Reads

/-! ## 2. Blanks -/

theorem isBlank_of_mem {c : Char} (h : c ∈ [' ', '\t', '\n', '\r']) : isBlank c := by
  simpa [isBlank, or_assoc] using h

theorem skipBlanks_append {b : Text} (h : Blanks b) (rest : Text) :
    skipBlanks (b ++ rest) = skipBlanks rest :=
  List.dropWhile_append_of_pos fun c hc => isBlank_of_mem (h c hc)

theorem skipBlanks_cons {c : Char} (h : isBlank c = false) (rest : Text) :
    skipBlanks (c :: rest) = c :: rest := by
  rw [skipBlanks, List.dropWhile_cons_of_neg (by simp [h])]

theorem blanks_bind {α : Type} (next : Unit → Reader α) (text : Text) :
    (blanks >>= next) text = next () (skipBlanks text) := rfl

theorem look_bind {α : Type} (next : Option Char → Reader α) (text : Text) :
    (look >>= next) text = next text.head? text := rfl

theorem take_bind {α : Type} (next : Char → Reader α) (c : Char) (rest : Text) :
    (take >>= next) (c :: rest) = next c rest := rfl

theorem optional_bind {α : Type} {wanted : Char → Bool} {c : Char} (h : wanted c = true)
    (next : Bool → Reader α) (rest : Text) :
    (optional wanted >>= next) (c :: rest) = next true rest := by
  rw [bind_apply, optional, if_pos h]

theorem reads_expect {b : Text} (hb : Blanks b) {c : Char} (hc : isBlank c = false) :
    Reads Anything (expect c) (b ++ [c]) () := by
  intro rest _
  rw [expect, blanks_bind, List.append_assoc, skipBlanks_append hb, List.singleton_append,
    skipBlanks_cons hc, take_bind, if_pos rfl]
  rfl

/-! ## 3. Strings -/

theorem hexDigit?_of_hexDigit {d : Nat} {c : Char} (h : HexDigit d c) : hexDigit? c = some d := by
  have small : ∀ i : Fin 16, hexDigit? ("0123456789abcdef".toList[i]) = some i.val := by decide
  have large : ∀ i : Fin 16, hexDigit? ("0123456789ABCDEF".toList[i]) = some i.val := by decide
  obtain h | h := h
  all_goals obtain ⟨hd, rfl⟩ := List.getElem?_eq_some_iff.mp h
  · exact small ⟨d, hd⟩
  · exact large ⟨d, hd⟩

theorem reads_hexUnit {u : Nat} {t : Text} (h : UnitEscape u t) :
    ∃ ds, t = '\\' :: 'u' :: ds ∧ Reads Anything hexUnit ds u := by
  cases h with
  | @mk i j k l a b c d ha hb hc hd =>
    refine ⟨[a, b, c, d], rfl, fun rest _ => ?_⟩
    have value : hexValue? [a, b, c, d] = some (((i * 16 + j) * 16 + k) * 16 + l) := by
      simp [hexValue?, hexDigit?_of_hexDigit ha, hexDigit?_of_hexDigit hb,
        hexDigit?_of_hexDigit hc, hexDigit?_of_hexDigit hd, Nat.mul_comm]
    have split : [a, b, c, d] ++ rest = a :: b :: c :: d :: rest := rfl
    rw [split, hexUnit, value]

theorem toNat_valid (c : Char) : c.toNat < 0xD800 ∨ 0xDFFF < c.toNat ∧ c.toNat < 0x110000 := c.valid

theorem utf16_unit {c : Char} {u : Nat} (h : utf16 c = [u]) :
    u = c.toNat ∧ isTrailing u = false ∧ isLeading u = false := by
  unfold utf16 at h
  split at h
  · obtain rfl : c.toNat = u := by simpa using h
    have valid := toNat_valid c
    refine ⟨rfl, ?_, ?_⟩
    all_goals
      simp only [isTrailing, isLeading, Bool.and_eq_false_iff, decide_eq_false_iff_not]
      omega
  · simp at h

theorem utf16_pair {c : Char} {u u' : Nat} (h : utf16 c = [u, u']) :
    isTrailing u = false ∧ isLeading u = true ∧ isTrailing u' = true ∧ joinSurrogates u u' = c := by
  unfold utf16 at h
  split at h
  · simp at h
  · obtain ⟨hu, hu'⟩ : 0xD800 + (c.toNat - 0x10000) / 0x400 = u ∧
        0xDC00 + (c.toNat - 0x10000) % 0x400 = u' := by simpa using h
    have valid := toNat_valid c
    simp only [isTrailing, isLeading, Bool.and_eq_false_iff, Bool.and_eq_true,
      decide_eq_false_iff_not, decide_eq_true_iff]
    refine ⟨by omega, by omega, by omega, ?_⟩
    have joined : 0x10000 + (u - 0xD800) * 0x400 + (u' - 0xDC00) = c.toNat := by omega
    rw [joinSurrogates, joined, Char.ofNat_toNat]

theorem reads_letters (word : List Char) : Reads Anything (letters word) word () := by
  induction word with
  | nil => exact fun _ _ => rfl
  | cons l word ih =>
    intro rest hrest
    rw [letters, List.cons_append, take_bind, if_pos rfl]
    exact ih rest hrest

theorem reads_escape_u {pairs : Bool} {t : Text} {c : Char}
    (h : Reads Anything (unicodeEscape pairs) t c) : Reads Anything (escape pairs) ('u' :: t) c := h

theorem reads_escape_short {e c : Char} (pairs : Bool) (h : (e, c) ∈ shortEscapes) :
    Reads Anything (escape pairs) [e] c := by
  have all : ∀ p ∈ shortEscapes, Reads Anything (escape pairs) [p.1] p.2 := by
    simp only [shortEscapes, List.forall_mem_cons]
    refine ⟨?_, ?_, ?_, ?_, ?_, ?_, ?_, ?_, ?_⟩
    all_goals first | exact fun _ _ => rfl | simp
  exact all _ h

theorem reads_escape_unit {c : Char} {u : Nat} {t : Text} (hc : utf16 c = [u])
    (h : UnitEscape u t) : ∃ e, t = '\\' :: e ∧ Reads Anything (escape true) e c := by
  obtain ⟨ds, rfl, hds⟩ := reads_hexUnit h
  obtain ⟨rfl, trailing, leading⟩ := utf16_unit hc
  refine ⟨'u' :: ds, rfl, reads_escape_u (t := ds) ?_⟩
  rw [← List.append_nil ds, unicodeEscape]
  refine hds.bind ?_
  simp only [trailing, leading, Bool.not_true, Bool.false_eq_true, if_false, Char.ofNat_toNat]
  exact .pure c

theorem reads_escape_pair {c : Char} {u u' : Nat} {t t' : Text} (hc : utf16 c = [u, u'])
    (h : UnitEscape u t) (h' : UnitEscape u' t') :
    ∃ e, t ++ t' = '\\' :: e ∧ Reads Anything (escape true) e c := by
  obtain ⟨ds, rfl, hds⟩ := reads_hexUnit h
  obtain ⟨ds', rfl, hds'⟩ := reads_hexUnit h'
  obtain ⟨trailing, leading, trailing', joined⟩ := utf16_pair hc
  have second : Reads Anything trailingUnit (['\\', 'u'] ++ (ds' ++ [])) u' := by
    refine (reads_letters _).bind (hds'.bind ?_)
    rw [if_pos trailing']
    exact .pure u'
  refine ⟨'u' :: (ds ++ ((['\\', 'u'] ++ (ds' ++ [])) ++ [])), by simp, reads_escape_u ?_⟩
  rw [unicodeEscape]
  refine hds.bind ?_
  simp only [trailing, leading, Bool.not_true, Bool.false_eq_true, if_false, if_true]
  refine second.bind ?_
  rw [joined]
  exact .pure c

/-- A reader inside a string passes over `t` and adds `cs` to what it has seen. -/
structure Adds (pairs : Bool) (cs : List Char) (t : Text) : Prop where
  length_le : cs.length ≤ t.length
  reads : ∀ fuel seen rest, stringFrom pairs (fuel + cs.length) seen (t ++ rest) =
    stringFrom pairs fuel (cs.reverse ++ seen) rest

namespace Adds

variable {pairs : Bool} {c : Char} {cs cs' : List Char} {t t' : Text}

theorem nil : Adds pairs [] [] := ⟨Nat.le_refl _, fun _ _ _ => rfl⟩

theorem append (h : Adds pairs cs t) (h' : Adds pairs cs' t') :
    Adds pairs (cs ++ cs') (t ++ t') where
  length_le := by simpa using Nat.add_le_add h.length_le h'.length_le
  reads fuel seen rest := by
    have swap : fuel + (cs ++ cs').length = fuel + cs'.length + cs.length := by
      rw [List.length_append]
      omega
    rw [List.append_assoc, swap, h.reads, h'.reads, List.reverse_append, List.append_assoc]

theorem plain (h : IsPlain c) : Adds pairs [c] [c] where
  length_le := Nat.le_refl _
  reads fuel seen rest := by
    obtain ⟨hc, quote, backslash⟩ := h
    show stringFrom pairs (fuel + 1) seen (c :: rest) = _
    rw [stringFrom, take_bind]
    simp [Char.not_lt.mpr hc]

theorem escape {e : Text} (h : Reads Anything (escape pairs) e c) :
    Adds pairs [c] ('\\' :: e) where
  length_le := by simp
  reads fuel seen rest := by
    show stringFrom pairs (fuel + 1) seen ('\\' :: (e ++ rest)) = _
    rw [stringFrom, take_bind]
    show (Json.escape pairs >>= fun c => stringFrom pairs fuel (c :: seen)) (e ++ rest) = _
    rw [bind_apply, h rest trivial]
    rfl

theorem written (h : Written c t) : Adds true [c] t := by
  cases h with
  | plain h => exact plain h
  | short h => exact escape (reads_escape_short true h)
  | unit hc h =>
    obtain ⟨e, rfl, he⟩ := reads_escape_unit hc h
    exact escape he
  | pair hc h h' =>
    obtain ⟨e, heq, he⟩ := reads_escape_pair hc h h'
    rw [heq]
    exact escape he

theorem spelled (h : Spelled cs t) : Adds true cs t := by
  induction h with
  | nil => exact nil
  | cons h _ ih => exact (written h).append ih

theorem piece (h : Piece t) : ∃ c, Adds false [c] t := by
  cases h with
  | plain h => exact ⟨_, plain h⟩
  | short h => exact ⟨_, escape (reads_escape_short false h)⟩
  | @unit u _ h =>
    obtain ⟨ds, rfl, hds⟩ := reads_hexUnit h
    refine ⟨Char.ofNat u, escape (reads_escape_u ?_)⟩
    rw [← List.append_nil ds, unicodeEscape]
    exact hds.bind (.pure _)

theorem stringBody (h : StringBody t) : ∃ cs, Adds false cs t := by
  induction h with
  | nil => exact ⟨[], nil⟩
  | cons h _ ih =>
    obtain ⟨c, hc⟩ := piece h
    obtain ⟨cs, hcs⟩ := ih
    exact ⟨_, hc.append hcs⟩

theorem reads_stringRest (h : Adds pairs cs t) :
    Reads Anything (stringRest pairs) (t ++ ['"']) (String.ofList cs) := by
  intro rest _
  show stringFrom pairs ((t ++ ['"'] ++ rest).length + 1) [] (t ++ ['"'] ++ rest) = _
  have enough : (t ++ ['"'] ++ rest).length + 1 =
      (t.length - cs.length + rest.length + 1) + 1 + cs.length := by
    have := h.length_le
    simp only [List.length_append, List.length_singleton]
    omega
  rw [enough, List.append_assoc, h.reads]
  simp [stringFrom, take_bind]
  rfl

/-- A key, or a string where a key may stand. -/
theorem reads_key (h : Adds pairs cs t) {b : Text} (hb : Blanks b) :
    Reads Anything (key pairs) (b ++ '"' :: (t ++ ['"'])) (String.ofList cs) := by
  have split : b ++ '"' :: (t ++ ['"']) = (b ++ ['"']) ++ (t ++ ['"']) := by simp
  rw [split]
  exact (reads_expect hb rfl).bind h.reads_stringRest

end Adds

theorem reads_key {s : String} {t b : Text} (h : StringFor s t) (hb : Blanks b) :
    Reads Anything (key true) (b ++ t) s := by
  obtain ⟨body, hbody, rfl⟩ := h
  simpa using (Adds.spelled hbody).reads_key hb

theorem reads_text {s : String} {t b : Text} (h : StringFor s t) (hb : Blanks b) :
    Reads Anything text (b ++ t) s := by
  obtain ⟨body, hbody, rfl⟩ := h
  intro rest hrest
  have content := (Adds.spelled hbody).reads_stringRest rest hrest
  rw [String.ofList_toList] at content
  rw [text, blanks_bind, List.append_assoc, skipBlanks_append hb, List.cons_append,
    skipBlanks_cons rfl, optional_bind rfl]
  exact content

/-! ## 4. Items between brackets -/

theorem StringFor.head? {s : String} {t : Text} (h : StringFor s t) : t.head? = some '"' := by
  obtain ⟨body, -, rfl⟩ := h
  rfl

theorem Member.head? {name : String} {Kind : Text → Prop} {t : Text} (h : Member name Kind t) :
    t.head? = some '"' := by
  obtain ⟨name, between, after, value, hname, -, -, -, rfl⟩ := h
  obtain ⟨body, -, rfl⟩ := hname
  rfl

theorem Ends.cons {c : Char} (h : isDigit c = false ∧ c ∉ ['.', 'e', 'E']) (rest : Text) :
    Ends (c :: rest) := by
  simpa [Ends] using h

theorem Ends.of_blanks {after rest : Text} (h : Blanks after) (hrest : Ends rest) :
    Ends (after ++ rest) := by
  cases after with
  | nil => exact hrest
  | cons c after =>
    refine .cons ?_ _
    have hc := h c List.mem_cons_self
    simp only [List.mem_cons, List.not_mem_nil, or_false] at hc
    obtain rfl | rfl | rfl | rfl := hc
    all_goals decide

theorem Ends.comma (rest : Text) : Ends (',' :: rest) := .cons (by decide) rest

theorem Ends.close (b : Bracket) (rest : Text) : Ends (b.close :: rest) :=
  .cons (by cases b <;> decide) rest

theorem Bracket.isBlank_close (b : Bracket) : isBlank b.close = false := by cases b <;> rfl

/-- A member is read by its key, a colon and its value. -/
theorem Member.reads {α : Type} {ok : Text → Prop} {name : String} {Kind : Text → Prop}
    {next : String → Reader α} (read : Reader α) {x : α} {before t : Text}
    (h : Member name Kind t) (hbefore : Blanks before)
    (hnext : next name = expect ':' >>= fun _ => read)
    (hread : ∀ after value, Blanks after → Kind value → Reads ok read (after ++ value) x) :
    Reads ok (key true >>= next) (before ++ t) x := by
  obtain ⟨named, between, after, value, hnamed, hbetween, hafter, hvalue, rfl⟩ := h
  have split : before ++ (named ++ (between ++ ':' :: (after ++ value))) =
      (before ++ named) ++ ((between ++ [':']) ++ (after ++ value)) := by simp
  rw [split]
  refine (reads_key hnamed hbefore).bind ?_
  rw [hnext]
  exact (reads_expect hbetween rfl).bind (hread after value hafter hvalue)

section Items

variable {α σ : Type} {b : Bracket} {Kind : α → Text → Prop} {item : σ → Reader σ}
  {Inv : List α → σ → Prop}

/-- Every item starts with a quote. -/
def Quoted (Kind : α → Text → Prop) : Prop := ∀ x t, Kind x t → t.head? = some '"'

/-- Each item is read, and then the invariant holds of the items after it. -/
def Advances (Kind : α → Text → Prop) (item : σ → Reader σ) (Inv : List α → σ → Prop) : Prop :=
  ∀ x xs s before t, Inv (x :: xs) s → Blanks before → Kind x t →
    ∃ s', Reads Ends (item s) (before ++ t) s' ∧ Inv xs s'

theorem items_apply (s : σ) (t : Text) :
    items b.close item s t = itemsFrom b.close item (t.length + 1) true s t := rfl

theorem itemsFrom_close {after : Text} (h : Blanks after) (fuel : Nat) (first : Bool) (s : σ)
    (rest : Text) :
    itemsFrom b.close item (fuel + 1) first s (after ++ b.close :: rest) = .ok (s, rest) := by
  rw [itemsFrom, blanks_bind, skipBlanks_append h, skipBlanks_cons b.isBlank_close, look_bind]
  simp only [List.head?_cons, if_pos, take_bind]
  rfl

theorem itemsFrom_comma {after : Text} (h : Blanks after) (fuel : Nat) (s : σ) (rest : Text) :
    itemsFrom b.close item (fuel + 1) false s (after ++ ',' :: rest) =
      (item s >>= itemsFrom b.close item fuel false) rest := by
  have open_ : ',' ≠ b.close := by cases b <;> decide
  rw [itemsFrom, blanks_bind, skipBlanks_append h, skipBlanks_cons rfl, look_bind]
  simp only [List.head?_cons, if_neg open_, Bool.false_eq_true, if_false, if_pos, take_bind]

theorem itemsFrom_first {before : Text} (h : Blanks before) (fuel : Nat) (s : σ) (rest : Text) :
    itemsFrom b.close item (fuel + 1) true s (before ++ '"' :: rest) =
      (item s >>= itemsFrom b.close item fuel false) ('"' :: rest) := by
  have open_ : '"' ≠ b.close := by cases b <;> decide
  rw [itemsFrom, blanks_bind, skipBlanks_append h, skipBlanks_cons rfl, look_bind]
  simp only [List.head?_cons, if_neg open_, if_true]

theorem exists_quote {t : Text} (h : t.head? = some '"') : ∃ t', t = '"' :: t' := by
  cases t with
  | nil => simp at h
  | cons c t => exact ⟨t, by simpa using h⟩

theorem Listed.length_le {xs : List α} {t : Text} (h : Listed Kind xs t)
    (hquote : Quoted Kind) : xs.length ≤ t.length := by
  induction h with
  | none => simp
  | last _ hx _ =>
    obtain ⟨t', rfl⟩ := exists_quote (hquote _ _ hx)
    simp
    omega
  | more _ hx _ _ ih =>
    simp only [List.length_cons, List.length_append] at ih ⊢
    omega

/-- The first item can be looked at before the blanks around it have been passed over. -/
theorem Listed.exists_first {x : α} {xs : List α} {t : Text} (h : Listed Kind (x :: xs) t)
    (hquote : Quoted Kind) :
    ∃ before t', Blanks before ∧ t = before ++ '"' :: t' ∧ Listed Kind (x :: xs) ('"' :: t') := by
  cases h with
  | @last _ before t after hbefore hx hafter =>
    obtain ⟨t', rfl⟩ := exists_quote (hquote _ _ hx)
    exact ⟨before, t' ++ after, hbefore, rfl, .last blanks_nil hx hafter⟩
  | @more _ _ _ before t after rest hbefore hx hafter hrest =>
    obtain ⟨t', rfl⟩ := exists_quote (hquote _ _ hx)
    exact ⟨before, t' ++ (after ++ ',' :: rest), hbefore, rfl, .more blanks_nil hx hafter hrest⟩

/-- From the first item on, each item is read and takes the invariant one item further. -/
theorem reads_itemsFrom
    (step : Advances Kind item Inv)
    {xs : List α} {t : Text} (h : Listed Kind xs t) (hxs : xs ≠ []) :
    ∀ s, Inv xs s → ∃ s', Inv [] s' ∧ ∀ fuel, xs.length ≤ fuel →
      Reads Anything (item s >>= itemsFrom b.close item fuel false) (t ++ [b.close]) s' := by
  induction h with
  | none => exact absurd rfl hxs
  | @last x before t after hbefore hx hafter =>
    intro s hs
    obtain ⟨s', reads, hs'⟩ := step _ _ _ _ _ hs hbefore hx
    refine ⟨s', hs', fun fuel hfuel rest _ => ?_⟩
    obtain ⟨fuel, rfl⟩ := Nat.exists_eq_add_one.mpr hfuel
    have split : before ++ (t ++ after) ++ [b.close] ++ rest =
        (before ++ t) ++ (after ++ b.close :: rest) := by simp
    rw [split, bind_apply, reads _ (.of_blanks hafter (.close b rest))]
    exact itemsFrom_close hafter fuel false s' rest
  | @more x y ys before t after more hbefore hx hafter _ ih =>
    intro s hs
    obtain ⟨s₁, reads, hs₁⟩ := step _ _ _ _ _ hs hbefore hx
    obtain ⟨s', hs', hmore⟩ := ih (List.cons_ne_nil y ys) s₁ hs₁
    refine ⟨s', hs', fun fuel hfuel rest _ => ?_⟩
    obtain ⟨fuel, rfl⟩ : ∃ n, fuel = n + 1 := ⟨fuel - 1, by simp at hfuel; omega⟩
    have split : before ++ (t ++ (after ++ ',' :: more)) ++ [b.close] ++ rest =
        (before ++ t) ++ (after ++ ',' :: (more ++ [b.close] ++ rest)) := by simp
    rw [split, bind_apply, reads _ (.of_blanks hafter (.comma _))]
    show itemsFrom b.close item (fuel + 1) false s₁ _ = _
    rw [itemsFrom_comma hafter]
    exact hmore fuel (Nat.le_of_succ_le_succ hfuel) rest trivial

/-- Items between brackets, where each of them starts with a quote. -/
theorem reads_items
    (step : Advances Kind item Inv)
    (hquote : Quoted Kind)
    {xs : List α} {t : Text} (h : Listed Kind xs t) {s : σ} (hs : Inv xs s) :
    ∃ s', Inv [] s' ∧ Reads Anything (items b.close item s) (t ++ [b.close]) s' := by
  cases xs with
  | nil =>
    cases h with
    | none ht =>
      refine ⟨s, hs, fun rest _ => ?_⟩
      rw [items_apply, List.append_assoc]
      exact itemsFrom_close ht _ true s rest
  | cons x xs =>
    have short := h.length_le hquote
    obtain ⟨before, t', hbefore, rfl, h'⟩ := h.exists_first hquote
    obtain ⟨s', hs', reads⟩ := reads_itemsFrom (b := b) step h' (List.cons_ne_nil x xs) s hs
    refine ⟨s', hs', fun rest _ => ?_⟩
    have split : before ++ '"' :: t' ++ [b.close] ++ rest =
        before ++ '"' :: (t' ++ [b.close] ++ rest) := by simp
    have enough : (x :: xs).length ≤ (before ++ '"' :: t' ++ [b.close] ++ rest).length := by
      simp only [List.length_append] at short ⊢
      omega
    rw [items_apply]
    rw [split] at enough ⊢
    rw [itemsFrom_first hbefore]
    exact reads _ enough rest trivial

end Items

theorem reads_texts {ss : List String} {inner before : Text} (hbefore : Blanks before)
    (h : Listed StringFor ss inner) :
    Reads Anything texts (before ++ '[' :: (inner ++ [']'])) ss := by
  have step : Advances StringFor (fun seen => (· :: seen) <$> text)
      (fun rest seen => seen.reverse ++ rest = ss) := by
    intro s rest seen before t hs hb ht
    exact ⟨s :: seen, ((reads_text ht hb).map rfl).ends, by simpa using hs⟩
  obtain ⟨seen, hseen, reads⟩ :=
    reads_items (b := .list) step (fun _ _ ht => ht.head?) h (s := []) rfl
  intro rest hrest
  rw [texts, blanks_bind, List.append_assoc, skipBlanks_append hbefore, List.cons_append,
    skipBlanks_cons rfl, optional_bind rfl, ← hseen, List.append_nil]
  exact reads.map rfl rest hrest

end SymbolTable.Json
