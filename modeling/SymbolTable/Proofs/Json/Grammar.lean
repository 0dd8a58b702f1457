/-
# What JSON text is

The grammar of JSON, as relations between texts and what they stand for.  Nothing here reads
anything: a text is taken apart into pieces, and each piece is of a kind.

There are two grammars of strings, because there are two ways to look at a string.  One that is
used stands for a text, and its escapes have to spell the characters of that text, as UTF-16 units
where they are given by number (`StringFor`).  One that nobody uses only has to be well formed
(`StringBody`).

* `Listed`: things with commas between them;
* `Derives .value`: any value at all, nested as deep as it likes.
-/
import SymbolTable.Json.Values

namespace SymbolTable.Json

/-! ## 1. Blanks and lists -/

/-- Any number of blanks. -/
def Blanks (t : Text) : Prop := ∀ c ∈ t, c ∈ [' ', '\t', '\n', '\r']

instance : DecidablePred Blanks := fun t => List.decidableBAll (· ∈ [' ', '\t', '\n', '\r']) t

theorem blanks_nil : Blanks [] := by decide

/-- Things of one kind with commas between them and blanks around them. -/
inductive Listed {α : Type} (Kind : α → Text → Prop) : List α → Text → Prop where
  | none {t : Text} : Blanks t → Listed Kind [] t
  | last {x : α} {before t after : Text} : Blanks before → Kind x t → Blanks after →
      Listed Kind [x] (before ++ (t ++ after))
  | more {x y : α} {ys : List α} {before t after rest : Text} :
      Blanks before → Kind x t → Blanks after → Listed Kind (y :: ys) rest →
      Listed Kind (x :: y :: ys) (before ++ (t ++ (after ++ ',' :: rest)))

/-! ## 2. Strings -/

/-- A hexadecimal digit, in either case. -/
def HexDigit (d : Nat) (c : Char) : Prop :=
  "0123456789abcdef".toList[d]? = some c ∨ "0123456789ABCDEF".toList[d]? = some c

instance (d : Nat) (c : Char) : Decidable (HexDigit d c) :=
  inferInstanceAs (Decidable (_ ∨ _))

/-- An escape that gives a UTF-16 unit by its number. -/
inductive UnitEscape : (unit : Nat) → Text → Prop where
  | mk {i j k l : Nat} {a b c d : Char} :
      HexDigit i a → HexDigit j b → HexDigit k c → HexDigit l d →
      UnitEscape (((i * 16 + j) * 16 + k) * 16 + l) ['\\', 'u', a, b, c, d]

/-- The UTF-16 units of a character. -/
def utf16 (c : Char) : List Nat :=
  if c.toNat < 0x10000 then [c.toNat]
  else [0xD800 + (c.toNat - 0x10000) / 0x400, 0xDC00 + (c.toNat - 0x10000) % 0x400]

/-- The letters of short escapes, with the characters that they stand for. -/
def shortEscapes : List (Char × Char) :=
  [('"', '"'), ('\\', '\\'), ('/', '/'), ('b', '\x08'), ('f', '\x0c'), ('n', '\n'), ('r', '\r'),
    ('t', '\t')]

/-- A character that stands for itself. -/
def IsPlain (c : Char) : Prop := ' ' ≤ c ∧ c ≠ '"' ∧ c ≠ '\\'

instance : DecidablePred IsPlain := fun _ => inferInstanceAs (Decidable (_ ∧ _))

/-- The ways to write a character in a string. -/
inductive Written : Char → Text → Prop where
  | plain {c : Char} : IsPlain c → Written c [c]
  | short {e c : Char} : (e, c) ∈ shortEscapes → Written c ['\\', e]
  | unit {c : Char} {u : Nat} {t : Text} : utf16 c = [u] → UnitEscape u t → Written c t
  | pair {c : Char} {u u' : Nat} {t t' : Text} :
      utf16 c = [u, u'] → UnitEscape u t → UnitEscape u' t' → Written c (t ++ t')

/-- Characters, each written in one of its ways. -/
inductive Spelled : List Char → Text → Prop where
  | nil : Spelled [] []
  | cons {c : Char} {cs : List Char} {t rest : Text} :
      Written c t → Spelled cs rest → Spelled (c :: cs) (t ++ rest)

/-- A string that stands for `s`. -/
def StringFor (s : String) (t : Text) : Prop :=
  ∃ body, Spelled s.toList body ∧ t = '"' :: (body ++ ['"'])

/-- What may stand in a string, whatever it stands for.  Units need not come in pairs. -/
inductive Piece : Text → Prop where
  | plain {c : Char} : IsPlain c → Piece [c]
  | short {e c : Char} : (e, c) ∈ shortEscapes → Piece ['\\', e]
  | unit {u : Nat} {t : Text} : UnitEscape u t → Piece t

/-- What stands between the quotes of a string. -/
inductive StringBody : Text → Prop where
  | nil : StringBody []
  | cons {t rest : Text} : Piece t → StringBody rest → StringBody (t ++ rest)

/-- A member of an object: its key, and after a colon a value of some kind. -/
def Member (key : String) (Kind : Text → Prop) (t : Text) : Prop :=
  ∃ name between after value, StringFor key name ∧ Blanks between ∧ Blanks after ∧ Kind value ∧
    t = name ++ (between ++ ':' :: (after ++ value))

/-! ## 3. Numbers -/

/-- At least one digit. -/
def Digits (t : Text) : Prop := t ≠ [] ∧ ∀ c ∈ t, '0' ≤ c ∧ c ≤ '9'

/-- A leading zero is the only digit. -/
def WholePart (t : Text) : Prop := Digits t ∧ (t.head? = some '0' → t = ['0'])

def FractionPart (t : Text) : Prop := t = [] ∨ ∃ ds, Digits ds ∧ t = '.' :: ds

def ExponentPart (t : Text) : Prop :=
  t = [] ∨ ∃ e ∈ ['e', 'E'], ∃ sign ∈ [[], ['+'], ['-']], ∃ ds, Digits ds ∧ t = e :: (sign ++ ds)

def IsNumber (t : Text) : Prop :=
  ∃ sign ∈ [[], ['-']], ∃ whole fraction exponent, WholePart whole ∧ FractionPart fraction ∧
    ExponentPart exponent ∧ t = sign ++ (whole ++ (fraction ++ exponent))

/-! ## 4. Values -/

def Bracket.opening : Bracket → Char
  | list => '['
  | object => '{'

/-- What comes before a value inside brackets: blanks, and in an object a key. -/
def IsLabel : Bracket → Text → Prop
  | .list, t => Blanks t
  | .object, t => ∃ before body between after, Blanks before ∧ StringBody body ∧ Blanks between ∧
      Blanks after ∧ t = before ++ '"' :: (body ++ '"' :: (between ++ ':' :: after))

/-- What the grammar of values is about: values, and what stands between brackets that are not
empty. -/
inductive Symbol where
  | value
  | items (b : Bracket)

inductive Derives : Symbol → Text → Prop where
  | literal {word : String} : word ∈ ["true", "false", "null"] → Derives .value word.toList
  | number {t : Text} : IsNumber t → Derives .value t
  | string {body : Text} : StringBody body → Derives .value ('"' :: (body ++ ['"']))
  | empty {b : Bracket} {t : Text} : Blanks t → Derives .value (b.opening :: (t ++ [b.close]))
  | filled {b : Bracket} {t : Text} : Derives (.items b) t →
      Derives .value (b.opening :: (t ++ [b.close]))
  | last {b : Bracket} {label value after : Text} : IsLabel b label → Derives .value value →
      Blanks after → Derives (.items b) (label ++ (value ++ after))
  | more {b : Bracket} {label value after rest : Text} : IsLabel b label → Derives .value value →
      Blanks after → Derives (.items b) rest →
      Derives (.items b) (label ++ (value ++ (after ++ ',' :: rest)))

/-! ## 5. Every text can be written -/

theorem exists_hexDigit {d : Nat} (h : d < 16) : ∃ c, HexDigit d c := by
  have hlength : d < "0123456789abcdef".toList.length := h
  exact ⟨_, .inl (List.getElem?_eq_getElem hlength)⟩

theorem exists_unitEscape {u : Nat} (h : u < 0x10000) : ∃ t, UnitEscape u t := by
  obtain ⟨a, ha⟩ := exists_hexDigit (d := u / 0x1000) (by omega)
  obtain ⟨b, hb⟩ := exists_hexDigit (d := u / 0x100 % 16) (by omega)
  obtain ⟨c, hc⟩ := exists_hexDigit (d := u / 16 % 16) (by omega)
  obtain ⟨d, hd⟩ := exists_hexDigit (d := u % 16) (by omega)
  have hu : ((u / 0x1000 * 16 + u / 0x100 % 16) * 16 + u / 16 % 16) * 16 + u % 16 = u := by omega
  have escape := UnitEscape.mk ha hb hc hd
  rw [hu] at escape
  exact ⟨_, escape⟩

/-- Only the characters below a blank, a quote and a backslash need an escape. -/
theorem exists_written (c : Char) : ∃ t, Written c t := by
  by_cases hplain : IsPlain c
  · exact ⟨_, .plain hplain⟩
  by_cases hquote : c = '"'
  · exact ⟨['\\', '"'], .short (by rw [hquote]; decide)⟩
  by_cases hbackslash : c = '\\'
  · exact ⟨['\\', '\\'], .short (by rw [hbackslash]; decide)⟩
  have hcontrol : c.toNat < 0x20 := by
    have hlow : ¬ ' ' ≤ c := fun h => hplain ⟨h, hquote, hbackslash⟩
    exact Nat.not_le.mp hlow
  have hunit : utf16 c = [c.toNat] := if_pos (by omega)
  obtain ⟨t, ht⟩ := exists_unitEscape (u := c.toNat) (by omega)
  exact ⟨t, .unit hunit ht⟩

/-- A text of plain characters can be written as it is. -/
theorem stringFor_of_plain {s : String} (h : s.toList.all (IsPlain ·)) :
    StringFor s ('"' :: (s.toList ++ ['"'])) := by
  have hspelled : ∀ cs : List Char, cs.all (IsPlain ·) → Spelled cs cs := by
    intro cs
    induction cs with
    | nil => exact fun _ => .nil
    | cons c cs ih =>
      intro hcs
      rw [List.all_cons, Bool.and_eq_true, decide_eq_true_iff] at hcs
      exact .cons (.plain hcs.1) (ih hcs.2)
  exact ⟨s.toList, hspelled s.toList h, rfl⟩

theorem exists_stringFor (s : String) : ∃ t, StringFor s t := by
  have hspelled : ∀ cs : List Char, ∃ t, Spelled cs t := by
    intro cs
    induction cs with
    | nil => exact ⟨[], .nil⟩
    | cons c cs ih =>
      obtain ⟨t, ht⟩ := exists_written c
      obtain ⟨rest, hrest⟩ := ih
      exact ⟨t ++ rest, .cons ht hrest⟩
  obtain ⟨body, hbody⟩ := hspelled s.toList
  exact ⟨_, body, hbody, rfl⟩

theorem exists_listed {α : Type} {Kind : α → Text → Prop} (h : ∀ x, ∃ t, Kind x t)
    (xs : List α) : ∃ t, Listed Kind xs t := by
  induction xs with
  | nil => exact ⟨[], .none blanks_nil⟩
  | cons x xs ih =>
    obtain ⟨t, ht⟩ := h x
    cases xs with
    | nil => exact ⟨_, .last blanks_nil ht blanks_nil⟩
    | cons y ys =>
      obtain ⟨rest, hrest⟩ := ih
      exact ⟨_, .more blanks_nil ht blanks_nil hrest⟩

/-- A member without blanks. -/
theorem Member.bare {name : String} {Kind : Text → Prop} {named value : Text}
    (hname : StringFor name named) (h : Kind value) : Member name Kind (named ++ ':' :: value) :=
  ⟨named, [], [], value, hname, blanks_nil, blanks_nil, h, rfl⟩

theorem exists_member (name : String) {Kind : Text → Prop} (h : ∃ t, Kind t) :
    ∃ t, Member name Kind t := by
  obtain ⟨named, hnamed⟩ := exists_stringFor name
  obtain ⟨value, hvalue⟩ := h
  exact ⟨_, .bare hnamed hvalue⟩

end SymbolTable.Json
