/-
# What a document says

A document describes settings if it is an object whose members give them: each setting at most
once, in any order, the standard ones left out or not, and members of other names anywhere between
them.  Such a document is read as those settings.

The two objects, of settings and of a save policy, are read by the same argument.  What has been
read so far agrees with the settings, except in what the members that are still to come will give
(`Settings.Owes`); and what has been seen of a policy is what the members so far say
(`SavePolicy.seen`).  Each member keeps this, and at the end nothing is owed.

* `SavePolicy.reads_read`, `Settings.reads_read`: the two objects;
* `Settings.ofFile_of_describes`: a file with such a document gives those settings.
-/
import SymbolTable.Settings.Document
import SymbolTable.Proofs.Json.Passing

namespace SymbolTable

open Json

/-! ## 1. Documents -/

namespace SavePolicy

/-- The type of a policy. -/
def tag : SavePolicy → Tag
  | everyFile => .everyFile
  | everyFiles _ => .everyFiles
  | atEnd => .atEnd

def Tag.name : Tag → String
  | everyFile => "every_file"
  | everyFiles => "every_n"
  | atEnd => "at_end"

/-- What the members of an object say about a policy. -/
inductive Part where
  | type
  | files (n : Nat)
deriving DecidableEq, Repr

def parts : SavePolicy → List Part
  | everyFiles n => [.type, .files n]
  | _ => [.type]

def PartText (p : SavePolicy) : Part → Text → Prop
  | .type => Member "type" (StringFor p.tag.name)
  | .files n => Member "files" fun t => t = Nat.toDigits 10 n

/-- The text is an object with the members of the policy, in some order. -/
def Describes (p : SavePolicy) (t : Text) : Prop :=
  ∃ parts inner, parts.Perm p.parts ∧ Listed p.PartText parts inner ∧ t = '{' :: (inner ++ ['}'])

end SavePolicy

namespace Settings

/-- The two settings agree in a field. -/
def Field.Agree (s c : Settings) : Field → Prop
  | .snapshotPath => s.snapshotPath = c.snapshotPath
  | .sourceRoot => s.sourceRoot = c.sourceRoot
  | .extensions => s.extensions = c.extensions
  | .policy => s.policy = c.policy

/-- The text is the value of a field. -/
def ValueText (c : Settings) : Field → Text → Prop
  | .snapshotPath => StringFor c.snapshotPath
  | .sourceRoot => StringFor c.sourceRoot
  | .extensions => fun t =>
    ∃ inner, Listed StringFor c.extensions inner ∧ t = '[' :: (inner ++ [']'])
  | .policy => c.policy.Describes

/-- A member that gives a field, or one of another name with any value. -/
def MemberText (c : Settings) : Option Field → Text → Prop
  | some f => Member f.key (c.ValueText f)
  | none => fun t => ∃ name, (∀ f : Field, name ≠ f.key) ∧ Member name (Derives .value) t

/-- The text is an object that gives the settings.  A field is given at most once, and one that
is left out has its standard value. -/
def Describes (c : Settings) (text : String) : Prop :=
  ∃ members before inner after, Blanks before ∧ Blanks after ∧ Listed c.MemberText members inner ∧
    text.toList = before ++ '{' :: (inner ++ '}' :: after) ∧
    (members.filterMap id).Nodup ∧ ∀ f, some f ∉ members → f.Agree standard c

end Settings

/-! ## 2. Save policies -/

theorem notMem_of_nodup {α : Type} {l l' : List α} {x : α} (h : (l ++ x :: l').Nodup) : x ∉ l :=
  fun hx => (List.nodup_append.mp h).2.2 x hx x List.mem_cons_self rfl

namespace SavePolicy

/-- Any policy has a text. -/
theorem exists_describes (p : SavePolicy) : ∃ t, p.Describes t := by
  have parts : ∀ part, ∃ t, p.PartText part t := by
    rintro (_ | n)
    · exact exists_member "type" (exists_stringFor p.tag.name)
    · exact exists_member "files" ⟨_, rfl⟩
  obtain ⟨inner, hinner⟩ := exists_listed parts p.parts
  exact ⟨_, p.parts, inner, List.Perm.refl _, hinner, rfl⟩

theorem Tag.ofString?_name (tag : Tag) : Tag.ofString? tag.name = some tag := by
  cases tag <;> rfl

theorem reads_readTag {tag : Tag} {t before : Text} (h : StringFor tag.name t)
    (hbefore : Blanks before) : Reads Anything readTag (before ++ t) tag := by
  rw [readTag, ← List.append_nil (before ++ t)]
  refine (reads_text h hbefore).bind ?_
  rw [tag.ofString?_name]
  exact .pure tag

/-- The number of files that a member gives. -/
def Part.files? : Part → Option (Option Nat)
  | type => none
  | files n => some (some n)

/-- What members say about a policy. -/
def seen (p : SavePolicy) (parts : List Part) : Members :=
  ⟨if .type ∈ parts then some p.tag else none, parts.filterMap Part.files?⟩

/-- All members of a policy say what it is. -/
theorem policy?_seen {p : SavePolicy} {parts : List Part} (h : parts.Perm p.parts) :
    (p.seen parts).policy? = some p := by
  have htype : .type ∈ parts := by
    rw [h.mem_iff]
    cases p <;> simp [SavePolicy.parts]
  cases p with
  | everyFile | atEnd => simp [seen, htype, tag, Members.policy?]
  | everyFiles n =>
    have hfiles : parts.filterMap Part.files? = [some n] :=
      List.perm_singleton.mp (h.filterMap Part.files?)
    simp [seen, htype, hfiles, tag, Members.policy?]

theorem nodup_parts (p : SavePolicy) : p.parts.Nodup := by cases p <;> simp [parts]

theorem seen_append (p : SavePolicy) {done : List Part} (part : Part) (h : part ∉ done) :
    p.seen (done ++ [part]) =
      match part with
      | .type => ⟨some p.tag, (p.seen done).files⟩
      | .files n => ⟨(p.seen done).tag, (p.seen done).files ++ [some n]⟩ := by
  cases part <;> simp [seen, Part.files?]

theorem reads_readMember {p : SavePolicy} (hp : ∀ n, p = everyFiles n → n < 2 ^ 64)
    {done : List Part} {part : Part} (hpart : part ∈ p.parts) (hdone : part ∉ done)
    {t before : Text} (h : p.PartText part t) (hbefore : Blanks before) :
    Reads Ends (readMember (p.seen done)) (before ++ t) (p.seen (done ++ [part])) := by
  rw [seen_append p part hdone]
  cases part with
  | type =>
    have hnone : (p.seen done).tag = none := by simp [seen, hdone]
    refine h.reads (do
      let tag ← readTag
      pure { p.seen done with tag := some tag }) hbefore ?_ fun after value hafter hvalue => ?_
    · simp [hnone]
    · exact ((reads_readTag hvalue hafter).bind_pure rfl).ends
  | files n =>
    have hn : n < 2 ^ 64 := by
      cases p with
      | everyFiles m =>
        obtain rfl : n = m := by simpa [parts] using hpart
        exact hp n rfl
      | everyFile | atEnd => simp [parts] at hpart
    refine h.reads (do
      let value ← Json.natural? 2
      pure { p.seen done with files := (p.seen done).files ++ [value] }) hbefore ?_
      fun after value hafter hvalue => ?_
    · simp
    · subst hvalue
      exact (reads_natural? hn 2 hafter).bind_pure rfl

theorem reads_read {p : SavePolicy} (hp : ∀ n, p = everyFiles n → n < 2 ^ 64) {t before : Text}
    (h : p.Describes t) (hbefore : Blanks before) : Reads Anything read (before ++ t) p := by
  obtain ⟨ps, inner, hperm, hlisted, rfl⟩ := h
  have step : Advances p.PartText readMember fun rest members =>
      ∃ done, (done ++ rest).Perm p.parts ∧ members = p.seen done := by
    rintro part rest _ before t ⟨done, hdone, rfl⟩ hbefore ht
    have hnodup := hdone.nodup_iff.mpr p.nodup_parts
    have hpart : part ∈ p.parts := hdone.subset (by simp)
    have hread := reads_readMember hp hpart (notMem_of_nodup hnodup) ht hbefore
    exact ⟨_, hread, done ++ [part], by simpa using hdone, rfl⟩
  have quoted : Quoted p.PartText := by
    intro part t ht
    cases part <;> exact ht.head?
  obtain ⟨_, ⟨done, hdone, rfl⟩, hread⟩ :=
    reads_items (b := .object) step quoted hlisted ⟨[], hperm, rfl⟩
  rw [List.append_nil] at hdone
  have hobject : Reads Anything (items '}' readMember ⟨none, []⟩ >>= fun members =>
      orMismatch members.policy?) ((inner ++ ['}']) ++ []) p := by
    refine hread.bind ?_
    rw [policy?_seen hdone]
    exact .pure p
  rw [List.append_nil] at hobject
  intro rest _
  rw [read, blanks_bind, List.append_assoc, skipBlanks_append hbefore, List.cons_append,
    skipBlanks_cons rfl, look_bind]
  exact hobject rest trivial

end SavePolicy

/-! ## 3. Settings -/

namespace Settings

theorem Field.ofKey?_key (f : Field) : ofKey? f.key = some f := by
  cases f <;> decide

theorem Field.ofKey?_of_ne {name : String} (h : ∀ f : Field, name ≠ f.key) :
    ofKey? name = none := by
  rw [ofKey?, List.find?_eq_none]
  intro f _
  simpa using (h f).symm

/-- Any settings have a document. -/
theorem exists_describes (c : Settings) : ∃ text, c.Describes text := by
  have values : ∀ f, ∃ t, c.ValueText f t := by
    rintro (_ | _ | _ | _)
    · exact exists_stringFor c.snapshotPath
    · exact exists_stringFor c.sourceRoot
    · obtain ⟨inner, hinner⟩ := exists_listed exists_stringFor c.extensions
      exact ⟨_, inner, hinner, rfl⟩
    · exact c.policy.exists_describes
  have members : ∀ member, ∃ t, c.MemberText member t := by
    rintro (_ | f)
    · have null : Derives .value "null".toList := .literal (by decide)
      obtain ⟨t, ht⟩ := exists_member "" ⟨_, null⟩
      exact ⟨t, "", fun f => by cases f <;> decide, ht⟩
    · exact exists_member f.key (values f)
  obtain ⟨inner, hinner⟩ := exists_listed members (Field.all.map some)
  refine ⟨String.ofList ('{' :: (inner ++ ['}'])), Field.all.map some, [], inner, [],
    blanks_nil, blanks_nil, hinner, by simp, by decide, fun f hf => ?_⟩
  exact absurd (by cases f <;> decide) hf

/-- The settings agree once they agree in every field. -/
theorem eq_of_agree {s c : Settings} (h : ∀ f : Field, f.Agree s c) : s = c := by
  obtain ⟨snapshotPath, sourceRoot, extensions, policy⟩ := s
  obtain rfl : snapshotPath = c.snapshotPath := h .snapshotPath
  obtain rfl : sourceRoot = c.sourceRoot := h .sourceRoot
  obtain rfl : extensions = c.extensions := h .extensions
  obtain rfl : policy = c.policy := h .policy
  rfl

/-- The settings `s` with a field of `c`. -/
def Field.put (s c : Settings) : Field → Settings
  | snapshotPath => { s with snapshotPath := c.snapshotPath }
  | sourceRoot => { s with sourceRoot := c.sourceRoot }
  | extensions => { s with extensions := c.extensions }
  | policy => { s with policy := c.policy }

theorem Field.agree_put_iff {s c : Settings} (f g : Field) :
    g.Agree (f.put s c) c ↔ g = f ∨ g.Agree s c := by
  cases f <;> cases g <;> simp [put, Agree]

/-- A field is read from its value, and the other fields stay. -/
theorem reads_readField {c : Settings} (hc : ∀ n, c.policy = .everyFiles n → n < 2 ^ 64)
    {f : Field} {t before : Text} (h : c.ValueText f t) (hbefore : Blanks before) (s : Settings) :
    Reads Anything (readField s f) (before ++ t) (f.put s c) := by
  cases f with
  | snapshotPath | sourceRoot => exact (reads_text h hbefore).map rfl
  | extensions =>
    obtain ⟨inner, hlisted, rfl⟩ := h
    exact (reads_texts hbefore hlisted).map rfl
  | policy => exact (SavePolicy.reads_read hc h hbefore).map rfl

/-- The fields that neither have been given nor are still to come agree already. -/
def Owes (c : Settings) (members : List (Option Field)) (draft : Draft) : Prop :=
  (draft.given ++ members.filterMap id).Nodup ∧
    ∀ f, some f ∉ members → f.Agree draft.settings c

theorem advances {c : Settings} (hc : ∀ n, c.policy = .everyFiles n → n < 2 ^ 64) :
    Advances c.MemberText readMember c.Owes := by
  rintro member rest draft before t ⟨hnodup, hagree⟩ hbefore ht
  cases member with
  | none =>
    obtain ⟨name, hname, hmember⟩ := ht
    refine ⟨draft, ?_, by simpa using hnodup, fun f hf => hagree f (by simpa using hf)⟩
    refine hmember.reads (do
      Json.pass .skipped 1
      pure draft) hbefore ?_ fun after value hafter hvalue => ?_
    · rw [Field.ofKey?_of_ne hname]
    · exact (reads_pass hvalue hafter 1).bind_pure rfl
  | some f =>
    have hgiven : f ∉ draft.given := notMem_of_nodup hnodup
    refine ⟨⟨f.put draft.settings c, draft.given ++ [f]⟩, ?_, by simpa using hnodup, ?_⟩
    · refine ht.reads (draft.read f) hbefore ?_ fun after value hafter hvalue => ?_
      · rw [Field.ofKey?_key]
        exact if_neg hgiven
      · exact ((reads_readField hc hvalue hafter draft.settings).map rfl).ends
    · intro g hg
      rw [Field.agree_put_iff]
      by_cases hgf : g = f
      · exact .inl hgf
      · exact .inr (hagree g (by simp [hgf, hg]))

theorem reads_read {c : Settings} (hc : ∀ n, c.policy = .everyFiles n → n < 2 ^ 64)
    {members : List (Option Field)} {before inner : Text} (hbefore : Blanks before)
    (h : Listed c.MemberText members inner) (hnodup : (members.filterMap id).Nodup)
    (hrest : ∀ f, some f ∉ members → f.Agree standard c) :
    Reads Anything read (before ++ '{' :: (inner ++ ['}'])) c := by
  have quoted : Quoted c.MemberText := by
    rintro (_ | f) t ht
    · obtain ⟨name, -, hmember⟩ := ht
      exact hmember.head?
    · exact ht.head?
  obtain ⟨draft, ⟨-, hdraft⟩, hread⟩ :=
    reads_items (b := .object) (advances hc) quoted h (s := ⟨standard, []⟩) ⟨hnodup, hrest⟩
  have hsettings : draft.settings = c := eq_of_agree fun f => hdraft f List.not_mem_nil
  intro rest _
  rw [read, blanks_bind, List.append_assoc, skipBlanks_append hbefore, List.cons_append,
    skipBlanks_cons rfl, look_bind]
  exact hread.map hsettings rest trivial

/-- A document that describes settings gives them. -/
theorem ofDocument_of_describes {c : Settings}
    (hc : ∀ n, c.policy = .everyFiles n → n < 2 ^ 64) {text : String} (h : c.Describes text) :
    ofDocument text = .ok c := by
  obtain ⟨members, before, inner, after, hbefore, hafter, hlisted, htext, hnodup, hrest⟩ := h
  have hread := reads_read hc hbefore hlisted hnodup hrest after trivial
  have hsplit : text.toList = before ++ '{' :: (inner ++ ['}']) ++ after := by simp [htext]
  have hend : skipBlanks after = [] := by
    rw [← List.append_nil after, skipBlanks_append hafter]
    rfl
  rw [ofDocument, document, hsplit, hread]
  show (if skipBlanks after = [] then _ else _) = _
  rw [if_pos hend]
  rfl

/-- **A file with a document that describes settings gives them**, whatever else the document
holds. -/
theorem ofFile_of_describes {c : Settings} (hc : ∀ n, c.policy = .everyFiles n → n < 2 ^ 64)
    {text : String} (h : c.Describes text) {files : FileTree} {path : String}
    (hfile : files.read path = .ok (utf8 text)) : ofFile files path = .ok c := by
  have htext : files.readText path = .ok text := by
    simp only [FileTree.readText, hfile, bind, Except.bind, utf8?_utf8]
  rw [ofFile, htext]
  show (ofDocument text).mapError ReadError.invalid = _
  rw [ofDocument_of_describes hc h]
  rfl

/-- A member of another name, the number of files before the type, escapes, and a field that is
left out. -/
def shuffledText : String :=
  " \x7b\"x\":[\"\\ud800\", \x7b\x7d], " ++
    "\"checkpoint\":\x7b\"files\":18446744073709551615, \"type\":\"every_n\"\x7d," ++
    "\"extensions\":[\"\\ud83d\\ude00\"],\"source_root\":\"l\\u0069b\"\x7d\n"

def shuffled : Settings := ⟨".symtab", "lib", ["😀"], .everyFiles 18446744073709551615⟩

theorem describes_shuffled : shuffled.Describes shuffledText := by
  have space : Blanks [' '] := by decide
  have named (s : String) (h : s.toList.all (IsPlain ·)) := stringFor_of_plain h
  have lone : UnitEscape 0xD800 ['\\', 'u', 'd', '8', '0', '0'] :=
    .mk (i := 13) (j := 8) (k := 0) (l := 0) (by decide) (by decide) (by decide) (by decide)
  have low : UnitEscape 0xDE00 ['\\', 'u', 'd', 'e', '0', '0'] :=
    .mk (i := 13) (j := 14) (k := 0) (l := 0) (by decide) (by decide) (by decide) (by decide)
  have high : UnitEscape 0xD83D ['\\', 'u', 'd', '8', '3', 'd'] :=
    .mk (i := 13) (j := 8) (k := 3) (l := 13) (by decide) (by decide) (by decide) (by decide)
  have letter : UnitEscape 0x69 ['\\', 'u', '0', '0', '6', '9'] :=
    .mk (i := 0) (j := 0) (k := 6) (l := 9) (by decide) (by decide) (by decide) (by decide)
  have first : IsLabel .list [] := blanks_nil
  have value := Derives.filled (.more first (.string (.cons (.unit lone) .nil)) blanks_nil
    (.last space (.empty (b := .object) blanks_nil) blanks_nil))
  have skipped : shuffled.MemberText none _ :=
    ⟨"x", fun f => by cases f <;> decide, .bare (named "x" (by decide)) value⟩
  have files : shuffled.policy.PartText (.files 18446744073709551615) _ :=
    .bare (named "files" (by decide)) rfl
  have type : shuffled.policy.PartText .type _ :=
    .bare (named "type" (by decide)) (named "every_n" (by decide))
  have policy : shuffled.MemberText (some .policy) _ :=
    .bare (named "checkpoint" (by decide)) ⟨_, _, List.Perm.swap _ _ _,
      .more blanks_nil files blanks_nil (.last space type blanks_nil), rfl⟩
  have smile : StringFor "😀" _ := ⟨_, .cons (.pair (c := '😀') (by decide) high low) .nil, rfl⟩
  have extensions : shuffled.MemberText (some .extensions) _ :=
    .bare (named "extensions" (by decide)) ⟨_, .last blanks_nil smile blanks_nil, rfl⟩
  have lib : StringFor "lib" _ :=
    ⟨_, .cons (.plain (c := 'l') (by decide)) (.cons (.unit (c := 'i') (by decide) letter)
      (.cons (.plain (c := 'b') (by decide)) .nil)), rfl⟩
  have sourceRoot : shuffled.MemberText (some .sourceRoot) _ :=
    .bare (named "source_root" (by decide)) lib
  refine ⟨[none, some .policy, some .extensions, some .sourceRoot], [' '], _, ['\n'], space,
    by decide, .more blanks_nil skipped blanks_nil (.more space policy blanks_nil
      (.more blanks_nil extensions blanks_nil (.last blanks_nil sourceRoot blanks_nil))),
    by decide +kernel, by decide, fun f hf => ?_⟩
  cases f with
  | snapshotPath => rfl
  | sourceRoot | extensions | policy => exact absurd (by decide) hf

theorem ofFile_shuffled :
    let files : FileTree := ⟨.file ⟨"s", by decide⟩ (utf8 shuffledText) .empty,
      ⟨List.forall_mem_nil _, trivial⟩⟩
    shuffled.Describes shuffledText ∧ files.read "s" = .ok (utf8 shuffledText) ∧
      ofFile files "s" = .ok shuffled := by
  intro files
  have hread : files.read "s" = .ok (utf8 shuffledText) := rfl
  have hpolicy : ∀ n, shuffled.policy = .everyFiles n → n < 2 ^ 64 := by
    rintro n h
    obtain rfl : 18446744073709551615 = n := by simpa [shuffled] using h
    decide
  exact ⟨describes_shuffled, hread, ofFile_of_describes hpolicy describes_shuffled hread⟩

end Settings

end SymbolTable
