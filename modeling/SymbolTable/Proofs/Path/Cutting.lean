/-
# Where a path is cut

A path is cut at the last place at which a separator starts.  Separators overlap: in `A:::B` one
starts at each of the first two colons, and the later one counts.  So a name that is joined to a
path need not come off again when the result is cut.  It does if no separator starts after the one
that was put in between, and that depends on this separator and the name alone: the name has no
separator in it, and after `::` it does not start with a colon.

* `splitLast_eq_none_iff`, `splitLast_eq_some_iff`: a text is cut at its last separator, if it has
  one;
* `splitLast_append_token_iff`: whether a separator is the last one shows in what follows it;
* `name_join_iff`, `parent?_join_iff`: when a joined name comes off again;
* `child_eq_atPath_iff`: when the path of a new entity says what the entity lies in.
-/
import SymbolTable.Entity
import Mathlib.Data.List.TFAE

namespace SymbolTable

/-! ## 1. Separators in a text -/

/-- No separator stands anywhere in the text. -/
def Plain (cs : List Char) : Prop := ∀ sep : Separator, ¬ sep.token.toList <:+: cs

/-- The last place at which a separator starts in a text: what stands before it, the separator, and
what stands after it. -/
structure LastSeparator (cs before : List Char) (sep : Separator) (after : List Char) : Prop where
  text : cs = before ++ sep.token.toList ++ after
  last : ∀ before' (sep' : Separator) after', cs = before' ++ sep'.token.toList ++ after' →
    before'.length ≤ before.length

namespace Separator

/-- After this separator the text has no other one, not even one that begins in the separator
itself. -/
structure Precedes (sep : Separator) (after : List Char) : Prop where
  plain : Plain after
  no_colon : sep = nested → after.head? ≠ some ':'

variable {sep sep' : Separator} {x y : List Char}

theorem token_append_inj (h : sep.token.toList ++ x = sep'.token.toList ++ y) :
    sep = sep' ∧ x = y := by
  cases sep <;> cases sep' <;> simp_all [token]

/-- Both tokens read the same from behind. -/
theorem append_token_inj (h : x ++ sep.token.toList = y ++ sep'.token.toList) :
    x = y ∧ sep = sep' := by
  have hmirror : ∀ s : Separator, s.token.toList.reverse = s.token.toList := by
    intro s
    cases s <;> rfl
  have hreverse := congrArg List.reverse h
  rw [List.reverse_append, List.reverse_append, hmirror, hmirror] at hreverse
  obtain ⟨hsep, hxy⟩ := token_append_inj hreverse
  exact ⟨List.reverse_inj.mp hxy, hsep⟩

theorem atStart_eq_none_iff {cs : List Char} :
    atStart cs = none ↔ ∀ sep : Separator, ¬ sep.token.toList <+: cs := by
  constructor
  · rintro h sep ⟨after, rfl⟩
    cases sep <;> simp [token, atStart] at h
  · intro h
    cases hat : atStart cs with
    | none => rfl
    | some found =>
      obtain ⟨sep, after⟩ := found
      exact absurd ⟨after, (atStart_eq_append hat).symm⟩ (h sep)

end Separator

namespace Path

open Separator

/-! ## 2. The last separator -/

theorem splitLast_eq_none_iff {cs : List Char} : splitLast cs = none ↔ Plain cs := by
  unfold Plain
  induction cs with
  | nil =>
    simp only [splitLast, List.infix_nil, true_iff]
    intro sep
    cases sep <;> decide
  | cons c rest ih =>
    have hsplit : splitLast (c :: rest) = none ↔
        splitLast rest = none ∧ atStart (c :: rest) = none := by
      rw [splitLast]
      cases splitLast rest <;> simp
    rw [hsplit, ih, atStart_eq_none_iff, ← forall_and]
    refine forall_congr' fun sep => ?_
    rw [List.infix_cons_iff, not_or, and_comm]

/-- What stands further in front does not count. -/
theorem splitLast_append {cs before after : List Char} {sep : Separator} (front : List Char)
    (h : splitLast cs = some (before, sep, after)) :
    splitLast (front ++ cs) = some (front ++ before, sep, after) := by
  induction front with
  | nil => exact h
  | cons c front ih => rw [List.cons_append, splitLast, ih, List.cons_append]

theorem splitLast_token_append {sep : Separator} {after : List Char} (h : sep.Precedes after) :
    splitLast (sep.token.toList ++ after) = some ([], sep, after) := by
  have hafter : splitLast after = none := splitLast_eq_none_iff.mpr h.plain
  cases sep with
  | member => simp [token, splitLast, hafter, atStart]
  | nested =>
    -- the second colon starts a separator only together with a third one
    have hcolon : atStart (':' :: after) = none := by
      have hhead := h.no_colon rfl
      unfold atStart
      split <;> simp_all
    have hrest : splitLast (':' :: after) = none := by
      rw [splitLast, hafter, hcolon]
      rfl
    show splitLast (':' :: ':' :: after) = some ([], nested, after)
    rw [splitLast, hrest]
    rfl

/-- **A text is cut where its last separator starts.**  The induction goes from the end of the text
to its start: a separator in the rest of the text starts later than one in front. -/
theorem lastSeparator_of_splitLast {cs before after : List Char} {sep : Separator}
    (h : splitLast cs = some (before, sep, after)) : LastSeparator cs before sep after := by
  refine ⟨splitLast_eq_append h, ?_⟩
  induction cs generalizing before with
  | nil => simp [splitLast] at h
  | cons c rest ih =>
    rintro (_ | ⟨d, before'⟩) sep' after' htext
    · exact Nat.zero_le _
    · rw [List.cons_append, List.cons_append, List.cons.injEq] at htext
      cases hrest : splitLast rest with
      | none =>
        have hplain : Plain rest := splitLast_eq_none_iff.mp hrest
        exact absurd ⟨before', after', htext.2.symm⟩ (hplain sep')
      | some found =>
        obtain ⟨inner, sep'', after''⟩ := found
        rw [splitLast, hrest] at h
        simp only [Option.some.injEq, Prod.mk.injEq] at h
        obtain ⟨rfl, rfl, rfl⟩ := h
        exact Nat.succ_le_succ (ih hrest before' sep' after' htext.2)

theorem splitLast_eq_some_iff {cs before after : List Char} {sep : Separator} :
    splitLast cs = some (before, sep, after) ↔ LastSeparator cs before sep after := by
  refine ⟨lastSeparator_of_splitLast, fun h => ?_⟩
  cases hsplit : splitLast cs with
  | none => exact absurd ⟨before, after, h.text.symm⟩ (splitLast_eq_none_iff.mp hsplit sep)
  | some found =>
    obtain ⟨before', sep', after'⟩ := found
    have h' := lastSeparator_of_splitLast hsplit
    have hlength : before.length = before'.length :=
      Nat.le_antisymm (h'.last _ _ _ h.text) (h.last _ _ _ h'.text)
    have htext : before ++ (sep.token.toList ++ after) = before' ++ (sep'.token.toList ++ after') := by
      rw [← List.append_assoc, ← List.append_assoc, ← h.text, ← h'.text]
    obtain ⟨rfl, hrest⟩ := List.append_inj htext hlength
    obtain ⟨rfl, rfl⟩ := token_append_inj hrest
    rfl

/-- **Whether a separator is the last one shows in what follows it.** -/
theorem splitLast_append_token_iff {before after : List Char} {sep : Separator} :
    splitLast (before ++ sep.token.toList ++ after) = some (before, sep, after) ↔
      sep.Precedes after := by
  constructor
  · intro h
    have hlast := (lastSeparator_of_splitLast h).last
    refine ⟨?_, ?_⟩
    · rintro sep' ⟨x, y, rfl⟩
      have hle := hlast (before ++ sep.token.toList ++ x) sep' y (by simp)
      have hpos : 0 < sep.token.toList.length := by cases sep <;> decide
      simp only [List.length_append] at hle
      omega
    · rintro rfl hhead
      obtain ⟨rest, rfl⟩ := List.head?_eq_some_iff.mp hhead
      have hle := hlast (before ++ [':']) nested rest (by simp [token])
      simp only [List.length_append, List.length_singleton] at hle
      omega
  · intro h
    rw [List.append_assoc]
    simpa using splitLast_append before (splitLast_token_append h)

theorem precedes_of_splitLast {cs before after : List Char} {sep : Separator}
    (h : splitLast cs = some (before, sep, after)) : sep.Precedes after := by
  rw [splitLast_eq_append h] at h
  exact splitLast_append_token_iff.mp h

/-! ## 3. The parts of a path -/

variable {p : Path} {sep : Separator} {before after : List Char}

theorem name_of_splitLast (h : splitLast p.text.toList = some (before, sep, after)) :
    p.name = String.ofList after := by
  rw [name, h]

theorem separator?_of_splitLast (h : splitLast p.text.toList = some (before, sep, after)) :
    p.separator? = some sep := by
  rw [separator?, h, Option.map_some]

theorem parent?_of_splitLast (h : splitLast p.text.toList = some (before, sep, after)) :
    p.parent? = some ⟨String.ofList before⟩ := by
  have hp : p ≠ root := by
    rintro rfl
    simp [root, splitLast] at h
  rw [parent?, if_neg hp, h]

/-- A path lies in the root if its last separator, if it has one, stands in front. -/
theorem parent?_eq_root_iff :
    p.parent? = some root ↔ p ≠ root ∧
      ∀ before sep after, LastSeparator p.text.toList before sep after → before = [] := by
  simp only [← splitLast_eq_some_iff]
  cases h : splitLast p.text.toList with
  | none =>
    unfold parent?
    by_cases hp : p = root <;> simp [hp, h]
  | some found =>
    obtain ⟨before, sep, after⟩ := found
    have hp : p ≠ root := by
      rintro rfl
      simp [root, splitLast] at h
    rw [parent?_of_splitLast h, and_iff_right hp]
    simp [root, String.ext_iff]

/-! ## 4. Joining and cutting -/

variable {name : String}

theorem toList_join (hp : p ≠ root) (sep : Separator) (name : String) :
    (p.join sep name).text.toList = p.text.toList ++ sep.token.toList ++ name.toList := by
  simp [join, hp]

/-- Where a joined path is cut: there is at least the separator that was put in. -/
theorem exists_splitLast_join (hp : p ≠ root) (sep : Separator) (name : String) :
    ∃ before sep' after,
      splitLast (p.join sep name).text.toList = some (before, sep', after) ∧
        p.text.toList ++ sep.token.toList ++ name.toList =
          before ++ sep'.token.toList ++ after := by
  rw [toList_join hp]
  cases h : splitLast (p.text.toList ++ sep.token.toList ++ name.toList) with
  | none => exact absurd ⟨_, _, rfl⟩ (splitLast_eq_none_iff.mp h sep)
  | some found =>
    obtain ⟨before, sep', after⟩ := found
    exact ⟨before, sep', after, rfl, splitLast_eq_append h⟩

theorem splitLast_join_iff (hp : p ≠ root) :
    splitLast (p.join sep name).text.toList = some (p.text.toList, sep, name.toList) ↔
      sep.Precedes name.toList := by
  rw [toList_join hp, splitLast_append_token_iff]

/-- **The name comes off again** if no separator starts after the one in front of it. -/
theorem name_join_iff (hp : p ≠ root) :
    (p.join sep name).name = name ↔ sep.Precedes name.toList := by
  rw [← splitLast_join_iff hp]
  obtain ⟨before, sep', after, hsplit, htext⟩ := exists_splitLast_join hp sep name
  rw [name_of_splitLast hsplit, hsplit]
  constructor
  · rintro rfl
    rw [String.toList_ofList, List.append_left_inj] at htext
    obtain ⟨rfl, rfl⟩ := append_token_inj htext
    rw [String.toList_ofList]
  · intro h
    simp only [Option.some.injEq, Prod.mk.injEq] at h
    rw [h.2.2, String.ofList_toList]

/-- **And the path does**, under the same condition. -/
theorem parent?_join_iff (hp : p ≠ root) :
    (p.join sep name).parent? = some p ↔ sep.Precedes name.toList := by
  rw [← splitLast_join_iff hp]
  obtain ⟨before, sep', after, hsplit, htext⟩ := exists_splitLast_join hp sep name
  rw [parent?_of_splitLast hsplit, hsplit]
  constructor
  · intro h
    obtain rfl := Option.some.inj h
    rw [String.toList_ofList, List.append_assoc, List.append_assoc,
      List.append_right_inj] at htext
    obtain ⟨rfl, rfl⟩ := token_append_inj htext
    rw [String.toList_ofList]
  · intro h
    simp only [Option.some.injEq, Prod.mk.injEq] at h
    rw [h.1, String.ofList_toList]

theorem separator?_join (hp : p ≠ root) (h : sep.Precedes name.toList) :
    (p.join sep name).separator? = some sep :=
  separator?_of_splitLast ((splitLast_join_iff hp).mpr h)

end Path

/-! ## 5. New entities -/

namespace Entity

theorem child_eq_atPath_iff_parent? {outer : Entity} {sep : Separator} {name : String}
    {kind : Kind} :
    outer.child sep name kind = atPath (outer.path.join sep name) kind ↔
      (outer.path.join sep name).parent? = some outer.path := by
  simp [child, atPath, eq_comm]

/-- **When the path of a new entity says what it lies in.**  Outside the Root it does if the name can
follow the separator; that is when the name and the outer path come off again, and then the
separator does too.  In the Root it does if the name is not empty and its last separator, if it has
one, stands in front. -/
theorem child_eq_atPath_iff (outer : Entity) (sep : Separator) (name : String) :
    (outer.path ≠ .root →
      [sep.Precedes name.toList,
        (outer.path.join sep name).name = name,
        (outer.path.join sep name).parent? = some outer.path,
        ∀ kind, outer.child sep name kind = atPath (outer.path.join sep name) kind].TFAE ∧
      (sep.Precedes name.toList → (outer.path.join sep name).separator? = some sep)) ∧
    (outer.path = .root →
      ∀ kind, outer.child sep name kind = atPath (outer.path.join sep name) kind ↔
        name ≠ "" ∧
          ∀ before sep' after, LastSeparator name.toList before sep' after → before = []) := by
  refine ⟨fun hp => ⟨?_, Path.separator?_join hp⟩, fun hp kind => ?_⟩
  · refine List.tfae_of_forall (sep.Precedes name.toList) _ ?_
    simp only [List.mem_cons, List.not_mem_nil, or_false, forall_eq_or_imp, forall_eq, iff_self,
      true_and, child_eq_atPath_iff_parent?]
    have hparent : (outer.path.join sep name).parent? = some outer.path ↔
        sep.Precedes name.toList := Path.parent?_join_iff hp
    exact ⟨Path.name_join_iff hp, hparent, fun h => hparent.mp (h outer.kind),
      fun h _ => hparent.mpr h⟩
  · rw [child_eq_atPath_iff_parent?, hp, Path.parent?_eq_root_iff]
    simp [Path.join, Path.root]

/-- A module whose name ends in a colon.  The name `b` comes off again after `::`, although three
colons are in front of it then, and `:b` does not.  In the Root `#b` is a path of one segment. -/
theorem child_eq_atPath_iff_colons :
    let outer := atPath ⟨"A:"⟩ ⟨"module"⟩
    (outer.path ≠ .root ∧ Separator.nested.Precedes "b".toList ∧
      (outer.path.join .nested "b").name = "b" ∧
      (outer.path.join .nested "b").separator? = some .nested ∧
      ∀ kind, outer.child .nested "b" kind = atPath ⟨"A:::b"⟩ kind) ∧
    (¬ Separator.nested.Precedes ":b".toList ∧ (outer.path.join .nested ":b").name = "b" ∧
      ¬ ∀ kind, outer.child .nested ":b" kind = atPath ⟨"A::::b"⟩ kind) ∧
    (root.path = .root ∧ (∀ kind, root.child .nested "#b" kind = atPath ⟨"#b"⟩ kind) ∧
      ∀ before sep' after, LastSeparator "#b".toList before sep' after → before = []) := by
  intro outer
  have hp : outer.path ≠ .root := by decide
  have hname : (outer.path.join .nested "b").name = "b" := by decide
  have hname' : (outer.path.join .nested ":b").name = "b" := by decide
  obtain ⟨htfae, hsep⟩ := (child_eq_atPath_iff outer .nested "b").1 hp
  obtain ⟨htfae', -⟩ := (child_eq_atPath_iff outer .nested ":b").1 hp
  have hfits : Separator.nested.Precedes "b".toList := (htfae.out 0 1).mpr hname
  have hnot : (outer.path.join .nested ":b").name ≠ ":b" := by rw [hname']; decide
  have hroot : (⟨"#b"⟩ : Path).parent? = some .root := by decide
  refine ⟨⟨hp, hfits, hname, hsep hfits, (htfae.out 0 3).mp hfits⟩, ⟨?_, hname', ?_⟩, rfl, ?_, ?_⟩
  · exact fun h => hnot ((htfae'.out 0 1).mp h)
  · exact fun h => hnot ((htfae'.out 3 1).mp h)
  · exact fun kind => child_eq_atPath_iff_parent?.mpr hroot
  · exact (((child_eq_atPath_iff root .nested "#b").2 rfl ⟨"class"⟩).mp
      (child_eq_atPath_iff_parent?.mpr hroot)).2

end Entity
end SymbolTable
