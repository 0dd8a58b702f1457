/-
# Going outward from a path

A path is cut into the path that encloses it, a separator and a last segment, and they make up the
whole path again (`Enclosed`).  The enclosing path is a part of the path in front, so it is shorter
and comes earlier in the order of paths.  Going on outward the paths get shorter until the root is
reached, and none comes twice.

* `exists_enclosed`: every path but the root is put together from its parts;
* `ancestors_eq_append`: going outward ends at the root;
* `isChain_ancestors`, `nodup_ancestors`: each ancestor encloses the one before, and all differ;
* `enclosed_ancestors`: all of it together.
-/
import SymbolTable.Proofs.Path.Cutting
import SymbolTable.Proofs.Text.Order
import Mathlib.Data.List.Chain

namespace SymbolTable
namespace Path

variable {p q : Path}

/-! ## 1. Ancestors -/

theorem exists_parent (hp : p ≠ root) : ∃ q, p.parent? = some q := by
  unfold parent?
  rw [if_neg hp]
  split
  · exact ⟨_, rfl⟩
  · exact ⟨_, rfl⟩

theorem length_pos (hp : p ≠ root) : 0 < p.text.length := by
  obtain ⟨q, hq⟩ := exists_parent hp
  exact Nat.lt_of_le_of_lt (Nat.zero_le _) (length_parent?_lt hq)

theorem ancestors_of_none (h : p.parent? = none) : p.ancestors = [] := by
  rw [ancestors]
  split
  · rfl
  · next hsome =>
    rw [h] at hsome
    cases hsome

theorem ancestors_root : root.ancestors = [] := ancestors_of_none rfl

theorem ancestors_of_parent? (h : p.parent? = some q) : p.ancestors = q :: q.ancestors := by
  rw [ancestors]
  split
  · next hnone =>
    rw [h] at hnone
    cases hnone
  · next hsome =>
    rw [h] at hsome
    rw [Option.some.inj hsome]

/-- The outermost ancestor is the root, and no other one is. -/
theorem ancestors_eq_append (hp : p ≠ root) :
    ∃ inner, p.ancestors = inner ++ [root] ∧ root ∉ inner := by
  induction hn : p.text.length using Nat.strongRecOn generalizing p with
  | ind n ih =>
    obtain ⟨q, hq⟩ := exists_parent hp
    rw [ancestors_of_parent? hq]
    by_cases hroot : q = root
    · exact ⟨[], by rw [hroot, ancestors_root, List.nil_append], List.not_mem_nil⟩
    · obtain ⟨inner, hinner, hnot⟩ := ih _ (hn ▸ length_parent?_lt hq) hroot rfl
      refine ⟨q :: inner, by rw [hinner, List.cons_append], ?_⟩
      rw [List.mem_cons, not_or]
      exact ⟨fun heq => hroot heq.symm, hnot⟩

/-- **Each ancestor is what encloses the one before it.** -/
theorem isChain_ancestors (p : Path) :
    (p :: p.ancestors).IsChain fun q outer => q.parent? = some outer := by
  induction hn : p.text.length using Nat.strongRecOn generalizing p with
  | ind n ih =>
    cases hp : p.parent? with
    | none =>
      rw [ancestors_of_none hp]
      exact List.isChain_singleton p
    | some q =>
      rw [ancestors_of_parent? hp]
      exact List.isChain_cons_cons.mpr ⟨hp, ih _ (hn ▸ length_parent?_lt hp) q rfl⟩

/-- Further outward the paths are shorter. -/
theorem length_ancestors_lt (p : Path) :
    (p :: p.ancestors).Pairwise fun q outer => outer.text.length < q.text.length := by
  have hchain : (p :: p.ancestors).IsChain fun q outer => outer.text.length < q.text.length :=
    p.isChain_ancestors.imp fun _ _ h => length_parent?_lt h
  have : IsTrans Path fun q outer => outer.text.length < q.text.length :=
    ⟨fun _ _ _ h h' => Nat.lt_trans h' h⟩
  exact hchain.pairwise

/-- No path comes twice on the way outward. -/
theorem nodup_ancestors (p : Path) : (p :: p.ancestors).Nodup := by
  refine List.Pairwise.imp ?_ p.length_ancestors_lt
  rintro q outer hlt rfl
  exact Nat.lt_irrefl _ hlt

/-! ## 2. Paths and their parts -/

/-- How a path is put together from the path that encloses it and its last segment. -/
structure Enclosed (p outer : Path) : Prop where
  /-- Outside the root the two are joined by the separator in front of the last segment. -/
  joined : outer ≠ root → ∃ sep, p.separator? = some sep ∧ outer.join sep p.name = p
  /-- In the root there is the last segment alone, or with a separator in front of it. -/
  alone : outer = root → p.text = (p.separator?.map Separator.token).getD "" ++ p.name
  /-- The last segment cannot be cut further. -/
  plain : Plain p.name.toList
  no_colon : p.separator? = some .nested → p.name.toList.head? ≠ some ':'
  /-- The enclosing path is the start of the path, and not all of it. -/
  starts : outer.text.toList <+: p.text.toList ∧ outer ≠ p
  /-- It comes before the path in the order of paths, which is that of their bytes. -/
  before : outer < p ∧ utf8 outer.text < utf8 p.text

theorem eq_of_text_eq (h : p.text = q.text) : p = q := by
  cases p
  cases q
  exact congrArg Path.mk h

theorem lt_of_starts (h : q.text.toList <+: p.text.toList) (hne : q ≠ p) :
    q < p ∧ utf8 q.text < utf8 p.text := by
  obtain ⟨rest, hrest⟩ := h
  have hlt : q.text < p.text := by
    rw [String.lt_iff, ← hrest]
    cases rest with
    | nil =>
      rw [List.append_nil, String.toList_inj] at hrest
      exact absurd (eq_of_text_eq hrest) hne
    | cons c rest =>
      have hlonger : q.text.toList ++ [] < q.text.toList ++ c :: rest :=
        List.append_left_lt (List.nil_lt_cons c rest)
      rwa [List.append_nil] at hlonger
  exact ⟨hlt, lt_iff_utf8_lt.mp hlt⟩

/-- A path with a separator in it is cut there. -/
theorem enclosed_of_splitLast {before after : List Char} {sep : Separator}
    (h : splitLast p.text.toList = some (before, sep, after)) (hne : ⟨String.ofList before⟩ ≠ p) :
    p.Enclosed ⟨String.ofList before⟩ := by
  have htext := splitLast_eq_append h
  have hname := name_of_splitLast h
  have hsep := separator?_of_splitLast h
  have hprecedes := precedes_of_splitLast h
  have hstarts : (String.ofList before).toList <+: p.text.toList := by
    rw [String.toList_ofList, htext, List.append_assoc]
    exact List.prefix_append _ _
  refine ⟨fun hroot => ⟨sep, hsep, ?_⟩, fun hroot => ?_, ?_, fun hnested => ?_, ⟨hstarts, hne⟩,
    lt_of_starts hstarts hne⟩
  · have hjoin := toList_join hroot sep p.name
    rw [hname, String.toList_ofList, String.toList_ofList, ← htext, String.toList_inj] at hjoin
    rw [hname]
    exact eq_of_text_eq hjoin
  · have hempty : before = [] := by simpa [root, String.ext_iff] using hroot
    rw [← String.toList_inj, htext, hempty, hsep, hname]
    simp
  · simpa [hname] using hprecedes.plain
  · rw [hsep, Option.some.injEq] at hnested
    simpa [hname] using hprecedes.no_colon hnested

/-- A path without a separator is one segment. -/
theorem enclosed_of_plain (h : splitLast p.text.toList = none) (hne : root ≠ p) :
    p.Enclosed root := by
  have hname : p.name = p.text := by rw [name, h]
  have hsep : p.separator? = none := by rw [separator?, h, Option.map_none]
  have hstarts : root.text.toList <+: p.text.toList := by simp [root]
  refine ⟨fun hroot => absurd rfl hroot, fun _ => ?_, ?_, fun hnested => ?_, ⟨hstarts, hne⟩,
    lt_of_starts hstarts hne⟩
  · simp [hname, hsep]
  · rw [hname]
    exact splitLast_eq_none_iff.mp h
  · rw [hsep] at hnested
    cases hnested

/-- **Nothing is lost when a path is cut.** -/
theorem enclosed_of_parent? (h : p.parent? = some q) : p.Enclosed q := by
  have hne : q ≠ p := fun heq => Nat.lt_irrefl _ (heq ▸ length_parent?_lt h)
  unfold parent? at h
  split at h
  · cases h
  · split at h
    · next hsplit =>
      obtain rfl := Option.some.inj h
      exact enclosed_of_splitLast hsplit hne
    · next hsplit =>
      obtain rfl := Option.some.inj h
      exact enclosed_of_plain hsplit hne

/-! ## 3. All the way out -/

/-- **Every path but the root is put together from its parts, and going outward ends at the root.**
Each step of the way leads to what encloses the path; the root is reached, once and at last, and no
path comes twice. -/
theorem enclosed_ancestors (hp : p ≠ root) :
    (∃ outer, p.parent? = some outer ∧ p.Enclosed outer) ∧
      ((p :: p.ancestors).IsChain fun q outer => q.parent? = some outer) ∧
      (∃ inner, p.ancestors = inner ++ [root] ∧ root ∉ p :: inner) ∧
      (p :: p.ancestors).Nodup := by
  obtain ⟨outer, houter⟩ := exists_parent hp
  obtain ⟨inner, hinner, hnot⟩ := ancestors_eq_append hp
  refine ⟨⟨outer, houter, enclosed_of_parent? houter⟩, p.isChain_ancestors,
    ⟨inner, hinner, ?_⟩, p.nodup_ancestors⟩
  rw [List.mem_cons, not_or]
  exact ⟨Ne.symm hp, hnot⟩

/-- Runs of colons, a separator in front, one at the end and a letter of two bytes. -/
theorem enclosed_ancestors_colons :
    let p : Path := ⟨":::A#é::"⟩
    p ≠ root ∧ (p.name = "" ∧ p.separator? = some .nested ∧ p.Enclosed ⟨":::A#é"⟩) ∧
      p.ancestors = [⟨":::A#é"⟩, ⟨":::A"⟩, ⟨":"⟩, root] ∧ (p :: p.ancestors).Nodup := by
  intro p
  have hp : p ≠ root := by decide
  have h₁ : p.parent? = some ⟨":::A#é"⟩ := by decide
  have h₂ : (⟨":::A#é"⟩ : Path).parent? = some ⟨":::A"⟩ := by decide
  have h₃ : (⟨":::A"⟩ : Path).parent? = some ⟨":"⟩ := by decide
  have h₄ : (⟨":"⟩ : Path).parent? = some root := by decide
  obtain ⟨⟨outer, houter, henclosed⟩, -, -, hnodup⟩ := enclosed_ancestors hp
  obtain rfl := Option.some.inj (houter.symm.trans h₁)
  refine ⟨hp, ⟨by decide, by decide, henclosed⟩, ?_, hnodup⟩
  rw [ancestors_of_parent? h₁, ancestors_of_parent? h₂, ancestors_of_parent? h₃,
    ancestors_of_parent? h₄, ancestors_root]

end Path
end SymbolTable
