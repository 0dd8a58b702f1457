/-
# Searches in lexical tables

An entity is lexical if its parent is what its path says.  In a table of lexical entities every
step of a search outward shortens the path, so no path occurs twice and the walk ends at the Root
by itself.  It follows the nesting of the path for as long as what encloses it is stored; at the
first ancestor that is not stored it goes to the Root.

* `length_enclosing_lt`: a step outward shortens the path;
* `scopes_eq_cons`: the scopes of an entity, from those of what encloses it;
* `scopes_lexical`: the scopes of a lexical entity are its stored ancestors up to the first that is
  missing, and the Root;
* `nesting_session`: so it is in every session in which only lexical entities come in.
-/
import SymbolTable.Proofs.Path.Ancestors
import SymbolTable.Proofs.Resolution.Visits
import SymbolTable.Proofs.Loading.Sessions

namespace SymbolTable

/-! ## 1. Lexical tables -/

/-- The parent is the one that the path says. -/
def Entity.Lexical (e : Entity) : Prop := e.parent = e.path.parent?

namespace Entity

theorem lexical_root : Entity.root.Lexical := rfl

theorem lexical_atPath (path : Path) (kind : Kind) : (atPath path kind).Lexical := rfl

theorem Lexical.withCapability {e : Entity} (h : e.Lexical) (c : Capability) :
    (e.withCapability c).Lexical := by
  unfold Entity.withCapability
  split
  · exact h
  · exact h

theorem Lexical.withProperty {e : Entity} (h : e.Lexical) (key : String) (value : Value) :
    (e.withProperty key value).Lexical := h

end Entity

namespace Table

/-- All entities have the parents that their paths say. -/
def Lexical (t : Table) : Prop := t.Only Entity.Lexical

/-- The path, its ancestors up to the first that is not stored, and the Root. -/
def lexicalScopes (t : Table) (p : Path) : List Path :=
  p :: (p.ancestors.takeWhile fun q => q ≠ .root ∧ t.contains q) ++ [.root]

variable {t : Table} {e : Entity} {p q : Path}

theorem Lexical.get? (h : t.Lexical) (he : t.get? p = some e) : e.Lexical :=
  h e (List.mem_of_find?_eq_some he)

theorem Lexical.root (h : t.Lexical) : t.root.Lexical := by
  unfold Table.root
  cases hr : t.get? .root with
  | none => exact Entity.lexical_root
  | some r => exact h.get? hr

/-- What encloses a lexical entity is stored at its path's parent, or it is the Root. -/
theorem enclosing_of_parent? (he : e.Lexical) (hq : e.path.parent? = some q) :
    t.enclosing e = (t.get? q).getD t.root := by
  unfold enclosing
  rw [he, hq]
  rfl

theorem Lexical.enclosing (h : t.Lexical) (e : Entity) : (t.enclosing e).Lexical := by
  unfold Table.enclosing
  cases hb : e.parent.bind t.get? with
  | none => exact h.root
  | some outer =>
    obtain ⟨p, -, hp⟩ := Option.bind_eq_some_iff.1 hb
    exact h.get? hp

theorem path_enclosing_of_parent? (he : e.Lexical) (hq : e.path.parent? = some q) :
    (t.enclosing e).path = if t.contains q then q else .root := by
  rw [enclosing_of_parent? he hq]
  unfold contains
  cases hg : t.get? q with
  | none => simp
  | some outer => simpa using path_of_get? hg

/-- **A step outward shortens the path.** -/
theorem length_enclosing_lt (he : e.Lexical) (hroot : e.path ≠ .root) :
    (t.enclosing e).path.text.length < e.path.text.length := by
  obtain ⟨q, hq⟩ := Path.exists_parent hroot
  rw [path_enclosing_of_parent? he hq]
  split
  · exact Path.length_parent?_lt hq
  · exact Path.length_pos hroot

/-- What encloses the Root is the Root. -/
theorem path_enclosing_root (he : e.Lexical) (hroot : e.path = .root) :
    (t.enclosing e).path = .root := by
  unfold enclosing
  rw [he, hroot]
  exact t.path_root

theorem length_outward_le (h : t.Lexical) (he : e.Lexical) (n : Nat) :
    (t.outward e n).Lexical ∧ (t.outward e n).path.text.length ≤ e.path.text.length := by
  induction n with
  | zero => exact ⟨he, Nat.le_refl _⟩
  | succ n ih =>
    obtain ⟨hlex, hle⟩ := ih
    refine ⟨h.enclosing _, ?_⟩
    by_cases hroot : (t.outward e n).path = .root
    · have hnext : (t.outward e (n + 1)).path = .root := path_enclosing_root hlex hroot
      rw [hnext]
      exact Nat.zero_le _
    · exact Nat.le_trans (Nat.le_of_lt (length_enclosing_lt hlex hroot)) hle

/-! ## 2. The scopes of what encloses a scope -/

variable (t)

/-- A walk that does not come back to its start turns where the walk from the next place does. -/
theorem turns_succ_iff {n : Nat} (hnot : (t.outward e (n + 1)).path ≠ e.path) :
    t.Turns e (n + 1) ↔ t.Turns (t.enclosing e) n := by
  unfold Turns
  simp only [outward_enclosing]
  refine or_congr_right ⟨?_, ?_⟩
  · rintro ⟨m, hm, heq⟩
    cases m with
    | zero => exact absurd heq.symm hnot
    | succ m => exact ⟨m, Nat.lt_of_succ_lt_succ hm, heq⟩
  · rintro ⟨m, hm, heq⟩
    exact ⟨m + 1, Nat.succ_lt_succ hm, heq⟩

theorem turn_eq_succ (hroot : e.path ≠ .root)
    (hnot : ∀ n, (t.outward e (n + 1)).path ≠ e.path) :
    t.turn e = t.turn (t.enclosing e) + 1 := by
  refine (Nat.find_eq_iff _).2 ⟨(t.turns_succ_iff (hnot _)).2 t.turns_turn, fun n hn => ?_⟩
  cases n with
  | zero =>
    rintro (h | ⟨m, hm, -⟩)
    · exact hroot h
    · exact absurd hm (Nat.not_lt_zero m)
  | succ n =>
    rw [t.turns_succ_iff (hnot n)]
    exact t.not_turns (Nat.lt_of_succ_lt_succ hn)

/-- **The scopes of an entity are its path and the scopes of what encloses it**, if the walk does
not come back. -/
theorem scopes_eq_cons (hroot : e.path ≠ .root)
    (hnot : ∀ n, (t.outward e (n + 1)).path ≠ e.path) :
    t.scopes e = e.path :: t.scopes (t.enclosing e) := by
  unfold scopes
  rw [t.turn_eq_succ hroot hnot, List.range_succ_eq_map, List.map_cons, List.map_map,
    List.cons_append]
  simp only [outward_enclosing]
  rfl

variable {t}

/-! ## 3. The scopes of a lexical entity -/

theorem lexicalScopes_of_stored (hq : p.parent? = some q) (hroot : q ≠ .root)
    (hstored : t.contains q) : t.lexicalScopes p = p :: t.lexicalScopes q := by
  unfold lexicalScopes
  rw [Path.ancestors_of_parent? hq, List.takeWhile_cons, if_pos (by simp [hroot, hstored])]
  rfl

theorem lexicalScopes_of_not_stored (hq : p.parent? = some q)
    (hnot : q = .root ∨ ¬ t.contains q) : t.lexicalScopes p = [p, .root] := by
  have hstop : ¬ (q ≠ .root ∧ t.contains q) := fun h => hnot.elim h.1 fun h' => h' h.2
  unfold lexicalScopes
  rw [Path.ancestors_of_parent? hq, List.takeWhile_cons, if_neg (by simpa using hstop)]
  rfl

/-- **A search from a lexical entity follows the nesting of its path**, and it is the Root that ends
it.  The induction is on the length of the path. -/
theorem scopes_lexical (h : t.Lexical) (he : e.Lexical) (hroot : e.path ≠ .root) :
    t.scopes e = t.lexicalScopes e.path ∧ (t.outward e (t.turn e)).path = .root := by
  induction hn : e.path.text.length using Nat.strongRecOn generalizing e with
  | ind n ih =>
    have hlt := length_enclosing_lt (t := t) he hroot
    have hnot : ∀ n, (t.outward e (n + 1)).path ≠ e.path := by
      intro n heq
      have hle := (length_outward_le h (h.enclosing e) n).2
      rw [outward_enclosing, heq] at hle
      omega
    obtain ⟨q, hq⟩ := Path.exists_parent hroot
    have hpath := path_enclosing_of_parent? (t := t) he hq
    rw [t.scopes_eq_cons hroot hnot, t.turn_eq_succ hroot hnot, ← outward_enclosing]
    by_cases hstored : q ≠ .root ∧ t.contains q
    · rw [if_pos hstored.2] at hpath
      have houter : (t.enclosing e).path ≠ .root := hpath ▸ hstored.1
      obtain ⟨hscopes, hend⟩ := ih _ (hn ▸ hlt) (h.enclosing e) houter rfl
      refine ⟨?_, hend⟩
      rw [hscopes, hpath, lexicalScopes_of_stored hq hstored.1 hstored.2]
    · have houter : (t.enclosing e).path = .root := by
        rw [hpath]
        split
        · next hcontains =>
          by_contra hne
          exact hstored ⟨hne, hcontains⟩
        · rfl
      have hmissing : q = .root ∨ ¬ t.contains q := by
        by_cases hqroot : q = .root
        · exact Or.inl hqroot
        · exact Or.inr fun hcontains => hstored ⟨hqroot, hcontains⟩
      rw [t.scopes_root houter, t.turn_eq_zero houter, lexicalScopes_of_not_stored hq hmissing]
      exact ⟨rfl, houter⟩

/-- Where all ancestors are stored, all of them are scopes. -/
theorem lexicalScopes_of_all_stored (hroot : p ≠ .root) (hall : ∀ q ∈ p.ancestors, t.contains q) :
    t.lexicalScopes p = p :: p.ancestors := by
  obtain ⟨inner, hinner, hnot⟩ := Path.ancestors_eq_append hroot
  have hstored : ∀ q ∈ inner, decide (q ≠ .root ∧ t.contains q) = true := by
    intro q hq
    have hne : q ≠ .root := fun heq => hnot (heq ▸ hq)
    exact decide_eq_true ⟨hne, hall q (hinner ▸ List.mem_append_left _ hq)⟩
  unfold lexicalScopes
  rw [hinner, List.takeWhile_append_of_pos hstored, List.takeWhile_cons, if_neg (by simp),
    List.append_nil, List.cons_append]

/-- Where one is missing, what is further out is skipped, apart from the Root. -/
theorem lexicalScopes_of_missing {inner outer : List Path} (hroot : p ≠ .root)
    (hancestors : p.ancestors = inner ++ q :: outer) (hall : ∀ r ∈ inner, t.contains r)
    (hmissing : ¬ t.contains q) : t.lexicalScopes p = p :: inner ++ [.root] := by
  obtain ⟨inner', hinner', hnot⟩ := Path.ancestors_eq_append hroot
  have hsub : inner' = inner ++ (q :: outer).dropLast := by
    rw [← List.dropLast_append_cons, ← hancestors, hinner', List.dropLast_concat]
  have hstored : ∀ r ∈ inner, decide (r ≠ .root ∧ t.contains r) = true := by
    intro r hr
    have hne : r ≠ .root := fun heq => hnot (hsub ▸ List.mem_append_left _ (heq ▸ hr))
    exact decide_eq_true ⟨hne, hall r hr⟩
  unfold lexicalScopes
  rw [hancestors, List.takeWhile_append_of_pos hstored, List.takeWhile_cons,
    if_neg (by simp [hmissing]), List.append_nil]

/-! ## 4. Searches -/

/-- No path but that of the Root comes twice on the way outward. -/
theorem path_outward_ne (h : t.Lexical) (he : e.Lexical) {m n : Nat} (hmn : m < n)
    (hn : (t.outward e n).path ≠ .root) : (t.outward e n).path ≠ (t.outward e m).path := by
  intro heq
  have hm : (t.outward e m).path ≠ .root := heq ▸ hn
  obtain ⟨hlex, -⟩ := length_outward_le h he m
  have hlt := length_enclosing_lt (t := t) hlex hm
  have hle := (length_outward_le h (h.enclosing (t.outward e m)) (n - m - 1)).2
  rw [outward_enclosing, outward_outward, show m + (n - m - 1 + 1) = n by omega, heq] at hle
  omega

/-- How names are looked for from a scope whose search follows the nesting of its path. -/
structure Nesting (t : Table) (e : Entity) : Prop where
  /-- A relative name that matches in none of these scopes is looked for in all of them, in this
  order, and nowhere else on the way. -/
  visited : ∀ name, Name.absolute? name = none →
    (∀ q ∈ t.lexicalScopes e.path, t.memberOf? q (Name.bare name) = none) →
      t.visited (some e) name = t.lexicalScopes e.path
  /-- A relative name is what it is in the first of these scopes in which it is something. -/
  lookup : ∀ name, Name.absolute? name = none →
    t.lookup (some e) name =
      ((t.lexicalScopes e.path).findSome? fun q => t.memberOf? q (Name.bare name)).or
        (t.global? (Name.bare name))
  /-- The guard against cycles has nothing to do: what comes twice on the way outward is the
  Root. -/
  guard : ∀ m n, m < n → (t.outward e n).path = (t.outward e m).path →
    (t.outward e n).path = .root
  /-- If the whole nesting is stored, the search follows it to the end. -/
  nested : (∀ q ∈ e.path.ancestors, t.contains q) →
    t.lexicalScopes e.path = e.path :: e.path.ancestors
  /-- If something is missing, all that is further out is skipped, apart from the Root. -/
  skips : ∀ inner q outer, e.path.ancestors = inner ++ q :: outer →
    (∀ r ∈ inner, t.contains r) → ¬ t.contains q →
      t.lexicalScopes e.path = e.path :: inner ++ [.root]

theorem Lexical.nesting (h : t.Lexical) (he : e.Lexical) (hroot : e.path ≠ .root) :
    t.Nesting e := by
  have hscopes := (scopes_lexical h he hroot).1
  exact {
    visited := by
      intro name hrelative hnone
      rw [← hscopes] at hnone ⊢
      rw [Table.visited, hrelative]
      exact t.visits_eq_scopes hnone
    lookup := by
      intro name hrelative
      rw [← hscopes, Table.lookup, hrelative]
      exact congrArg (Option.or · _) (t.searchFrom_eq_scopes e (Name.bare name))
    guard := by
      intro m n hmn heq
      by_contra hne
      exact path_outward_ne h he hmn hne heq
    nested := lexicalScopes_of_all_stored hroot
    skips := fun inner q outer => lexicalScopes_of_missing hroot }

/-- **In a session in which only lexical entities come in, a search from any scope follows the
nesting of its path.** -/
theorem nesting_session {σ : Type} {w : Workspace σ} {steps : List (Step σ)}
    (hw : w.Only Entity.Lexical) (hsteps : ∀ step ∈ steps, step.Only Entity.Lexical) {p : Path}
    {e : Entity} (hp : p ≠ .root) (he : (w.session steps).table.get? p = some e) :
    e.path = p ∧ (w.session steps).table.Nesting e := by
  have hlex : (w.session steps).table.Lexical :=
    (Workspace.only_session Entity.lexical_root hw hsteps).table
  have hpath := path_of_get? he
  exact ⟨hpath, hlex.nesting (hlex.get? he) (hpath ▸ hp)⟩

/-- Three classes that are saved, forgotten and loaded, and the outermost one deleted then. -/
theorem nesting_session_reloaded :
    let outer := Entity.atPath ⟨"A"⟩ ⟨"class"⟩
    let middle := ((Entity.atPath ⟨"A::B"⟩ ⟨"class"⟩).withCapability .container).withProperty
      "line" (.integer 3)
    let inner := Entity.atPath ⟨"A::B::C"⟩ ⟨"class"⟩
    let parser : Parser Unit := ⟨fun _ _ file => (⟨[Entity.atPath ⟨file⟩ ⟨"file"⟩], none⟩, ())⟩
    let w : Workspace Unit := ⟨.fresh, .empty, .ample, (), []⟩
    let steps : List (Step Unit) :=
      [.edit (.register (.entity outer)), .edit (.register (.entity middle)),
        .edit (.register (.entity inner)), .save "s", .edit .clear,
        .load .standard parser "s" false, .edit (.delete ⟨"A"⟩)]
    let t := (w.session steps).table
    t.get? ⟨"A::B::C"⟩ = some inner ∧ t.contains ⟨"A::B"⟩ ∧ ¬ t.contains ⟨"A"⟩ ∧
      t.visited (some inner) "x" = [⟨"A::B::C"⟩, ⟨"A::B"⟩, .root] ∧
      inner.path = ⟨"A::B::C"⟩ ∧ t.Nesting inner := by
  intro outer middle inner parser w steps t
  have hw : w.Only Entity.Lexical :=
    ⟨fun e he => List.mem_singleton.1 he ▸ Entity.lexical_root, FileTree.only_empty⟩
  have hparser : parser.Only Entity.Lexical :=
    fun _ _ file e he => List.mem_singleton.1 he ▸ Entity.lexical_atPath ⟨file⟩ ⟨"file"⟩
  have hsteps : ∀ step ∈ steps, step.Only Entity.Lexical := by
    simp only [steps, List.forall_mem_cons]
    exact ⟨Entity.lexical_atPath _ _,
      ((Entity.lexical_atPath _ _).withCapability .container).withProperty "line" (.integer 3),
      Entity.lexical_atPath _ _, trivial, trivial, hparser, trivial, List.forall_mem_nil _⟩
  have he : t.get? ⟨"A::B::C"⟩ = some inner := by decide +kernel
  have hvisited : t.visited (some inner) "x" = [⟨"A::B::C"⟩, ⟨"A::B"⟩, .root] := by decide +kernel
  exact ⟨he, by decide +kernel, by decide +kernel, hvisited,
    nesting_session hw hsteps (by decide) he⟩

end Table
end SymbolTable
