/-
# The forms of a name

What stands in front of a name decides where it is looked for.  A name that starts with `::` is
tried as it is written and then without the `::`, whatever the scope.  Any other name loses one `#`
in front, if it has one, and is looked for in the scopes besides the Root (`innerPaths`), then in
the Root, and then globally.

So a path is a name of what is stored at it, unless something else comes first.  With `::` in front
that can only be what is stored at the longer path.  From the Root nothing comes before the path
itself; but where the path starts with `#`, that is dropped and the path is tried last.

The form is decided before the `#` is dropped.  So `#::x` is not absolute, and it means what `::x`
means only where the table holds nothing that tells the two apart.

* `candidates_nested`, `candidates_member`, `candidates_relative`: the candidates of each form;
* `resolve_stored_path`: where a path is a name of what is stored at it;
* `entity?_resolve_member_iff`: where a `#` in front makes no difference.
-/
import SymbolTable.Proofs.Resolution.Candidates
import SymbolTable.Proofs.Resolution.Guard

namespace SymbolTable

/-! ## 1. What a name starts with -/

theorem after?_eq_some_iff {token name rest : String} :
    after? token name = some rest ↔ name = token ++ rest := by
  unfold after?
  constructor
  · intro h
    obtain ⟨cs, hcs, rfl⟩ := Option.map_eq_some_iff.mp h
    rw [List.isPrefixOf?_eq_some_iff_append_eq] at hcs
    rw [← String.toList_inj, String.toList_append, String.toList_ofList, hcs]
  · rintro rfl
    have hrest : token.toList.isPrefixOf? (token ++ rest).toList = some rest.toList := by
      rw [List.isPrefixOf?_eq_some_iff_append_eq, String.toList_append]
    rw [hrest, Option.map_some, String.ofList_toList]

theorem after?_append (token rest : String) : after? token (token ++ rest) = some rest :=
  after?_eq_some_iff.mpr rfl

theorem after?_eq_none_iff {token name : String} :
    after? token name = none ↔ ¬ token.toList <+: name.toList := by
  rw [Option.eq_none_iff_forall_ne_some]
  constructor
  · rintro h ⟨rest, hrest⟩
    refine h (String.ofList rest) (after?_eq_some_iff.mpr ?_)
    rw [← String.toList_inj, String.toList_append, String.toList_ofList, hrest]
  · intro h rest hrest
    obtain rfl := after?_eq_some_iff.mp hrest
    exact h ⟨rest.toList, String.toList_append.symm⟩

theorem after?_nested_member (bare : String) : after? "::" ("#" ++ bare) = none := by
  rw [after?_eq_none_iff, String.toList_append]
  rintro ⟨rest, hrest⟩
  simp at hrest

/-! ## 2. Paths in scopes -/

namespace Path

variable {p q : Path} {bare : String}

theorem within_eq_join (hp : p ≠ root) (bare : String) :
    p.within bare = [p.join .nested bare, p.join .member bare] := by
  rw [within, if_neg hp, join, join, if_neg hp, if_neg hp]
  rfl

theorem length_lt_of_mem_within (hp : p ≠ root) (hq : q ∈ p.within bare) :
    bare.length < q.text.length := by
  rw [within, if_neg hp] at hq
  have htoken : 0 < "::".length ∧ 0 < "#".length := by decide
  simp only [List.mem_cons, List.not_mem_nil, or_false] at hq
  rcases hq with rfl | rfl
  · simp only [String.length_append]
    omega
  · simp only [String.length_append]
    omega

end Path

namespace Table

variable {t : Table} {scope : Option Entity} {e : Entity} {name : String}

/-- The paths that a name may have in the scopes besides the Root. -/
def innerPaths (t : Table) (scope : Option Entity) (bare : String) : List Path :=
  (t.trail (t.startOf scope) (t.turn (t.startOf scope))).flatMap fun p => p.within bare

theorem mem_innerPaths {bare : String} {q : Path} :
    q ∈ t.innerPaths scope bare ↔
      ∃ p ∈ t.scopes (t.startOf scope), p ≠ .root ∧ q ∈ p.within bare := by
  rw [innerPaths, List.mem_flatMap, scopes_eq_trail]
  constructor
  · rintro ⟨p, hp, hq⟩
    exact ⟨p, List.mem_append_left _ hp, fun hroot => root_notMem_trail (hroot ▸ hp), hq⟩
  · rintro ⟨p, hp, hne, hq⟩
    rcases List.mem_append.mp hp with hp | hp
    · exact ⟨p, hp, hq⟩
    · exact absurd (List.mem_singleton.mp hp) hne

theorem forall_mem_innerPaths {bare : String} {P : Path → Prop} :
    (∀ q ∈ t.innerPaths scope bare, P q) ↔
      ∀ p ∈ t.scopes (t.startOf scope), p ≠ .root → ∀ q ∈ p.within bare, P q := by
  simp only [mem_innerPaths]
  constructor
  · intro h p hp hne q hq
    exact h q ⟨p, hp, hne, hq⟩
  · rintro h q ⟨p, hp, hne, hq⟩
    exact h p hp hne q hq

/-- From the Root there are no other scopes. -/
theorem innerPaths_of_root (h : ∀ s ∈ scope, s.path = .root) (bare : String) :
    t.innerPaths scope bare = [] := by
  have hstart : (t.startOf scope).path = .root := by
    cases scope with
    | none => exact t.path_root
    | some s => simp [startOf, h s rfl]
  rw [innerPaths, t.turn_eq_zero hstart]
  rfl

/-- The scope itself comes first. -/
theorem innerPaths_of_ne_root {s : Entity} (h : s.path ≠ .root) (bare : String) :
    ∃ outer, t.innerPaths (some s) bare =
      s.path.join .nested bare :: s.path.join .member bare :: outer := by
  have hstart : t.startOf (some s) = s := if_neg h
  obtain ⟨later, hlater⟩ := t.trail_isPrefix s (t.turn_pos h)
  refine ⟨later.flatMap fun p => p.within bare, ?_⟩
  rw [innerPaths, hstart, ← hlater, List.flatMap_append]
  show s.path.within bare ++ [] ++ _ = _
  rw [Path.within_eq_join h]
  rfl

/-- The paths that a name may have besides itself are longer. -/
theorem length_lt_of_mem_longer {bare : String} {q : Path}
    (h : q ∈ t.innerPaths scope bare ++ [⟨"::" ++ bare⟩, ⟨"#" ++ bare⟩]) :
    bare.length < q.text.length := by
  have htoken : 0 < "::".length ∧ 0 < "#".length := by decide
  simp only [List.mem_append, List.mem_cons, List.not_mem_nil, or_false] at h
  rcases h with h | rfl | rfl
  · obtain ⟨p, -, hp, hq⟩ := mem_innerPaths.mp h
    exact Path.length_lt_of_mem_within hp hq
  · rw [String.length_append]
    omega
  · rw [String.length_append]
    omega

/-! ## 3. The candidates of each form -/

theorem candidates_nested (t : Table) (scope : Option Entity) (rest : String) :
    t.candidates scope ("::" ++ rest) = [⟨"::" ++ rest⟩, ⟨rest⟩] := by
  rw [candidates, after?_append]

theorem candidates_of_after? (h : after? "::" name = none) {bare : String}
    (hbare : (after? "#" name).getD name = bare) :
    t.candidates scope name =
      t.innerPaths scope bare ++ [⟨bare⟩, ⟨"::" ++ bare⟩, ⟨"#" ++ bare⟩] := by
  rw [candidates, h]
  simp only [hbare, scopes_eq_trail, List.flatMap_append, List.append_assoc]
  rfl

/-- One `#` is dropped, and the rest is relative whatever it starts with. -/
theorem candidates_member (t : Table) (scope : Option Entity) (bare : String) :
    t.candidates scope ("#" ++ bare) =
      t.innerPaths scope bare ++ [⟨bare⟩, ⟨"::" ++ bare⟩, ⟨"#" ++ bare⟩] :=
  candidates_of_after? (after?_nested_member bare) (by rw [after?_append, Option.getD_some])

theorem candidates_relative (hmember : ¬ "#".toList <+: name.toList)
    (hnested : ¬ "::".toList <+: name.toList) :
    t.candidates scope name =
      t.innerPaths scope name ++ [⟨name⟩, ⟨"::" ++ name⟩, ⟨"#" ++ name⟩] :=
  candidates_of_after? (after?_eq_none_iff.mpr hnested)
    (by rw [after?_eq_none_iff.mpr hmember, Option.getD_none])

/-! ## 4. What is found at candidates -/

theorem path_mem_of_firstStored {ps : List Path} (h : t.firstStored ps = some e) : e.path ∈ ps := by
  obtain ⟨p, hp, hstored⟩ := List.exists_of_findSome?_eq_some h
  rw [path_of_get? hstored]
  exact hp

/-- Among paths that have nothing in common the same is found only where nothing is. -/
theorem firstStored_eq_iff_of_disjoint {ps qs : List Path} (h : ps.Disjoint qs) :
    t.firstStored ps = t.firstStored qs ↔ ∀ p ∈ ps ++ qs, ¬ t.contains p := by
  rw [← firstStored_eq_none_iff, firstStored_append]
  cases hps : t.firstStored ps with
  | none => exact eq_comm
  | some e =>
    rw [Option.some_or]
    refine ⟨fun hqs => ?_, nofun⟩
    exact absurd (path_mem_of_firstStored hqs.symm) (h (path_mem_of_firstStored hps))

/-- What is stored at a path is found where nothing is stored at the paths before it. -/
theorem firstStored_append_cons_eq_iff {p : Path} {before after : List Path} (hp : p ∉ before)
    (h : t.get? p = some e) :
    t.firstStored (before ++ p :: after) = some e ↔ ∀ q ∈ before, ¬ t.contains q := by
  rw [firstStored_append, firstStored_cons, h, Option.some_or, ← firstStored_eq_none_iff]
  cases hbefore : t.firstStored before with
  | none => simp
  | some found =>
    have hne : found ≠ e := by
      rintro rfl
      exact hp (path_of_get? h ▸ path_mem_of_firstStored hbefore)
    simpa using hne

/-- A path that is the first on one side and comes after others on the other side: if something is
stored at it, the others must be free, and if nothing is, everything must be. -/
theorem firstStored_eq_cons_iff {p : Path} {before after others : List Path} (hp : p ∉ before)
    (h : (before ++ after).Disjoint others) :
    t.firstStored (before ++ p :: after) = t.firstStored (p :: others) ↔
      (∀ q ∈ before, ¬ t.contains q) ∧ (t.contains p ∨ ∀ q ∈ after ++ others, ¬ t.contains q) := by
  cases hstored : t.get? p with
  | some e =>
    have hcontains : t.contains p := by simp [contains, hstored]
    rw [firstStored_cons t p others, hstored, Option.some_or,
      firstStored_append_cons_eq_iff hp hstored]
    simp only [hcontains, true_or, and_true]
  | none =>
    have hnot : ¬ t.contains p := by simp [contains, hstored]
    rw [firstStored_append, firstStored_cons, firstStored_cons, hstored, Option.none_or,
      Option.none_or, ← firstStored_append, firstStored_eq_iff_of_disjoint h, List.append_assoc,
      List.forall_mem_append, or_iff_right hnot]

/-! ## 5. Paths as names -/

/-- From the Root a name without `#` in front is tried as a path before anything else. -/
theorem exists_candidates_eq_cons (hscope : ∀ s ∈ scope, s.path = .root)
    (h : ¬ "#".toList <+: name.toList) :
    ∃ others, t.candidates scope name = ⟨name⟩ :: others := by
  cases hnested : after? "::" name with
  | some rest =>
    obtain rfl := after?_eq_some_iff.mp hnested
    exact ⟨_, candidates_nested t scope rest⟩
  | none =>
    rw [candidates_relative h (after?_eq_none_iff.mp hnested), innerPaths_of_root hscope]
    exact ⟨_, rfl⟩

theorem resolve_path_of_root {p : Path} (hstored : t.get? p = some e)
    (hscope : ∀ s ∈ scope, s.path = .root) (wanted : Bool) :
    t.resolve scope p.text wanted = .found e ↔
      ¬ "#".toList <+: p.text.toList ∨
        ∃ x, p.text = "#" ++ x ∧ ¬ t.contains ⟨x⟩ ∧ ¬ t.contains ⟨"::" ++ x⟩ := by
  rw [resolve_eq_found_iff, lookup_eq_firstStored]
  cases hmember : after? "#" p.text with
  | none =>
    have hnot := after?_eq_none_iff.mp hmember
    obtain ⟨others, hothers⟩ := exists_candidates_eq_cons (t := t) hscope hnot
    rw [hothers, firstStored_cons, hstored, Option.some_or]
    exact iff_of_true rfl (Or.inl hnot)
  | some x =>
    have htext := after?_eq_some_iff.mp hmember
    have hpath : (⟨"#" ++ x⟩ : Path) = p := by rw [← htext]
    have hnotMem : p ∉ [(⟨x⟩ : Path), ⟨"::" ++ x⟩] := by
      rw [← hpath]
      simp
    have hcandidates : t.candidates scope p.text = [⟨x⟩, ⟨"::" ++ x⟩] ++ p :: [] := by
      rw [htext, candidates_member, innerPaths_of_root hscope, hpath]
      rfl
    rw [hcandidates, firstStored_append_cons_eq_iff hnotMem hstored, htext]
    simp

/-- In a scope besides the Root a relative name has two paths before all others, with a `#` in front
and without. -/
theorem exists_candidates_in_scope {s : Entity} (hs : s.path ≠ .root) {n : String}
    (hmember : ¬ "#".toList <+: n.toList) (hnested : ¬ "::".toList <+: n.toList)
    (hname : name ∈ [n, "#" ++ n]) :
    ∃ others, t.candidates (some s) name =
      s.path.join .nested n :: s.path.join .member n :: others := by
  have hcandidates : t.candidates (some s) name =
      t.innerPaths (some s) n ++ [⟨n⟩, ⟨"::" ++ n⟩, ⟨"#" ++ n⟩] := by
    simp only [List.mem_cons, List.not_mem_nil, or_false] at hname
    rcases hname with rfl | rfl
    · exact candidates_relative hmember hnested
    · exact candidates_member t (some s) n
  obtain ⟨outer, houter⟩ := innerPaths_of_ne_root (t := t) hs n
  rw [hcandidates, houter]
  exact ⟨_, rfl⟩

/-- **Where a path is a name of what is stored at it.**  With `::` in front it is one from every
scope, unless something is stored at the longer path, which comes first.  From the Root it is one as
it stands; but a `#` in front of it is dropped, and then there must be nothing at the two paths that
are tried before.  In a scope besides the Root a relative name means what is nested in the scope, or
else what is a member of it, with a `#` in front and without; the scope need not be stored. -/
theorem resolve_stored_path {p : Path} (h : t.get? p = some e) (wanted : Bool) :
    (∀ scope, t.resolve scope ("::" ++ p.text) wanted =
      .found ((t.get? ⟨"::" ++ p.text⟩).getD e)) ∧
    (∀ scope, (∀ s ∈ scope, s.path = .root) →
      (t.resolve scope p.text wanted = .found e ↔
        ¬ "#".toList <+: p.text.toList ∨
          ∃ x, p.text = "#" ++ x ∧ ¬ t.contains ⟨x⟩ ∧ ¬ t.contains ⟨"::" ++ x⟩)) ∧
    ∀ (s : Entity) (n : String), s.path ≠ .root → ¬ "#".toList <+: n.toList →
      ¬ "::".toList <+: n.toList → ∀ name ∈ [n, "#" ++ n],
        (∀ m, t.get? (s.path.join .nested n) = some m →
          t.resolve (some s) name wanted = .found m) ∧
        (¬ t.contains (s.path.join .nested n) → ∀ m, t.get? (s.path.join .member n) = some m →
          t.resolve (some s) name wanted = .found m) := by
  refine ⟨fun scope => ?_, fun scope hscope => resolve_path_of_root h hscope wanted, ?_⟩
  · rw [resolve_eq_found_iff, lookup_eq_firstStored, candidates_nested, firstStored_cons,
      firstStored_cons, h, Option.some_or]
    cases t.get? ⟨"::" ++ p.text⟩ <;> rfl
  · intro s n hs hmember hnested name hname
    obtain ⟨others, hothers⟩ := exists_candidates_in_scope (t := t) hs hmember hnested hname
    simp only [resolve_eq_found_iff, lookup_eq_firstStored, hothers, firstStored_cons]
    refine ⟨fun m hm => ?_, fun hnot m hm => ?_⟩
    · rw [hm, Option.some_or]
    · have hnone : t.get? (s.path.join .nested n) = none := by simpa [contains] using hnot
      rw [hnone, Option.none_or, hm, Option.some_or]

/-- A class with another one at the longer path, a nested and a member `f` in it and a member `g`;
and two paths that start with `#`, of which one is hidden behind what is stored without it. -/
theorem resolve_stored_path_hidden :
    let a := Entity.atPath ⟨"A"⟩ ⟨"class"⟩
    let a' := Entity.atPath ⟨"::A"⟩ ⟨"class"⟩
    let f := Entity.atPath ⟨"A::f"⟩ ⟨"constant"⟩
    let g := Entity.atPath ⟨"A#g"⟩ ⟨"method"⟩
    let k := Entity.atPath ⟨"#k"⟩ ⟨"method"⟩
    let x := Entity.atPath ⟨"#x"⟩ ⟨"method"⟩
    let t := fresh.insertAll [a, a', f, .atPath ⟨"A#f"⟩ ⟨"method"⟩, g, k, x,
      .atPath ⟨"x"⟩ ⟨"method"⟩]
    (t.get? ⟨"A"⟩ = some a ∧ ∀ scope, t.resolve scope "::A" true = .found a') ∧
      (t.get? ⟨"#k"⟩ = some k ∧ (∀ s ∈ some Entity.root, s.path = .root) ∧
        t.resolve (some .root) "#k" true = .found k) ∧
      (t.get? ⟨"#x"⟩ = some x ∧ t.resolve (some .root) "#x" true ≠ .found x) ∧
      (a.path ≠ .root ∧ ¬ "#".toList <+: "f".toList ∧ ¬ "::".toList <+: "f".toList ∧
        t.get? (a.path.join .nested "f") = some f ∧ t.resolve (some a) "#f" true = .found f) ∧
      (¬ "#".toList <+: "g".toList ∧ ¬ "::".toList <+: "g".toList ∧
        ¬ t.contains (a.path.join .nested "g") ∧ t.get? (a.path.join .member "g") = some g ∧
        t.resolve (some a) "g" true = .found g) := by
  intro a a' f g k x t
  have ha : t.get? ⟨"A"⟩ = some a := by decide +kernel
  have ha' : t.get? ⟨"::A"⟩ = some a' := by decide +kernel
  have hk : t.get? ⟨"#k"⟩ = some k := by decide +kernel
  have hx : t.get? ⟨"#x"⟩ = some x := by decide +kernel
  have hroot : ∀ s ∈ some Entity.root, s.path = .root := by
    intro s hs
    rw [← Option.mem_some.mp hs]
    rfl
  have hne : a.path ≠ .root := by decide +kernel
  have hf : ¬ "#".toList <+: "f".toList ∧ ¬ "::".toList <+: "f".toList := by decide +kernel
  have hg : ¬ "#".toList <+: "g".toList ∧ ¬ "::".toList <+: "g".toList := by decide +kernel
  have hnested : t.get? (a.path.join .nested "f") = some f := by decide +kernel
  have hnot : ¬ t.contains (a.path.join .nested "g") := by decide +kernel
  have hmember : t.get? (a.path.join .member "g") = some g := by decide +kernel
  obtain ⟨hlonger, -, hscope⟩ := resolve_stored_path ha true
  obtain ⟨-, hfree, -⟩ := resolve_stored_path hk true
  obtain ⟨-, hhidden, -⟩ := resolve_stored_path hx true
  refine ⟨⟨ha, fun scope => ?_⟩, ⟨hk, hroot, ?_⟩, ⟨hx, ?_⟩, ?_, ?_⟩
  · have hanswer : t.resolve scope "::A" true = .found ((t.get? ⟨"::A"⟩).getD a) := hlonger scope
    rwa [ha'] at hanswer
  · exact (hfree _ hroot).mpr (Or.inr ⟨"k", by decide +kernel⟩)
  · intro hfound
    rcases (hhidden _ hroot).mp hfound with hstart | ⟨y, hy, hnone, -⟩
    · exact hstart (by decide +kernel)
    · obtain rfl : "x" = y := (String.append_right_inj "#").mp hy
      exact hnone (by decide +kernel)
  · exact ⟨hne, hf.1, hf.2, hnested, (hscope a "f" hne hf.1 hf.2 "#f" (by decide)).1 f hnested⟩
  · exact ⟨hg.1, hg.2, hnot, hmember, (hscope a "g" hne hg.1 hg.2 "g" (by decide)).2 hnot g hmember⟩

/-! ## 6. A `#` in front of a name -/

/-- **Where a `#` in front of a name makes no difference.**  It makes none in front of a relative
name.  An absolute name it makes relative: then the same is found only if nothing is in a scope on
the way, and if the name itself is a stored path, or else nothing is stored that either search could
find. -/
theorem entity?_resolve_member_iff (scope : Option Entity) (wanted : Bool) {n : String}
    (hn : ¬ "#".toList <+: n.toList) :
    (t.resolve scope ("#" ++ n) wanted).entity? = (t.resolve scope n wanted).entity? ↔
      ∀ x, n = "::" ++ x →
        (∀ p ∈ t.scopes (t.startOf scope), p ≠ .root → ∀ q ∈ p.within n, ¬ t.contains q) ∧
          (t.contains ⟨n⟩ ∨
            ¬ t.contains ⟨"::" ++ n⟩ ∧ ¬ t.contains ⟨"#" ++ n⟩ ∧ ¬ t.contains ⟨x⟩) := by
  rw [entity?_resolve, entity?_resolve, lookup_eq_firstStored, lookup_eq_firstStored,
    candidates_member]
  cases hnested : after? "::" n with
  | none =>
    have hrelative := after?_eq_none_iff.mp hnested
    rw [candidates_relative hn hrelative]
    refine iff_of_true rfl fun x hx => ?_
    rw [hx, after?_append] at hnested
    cases hnested
  | some x =>
    obtain rfl := after?_eq_some_iff.mp hnested
    have hself : ⟨"::" ++ x⟩ ∉ t.innerPaths scope ("::" ++ x) := fun hmem =>
      Nat.lt_irrefl _ (length_lt_of_mem_longer (List.mem_append_left _ hmem))
    -- only the absolute name looks at the path that is left without the `::`
    have hrest : ⟨x⟩ ∉ t.innerPaths scope ("::" ++ x) ++
        [⟨"::" ++ ("::" ++ x)⟩, ⟨"#" ++ ("::" ++ x)⟩] := by
      intro hmem
      have hlt : ("::" ++ x).length < x.length := length_lt_of_mem_longer hmem
      rw [String.length_append] at hlt
      omega
    rw [candidates_nested, firstStored_eq_cons_iff hself (List.disjoint_singleton.mpr hrest),
      forall_mem_innerPaths]
    simp only [String.append_right_inj, forall_eq', List.cons_append, List.nil_append,
      List.forall_mem_cons, List.not_mem_nil, false_implies, implies_true, and_true]

/-- A `#` in front of an absolute name: it takes away what is found without the `::`, and makes no
difference where the name itself is stored.  In front of a relative name it never makes one. -/
theorem entity?_resolve_member_iff_absolute :
    let a := Entity.atPath ⟨"A"⟩ ⟨"module"⟩
    let t := fresh.insertAll [a, .atPath ⟨"x"⟩ ⟨"method"⟩]
    let u := t.insert (.atPath ⟨"::x"⟩ ⟨"method"⟩)
    ¬ "#".toList <+: "::x".toList ∧ ¬ "#".toList <+: "x".toList ∧
      (t.resolve (some a) ("#" ++ "::x") true).entity? ≠ (t.resolve (some a) "::x" true).entity? ∧
      (u.resolve (some a) ("#" ++ "::x") true).entity? = (u.resolve (some a) "::x" true).entity? ∧
      (t.resolve (some a) ("#" ++ "x") true).entity? = (t.resolve (some a) "x" true).entity? := by
  intro a t u
  have hn : ¬ "#".toList <+: "::x".toList := by decide +kernel
  have hx : ¬ "#".toList <+: "x".toList := by decide +kernel
  have hstart : u.startOf (some a) = a := by decide +kernel
  have hnone : u.searchFrom a "g" = none := by decide +kernel
  have hscopes : u.scopes a = [⟨"A"⟩, .root] :=
    (u.visits_of_none hnone).symm.trans (by decide +kernel)
  refine ⟨hn, hx, fun heq => ?_, ?_, ?_⟩
  · have hagree := (entity?_resolve_member_iff (some a) true hn).mp heq
    obtain ⟨-, hstored | ⟨-, -, hnot⟩⟩ := hagree "x" rfl
    · exact absurd hstored (by decide +kernel)
    · exact hnot (by decide +kernel)
  · refine (entity?_resolve_member_iff (some a) true hn).mpr fun y hy => ⟨?_, Or.inl ?_⟩
    · rw [hstart, hscopes]
      decide +kernel
    · decide +kernel
  · refine (entity?_resolve_member_iff (some a) true hx).mpr fun y hy => ?_
    have hfirst := congrArg String.toList hy
    simp at hfirst

/-- The absolute name finds what the name with a `#` in front does not find. -/
theorem resolve_member_nested_ne :
    let x := Entity.atPath ⟨"x"⟩ ⟨"method"⟩
    let t := fresh.insertAll [x]
    ¬ "#".toList <+: "::x".toList ∧ (t.resolve none "::x" false).entity? = some x ∧
      (t.resolve none ("#" ++ "::x") false).entity? = none := by
  decide +kernel

end Table
end SymbolTable
