/-
# Rebuilding again

A parser that says the same of a file whenever it is called, whatever is in the files by then, finds
the same entities in a second rebuild as in the first one.  On the way the second rebuild does go
through other tables, because entities at one path displace each other again, but it ends where it
began: with the table that the first one left (`Table.insertAll_insertAll`), and so with the same
snapshot.

* `Parser.Steady.reports_eq`: what such a parser reports;
* `load_twice`: a second rebuild has the outcome of the first, and changes nothing.
-/
import SymbolTable.Proofs.Loading.Checkpoints
import SymbolTable.Proofs.Table.Replays

namespace SymbolTable

variable {σ : Type}

/-- What the parser says depends only on the file that it is called for: neither on what it
remembers nor on what is in any of the files. -/
def Parser.Steady (parser : Parser σ) : Prop :=
  ∀ memory memory' files files' file,
    (parser.parse memory files file).1 = (parser.parse memory' files' file).1

namespace Parser.Steady

variable {parser : Parser σ}

theorem reports_eq (h : parser.Steady) {calls : List Call} :
    ∀ {memory memory' : σ} {calls' : List Call}, calls.map Call.file = calls'.map Call.file →
      parser.reports memory calls = parser.reports memory' calls' := by
  induction calls with
  | nil =>
    intro memory memory' calls' hsame
    rw [List.map_eq_nil_iff.1 hsame.symm]
    rfl
  | cons call rest ih =>
    intro memory memory' calls' hsame
    cases calls' with
    | nil => cases hsame
    | cons call' rest' =>
      obtain ⟨hfile, hrest⟩ := List.cons.inj hsame
      rw [Parser.reports, Parser.reports, hfile, h memory memory' call.files call'.files]
      exact congrArg _ (ih hrest)

end Parser.Steady

namespace Workspace

variable {parser : Parser σ} {settings : Settings} {policy : SavePolicy} {path : String}
  {w w' : Workspace σ}

/-- How often the table is saved when the whole plan for some files is followed. -/
theorem saves_of_follow {sources : List String} {done : Progress}
    (h : w.follow parser path (policy.plan 0 sources) ⟨0, []⟩ = (.ok done, w')) :
    done.saves = policy.savesFor sources.length := by
  have hstart : Reached parser policy path w sources [] (policy.lastSave? 0) 0 w :=
    SavePolicy.lastSave?_zero ▸ Reached.start sources
  exact (reached_of_follow sources List.length_nil (Nat.zero_le _) rfl hstart
    SavePolicy.savesBy_zero.symm h).1

/-- **What a steady parser has rebuilt it rebuilds again**, from wherever it starts: the table takes
in what it has taken in already. -/
theorem built_again (hparser : parser.Steady) {calls calls' : List Call} {done done' : Progress}
    {w'' : Workspace σ} (h : Built parser path calls ⟨0, []⟩ w done w')
    (h' : Built parser path calls' ⟨0, []⟩ w' done' w'')
    (hsame : calls'.map Call.file = calls.map Call.file) :
    done'.failures = done.failures ∧ w''.table = w'.table ∧ w''.files = w'.files := by
  have hreports : parser.reports w'.memory calls' = parser.reports w.memory calls :=
    hparser.reports_eq hsame
  have htable : w''.table = w'.table := by
    rw [h'.table, tableAfter, Parser.found, hreports, h.table]
    exact Table.insertAll_insertAll w.table _
  refine ⟨?_, htable, ?_⟩
  · rw [h'.failures, h.failures, Parser.failures, Parser.failures, hreports]
  · have hagain := h'.saved
    rw [htable, FileTree.write_write h.saved, h.saved] at hagain
    exact (Except.ok.inj hagain).symm

/-- **Rebuilding again changes nothing**, if the sources are still the same: neither the outcome,
nor the table with the order of its entities, nor the snapshot or any other file.  On a disk that
takes everything, the second rebuild does not fail. -/
theorem load_twice {outcome : Outcome} (hparser : parser.Steady)
    (h : w.load settings parser path true = (.ok outcome, w'))
    (hsources : settings.sources w'.files = settings.sources w.files) :
    (∃ n saves failures, outcome = .rebuilt n saves failures) ∧
    w'.files.read path = .ok w'.table.encode ∧
    (∀ outcome' w'', w'.load settings parser path true = (.ok outcome', w'') →
      outcome' = outcome ∧ w''.table = w'.table ∧ w''.files = w'.files) ∧
    (w.disk = .ample → ∃ w'', w'.load settings parser path true = (.ok outcome, w'')) := by
  cases outcome with
  | restored n => exact absurd h rebuild_ne_restored
  | rebuilt n saves failures =>
    obtain ⟨sources, hlisted, hn, hfollow⟩ := rebuild_eq_ok_iff.1 h
    obtain ⟨calls, hcalls, hbuilt⟩ := built_of_follow hfollow
    -- the second rebuild follows the same plan, and so it saves as often
    have hagain : ∀ {done : Progress} {w'' : Workspace σ},
        w'.follow parser path (settings.policy.plan 0 sources) ⟨0, []⟩ = (.ok done, w'') →
        done = ⟨saves, failures⟩ ∧ w''.table = w'.table ∧ w''.files = w'.files := by
      intro done w'' hfollow'
      obtain ⟨calls', hcalls', hbuilt'⟩ := built_of_follow hfollow'
      obtain ⟨hfailures, hsame⟩ := built_again hparser hbuilt hbuilt' (hcalls'.trans hcalls.symm)
      have hsaves := (saves_of_follow hfollow').trans (saves_of_follow hfollow).symm
      cases done
      exact ⟨congrArg₂ Progress.mk hsaves hfailures, hsame⟩
    refine ⟨⟨n, saves, failures, rfl⟩, FileTree.read_write hbuilt.saved, ?_, ?_⟩
    · intro outcome' w'' h'
      cases outcome' with
      | restored m => exact absurd h' rebuild_ne_restored
      | rebuilt m saves' failures' =>
        obtain ⟨sources', hlisted', hm, hfollow'⟩ := rebuild_eq_ok_iff.1 h'
        rw [hsources, hlisted] at hlisted'
        cases hlisted'
        obtain ⟨hdone, hsame⟩ := hagain hfollow'
        cases hdone
        exact ⟨by rw [hm, hn], hsame⟩
    · intro hdisk
      obtain ⟨home, htarget⟩ := FileTree.exists_write_iff.1 ⟨_, hbuilt.saved⟩
      have htarget' : w'.files.target path = .ok home :=
        (FileTree.target_write hbuilt.saved).trans htarget
      have hkept := disk_load settings parser path true w
      rw [h] at hkept
      obtain ⟨done, w'', hfollow'⟩ :=
        follow_ok parser (settings.policy.plan 0 sources) ⟨0, []⟩ (hkept.trans hdisk) htarget'
      refine ⟨w'', rebuild_eq_ok_iff.2 ⟨sources, hsources.trans hlisted, hn, ?_⟩⟩
      rw [hfollow', (hagain hfollow').1]

/-- Three files that register one path with three kinds, and the Root again. -/
theorem load_twice_conflicting :
    let parser : Parser Nat := ⟨fun n _ file =>
      (⟨[Entity.atPath ⟨"A"⟩ ⟨file⟩, Entity.root.withProperty "last" (.text file),
        Entity.atPath ⟨file⟩ ⟨"file"⟩],
        if file = "./b.rb" then some ⟨file, "bad"⟩ else none⟩, n + 1)⟩
    let files : FileTree := ⟨.file ⟨"a.rb", by decide⟩ [] (.file ⟨"b.rb", by decide⟩ []
      (.file ⟨"c.rb", by decide⟩ [] .empty)), by simp [Folder.Ordered, Folder.names]; decide⟩
    let w : Workspace Nat := ⟨.fresh, files, .ample, 0, []⟩
    let settings : Settings := { Settings.standard with policy := .everyFiles 2 }
    let w' := (w.load settings parser "s" true).2
    let outcome : Outcome := .rebuilt 3 2 [⟨"./b.rb", "bad"⟩]
    (parser.Steady ∧ w.load settings parser "s" true = (.ok outcome, w') ∧
      settings.sources w'.files = settings.sources w.files ∧ w.disk = .ample) ∧
    ∃ w'', w'.load settings parser "s" true = (.ok outcome, w'') ∧ w''.table = w'.table ∧
      w''.files = w'.files := by
  intro parser files w settings w' outcome
  have hparser : parser.Steady := fun _ _ _ _ _ => rfl
  have h : w.load settings parser "s" true = (.ok outcome, w') := Prod.ext (by decide +kernel) rfl
  have hsources : settings.sources w'.files = settings.sources w.files := by decide +kernel
  obtain ⟨-, -, hsame, hends⟩ := load_twice hparser h hsources
  obtain ⟨w'', hagain⟩ := hends rfl
  exact ⟨⟨hparser, h, hsources, rfl⟩, w'', hagain, (hsame _ w'' hagain).2⟩

end Workspace
end SymbolTable
