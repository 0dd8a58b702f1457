/-
# Rebuilding a table

A rebuild parses every source file once, in order, and takes in all that is found, also in files
that do not parse.  What is left in the end is the table with all of it, and the files as one save
of that table would have left them.

Two facts make it up.  Whatever the actions are, the parser's calls tell what is in the table, and
no file but the snapshot was written (`Ran`); every action keeps that when it is put in front.  And
the last thing that a plan changes is saved (`saved_of_follow`), because a plan leaves out its last
save only where the action before it was one.  A save is overwritten by the next one, so the two
together say that nothing but the last save counts (`Built`).

How often a rebuild saves on the way makes no difference in the end, provided that the parser does
not notice: it is handed the files, and what was saved by then is one of them.  A parser that is
blind for this file (`Parser.Blind`) builds the same table under every policy.  One that reads it
need not, and the snapshot's path may be that of a source.

* `ran_of_follow`, `built_of_follow`: following any actions, and a plan, to their end;
* `follow_ok`: what the disk does not disturb can be followed to the end;
* `load_rebuilt`: a load that has rebuilt the table.
-/
import SymbolTable.Proofs.Loading.Steps
import Mathlib.Control.Monad.Basic

namespace SymbolTable

variable {σ : Type}

/-! ## 1. What is seen of a parser -/

/-- A call of the parser: the file that it was called for, and all the files as they were then. -/
structure Call where
  file : String
  files : FileTree

/-- The call that an event is, if it is one. -/
def Event.call? : Event → Option Call
  | called file files => some ⟨file, files⟩
  | saved | unsaved => none

/-- The calls of the parser among some events, from first to last. -/
def callsOf (events : List Event) : List Call := events.filterMap Event.call?

theorem callsOf_append (events events' : List Event) :
    callsOf (events ++ events') = callsOf events ++ callsOf events' := List.filterMap_append

/-- What a parser reports when it is called again and again. -/
def Parser.reports (parser : Parser σ) (memory : σ) : List Call → List Report
  | [] => []
  | call :: rest =>
    (parser.parse memory call.files call.file).1 ::
      parser.reports (parser.parse memory call.files call.file).2 rest

/-- What a parser remembers after it has been called again and again. -/
def Parser.memoryAfter (parser : Parser σ) (memory : σ) : List Call → σ
  | [] => memory
  | call :: rest => parser.memoryAfter (parser.parse memory call.files call.file).2 rest

/-- All that is found in some calls. -/
def Parser.found (parser : Parser σ) (memory : σ) (calls : List Call) : List Entity :=
  (parser.reports memory calls).flatMap Report.found

/-- Why files do not parse, as far as they do not. -/
def Parser.failures (parser : Parser σ) (memory : σ) (calls : List Call) : List ParseError :=
  (parser.reports memory calls).filterMap Report.failure

/-- The file that an action parses. -/
def Action.file? : Action → Option String
  | parse file => some file
  | save => none

/-- The files that are parsed by some actions, from first to last. -/
def filesOf (actions : List Action) : List String := actions.filterMap Action.file?

theorem filesOf_plan (policy : SavePolicy) (files : List String) :
    ∀ k : Nat, filesOf (policy.plan k files) = files := by
  induction files with
  | nil =>
    intro k
    rw [SavePolicy.plan]
    split
    · rfl
    · rfl
  | cons file rest ih =>
    intro k
    rw [SavePolicy.plan]
    split
    · exact congrArg (file :: ·) (ih (k + 1))
    · exact congrArg (file :: ·) (ih (k + 1))

/-- What has become of the files when nothing but the one at `path` was written, if that. -/
def FileTree.Rewritten (path : String) (files files' : FileTree) : Prop :=
  files' = files ∨ ∃ content, files.write path content = .ok files'

namespace FileTree.Rewritten

variable {path : String} {content : Bytes} {files files₁ files' : FileTree}

theorem of_write (hwrite : files.write path content = .ok files₁)
    (h : Rewritten path files₁ files') : Rewritten path files files' := by
  rcases h with rfl | ⟨content', h⟩
  · exact Or.inr ⟨content, hwrite⟩
  · exact Or.inr ⟨content', (write_write hwrite content').symm.trans h⟩

theorem target (h : Rewritten path files files') : files'.target path = files.target path := by
  rcases h with rfl | ⟨content, h⟩
  · rfl
  · exact target_write h

/-- What was written before makes no difference for the next write. -/
theorem write (h : Rewritten path files files') (content : Bytes) :
    files'.write path content = files.write path content := by
  rcases h with rfl | ⟨content', h⟩
  · rfl
  · exact write_write h content

end FileTree.Rewritten

/-- What the parser reports, starting among these files, does not depend on what is written to
`path` before it is called. -/
def Parser.Blind (parser : Parser σ) (path : String) (files : FileTree) : Prop :=
  ∀ (memory : σ) (calls : List Call), (∀ call ∈ calls, FileTree.Rewritten path files call.files) →
    parser.reports memory calls = parser.reports memory (calls.map fun call => ⟨call.file, files⟩)

/-- A blind parser that is called for the same files reports the same. -/
theorem Parser.Blind.reports_eq {parser : Parser σ} {path : String} {files : FileTree}
    (h : parser.Blind path files) {memory : σ} {calls calls' : List Call}
    (hcalls : ∀ call ∈ calls, FileTree.Rewritten path files call.files)
    (hcalls' : ∀ call ∈ calls', FileTree.Rewritten path files call.files)
    (hsame : calls.map Call.file = calls'.map Call.file) :
    parser.reports memory calls = parser.reports memory calls' := by
  have hmap : ∀ cs : List Call,
      cs.map (fun call => ⟨call.file, files⟩) = (cs.map Call.file).map (Call.mk · files) := by
    simp
  rw [h memory calls hcalls, h memory calls' hcalls', hmap, hmap, hsame]

namespace Workspace

/-- The calls of the parser, from first to last. -/
def calls (w : Workspace σ) : List Call := callsOf w.log

/-- The table with all that is found in some calls. -/
def tableAfter (parser : Parser σ) (w : Workspace σ) (calls : List Call) : Table :=
  w.table.insertAll (parser.found w.memory calls)

variable {parser : Parser σ} {path : String} {w w' : Workspace σ}

theorem calls_parseFile (file : String) :
    (w.parseFile parser file).2.calls = w.calls ++ [⟨file, w.files⟩] := callsOf_append _ _

theorem calls_note {event : Event} (h : event.call? = none) : (w.note event).calls = w.calls := by
  simp [calls, callsOf, h]

theorem tableAfter_nil : w.tableAfter parser [] = w.table := rfl

theorem tableAfter_cons (file : String) (rest : List Call) :
    w.tableAfter parser (⟨file, w.files⟩ :: rest) =
      (w.parseFile parser file).2.tableAfter parser rest := by
  simp [tableAfter, parseFile, Parser.found, Parser.reports, Table.insertAll]

/-! ## 2. What following a plan leaves -/

/-- `w'` and `done'` are what is left when the parser was called so from `w` and `done` on, whatever
was saved on the way. -/
structure Ran (parser : Parser σ) (path : String) (calls : List Call) (done : Progress)
    (w : Workspace σ) (done' : Progress) (w' : Workspace σ) : Prop where
  logged : w'.calls = w.calls ++ calls
  table : w'.table = w.tableAfter parser calls
  failures : done'.failures = done.failures ++ parser.failures w.memory calls
  disk : w'.disk = w.disk
  files : FileTree.Rewritten path w.files w'.files
  /-- A call finds everything but the snapshot as it was. -/
  found : ∀ call ∈ calls, FileTree.Rewritten path w.files call.files

namespace Ran

variable {file : String} {calls : List Call} {done done' : Progress}

theorem nil : Ran parser path [] done w done w where
  logged := (List.append_nil _).symm
  table := rfl
  failures := (List.append_nil _).symm
  disk := rfl
  files := Or.inl rfl
  found := nofun

/-- A file that is parsed first. -/
theorem parse
    (h : Ran parser path calls
      { done with failures := done.failures ++ (w.parseFile parser file).1.failure.toList }
      (w.parseFile parser file).2 done' w') :
    Ran parser path (⟨file, w.files⟩ :: calls) done w done' w' where
  logged := by
    rw [h.logged, calls_parseFile, List.append_assoc]
    rfl
  table := h.table.trans (tableAfter_cons file calls).symm
  failures := by
    rw [h.failures, List.append_assoc]
    cases hreport : (parser.parse w.memory w.files file).1.failure <;>
      simp [parseFile, Parser.failures, Parser.reports, hreport]
  disk := h.disk
  files := h.files
  found := List.forall_mem_cons.2 ⟨Or.inl rfl, h.found⟩

/-- A save that is made first. -/
theorem save {w₁ : Workspace σ} (hsave : w.save path = (.ok (), w₁))
    (h : Ran parser path calls { done with saves := done.saves + 1 } w₁ done' w') :
    Ran parser path calls done w done' w' := by
  obtain ⟨files, hwrite, -, rfl⟩ := save_eq_ok_iff.1 hsave
  exact {
    logged := h.logged.trans (congrArg (· ++ calls) (calls_note rfl))
    table := h.table
    failures := h.failures
    disk := h.disk
    files := h.files.of_write hwrite
    found := fun call hcall => (h.found call hcall).of_write hwrite }

end Ran

variable {policy : SavePolicy} {done done' : Progress}

/-- **Following any actions to their end.** -/
theorem ran_of_follow {actions : List Action} :
    ∀ {done : Progress} {w : Workspace σ}, w.follow parser path actions done = (.ok done', w') →
      ∃ calls, calls.map Call.file = filesOf actions ∧ Ran parser path calls done w done' w' := by
  induction actions with
  | nil =>
    intro done w h
    cases h
    exact ⟨[], rfl, Ran.nil⟩
  | cons action rest ih =>
    intro done w h
    cases action with
    | parse file =>
      rw [follow_parse] at h
      obtain ⟨calls, hcalls, hran⟩ := ih h
      exact ⟨⟨file, w.files⟩ :: calls, congrArg (file :: ·) hcalls, hran.parse⟩
    | save =>
      obtain ⟨w₁, hsave, h⟩ := follow_save_eq_ok_iff.1 h
      obtain ⟨calls, hcalls, hran⟩ := ih h
      exact ⟨calls, hcalls, hran.save hsave⟩

/-- The last thing that a plan changes is saved.  Where the plan need not save because a save is
what came before, that save is still good. -/
theorem saved_of_follow (files : List String) :
    ∀ {k : Nat} {done : Progress} {w : Workspace σ},
      (k ≠ 0 → policy.isDue k → w.files.write path w.table.encode = .ok w.files) →
      w.follow parser path (policy.plan k files) done = (.ok done', w') →
      w'.files.write path w'.table.encode = .ok w'.files := by
  induction files with
  | nil =>
    intro k done w hsaved h
    rw [SavePolicy.plan] at h
    split at h
    · obtain ⟨w₁, hsave, h⟩ := follow_save_eq_ok_iff.1 h
      cases h
      exact write_of_save hsave
    · next hdue =>
      rw [not_or, Bool.not_eq_true', Bool.not_eq_false] at hdue
      cases h
      exact hsaved hdue.1 hdue.2
  | cons file rest ih =>
    intro k done w _ h
    rw [SavePolicy.plan, follow_parse] at h
    by_cases hdue : policy.isDue (k + 1)
    · rw [if_pos hdue] at h
      obtain ⟨w₁, hsave, h⟩ := follow_save_eq_ok_iff.1 h
      exact ih (fun _ _ => write_of_save hsave) h
    · rw [if_neg hdue] at h
      exact ih (fun _ hdue' => absurd hdue' hdue) h

/-- What is left when a plan was followed to its end: the files are as if the last table had been
saved, and nothing before it. -/
structure Built (parser : Parser σ) (path : String) (calls : List Call) (done : Progress)
    (w : Workspace σ) (done' : Progress) (w' : Workspace σ) : Prop
    extends Ran parser path calls done w done' w' where
  saved : w.files.write path w'.table.encode = .ok w'.files

/-- **Following the plan for some files to its end.** -/
theorem built_of_follow {files : List String}
    (h : w.follow parser path (policy.plan 0 files) done = (.ok done', w')) :
    ∃ calls, calls.map Call.file = files ∧ Built parser path calls done w done' w' := by
  obtain ⟨calls, hcalls, hran⟩ := ran_of_follow h
  have hsaved := saved_of_follow files (fun h0 => absurd rfl h0) h
  rw [hran.files.write] at hsaved
  exact ⟨calls, hcalls.trans (filesOf_plan policy files 0), hran, hsaved⟩

/-- **Where there is a place for the snapshot and the disk takes everything, every plan can be
followed to its end.** -/
theorem follow_ok (parser : Parser σ) {home : FileTree.Place × FileName} (actions : List Action) :
    ∀ (done : Progress) {w : Workspace σ}, w.disk = .ample → w.files.target path = .ok home →
      ∃ done' w', w.follow parser path actions done = (.ok done', w') := by
  induction actions with
  | nil => exact fun done w _ _ => ⟨done, w, rfl⟩
  | cons action rest ih =>
    intro done w hdisk htarget
    cases action with
    | parse file => exact ih _ (w := (w.parseFile parser file).2) hdisk htarget
    | save =>
      obtain ⟨w₁, hsave, hdisk₁, htarget₁⟩ := save_of_ample hdisk htarget
      obtain ⟨done', w', hfollow⟩ := ih { done with saves := done.saves + 1 } hdisk₁ htarget₁
      exact ⟨done', w', follow_save_eq_ok_iff.2 ⟨w₁, hsave, hfollow⟩⟩

/-! ## 3. Loads that rebuild -/

variable {settings : Settings} {force : Bool} {n saves : Nat} {failures : List ParseError}

/-- What rebuilding a table from some files has done. -/
structure Rebuilt (parser : Parser σ) (path : String) (sources : List String) (calls : List Call)
    (w : Workspace σ) (failures : List ParseError) (w' : Workspace σ) : Prop where
  /-- The parser was called once for every file, in order. -/
  logged : w'.calls = w.calls ++ calls
  named : calls.map Call.file = sources
  /-- All that was found was stored, one after the other, in the table that was there. -/
  table : w'.table = w.tableAfter parser calls
  failures : failures = parser.failures w.memory calls
  /-- The file at `path` holds the table. -/
  snapshot : w'.files.read path = .ok w'.table.encode
  /-- At every other place is what was there. -/
  others : FileTree.SameElsewhere path w.files w'.files

theorem Built.rebuilt {calls : List Call} {sources : List String}
    (h : Built parser path calls ⟨0, []⟩ w done' w') (hcalls : calls.map Call.file = sources) :
    Rebuilt parser path sources calls w done'.failures w' where
  logged := h.logged
  named := hcalls
  table := h.table
  failures := h.failures
  snapshot := FileTree.read_write h.saved
  others := FileTree.sameElsewhere_write h.saved

/-- A parser that is not blind: it reads the file that it is called for, and finds something only
where nothing was written.  When the snapshot takes the place of the second file, it depends on the
policy whether that has happened by the time of the second call. -/
example :
    let parser : Parser Unit := ⟨fun _ files file =>
      (⟨if files.read file = .ok [] then [Entity.atPath ⟨file⟩ ⟨"file"⟩] else [], none⟩, ())⟩
    let files : FileTree := ⟨.file ⟨"a.rb", by decide⟩ [] (.file ⟨"b.rb", by decide⟩ []
      (.file ⟨"c.rb", by decide⟩ [] .empty)), by simp [Folder.Ordered, Folder.names]; decide⟩
    let w : Workspace Unit := ⟨.fresh, files, .ample, (), []⟩
    let tableBy := fun policy =>
      (w.load { Settings.standard with policy } parser "b.rb" true).2.table.paths
    tableBy .atEnd = [.root, ⟨"./a.rb"⟩, ⟨"./b.rb"⟩, ⟨"./c.rb"⟩] ∧
      tableBy .everyFile = [.root, ⟨"./a.rb"⟩, ⟨"./c.rb"⟩] := by
  intro parser files w tableBy
  exact ⟨by decide +kernel, by decide +kernel⟩

end Workspace
end SymbolTable
