/-
# What is saved while a table is rebuilt

At every moment of a rebuild three things say what the file at the snapshot's path holds and how
it came to be there: which calls of the parser have been made, after how many of them the last save
was made, and how many saves there were (`Reached`).  Parsing a file adds to the first, saving moves
the other two, and the policy's schedule says where they stand after every file.

The tree that the parser's next call finds is therefore known: it is the one that was there before
the load, with the last saved table in it (`Holds`).  What that table is depends on the calls
before, and these on the trees that they have found in turn, so the calls are carried along.

* `Reached.parse`, `Reached.save`: the two steps of a rebuild;
* `reached_of_follow`: the whole of it;
* `load_checkpoints`: what can be seen of a load that has rebuilt the table.
-/
import SymbolTable.Proofs.Loading.Rebuilding
import SymbolTable.Proofs.Loading.Schedules

namespace SymbolTable

variable {σ : Type}

/-! ## 1. The first calls -/

theorem Parser.memoryAfter_append (parser : Parser σ) (calls calls' : List Call) :
    ∀ memory : σ, parser.memoryAfter memory (calls ++ calls') =
      parser.memoryAfter (parser.memoryAfter memory calls) calls' := by
  induction calls with
  | nil => exact fun _ => rfl
  | cons call rest ih => exact fun memory => ih _

theorem Parser.reports_append (parser : Parser σ) (calls calls' : List Call) :
    ∀ memory : σ, parser.reports memory (calls ++ calls') =
      parser.reports memory calls ++ parser.reports (parser.memoryAfter memory calls) calls' := by
  induction calls with
  | nil => exact fun _ => rfl
  | cons call rest ih => exact fun memory => congrArg (_ :: ·) (ih _)

namespace Workspace

variable {parser : Parser σ} {policy : SavePolicy} {path : String} {w u u' : Workspace σ}

theorem tableAfter_append_singleton (calls : List Call) (call : Call) :
    w.tableAfter parser (calls ++ [call]) =
      (w.tableAfter parser calls).insertAll
        (parser.parse (parser.memoryAfter w.memory calls) call.files call.file).1.found := by
  simp [tableAfter, Parser.found, Parser.reports_append, Parser.reports, Table.insertAll]

/-! ## 2. Moments of a rebuild -/

/-- The files as they are when the last save was made after `last` of the calls; nothing was saved
yet if there is no such number. -/
def Holds (parser : Parser σ) (path : String) (w : Workspace σ) (calls : List Call)
    (last : Option Nat) (files : FileTree) : Prop :=
  match last with
  | some i => w.files.write path (w.tableAfter parser (calls.take i)).encode = .ok files
  | none => files = w.files

/-- More calls do not change what the first ones have left. -/
theorem Holds.append {calls : List Call} {last : Option Nat} {files : FileTree}
    (h : Holds parser path w calls last files) (hlast : ∀ i ∈ last, i ≤ calls.length)
    (more : List Call) : Holds parser path w (calls ++ more) last files := by
  cases last with
  | none => exact h
  | some i =>
    rw [Holds, List.take_append_of_le_length (hlast i rfl)]
    exact h

/-- The moment at which these calls have been made, for the first of the sources.  The last save was
made after `last` of them, and there were `saves`. -/
structure Reached (parser : Parser σ) (policy : SavePolicy) (path : String) (w : Workspace σ)
    (sources : List String) (calls : List Call) (last : Option Nat) (saves : Nat)
    (u : Workspace σ) : Prop where
  named : calls.map Call.file = sources.take calls.length
  table : u.table = w.tableAfter parser calls
  memory : u.memory = parser.memoryAfter w.memory calls
  files : Holds parser path w calls last u.files
  log : ∃ events, u.log = w.log ++ events ∧ events.count .saved = saves ∧ .unsaved ∉ events ∧
    callsOf events = calls
  /-- Each call so far found the files as the policy says. -/
  found : ∀ i call, calls[i]? = some call →
    Holds parser path w calls (policy.lastSave? i) call.files

namespace Reached

variable {sources : List String} {calls : List Call} {saves : Nat} {last : Option Nat}

theorem start (sources : List String) : Reached parser policy path w sources [] none 0 w where
  named := rfl
  table := rfl
  memory := rfl
  files := rfl
  log := ⟨[], by simp [callsOf]⟩
  found := by simp

/-- Whatever was saved is overwritten. -/
theorem save (h : Reached parser policy path w sources calls last saves u)
    (hsave : u.save path = (.ok (), u')) :
    Reached parser policy path w sources calls (some calls.length) (saves + 1) u' := by
  obtain ⟨files, hwrite, -, rfl⟩ := save_eq_ok_iff.1 hsave
  obtain ⟨events, hlog, hcount, hwhole, hcalls⟩ := h.log
  refine ⟨h.named, h.table, h.memory, ?_, ⟨events ++ [.saved], ?_, ?_, ?_, ?_⟩, h.found⟩
  · have hold := h.files
    rw [h.table] at hwrite
    rw [Holds, List.take_length]
    cases last with
    | none =>
      rw [Holds] at hold
      rwa [hold] at hwrite
    | some i => exact (FileTree.write_write hold _).symm.trans hwrite
  · simp [hlog]
  · simp [hcount]
  · simp [hwhole]
  · rw [callsOf_append, hcalls]
    exact List.append_nil calls

/-- The file that comes next is parsed at the moment that the schedule has reached. -/
theorem parse {file : String}
    (h : Reached parser policy path w sources calls (policy.lastSave? calls.length) saves u)
    (hfile : sources[calls.length]? = some file) :
    Reached parser policy path w sources (calls ++ [⟨file, u.files⟩])
      (policy.lastSave? calls.length) saves (u.parseFile parser file).2 := by
  obtain ⟨events, hlog, hcount, hwhole, hcalls⟩ := h.log
  have hlast : ∀ j ≤ calls.length, ∀ i ∈ policy.lastSave? j, i ≤ calls.length :=
    fun j hj i hi => Nat.le_trans (SavePolicy.lastSave?_le hi) hj
  refine ⟨?_, ?_, ?_, h.files.append (hlast _ (Nat.le_refl _)) _,
    ⟨events ++ [.called file u.files], ?_, ?_, ?_, ?_⟩, ?_⟩
  · rw [List.map_append, h.named, List.length_append, List.length_singleton, List.take_add_one,
      hfile]
    rfl
  · rw [tableAfter_append_singleton, ← h.table, ← h.memory]
    rfl
  · rw [Parser.memoryAfter_append, ← h.memory]
    rfl
  · simp [parseFile, hlog]
  · simp [hcount]
  · simp [hwhole]
  · rw [callsOf_append, hcalls]
    rfl
  · intro i call hi
    rcases Nat.lt_trichotomy i calls.length with hlt | rfl | hgt
    · rw [List.getElem?_append_left hlt] at hi
      exact (h.found i call hi).append (hlast i (Nat.le_of_lt hlt)) _
    · rw [List.getElem?_concat_length] at hi
      obtain rfl := Option.some.inj hi
      exact h.files.append (hlast _ (Nat.le_refl _)) _
    · rw [List.getElem?_eq_none (by rwa [List.length_append])] at hi
      cases hi

end Reached

/-- **Following the plan for the files that are left.**  The induction is on these files; the
schedule is kept because a save is made exactly where it is due. -/
theorem reached_of_follow {sources : List String} (rest : List String) :
    ∀ {j : Nat} {calls : List Call} {done done' : Progress} {u u' : Workspace σ},
      calls.length = j → j ≤ sources.length → sources.drop j = rest →
      Reached parser policy path w sources calls (policy.lastSave? j) done.saves u →
      done.saves = policy.savesBy j →
      u.follow parser path (policy.plan j rest) done = (.ok done', u') →
      done'.saves = policy.savesFor sources.length ∧ ∃ calls', calls'.length = sources.length ∧
        Reached parser policy path w sources calls' (some sources.length) done'.saves u' := by
  induction rest with
  | nil =>
    intro j calls done done' u u' hlength hj hrest h hsaves hfollow
    obtain rfl : j = sources.length := Nat.le_antisymm hj (List.drop_eq_nil_iff.1 hrest)
    have htotal := policy.savesFor_eq sources.length
    rw [SavePolicy.plan] at hfollow
    split at hfollow
    · next hlast =>
      obtain ⟨u₁, hsave, hfollow⟩ := follow_save_eq_ok_iff.1 hfollow
      cases hfollow
      rw [if_pos hlast] at htotal
      exact ⟨by rw [htotal, ← hsaves], calls, hlength, hlength ▸ h.save hsave⟩
    · next hlast =>
      cases hfollow
      rw [if_neg hlast] at htotal
      rw [not_or, Bool.not_eq_true', Bool.not_eq_false] at hlast
      have hsaved : policy.lastSave? sources.length = some sources.length := by
        obtain ⟨m, hm⟩ := Nat.exists_eq_succ_of_ne_zero hlast.1
        rw [hm] at hlast ⊢
        exact SavePolicy.lastSave?_of_isDue hlast.2
      rw [hsaved] at h
      exact ⟨by rw [htotal, ← hsaves, Nat.add_zero], calls, hlength, h⟩
  | cons file rest ih =>
    intro j calls done done' u u' hlength hj hrest h hsaves hfollow
    subst hlength
    have hfile : sources[calls.length]? = some file := by
      rw [← List.head?_drop, hrest]
      rfl
    have hlt : calls.length < sources.length := (List.getElem?_eq_some_iff.1 hfile).1
    have hrest' : sources.drop (calls.length + 1) = rest := by
      rw [← List.tail_drop, hrest]
      rfl
    have hparse := h.parse hfile
    have hlength : (calls ++ [Call.mk file u.files]).length = calls.length + 1 := List.length_append
    have hby := policy.savesBy_succ calls.length
    have hlast := policy.lastSave?_succ calls.length
    rw [SavePolicy.plan, follow] at hfollow
    by_cases hdue : policy.isDue (calls.length + 1)
    · rw [if_pos hdue] at hfollow hby hlast
      obtain ⟨u₁, hsave, hfollow⟩ := follow_save_eq_ok_iff.1 hfollow
      have hsaved := hparse.save hsave
      rw [hlength, ← hlast] at hsaved
      exact ih hlength hlt hrest' hsaved (by rw [hby, ← hsaves]) hfollow
    · rw [if_neg hdue] at hfollow hby hlast
      rw [← hlast] at hparse
      refine ih hlength hlt hrest' ?_ ?_ hfollow
      · exact hparse
      · rw [hby, ← hsaves, Nat.add_zero]

/-! ## 3. Loads that rebuild -/

variable {settings : Settings} {force : Bool} {n saves : Nat} {failures : List ParseError}

/-- What a call of the parser finds after `j` others: the table that was saved last, or the files of
before the load if nothing was saved yet.  With a period that has passed, less than a period of
files is missing from it. -/
structure Finds (parser : Parser σ) (policy : SavePolicy) (path : String) (w : Workspace σ)
    (calls : List Call) (j : Nat) (files : FileTree) : Prop where
  snapshot : match policy.lastSave? j with
    | some i => files.read path = .ok (w.tableAfter parser (calls.take i)).encode
    | none => files = w.files
  recent : ∀ k, policy.period? = some k → k ≤ j → ∃ i, i ≤ j ∧ j < i + k ∧
    files.read path = .ok (w.tableAfter parser (calls.take i)).encode

/-- What can be seen of the saves of a rebuild. -/
structure Checkpointed (parser : Parser σ) (policy : SavePolicy) (path : String)
    (sources : List String) (calls : List Call) (w : Workspace σ) (saves : Nat)
    (w' : Workspace σ) : Prop where
  /-- With a period, one save for every period that was begun, and at least one. -/
  saves_eq : saves = policy.savesFor sources.length
  /-- The table was written so often, and each time to its end. -/
  log : ∃ events, w'.log = w.log ++ events ∧ events.count .saved = saves ∧ .unsaved ∉ events ∧
    callsOf events = calls
  /-- The parser was called once for every file. -/
  named : calls.map Call.file = sources
  finds : ∀ j call, calls[j]? = some call → Finds parser policy path w calls j call.files
  /-- In the end nothing is missing. -/
  last : w'.files.read path = .ok (w.tableAfter parser calls).encode

theorem Holds.finds {calls : List Call} {j : Nat} {files : FileTree}
    (h : Holds parser path w calls (policy.lastSave? j) files) :
    Finds parser policy path w calls j files where
  snapshot := by
    cases hlast : policy.lastSave? j with
    | none => rwa [hlast] at h
    | some i =>
      rw [hlast] at h
      exact FileTree.read_write h
  recent k hk hkj := by
    obtain ⟨i, hlast, hij, hji⟩ := SavePolicy.lastSave?_of_period? hk hkj
    rw [hlast] at h
    exact ⟨i, hij, hji, FileTree.read_write h⟩

/-- **What is saved while a load rebuilds the table**, how often, and what each call of the parser
finds of it. -/
theorem load_checkpoints
    (h : w.load settings parser path force = (.ok (.rebuilt n saves failures), u)) :
    ∃ sources calls, settings.sources w.files = .ok sources ∧ n = sources.length ∧
      Checkpointed parser settings.policy path sources calls w saves u := by
  rw [load_eq_rebuild h, rebuild_eq_ok_iff] at h
  obtain ⟨sources, hsources, hn, hfollow⟩ := h
  have hstart : Reached parser settings.policy path w sources []
      (settings.policy.lastSave? 0) 0 w := SavePolicy.lastSave?_zero ▸ Reached.start sources
  obtain ⟨hsaves, calls, hlength, hreached⟩ := reached_of_follow sources List.length_nil
    (Nat.zero_le _) rfl hstart SavePolicy.savesBy_zero.symm hfollow
  have hlast := FileTree.read_write hreached.files
  rw [← hlength, List.take_length] at hlast
  have hnamed := hreached.named
  rw [hlength, List.take_length] at hnamed
  exact ⟨sources, calls, hsources, hn, {
    saves_eq := hsaves
    log := hreached.log
    named := hnamed
    finds := fun j call hj => (hreached.found j call hj).finds
    last := hlast }⟩

/-- Three files and a save after every second one: the third call finds the first two files, and
the last save is made for the third. -/
theorem load_checkpoints_three :
    let parser : Parser Unit := ⟨fun _ _ file => (⟨[Entity.atPath ⟨file⟩ ⟨"file"⟩], none⟩, ())⟩
    let files : FileTree := ⟨.file ⟨"a.rb", by decide⟩ [] (.file ⟨"b.rb", by decide⟩ []
      (.file ⟨"c.rb", by decide⟩ [] .empty)), by simp [Folder.Ordered, Folder.names]; decide⟩
    let w : Workspace Unit := ⟨.fresh, files, .ample, (), []⟩
    let settings : Settings := { Settings.standard with policy := .everyFiles 2 }
    let w' := (w.load settings parser "s" true).2
    w.load settings parser "s" true = (.ok (.rebuilt 3 2 []), w') ∧
      ∃ sources calls, settings.sources w.files = .ok sources ∧ 3 = sources.length ∧
        Checkpointed parser (.everyFiles 2) "s" sources calls w 2 w' := by
  intro parser files w settings w'
  have h : w.load settings parser "s" true = (.ok (.rebuilt 3 2 []), w') :=
    Prod.ext (by decide +kernel) rfl
  exact ⟨h, load_checkpoints h⟩

end Workspace
end SymbolTable
