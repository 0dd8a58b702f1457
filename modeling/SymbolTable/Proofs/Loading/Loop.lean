/-
# A rebuild as a loop

A plan is made before a rebuild starts.  A loop over the sources need not make one: it can keep a
flag that says whether anything was parsed since the last save, and at the end save if the flag is
up, or if nothing was saved yet.  `loop` does that, and it does what the plan says.

The flag and the number of saves are what the loop goes by; the plan goes by the number of files
that are done.  What connects them holds before and after every file: the loop would save now, if
this were the end, exactly when nothing is done or the last file was not followed by a save.

* `loop_eq_follow`: the loop follows the plan;
* `rebuildInLoop_eq`: a rebuild that is done in this way.
-/
import SymbolTable.Proofs.Loading.Steps

namespace SymbolTable
namespace Workspace

variable {σ : Type}

/-- Parses the files that are left, when `done` are, and saves where the policy says so; and once
more at the end if something is `pending`, or if nothing was saved. -/
def loop (parser : Parser σ) (path : String) (policy : SavePolicy) :
    (files : List String) → (done : Nat) → (pending : Bool) → Progress → Workspace σ →
      Except SaveError Progress × Workspace σ
  | [], _, pending, progress, w =>
    if pending ∨ progress.saves = 0 then
      match w.save path with
      | (.ok (), w) => (.ok { progress with saves := progress.saves + 1 }, w)
      | (.error e, w) => (.error e, w)
    else (.ok progress, w)
  | file :: rest, done, _, progress, w =>
    let (report, w) := w.parseFile parser file
    let progress := { progress with failures := progress.failures ++ report.failure.toList }
    if policy.isDue (done + 1) then
      match w.save path with
      | (.ok (), w) =>
        loop parser path policy rest (done + 1) false
          { progress with saves := progress.saves + 1 } w
      | (.error e, w) => (.error e, w)
    else loop parser path policy rest (done + 1) true progress w

/-- Parses all source files and saves the table at `path`, in one loop. -/
def rebuildInLoop (settings : Settings) (parser : Parser σ) (path : String) (w : Workspace σ) :
    Except LoadError Outcome × Workspace σ :=
  match settings.sources w.files with
  | .error e => (.error (.unwalked e), w)
  | .ok sources =>
    match w.loop parser path settings.policy sources 0 false ⟨0, []⟩ with
    | (.ok progress, w) => (.ok (.rebuilt sources.length progress.saves progress.failures), w)
    | (.error e, w) => (.error (.unsaved e), w)

variable {parser : Parser σ} {path : String} {policy : SavePolicy}

/-- **The loop follows the plan.**  The induction is on the files that are left, and the hypothesis
is the invariant. -/
theorem loop_eq_follow (files : List String) :
    ∀ {done : Nat} {pending : Bool} {progress : Progress} {w : Workspace σ},
      (pending = true ∨ progress.saves = 0 ↔ done = 0 ∨ !policy.isDue done) →
      w.loop parser path policy files done pending progress =
        w.follow parser path (policy.plan done files) progress := by
  induction files with
  | nil =>
    intro done pending progress w hinv
    rw [loop, SavePolicy.plan]
    by_cases hlast : done = 0 ∨ !policy.isDue done
    · rw [if_pos (hinv.2 hlast), if_pos hlast, follow]
      rcases w.save path with ⟨e | ⟨⟨⟩⟩, u⟩
      · rfl
      · rfl
    · rw [if_neg fun h => hlast (hinv.1 h), if_neg hlast]
      rfl
  | cons file rest ih =>
    intro done pending progress w _
    rw [loop, SavePolicy.plan, follow_parse]
    dsimp only
    by_cases hdue : policy.isDue (done + 1)
    · rw [if_pos hdue, if_pos hdue, List.singleton_append, follow]
      rcases (w.parseFile parser file).2.save path with ⟨e | ⟨⟨⟩⟩, u⟩
      · rfl
      · exact ih (by simp [hdue])
    · rw [if_neg hdue, if_neg hdue]
      exact ih (by simp [hdue])

/-- **A rebuild in one loop does what a rebuild by plan does**, and leaves what it leaves. -/
theorem rebuildInLoop_eq (settings : Settings) (parser : Parser σ) (path : String)
    (w : Workspace σ) :
    w.rebuildInLoop settings parser path = w.rebuild settings parser path := by
  unfold rebuildInLoop rebuild
  cases settings.sources w.files with
  | error e => rfl
  | ok sources =>
    have hloop : w.loop parser path settings.policy sources 0 false ⟨0, []⟩ =
        w.follow parser path (settings.policy.plan 0 sources) ⟨0, []⟩ :=
      loop_eq_follow sources (by simp)
    rcases hfollow : w.follow parser path (settings.policy.plan 0 sources) ⟨0, []⟩ with
      ⟨e | done, u⟩
    · simp only [hloop, hfollow]
    · simp only [hloop, hfollow]

end Workspace
end SymbolTable
