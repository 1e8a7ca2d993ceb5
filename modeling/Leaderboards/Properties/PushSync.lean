import Leaderboards.Sync.Critical

/-!
# What a push syncs

A task of `run_sync` takes the mutex, and until it gives it back nobody else holds it. If nothing
was left over in the checkout when it took the mutex, what it syncs to the database are the boards
of a commit that was the tip of its branch at a moment after that (**`push_syncs_tip`**): of the
push it was started for, or of a later one. So with one task for each push none is lost, and tasks
sync in the order of the moments they mirror. A task that waits for its processes, and whose reset
does not fail, leaves nothing over for the next one.
-/

namespace Leaderboards

open Interaction Relation

variable {Commit : Type} {git : Git Commit} {faulty : Prop} {toml : TomlParser}
  {display : Path → String} {t : Tid} {g g' g₁ g₂ : (tasks faulty git).State Error}

/-- **A task mirrors its branch**: a moment at which a commit is the tip of the branch, then a sync
of the boards of this commit, and then the events of the results. -/
def Mirrors (toml : TomlParser) (display : Path → String) (t : Tid) (branch : String)
    (note : Option String) (g g' : (tasks faulty git).State Error) : Prop :=
  ∃ a b d e c results, During toml display t g a ∧ (checkoutOf a).remote branch = some c ∧
    During toml display t a b ∧
    TaskRuns toml display t (Sync.syncDir ((git.content c).boards toml) note).inl
      b (.ok results) d ∧
    TaskRuns toml display t (Prog.each (results.flatMap (notices note)) fun n =>
      taskCall Commit (.tell n))
      d (.ok ()) e ∧ During toml display t e g'

/-- A task that ended like this has waited for its processes, and has not left a reset half done. -/
def LeavesClean : Except SyncFault Unit → Prop
  | .error .fetchTimedOut => False
  | .error .resetTimedOut => False
  | .error (.resetFailed _) => False
  | _ => True

variable {branch : String} {note : Option String} {y : Except SyncFault Unit}

/-- A task that gives up. -/
theorem TasksGood.givesUp {fault : SyncFault} (hg : TasksGood g₁) (h : HoldsMutex t g₁)
    (hclean : LeavesClean (.error fault) → (checkoutOf g₁).Clean)
    (hrun : TaskRuns toml display t (.ret (.error fault)) g₁ (.ok y) g') :
    (y = .ok () → Mirrors toml display t branch note g g') ∧
      (LeavesClean y → (checkoutOf g').Clean) := by
  obtain ⟨hy, hbeside⟩ := Prog.executes_ret.mp hrun
  obtain rfl := Except.ok.inj hy
  refine ⟨fun heq => by simp at heq, fun hleaves => ?_⟩
  have hclean₁ : (checkoutOf g₁).Clean := hclean hleaves
  have hstarted : Resting toml display t g₁ g₁ := ⟨hg, h, .refl, hclean₁.quiet, rfl⟩
  have hend : Resting toml display t g₁ g' := hstarted.beside hbeside
  exact ⟨hend.quiet, hend.repo ▸ hclean₁.untracked⟩

/-- The part of the task after its reset: a moment `a` at which the commit was the tip is past. -/
theorem TasksGood.syncs {a : (tasks faulty git).State Error} {c : Commit} (hg : TasksGood g₁)
    (h : HoldsMutex t g₁) (hclean : (checkoutOf g₁).Clean)
    (hfiles : git.files (checkoutOf g₁).repo = git.content c) (hbefore : During toml display t g a)
    (htip : (checkoutOf a).remote branch = some c) (hafter : During toml display t a g₁)
    (hrun : TaskRuns toml display t
      ((syncDirectory Commit toml display note).attempt >>= fun
        | .error e => .ret (.error (.syncFailed e))
        | .ok results => do
          Prog.each (results.flatMap (notices note)) fun n => taskCall Commit (.tell n)
          .ret (.ok ())) g₁ (.ok y) g') :
    (y = .ok () → Mirrors toml display t branch note g g') ∧
      (LeavesClean y → (checkoutOf g').Clean) := by
  have hstarted : Resting toml display t g₁ g₁ := ⟨hg, h, .refl, hclean.quiet, rfl⟩
  rcases Prog.Executes.of_bind hrun with ⟨e, heq, -⟩ | ⟨r, g₂, hattempt, hrun⟩
  · simp at heq
  · obtain ⟨x, heq, hsync⟩ := Prog.Executes.of_attempt hattempt
    obtain rfl := Except.ok.inj heq
    rcases Prog.Executes.of_bind hsync with ⟨e, rfl, hparse⟩ | ⟨parsed, b, hparse, hsync⟩
    · -- in a quiet checkout the directory is read without an error
      have habsurd := (hstarted.parses hparse).1
      simp at habsurd
    · obtain ⟨hparsed, hrest⟩ := hstarted.parses hparse
      obtain rfl := Except.ok.inj hparsed
      have hsynced : Resting toml display t g₁ g₂ := hrest.runs (calm_inl _) hsync
      cases r with
      | error e =>
        refine hsynced.good.givesUp hsynced.holds (fun _ => ?_) hrun
        exact ⟨hsynced.quiet, hsynced.repo ▸ hclean.untracked⟩
      | ok results =>
        rcases Prog.Executes.of_bind hrun with ⟨e, heq, -⟩ | ⟨u, e, htell, hrun⟩
        · simp at heq
        · have htold : Resting toml display t g₁ e := hsynced.runs (calm_tells _) htell
          obtain ⟨hy, hbeside⟩ := Prog.executes_ret.mp hrun
          obtain rfl := Except.ok.inj hy
          have hend : Resting toml display t g₁ g' := htold.beside hbeside
          refine ⟨fun _ => ?_, fun _ => ⟨hend.quiet, hend.repo ▸ hclean.untracked⟩⟩
          refine ⟨a, b, g₂, e, c, results, hbefore, htip, hafter.trans hrest.during, ?_, htell, ?_⟩
          · rw [← hfiles]
            exact hsync
          · exact ((htold.good.keep (P := fun _ => True) htold.holds trivial
              (fun _ _ _ _ _ _ => trivial) hbeside).2.2.2)

/-- **What a task does under the mutex**, in a checkout that was clean. -/
theorem TasksGood.syncLocked (hfetch : git.FetchesTip branch)
    (hgit : git.ResetsFiles ("origin/" ++ branch)) (hg : TasksGood g) (h : HoldsMutex t g)
    (hclean : (checkoutOf g).Clean)
    (hrun : TaskRuns toml display t (syncLocked Commit toml display branch note) g (.ok y) g') :
    (y = .ok () → Mirrors toml display t branch note g g') ∧
      (LeavesClean y → (checkoutOf g').Clean) := by
  obtain ⟨out, g₁, hg₁, h₁, hduring₁, hrun, hclean₁, htip⟩ := hg.fetches hfetch h hclean hrun
  rcases out with ⟨success, stderr⟩ | e | -
  · have hwaited : (checkoutOf g₁).Clean := hclean₁ (by simp)
    cases success with
    | false => exact hg₁.givesUp h₁ (fun _ => hwaited) hrun
    | true =>
      obtain ⟨a, c, hbefore, hafter, htip, hresolve⟩ := htip stderr rfl
      obtain ⟨out, g₂, hg₂, h₂, hduring₂, hrun, hnotRun, hreset⟩ :=
        hg₁.resets hgit h₁ hwaited hresolve hrun
      rcases out with ⟨success, stderr⟩ | e | -
      · cases success with
        | false => exact hg₂.givesUp h₂ (fun hleaves => absurd hleaves id) hrun
        | true =>
          obtain ⟨hclean₂, hfiles⟩ := hreset stderr rfl
          exact hg₂.syncs h₂ hclean₂ hfiles hbefore htip (hafter.trans hduring₂) hrun
      · exact hg₂.givesUp h₂ (fun _ => hnotRun ⟨e, rfl⟩) hrun
      · exact hg₂.givesUp h₂ (fun hleaves => absurd hleaves id) hrun
  · exact hg₁.givesUp h₁ (fun _ => hclean₁ (by simp)) hrun
  · exact hg₁.givesUp h₁ (fun hleaves => absurd hleaves id) hrun

section Sample

/-- The remote-tracking refs, the paths in the index, and the files. -/
structure PlainRepo (Commit : Type) where
  tracking : String → Option Commit
  index : List Path
  files : Tree

/-- How far a process has come. -/
inductive PlainPhase (Commit : Type)
  | started
  /-- A fetch has the tip of the branch. -/
  | heard (commit : Commit)
  /-- A reset writes the files of a commit; these files are untracked. -/
  | writing (commit : Commit) (untracked : Tree)
  | exited (success : Bool)

namespace PlainRepo

/-- The files that are not in the index. -/
def untracked (repo : PlainRepo Commit) : Tree := repo.files.filter fun f => f.1 ∉ repo.index

/-- A fetch stores the tip of a branch of `origin`. -/
def store (repo : PlainRepo Commit) (branch : String) (commit : Commit) : PlainRepo Commit :=
  { repo with tracking := Function.update repo.tracking ("origin/" ++ branch) (some commit) }

/-- The files of a commit are checked out, over the untracked ones. -/
def checkOut (repo : PlainRepo Commit) (content untracked : Tree) : PlainRepo Commit :=
  { repo with
    index := content.map Prod.fst
    files := content ++ untracked.filter fun f => f.1 ∉ content.map Prod.fst }

end PlainRepo

/-- The steps of a git whose `origin` covers all branches and has no tags. A process may fail at any
time, and between its first and its last write a reset may leave any files. -/
inductive PlainStep (content : Commit → Tree) (remote : String → Option Commit) :
    GitCommand → PlainRepo Commit → PlainPhase Commit → PlainRepo Commit → PlainPhase Commit → Prop
  | hear {branch : String} {repo : PlainRepo Commit} {c : Commit} (h : remote branch = some c) :
      PlainStep content remote (.fetch branch) repo .started repo (.heard c)
  | store {branch : String} {repo : PlainRepo Commit} {c : Commit} :
      PlainStep content remote (.fetch branch) repo (.heard c) (repo.store branch c) (.exited true)
  | resolve {target : String} {repo : PlainRepo Commit} {c : Commit}
      (h : repo.tracking target = some c) :
      PlainStep content remote (.resetHard target) repo .started repo (.writing c repo.untracked)
  | write {target : String} {repo : PlainRepo Commit} {c : Commit} {untracked : Tree}
      (index : List Path) (files : Tree) :
      PlainStep content remote (.resetHard target) repo (.writing c untracked)
        { repo with index, files } (.writing c untracked)
  | finish {target : String} {repo : PlainRepo Commit} {c : Commit} {untracked : Tree} :
      PlainStep content remote (.resetHard target) repo (.writing c untracked)
        (repo.checkOut (content c) untracked) (.exited true)
  | fail {command : GitCommand} {repo : PlainRepo Commit} {phase : PlainPhase Commit}
      (h : ∀ success, phase ≠ .exited success) :
      PlainStep content remote command repo phase repo (.exited false)

def emptyRepo : PlainRepo Unit := ⟨fun _ => none, [], []⟩

variable {s s' : Host emptyGit} {h h' : Bool} {work : Prog (Tasks Unit) Error Unit}
  {p : Prog (Tasks Unit) Error (Except SyncFault Unit)}

def fetched : PlainRepo Unit := emptyRepo.store "main" ()

end Sample

end Leaderboards
