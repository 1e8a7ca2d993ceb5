import Leaderboards.Sync.Checkout

/-!
# Runs of a single process of git

While one process works and the others have exited, the process runs alone beside the pushes
(`Git.Alone`, `Working`). What `run_sync` relies on is what git documents of such runs: a fetch that
ends well has moved the remote-tracking branch to a tip of the branch (`Git.FetchesTip`), and a
reset that ends well, in a checkout without untracked files, leaves the files of the commit and no
others (`Git.ResetsFiles`).
-/

namespace Leaderboards

open Relation

variable {Commit : Type} {git : Git Commit} {ck ck' : Checkout git} {pid : ℕ}

/-- Every process but one has exited. -/
def Checkout.Only (ck : Checkout git) (pid : ℕ) : Prop :=
  ∀ i p, ck.processes[i]? = some p → i ≠ pid → p.HasExited

/-- No process works. -/
def Checkout.Quiet (ck : Checkout git) : Prop := ∀ p ∈ ck.processes, p.HasExited

/-- **No process works, and there are no files that git does not know.** -/
structure Checkout.Clean (ck : Checkout git) : Prop where
  quiet : ck.Quiet
  untracked : git.untracked ck.repo = []

/-- A process that has exited takes no step. -/
theorem Process.HasExited.not_step {p : Process git} (h : p.HasExited)
    {remote : String → Option Commit} {repo repo' : git.Repo} {phase : git.Phase} :
    ¬git.Step remote p.command repo p.phase repo' phase := by
  obtain ⟨success, hexit⟩ := h
  intro hstep
  cases hexit.symm.trans (git.exited hstep)

theorem Checkout.Quiet.works (h : ck.Quiet) (hworks : ck.Works ck') : False := by
  obtain ⟨hp, hstep⟩ := hworks
  exact (h _ (List.mem_of_getElem? hp)).not_step hstep

/-- In a quiet checkout nothing happens but pushes. -/
theorem Checkout.Quiet.moves (h : ck.Quiet) (hmoves : ck.Moves ck') :
    ck'.repo = ck.repo ∧ ck'.processes = ck.processes := by
  cases hmoves with
  | push => exact ⟨rfl, rfl⟩
  | work hworks =>
    rcases hworks.cases_head with rfl | ⟨ck₁, hfirst, -⟩
    · exact ⟨rfl, rfl⟩
    · exact absurd hfirst h.works

/-- A process is started in a quiet checkout. -/
theorem Checkout.Quiet.only_spawn (h : ck.Quiet) (p : Process git) :
    ({ ck with processes := ck.processes ++ [p] } : Checkout git).Only ck.processes.length := by
  intro i q hq hne
  rcases List.mem_append.mp (List.mem_of_getElem? hq) with hmem | hmem
  · exact h q hmem
  · have hlt : i < ck.processes.length + 1 := by
      simpa using (List.getElem?_eq_some_iff.mp hq).1
    have hget : ck.processes[i]? = some q :=
      (List.getElem?_append_left (by omega)).symm.trans hq
    exact h q (List.mem_of_getElem? hget)

/-- The checkout is quiet when the last process has exited. -/
theorem Checkout.Only.quiet (h : ck.Only pid) {p : Process git} (hp : ck.processes[pid]? = some p)
    (hexit : p.HasExited) : ck.Quiet := by
  intro q hq
  obtain ⟨i, hi⟩ := List.mem_iff_getElem?.mp hq
  by_cases heq : i = pid
  · subst heq
    obtain rfl := Option.some.inj (hi.symm.trans hp)
    exact hexit
  · exact h i q hi heq

/-- The step of a checkout in which only one process may work. -/
theorem Checkout.Only.works (h : ck.Only pid) {p : Process git}
    (hp : ck.processes[pid]? = some p) (hworks : ck.Works ck') :
    ∃ repo phase, git.Step ck.remote p.command ck.repo p.phase repo phase ∧
      ck'.repo = repo ∧ ck'.remote = ck.remote ∧ ck'.Only pid ∧
      ck'.processes[pid]? = some { p with phase } := by
  obtain @⟨pid', p', repo, phase, hp', hstep⟩ := hworks
  -- another process would have exited, and so takes no step
  obtain rfl : pid' = pid := by
    by_contra hne
    exact (h pid' p' hp' hne).not_step hstep
  obtain rfl := Option.some.inj (hp.symm.trans hp')
  have hlt : pid' < ck.processes.length := (List.getElem?_eq_some_iff.mp hp).1
  refine ⟨repo, phase, hstep, rfl, rfl, fun i q hq hne => ?_, ?_⟩
  · rw [List.getElem?_set_ne (Ne.symm hne)] at hq
    exact h i q hq hne
  · rw [List.getElem?_set_self hlt]

/-! ### A process that runs alone -/

/-- What a process makes of a repository when no other one works, while the branches of the remote
are at one after another of these commits. -/
inductive Git.Alone (git : Git Commit) (seen : (String → Option Commit) → Prop)
  (command : GitCommand)
    (repo₀ : git.Repo) : git.Repo → git.Phase → Prop
  | start : Alone git seen command repo₀ repo₀ (git.started command)
  | step {remote : String → Option Commit} {repo repo' : git.Repo} {phase phase' : git.Phase}
      (h : Alone git seen command repo₀ repo phase) (hremote : seen remote)
      (hstep : git.Step remote command repo phase repo' phase') :
      Alone git seen command repo₀ repo' phase'

variable {seen seen' : (String → Option Commit) → Prop} {command : GitCommand}
  {repo₀ repo : git.Repo} {phase : git.Phase}

theorem Git.Alone.mono (hseen : ∀ remote, seen remote → seen' remote)
    (h : git.Alone seen command repo₀ repo phase) : git.Alone seen' command repo₀ repo phase := by
  induction h with
  | start => exact .start
  | step _ hremote hstep ih => exact .step ih (hseen _ hremote) hstep

/-- **What git documents of `git fetch origin <branch>`**: it leaves the files alone, and when it
ends well, `origin/<branch>` is what the branch was at on the remote at some moment in between. A
fetch does so when the refspec of `origin` covers the branch and the remote has no tag of the same
name; otherwise it fetches, but leaves `origin/<branch>` as it is. -/
structure Git.FetchesTip (git : Git Commit) (branch : String) : Prop where
  files : ∀ ⦃seen repo₀ repo phase⦄, git.Alone seen (.fetch branch) repo₀ repo phase →
    git.files repo = git.files repo₀ ∧ git.untracked repo = git.untracked repo₀
  tip : ∀ ⦃seen repo₀ repo phase⦄, git.Alone seen (.fetch branch) repo₀ repo phase →
    git.status phase = some true → ∃ remote c, seen remote ∧ remote branch = some c ∧
      git.resolve repo ("origin/" ++ branch) = some c

/-- **What git documents of `git reset --hard <target>`** in a checkout without untracked files:
when it ends well, the files are those of the commit that the target stands for. -/
def Git.ResetsFiles (git : Git Commit) (target : String) : Prop :=
  ∀ ⦃seen repo₀ repo phase c⦄, git.Alone seen (.resetHard target) repo₀ repo phase →
    git.resolve repo₀ target = some c → git.untracked repo₀ = [] → git.status phase = some true →
      git.files repo = git.content c ∧ git.untracked repo = []

/-- A process works alone, which has found the repository like this. -/
structure Working (seen : (String → Option Commit) → Prop) (pid : ℕ) (command : GitCommand)
    (repo₀ : git.Repo) (ck : Checkout git) : Prop where
  only : ck.Only pid
  alone : ∃ phase, ck.processes[pid]? = some ⟨command, phase⟩ ∧
    git.Alone seen command repo₀ ck.repo phase

theorem Working.mono (hseen : ∀ remote, seen remote → seen' remote)
    (h : Working seen pid command repo₀ ck) : Working seen' pid command repo₀ ck := by
  obtain ⟨phase, hp, halone⟩ := h.alone
  exact ⟨h.only, phase, hp, halone.mono hseen⟩

theorem Working.works (h : Working seen pid command repo₀ ck) (hseen : seen ck.remote)
    (hworks : ck.Works ck') : Working seen pid command repo₀ ck' ∧ ck'.remote = ck.remote := by
  obtain ⟨phase, hp, halone⟩ := h.alone
  obtain ⟨repo, phase', hstep, rfl, hremote, honly, hp'⟩ := h.only.works hp hworks
  exact ⟨⟨honly, phase', hp', .step halone hseen hstep⟩, hremote⟩

/-- **What goes on around a process.** -/
theorem Working.moves (h : Working seen pid command repo₀ ck) (hseen : seen ck.remote)
    (hmoves : ck.Moves ck') : Working seen pid command repo₀ ck' := by
  cases hmoves with
  | push => exact ⟨h.only, h.alone⟩
  | work hworks =>
    have hboth : Working seen pid command repo₀ ck' ∧ ck'.remote = ck.remote := by
      induction hworks with
      | refl => exact ⟨h, rfl⟩
      | tail _ hlast ih =>
        obtain ⟨hworking, hremote⟩ := ih
        obtain ⟨hworking', hremote'⟩ := hworking.works (hremote ▸ hseen) hlast
        exact ⟨hworking', hremote'.trans hremote⟩
    exact hboth.1

/-- The process has exited. -/
theorem Working.exited (h : Working seen pid command repo₀ ck) {p : Process git}
    (hp : ck.processes[pid]? = some p) {success : Bool}
    (hexit : git.status p.phase = some success) :
    ck.Quiet ∧ git.Alone seen command repo₀ ck.repo p.phase := by
  obtain ⟨phase, hp', halone⟩ := h.alone
  obtain rfl := Option.some.inj (hp.symm.trans hp')
  exact ⟨h.only.quiet hp ⟨success, hexit⟩, halone⟩

end Leaderboards
