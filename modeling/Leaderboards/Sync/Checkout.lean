import Leaderboards.Github
import Leaderboards.Library.Product
import Leaderboards.Sync.Execute
import Leaderboards.Sync.Files
import Leaderboards.Transactions.Server
import Leaderboards.Webhooks

/-!
# `run_sync`: the background task of the push webhook

The task takes `sync_mutex`, runs `git fetch` and `git reset --hard` in the checkout, reads the
board directories and syncs them to the database, all while it holds the mutex.

A git process runs beside the task, and the task only waits for it, at most for 60 seconds. Nothing
kills a process that was waited for in vain. Git itself comes from outside (`Git`): what a process
of it does step by step, beside other processes and while the remote changes whenever somebody
pushes.
-/

namespace Leaderboards

open Interaction Relation

variable {Commit : Type}

/-! ### Git -/

/-- The git commands of `run_sync`. -/
inductive GitCommand
  /-- `git fetch origin <branch>`. -/
  | fetch (branch : String)
  /-- `git reset --hard <target>`. -/
  | resetHard (target : String)
deriving DecidableEq

/-- The git of the server, and what can be seen of the repository at `repo_path`. -/
structure Git (Commit : Type) where
  /-- The states of the repository, with its configuration. -/
  Repo : Type
  /-- The states of a process. -/
  Phase : Type
  started : GitCommand → Phase
  /-- The status of a process that has exited. -/
  status : Phase → Option Bool
  /-- The files of a commit. -/
  content : Commit → Tree
  /-- The files in the checkout. -/
  files : Repo → Tree
  /-- Those of them that git does not know. -/
  untracked : Repo → Tree
  /-- The commit that a name stands for. -/
  resolve : Repo → String → Option Commit
  /-- A step of a process, while the branches of the remote are at these commits. -/
  Step : (String → Option Commit) → GitCommand → Repo → Phase → Repo → Phase → Prop
  /-- A process that has exited takes no step. -/
  exited : ∀ {remote command repo phase repo' phase'},
    Step remote command repo phase repo' phase' → status phase = none

/-- A process of git. -/
structure Process (git : Git Commit) where
  command : GitCommand
  phase : git.Phase

variable {git : Git Commit}

/-- A process that does nothing any more. -/
def Process.HasExited (p : Process git) : Prop := ∃ success, git.status p.phase = some success

variable (git) in
/-- The remote, the repository, and the processes that were ever started in it. -/
structure Checkout where
  remote : String → Option Commit
  repo : git.Repo
  processes : List (Process git)

namespace Checkout

/-- One of the processes takes a step. -/
inductive Works : Checkout git → Checkout git → Prop
  | work {ck : Checkout git} {pid : ℕ} {p : Process git} {repo : git.Repo} {phase : git.Phase}
      (hp : ck.processes[pid]? = some p)
      (hstep : git.Step ck.remote p.command ck.repo p.phase repo phase) :
      Works ck { ck with repo, processes := ck.processes.set pid { p with phase } }

/-- What goes on without the service: somebody pushes, or the processes work. -/
inductive Moves : Checkout git → Checkout git → Prop
  | push (ck : Checkout git) (branch : String) (tip : Option Commit) :
      Moves ck { ck with remote := Function.update ck.remote branch tip }
  | work {ck ck' : Checkout git} (h : ReflTransGen Works ck ck') : Moves ck ck'

end Checkout

/-! ### The machine -/

/-- What a task tells of a sync: the calls of `outbound_webhooks::fire` and
`EventBus::publish_version`. -/
inductive Notice
  | fire (event : WebhookEvent) (slug name : String) (version : Option VersionInfo)
  | publishVersion (slug : String) (versionNumber : ℤ) (note : Option String)
deriving DecidableEq

/-- The other calls of a task; what happens outside is here too. -/
inductive TaskCall (Commit : Type)
  | lock
  | unlock
  | spawn (command : GitCommand)
  /-- The end of a process, or none within the time. -/
  | wait (pid : ℕ)
  | tell (notice : Notice)
  | push (branch : String) (tip : Option Commit)
  | work

/-- The calls with their results. A process that ends has a status and its `stderr`. -/
def TaskCalls (Commit : Type) : Signature where
  Cmd := TaskCall Commit
  Res
    | .lock => Unit
    | .unlock => Unit
    | .spawn _ => Except String ℕ
    | .wait _ => Option (Bool × String)
    | .tell _ => Unit
    | .push _ _ => Unit
    | .work => Unit

variable (git) in
/-- What the tasks of a server share beside the database. -/
structure Host where
  checkout : Checkout git
  notices : List Notice

/-- A call: the mutex it needs (`L`), its answer, and whether the task holds the mutex (`h`). -/
inductive TaskCall.Exec :
    (c : TaskCall Commit) → Host git → (h L : Bool) → (TaskCalls Commit).Res c → Host git →
      (h' : Bool) → Prop
  | lock {s : Host git} {h : Bool} : Exec .lock s h true () s true
  | unlock {s : Host git} {h : Bool} : Exec .unlock s h false () s false
  | spawn {s : Host git} {h : Bool} {command : GitCommand} :
      Exec (.spawn command) s h false (.ok s.checkout.processes.length)
        { s with checkout := { s.checkout with
          processes := s.checkout.processes ++ [⟨command, git.started command⟩] } } h
  | notRun {s : Host git} {h : Bool} {command : GitCommand} (e : String) :
      Exec (.spawn command) s h false (.error e) s h
  | wait {s : Host git} {h : Bool} {pid : ℕ} {p : Process git} {success : Bool} (stderr : String)
      (hp : s.checkout.processes[pid]? = some p) (hexit : git.status p.phase = some success) :
      Exec (.wait pid) s h false (some (success, stderr)) s h
  | timedOut {s : Host git} {h : Bool} {pid : ℕ} : Exec (.wait pid) s h false none s h
  | tell {s : Host git} {h : Bool} {notice : Notice} :
      Exec (.tell notice) s h false () { s with notices := s.notices ++ [notice] } h
  | push {s : Host git} {h : Bool} {branch : String} {tip : Option Commit} :
      Exec (.push branch tip) s h false ()
        { s with checkout :=
          { s.checkout with remote := Function.update s.checkout.remote branch tip } } h
  | work {s : Host git} {h : Bool} {ck : Checkout git}
      (hworks : ReflTransGen Checkout.Works s.checkout ck) :
      Exec .work s h false () { s with checkout := ck } h

/-- The machine of the tasks, without the database. A task that disappears gives the mutex back. -/
def host (git : Git Commit) : Machine (Files.sum (TaskCalls Commit)) where
  Shared := Host git
  Session := Bool
  Claim := Bool
  idle := false
  exec _
    | .inl c => fun s h L r s' h' =>
      L = false ∧ h' = h ∧ s' = s ∧ (git.files s.checkout.repo).Answers c r
    | .inr c => fun s h L r s' h' => c.Exec s h L r s' h'
  admits L h := L = true → h = false
  crashes := True

/-- The calls of a task. -/
abbrev Tasks (Commit : Type) : Signature := Service.sum (Files.sum (TaskCalls Commit))

/-- The machine the background tasks run on. -/
abbrev tasks (faulty : Prop) (git : Git Commit) : Machine (Tasks Commit) :=
  (server faulty).both (host git)

/-! ### The task -/

section

variable (Commit) {ε : Type}

/-- A call of a task, as a program. -/
def taskCall (c : TaskCall Commit) : Prog (Tasks Commit) ε ((TaskCalls Commit).Res c) :=
  .op (S := Tasks Commit) (.inr (.inr c)) .ret

/-- What `output` of a command comes to within the time. -/
inductive GitOutput
  | exited (success : Bool) (stderr : String)
  | notRun (e : String)
  | timedOut
deriving DecidableEq

/-- `tokio::time::timeout` of the output of a command of git. -/
def gitOutput (command : GitCommand) : Prog (Tasks Commit) ε GitOutput :=
  .op (S := Tasks Commit) (.inr (.inr (.spawn command))) fun
    | .error e => .ret (.notRun e)
    | .ok pid => .op (S := Tasks Commit) (.inr (.inr (.wait pid))) fun
      | some (success, stderr) => .ret (.exited success stderr)
      | none => .ret .timedOut

/-- The errors of `run_sync`. -/
inductive SyncFault
  | fetchFailed (stderr : String)
  | fetchNotRun (e : String)
  | fetchTimedOut
  | resetFailed (stderr : String)
  | resetNotRun (e : String)
  | resetTimedOut
  | syncFailed (e : Error)
deriving DecidableEq

/-- The text of an error of `run_sync`. -/
def SyncFault.display (repoPath : String) : SyncFault → String
  | fetchFailed stderr => s!"git fetch failed for {repoPath}: {stderr}"
  | fetchNotRun e => s!"failed to run git fetch: {e}"
  | fetchTimedOut => s!"git fetch timed out for {repoPath}"
  | resetFailed stderr => s!"git reset failed for {repoPath}: {stderr}"
  | resetNotRun e => s!"failed to run git reset: {e}"
  | resetTimedOut => s!"git reset timed out for {repoPath}"
  | syncFailed e => s!"sync failed: {e.display}"

/-- What is told of the result for a board. -/
def notices (note : Option String) (r : BoardSyncResult) : List Notice :=
  match r.action with
  | .created n =>
    [.fire .boardCreated r.slug r.name none,
     .fire .versionCreated r.slug r.name (some ⟨n, note⟩),
     .publishVersion r.slug n note]
  | .updated n =>
    [.fire .versionCreated r.slug r.name (some ⟨n, note⟩),
     .publishVersion r.slug n note]
  | _ => []

variable (toml : TomlParser) (display : Path → String)

/-- `sync_dir`. -/
def syncDirectory (note : Option String) : Prog (Tasks Commit) Error (List BoardSyncResult) := do
  let parsed ← ((parseBoardsDir toml display).inl (T := TaskCalls Commit)).inr (S := Service)
  (Sync.syncDir parsed note).inl

/-- The part of `run_sync` that runs under the mutex. -/
def syncLocked (branch : String) (note : Option String) :
    Prog (Tasks Commit) Error (Except SyncFault Unit) := do
  match ← gitOutput Commit (.fetch branch) with
  | .exited false stderr => .ret (.error (.fetchFailed stderr))
  | .notRun e => .ret (.error (.fetchNotRun e))
  | .timedOut => .ret (.error .fetchTimedOut)
  | .exited true _ =>
    match ← gitOutput Commit (.resetHard ("origin/" ++ branch)) with
    | .exited false stderr => .ret (.error (.resetFailed stderr))
    | .notRun e => .ret (.error (.resetNotRun e))
    | .timedOut => .ret (.error .resetTimedOut)
    | .exited true _ =>
      match ← (syncDirectory Commit toml display note).attempt with
      | .error e => .ret (.error (.syncFailed e))
      | .ok results => do
        Prog.each (results.flatMap (notices note)) fun n => taskCall Commit (.tell n)
        .ret (.ok ())

/-- `run_sync`. -/
def runSync (branch : String) (note : Option String) :
    Prog (Tasks Commit) Error (Except SyncFault Unit) := do
  taskCall Commit .lock
  let result ← syncLocked Commit toml display branch note
  taskCall Commit .unlock
  .ret result

end

/-! ### What runs -/

/-- The programs that run on the machine: background tasks, anything that uses the database alone,
and what happens outside. -/
inductive Running (toml : TomlParser) (display : Path → String) :
    Prog (Tasks Commit) Error Unit → Prop
  | sync (branch : String) (note : Option String) :
      Running toml display (runSync Commit toml display branch note >>= fun _ => .ret ())
  | database (p : Action Unit) : Running toml display p.inl
  | push (branch : String) (tip : Option Commit) :
      Running toml display (taskCall Commit (.push branch tip))
  | work (n : ℕ) :
      Running toml display (Prog.each (List.range n) fun _ => taskCall Commit .work)

end Leaderboards
