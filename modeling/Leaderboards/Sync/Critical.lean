import Leaderboards.Sync.GitRuns
import Leaderboards.Sync.Tasks

/-!
# A task under the mutex

While a task holds `sync_mutex` nobody else does (`HoldsMutex`), and to it the others do nothing but
what goes on without the service (`TasksGood.others`).

* `Resting`: a task that leaves a quiet checkout alone finds it as it was.
* **`TasksGood.fetches`**, **`TasksGood.resets`**: what a task knows of the checkout when a fetch or
  a reset ends well.
-/

namespace Leaderboards

open Interaction Relation

variable {Commit : Type} {git : Git Commit} {faulty : Prop} {toml : TomlParser}
  {display : Path → String} {t : Tid} {α β : Type}

/-- A state in which every task keeps to the contract. -/
abbrev TasksGood (g : (tasks faulty git).State Error) : Prop :=
  (tasksContract faulty git).Good g

/-- The checkout in a state. -/
abbrev checkoutOf (g : (tasks faulty git).State Error) : Checkout git := g.shared.2.checkout

/-- The task holds the mutex, and nobody else does. -/
def HoldsMutex (t : Tid) (g : (tasks faulty git).State Error) : Prop :=
  ∀ u, (g.session u).2 = true ↔ u = t

/-- A step while the task holds the mutex. -/
def Critical (toml : TomlParser) (display : Path → String) (t : Tid)
    (g g' : (tasks faulty git).State Error) : Prop :=
  Machine.Step (Running toml display) g g' ∧ HoldsMutex t g ∧ HoldsMutex t g'

/-- Steps while the task holds the mutex. -/
abbrev During (toml : TomlParser) (display : Path → String) (t : Tid) :
    (tasks faulty git).State Error → (tasks faulty git).State Error → Prop :=
  ReflTransGen (Critical toml display t)

/-- Steps of the others. -/
abbrev OthersRun (toml : TomlParser) (display : Path → String) (t : Tid) :
    (tasks faulty git).State Error → (tasks faulty git).State Error → Prop :=
  ReflTransGen (Machine.Others (Running toml display) t)

/-- A task executes a program beside the others. -/
abbrev TaskRuns (toml : TomlParser) (display : Path → String) (t : Tid)
    (p : Prog (Tasks Commit) Error α) : (tasks faulty git).State Error → Except Error α →
      (tasks faulty git).State Error → Prop :=
  p.Executes (Machine.Acts t) (Machine.Others (Running toml display) t)

variable {g g' g₁ g₂ : (tasks faulty git).State Error} {x : Except Error α}

/-- A session with the mutex is that of a thread. -/
theorem thread_of_session (h : (g.session t).2 = true) :
    ∃ th, g.thread t = some th ∧ th.session.2 = true := by
  cases hth : g.thread t with
  | none =>
    rw [Machine.State.session_of_none hth] at h
    exact absurd h Bool.false_ne_true
  | some th =>
    rw [Machine.State.session_of_thread hth] at h
    exact ⟨th, rfl, h⟩

theorem TasksGood.holds (hg : TasksGood g) (h : (g.session t).2 = true) : HoldsMutex t g := by
  intro u
  constructor
  · intro hu
    by_contra hne
    obtain ⟨th, hth, hheld⟩ := thread_of_session h
    obtain ⟨thu, hthu, hheld'⟩ := thread_of_session hu
    exact hg.beside t u th thu hne hth hthu ⟨hheld, hheld'⟩
  · rintro rfl
    exact h

theorem TasksGood.step (hg : TasksGood g) (hstep : Machine.Step (Running toml display) g g') :
    TasksGood g' := (Contract.Good.step running_safe hg hstep).1

/-- **A step of the others**, seen by the task that holds the mutex. -/
theorem TasksGood.others (hg : TasksGood g) (h : HoldsMutex t g)
    (hstep : Machine.Others (Running toml display) t g g') :
    TasksGood g' ∧ Critical toml display t g g' ∧
      (checkoutOf g).Moves (checkoutOf g') := by
  obtain ⟨th, hth, hheld⟩ := thread_of_session ((h t).mpr rfl)
  have hg' : TasksGood g' := hg.step hstep.1
  have hsession : (g'.session t).2 = true := by
    rw [Machine.State.session_of_thread (hstep.2.trans hth)]
    exact hheld
  refine ⟨hg', ⟨hstep.1, h, hg'.holds hsession⟩, ?_⟩
  rcases hg.guar_of_others hth hstep with heq | ⟨u, hu, L, hut, hbeside, hadmits, hguar⟩
  · rw [checkoutOf, checkoutOf, heq]
    exact .work .refl
  · rcases hguar with heq | ⟨K, rfl, hguar⟩
    · rw [checkoutOf, checkoutOf, heq]
      exact .work .refl
    · exact hguar.resolve_left fun hheld' => hbeside ⟨hheld', hheld⟩

/-- What the steps of the others keep. -/
theorem TasksGood.keep {P : (tasks faulty git).State Error → Prop} (hg : TasksGood g)
    (h : HoldsMutex t g) (hP : P g)
    (hkeep : ∀ g₁ g₂, During toml display t g g₁ → P g₁ → Critical toml display t g₁ g₂ →
      (checkoutOf g₁).Moves (checkoutOf g₂) → P g₂)
    (hrun : OthersRun toml display t g g') :
    P g' ∧ TasksGood g' ∧ HoldsMutex t g' ∧ During toml display t g g' := by
  induction hrun with
  | refl => exact ⟨hP, hg, h, .refl⟩
  | tail _ hstep ih =>
    obtain ⟨hP₁, hg₁, h₁, hduring⟩ := ih
    obtain ⟨hg₂, hcritical, hmoves⟩ := hg₁.others h₁ hstep
    exact ⟨hkeep _ _ hduring hP₁ hcritical hmoves, hg₂, hcritical.2.2, hduring.tail hcritical⟩

/-- What a task does with the mutex, except to give it back. -/
theorem TasksGood.acts (hg : TasksGood g) (h : HoldsMutex t g) {c : (Tasks Commit).Cmd}
    (hc : Keeps c)
    {r : (Tasks Commit).Res c} (hacts : Machine.Acts t c g r g') :
    TasksGood g' ∧ Critical toml display t g g' ∧
      ∃ L, (tasks faulty git).exec t c g.shared (g.session t) L r g'.shared (g'.session t) := by
  have hstep : Machine.Step (Running toml display) g g' := hacts.step
  have hg' : TasksGood g' := hg.step hstep
  obtain ⟨k, s, s', L, sh', hth, -, hexec, rfl⟩ := hacts
  have hs : g.session t = s := Machine.State.session_of_thread hth
  have hs' : Machine.State.session (⟨sh', Function.update g.thread t (some ⟨s', k r⟩)⟩ :
      (tasks faulty git).State Error) t = s' := by
    rw [Machine.State.session_exec]
    exact Function.update_self ..
  have hheld : s'.2 = true := by
    rw [hc.session hexec, ← hs]
    exact (h t).mpr rfl
  refine ⟨hg', ⟨hstep, h, hg'.holds (by rw [hs']; exact hheld)⟩, L, ?_⟩
  rw [hs, hs']
  exact hexec

/-- **The next call of a task that holds the mutex.** -/
theorem TasksGood.next (hg : TasksGood g) (h : HoldsMutex t g) {c : (Tasks Commit).Cmd}
    (hc : Keeps c)
    {k : (Tasks Commit).Res c → Prog (Tasks Commit) Error α}
    (hrun : TaskRuns toml display t (.op c k) g x g') :
    ∃ g₁ g₂ r L, OthersRun toml display t g g₁ ∧ TasksGood g₁ ∧ HoldsMutex t g₁ ∧ TasksGood g₂ ∧
      Critical toml display t g₁ g₂ ∧
      (tasks faulty git).exec t c g₁.shared (g₁.session t) L r g₂.shared (g₂.session t) ∧
      TaskRuns toml display t (k r) g₂ x g' := by
  obtain ⟨g₁, r, g₂, hbeside, hacts, hrest⟩ := Prog.executes_op.mp hrun
  obtain ⟨-, hg₁, h₁, -⟩ := hg.keep (P := fun _ => True) h trivial (fun _ _ _ _ _ _ =>
    trivial) hbeside
  obtain ⟨hg₂, hcritical, L, hexec⟩ := hg₁.acts h₁ hc hacts
  exact ⟨g₁, g₂, r, L, hbeside, hg₁, h₁, hg₂, hcritical, hexec, hrest⟩

/-- A task that does not touch the mutex keeps it. -/
theorem TasksGood.held {p : Prog (Tasks Commit) Error α} (hg : TasksGood g) (h : HoldsMutex t g)
    (hp : p.Uses Keeps) (hrun : TaskRuns toml display t p g x g') :
    TasksGood g' ∧ HoldsMutex t g' ∧ During toml display t g g' := by
  have hkeep : ∀ {g g' : (tasks faulty git).State Error}, TasksGood g → HoldsMutex t g →
      OthersRun toml display t g g' → TasksGood g' ∧ HoldsMutex t g' ∧ During toml display t g g' :=
    fun hg h hbeside =>
      (hg.keep (P := fun _ => True) h trivial (fun _ _ _ _ _ _ => trivial) hbeside).2
  induction hrun with
  | ret hbeside => exact hkeep hg h hbeside
  | fail hbeside => exact hkeep hg h hbeside
  | op hbeside hacts _ ih =>
    obtain ⟨hc, hk⟩ := Prog.uses_op.mp hp
    obtain ⟨hg₁, h₁, hduring₁⟩ := hkeep hg h hbeside
    obtain ⟨hg₂, hcritical, -⟩ := hg₁.acts h₁ hc hacts
    obtain ⟨hg', h', hduring'⟩ := ih hg₂ hcritical.2.2 (hk _)
    exact ⟨hg', h', (hduring₁.tail hcritical).trans hduring'⟩

/-! ### Calls that leave the checkout alone -/

/-- A call that does nothing to the checkout. -/
def Calm : (Tasks Commit).Cmd → Prop
  | .inl _ => True
  | .inr (.inl _) => True
  | .inr (.inr (.tell _)) => True
  | _ => False

theorem Calm.keeps {c : (Tasks Commit).Cmd} (hc : Calm c) : Keeps c := by
  rcases c with c | c | c
  · trivial
  · trivial
  · cases c with
    | tell notice => trivial
    | _ => exact absurd hc id

theorem exec_tell {notice : Notice} {s s' : Host git} {h h' L : Bool}
    {r : (TaskCalls Commit).Res (.tell notice)}
    (hexec : TaskCall.Exec (.tell notice) s h L r s' h') : s'.checkout = s.checkout := by
  cases hexec with
  | tell => rfl

theorem Calm.checkout {c : (Tasks Commit).Cmd} (hc : Calm c) {L : (tasks faulty git).Claim}
    {r : (Tasks Commit).Res c} (hexec : (tasks faulty git).exec t c g.shared (g.session t) L r
      g'.shared (g'.session t)) : checkoutOf g' = checkoutOf g := by
  rcases c with c | c | c
  · exact congrArg Host.checkout hexec.2.1
  · obtain ⟨⟨K, -, -, -, hshared, -⟩, -, -⟩ := hexec
    exact congrArg Host.checkout hshared
  · obtain ⟨⟨K, -, hexec⟩, -, -⟩ := hexec
    cases c with
    | tell notice => exact exec_tell hexec
    | _ => exact absurd hc id

/-- What holds while a task leaves a quiet checkout alone. -/
structure Resting (toml : TomlParser) (display : Path → String) (t : Tid)
    (g g' : (tasks faulty git).State Error) : Prop where
  good : TasksGood g'
  holds : HoldsMutex t g'
  during : During toml display t g g'
  quiet : (checkoutOf g').Quiet
  repo : (checkoutOf g').repo = (checkoutOf g).repo

theorem Resting.others (h : Resting toml display t g g₁)
    (hstep : Machine.Others (Running toml display) t g₁ g₂) : Resting toml display t g g₂ := by
  obtain ⟨hg₂, hcritical, hmoves⟩ := h.good.others h.holds hstep
  obtain ⟨hrepo, hprocesses⟩ := h.quiet.moves hmoves
  refine ⟨hg₂, hcritical.2.2, h.during.tail hcritical, ?_, hrepo.trans h.repo⟩
  rw [Checkout.Quiet, hprocesses]
  exact h.quiet

theorem Resting.acts (h : Resting toml display t g g₁) {c : (Tasks Commit).Cmd} (hc : Calm c)
    {r : (Tasks Commit).Res c} (hacts : Machine.Acts t c g₁ r g₂) :
    Resting toml display t g g₂ := by
  obtain ⟨hg₂, hcritical, L, hexec⟩ := h.good.acts h.holds hc.keeps hacts
  have hcheckout : checkoutOf g₂ = checkoutOf g₁ := hc.checkout hexec
  refine ⟨hg₂, hcritical.2.2, h.during.tail hcritical, ?_, ?_⟩
  · rw [hcheckout]
    exact h.quiet
  · rw [hcheckout]
    exact h.repo

/-- What the others do while a task leaves a quiet checkout alone. -/
theorem Resting.beside (h : Resting toml display t g g₁)
    (hbeside : OthersRun toml display t g₁ g₂) :
    Resting toml display t g g₂ := by
  induction hbeside with
  | refl => exact h
  | tail _ hstep ih => exact ih.others hstep

/-- A program that leaves the checkout alone. -/
theorem Resting.runs {p : Prog (Tasks Commit) Error α} (h : Resting toml display t g g₁)
    (hp : p.Uses Calm) (hrun : TaskRuns toml display t p g₁ x g₂) :
    Resting toml display t g g₂ := by
  induction hrun with
  | ret hothers => exact h.beside hothers
  | fail hothers => exact h.beside hothers
  | op hothers hacts _ ih =>
    obtain ⟨hc, hk⟩ := Prog.uses_op.mp hp
    exact ih ((h.beside hothers).acts hc hacts) (hk _)

/-- **What is parsed in a quiet checkout**: the boards of its files. -/
theorem Resting.parses (h : Resting toml display t g g₁) {y : Except Error (List ParsedBoard)}
    (hrun : TaskRuns toml display t
      (((parseBoardsDir toml display).inl (T := TaskCalls Commit)).inr (S := Service)) g₁ y g₂) :
    y = .ok ((git.files (checkoutOf g).repo).boards toml) ∧ Resting toml display t g g₂ := by
  have hyields : (parseBoardsDir toml display).Yields (git.files (checkoutOf g).repo).Answers y ∧
      Resting toml display t g g₂ := by
    refine (Prog.Executes.of_inl (Prog.Executes.of_inr hrun)).yields
      (fun _ _ h hstep => h.others hstep) (fun c g₁ r g₂ h hacts => ⟨?_, ?_⟩) h
    · obtain ⟨k, s, s', L, sh', -, -, ⟨⟨K, -, -, -, -, hanswer⟩, -, -⟩, -⟩ := hacts
      rw [← h.repo]
      exact hanswer
    · exact h.acts (c := .inr (.inl c)) trivial hacts
  exact ⟨Tree.yields_parseBoardsDir hyields.1, hyields.2⟩

theorem calm_inl (p : Action α) : (p.inl : Prog (Tasks Commit) Error α).Uses Calm := by
  induction p with
  | ret a => trivial
  | fail e => trivial
  | op c k ih => exact ⟨trivial, ih⟩

theorem calm_tells (notices : List Notice) :
    (Prog.each notices fun n => taskCall Commit (.tell n) : Prog (Tasks Commit) Error Unit).Uses
      Calm :=
  Prog.uses_each fun _ => ⟨trivial, fun _ => trivial⟩

/-! ### A process of git under the mutex -/

/-- **A command of git that a task waits for.** While its process works, `J` holds of it. -/
theorem TasksGood.gitOutput {command : GitCommand} {f : GitOutput → Prog (Tasks Commit) Error α}
    {J : ℕ → (tasks faulty git).State Error → Prop} (hg : TasksGood g) (h : HoldsMutex t g)
    (hquiet : (checkoutOf g).Quiet)
    (hstart : ∀ pid g₁, During toml display t g g₁ → (checkoutOf g₁).Only pid →
      (checkoutOf g₁).repo = (checkoutOf g).repo →
      (checkoutOf g₁).processes[pid]? = some ⟨command, git.started command⟩ → J pid g₁)
    (hkeep : ∀ pid g₁ g₂, During toml display t g g₁ → J pid g₁ → Critical toml display t g₁ g₂ →
      (checkoutOf g₁).Moves (checkoutOf g₂) → J pid g₂)
    (hrun : TaskRuns toml display t (gitOutput Commit command >>= f) g x g') :
    ∃ out g₁, TasksGood g₁ ∧ HoldsMutex t g₁ ∧ During toml display t g g₁ ∧
      TaskRuns toml display t (f out) g₁ x g' ∧
      ((∃ e, out = .notRun e ∧ (checkoutOf g₁).repo = (checkoutOf g).repo ∧ (checkoutOf g₁).Quiet) ∨
        out = .timedOut ∨ ∃ pid p success stderr, J pid g₁ ∧
          (checkoutOf g₁).processes[pid]? = some p ∧ git.status p.phase = some success ∧
          out = .exited success stderr) := by
  have hstarted : Resting toml display t g g := ⟨hg, h, .refl, hquiet, rfl⟩
  obtain ⟨g₁, g₂, r, L, hbeside, -, -, hg₂, hcritical, hexec, hrun⟩ :=
    hg.next h (c := .inr (.inr (.spawn command))) trivial hrun
  have hrest : Resting toml display t g g₁ := hstarted.beside hbeside
  have hduring : During toml display t g g₂ := hrest.during.tail hcritical
  obtain ⟨⟨K, -, hexec⟩, -, -⟩ := hexec
  rcases exec_spawn hexec with ⟨rfl, hshared⟩ | ⟨⟨e, rfl⟩, hshared⟩
  -- the process has started; it works until the task is back from waiting for it
  · have hcheckout : checkoutOf g₂ = { checkoutOf g₁ with
        processes := (checkoutOf g₁).processes ++ [⟨command, git.started command⟩] } :=
      congrArg Host.checkout hshared
    have hJ : J (checkoutOf g₁).processes.length g₂ := by
      refine hstart _ _ hduring ?_ ?_ ?_
      · rw [hcheckout]
        exact hrest.quiet.only_spawn _
      · rw [hcheckout]
        exact hrest.repo
      · rw [hcheckout]
        simp
    obtain ⟨g₃, g₄, r, L', hbeside', hg₃, h₃, hg₄, hcritical', hexec', hrun⟩ :=
      hg₂.next hcritical.2.2 (c := .inr (.inr (.wait (checkoutOf g₁).processes.length)))
        trivial hrun
    obtain ⟨hJ₃, -, -, hduring₃⟩ := hg₂.keep hcritical.2.2 hJ
      (fun g₁ g₂ hfrom => hkeep _ _ _ (hduring.trans hfrom)) hbeside'
    obtain ⟨⟨K', -, hexec'⟩, -, -⟩ := hexec'
    obtain ⟨hsame, hwait⟩ := exec_wait hexec'
    have hcheckout' : checkoutOf g₄ = checkoutOf g₃ := congrArg Host.checkout hsame
    have hduring₄ : During toml display t g g₄ := (hduring.trans hduring₃).tail hcritical'
    rcases hwait with rfl | ⟨p, success, stderr, hp, hexit, rfl⟩
    · exact ⟨.timedOut, g₄, hg₄, hcritical'.2.2, hduring₄, hrun, .inr (.inl rfl)⟩
    · refine ⟨.exited success stderr, g₄, hg₄, hcritical'.2.2, hduring₄, hrun, .inr (.inr ?_)⟩
      have hJ₄ : J (checkoutOf g₁).processes.length g₄ := by
        refine hkeep _ _ _ (hduring.trans hduring₃) hJ₃ hcritical' ?_
        rw [hcheckout']
        exact .work .refl
      exact ⟨_, p, success, stderr, hJ₄, hcheckout' ▸ hp, hexit, rfl⟩
  · have hcheckout : checkoutOf g₂ = checkoutOf g₁ := congrArg Host.checkout hshared
    refine ⟨.notRun e, g₂, hg₂, hcritical.2.2, hduring, hrun, .inl ⟨e, rfl, ?_, ?_⟩⟩
    · rw [hcheckout]
      exact hrest.repo
    · rw [hcheckout]
      exact hrest.quiet

/-- **A fetch under the mutex.** If it ends well, the remote-tracking branch is at a commit that was
the tip of the branch at a moment in between. -/
theorem TasksGood.fetches {branch : String} {f : GitOutput → Prog (Tasks Commit) Error α}
    (hgit : git.FetchesTip branch) (hg : TasksGood g) (h : HoldsMutex t g)
    (hclean : (checkoutOf g).Clean)
    (hrun : TaskRuns toml display t (Leaderboards.gitOutput Commit (.fetch branch) >>= f) g x g') :
    ∃ out g₁, TasksGood g₁ ∧ HoldsMutex t g₁ ∧ During toml display t g g₁ ∧
      TaskRuns toml display t (f out) g₁ x g' ∧
      (out ≠ .timedOut → (checkoutOf g₁).Clean) ∧ ∀ stderr, out = .exited true stderr →
        ∃ a c, During toml display t g a ∧ During toml display t a g₁ ∧
          (checkoutOf a).remote branch = some c ∧
          git.resolve (checkoutOf g₁).repo ("origin/" ++ branch) = some c := by
  let seen (g₁ : (tasks faulty git).State Error) (remote : String → Option Commit) : Prop :=
    ∃ a, During toml display t g a ∧ During toml display t a g₁ ∧ (checkoutOf a).remote = remote
  have hphases := hg.gitOutput h hclean.quiet
    (J := fun pid g₁ => Working (seen g₁) pid (.fetch branch) (checkoutOf g).repo (checkoutOf g₁))
    ?_ ?_ hrun
  · obtain ⟨out, g₁, hg₁, h₁, hduring, hrest, hout⟩ := hphases
    refine ⟨out, g₁, hg₁, h₁, hduring, hrest, ?_, ?_⟩
    · intro hne
      rcases hout with ⟨e, rfl, hrepo, hquiet⟩ | rfl | ⟨pid, p, success, stderr, hworking, hp,
        hexit, rfl⟩
      · exact ⟨hquiet, hrepo ▸ hclean.untracked⟩
      · exact absurd rfl hne
      · obtain ⟨hquiet, halone⟩ := hworking.exited hp hexit
        exact ⟨hquiet, (hgit.files halone).2.trans hclean.untracked⟩
    · rintro stderr rfl
      rcases hout with ⟨e, heq, -⟩ | heq | ⟨pid, p, success, stderr', hworking, hp, hexit, heq⟩
      · cases heq
      · cases heq
      · obtain ⟨rfl, -⟩ := GitOutput.exited.inj heq
        obtain ⟨-, halone⟩ := hworking.exited hp hexit
        obtain ⟨remote, c, ⟨a, hbefore, hafter, rfl⟩, htip, hresolve⟩ := hgit.tip halone hexit
        exact ⟨a, c, hbefore, hafter, htip, hresolve⟩
  · exact fun pid g₁ hfrom honly hrepo hp => ⟨honly, _, hp, hrepo ▸ .start⟩
  -- a fetch that hears of the remote hears of the present one
  · intro pid g₁ g₂ hfrom hworking hcritical hmoves
    refine (hworking.moves ⟨g₁, hfrom, .refl, rfl⟩ hmoves).mono fun remote hremote => ?_
    obtain ⟨a, hbefore, hafter, htip⟩ := hremote
    exact ⟨a, hbefore, hafter.tail hcritical, htip⟩

/-- **A reset under the mutex.** If it ends well, the files are those of the commit. -/
theorem TasksGood.resets {target : String} {c : Commit}
    {f : GitOutput → Prog (Tasks Commit) Error α} (hgit : git.ResetsFiles target) (hg : TasksGood g)
    (h : HoldsMutex t g) (hclean : (checkoutOf g).Clean)
    (hresolve : git.resolve (checkoutOf g).repo target = some c)
    (hrun : TaskRuns toml display t (Leaderboards.gitOutput Commit (.resetHard target) >>= f)
      g x g') :
    ∃ out g₁, TasksGood g₁ ∧ HoldsMutex t g₁ ∧ During toml display t g g₁ ∧
      TaskRuns toml display t (f out) g₁ x g' ∧
      ((∃ e, out = .notRun e) → (checkoutOf g₁).Clean) ∧ ∀ stderr, out = .exited true stderr →
        (checkoutOf g₁).Clean ∧ git.files (checkoutOf g₁).repo = git.content c := by
  have hphases := hg.gitOutput h hclean.quiet
    (J := fun pid g₁ => Working (fun _ => True) pid (.resetHard target) (checkoutOf g).repo
      (checkoutOf g₁)) ?_ ?_ hrun
  · obtain ⟨out, g₁, hg₁, h₁, hduring, hrest, hout⟩ := hphases
    refine ⟨out, g₁, hg₁, h₁, hduring, hrest, ?_, ?_⟩
    · rintro ⟨e, rfl⟩
      rcases hout with ⟨e', heq, hrepo, hquiet⟩ | heq | ⟨pid, p, success, stderr, -, -, -, heq⟩
      · exact ⟨hquiet, hrepo ▸ hclean.untracked⟩
      · cases heq
      · cases heq
    · rintro stderr rfl
      rcases hout with ⟨e, heq, -⟩ | heq | ⟨pid, p, success, stderr', hworking, hp, hexit, heq⟩
      · cases heq
      · cases heq
      · obtain ⟨rfl, -⟩ := GitOutput.exited.inj heq
        -- The process was alone in the checkout, so what git documents of a reset applies.
        obtain ⟨hquiet, halone⟩ := hworking.exited hp hexit
        obtain ⟨hfiles, huntracked⟩ := hgit halone hresolve hclean.untracked hexit
        exact ⟨⟨hquiet, huntracked⟩, hfiles⟩
  · exact fun pid g₁ hfrom honly hrepo hp => ⟨honly, _, hp, hrepo ▸ .start⟩
  · exact fun pid g₁ g₂ hfrom hworking hcritical hmoves => hworking.moves trivial hmoves

end Leaderboards
