import Leaderboards.Sync.Checkout

/-!
# Tasks beside each other

`taskContract`: only a task that holds the mutex starts processes of git, so to the task that holds
it the others do nothing but what goes on without the service (`Checkout.Moves`). Every program that
runs keeps to it (`running_safe`), so it holds of all states of a run (`TasksGood`).
-/

namespace Leaderboards

open Interaction Relation

variable {Commit : Type} {git : Git Commit} {faulty : Prop} {toml : TomlParser}
  {display : Path → String} {t : Tid} {α : Type}

/-- **What the tasks owe each other.** -/
def taskContract (git : Git Commit) : Contract (host git) where
  Inv _ := True
  Pre _ c h _ := ∀ command, c = .inr (.spawn command) → h = true
  Guar _ h _ s s' := h = true ∨ s.checkout.Moves s'.checkout
  Rely _ h s s' := h = true → ReflTransGen Checkout.Moves s.checkout s'.checkout
  Beside h h' := ¬(h = true ∧ h' = true)
  rely_refl _ _ _ _ := .refl
  rely_trans _ _ _ _ _ h h' hheld := (h hheld).trans (h' hheld)
  inv_of_guar _ _ _ _ _ _ _ := trivial
  rely_of_guar _ _ _ _ _ _ _ _ _ hguar _ hbeside hheld :=
    .single (hguar.resolve_left fun h => hbeside ⟨h, hheld⟩)
  beside_symm _ _ h := fun h' => h h'.symm
  beside_idle _ := fun h => Bool.false_ne_true h.1
  beside_exec t c s h L r s' h' hu hexec hadmits hbeside := by
    rcases c with c | c
    · obtain ⟨-, rfl, -⟩ := hexec
      exact hbeside
    · cases hexec with
      | lock => exact fun h => Bool.false_ne_true ((hadmits rfl).symm.trans h.2)
      | unlock => exact fun h => Bool.false_ne_true h.1
      | _ => exact hbeside

theorem TaskCall.Exec.keeps {c : TaskCall Commit} {s s' : Host git} {h h' L : Bool}
    {r : (TaskCalls Commit).Res c} (hexec : c.Exec s h L r s' h') (hlock : c ≠ .lock)
    (hunlock : c ≠ .unlock) : h' = h := by
  cases hexec with
  | lock => exact absurd rfl hlock
  | unlock => exact absurd rfl hunlock
  | _ => rfl

theorem exec_lock {s s' : Host git} {h h' L : Bool} {r : (TaskCalls Commit).Res .lock}
    (hexec : TaskCall.Exec .lock s h L r s' h') : L = true ∧ s' = s ∧ h' = true := by
  cases hexec with
  | lock => exact ⟨rfl, rfl, rfl⟩

theorem exec_unlock {s s' : Host git} {h h' L : Bool} {r : (TaskCalls Commit).Res .unlock}
    (hexec : TaskCall.Exec .unlock s h L r s' h') : s' = s := by
  cases hexec with
  | unlock => rfl

theorem exec_spawn {command : GitCommand} {s s' : Host git} {h h' L : Bool}
    {r : (TaskCalls Commit).Res (.spawn command)}
    (hexec : TaskCall.Exec (.spawn command) s h L r s' h') :
    (r = .ok s.checkout.processes.length ∧ s' = { s with checkout := { s.checkout with
        processes := s.checkout.processes ++ [⟨command, git.started command⟩] } }) ∨
      (∃ e, r = .error e) ∧ s' = s := by
  cases hexec with
  | spawn => exact .inl ⟨rfl, rfl⟩
  | notRun e => exact .inr ⟨⟨e, rfl⟩, rfl⟩

theorem exec_wait {pid : ℕ} {s s' : Host git} {h h' L : Bool}
    {r : (TaskCalls Commit).Res (.wait pid)}
    (hexec : TaskCall.Exec (.wait pid) s h L r s' h') :
    s' = s ∧ (r = none ∨ ∃ p success stderr, s.checkout.processes[pid]? = some p ∧
      git.status p.phase = some success ∧ r = some (success, stderr)) := by
  cases hexec with
  | wait stderr hp hexit => exact ⟨rfl, .inr ⟨_, _, stderr, hp, hexit, rfl⟩⟩
  | timedOut => exact ⟨rfl, .inl rfl⟩

/-- A call that neither takes the mutex nor gives it back. -/
def Keeps : (Tasks Commit).Cmd → Prop
  | .inr (.inr .lock) => False
  | .inr (.inr .unlock) => False
  | _ => True

/-- Such a call leaves it with whoever has it. -/
theorem Keeps.session {c : (Tasks Commit).Cmd} (hc : Keeps c) {sh sh' : (tasks faulty git).Shared}
    {h h' : (tasks faulty git).Session} {L : (tasks faulty git).Claim} {r : (Tasks Commit).Res c}
    (hexec : (tasks faulty git).exec t c sh h L r sh' h') : h'.2 = h.2 := by
  rcases c with c | c | c
  · exact hexec.2.2
  · obtain ⟨⟨K, -, -, hsession, -⟩, -, -⟩ := hexec
    exact hsession
  · obtain ⟨⟨K, -, hexec⟩, -, -⟩ := hexec
    refine hexec.keeps ?_ ?_
    · rintro rfl
      exact hc
    · rintro rfl
      exact hc

/-- The contract of the tasks, beside a database. -/
abbrev tasksContract (faulty : Prop) (git : Git Commit) : Contract (tasks faulty git) :=
  (taskContract git).right (server faulty)

/-- What the holder of the mutex does is up to the holder. -/
theorem safe_held {p : Prog (Tasks Commit) Error α} (hp : p.Uses Keeps)
    {h : (tasks faulty git).Session} {sh : (tasks faulty git).Shared} (hheld : h.2 = true) :
    (tasksContract faulty git).Safe t (fun _ h _ => h.2 = true) p h sh := by
  induction p generalizing h sh with
  | ret a => exact hheld
  | fail e => exact hheld
  | op c k ih =>
    intro sh₁ _ _
    refine ⟨?_, fun L r sh₂ h₂ hexec => ⟨?_, ih r (hp.2 r) ((hp.1.session hexec).trans hheld)⟩⟩
    · rcases c with c | c
      · trivial
      · exact fun _ _ => hheld
    · rcases c with c | c
      · exact .inl hexec.2.1
      · obtain ⟨⟨K, rfl, -⟩, -, -⟩ := hexec
        exact .inr ⟨K, rfl, .inl hheld⟩

/-! ### The programs that run -/

theorem keeps_gitOutput (command : GitCommand) :
    (gitOutput Commit command : Prog (Tasks Commit) Error GitOutput).Uses Keeps := by
  refine Prog.uses_op.mpr ⟨trivial, fun r => ?_⟩
  cases r with
  | error e => trivial
  | ok pid =>
    refine Prog.uses_op.mpr ⟨trivial, fun r => ?_⟩
    cases r with
    | none => trivial
    | some r => trivial

theorem keeps_inl (p : Action α) : (p.inl : Prog (Tasks Commit) Error α).Uses Keeps := by
  induction p with
  | ret a => trivial
  | fail e => trivial
  | op c k ih => exact ⟨trivial, ih⟩

theorem keeps_files (p : Prog Files Error α) :
    ((p.inl (T := TaskCalls Commit)).inr (S := Service)).Uses Keeps := by
  induction p with
  | ret a => trivial
  | fail e => trivial
  | op c k ih => exact ⟨trivial, ih⟩

theorem keeps_syncLocked (branch : String) (note : Option String) :
    (syncLocked Commit toml display branch note).Uses Keeps := by
  refine Prog.uses_bind (keeps_gitOutput _) fun fetched => ?_
  split
  · trivial
  · trivial
  · trivial
  · refine Prog.uses_bind (keeps_gitOutput _) fun reset => ?_
    split
    · trivial
    · trivial
    · trivial
    · refine Prog.uses_bind (Prog.uses_attempt ?_) fun results => ?_
      · exact Prog.uses_bind (keeps_files _) fun parsed => keeps_inl _
      · split
        · trivial
        · exact Prog.uses_bind (Prog.uses_each fun n => ⟨trivial, fun _ => trivial⟩)
            fun _ => trivial

/-- What happens outside. -/
def TaskCall.Outside : TaskCall Commit → Prop
  | .push _ _ => True
  | .work => True
  | _ => False

theorem TaskCall.Exec.moves {c : TaskCall Commit} {s s' : Host git} {h h' L : Bool}
    {r : (TaskCalls Commit).Res c} (hexec : c.Exec s h L r s' h') (hc : c.Outside) :
    s.checkout.Moves s'.checkout := by
  cases hexec with
  | push => exact .push _ _ _
  | work hworks => exact .work hworks
  | _ => exact absurd hc id

/-- A program of what happens outside. -/
def FromOutside : (Tasks Commit).Cmd → Prop
  | .inr (.inr c) => c.Outside
  | _ => False

theorem uses_outside {c : TaskCall Commit} (hc : c.Outside) :
    (taskCall Commit c : Prog (Tasks Commit) Error _).Uses FromOutside := ⟨hc, fun _ => trivial⟩

theorem safe_outside {p : Prog (Tasks Commit) Error α} (hp : p.Uses FromOutside)
    {h : (tasks faulty git).Session} {sh : (tasks faulty git).Shared} :
    (tasksContract faulty git).Safe t (fun _ _ _ => True) p h sh := by
  induction p generalizing h sh with
  | ret a => trivial
  | fail e => trivial
  | op c k ih =>
    intro sh₁ _ _
    obtain ⟨hc, hk⟩ := Prog.uses_op.mp hp
    rcases c with c | c | c
    · exact absurd hc id
    · exact absurd hc id
    · refine ⟨?_, fun L r sh₂ h₂ hexec => ⟨?_, ih r (hk r)⟩⟩
      · rintro command heq
        obtain rfl := Sum.inr.inj heq
        exact absurd hc id
      · obtain ⟨⟨K, rfl, hexec⟩, -, -⟩ := hexec
        exact .inr ⟨K, rfl, .inr (hexec.moves hc)⟩

/-- The task is safe under the mutex, and takes it before it does anything else. -/
theorem safe_runSync (branch : String) (note : Option String)
    {sh : (tasks faulty git).Shared} {h : (tasks faulty git).Session} :
    (tasksContract faulty git).Safe t (fun _ _ _ => True)
      (runSync Commit toml display branch note) h sh := by
  refine Contract.safe_bind (Q := fun _ (h : (tasks faulty git).Session) _ => h.2 = true) ?_
    fun _ h sh hheld => ?_
  · intro sh₁ _ _
    refine ⟨?_, fun L r sh₂ h₂ hexec => ?_⟩
    · rintro command heq
      cases heq
    · obtain ⟨⟨K, rfl, hexec⟩, -, -⟩ := hexec
      obtain ⟨rfl, hs, hheld⟩ := exec_lock hexec
      refine ⟨.inl hs, hheld⟩
  · refine Contract.safe_bind (Q := fun _ (h : (tasks faulty git).Session) _ => h.2 = true) ?_
      fun result h sh hheld => ?_
    · refine (safe_held (keeps_syncLocked branch note) hheld).mono fun r h sh hheld => ?_
      cases r with
      | ok result => exact hheld
      | error e => trivial
    · intro sh₁ _ _
      refine ⟨?_, fun L r sh₂ h₂ hexec => ⟨.inl ?_, trivial⟩⟩
      · rintro command heq
        cases heq
      · obtain ⟨⟨K, rfl, hexec⟩, -, -⟩ := hexec
        exact exec_unlock hexec

/-- **Every program that runs keeps to the contract.** -/
theorem running_safe (p : Prog (Tasks Commit) Error Unit) (hp : Running toml display p) (t : Tid)
    (sh : (tasks faulty git).Shared) (_ : (tasksContract faulty git).Inv sh) :
    (tasksContract faulty git).Safe t (fun _ _ _ => True) p (tasks faulty git).idle sh := by
  cases hp with
  | sync branch note =>
    exact Contract.safe_bind (Q := fun _ _ _ => True)
      ((safe_runSync branch note).mono fun r _ _ _ => by cases r <;> trivial) fun _ _ _ _ => trivial
  | database p => exact Contract.safe_left
  | push branch tip => exact safe_outside (uses_outside (c := .push branch tip) trivial)
  | work n => exact safe_outside (Prog.uses_each fun _ => uses_outside (c := .work) trivial)

end Leaderboards
