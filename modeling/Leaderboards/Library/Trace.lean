import Leaderboards.Library.Interleaving

/-!
# Runs with their events

`Trace` is a run of a machine together with the list of its events: who called what, and which
command each thread executed with which answer. Every run has a trace (`Run.exists_trace`).

`Course` follows one thread through a run: what it has been answered and what it has still to do
(`Trace.course`). `Answers` says where answers lead a program, and `Trace.answers` that each thread
is where its answers have led the program it was called with. Where threads may crash and be called
again, `answersSince` is what a thread has been answered since its last call
(`Trace.answers_since`).

`Contract.Meets` is the program logic without its postconditions: every command that a program
executes finds a given condition fulfilled, as long as the others keep to the contract.
**`Trace.meets`**: if every request meets its condition, then in every trace each command that is
executed on behalf of a request finds the condition of that request fulfilled.

`TraceWhere` is a trace whose steps meet a condition, which may speak of what has happened before.
-/

namespace Interaction

variable {S : Signature} {ε α R : Type}

/-- What happens in one step. A command is executed on behalf of the request that the thread was
called with, if it was called in the trace. -/
inductive Event (S : Signature) (R : Type)
  | call (t : Tid) (r : R)
  | exec (t : Tid) (r : Option R) (c : S.Cmd) (answer : S.Res c)
  | crash (t : Tid)

/-- The thread that an event is about. -/
def Event.thread : Event S R → Tid
  | .call t _ => t
  | .exec t .. => t
  | .crash t => t

namespace Machine

variable {M : Machine S}

/-- The programs of the allowed requests. -/
def Called (handler : R → Prog S ε Unit) (allowed : R → Prop) (p : Prog S ε Unit) : Prop :=
  ∃ r, allowed r ∧ handler r = p

/-- A run with its events, and the requests that the threads have been called with. -/
inductive Trace (handler : R → Prog S ε Unit) (allowed : R → Prop) (g₀ : M.State ε) :
    List (Event S R) → (Tid → Option R) → M.State ε → Prop
  | start : Trace handler allowed g₀ [] (fun _ => none) g₀
  | call {es : List (Event S R)} {who : Tid → Option R} {g : M.State ε} (t : Tid) (r : R)
      (h : Trace handler allowed g₀ es who g) (hr : allowed r) (ht : g.thread t = none) :
      Trace handler allowed g₀ (es ++ [.call t r]) (Function.update who t (some r))
        (g.setThread t (some ⟨M.idle, handler r⟩))
  | exec {es : List (Event S R)} {who : Tid → Option R} {g : M.State ε} (t : Tid) (c : S.Cmd)
      (k : S.Res c → Prog S ε Unit) (s s' : M.Session) (L : M.Claim) (a : S.Res c)
      (sh' : M.Shared) (h : Trace handler allowed g₀ es who g)
      (ht : g.thread t = some ⟨s, .op c k⟩)
      (hothers : ∀ u th, u ≠ t → g.thread u = some th → M.admits L th.session)
      (hexec : M.exec t c g.shared s L a sh' s') :
      Trace handler allowed g₀ (es ++ [.exec t (who t) c a]) who
        ⟨sh', Function.update g.thread t (some ⟨s', k a⟩)⟩
  | crash {es : List (Event S R)} {who : Tid → Option R} {g : M.State ε} (t : Tid)
      (th : M.Thread ε) (h : Trace handler allowed g₀ es who g) (hc : M.crashes)
      (ht : g.thread t = some th) :
      Trace handler allowed g₀ (es ++ [.crash t]) who (g.setThread t none)

variable {handler : R → Prog S ε Unit} {allowed : R → Prop} {g₀ g : M.State ε}
  {es : List (Event S R)} {who : Tid → Option R}

/-- A trace is a run. -/
theorem Trace.run (h : Trace handler allowed g₀ es who g) : Run (Called handler allowed) g₀ g := by
  induction h with
  | start => exact .refl
  | call t r h hr ht ih => exact ih.tail (.call _ t _ ⟨r, hr, rfl⟩ ht)
  | exec t c k s s' L a sh' h ht hothers hexec ih =>
    exact ih.tail (.exec _ t c k s s' L a sh' ht hothers hexec)
  | crash t th h hc ht ih => exact ih.tail (.crash _ t th hc ht)

/-- No thread has anything left to do. -/
def State.Done (g : M.State ε) : Prop := ∀ t th, g.thread t = some th → ∀ c k, th.rest ≠ .op c k

/-- From a state without unfinished threads, commands are executed for called requests only. -/
theorem Trace.called (hdone : g₀.Done) (h : Trace handler allowed g₀ es who g) {t : Tid}
    {s : M.Session} {c : S.Cmd} {k : S.Res c → Prog S ε Unit}
    (ht : g.thread t = some ⟨s, .op c k⟩) : ∃ r, allowed r ∧ who t = some r := by
  induction h generalizing t s c k with
  | start => exact absurd rfl (hdone t _ ht c k)
  | @call es who g u r h hr hu ih =>
    by_cases htu : t = u
    · subst htu
      exact ⟨r, hr, Function.update_self ..⟩
    · rw [g.setThread_of_ne _ htu] at ht
      rw [Function.update_of_ne htu]
      exact ih ht
  | @exec es who g u c' k' s' s'' L a sh' h hu hothers hexec ih =>
    by_cases htu : t = u
    · subst htu
      exact ih hu
    · exact ih ((Function.update_of_ne htu ..).symm.trans ht)
  | @crash es who g u th h hc hu ih =>
    by_cases htu : t = u
    · subst htu
      cases (g.setThread_self t _).symm.trans ht
    · exact ih ((g.setThread_of_ne _ htu).symm.trans ht)

end Machine

/-! ### Programs that meet a condition -/

namespace Contract

variable {M : Machine S} (C : Contract M)

/-- Every command that the program executes finds the condition fulfilled, while the other threads
keep to the contract. -/
def Meets (t : Tid) (Q : S.Cmd → M.Session → M.Shared → Prop) :
    Prog S ε α → M.Session → M.Shared → Prop
  | .ret _, _, _ => True
  | .fail _, _, _ => True
  | .op c k, h, sh => ∀ sh₁, C.Rely t h sh sh₁ → C.Inv sh₁ → Q c h sh₁ ∧
      ∀ L r sh₂ h₂, M.exec t c sh₁ h L r sh₂ h₂ → Meets t Q (k r) h₂ sh₂

variable {C} {t : Tid} {Q : S.Cmd → M.Session → M.Shared → Prop}

@[simp] theorem meets_ret {a : α} {h : M.Session} {sh : M.Shared} :
    C.Meets t Q (.ret a : Prog S ε α) h sh := trivial

@[simp] theorem meets_fail {e : ε} {h : M.Session} {sh : M.Shared} :
    C.Meets t Q (.fail e : Prog S ε α) h sh := trivial

/-- What the others did before the first command does not matter. -/
theorem Meets.of_rely {p : Prog S ε α} {h : M.Session} {sh sh' : M.Shared}
    (hp : C.Meets t Q p h sh) (hrely : C.Rely t h sh sh') : C.Meets t Q p h sh' := by
  cases p with
  | ret a => trivial
  | fail e => trivial
  | op c k => exact fun sh₁ h₁ hinv => hp sh₁ (C.rely_trans _ _ _ _ _ hrely h₁) hinv

end Contract

namespace Machine

variable {M : Machine S} {C : Contract M} {handler : R → Prog S ε Unit} {allowed : R → Prop}
  {g₀ g : M.State ε} {es : List (Event S R)} {who : Tid → Option R}
  {Q : R → S.Cmd → M.Session → M.Shared → Prop}

/-- **Every request meets its condition along every trace.** Threads that were called before the
trace began are left out. -/
theorem Trace.meets (hsafe : ∀ r, allowed r → ∀ t sh, C.Inv sh →
      C.Safe t (fun _ _ _ => True) (handler r) M.idle sh)
    (hmeets : ∀ r, allowed r → ∀ t sh, C.Inv sh → C.Meets t (Q r) (handler r) M.idle sh)
    (hg₀ : C.Good g₀) (h : Trace handler allowed g₀ es who g) :
    C.Good g ∧ ∀ t r th, who t = some r → g.thread t = some th →
      C.Meets t (Q r) th.rest th.session g.shared := by
  have hreq : ∀ p, Called handler allowed p → ∀ t sh, C.Inv sh →
      C.Safe t (fun _ _ _ => True) p M.idle sh := by
    rintro p ⟨r, hr, rfl⟩
    exact hsafe r hr
  refine ⟨C.sound hreq hg₀ h.run, ?_⟩
  induction h with
  | start =>
    intro t r th hwho
    cases hwho
  | @call es who g t r h hr ht ih =>
    intro u r' th hwho hu
    by_cases hut : u = t
    · subst hut
      rw [Function.update_self] at hwho
      obtain rfl := Option.some.inj hwho
      obtain rfl := Option.some.inj ((g.setThread_self u _).symm.trans hu)
      exact hmeets r hr u _ (C.sound hreq hg₀ h.run).inv
    · rw [Function.update_of_ne hut] at hwho
      exact ih u r' th hwho ((g.setThread_of_ne _ hut).symm.trans hu)
  | @exec es who g t c k s s' L a sh' h ht hothers hexec ih =>
    intro u r th hwho hu
    have hg := C.sound hreq hg₀ h.run
    by_cases hut : u = t
    · subst hut
      obtain rfl := Option.some.inj
        ((Function.update_self u (some ⟨s', k a⟩) g.thread).symm.trans hu)
      exact (ih u r _ hwho ht g.shared (C.rely_refl _ _ _) hg.inv).2 L a sh' s' hexec
    · have hu' : g.thread u = some th := (Function.update_of_ne hut ..).symm.trans hu
      -- The others rely on what this step guarantees.
      have hguar := (hg.exec ht hexec).2
      exact (ih u r th hwho hu').of_rely (C.rely_of_guar t u s th.session L _ _ hut hg.inv hguar
        (hothers u th hut hu') (hg.beside t u _ th hut ht hu'))
  | @crash es who g t th' h hc ht ih =>
    intro u r th hwho hu
    have hut : u ≠ t := by
      rintro rfl
      cases (g.setThread_self u _).symm.trans hu
    exact ih u r th hwho ((g.setThread_of_ne _ hut).symm.trans hu)

/-- What a command finds fulfilled that is executed on behalf of a request. -/
theorem Trace.meets_exec (hsafe : ∀ r, allowed r → ∀ t sh, C.Inv sh →
      C.Safe t (fun _ _ _ => True) (handler r) M.idle sh)
    (hmeets : ∀ r, allowed r → ∀ t sh, C.Inv sh → C.Meets t (Q r) (handler r) M.idle sh)
    (hg₀ : C.Good g₀) (h : Trace handler allowed g₀ es who g) {t : Tid} {r : R}
    (hwho : who t = some r) {c : S.Cmd} {k : S.Res c → Prog S ε Unit} {s : M.Session}
    (ht : g.thread t = some ⟨s, .op c k⟩) : Q r c s g.shared := by
  obtain ⟨hg, hall⟩ := h.meets hsafe hmeets hg₀
  exact (hall t r _ hwho ht g.shared (C.rely_refl _ _ _) hg.inv).1

/-! ### The course of one thread -/

/-- A command with its answer. -/
abbrev Answered (S : Signature) : Type := Σ c : S.Cmd, S.Res c

/-- The course of the thread `t`, which goes on with `f` after the program `p`: the commands that it
has executed with their answers, its session and the rest of `p`. In between the other threads take
steps that meet a condition. -/
inductive Course (requests : Prog S ε Unit → Prop)
    (cond : List (Answered S) → Prog S ε α → M.State ε → M.State ε → Prop) (t : Tid)
    (f : α → Prog S ε Unit) (p : Prog S ε α) (g₀ : M.State ε) :
    List (Answered S) → M.Session → Prog S ε α → M.State ε → Prop
  | start (ht : g₀.thread t = some ⟨M.idle, p >>= f⟩) :
      Course requests cond t f p g₀ [] M.idle p g₀
  | other {done : List (Answered S)} {s : M.Session} {rest : Prog S ε α}
      {g g' : M.State ε} (h : Course requests cond t f p g₀ done s rest g)
      (hstep : Step requests g g') (ht : g'.thread t = g.thread t) (hcond : cond done rest g g') :
      Course requests cond t f p g₀ done s rest g'
  | own {done : List (Answered S)} {s s' : M.Session} {c : S.Cmd}
      {k : S.Res c → Prog S ε α} {g : M.State ε} {L : M.Claim} {a : S.Res c} {sh' : M.Shared}
      (h : Course requests cond t f p g₀ done s (.op c k) g)
      (hothers : ∀ u th, u ≠ t → g.thread u = some th → M.admits L th.session)
      (hexec : M.exec t c g.shared s L a sh' s') :
      Course requests cond t f p g₀ (done ++ [⟨c, a⟩]) s' (k a)
        ⟨sh', Function.update g.thread t (some ⟨s', k a >>= f⟩)⟩

variable {requests : Prog S ε Unit → Prop}
  {cond : List (Answered S) → Prog S ε α → M.State ε → M.State ε → Prop} {t : Tid}
  {f : α → Prog S ε Unit} {p rest : Prog S ε α} {done : List (Answered S)}
  {s : M.Session}

/-- The thread is where its course says. -/
theorem Course.thread (h : Course requests cond t f p g₀ done s rest g) :
    g.thread t = some ⟨s, rest >>= f⟩ := by
  induction h with
  | start ht => exact ht
  | other h hstep ht hcond ih => exact ht.trans ih
  | own h hothers hexec ih => exact Function.update_self ..

/-- The course of a thread is a run. -/
theorem Course.run (h : Course requests cond t f p g₀ done s rest g) : Run requests g₀ g := by
  induction h with
  | start ht => exact .refl
  | other h hstep ht hcond ih => exact ih.tail hstep
  | own h hothers hexec ih => exact ih.tail (.exec _ t _ _ _ _ _ _ _ h.thread hothers hexec)

/-- The commands that a thread has executed, with their answers. -/
def answersOf (t : Tid) (es : List (Event S R)) : List (Answered S) :=
  es.filterMap fun
    | .exec u _ c a => if u = t then some ⟨c, a⟩ else none
    | _ => none

theorem answersOf_call (es : List (Event S R)) (u : Tid) (r : R) :
    answersOf t (es ++ [.call u r]) = answersOf t es := by
  simp [answersOf]

theorem answersOf_exec_self (es : List (Event S R)) (w : Option R) (c : S.Cmd) (a : S.Res c) :
    answersOf t (es ++ [.exec t w c a]) = answersOf t es ++ [⟨c, a⟩] := by
  simp [answersOf]

theorem answersOf_exec_of_ne (es : List (Event S R)) {u : Tid} (w : Option R) (c : S.Cmd)
    (a : S.Res c) (hut : u ≠ t) : answersOf t (es ++ [.exec u w c a]) = answersOf t es := by
  simp [answersOf, hut]

/-- **In every trace each thread follows a course**, unless threads crash. -/
theorem Trace.course (h : Trace handler allowed g₀ es who g) (hcrashes : ¬M.crashes)
    (hf : ∀ a c k, f a ≠ .op c k) (ht : g₀.thread t = some ⟨M.idle, p >>= f⟩) :
    ∃ s rest, Course (Called handler allowed) (fun _ _ _ _ => True) t f p g₀ (answersOf t es) s
      rest g := by
  induction h with
  | start => exact ⟨_, _, .start ht⟩
  | @call es who g u r h hr hu ih =>
    obtain ⟨s, rest, hcourse⟩ := ih
    have hut : t ≠ u := by
      rintro rfl
      cases hcourse.thread.symm.trans hu
    rw [answersOf_call]
    refine ⟨s, rest, ?_⟩
    exact .other hcourse (.call _ u _ ⟨r, hr, rfl⟩ hu) (g.setThread_of_ne _ hut) trivial
  | @exec es who g u c k s' s'' L a sh' h hu hothers hexec ih =>
    obtain ⟨s, rest, hcourse⟩ := ih
    by_cases hut : u = t
    · subst hut
      have hthread := hcourse.thread.symm.trans hu
      rw [answersOf_exec_self]
      -- The thread executes its own next command, so its program has not ended.
      cases rest with
      | ret x =>
        injection hthread with hthread
        injection hthread with hsession hrest
        exact absurd hrest (hf x c k)
      | fail e =>
        injection hthread with hthread
        injection hthread with hsession hrest
        cases hrest
      | op c' k' =>
        injection hthread with hthread
        injection hthread with hsession hrest
        injection hrest with hc hk
        subst hsession hc
        obtain rfl := eq_of_heq hk
        exact ⟨_, _, .own hcourse hothers hexec⟩
    · rw [answersOf_exec_of_ne _ _ _ _ hut]
      refine ⟨s, rest, ?_⟩
      exact .other hcourse (.exec g u c k s' s'' L a sh' hu hothers hexec)
        (Function.update_of_ne (Ne.symm hut) ..) trivial
  | crash u th h hc hu ih => exact absurd hc hcrashes

/-- A program leads to its rest when its commands get these answers. -/
inductive Answers : Prog S ε α → List (Answered S) → Prog S ε α → Prop
  | done (p : Prog S ε α) : Answers p [] p
  | next {c : S.Cmd} {k : S.Res c → Prog S ε α} {a : S.Res c}
      {as : List (Answered S)} {q : Prog S ε α} (h : Answers (k a) as q) :
      Answers (.op c k) (⟨c, a⟩ :: as) q

theorem Answers.concat {as : List (Answered S)} {c : S.Cmd} {k : S.Res c → Prog S ε α}
    {a : S.Res c} (h : Answers p as (.op c k)) : Answers p (as ++ [⟨c, a⟩]) (k a) := by
  generalize hq : Prog.op c k = q at h
  induction h with
  | done p => exact hq ▸ .next (.done _)
  | next h ih => exact .next (ih hq)

/-- The answers were given to commands that the program uses, and the rest uses such commands
too. -/
theorem Answers.uses {Q : S.Cmd → Prop} (h : Answers p done rest) (hp : p.Uses Q) :
    (∀ x ∈ done, Q x.1) ∧ rest.Uses Q := by
  induction h with
  | done p => exact ⟨fun x hx => absurd hx List.not_mem_nil, hp⟩
  | next h ih =>
    obtain ⟨hQ, hrest⟩ := ih (hp.2 _)
    refine ⟨fun x hx => ?_, hrest⟩
    rcases List.mem_cons.mp hx with rfl | hx
    · exact hp.1
    · exact hQ x hx

/-- Some answers led the program to an error. -/
theorem Answers.mayFail {e : ε} (h : Answers p done (.fail e)) : p.MayFail := by
  generalize hq : Prog.fail e = q at h
  induction h with
  | done p => exact hq ▸ trivial
  | next h ih => exact ⟨_, ih hq⟩

/-- A program that has failed got no answer that settles it. -/
theorem Answers.unsettled {e : ε} {kind : (c : S.Cmd) → S.Res c → Prop}
    (h : Answers p done (.fail e)) (hp : p.SettledBy kind) : ∀ x ∈ done, ¬kind x.1 x.2 := by
  generalize hq : Prog.fail e = q at h
  induction h with
  | done p => exact fun x hx => absurd hx List.not_mem_nil
  | @next c k a as q h ih =>
    subst hq
    intro x hx
    rcases List.mem_cons.mp hx with rfl | hx
    · exact fun hkind => (hp a).1 hkind h.mayFail
    · exact ih (hp a).2 rfl x hx

theorem Course.answers (h : Course requests cond t f p g₀ done s rest g) :
    Answers p done rest := by
  induction h with
  | start ht => exact .done p
  | other h hstep ht hcond ih => exact ih
  | own h hothers hexec ih => exact ih.concat

/-- **Where the threads of a trace are.** A thread that has not been called is not there, and one
that has been called got answers that lead its program to where it is, unless threads crash. -/
theorem Trace.answers (h : Trace handler allowed g₀ es who g) (hcrashes : ¬M.crashes)
    (ht : g₀.thread t = none) :
    (who t = none → g.thread t = none ∧ answersOf t es = []) ∧
      ∀ r, who t = some r → allowed r ∧
        ∃ th, g.thread t = some th ∧ Answers (handler r) (answersOf t es) th.rest := by
  induction h with
  | start =>
    refine ⟨fun _ => ⟨ht, rfl⟩, fun r hr => ?_⟩
    cases hr
  | @call es who g u r h hr hu ih =>
    rw [answersOf_call]
    by_cases htu : t = u
    · subst htu
      rw [Function.update_self, g.setThread_self]
      refine ⟨fun hnone => ?_, fun r' hr' => ?_⟩
      · cases hnone
      -- A thread that was called once would still be there, and could not be called again.
      · obtain rfl := Option.some.inj hr'
        have hfresh : answersOf t es = [] := by
          cases hwho : who t with
          | none => exact (ih.1 hwho).2
          | some r' =>
            obtain ⟨-, th, hth, -⟩ := ih.2 r' hwho
            cases hu.symm.trans hth
        exact ⟨hr, _, rfl, hfresh ▸ .done _⟩
    · rw [Function.update_of_ne htu, g.setThread_of_ne _ htu]
      exact ih
  | @exec es who g u c k s s' L a sh' h hu hothers hexec ih =>
    by_cases hut : u = t
    · subst hut
      rw [answersOf_exec_self]
      refine ⟨fun hnone => ?_, fun r hr => ?_⟩
      · cases hu.symm.trans (ih.1 hnone).1
      · obtain ⟨hallowed, th, hth, hanswers⟩ := ih.2 r hr
        obtain rfl := Option.some.inj (hu.symm.trans hth)
        exact ⟨hallowed, _, Function.update_self .., hanswers.concat⟩
    · rw [answersOf_exec_of_ne _ _ _ _ hut]
      simp only [Function.update_of_ne (Ne.symm hut)]
      exact ih
  | crash u th h hc hu ih => exact absurd hc hcrashes

/-- What a thread has been answered since its last call. -/
def answersSince (t : Tid) (es : List (Event S R)) : List (Answered S) :=
  es.foldl (fun done e =>
    match e with
    | .call u _ => if u = t then [] else done
    | .exec u _ c a => if u = t then done ++ [⟨c, a⟩] else done
    | .crash _ => done) []

theorem answersSince_call_self (es : List (Event S R)) (r : R) :
    answersSince t (es ++ [.call t r]) = [] := by
  simp [answersSince]

theorem answersSince_call_of_ne (es : List (Event S R)) {u : Tid} (r : R) (hut : u ≠ t) :
    answersSince t (es ++ [.call u r]) = answersSince t es := by
  simp [answersSince, hut]

theorem answersSince_exec_self (es : List (Event S R)) (w : Option R) (c : S.Cmd) (a : S.Res c) :
    answersSince t (es ++ [.exec t w c a]) = answersSince t es ++ [⟨c, a⟩] := by
  simp [answersSince]

theorem answersSince_exec_of_ne (es : List (Event S R)) {u : Tid} (w : Option R) (c : S.Cmd)
    (a : S.Res c) (hut : u ≠ t) :
    answersSince t (es ++ [.exec u w c a]) = answersSince t es := by
  simp [answersSince, hut]

theorem answersSince_crash (es : List (Event S R)) (u : Tid) :
    answersSince t (es ++ [.crash u]) = answersSince t es := by
  simp [answersSince]

/-- **Where the answers since its last call have led a thread.** -/
theorem Trace.answers_since (h : Trace handler allowed g₀ es who g) {r : R} {th : M.Thread ε}
    (hwho : who t = some r) (ht : g.thread t = some th) :
    allowed r ∧ Answers (handler r) (answersSince t es) th.rest := by
  induction h generalizing th with
  | start => cases hwho
  | @call es who g u r' h hr hu ih =>
    by_cases hut : u = t
    · subst hut
      rw [Function.update_self] at hwho
      obtain rfl := Option.some.inj hwho
      obtain rfl := Option.some.inj ((g.setThread_self u _).symm.trans ht)
      rw [answersSince_call_self]
      exact ⟨hr, .done _⟩
    · rw [Function.update_of_ne (Ne.symm hut)] at hwho
      rw [g.setThread_of_ne _ (Ne.symm hut)] at ht
      rw [answersSince_call_of_ne _ _ hut]
      exact ih hwho ht
  | @exec es who g u c k s s' L a sh' h hu hothers hexec ih =>
    by_cases hut : u = t
    · subst hut
      obtain rfl := Option.some.inj
        ((Function.update_self u (some ⟨s', k a⟩) g.thread).symm.trans ht)
      obtain ⟨hr, hanswers⟩ := ih hwho hu
      rw [answersSince_exec_self]
      exact ⟨hr, hanswers.concat⟩
    · rw [answersSince_exec_of_ne _ _ _ _ hut]
      exact ih hwho ((Function.update_of_ne (Ne.symm hut) ..).symm.trans ht)
  | @crash es who g u th' h hc hu ih =>
    rw [answersSince_crash]
    have hut : t ≠ u := by
      rintro rfl
      cases (g.setThread_self t _).symm.trans ht
    exact ih hwho ((g.setThread_of_ne _ hut).symm.trans ht)

/-! ### Traces whose steps meet a condition -/

/-- What can happen next, with the requests of the threads and the state after it. -/
inductive Happens (handler : R → Prog S ε Unit) (allowed : R → Prop) (who : Tid → Option R)
    (g : M.State ε) : Event S R → (Tid → Option R) → M.State ε → Prop
  | call (t : Tid) (r : R) (hr : allowed r) (ht : g.thread t = none) :
      Happens handler allowed who g (.call t r) (Function.update who t (some r))
        (g.setThread t (some ⟨M.idle, handler r⟩))
  | exec (t : Tid) (c : S.Cmd) (k : S.Res c → Prog S ε Unit) (s s' : M.Session) (L : M.Claim)
      (a : S.Res c) (sh' : M.Shared) (ht : g.thread t = some ⟨s, .op c k⟩)
      (hothers : ∀ u th, u ≠ t → g.thread u = some th → M.admits L th.session)
      (hexec : M.exec t c g.shared s L a sh' s') :
      Happens handler allowed who g (.exec t (who t) c a) who
        ⟨sh', Function.update g.thread t (some ⟨s', k a⟩)⟩
  | crash (t : Tid) (th : M.Thread ε) (hc : M.crashes) (ht : g.thread t = some th) :
      Happens handler allowed who g (.crash t) who (g.setThread t none)

section Conditions

variable {g' : M.State ε} {who' : Tid → Option R} {x : Event S R}

theorem Happens.step (h : Happens handler allowed who g x who' g') :
    Step (Called handler allowed) g g' := by
  cases h with
  | call t r hr ht => exact .call g t _ ⟨r, hr, rfl⟩ ht
  | exec t c k s s' L a sh' ht hothers hexec => exact .exec g t c k s s' L a sh' ht hothers hexec
  | crash t th hc ht => exact .crash g t th hc ht

theorem Trace.happens (h : Trace handler allowed g₀ es who g)
    (hx : Happens handler allowed who g x who' g') :
    Trace handler allowed g₀ (es ++ [x]) who' g' := by
  cases hx with
  | call t r hr ht => exact .call t r h hr ht
  | exec t c k s s' L a sh' ht hothers hexec => exact .exec t c k s s' L a sh' h ht hothers hexec
  | crash t th hc ht => exact .crash t th h hc ht

/-- What another thread has been answered since its last call. -/
theorem answersSince_of_ne (hne : x.thread ≠ t) :
    answersSince t (es ++ [x]) = answersSince t es := by
  cases x with
  | call u r => exact answersSince_call_of_ne es r hne
  | exec u w c a => exact answersSince_exec_of_ne es w c a hne
  | crash u => exact answersSince_crash es u

/-- Another thread stays as it is. -/
theorem Happens.others (h : Happens handler allowed who g x who' g') (hne : x.thread ≠ t) :
    who' t = who t ∧ g'.thread t = g.thread t := by
  cases h with
  | call u r hr hu =>
    exact ⟨Function.update_of_ne (Ne.symm hne) .., g.setThread_of_ne _ (Ne.symm hne)⟩
  | exec u c k s s' L a sh' hu hothers hexec =>
    exact ⟨rfl, Function.update_of_ne (Ne.symm hne) ..⟩
  | crash u th hc hu => exact ⟨rfl, g.setThread_of_ne _ (Ne.symm hne)⟩

/-- What another thread does is within the rely. -/
theorem Happens.rely {C : Contract M} (hg : C.Good g)
    (h : Happens handler allowed who g x who' g') {th : M.Thread ε} (hne : x.thread ≠ t)
    (ht : g.thread t = some th) : C.Rely t th.session g.shared g'.shared := by
  cases h with
  | call u r hr hu => exact C.rely_refl _ _ _
  | exec u c k s s' L a sh' hu hothers hexec =>
    exact C.rely_of_guar u t s th.session L _ _ (Ne.symm hne) hg.inv (hg.exec hu hexec).2
      (hothers t th (Ne.symm hne) ht) (hg.beside u t _ th (Ne.symm hne) hu ht)
  | crash u th' hc hu => exact C.rely_refl _ _ _

/-- A trace whose steps meet a condition on the trace so far and on the states before and after. -/
inductive TraceWhere (handler : R → Prog S ε Unit) (allowed : R → Prop)
    (cond : List (Event S R) → (Tid → Option R) → M.State ε → M.State ε → Prop)
    (g₀ : M.State ε) : List (Event S R) → (Tid → Option R) → M.State ε → Prop
  | start : TraceWhere handler allowed cond g₀ [] (fun _ => none) g₀
  | step {es : List (Event S R)} {who who' : Tid → Option R} {g g' : M.State ε} {x : Event S R}
      (h : TraceWhere handler allowed cond g₀ es who g)
      (hx : Happens handler allowed who g x who' g') (hcond : cond es who g g') :
      TraceWhere handler allowed cond g₀ (es ++ [x]) who' g'

variable {cond cond' : List (Event S R) → (Tid → Option R) → M.State ε → M.State ε → Prop}

theorem TraceWhere.trace (h : TraceWhere handler allowed cond g₀ es who g) :
    Trace handler allowed g₀ es who g := by
  induction h with
  | start => exact .start
  | step h hx hcond ih => exact ih.happens hx

/-- Steps that meet one condition may meet another one too. -/
theorem TraceWhere.mono (hcond : ∀ {es who g x who' g'},
      TraceWhere handler allowed cond g₀ es who g → Happens handler allowed who g x who' g' →
      cond es who g g' → cond' es who g g')
    (h : TraceWhere handler allowed cond g₀ es who g) :
    TraceWhere handler allowed cond' g₀ es who g := by
  induction h with
  | start => exact .start
  | step h hx hc ih => exact ih.step hx (hcond h hx hc)

end Conditions

end Machine

end Interaction
