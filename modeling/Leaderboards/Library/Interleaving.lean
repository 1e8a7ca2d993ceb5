import Leaderboards.Library.Program
import Mathlib.Logic.Function.Basic
import Mathlib.Data.Nat.Notation
import Mathlib.Logic.Relation

/-!
# Interleaved programs and rely-guarantee reasoning

A `Machine` gives the commands of a signature a meaning on a shared state and a private session.
A command may need a *claim*, for example the locks it takes; it runs only when the claim is
admitted by the sessions of all other threads. `Step` lets any thread execute its next command,
so a chain of steps is an arbitrary interleaving.

A `Contract` states what a thread may assume of the others (`Rely`) and what each of its
commands owes them (`Guar`). `Safe` is the resulting program logic, a fold over the program:
before each command the others may act within the rely, and each outcome of the command has to
meet the guarantee. The rules below follow the constructors of programs and the two list loops.

**`sound`**: if every request is safe from an idle session, then in every reachable state the
invariant holds and every thread is safe, whatever the interleaving.
-/

namespace Interaction

/-- What does not hold at the start of a run, but at its end, comes to hold in some step. -/
theorem exists_step {α : Type} {r : α → α → Prop} {holds : α → Prop} {a b : α}
    (hrun : Relation.ReflTransGen r a b) (hnot : ¬holds a) (hholds : holds b) :
    ∃ x y, Relation.ReflTransGen r a x ∧ ¬holds x ∧ r x y ∧ holds y ∧
      Relation.ReflTransGen r y b := by
  induction hrun with
  | refl => exact absurd hholds hnot
  | @tail y b hrun hstep ih =>
    by_cases hbefore : holds y
    · obtain ⟨x, y', hrun₀, hnot₀, hstep₀, hholds₀, hrest⟩ := ih hbefore
      exact ⟨x, y', hrun₀, hnot₀, hstep₀, hholds₀, hrest.tail hstep⟩
    · exact ⟨y, b, hrun, hbefore, hstep, hholds, .refl⟩

variable {S : Signature} {ε α β : Type}

/-- The name of a thread. -/
abbrev Tid := ℕ

/-- The meaning of commands on a shared state and a session. -/
structure Machine (S : Signature) where
  /-- The state that all threads see. -/
  Shared : Type
  /-- The state of one thread. -/
  Session : Type
  /-- What a command asks of the sessions of the other threads. -/
  Claim : Type
  /-- The session of a thread that has nothing open. -/
  idle : Session
  /-- A thread executes a command: the claim it needs, the answer, and the states after it. -/
  exec : Tid → (c : S.Cmd) → Shared → Session → Claim → S.Res c → Shared → Session → Prop
  /-- A session of another thread admits a claim. -/
  admits : Claim → Session → Prop
  /-- Whether threads may disappear in the middle of a program. -/
  crashes : Prop

namespace Machine

variable (M : Machine S)

/-- A running thread: its session and the rest of its program. -/
structure Thread (ε : Type) where
  session : M.Session
  rest : Prog S ε Unit

/-- A state of the machine with its threads. -/
structure State (ε : Type) where
  shared : M.Shared
  thread : Tid → Option (M.Thread ε)

variable {M}

/-- Replace a thread. -/
def State.setThread (g : M.State ε) (t : Tid) (th : Option (M.Thread ε)) : M.State ε :=
  { g with thread := Function.update g.thread t th }

theorem State.setThread_self (g : M.State ε) (t : Tid) (th : Option (M.Thread ε)) :
    (g.setThread t th).thread t = th := Function.update_self ..

theorem State.setThread_of_ne (g : M.State ε) {t u : Tid} (th : Option (M.Thread ε))
    (h : u ≠ t) : (g.setThread t th).thread u = g.thread u := Function.update_of_ne h ..

/-- The session of a thread, which has nothing open while no program runs in it. -/
def State.session (g : M.State ε) (t : Tid) : M.Session :=
  ((g.thread t).map Thread.session).getD M.idle

theorem State.session_of_thread {g : M.State ε} {t : Tid} {th : M.Thread ε}
    (ht : g.thread t = some th) : g.session t = th.session := by
  unfold State.session
  rw [ht]
  rfl

theorem State.session_of_none {g : M.State ε} {t : Tid} (ht : g.thread t = none) :
    g.session t = M.idle := by
  unfold State.session
  rw [ht]
  rfl

/-- A program that starts has nothing open. -/
theorem State.session_call {g : M.State ε} {t : Tid} (ht : g.thread t = none)
    (p : Prog S ε Unit) : (g.setThread t (some ⟨M.idle, p⟩)).session = g.session := by
  funext u
  by_cases hut : u = t
  · subst hut
    rw [session_of_thread (g.setThread_self u _), session_of_none ht]
  · unfold State.session
    rw [g.setThread_of_ne _ hut]

/-- A thread that disappears leaves nothing open. -/
theorem State.session_crash (g : M.State ε) (t : Tid) :
    (g.setThread t none).session = Function.update g.session t M.idle := by
  funext u
  by_cases hut : u = t
  · subst hut
    rw [Function.update_self]
    exact session_of_none (g.setThread_self u _)
  · rw [Function.update_of_ne hut]
    unfold State.session
    rw [g.setThread_of_ne _ hut]

/-- A command changes the session of its thread. -/
theorem State.session_exec (g : M.State ε) (t : Tid) (sh : M.Shared) (th : M.Thread ε) :
    (⟨sh, Function.update g.thread t (some th)⟩ : M.State ε).session =
      Function.update g.session t th.session := by
  funext u
  by_cases hut : u = t
  · subst hut
    rw [Function.update_self]
    exact session_of_thread (Function.update_self ..)
  · have hthread : (⟨sh, Function.update g.thread t (some th)⟩ : M.State ε).thread u = g.thread u :=
      Function.update_of_ne hut ..
    unfold State.session
    rw [hthread, Function.update_of_ne hut]

variable (M) in
/-- A state in which no thread runs. -/
def quiet (sh : M.Shared) : M.State ε := ⟨sh, fun _ => none⟩

/-- One step of the interleaving, given the programs that may be called. -/
inductive Step (requests : Prog S ε Unit → Prop) : M.State ε → M.State ε → Prop
  | call (g : M.State ε) (t : Tid) (p : Prog S ε Unit) (hp : requests p)
      (ht : g.thread t = none) : Step requests g (g.setThread t (some ⟨M.idle, p⟩))
  | exec (g : M.State ε) (t : Tid) (c : S.Cmd) (k : S.Res c → Prog S ε Unit) (h h' : M.Session)
      (L : M.Claim) (r : S.Res c) (sh' : M.Shared) (ht : g.thread t = some ⟨h, .op c k⟩)
      (hothers : ∀ u th, u ≠ t → g.thread u = some th → M.admits L th.session)
      (hexec : M.exec t c g.shared h L r sh' h') :
      Step requests g ⟨sh', Function.update g.thread t (some ⟨h', k r⟩)⟩
  | crash (g : M.State ε) (t : Tid) (th : M.Thread ε) (hc : M.crashes)
      (ht : g.thread t = some th) : Step requests g (g.setThread t none)

/-- With more requests there are more steps. -/
theorem Step.mono {requests requests' : Prog S ε Unit → Prop} (h : ∀ p, requests p → requests' p)
    {g g' : M.State ε} (hstep : Step requests g g') : Step requests' g g' := by
  cases hstep with
  | call t p hp ht => exact .call g t p (h p hp) ht
  | exec t c k hs hs' L r sh' ht hothers hexec =>
    exact .exec g t c k hs hs' L r sh' ht hothers hexec
  | crash t th hc ht => exact .crash g t th hc ht

/-- A run: any number of steps. -/
abbrev Run (requests : Prog S ε Unit → Prop) : M.State ε → M.State ε → Prop :=
  Relation.ReflTransGen (Step requests)

/-- A property of one session that every command keeps holds of all sessions along every run. -/
theorem Run.session_invariant {I : M.Session → Prop} (hidle : I M.idle)
    (hI : ∀ t c sh h L r sh' h', M.exec t c sh h L r sh' h' → I h → I h')
    {requests : Prog S ε Unit → Prop} {g g' : M.State ε} (hrun : Run requests g g')
    (hg : ∀ t th, g.thread t = some th → I th.session) :
    ∀ t th, g'.thread t = some th → I th.session := by
  induction hrun with
  | refl => exact hg
  | @tail g₁ g₂ _ hstep ih =>
    intro u th hu
    cases hstep with
    | call t p hp ht =>
      by_cases hut : u = t
      · subst hut
        obtain rfl := Option.some.inj ((g₁.setThread_self u _).symm.trans hu)
        exact hidle
      · exact ih u th ((g₁.setThread_of_ne _ hut).symm.trans hu)
    | exec t c k h h' L r sh' ht hothers hexec =>
      by_cases hut : u = t
      · subst hut
        obtain rfl := Option.some.inj
          ((Function.update_self u (some ⟨h', k r⟩) g₁.thread).symm.trans hu)
        exact hI u c _ h L r sh' h' hexec (ih u _ ht)
      · exact ih u th ((Function.update_of_ne hut ..).symm.trans hu)
    | crash t th' hc ht =>
      by_cases hut : u = t
      · subst hut
        cases (g₁.setThread_self u _).symm.trans hu
      · exact ih u th ((g₁.setThread_of_ne _ hut).symm.trans hu)

/-- Every running program uses allowed commands only. -/
def AllUse (allowed : S.Cmd → Prop) (g : M.State ε) : Prop :=
  ∀ t th, g.thread t = some th → th.rest.Uses allowed

theorem allUse_quiet (allowed : S.Cmd → Prop) (sh : M.Shared) :
    AllUse allowed (quiet M sh : M.State ε) := by
  intro t th ht
  cases ht

/-- **Requests that use allowed commands lead to states in which all do.** -/
theorem AllUse.step {allowed : S.Cmd → Prop} {requests : Prog S ε Unit → Prop}
    (hrequests : ∀ p, requests p → p.Uses allowed) {g g' : M.State ε} (h : AllUse allowed g)
    (hstep : Step requests g g') : AllUse allowed g' := by
  intro u th hu
  cases hstep with
  | call t p hp ht =>
    by_cases hut : u = t
    · subst hut
      obtain rfl := Option.some.inj ((g.setThread_self u _).symm.trans hu)
      exact hrequests p hp
    · exact h u th ((g.setThread_of_ne _ hut).symm.trans hu)
  | exec t c k hs hs' L r sh' ht hadmits hexec =>
    by_cases hut : u = t
    · subst hut
      obtain rfl := Option.some.inj
        ((Function.update_self u (some ⟨hs', k r⟩) g.thread).symm.trans hu)
      exact (h u _ ht).2 r
    · exact h u th ((Function.update_of_ne hut ..).symm.trans hu)
  | crash t th' hc ht =>
    by_cases hut : u = t
    · subst hut
      cases (g.setThread_self u _).symm.trans hu
    · exact h u th ((g.setThread_of_ne _ hut).symm.trans hu)

theorem AllUse.run {allowed : S.Cmd → Prop} {requests : Prog S ε Unit → Prop}
    (hrequests : ∀ p, requests p → p.Uses allowed) {g g' : M.State ε} (h : AllUse allowed g)
    (hrun : Run requests g g') : AllUse allowed g' := by
  induction hrun with
  | refl => exact h
  | tail _ hstep ih => exact ih.step hrequests hstep

end Machine

/-! ### Contracts -/

/-- What threads assume of each other and owe each other. -/
structure Contract (M : Machine S) where
  /-- Holds of the shared state between any two commands. -/
  Inv : M.Shared → Prop
  /-- Holds whenever a thread is about to execute a command. -/
  Pre : Tid → S.Cmd → M.Session → M.Shared → Prop
  /-- What a thread owes the others when it changes the shared state. -/
  Guar : Tid → M.Session → M.Claim → M.Shared → M.Shared → Prop
  /-- What a thread with a session may assume of the steps of the others. -/
  Rely : Tid → M.Session → M.Shared → M.Shared → Prop
  /-- Two sessions may be open at the same time. -/
  Beside : M.Session → M.Session → Prop
  rely_refl : ∀ t h sh, Rely t h sh sh
  rely_trans : ∀ t h sh sh' sh'', Rely t h sh sh' → Rely t h sh' sh'' → Rely t h sh sh''
  inv_of_guar : ∀ t h L sh sh', Inv sh → Guar t h L sh sh' → Inv sh'
  rely_of_guar : ∀ t u h hu L sh sh', u ≠ t → Inv sh → Guar t h L sh sh' → M.admits L hu →
    Beside h hu → Rely u hu sh sh'
  beside_symm : ∀ h h', Beside h h' → Beside h' h
  beside_idle : ∀ h, Beside M.idle h
  beside_exec : ∀ t c sh h L r sh' h' hu, M.exec t c sh h L r sh' h' → M.admits L hu →
    Beside h hu → Beside h' hu

namespace Contract

variable {M : Machine S} (C : Contract M)

/-- A condition on the outcome of a program and the states it ends in. -/
abbrev Post (M : Machine S) (ε α : Type) := Except ε α → M.Session → M.Shared → Prop

/-- The outcome condition that asks `Q` of a value and `E` of an error. -/
def outcome (Q : α → M.Session → M.Shared → Prop) (E : ε → M.Session → M.Shared → Prop) :
    Post M ε α
  | .ok a => Q a
  | .error e => E e

/-- **The program logic.** Before each command the other threads act within the rely; then each
outcome of the command meets the guarantee, and the rest of the program is safe. -/
def Safe (t : Tid) (post : Post M ε α) : Prog S ε α → M.Session → M.Shared → Prop
  | .ret a, h, sh => post (.ok a) h sh
  | .fail e, h, sh => post (.error e) h sh
  | .op c k, h, sh => ∀ sh₁, C.Rely t h sh sh₁ → C.Inv sh₁ → C.Pre t c h sh₁ ∧
      ∀ L r sh₂ h₂, M.exec t c sh₁ h L r sh₂ h₂ →
        C.Guar t h L sh₁ sh₂ ∧ Safe t post (k r) h₂ sh₂

variable {C} {t : Tid}

@[simp] theorem safe_ret {post : Post M ε α} {a : α} {h : M.Session} {sh : M.Shared} :
    C.Safe t post (.ret a) h sh ↔ post (.ok a) h sh := Iff.rfl

@[simp] theorem safe_fail {post : Post M ε α} {e : ε} {h : M.Session} {sh : M.Shared} :
    C.Safe t post (.fail e) h sh ↔ post (.error e) h sh := Iff.rfl

/-- The rule of consequence. -/
theorem Safe.mono {post post' : Post M ε α} (hpost : ∀ r h sh, post r h sh → post' r h sh)
    {p : Prog S ε α} {h : M.Session} {sh : M.Shared} (hp : C.Safe t post p h sh) :
    C.Safe t post' p h sh := by
  induction p generalizing h sh with
  | ret a => exact hpost _ _ _ hp
  | fail e => exact hpost _ _ _ hp
  | op c k ih =>
    intro sh₁ hrely hinv
    obtain ⟨hpre, hout⟩ := hp sh₁ hrely hinv
    exact ⟨hpre, fun L r sh₂ h₂ hexec =>
      ⟨(hout L r sh₂ h₂ hexec).1, ih r (hout L r sh₂ h₂ hexec).2⟩⟩

/-- The rule of sequential composition. -/
theorem safe_bind {Q : α → M.Session → M.Shared → Prop} {post : Post M ε β} {p : Prog S ε α}
    {f : α → Prog S ε β} {h : M.Session} {sh : M.Shared}
    (hp : C.Safe t (outcome Q fun e => post (.error e)) p h sh)
    (hf : ∀ a h sh, Q a h sh → C.Safe t post (f a) h sh) : C.Safe t post (p >>= f) h sh := by
  induction p generalizing h sh with
  | ret a => exact hf a h sh hp
  | fail e => exact hp
  | op c k ih =>
    intro sh₁ hrely hinv
    obtain ⟨hpre, hout⟩ := hp sh₁ hrely hinv
    exact ⟨hpre, fun L r sh₂ h₂ hexec =>
      ⟨(hout L r sh₂ h₂ hexec).1, ih r (hout L r sh₂ h₂ hexec).2⟩⟩

/-- A caller that inspects the outcome gets both outcomes as values. -/
theorem safe_attempt {post : Post M ε (Except ε α)} {p : Prog S ε α} {h : M.Session}
    {sh : M.Shared} (hp : C.Safe t (fun r => post (.ok r)) p h sh) :
    C.Safe t post p.attempt h sh := by
  induction p generalizing h sh with
  | ret a => exact hp
  | fail e => exact hp
  | op c k ih =>
    intro sh₁ hrely hinv
    obtain ⟨hpre, hout⟩ := hp sh₁ hrely hinv
    exact ⟨hpre, fun L r sh₂ h₂ hexec =>
      ⟨(hout L r sh₂ h₂ hexec).1, ih r (hout L r sh₂ h₂ hexec).2⟩⟩

/-- A validation passes, or its error is the outcome. -/
theorem safe_ofExcept {post : Post M ε β} {x : Except ε α} {f : α → Prog S ε β} {h : M.Session}
    {sh : M.Shared} (herr : ∀ e, x = .error e → post (.error e) h sh)
    (hok : ∀ a, x = .ok a → C.Safe t post (f a) h sh) :
    C.Safe t post (Prog.ofExcept x >>= f) h sh := by
  cases x with
  | ok a => exact hok a rfl
  | error e => exact herr e rfl

theorem safe_failIf {post : Post M ε β} {c : Prop} [Decidable c] {e : ε} {f : Unit → Prog S ε β}
    {h : M.Session} {sh : M.Shared} (herr : c → post (.error e) h sh)
    (hok : ¬c → C.Safe t post (f ()) h sh) : C.Safe t post (Prog.failIf c e >>= f) h sh := by
  unfold Prog.failIf
  split
  · exact herr ‹c›
  · exact hok ‹¬c›

/-- The loop rule: `I` is indexed by the elements still to come. -/
theorem safe_each {I : List α → M.Session → M.Shared → Prop}
    {E : ε → M.Session → M.Shared → Prop} {f : α → Prog S ε Unit}
    (hf : ∀ a l h sh, I (a :: l) h sh → C.Safe t (outcome (fun _ => I l) E) (f a) h sh)
    {l : List α} {h : M.Session} {sh : M.Shared} (hI : I l h sh) :
    C.Safe t (outcome (fun _ => I []) E) (Prog.each l f) h sh := by
  induction l generalizing h sh with
  | nil => exact hI
  | cons a l ih => exact safe_bind (hf a l h sh hI) fun _ h' sh' hI' => ih hI'

/-- The collecting loop rule: `I` is indexed by the values so far and the elements to come. -/
theorem safe_collect {I : List β → List α → M.Session → M.Shared → Prop}
    {E : ε → M.Session → M.Shared → Prop} {f : α → Prog S ε β} (bs : List β)
    (hf : ∀ bs a l h sh, I bs (a :: l) h sh →
      C.Safe t (outcome (fun b => I (bs ++ [b]) l) E) (f a) h sh)
    {l : List α} {h : M.Session} {sh : M.Shared} (hI : I bs l h sh) :
    C.Safe t (outcome (fun bs' => I (bs ++ bs') []) E) (Prog.collect l f) h sh := by
  induction l generalizing bs h sh with
  | nil => simpa [Prog.collect, outcome] using hI
  | cons a l ih =>
    refine safe_bind (hf bs a l h sh hI) fun b h' sh' hI' => ?_
    refine safe_bind (Q := fun bs' => I (bs ++ [b] ++ bs') []) (ih _ hI') fun bs' h'' sh'' hI'' =>
      ?_
    simpa [outcome] using hI''

/-- What the others did before the first command does not matter. -/
theorem Safe.of_rely {p : Prog S ε Unit} {h : M.Session} {sh sh' : M.Shared}
    (hp : C.Safe t (fun _ _ _ => True) p h sh) (hrely : C.Rely t h sh sh') :
    C.Safe t (fun _ _ _ => True) p h sh' := by
  cases p with
  | ret a => trivial
  | fail e => trivial
  | op c k => exact fun sh₁ h₁ hinv => hp sh₁ (C.rely_trans _ _ _ _ _ hrely h₁) hinv

/-! ### Soundness -/

variable (C) in
/-- What holds in every reachable state: the invariant, the safety of every thread, and that
the open sessions go together. -/
structure Good (g : M.State ε) : Prop where
  inv : C.Inv g.shared
  safe : ∀ t th, g.thread t = some th → C.Safe t (fun _ _ _ => True) th.rest th.session g.shared
  beside : ∀ t u th thu, u ≠ t → g.thread t = some th → g.thread u = some thu →
    C.Beside th.session thu.session

theorem good_quiet {sh : M.Shared} (hinv : C.Inv sh) : C.Good (M.quiet sh : M.State ε) where
  inv := hinv
  safe := by simp [Machine.quiet]
  beside := by simp [Machine.quiet]

/-- **A command that a thread of a good state executes** was ready, and meets its guarantee. -/
theorem Good.exec {g : M.State ε} (hg : C.Good g) {t : Tid} {c : S.Cmd}
    {k : S.Res c → Prog S ε Unit} {h h' : M.Session} {L : M.Claim} {r : S.Res c} {sh' : M.Shared}
    (ht : g.thread t = some ⟨h, .op c k⟩) (hexec : M.exec t c g.shared h L r sh' h') :
    C.Pre t c h g.shared ∧ C.Guar t h L g.shared sh' := by
  obtain ⟨hpre, hout⟩ := hg.safe t _ ht g.shared (C.rely_refl _ _ _) hg.inv
  exact ⟨hpre, (hout L r sh' h' hexec).1⟩

variable {requests : Prog S ε Unit → Prop}

/-- A thread that is replaced keeps the state good when its replacement is safe and goes
together with the others. -/
private theorem Good.update {g : M.State ε} (hg : C.Good g) {sh' : M.Shared} (t : Tid)
    (th' : M.Thread ε) (hinv : C.Inv sh')
    (hrely : ∀ u thu, u ≠ t → g.thread u = some thu → C.Rely u thu.session g.shared sh')
    (hsafe : C.Safe t (fun _ _ _ => True) th'.rest th'.session sh')
    (hbeside : ∀ u thu, u ≠ t → g.thread u = some thu → C.Beside th'.session thu.session) :
    C.Good ⟨sh', Function.update g.thread t (some th')⟩ where
  inv := hinv
  safe u thu hu := by
    by_cases hut : u = t
    · subst hut
      simp only [Function.update_self] at hu
      cases hu
      exact hsafe
    · simp only [Function.update_of_ne hut] at hu
      exact (hg.safe u thu hu).of_rely (hrely u thu hut hu)
  beside u w thu thw hwu hu hw := by
    by_cases hut : u = t
    · subst hut
      simp only [Function.update_self] at hu
      simp only [Function.update_of_ne hwu] at hw
      cases hu
      exact hbeside w thw hwu hw
    · simp only [Function.update_of_ne hut] at hu
      by_cases hwt : w = t
      · subst hwt
        simp only [Function.update_self] at hw
        cases hw
        exact C.beside_symm _ _ (hbeside u thu hut hu)
      · simp only [Function.update_of_ne hwt] at hw
        exact hg.beside u w thu thw hwu hu hw

/-- **One step preserves what `Good` states**, and what it does to the shared state meets the
guarantee of some thread. -/
theorem Good.step (hreq : ∀ p, requests p → ∀ t sh, C.Inv sh →
      C.Safe t (fun _ _ _ => True) p M.idle sh) {g g' : M.State ε} (hg : C.Good g)
    (hstep : Machine.Step requests g g') :
    C.Good g' ∧ (g'.shared = g.shared ∨ ∃ t h L, C.Guar t h L g.shared g'.shared) := by
  cases hstep with
  | call t p hp ht =>
    refine ⟨?_, .inl rfl⟩
    exact hg.update t ⟨M.idle, p⟩ hg.inv (fun u thu _ _ => C.rely_refl _ _ _)
      (hreq p hp t g.shared hg.inv) (fun u thu _ _ => C.beside_idle _)
  | exec t c k h h' L r sh' ht hothers hexec =>
    obtain ⟨-, hout⟩ := hg.safe t _ ht g.shared (C.rely_refl _ _ _) hg.inv
    obtain ⟨hguar, hsafe⟩ := hout L r sh' h' hexec
    refine ⟨?_, .inr ⟨t, h, L, hguar⟩⟩
    refine hg.update t ⟨h', k r⟩ (C.inv_of_guar _ _ _ _ _ hg.inv hguar) ?_ hsafe ?_
    · intro u thu hut hu
      exact C.rely_of_guar t u h thu.session L _ _ hut hg.inv hguar (hothers u thu hut hu)
        (hg.beside t u _ thu hut ht hu)
    · intro u thu hut hu
      exact C.beside_exec _ _ _ _ _ _ _ _ _ hexec (hothers u thu hut hu)
        (hg.beside t u _ thu hut ht hu)
  | crash t th hc ht =>
    refine ⟨⟨hg.inv, fun u thu hu => ?_, fun u w thu thw hwu hu hw => ?_⟩, .inl rfl⟩
    · have hut : u ≠ t := by
        rintro rfl
        simp [Machine.State.setThread] at hu
      simp only [Machine.State.setThread, Function.update_of_ne hut] at hu
      exact hg.safe u thu hu
    · have hut : u ≠ t := by
        rintro rfl
        simp [Machine.State.setThread] at hu
      have hwt : w ≠ t := by
        rintro rfl
        simp [Machine.State.setThread] at hw
      simp only [Machine.State.setThread, Function.update_of_ne hut] at hu
      simp only [Machine.State.setThread, Function.update_of_ne hwt] at hw
      exact hg.beside u w thu thw hwu hu hw

/-- **Soundness.** Safe requests keep every reachable state good. -/
theorem sound (hreq : ∀ p, requests p → ∀ t sh, C.Inv sh →
      C.Safe t (fun _ _ _ => True) p M.idle sh) {g g' : M.State ε} (hg : C.Good g)
    (hrun : Machine.Run requests g g') : C.Good g' := by
  induction hrun with
  | refl => exact hg
  | tail _ hstep ih => exact (ih.step hreq hstep).1

/-- A relation on shared states that contains the guarantee and is a preorder relates the ends
of every run. -/
theorem sound_rel (hreq : ∀ p, requests p → ∀ t sh, C.Inv sh →
      C.Safe t (fun _ _ _ => True) p M.idle sh) {R : M.Shared → M.Shared → Prop}
    (hrefl : ∀ sh, R sh sh) (htrans : ∀ sh sh' sh'', R sh sh' → R sh' sh'' → R sh sh'')
    (hguar : ∀ t h L sh sh', C.Inv sh → C.Guar t h L sh sh' → R sh sh') {g g' : M.State ε}
    (hg : C.Good g) (hrun : Machine.Run requests g g') : R g.shared g'.shared := by
  induction hrun with
  | refl => exact hrefl _
  | @tail g₁ g₂ hrun hstep ih =>
    have hg₁ := sound hreq hg hrun
    refine htrans _ _ _ ih ?_
    rcases (hg₁.step hreq hstep).2 with heq | ⟨t, h, L, hG⟩
    · rw [heq]
      exact hrefl _
    · exact hguar t h L _ _ hg₁.inv hG

/-! ### A client that runs alone

A handler implements the machine when each of its answers is an execution whose claim idle
sessions admit. While all other threads are idle, running a program against the handler is a
run of the machine. -/

/-- The handler `H` on `σ` implements the machine where `J` holds. -/
structure Implements (C : Contract M) {σ : Type} (H : Prog.Handler S σ) (shared : σ → M.Shared)
    (session : σ → M.Session) (J : σ → Prop) : Prop where
  exec : ∀ t c w, J w → C.Inv (shared w) → C.Pre t c (session w) (shared w) →
    J (H c w).2 ∧ ∃ L, M.admits L M.idle ∧
      M.exec t c (shared w) (session w) L (H c w).1 (shared (H c w).2) (session (H c w).2)

variable {σ : Type} {H : Prog.Handler S σ} {shared : σ → M.Shared} {session : σ → M.Session}
  {J : σ → Prop}

variable (requests) in
/-- **A safe program that is run alone takes steps of the machine**, and ends as its outcome
condition says. -/
theorem Implements.run (hH : C.Implements H shared session J) {post : Post M ε Unit}
    {p : Prog S ε Unit} {w : σ} {g : M.State ε} (hp : C.Safe t post p (session w) (shared w))
    (hJ : J w) (hinv : C.Inv (shared w)) (hg : g.shared = shared w)
    (ht : g.thread t = some ⟨session w, p⟩)
    (hidle : ∀ u th, u ≠ t → g.thread u = some th → th.session = M.idle) :
    ∃ (g' : M.State ε) (rest : Prog S ε Unit), Machine.Run requests g g' ∧
      g'.shared = shared (p.run H w).2 ∧ g'.thread t = some ⟨session (p.run H w).2, rest⟩ ∧
      (∀ u, u ≠ t → g'.thread u = g.thread u) ∧
      post (p.run H w).1 (session (p.run H w).2) (shared (p.run H w).2) ∧
      J (p.run H w).2 ∧ C.Inv (shared (p.run H w).2) ∧ ∀ c k, rest ≠ .op c k := by
  induction p generalizing w g with
  | ret a => exact ⟨g, _, .refl, hg, ht, fun _ _ => rfl, hp, hJ, hinv, by simp⟩
  | fail e => exact ⟨g, _, .refl, hg, ht, fun _ _ => rfl, hp, hJ, hinv, by simp⟩
  | op c k ih =>
    obtain ⟨hpre, hout⟩ := hp (shared w) (C.rely_refl _ _ _) hinv
    obtain ⟨hJ', L, hadmits, hexec⟩ := hH.exec t c w hJ hinv hpre
    obtain ⟨hguar, hsafe⟩ := hout _ _ _ _ hexec
    let g₁ : M.State ε := ⟨shared (H c w).2,
      Function.update g.thread t (some ⟨session (H c w).2, k (H c w).1⟩)⟩
    have hstep : Machine.Step requests g g₁ :=
      .exec g t c k (session w) _ L _ _ ht
        (fun u th hut hu => hidle u th hut hu ▸ hadmits) (hg ▸ hexec)
    have hothers : ∀ u, u ≠ t → g₁.thread u = g.thread u := fun u hut =>
      Function.update_of_ne hut _ _
    obtain ⟨g', rest, hrun, hshared, hself, hothers', hrest⟩ := ih (H c w).1 (g := g₁) hsafe hJ'
      (C.inv_of_guar _ _ _ _ _ hinv hguar) rfl (Function.update_self ..)
      fun u th hut hu => hidle u th hut ((hothers u hut).symm.trans hu)
    exact ⟨g', rest, .head hstep hrun, hshared, hself,
      fun u hut => (hothers' u hut).trans (hothers u hut), hrest⟩

end Contract

end Interaction
