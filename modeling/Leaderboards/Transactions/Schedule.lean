import Leaderboards.Library.Trace
import Leaderboards.Transactions.SingleClient

/-!
# Clients that take turns

`Clients` are several handlers on the same servers. A schedule says who calls what and who executes
how many instructions next; `play` runs it and stops when an instruction would have to wait for a
lock, or when the states before and after a step fail the given check. What a schedule reaches is
reached by steps of the machine that pass the check, and the log of the clients is the trace of
these steps (`play_run`). A schedule can be evaluated, so it shows that an interleaving exists.
-/

namespace Leaderboards

open Interaction

instance (L L' : List Lock) : Decidable (Compatible L L') := by
  unfold Compatible
  infer_instance

instance (s : Server) (u : Uuid) : Decidable (s.Fresh u) := by
  unfold Server.Fresh
  infer_instance

/-- Some handlers on the same servers: what each has open and still does, and what has happened. -/
structure Clients where
  server : Server := {}
  threads : List (Session × Action Unit) := []
  tick : ℕ := 0
  who : Tid → Option Request := fun _ => none
  log : List (Event Service Request) := []

/-- The locks that an instruction claims. -/
def claimed (env : Supply) : Cmd → World → List Lock
  | .sql q, w => q.locks (env.uuid w.tick) w.view
  | _, _ => []

/-- The supply and the session fit an instruction. -/
def Fits (env : Supply) : Cmd → World → Prop
  | .begin, w => w.session.isNone = true ∧ w.server.clock ≤ env.now w.tick
  | .commit, w => w.session.isSome = true
  | .sql _, w => w.server.Fresh (env.uuid w.tick) ∧ w.server.clock ≤ env.now w.tick
  | .newUuid, w => env.snap w.tick ∉ w.server.snapIds
  | _, _ => True

instance (env : Supply) (c : Cmd) (w : World) : Decidable (Fits env c w) := by
  cases c <;> unfold Fits <;> infer_instance

variable {env : Supply} {faulty : Prop}

/-- **What `serve` answers is an execution of the machine**, with these locks. -/
theorem serve_exec {c : Cmd} {w : World} (h : Fits env c w) :
    Exec faulty c w.server w.session (claimed env c w) (serve env c w).1
      (serve env c w).2.server (serve env c w).2.session := by
  obtain ⟨server, session, tick⟩ := w
  cases c with
  | begin =>
    obtain ⟨hnone, hclock⟩ := h
    obtain rfl : session = none := Option.isNone_iff_eq_none.mp hnone
    exact .begin hclock
  | commit =>
    obtain ⟨tx, rfl⟩ := Option.isSome_iff_exists.mp h
    exact .commit
  | rollback => exact .rollback
  | sql q =>
    obtain ⟨hfresh, hclock⟩ := h
    rcases session with _ | tx
    · rcases hq : exec (env.uuid tick) (env.now tick) q server.db with e | ⟨row, ws⟩
      · simp only [serve, serveSql, claimed, World.view, Session.view_none, hq]
        exact .autocommitError hfresh hclock hq
      · simp only [serve, serveSql, claimed, World.view, Session.view_none, hq]
        exact .autocommit hfresh hclock hq
    · rcases hq : exec (env.uuid tick) tx.now q (server.db.applyAll tx.writes) with e | ⟨row, ws⟩
      · simp only [serve, serveSql, claimed, World.view, Session.view_some, hq]
        exact .statementError hfresh hq
      · simp only [serve, serveSql, claimed, World.view, Session.view_some, hq]
        exact .statement hfresh hq
  | redis c => exact .redis
  | newUuid => exact .newUuid h

/-! ### Turns -/

/-- What a handler with a session sees. -/
def Clients.world (g : Clients) (session : Session) : World := ⟨g.server, session, g.tick⟩

/-- The instruction of a handler can be executed now: no other handler holds a conflicting lock. -/
structure Clients.Admits (env : Supply) (g : Clients) (t : ℕ) (session : Session) (c : Cmd) :
    Prop where
  fits : Fits env c (g.world session)
  locks : ∀ x ∈ g.threads.zipIdx,
    x.2 ≠ t → Compatible (claimed env c (g.world session)) x.1.1.locks

instance (env : Supply) (g : Clients) (t : ℕ) (session : Session) (c : Cmd) :
    Decidable (g.Admits env t session c) :=
  decidable_of_iff (Fits env c (g.world session) ∧ ∀ x ∈ g.threads.zipIdx,
      x.2 ≠ t → Compatible (claimed env c (g.world session)) x.1.1.locks)
    ⟨fun ⟨h₁, h₂⟩ => ⟨h₁, h₂⟩, fun ⟨h₁, h₂⟩ => ⟨h₁, h₂⟩⟩

/-- The clients after an instruction of a handler. -/
def Clients.executed (env : Supply) (g : Clients) (t : ℕ) (session : Session) (c : Cmd)
    (k : c.Res → Action Unit) : Clients :=
  let result := serve env c (g.world session)
  { server := result.2.server
    threads := g.threads.set t (result.2.session, k result.1)
    tick := result.2.tick
    who := g.who
    log := g.log ++ [.exec t (g.who t) c result.1] }

/-- A handler executes an instruction. -/
def Clients.exec (env : Supply) (check : Clients → Clients → Bool) (g : Clients) (t : ℕ)
    (session : Session) (c : Cmd) (k : c.Res → Action Unit) : Option Clients :=
  if g.Admits env t session c then
    if check g (g.executed env t session c k) = true then some (g.executed env t session c k)
    else none
  else none

/-- The next instruction of a handler, if it is not done. -/
def Clients.turn (env : Supply) (check : Clients → Clients → Bool) (g : Clients) (t : ℕ) :
    Option Clients :=
  match g.threads[t]? with
  | some (session, .op c k) => g.exec env check t session c k
  | _ => some g

/-- What happens next: a request arrives, or a handler executes some instructions. -/
inductive Move
  | call (r : Request)
  | turns (t n : ℕ)

/-- A request arrives. -/
def Clients.called (g : Clients) (r : Request) : Clients :=
  { g with
    threads := g.threads ++ [(none, r.handler)]
    who := Function.update g.who g.threads.length (some r)
    log := g.log ++ [.call g.threads.length r] }

/-- Some turns of one handler. -/
def Clients.turns (env : Supply) (check : Clients → Clients → Bool) (t : ℕ) :
    ℕ → Clients → Option Clients
  | 0, g => some g
  | n + 1, g => (g.turn env check t).bind (Clients.turns env check t n)

/-- The clients after a schedule. -/
def Clients.play (env : Supply) (check : Clients → Clients → Bool) :
    List Move → Clients → Option Clients
  | [], g => some g
  | .call r :: moves, g =>
    if check g (g.called r) = true then Clients.play env check moves (g.called r) else none
  | .turns t n :: moves, g => (Clients.turns env check t n g).bind (Clients.play env check moves)

/-- The state of the machine that the clients are in. -/
structure Clients.Shows (g : Clients) (sys : System faulty) : Prop where
  servers : sys.servers = g.server
  thread : ∀ t, sys.thread t = (g.threads[t]?).map fun th => ⟨th.1, th.2⟩

/-- A step that passes the check. -/
def Clients.CheckedStep (check : Clients → Clients → Bool) (allowed : Request → Prop)
    (sys sys' : System faulty) : Prop :=
  Machine.Step (Machine.Called Request.handler allowed) sys sys' ∧
    ∃ g g' : Clients, g.Shows sys ∧ g'.Shows sys' ∧ check g g' = true

/-- The clients log what has happened before a step that passes the check. -/
def Clients.Checked (check : Clients → Clients → Bool) (es : List (Event Service Request))
    (who : Tid → Option Request) (sys sys' : System faulty) : Prop :=
  ∃ g g' : Clients, g.log = es ∧ g.who = who ∧ g.Shows sys ∧ g'.Shows sys' ∧ check g g' = true

/-- The log of the clients is the trace of a run to the state, by steps that pass the check. -/
def Clients.Logs (check : Clients → Clients → Bool) (allowed : Request → Prop)
    (sys₀ : System faulty) (g : Clients) (sys : System faulty) : Prop :=
  Machine.TraceWhere Request.handler allowed (Clients.Checked check) sys₀ g.log g.who sys

/-- The clients show the state that some checked steps reach, and log these steps. -/
def Clients.Reaches (check : Clients → Clients → Bool) (allowed : Request → Prop) (g : Clients)
    (sys : System faulty) (g' : Clients) : Prop :=
  ∃ sys', Relation.ReflTransGen (Clients.CheckedStep check allowed) sys sys' ∧ g'.Shows sys' ∧
    ∀ sys₀, g.Logs check allowed sys₀ sys → g'.Logs check allowed sys₀ sys'

variable {check : Clients → Clients → Bool} {allowed : Request → Prop} {g g' : Clients}
  {sys : System faulty}

theorem Clients.Logs.trace {sys₀ : System faulty} (h : g.Logs check allowed sys₀ sys) :
    System.Trace allowed sys₀ g.log g.who sys := Machine.TraceWhere.trace h

/-- One checked step. -/
theorem Clients.Reaches.step {sys' : System faulty} {x : Event Service Request}
    (hx : Machine.Happens Request.handler allowed g.who sys x g'.who sys')
    (hlog : g'.log = g.log ++ [x]) (hshows : g.Shows sys) (hshows' : g'.Shows sys')
    (hcheck : check g g' = true) : Clients.Reaches check allowed g sys g' := by
  refine ⟨sys', .single ⟨hx.step, g, g', hshows, hshows', hcheck⟩, hshows', fun sys₀ hlogs => ?_⟩
  unfold Clients.Logs
  rw [hlog]
  exact .step hlogs hx ⟨g, g', rfl, rfl, hshows, hshows', hcheck⟩

theorem Clients.Reaches.trans {g'' : Clients} (h : Clients.Reaches check allowed g sys g')
    (h' : ∀ sys' : System faulty, g'.Shows sys' → Clients.Reaches check allowed g' sys' g'') :
    Clients.Reaches check allowed g sys g'' := by
  obtain ⟨sys₁, hrun₁, hshows₁, hlogs₁⟩ := h
  obtain ⟨sys₂, hrun₂, hshows₂, hlogs₂⟩ := h' sys₁ hshows₁
  exact ⟨sys₂, hrun₁.trans hrun₂, hshows₂, fun sys₀ h => hlogs₂ sys₀ (hlogs₁ sys₀ h)⟩

theorem Clients.Shows.mem {t : Tid} {th : (Leaderboards.server faulty).Thread Error}
    (hshows : g.Shows sys)
    (ht : sys.thread t = some th) : (th.session, th.rest) ∈ g.threads := by
  rw [hshows.thread t, Option.map_eq_some_iff] at ht
  obtain ⟨x, hx, rfl⟩ := ht
  exact List.mem_of_getElem? hx

theorem Clients.Reaches.refl (hshows : g.Shows sys) : Clients.Reaches check allowed g sys g :=
  ⟨sys, .refl, hshows, fun _ hlogs => hlogs⟩

/-- The clients after an instruction of a handler show the state after it. -/
theorem Clients.shows_executed {t : ℕ} {session : Session} {c : Cmd} {k : c.Res → Action Unit}
    (hthread : g.threads[t]? = some (session, .op (S := Service) c k)) (hshows : g.Shows sys) :
    (g.executed env t session c k).Shows
      (⟨(serve env c (g.world session)).2.server, Function.update sys.thread t
        (some ⟨(serve env c (g.world session)).2.session,
          k (serve env c (g.world session)).1⟩)⟩ : System faulty) := by
  refine ⟨rfl, fun u => ?_⟩
  have hlen : t < g.threads.length := by
    by_contra hle
    rw [List.getElem?_eq_none (by omega)] at hthread
    cases hthread
  by_cases hut : u = t
  · subst hut
    simp [Clients.executed, List.getElem?_set_self hlen]
  · simp [Clients.executed, Function.update_of_ne hut, List.getElem?_set_ne (Ne.symm hut),
      hshows.thread u]

variable (allowed) in
/-- A turn is a step, unless the handler is done. -/
theorem Clients.turn_run {t : ℕ} (hturn : g.turn env check t = some g') (hshows : g.Shows sys) :
    Clients.Reaches check allowed g sys g' := by
  unfold Clients.turn at hturn
  split at hturn
  · rename_i session c k hthread
    unfold Clients.exec at hturn
    split at hturn
    · rename_i hadmits
      split at hturn
      · rename_i hcheck
        obtain ⟨hfits, hlocks⟩ := hadmits
        obtain rfl := Option.some.inj hturn
        have ht : sys.thread t = some ⟨session, .op c k⟩ := by
          rw [hshows.thread t, hthread]
          rfl
        -- The locks that the command claims were compared with those of all other clients.
        have hothers : ∀ u th, u ≠ t → sys.thread u = some th →
            Compatible (claimed env c (g.world session)) th.session.locks := by
          intro u th hut hu
          rw [hshows.thread u, Option.map_eq_some_iff] at hu
          obtain ⟨x, hx, rfl⟩ := hu
          exact hlocks (x, u) (List.mem_zipIdx_iff_getElem?.mpr hx) hut
        have hservers : (g.world session).server = sys.shared := hshows.servers.symm
        have hexec : Exec faulty c (g.world session).server _ _ _ _ _ := serve_exec hfits
        rw [hservers] at hexec
        exact .step (.exec t c k _ _ _ _ _ ht hothers hexec) rfl hshows
          (Clients.shows_executed hthread hshows) hcheck
      · cases hturn
    · cases hturn
  · obtain rfl := Option.some.inj hturn
    exact .refl hshows

variable (allowed) in
/-- Some turns are some steps. -/
theorem Clients.turns_run {t n : ℕ} (hturns : Clients.turns env check t n g = some g')
    (hshows : g.Shows sys) : Clients.Reaches check allowed g sys g' := by
  induction n generalizing g sys with
  | zero =>
    obtain rfl := Option.some.inj hturns
    exact .refl hshows
  | succ n ih =>
    obtain ⟨g₁, hturn, hrest⟩ := Option.bind_eq_some_iff.mp hturns
    exact (Clients.turn_run allowed hturn hshows).trans fun sys₁ hshows₁ => ih hrest hshows₁

/-- The requests of a schedule. -/
def Move.request? : Move → Option Request
  | call r => some r
  | turns _ _ => none

/-- The clients after a call show the state after it. -/
theorem Clients.shows_called (hshows : g.Shows sys) (r : Request) :
    (g.called r).Shows (sys.setThread g.threads.length (some ⟨none, r.handler⟩)) := by
  refine ⟨hshows.servers, fun u => ?_⟩
  by_cases hu : u = g.threads.length
  · subst hu
    rw [sys.setThread_self]
    simp [Clients.called]
  · rw [sys.setThread_of_ne _ hu, hshows.thread u, Clients.called]
    congr 1
    rcases Nat.lt_or_ge u g.threads.length with hlt | hge
    · rw [List.getElem?_append_left hlt]
    · have hlen : g.threads.length < u := Nat.lt_of_le_of_ne hge (Ne.symm hu)
      rw [List.getElem?_eq_none hge, List.getElem?_eq_none]
      rw [List.length_append, List.length_singleton]
      exact hlen

variable (allowed) in
/-- **A schedule is a run of the machine** by steps that pass the check. -/
theorem Clients.play_run {moves : List Move} (hplay : Clients.play env check moves g = some g')
    (hmoves : ∀ m ∈ moves, ∀ r, m.request? = some r → allowed r) (hshows : g.Shows sys) :
    Clients.Reaches check allowed g sys g' := by
  induction moves generalizing g sys with
  | nil =>
    obtain rfl := Option.some.inj hplay
    exact .refl hshows
  | cons m moves ih =>
    obtain ⟨hm, hrest⟩ := List.forall_mem_cons.mp hmoves
    cases m with
    | call r =>
      simp only [Clients.play] at hplay
      split at hplay
      · rename_i hcheck
        have ht : sys.thread g.threads.length = none := by
          rw [hshows.thread, List.getElem?_eq_none le_rfl, Option.map_none]
        have hcalled : Clients.Reaches check allowed g sys (g.called r) :=
          .step (.call g.threads.length r (hm r rfl) ht) rfl hshows
            (Clients.shows_called hshows r) hcheck
        exact hcalled.trans fun sys₁ hshows₁ => ih hplay hrest hshows₁
      · cases hplay
    | turns t n =>
      obtain ⟨g₁, hturns, hplay⟩ := Option.bind_eq_some_iff.mp hplay
      exact (Clients.turns_run allowed hturns hshows).trans
        fun sys₁ hshows₁ => ih hplay hrest hshows₁

variable (faulty) in
/-- Nobody has called yet. -/
theorem Clients.shows_initial : ({} : Clients).Shows (System.initial faulty .codePoint) where
  servers := rfl
  thread _ := rfl

/-- Clients whose handlers are done. -/
def Clients.done (g : Clients) : Bool :=
  g.threads.all fun th =>
    match th.2 with
    | .op _ _ => false
    | _ => true

theorem Clients.Shows.done (hshows : g.Shows sys) (hdone : g.done = true) : sys.Done := by
  intro t th ht c k hrest
  have hall := List.all_eq_true.mp hdone _ (hshows.mem ht)
  simp only [hrest, Bool.false_eq_true] at hall

/-- The handler has answered, and has nothing open. -/
def Clients.answered (g : Clients) (t : Tid) : Bool :=
  match g.threads[t]? with
  | some (none, .ret _) => true
  | _ => false

theorem Clients.Shows.answered {t : Tid} (hshows : g.Shows sys) (hanswered : g.answered t = true) :
    sys.thread t = some ⟨none, .ret ()⟩ := by
  rw [hshows.thread t]
  unfold Clients.answered at hanswered
  split at hanswered
  · rename_i hth
    rw [hth]
    rfl
  · cases hanswered

/-- The same clients, with nothing logged. -/
def Clients.restart (g : Clients) : Clients := { g with who := fun _ => none, log := [] }

theorem Clients.Shows.restart (hshows : g.Shows sys) :
    g.restart.Shows sys ∧ g.restart.Logs check allowed sys sys := ⟨⟨hshows.1, hshows.2⟩, .start⟩

/-- **What a schedule reaches is reachable.** -/
theorem Clients.reachable_play {moves : List Move}
    (hplay : Clients.play env (fun _ _ => true) moves {} = some g) :
    ∃ sys : System faulty, System.Reachable {} sys ∧ g.Shows sys := by
  obtain ⟨sys, hrun, hshows, -⟩ := Clients.play_run (fun r => r.Respects {}) hplay
    (fun _ _ r _ => r.respects_default) (Clients.shows_initial faulty)
  exact ⟨sys, ⟨_, hrun.lift id fun _ _ hstep => hstep.1⟩, hshows⟩

end Leaderboards
