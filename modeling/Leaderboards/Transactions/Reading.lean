import Leaderboards.Transactions.Reachable
import Leaderboards.Transactions.Running

/-!
# Reads of several statements

A read is a sequence of `SELECT`s outside a transaction, so others may commit between any two of
them. `Undisturbed` is a condition on their steps: once a step makes an answer outdated that the
read has, no step changes an answer that it still waits for. Under this condition the read answers
as if it had run without interruption in one of the states on its way (`Reads.atomic`).
-/

namespace Leaderboards

open Interaction

variable {P : Policy} {faulty : Prop} {α β : Type}

/-- The answer to a select in a state of the tables. -/
def Query.answer (q : Query) (db : Database) : Except DbError q.Row :=
  (exec 0 0 q db).map Prod.fst

/-- A select needs no id and no time. -/
theorem exec_answer {u : Uuid} {now : Timestamp} {q : Query} (hq : q.readOnly = true)
    (db : Database) : exec u now q db = (q.answer db).map fun row => (row, []) := by
  have hsame : exec u now q db = exec 0 0 q db := by
    cases q with
    | _ => first | rfl | cases hq
  rw [hsame, Query.answer]
  rcases h : exec 0 0 q db with e | ⟨row, ws⟩
  · rfl
  · obtain rfl := exec_readOnly hq h
    rfl

theorem answer_ok {u : Uuid} {now : Timestamp} {q : Query} (hq : q.readOnly = true) {db : Database}
    {row : q.Row} {ws : List RowWrite} (h : exec u now q db = .ok (row, ws)) :
    q.answer db = .ok row ∧ ws = [] := by
  rw [exec_answer hq] at h
  exact map_nil_ok h

theorem answer_error {u : Uuid} {now : Timestamp} {q : Query} (hq : q.readOnly = true)
    {db : Database} {e : DbError} (h : exec u now q db = .error e) : q.answer db = .error e := by
  rw [exec_answer hq] at h
  rcases hanswer : q.answer db with e' | row
  · rw [hanswer] at h
    cases h
    rfl
  · rw [hanswer] at h
    cases h

/-- A program of selects that stops at the first failure. -/
inductive Reads : Action α → Prop
  | ret (a : α) : Reads (.ret a)
  | fail (e : Error) : Reads (.fail e)
  | select {q : Query} {k : (Cmd.sql q).Res → Action α} (hq : q.readOnly = true)
      (herr : ∀ e, k (.error e) = .fail (.database e)) (hok : ∀ row, Reads (k (.ok row))) :
      Reads (Prog.op (S := Service) (.sql q) k)

theorem reads_sql {q : Query} {f : q.Row → Action α} (hq : q.readOnly = true)
    (hf : ∀ row, Reads (f row)) : Reads (Action.sql q >>= f) :=
  .select hq (fun _ => rfl) hf

/-- A read goes on as a read. -/
theorem Reads.rest {q : Query} {k : (Cmd.sql q).Res → Action α}
    (h : Reads (Prog.op (S := Service) (.sql q) k)) (a : (Cmd.sql q).Res) : Reads (k a) := by
  cases h with
  | select hq herr hok =>
    rcases a with e | row
    · rw [herr e]
      exact .fail _
    · exact hok row

theorem Reads.bind {p : Action α} {f : α → Action β} (hp : Reads p) (hf : ∀ a, Reads (f a)) :
    Reads (p >>= f) := by
  induction hp with
  | ret a => exact hf a
  | fail e => exact .fail e
  | select hq herr hok ih =>
    refine .select hq (fun e => ?_) ih
    rw [herr e]
    rfl

theorem reads_okOr {x : Option α} {e : Error} {f : α → Action β} (hf : ∀ a, Reads (f a)) :
    Reads (Action.okOr x e >>= f) := by
  cases x with
  | none => exact .fail e
  | some a => exact hf a

/-- A select outside a transaction answers from the tables and leaves them as they are. -/
theorem serveSql_answer (env : Supply) {q : Query} {w : World} (hq : q.readOnly = true)
    (hw : w.session = none) : (serveSql env q w).1 = q.answer w.server.db ∧
      (serveSql env q w).2.session = none ∧ (serveSql env q w).2.server.db = w.server.db := by
  obtain ⟨server, session, tick⟩ := w
  obtain rfl : session = none := hw
  have hexec : exec (env.uuid tick) (env.now tick) q server.db = _ := exec_answer hq server.db
  simp only [serveSql, World.view, Session.view_none, hexec]
  rcases q.answer server.db with e | row
  · exact ⟨rfl, rfl, rfl⟩
  · exact ⟨rfl, rfl, rfl⟩

/-- What an uninterrupted read answers depends on the tables only. -/
theorem Reads.run_congr {p : Action α} (hp : Reads p) {env env' : Supply} {w w' : World}
    (hw : w.session = none) (hw' : w'.session = none) (hdb : w.server.db = w'.server.db) :
    (p.run (serve env) w).1 = (p.run (serve env') w').1 := by
  induction hp generalizing w w' with
  | ret a => rfl
  | fail e => rfl
  | @select q k hq herr hok ih =>
    obtain ⟨hanswer, hsession, hsame⟩ := serveSql_answer env hq hw
    obtain ⟨hanswer', hsession', hsame'⟩ := serveSql_answer env' hq hw'
    change ((k (serveSql env q w).1).run (serve env) (serveSql env q w).2).1 =
      ((k (serveSql env' q w').1).run (serve env') (serveSql env' q w').2).1
    rw [hanswer, hanswer', ← hdb]
    rcases q.answer w.server.db with e | row
    · rw [herr e]
      rfl
    · exact ih row hsession hsession' (hsame.trans (hdb.trans hsame'.symm))

/-- One select of an uninterrupted read. -/
theorem Reads.respond_select {env : Supply} {s : Server} {q : Query}
    {k : (Cmd.sql q).Res → Action α} (h : Reads (Prog.op (S := Service) (.sql q) k)) :
    respond env s (Prog.op (S := Service) (.sql q) k) = respond env s (k (q.answer s.db)) := by
  cases h with
  | select hq herr hok =>
    let w : World := { server := s }
    have hw : w.session = none := rfl
    obtain ⟨hanswer, hsession, hsame⟩ := serveSql_answer env hq hw
    change ((k (serveSql env q w).1).run (serve env) _).1 = _
    rw [hanswer, respond]
    rcases q.answer s.db with e | row
    · rw [herr e]
      rfl
    · exact (hok row).run_congr hsession rfl hsame

/-- An uninterrupted read that goes on after another one. -/
theorem Reads.respond_bind {env : Supply} {s : Server} {p : Action α} {f : α → Action β}
    (hp : Reads p) (hf : ∀ a, Reads (f a)) {a : α} (h : respond env s p = .ok a) :
    respond env s (p >>= f) = respond env s (f a) := by
  induction hp with
  | ret a' =>
    cases h
    rfl
  | fail e => cases h
  | @select q k hq herr hok ih =>
    have hselect : respond env s (Prog.op (S := Service) (.sql q) k) = _ :=
      (Reads.select hq herr hok).respond_select
    rw [hselect] at h
    have hbind : respond env s (Prog.op (S := Service) (.sql q) k >>= f) = _ :=
      ((Reads.select hq herr hok).bind hf).respond_select
    refine hbind.trans ?_
    rcases hanswer : q.answer s.db with e | row
    · rw [hanswer, herr e] at h
      cases h
    · rw [hanswer] at h
      exact ih row h

/-- The first select of an uninterrupted read that succeeds. -/
theorem ok_of_respond_sql {env : Supply} {s : Server} {q : Query} {f : q.Row → Action α}
    (hq : q.readOnly = true) (hf : ∀ row, Reads (f row)) {x : α}
    (h : respond env s (Action.sql q >>= f) = .ok x) :
    ∃ row, q.answer s.db = .ok row ∧ respond env s (f row) = .ok x := by
  have hselect : respond env s (Action.sql q >>= f) = _ := (reads_sql hq hf).respond_select
  rw [hselect] at h
  rcases hanswer : q.answer s.db with e | row
  · rw [hanswer] at h
    cases h
  · rw [hanswer] at h
    exact ⟨row, rfl, h⟩

/-! ### What disturbs a read -/

/-- The answers that a read has are still the answers. -/
def Current (done : List (Machine.Answered Service)) (db : Database) : Prop :=
  ∀ q a, (⟨.sql q, a⟩ : Machine.Answered Service) ∈ done → q.answer db = a

/-- The answers that the rest of a read waits for are the same in two states. -/
inductive Unchanging (db db' : Database) : Action α → Prop
  | ret (a : α) : Unchanging db db' (.ret a)
  | fail (e : Error) : Unchanging db db' (.fail e)
  | select {q : Query} {k : (Cmd.sql q).Res → Action α} (hq : q.answer db' = q.answer db)
      (hk : Unchanging db db' (k (q.answer db))) :
      Unchanging db db' (Prog.op (S := Service) (.sql q) k)

/-- A step does not disturb a read: the answers that it has are still the answers after the step, or
the step does not change those that it waits for. -/
def Undisturbed (done : List (Machine.Answered Service)) (rest : Action α) (g g' : System faulty) :
    Prop :=
  Current done g'.servers.db ∨ Unchanging g.servers.db g'.servers.db rest

/-- Up to its answers, a read goes where an uninterrupted one goes. -/
theorem Reads.respond_answers {env : Supply} {s : Server} {p rest : Action α}
    {done : List (Machine.Answered Service)} (hp : Reads p) (h : Machine.Answers (S := Service)
      p done rest)
    (hcurrent : Current done s.db) : respond env s p = respond env s rest := by
  induction h with
  | done p => rfl
  | @next c k a as rest h ih =>
    have hread := hp
    cases hread with
    | @select q k hq herr hok =>
      have hanswer : q.answer s.db = a := hcurrent q a List.mem_cons_self
      rw [hp.respond_select, hanswer]
      exact ih (hp.rest a) fun q a hmem => hcurrent q a (List.mem_cons_of_mem _ hmem)

theorem Unchanging.respond {env : Supply} {s s' : Server} {p : Action α} (hp : Reads p)
    (h : Unchanging s.db s'.db p) : respond env s' p = respond env s p := by
  induction h with
  | ret a => rfl
  | fail e => rfl
  | @select q k hq hk ih =>
    rw [hp.respond_select, hp.respond_select, hq]
    exact ih (hp.rest _)

/-- How far an undisturbed read is: it answers what an uninterrupted one answers in a state on its
way, or it has failed. -/
structure OnCourse (P : Policy) (p : Action α) (g₀ g : System faulty) (rest : Action α) : Prop where
  reads : Reads rest
  state : (∃ e, rest = .fail e) ∨ ∃ g₁, System.Steps P g₀ g₁ ∧ System.Steps P g₁ g ∧
    ∀ env, respond env g₁.servers p = respond env g.servers rest

variable {p rest : Action α} {g₀ g g' : System faulty}

/-- A step of another handler. -/
theorem OnCourse.other (h : OnCourse P p g₀ g rest) (hp : Reads p)
    (hrun : System.Steps P g₀ g) (hstep : System.Step P g g')
    {done : List (Machine.Answered Service)}
    (hanswers : Machine.Answers (S := Service) p done rest)
    (hundisturbed : Undisturbed done rest g g') : OnCourse P p g₀ g' rest := by
  refine ⟨h.reads, ?_⟩
  rcases h.state with hfail | ⟨g₁, hbefore, hafter, hsame⟩
  · exact .inl hfail
  · rcases hundisturbed with hcurrent | hunchanging
    · exact .inr ⟨g', hrun.tail hstep, .refl, fun _ => hp.respond_answers hanswers hcurrent⟩
    · exact .inr ⟨g₁, hbefore, hafter.tail hstep, fun env =>
        (hsame env).trans (hunchanging.respond h.reads).symm⟩

/-- A select of the read, which leaves the tables as they are. -/
theorem OnCourse.own {q : Query} {k : (Cmd.sql q).Res → Action α}
    (h : OnCourse P p g₀ g (Prog.op (S := Service) (.sql q) k)) (hstep : System.Step P g g')
    {L : List Lock} {a : (Cmd.sql q).Res} {s' : Session}
    (hexec : Exec faulty (.sql q) g.servers none L a g'.servers s') :
    s' = none ∧ OnCourse P p g₀ g' (k a) := by
  have hread := h.reads
  cases hread with
  | select hq herr hok =>
    have hanswered : ∀ a, q.answer g.servers.db = a → g'.servers.db = g.servers.db →
        OnCourse P p g₀ g' (k a) := by
      rintro a rfl hdb
      refine ⟨h.reads.rest _, .inr ?_⟩
      rcases h.state with ⟨e, he⟩ | ⟨g₁, hbefore, hafter, hsame⟩
      · cases he
      · refine ⟨g₁, hbefore, hafter.tail hstep, fun env => ?_⟩
        rw [hsame env, h.reads.respond_select]
        exact (h.reads.rest _).run_congr rfl rfl hdb.symm
    generalize hs : g.servers = s at hexec hanswered
    generalize hs' : g'.servers = s'' at hexec hanswered
    cases hexec with
    | autocommit hu hnow hexec =>
      obtain ⟨hanswer, rfl⟩ := answer_ok hq hexec
      exact ⟨rfl, hanswered _ hanswer rfl⟩
    | autocommitError hu hnow hexec =>
      exact ⟨rfl, hanswered _ (answer_error hq hexec) rfl⟩
    | statementFault hf => exact ⟨rfl, h.reads.rest _, .inl ⟨_, herr _⟩⟩

variable {t : Tid} {f : α → Action Unit} {done : List (Machine.Answered Service)} {s : Session}

/-- **The course of an undisturbed read.** -/
theorem Reads.onCourse (hp : Reads p) {rest : Prog Service Error α} {s : (server faulty).Session}
    {g : (server faulty).State Error}
    (h : Machine.Course (M := server faulty) (Serves P) Undisturbed t f p g₀ done s rest g) :
    s = none ∧ OnCourse P p g₀ g rest := by
  induction h with
  | start ht => exact ⟨rfl, hp, .inr ⟨g₀, .refl, .refl, fun _ => rfl⟩⟩
  | other h hstep ht hundisturbed ih =>
    exact ⟨ih.1, ih.2.other hp h.run hstep h.answers hundisturbed⟩
  | @own done s s' c k g L a sh' h hothers hexec ih =>
    obtain ⟨rfl, hon⟩ := ih
    have hread := hon.reads
    cases hread with
    | select hq herr hok =>
      exact hon.own (.exec _ t _ _ _ _ _ _ _ h.thread hothers hexec) hexec

/-- **An undisturbed read is atomic**: what it answers is what it would answer without interruption
in one of the states on its way. -/
theorem Reads.atomic (hp : Reads p) {x : α}
    (h : Machine.Course (M := server faulty) (Serves P) Undisturbed t f p g₀ done s (.ret x) g) :
    ∃ g₁, System.Steps P g₀ g₁ ∧ System.Steps P g₁ g ∧
      ∀ env, respond env g₁.servers p = .ok x := by
  rcases (hp.onCourse h).2.state with ⟨e, he⟩ | ⟨g₁, hbefore, hafter, hsame⟩
  · cases he
  · exact ⟨g₁, hbefore, hafter, fun env => hsame env⟩

end Leaderboards
