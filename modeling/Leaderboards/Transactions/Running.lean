import Leaderboards.Transactions.SingleClient

/-!
# Rules for a client that runs alone

Each rule says in which world a handler goes on after one of its instructions. Outside of a
transaction the tables are the committed ones; inside, the handler sees its own pending writes,
and the servers stay as they are until it commits.
-/

namespace Leaderboards

open Interaction

variable {env : Supply} {α β : Type} {w : World}

/-- What a handler that runs alone ends in. -/
abbrev Action.Ends (env : Supply) (post : Except Error α → World → Prop) (p : Action α)
    (w : World) : Prop := Prog.Ends (serve env) post p w

/-- What a handler that runs alone answers in a state of the servers. -/
def respond (env : Supply) (s : Server) (p : Action α) : Except Error α :=
  (p.run (serve env) { server := s }).1

/-! ### Outside of a transaction -/

/-- The world after a read. -/
structure World.Reads (w w' : World) : Prop where
  session : w.session = none
  session' : w'.session = none
  db : w'.server.db = w.server.db
  redis : w'.server.redis = w.server.redis
  tick : w'.tick = w.tick + 1

variable {post : Except Error β → World → Prop}

/-- A read outside of a transaction. -/
theorem ends_read {q : Query} {f : q.Row → Action β} (hs : w.session = none)
    (herr : ∀ e w', exec (env.uuid w.tick) (env.now w.tick) q w.server.db = .error e →
      post (.error (.database e)) w')
    (hok : ∀ row w', exec (env.uuid w.tick) (env.now w.tick) q w.server.db = .ok (row, []) →
      w.Reads w' → (f row).Ends env post w') (hq : q.readOnly = true) :
    (Action.sql q >>= f).Ends env post w := by
  obtain ⟨server, session, tick⟩ := w
  obtain rfl : session = none := hs
  refine Prog.ends_bind ?_
  unfold Prog.Ends
  rw [run_sql]
  rcases hexec : exec (env.uuid tick) (env.now tick) q server.db with e | ⟨row, ws⟩
  · simp only [serveSql, World.view, Session.view_none, hexec]
    exact herr e _ hexec
  · obtain rfl := exec_readOnly hq hexec
    simp only [serveSql, World.view, Session.view_none, hexec]
    exact hok row _ hexec ⟨rfl, rfl, rfl, rfl, rfl⟩

/-! ### Redis -/

/-- The world after a Redis command. -/
structure World.Talks (w w' : World) (c : RedisCmd) : Prop where
  session : w'.session = w.session
  db : w'.server.db = w.server.db
  view : w'.view = w.view
  redis : w'.server.redis = (execRedis c w.server.redis).2
  tick : w'.tick = w.tick + 1

theorem talks_redis (c : RedisCmd) (w : World) :
    w.Talks (serve env (.redis c) w).2 c := by
  obtain ⟨server, session, tick⟩ := w
  refine ⟨rfl, rfl, ?_, rfl, rfl⟩
  cases session <;> rfl

/-- A Redis command. -/
theorem ends_redis {c : RedisCmd} {context : String} {f : c.Reply → Action β}
    (herr : ∀ e w', (execRedis c w.server.redis).1 = .error e →
      post (.error (.serviceUnavailable s!"{context}: {e.display}")) w')
    (hok : ∀ r w', (execRedis c w.server.redis).1 = .ok r → w.Talks w' c →
      (f r).Ends env post w') : (Action.redis c context >>= f).Ends env post w := by
  have htalks : w.Talks (serve env (.redis c) w).2 c := talks_redis c w
  have hnext : ∀ k : Service.Res (.redis c) → Action c.Reply,
      (k (serve env (.redis c) w).1 >>= f : Action β).Ends env post (serve env (.redis c) w).2 →
      (Prog.op (S := Service) (.redis c) k >>= f : Action β).Ends env post w := fun k h => h
  refine hnext _ ?_
  have hreply : (serve env (.redis c) w).1 = (execRedis c w.server.redis).1 := rfl
  rcases hr : (execRedis c w.server.redis).1 with e | r
  · rw [hreply, hr]
    exact herr e _ hr
  · rw [hreply, hr]
    exact hok r _ hr htalks

/-- A fresh snapshot id. -/
theorem ends_newUuid {f : Uuid → Action β}
    (hok : ∀ id w', w'.session = w.session → w'.server.db = w.server.db → w'.view = w.view →
      w'.server.redis = w.server.redis → w'.tick = w.tick + 1 → (f id).Ends env post w') :
    (Action.newUuid >>= f).Ends env post w := by
  obtain ⟨server, session, tick⟩ := w
  refine hok _ _ rfl rfl ?_ rfl rfl
  cases session <;> rfl

/-! ### Inside a transaction -/

/-- The world after a statement inside a transaction that adds row writes. -/
structure World.Writes (w w' : World) (ws : List RowWrite) : Prop where
  server : w'.server = w.server
  session : w'.session.isSome = true
  view : w'.view = w.view.applyAll ws
  tick : w'.tick = w.tick + 1

/-- A statement inside a transaction whose failure is looked at by the caller. -/
theorem ends_tryStatement {q : Query} {f : Except DbError q.Row → Action β}
    (hs : w.session.isSome = true)
    (herr : ∀ e now w', exec (env.uuid w.tick) now q w.view = .error e → w.Writes w' [] →
      (f (.error e)).Ends env post w')
    (hok : ∀ now row ws w', exec (env.uuid w.tick) now q w.view = .ok (row, ws) →
      w.Writes w' ws → (f (.ok row)).Ends env post w') :
    (Action.trySql q >>= f).Ends env post w := by
  obtain ⟨server, session, tick⟩ := w
  obtain ⟨tx, rfl⟩ := Option.isSome_iff_exists.mp hs
  have hrun : (Action.trySql q >>= f).Ends env post ⟨server, some tx, tick⟩ ↔
      (f (serveSql env q ⟨server, some tx, tick⟩).1).Ends env post
        (serveSql env q ⟨server, some tx, tick⟩).2 := Iff.rfl
  rw [hrun]
  rcases hexec : exec (env.uuid tick) tx.now q (server.db.applyAll tx.writes) with e | ⟨row, ws⟩
  · simp only [serveSql, World.view, Session.view_some, hexec]
    exact herr e tx.now _ hexec ⟨rfl, rfl, rfl, rfl⟩
  · simp only [serveSql, World.view, Session.view_some, hexec]
    refine hok tx.now row ws _ hexec ⟨rfl, rfl, ?_, rfl⟩
    simp only [World.view, Session.view_some, Tx.add_writes, Database.applyAll_append]

/-- A statement inside a transaction. -/
theorem ends_statement {q : Query} {f : q.Row → Action β} (hs : w.session.isSome = true)
    (herr : ∀ e now w', exec (env.uuid w.tick) now q w.view = .error e → w.Writes w' [] →
      post (.error (.database e)) w')
    (hok : ∀ now row ws w', exec (env.uuid w.tick) now q w.view = .ok (row, ws) →
      w.Writes w' ws → (f row).Ends env post w') :
    (Action.sql q >>= f).Ends env post w := by
  have hsql : (Action.sql q >>= f) = Action.trySql q >>= fun
      | .ok row => f row
      | .error e => .fail (.database e) := by
    refine congrArg (Prog.op (S := Service) (.sql q)) (funext fun r => ?_)
    cases r <;> rfl
  rw [hsql]
  exact ends_tryStatement hs herr hok

/-- A read inside a transaction. -/
theorem ends_query {q : Query} {f : q.Row → Action β} (hq : q.readOnly = true)
    (hs : w.session.isSome = true)
    (herr : ∀ e now w', exec (env.uuid w.tick) now q w.view = .error e → w.Writes w' [] →
      post (.error (.database e)) w')
    (hok : ∀ now row w', exec (env.uuid w.tick) now q w.view = .ok (row, []) →
      w.Writes w' [] → (f row).Ends env post w') :
    (Action.sql q >>= f).Ends env post w := by
  refine ends_statement hs herr fun now row ws w' hexec hw => ?_
  obtain rfl := exec_readOnly hq hexec
  exact hok now row w' hexec hw

/-- The world at the start of a transaction. -/
structure World.Begins (w w' : World) : Prop where
  session : w'.session.isSome = true
  db : w'.server.db = w.server.db
  view : w'.view = w.server.db
  redis : w'.server.redis = w.server.redis
  tick : w'.tick = w.tick + 1

/-- The world after a commit. -/
structure World.Commits (w w' : World) : Prop where
  session : w'.session = none
  db : w'.server.db = w.view
  redis : w'.server.redis = w.server.redis
  tick : w'.tick = w.tick + 1

/-- The world after a rollback. -/
structure World.RollsBack (w w' : World) : Prop where
  session : w'.session = none
  db : w'.server.db = w.server.db
  redis : w'.server.redis = w.server.redis
  tick : w'.tick = w.tick + 1

/-- **A transaction** commits what returns and rolls back what fails. -/
theorem ends_transaction {body : Action β}
    (hbody : ∀ w₀, w.Begins w₀ → body.Ends env (Prog.outcome
      (fun a w₁ => w₁.session.isSome = true ∧ ∀ w₂, w₁.Commits w₂ → post (.ok a) w₂)
      fun e w₁ => ∀ w₂, w₁.RollsBack w₂ → post (.error e) w₂) w₀) :
    (Action.transaction body).Ends env post w := by
  let w₀ : World := ⟨{ w.server with clock := env.now w.tick },
    some ⟨[], [], env.now w.tick⟩, w.tick + 1⟩
  have hrun : (Action.transaction body).Ends env post w ↔
      Action.Ends env post (body.attempt >>= Action.endTransaction) w₀ := Iff.rfl
  rw [hrun]
  have hbegins : w.Begins w₀ := ⟨rfl, rfl, rfl, rfl, rfl⟩
  refine Prog.ends_bind (Prog.ends_attempt ((hbody w₀ hbegins).mono fun r w₁ hr => ?_))
  cases r with
  | error e => exact hr _ ⟨rfl, rfl, rfl, rfl⟩
  | ok a =>
    obtain ⟨hsession, hpost⟩ := hr
    obtain ⟨server, session, tick⟩ := w₁
    obtain ⟨tx, rfl⟩ := Option.isSome_iff_exists.mp hsession
    exact hpost _ ⟨rfl, rfl, rfl, rfl⟩

end Leaderboards
