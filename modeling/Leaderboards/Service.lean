import Leaderboards.Library.Program
import Leaderboards.Store.Locks
import Leaderboards.Store.Redis

/-!
# The instructions of the service

A request handler talks to PostgreSQL through a connection on which it may open a transaction,
to Redis, and to the random generator behind `Uuid::new_v4`. Each statement, each Redis command
and each `MULTI`/`EXEC` block is one instruction, which is the grain at which handlers
interleave. `Action α` is a handler that answers `Result<α>`.
-/

namespace Leaderboards

open Interaction

/-- The instructions of a request handler. -/
inductive Cmd
  | begin
  | commit
  /-- Dropping an open transaction. -/
  | rollback
  | sql (q : Query)
  | redis (c : RedisCmd)
  /-- `Uuid::new_v4()`. -/
  | newUuid

/-- The answer to an instruction. -/
abbrev Cmd.Res : Cmd → Type
  | begin => Except DbError Unit
  | commit => Except DbError Unit
  | rollback => Unit
  | sql q => Except DbError q.Row
  | redis c => Except RedisError c.Reply
  | newUuid => Uuid

/-- The interface between the handlers and their environment. -/
def Service : Signature := ⟨Cmd, Cmd.Res⟩

/-- A request handler, or a part of one. -/
abbrev Action (α : Type) := Prog Service Error α

namespace Action

/-- A statement whose failure is looked at by the caller. -/
def trySql (q : Query) : Action (Except DbError q.Row) :=
  Prog.op (S := Service) (.sql q) fun r => .ret r

/-- A statement with `?` on its result. -/
def sql (q : Query) : Action q.Row :=
  Prog.op (S := Service) (.sql q) fun
    | .ok row => .ret row
    | .error e => .fail (.database e)

/-- A Redis command with the error mapped to `ServiceUnavailable`. -/
def redis (c : RedisCmd) (context : String) : Action c.Reply :=
  Prog.op (S := Service) (.redis c) fun
    | .ok reply => .ret reply
    | .error e => .fail (.serviceUnavailable s!"{context}: {e.display}")

/-- A Redis command whose outcome is ignored. -/
def redisIgnored (c : RedisCmd) : Action Unit :=
  Prog.op (S := Service) (.redis c) fun _ => .ret ()

/-- `Uuid::new_v4()`. -/
def newUuid : Action Uuid := Prog.op (S := Service) .newUuid .ret

/-- End a transaction: commit what returned, drop what failed. -/
def endTransaction {α : Type} : Except Error α → Action α
  | .ok a => Prog.op (S := Service) .commit fun
    | .ok _ => .ret a
    | .error e => .fail (.database e)
  | .error e => Prog.op (S := Service) .rollback fun _ => .fail e

/-- `pool.begin()`, a body, `tx.commit()`. When the body stops early the transaction is
dropped, which rolls it back. -/
def transaction {α : Type} (body : Action α) : Action α :=
  Prog.op (S := Service) .begin fun
    | .ok _ => body.attempt >>= endTransaction
    | .error e => .fail (.database e)

/-- `Option::ok_or_else`. -/
def okOr {α : Type} : Option α → Error → Action α
  | some a, _ => .ret a
  | none, e => .fail e

end Action

end Leaderboards
