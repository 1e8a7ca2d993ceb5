import Leaderboards.Library.Interleaving
import Leaderboards.Service

/-!
# The servers behind the handlers

`server` gives the instructions their meaning under concurrency: PostgreSQL at READ COMMITTED
with row locks, Redis with atomic commands and `MULTI`/`EXEC` blocks.

* A statement sees the committed tables with the row writes of its own transaction applied. Its
  row writes stay with the transaction until it commits; outside a transaction they are
  committed at once.
* The locks a statement takes are its claim: it waits until no other session holds a
  conflicting lock. They are held to the end of the transaction.
* `uuidv7()` and `Uuid::new_v4()` never return an id twice: a new row id is not one that was
  used before, a new snapshot id none of the `snapIds`. `now()` is fixed when a transaction
  begins, and the clock never runs backwards.
* With `faulty`, any instruction may fail without effect instead, and a handler may disappear
  at any point; its open transaction is then rolled back.
-/

namespace Leaderboards

open Interaction

/-- The state of the servers. -/
structure Server where
  db : Database := {}
  redis : Redis := fun _ => none
  clock : Timestamp := 0
  /-- The ids of all boards ever committed. -/
  usedBoards : List Uuid := []
  /-- The ids of all entries ever committed. -/
  usedEntries : List Uuid := []
  /-- The ids of all snapshots so far. -/
  snapIds : List Uuid := []

/-- An open transaction. -/
structure Tx where
  writes : List RowWrite
  locks : List Lock
  now : Timestamp

/-- What a handler has open on its connection. -/
abbrev Session := Option Tx

namespace Session

/-- The locks a session holds. -/
def locks : Session → List Lock
  | none => []
  | some tx => tx.locks

/-- The tables as a session sees them. -/
def view : Session → Database → Database
  | none, db => db
  | some tx, db => db.applyAll tx.writes

@[simp] theorem locks_none : locks none = [] := rfl

@[simp] theorem locks_some (tx : Tx) : locks (some tx) = tx.locks := rfl

@[simp] theorem view_none (db : Database) : view none db = db := rfl

@[simp] theorem view_some (tx : Tx) (db : Database) :
    view (some tx) db = db.applyAll tx.writes := rfl

end Session

/-- A transaction after one more statement. -/
def Tx.add (tx : Tx) (ws : List RowWrite) (L : List Lock) : Tx :=
  { tx with writes := tx.writes ++ ws, locks := tx.locks ++ L }

@[simp] theorem Tx.add_writes (tx : Tx) (ws : List RowWrite) (L : List Lock) :
    (tx.add ws L).writes = tx.writes ++ ws := rfl

@[simp] theorem Tx.add_locks (tx : Tx) (ws : List RowWrite) (L : List Lock) :
    (tx.add ws L).locks = tx.locks ++ L := rfl

@[simp] theorem Tx.add_now (tx : Tx) (ws : List RowWrite) (L : List Lock) :
    (tx.add ws L).now = tx.now := rfl

/-- A value that `uuidv7()` can return: no row has ever had it as its id. -/
def Server.Fresh (s : Server) (u : Uuid) : Prop := u ∉ s.usedBoards ∧ u ∉ s.usedEntries

/-- Make row writes part of the committed tables. -/
def Server.commit (s : Server) (ws : List RowWrite) : Server :=
  { s with db := s.db.applyAll ws
           usedBoards := s.usedBoards ++ (s.db.applyAll ws).boards.map Board.id
           usedEntries := s.usedEntries ++ (s.db.applyAll ws).entries.map Entry.id }

@[simp] theorem Server.commit_db (s : Server) (ws : List RowWrite) :
    (s.commit ws).db = s.db.applyAll ws := rfl

@[simp] theorem Server.commit_usedBoards (s : Server) (ws : List RowWrite) :
    (s.commit ws).usedBoards = s.usedBoards ++ (s.db.applyAll ws).boards.map Board.id := rfl

@[simp] theorem Server.commit_usedEntries (s : Server) (ws : List RowWrite) :
    (s.commit ws).usedEntries = s.usedEntries ++ (s.db.applyAll ws).entries.map Entry.id := rfl

@[simp] theorem Server.commit_snapIds (s : Server) (ws : List RowWrite) :
    (s.commit ws).snapIds = s.snapIds := rfl

@[simp] theorem Server.commit_redis (s : Server) (ws : List RowWrite) :
    (s.commit ws).redis = s.redis := rfl

@[simp] theorem Server.commit_clock (s : Server) (ws : List RowWrite) :
    (s.commit ws).clock = s.clock := rfl

/-- A session executes an instruction: the locks it claims, the answer, and the states after it. A
fault strikes before the instruction takes effect. An instruction that takes effect and whose answer
never arrives is one that is executed by a handler that then crashes; that the handler instead goes
on with a connection error is not a step. -/
inductive Exec (faulty : Prop) :
    (c : Cmd) → Server → Session → List Lock → c.Res → Server → Session → Prop
  | begin {s : Server} {now : Timestamp} (hnow : s.clock ≤ now) :
      Exec faulty .begin s none [] (.ok ()) { s with clock := now } (some ⟨[], [], now⟩)
  | commit {s : Server} {tx : Tx} :
      Exec faulty .commit s (some tx) [] (.ok ()) (s.commit tx.writes) none
  | rollback {s : Server} {h : Session} : Exec faulty .rollback s h [] () s none
  | statement {s : Server} {tx : Tx} {u : Uuid} {q : Query} {row : q.Row} {ws : List RowWrite}
      (hu : s.Fresh u) (hq : exec u tx.now q (s.db.applyAll tx.writes) = .ok (row, ws)) :
      Exec faulty (.sql q) s (some tx) (q.locks u (s.db.applyAll tx.writes)) (.ok row) s
        (some (tx.add ws (q.locks u (s.db.applyAll tx.writes))))
  | statementError {s : Server} {tx : Tx} {u : Uuid} {q : Query} {e : DbError}
      (hu : s.Fresh u) (hq : exec u tx.now q (s.db.applyAll tx.writes) = .error e) :
      Exec faulty (.sql q) s (some tx) (q.locks u (s.db.applyAll tx.writes)) (.error e) s (some tx)
  | autocommit {s : Server} {u : Uuid} {now : Timestamp} {q : Query} {row : q.Row}
      {ws : List RowWrite} (hu : s.Fresh u) (hnow : s.clock ≤ now)
      (hq : exec u now q s.db = .ok (row, ws)) :
      Exec faulty (.sql q) s none (q.locks u s.db) (.ok row)
        { s.commit ws with clock := now } none
  | autocommitError {s : Server} {u : Uuid} {now : Timestamp} {q : Query} {e : DbError}
      (hu : s.Fresh u) (hnow : s.clock ≤ now) (hq : exec u now q s.db = .error e) :
      Exec faulty (.sql q) s none (q.locks u s.db) (.error e) { s with clock := now } none
  | redis {s : Server} {h : Session} {c : RedisCmd} :
      Exec faulty (.redis c) s h [] (execRedis c s.redis).1
        { s with redis := (execRedis c s.redis).2 } h
  | newUuid {s : Server} {h : Session} {u : Uuid} (hu : u ∉ s.snapIds) :
      Exec faulty .newUuid s h [] u { s with snapIds := s.snapIds ++ [u] } h
  | beginFault {s : Server} (hf : faulty) : Exec faulty .begin s none [] (.error .connection) s none
  | commitFault {s : Server} {h : Session} (hf : faulty) :
      Exec faulty .commit s h [] (.error .connection) s none
  | statementFault {s : Server} {h : Session} {q : Query} (hf : faulty) :
      Exec faulty (.sql q) s h [] (.error .connection) s h
  | redisFault {s : Server} {h : Session} {c : RedisCmd} (hf : faulty) :
      Exec faulty (.redis c) s h [] (.error .connection) s h

/-- The machine the handlers run on. -/
@[simps] def server (faulty : Prop) : Machine Service where
  Shared := Server
  Session := Session
  Claim := List Lock
  idle := none
  exec _ c := Exec faulty c
  admits L h := Compatible L h.locks
  crashes := faulty

end Leaderboards
