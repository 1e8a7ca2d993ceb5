import Leaderboards.Repo.Collections
import Leaderboards.Repo.Export
import Leaderboards.Repo.Realtime
import Leaderboards.Repo.References
import Leaderboards.Repo.Scores
import Leaderboards.Sync.Execute

/-!
# Requests

What callers ask of the service: the HTTP routes, the scores that come over a WebSocket, the
directory sync and the import and export commands. A route reads the board row by its slug and
passes it to the repository function. The size limits on notes and metadata only reject requests, so
they are left out; so are the events and webhooks fired afterwards.
-/

namespace Leaderboards

open Interaction

/-- How a caller is set up. The API passes both limits, an operator none. -/
structure Caller where
  /-- Whether a Redis connection is configured. -/
  hasRedis : Bool := true
  keyPrefix : String := "rl"
  maxVersions : Option ℤ := none
  maxEntries : Option ℕ := none

namespace Routes

/-- The error of a realtime operation without Redis. -/
def redisRequired : Error :=
  .serviceUnavailable "Redis is required for realtime boards but not configured"

/-- `routes::boards::update`: a PATCH without fields returns the row. -/
def updateBoard (slug : String) (input : UpdateBoard) : Action Board :=
  if input = {} then Boards.getBySlug slug else Boards.update slug input

/-- `routes::boards::delete`: the live scores of a realtime board go first. -/
def deleteBoard (caller : Caller) (slug : String) : Action Unit := do
  let board ← Boards.getBySlug slug
  if board.realtime = true ∧ caller.hasRedis = true then
    let _ ← (Realtime.clear board.slug caller.keyPrefix).attempt
    Boards.delete slug
  else Boards.delete slug

/-- `routes::entries::create`. -/
def createEntry (slug : String) (input : CreateEntry) : Action Entry := do
  let board ← Boards.getBySlug slug
  Entries.create board.id input

/-- `routes::entries::update`. -/
def updateEntry (slug entrySlug : String) (input : UpdateEntry) : Action Entry := do
  let board ← Boards.getBySlug slug
  Entries.update board.id entrySlug input

/-- `routes::entries::delete`. -/
def deleteEntry (slug entrySlug : String) : Action Unit := do
  let board ← Boards.getBySlug slug
  Entries.delete board.id entrySlug

/-- The limit on the number of placements in a request. -/
def checkPlacementLimit (count : ℕ) : Option ℕ → Except Error Unit
  | none => .ok ()
  | some max =>
    if max < count then .error (.validation s!"too many placements ({count}, max {max})")
    else .ok ()

/-- `routes::versions::create`. -/
def createVersion (caller : Caller) (slug : String) (input : CreateVersion) :
    Action VersionWithPlacements := do
  Prog.ofExcept (checkPlacementLimit input.placements.length caller.maxEntries)
  let board ← Boards.getBySlug slug
  Versions.create board input caller.maxVersions

/-- `routes::versions::get`. -/
def getVersion (slug : String) (versionNumber : ℤ) : Action VersionWithPlacements := do
  let board ← Boards.getBySlug slug
  Versions.getByNumber board.id versionNumber

/-- `routes::versions::latest`. -/
def latest (caller : Caller) (slug : String) : Action VersionWithPlacements := do
  let board ← Boards.getBySlug slug
  if board.realtime = true then
    Prog.failIf (¬caller.hasRedis = true) redisRequired
    Realtime.latest board caller.keyPrefix
  else Versions.getLatest board.id

/-- The reads of `routes::versions::diff`. -/
def diff (slug : String) (fromNumber toNumber : ℤ) :
    Action (VersionWithPlacements × VersionWithPlacements) := do
  Prog.failIf (fromNumber < 1 ∨ toNumber < 1) (.validation "version numbers must be >= 1")
  Prog.failIf (toNumber ≤ fromNumber) (.validation "'from' must be less than 'to'")
  let board ← Boards.getBySlug slug
  let fromVersion ← Versions.getByNumber board.id fromNumber
  let toVersion ← Versions.getByNumber board.id toNumber
  return (fromVersion, toVersion)

/-- `routes::versions::since`. -/
def since (slug : String) (afterVersion : ℤ) (limit : ℕ) : Action (List Version) := do
  let board ← Boards.getBySlug slug
  Versions.since board.id afterVersion limit

/-- `routes::scores::submit`. -/
def submit (caller : Caller) (slug : String) (input : SubmitScore) : Action Unit := do
  let board ← Boards.getBySlug slug
  if board.realtime = true then
    Prog.failIf (¬caller.hasRedis = true) redisRequired
    Realtime.submit board input caller.keyPrefix
  else
    let _ ← Scores.submit board input

/-- `routes::scores::snapshot`. -/
def snapshot (caller : Caller) (slug : String) (input : SnapshotInput) :
    Action VersionWithPlacements := do
  let board ← Boards.getBySlug slug
  if board.realtime = true then
    Prog.failIf (¬caller.hasRedis = true) redisRequired
    Realtime.snapshot board input.note input.metadata caller.keyPrefix caller.maxVersions
      caller.maxEntries
  else
    Scores.snapshot board input.note input.metadata caller.maxVersions caller.maxEntries

/-- `routes::references::create`. -/
def createReference (slug : String) (input : CreateReference) : Action BoardReference := do
  let board ← Boards.getBySlug slug
  References.create board.id input

/-- `routes::references::delete`. -/
def deleteReference (slug : String) (referenceId : Uuid) : Action Unit := do
  let board ← Boards.getBySlug slug
  References.delete board.id referenceId

/-- `routes::collections::update`: a PATCH without fields returns the row. -/
def updateCollection (slug : String) (input : UpdateCollection) : Action Collection :=
  if input = {} then Collections.getBySlug slug else Collections.update slug input

end Routes

namespace Ws

/-- `core_error_message`: what a client may see of an error. -/
def coreErrorMessage : Error → String
  | .validation msg => msg
  | .notFound msg => msg
  | .serviceUnavailable _ => "service unavailable"
  | _ => "internal error"

/-- The submission at the end of `try_process_score`. -/
def submitScore (caller : Caller) (board : Board) (input : SubmitScore) :
    Action (Except String Unit) :=
  if ¬board.realtime = true then
    .ret (.error "score submission over WebSocket requires a realtime board")
  else if ¬caller.hasRedis = true then .ret (.error "service unavailable")
  else do
    let result ← (Realtime.submit board input caller.keyPrefix).attempt
    return result.mapError coreErrorMessage

/-- `try_process_score`, for a text frame that parses as a score or fails with a message. The
board row is read again for every frame. -/
def tryProcessScore (caller : Caller) (boardSlug : String) (payload : Except String SubmitScore)
    (writeAuthorized : Bool) : Action (Except String Unit) :=
  if ¬writeAuthorized = true then
    .ret (.error "unauthorized: score submission requires write access")
  else
    match payload with
    | .error e => .ret (.error s!"invalid score payload: {e}")
    | .ok input => do
      match ← (Boards.getBySlug boardSlug).attempt with
      | .error e => return .error (coreErrorMessage e)
      | .ok board => submitScore caller board input

end Ws

/-- The requests the service answers. -/
inductive Request
  | createBoard (input : CreateBoard)
  | updateBoard (slug : String) (input : UpdateBoard)
  | deleteBoard (caller : Caller) (slug : String)
  | createEntry (slug : String) (input : CreateEntry)
  | updateEntry (slug entrySlug : String) (input : UpdateEntry)
  | deleteEntry (slug entrySlug : String)
  | createVersion (caller : Caller) (slug : String) (input : CreateVersion)
  | getVersion (slug : String) (versionNumber : ℤ)
  | latest (caller : Caller) (slug : String)
  | diff (slug : String) (fromNumber toNumber : ℤ)
  | since (slug : String) (afterVersion : ℤ) (limit : ℕ)
  | submit (caller : Caller) (slug : String) (input : SubmitScore)
  /-- A text frame on a WebSocket. -/
  | submitFrame (caller : Caller) (slug : String) (payload : Except String SubmitScore)
      (writeAuthorized : Bool)
  | snapshot (caller : Caller) (slug : String) (input : SnapshotInput)
  | exportBoard (slug : String)
  | importBoard (hashOrder : Export.HashOrder) (doc : BoardExport)
  | sync (parsed : List ParsedBoard) (note : Option String)
  | createReference (slug : String) (input : CreateReference)
  | deleteReference (slug : String) (referenceId : Uuid)
  | createCollection (input : CreateCollection)
  | updateCollection (slug : String) (input : UpdateCollection)
  | deleteCollection (slug : String)

/-- Run a handler for its effect. -/
def Action.discard {α : Type} (p : Action α) : Action Unit := p >>= fun _ => .ret ()

/-- The handler of a request. -/
def Request.handler : Request → Action Unit
  | .createBoard input => (Boards.create input).discard
  | .updateBoard slug input => (Routes.updateBoard slug input).discard
  | .deleteBoard caller slug => Routes.deleteBoard caller slug
  | .createEntry slug input => (Routes.createEntry slug input).discard
  | .updateEntry slug entrySlug input => (Routes.updateEntry slug entrySlug input).discard
  | .deleteEntry slug entrySlug => Routes.deleteEntry slug entrySlug
  | .createVersion caller slug input => (Routes.createVersion caller slug input).discard
  | .getVersion slug n => (Routes.getVersion slug n).discard
  | .latest caller slug => (Routes.latest caller slug).discard
  | .diff slug m n => (Routes.diff slug m n).discard
  | .since slug n limit => (Routes.since slug n limit).discard
  | .submit caller slug input => Routes.submit caller slug input
  | .submitFrame caller slug payload writeAuthorized =>
    (Ws.tryProcessScore caller slug payload writeAuthorized).discard
  | .snapshot caller slug input => (Routes.snapshot caller slug input).discard
  | .exportBoard slug => (Export.exportBoard slug).discard
  | .importBoard hashOrder doc => (Export.importBoard hashOrder doc).discard
  | .sync parsed note => (Sync.syncDir parsed note).discard
  | .createReference slug input => (Routes.createReference slug input).discard
  | .deleteReference slug referenceId => Routes.deleteReference slug referenceId
  | .createCollection input => (Collections.create input).discard
  | .updateCollection slug input => (Routes.updateCollection slug input).discard
  | .deleteCollection slug => Collections.delete slug

end Leaderboards
