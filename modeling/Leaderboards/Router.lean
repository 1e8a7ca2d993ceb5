import Leaderboards.Github
import Leaderboards.Repo.CollectionBoards
import Leaderboards.Ws

/-!
# `lib.rs`: the routes

`build_router` nests the routes of boards and collections behind `require_auth`; the push webhook
stands beside them. A request comes with what the extractors of the routes make of it; a route whose
extractor fails does not run its handler. `serve` is what a message from outside executes: an HTTP
request, a text frame on a WebSocket, a push, or a command of an operator. The SSE and WebSocket
routes only subscribe, and their streams are modelled elsewhere.
-/

namespace Leaderboards

open Interaction

namespace Http

/-- What the extractors of the handlers make of a request, `none` where they reject it. -/
structure Extracted where
  pagination : Option PaginationParams := none
  limit : Option LimitParam := none
  /-- `DiffParams`. -/
  diff : Option (ℤ × ℤ) := none
  createBoard : Option CreateBoard := none
  updateBoard : Option UpdateBoard := none
  createEntry : Option CreateEntry := none
  updateEntry : Option UpdateEntry := none
  createVersion : Option CreateVersion := none
  submitScore : Option SubmitScore := none
  snapshot : Option SnapshotInput := none
  createReference : Option CreateReference := none
  createCollection : Option CreateCollection := none
  updateCollection : Option UpdateCollection := none
  addBoard : Option AddBoardToCollection := none
  /-- `Path<i32>` and `Path<Uuid>` on the last segment of the path. -/
  versionNumber : Option ℤ := none
  referenceId : Option Uuid := none
  /-- Whether `WebSocketUpgrade` finds an upgrade. -/
  upgrade : Bool := false

/-- A request: its method, the segments of its path, and its headers. -/
structure Request where
  method : Auth.Method
  path : List String
  headers : Auth.HeaderMap
  extracted : Extracted

/-- The method routers of a path: `get` also serves HEAD. -/
structure Routes where
  get : Option (Endpoint Unit) := none
  post : Option (Endpoint Unit) := none
  patch : Option (Endpoint Unit) := none
  delete : Option (Endpoint Unit) := none

/-- The handler of a method, if there is one. -/
def Routes.handler (routes : Routes) : Auth.Method → Option (Endpoint Unit)
  | .get => routes.get
  | .head => routes.get
  | .post => routes.post
  | .patch => routes.patch
  | .delete => routes.delete
  | _ => none

/-- Run a handler on what its extractor made of the request. -/
def extract {α β : Type} (x : Option α) (handler : α → Endpoint β) : Option (Endpoint Unit) :=
  some (match x with
    | none => .ret ()
    | some a => handler a >>= fun _ => .ret ())

/-- Run a handler that takes the path only. -/
def run {β : Type} (handler : Endpoint β) : Option (Endpoint Unit) :=
  some (handler >>= fun _ => .ret ())

end Http

/-- What does not change while the process runs, in `AppState` and outside. -/
structure App (Key : Type) where
  caller : Caller
  fmt : CursorFormat
  sseEnabled : Bool
  wsEnabled : Bool
  sync : Option Github.SyncConfig
  lib : Auth.Jsonwebtoken Key
  mac : Auth.Mac
  hmac : Github.Hmac
  env : String → Option String
  parseJson : List UInt8 → Option Json

/-- What a request finds that changes: the keys, the clocks, and what the event bus says to a new
receiver. -/
structure Moment (Key : Type) where
  mode : Auth.AuthMode Key
  clock : Auth.Clock
  subscription : Except Error Unit

namespace App

variable {Key : Type} (app : App Key) (moment : Moment Key) (x : Http.Extracted)

/-- `sse::stream`. -/
def sseStream (slug : String) : Action Unit := do
  Prog.failIf (¬app.sseEnabled = true) (.serviceUnavailable "SSE streaming is not enabled")
  let _ ← Boards.getBySlug slug
  Prog.ofExcept moment.subscription

/-- The reads of `routes::entries::list`, `routes::versions::list` and
`routes::references::list`. -/
def listOf {α : Type} (slug : String)
    (list : Uuid → PaginationParams → Action (PaginatedResponse α)) (params : PaginationParams) :
    Endpoint (PaginatedResponse α) :=
  Action.endpoint do
    let board ← Boards.getBySlug slug
    list board.id params

open Http in
/-- `board_routes`. -/
def boardRoutes (headers : Auth.HeaderMap) : List String → Routes
  | [] =>
    { get := extract x.pagination fun params => (Boards.listPaginated app.fmt params).endpoint
      post := extract x.createBoard fun input => (Boards.create input).endpoint }
  | [slug] =>
    { get := run (Boards.getSummary slug).endpoint
      patch := extract x.updateBoard fun input =>
        (Leaderboards.Routes.updateBoard slug input).endpoint
      delete := run (Leaderboards.Routes.deleteBoard app.caller slug).endpoint }
  | [slug, "entries"] =>
    { get := extract x.pagination (listOf slug (Entries.listPaginated app.fmt))
      post := extract x.createEntry fun input =>
        (Leaderboards.Routes.createEntry slug input).endpoint }
  | [slug, "entries", entrySlug] =>
    { get := run (Leaderboards.Routes.getEntry slug entrySlug).endpoint
      patch := extract x.updateEntry fun input =>
        (Leaderboards.Routes.updateEntry slug entrySlug input).endpoint
      delete := run (Leaderboards.Routes.deleteEntry slug entrySlug).endpoint }
  | [slug, "entries", entrySlug, "history"] =>
    { get := extract x.limit fun params =>
        (Leaderboards.Routes.entryHistory slug entrySlug params).endpoint }
  | [slug, "versions"] =>
    { get := extract x.pagination (listOf slug (Versions.listPaginated app.fmt))
      post := extract x.createVersion fun input =>
        (Leaderboards.Routes.createVersion app.caller slug input).endpoint }
  | [slug, "versions", _] =>
    { get := extract x.versionNumber fun n => (Leaderboards.Routes.getVersion slug n).endpoint }
  | [slug, "latest"] => { get := run (Leaderboards.Routes.latest app.caller slug).endpoint }
  | [slug, "diff"] =>
    { get := extract x.diff fun range => (Leaderboards.Routes.diff slug range.1 range.2).endpoint }
  | [slug, "since", _] =>
    { get := extract (x.versionNumber.bind fun n => x.limit.map fun params => (n, params))
        fun (n, params) => (Leaderboards.Routes.since slug n params.effectiveLimit.toNat).endpoint }
  | [slug, "references"] =>
    { get := extract x.pagination (listOf slug (References.listPaginated app.fmt))
      post := extract x.createReference fun input =>
        (Leaderboards.Routes.createReference slug input).endpoint }
  | [slug, "references", _] =>
    { delete := extract x.referenceId fun id =>
        (Leaderboards.Routes.deleteReference slug id).endpoint }
  | [slug, "scores"] =>
    { post := extract x.submitScore fun input =>
        (Leaderboards.Routes.submit app.caller slug input).endpoint }
  | [slug, "snapshot"] =>
    { post := extract x.snapshot fun input =>
        (Leaderboards.Routes.snapshot app.caller slug input).endpoint }
  | [slug, "stream"] => { get := run (app.sseStream moment slug).endpoint }
  | [slug, "ws"] =>
    { get := extract (if x.upgrade then some () else none) fun _ =>
        (Ws.stream app.lib app.mac moment.clock moment.mode app.wsEnabled moment.subscription slug
          headers).endpoint }
  | _ => {}

open Http in
/-- `collection_routes`. -/
def collectionRoutes : List String → Routes
  | [] =>
    { get := extract x.pagination fun params => (Collections.listPaginated app.fmt params).endpoint
      post := extract x.createCollection fun input => (Collections.create input).endpoint }
  | [slug] =>
    { get := run (Collections.getWithBoards slug)
      patch := extract x.updateCollection fun input =>
        (Leaderboards.Routes.updateCollection slug input).endpoint
      delete := run (Collections.delete slug).endpoint }
  | [slug, "boards"] => { post := extract x.addBoard fun input => Collections.addBoard slug input }
  | [slug, "boards", boardSlug] => { delete := run (Collections.removeBoard slug boardSlug) }
  | _ => {}

/-- The routes behind `require_auth`. -/
def guardedRoutes (headers : Auth.HeaderMap) : List String → Http.Routes
  | "boards" :: path => app.boardRoutes moment x headers path
  | "collections" :: path => app.collectionRoutes x path
  | _ => {}

/-- `require_auth` lets a request through. -/
def passes (headers : Auth.HeaderMap) (method : Auth.Method) : Bool :=
  (Auth.requireAuth app.lib app.mac moment.clock moment.mode (headers.request method)).isOk

/-- A request is refused by the middleware, or is answered by its handler. -/
def http (request : Http.Request) : Endpoint Unit :=
  match (app.guardedRoutes moment request.extracted request.headers request.path).handler
      request.method with
  | some handler => if app.passes moment request.headers request.method = true then handler
    else .ret ()
  | none => .ret ()

end App

/-- A WebSocket connection that `ws::stream` has opened for a request with these headers. -/
structure Ws.Opened {Key : Type} (app : App Key) where
  headers : Auth.HeaderMap
  moment : Moment Key
  slug : String
  connection : Ws.Connection
  opened :
    (Ws.stream app.lib app.mac moment.clock moment.mode app.wsEnabled moment.subscription slug
      headers).Returns connection

/-- The commands of an operator, who needs no token. The listings, which only print, are left
out. -/
inductive OperatorCommand
  | sync (parsed : List ParsedBoard) (note : Option String)
  | deleteBoard (slug : String)
  | deleteCollection (slug : String)
  | importBoard (hashOrder : Export.HashOrder) (doc : BoardExport)
  | exportBoard (slug : String)

/-- What comes from outside. -/
inductive Message {Key : Type} (app : App Key)
  | http (moment : Moment Key) (request : Http.Request)
  /-- A text frame on an open WebSocket. -/
  | frame (opened : Ws.Opened app) (payload : Except String SubmitScore)
  /-- A request to the push webhook; `parsed` is what its sync finds in the working tree. -/
  | push (headers : Auth.HeaderMap) (body : List UInt8) (parsed : List ParsedBoard)
  | operator (command : OperatorCommand)

namespace Message

variable {Key : Type} {app : App Key}

/-- The database part of the background task of an accepted push, or nothing. -/
def runPush (app : App Key) (headers : Auth.HeaderMap) (body : List UInt8)
    (parsed : List ParsedBoard) : Action Unit :=
  match Github.github app.hmac app.env app.parseJson app.sync headers body with
  | .ok accepted => (Sync.syncDir parsed accepted.note).discard
  | .error _ => .ret ()

/-- The handler of a message. -/
def serve : Message app → Endpoint Unit
  | .http moment request => app.http moment request
  | .frame opened payload => (opened.connection.processScore app.caller payload).discard.endpoint
  | .push headers body parsed => (runPush app headers body parsed).endpoint
  | .operator (.sync parsed note) => (Sync.syncDir parsed note).discard.endpoint
  | .operator (.deleteBoard slug) => (Routes.deleteBoard app.caller slug).endpoint
  | .operator (.deleteCollection slug) => (Collections.delete slug).endpoint
  | .operator (.importBoard hashOrder doc) => (Export.importBoard hashOrder doc).discard.endpoint
  | .operator (.exportBoard slug) => (Export.exportBoard slug).discard.endpoint

end Message

end Leaderboards
