import Leaderboards.Router
import Leaderboards.Transactions.Api
import Leaderboards.Transactions.Footprint
import Leaderboards.Transactions.Statements

/-!
# Messages that only look

The commands that change nothing, and the handlers that execute only such commands: those of GET and
HEAD, and those of all messages that do not pass the check for writes of their kind
(`Message.looks`).
-/

namespace Leaderboards

open Interaction

variable {Key : Type} {app : App Key}

/-! ### Commands that only look -/

/-- The Redis commands that only look. -/
def RedisCmd.Looks : RedisCmd → Prop
  | .existsKey _ | .zrange _ | .zrevrange _ | .hget .. => True
  | .rename .. | .pipe _ => False

theorem RedisCmd.Looks.execRedis_snd {c : RedisCmd} (h : c.Looks) (r : Redis) :
    (execRedis c r).2 = r := by
  cases c with
  | rename => exact h.elim
  | pipe => exact h.elim
  | _ => rfl

/-- The commands of a handler that only look. -/
def Cmd.Looks : Cmd → Prop
  | .sql q => q.readOnly = true
  | .redis c => c.Looks
  | _ => False

/-- The statements on `collection_boards` that only look. -/
def MembershipQuery.Looks : MembershipQuery → Prop
  | .selectBoards _ => True
  | _ => False

/-- The commands of the API that only look. -/
def Api.Looks : ((Service.sum Lookups).sum Memberships).Cmd → Prop
  | .inl (.inl c) => Cmd.Looks c
  | .inl (.inr _) => True
  | .inr q => MembershipQuery.Looks q

/-! ### Handlers that only look -/

variable {α β : Type}

theorem Action.looks_endpoint {p : Action α} (hp : p.Uses Cmd.Looks) :
    p.endpoint.Uses Api.Looks := by
  induction p with
  | ret a => trivial
  | fail e => trivial
  | op c k ih => exact ⟨hp.1, fun r => ih r (hp.2 r)⟩

/-- The looks of a reading function. -/
def Reading.Looks : (Service.sum Lookups).Cmd → Prop
  | .inl c => Cmd.Looks c
  | .inr _ => True

theorem Reading.looks_endpoint {p : Reading α} (hp : p.Uses Reading.Looks) :
    p.endpoint.Uses Api.Looks := by
  induction p with
  | ret a => trivial
  | fail e => trivial
  | op c k ih =>
    refine ⟨?_, fun r => ih r (hp.2 r)⟩
    cases c with
    | inl c => exact hp.1
    | inr l => trivial

theorem Action.looks_inl {p : Action α} (hp : p.Uses Cmd.Looks) :
    (p.inl (T := Lookups)).Uses Reading.Looks := by
  induction p with
  | ret a => trivial
  | fail e => trivial
  | op c k ih => exact ⟨hp.1, fun r => ih r (hp.2 r)⟩

theorem Lookup.looks_fetch (l : Lookup) : l.fetch.Uses Reading.Looks := by
  refine ⟨trivial, fun r => ?_⟩
  cases r <;> trivial

/-- A select and what follows it. -/
theorem looks_select {q : Query} {f : q.Row → Action α} (hq : q.readOnly = true)
    (hf : ∀ row, (f row).Uses Cmd.Looks) : (Action.sql q >>= f).Uses Cmd.Looks :=
  Prog.uses_bind (uses_sql hq) hf

theorem looks_getBySlug (slug : String) : (Boards.getBySlug slug).Uses Cmd.Looks :=
  looks_select rfl fun _ => uses_okOr _ _

/-- A handler that starts with the board row. -/
theorem looks_board {slug : String} {f : Board → Action α} (hf : ∀ b, (f b).Uses Cmd.Looks) :
    (Boards.getBySlug slug >>= f).Uses Cmd.Looks := Prog.uses_bind (looks_getBySlug slug) hf

theorem looks_getByNumber (boardId : Uuid) (n : ℤ) :
    (Versions.getByNumber boardId n).Uses Cmd.Looks :=
  looks_select rfl fun _ => uses_row fun _ => looks_select rfl fun _ => trivial

theorem looks_getLatest (boardId : Uuid) : (Versions.getLatest boardId).Uses Cmd.Looks :=
  looks_select rfl fun _ => uses_row fun _ => looks_select rfl fun _ => trivial

theorem looks_realtimeLatest (board : Board) (keyPrefix : String) :
    (Realtime.latest board keyPrefix).Uses Cmd.Looks := by
  have hnames : ∀ (members : List (String × F64)) (f : List (Option String) → Action
      VersionWithPlacements), (∀ names, (f names).Uses Cmd.Looks) → (if members = [] then
        pure [] >>= f
      else Action.redis (.hget (Realtime.entriesKey keyPrefix board.slug)
        (members.map Prod.fst)) "Redis error" >>= f).Uses Cmd.Looks := by
    intro members f hf
    split
    · exact hf []
    · exact Prog.uses_bind (uses_redis trivial) hf
  unfold Realtime.latest
  dsimp only
  split
  · exact Prog.uses_bind (uses_redis trivial) fun r => hnames r _ fun _ => trivial
  · exact Prog.uses_bind (uses_redis trivial) fun r => hnames r _ fun _ => trivial

theorem looks_paginate {fmt : CursorFormat} {stamp : α → Timestamp × Uuid}
    {query : Option (Timestamp × Uuid) → ℕ → Action (List α)}
    (hquery : ∀ cursor limit, (query cursor limit).Uses Cmd.Looks) (params : PaginationParams) :
    (paginate fmt stamp query params).Uses Cmd.Looks :=
  uses_check fun _ => Prog.uses_bind (hquery _ _) fun _ => trivial

namespace Http

theorem looks_run {p : Endpoint α} (hp : p.Uses Api.Looks) : ∀ q ∈ run p, q.Uses Api.Looks := by
  intro q hq
  obtain rfl := Option.some.inj hq
  exact Prog.uses_bind hp fun _ => trivial

theorem looks_extract {x : Option α} {handler : α → Endpoint β}
    (hhandler : ∀ a, (handler a).Uses Api.Looks) : ∀ q ∈ extract x handler, q.Uses Api.Looks := by
  intro q hq
  obtain rfl := Option.some.inj hq
  cases x with
  | none => trivial
  | some a => exact Prog.uses_bind (hhandler a) fun _ => trivial

end Http

theorem looks_listBoards (fmt : CursorFormat) (params : PaginationParams) :
    (Boards.listPaginated fmt params).Uses Cmd.Looks :=
  looks_paginate (fun cursor limit => uses_sql (q := .selectBoardsPage cursor limit) rfl) params

theorem looks_listEntries (fmt : CursorFormat) (id : Uuid) (params : PaginationParams) :
    (Entries.listPaginated fmt id params).Uses Cmd.Looks :=
  looks_paginate (fun cursor limit => uses_sql (q := .selectEntriesPage id cursor limit) rfl) params

theorem looks_listVersions (fmt : CursorFormat) (id : Uuid) (params : PaginationParams) :
    (Versions.listPaginated fmt id params).Uses Cmd.Looks :=
  looks_paginate (fun cursor limit => uses_sql (q := .selectVersionsPage id cursor limit)
    rfl) params

theorem looks_listReferences (fmt : CursorFormat) (id : Uuid) (params : PaginationParams) :
    (References.listPaginated fmt id params).Uses Cmd.Looks :=
  looks_paginate (fun cursor limit => uses_sql (q := .selectReferencesPage id cursor limit) rfl)
    params

theorem looks_listCollections (fmt : CursorFormat) (params : PaginationParams) :
    (Collections.listPaginated fmt params).Uses Cmd.Looks :=
  looks_paginate (fun cursor limit => uses_sql (q := .selectCollectionsPage cursor limit)
    rfl) params

namespace App

variable {moment : Moment Key} {x : Http.Extracted} {headers : Auth.HeaderMap}

theorem looks_listOf {list : Uuid → PaginationParams → Action (PaginatedResponse α)}
    (hlist : ∀ id params, (list id params).Uses Cmd.Looks) (slug : String)
    (params : PaginationParams) : (listOf slug list params).Uses Api.Looks :=
  Action.looks_endpoint (looks_board fun _ => hlist _ params)

theorem looks_summary (slug : String) : (Boards.getSummary slug).Uses Reading.Looks :=
  Prog.uses_bind (Action.looks_inl (looks_getBySlug slug)) fun _ =>
    Prog.uses_bind (Lookup.looks_fetch _) fun _ => Prog.uses_bind (Lookup.looks_fetch _)
      fun _ => trivial

theorem looks_entry (boardId : Uuid) (slug : String) :
    (Entries.getBySlug boardId slug).Uses Reading.Looks :=
  Prog.uses_bind (Lookup.looks_fetch _) fun _ => Action.looks_inl (uses_okOr _ _)

theorem looks_entryHistory (boardSlug entrySlug : String) (params : LimitParam) :
    (Routes.entryHistory boardSlug entrySlug params).Uses Reading.Looks :=
  Prog.uses_bind (Action.looks_inl (looks_getBySlug boardSlug)) fun _ =>
    Prog.uses_bind (looks_entry _ _) fun _ => Lookup.looks_fetch _

theorem looks_latest (slug : String) : (Routes.latest app.caller slug).Uses Cmd.Looks := by
  refine looks_board fun b => ?_
  split
  · exact uses_guard (looks_realtimeLatest _ _)
  · exact looks_getLatest _

theorem looks_stream (slug : String) :
    (Ws.stream app.lib app.mac moment.clock moment.mode app.wsEnabled moment.subscription slug
      headers).Uses Cmd.Looks :=
  uses_guard (looks_board fun _ => uses_check fun _ => trivial)

/-- **Boards are only looked at by GET and HEAD.** -/
theorem boardRoutes_get_looks (path : List String) :
    ∀ p ∈ (app.boardRoutes moment x headers path).get, p.Uses Api.Looks := by
  unfold boardRoutes
  split
  · exact Http.looks_extract fun _ => Action.looks_endpoint (looks_listBoards _ _)
  · exact Http.looks_run (Reading.looks_endpoint (looks_summary _))
  · exact Http.looks_extract fun _ => looks_listOf (looks_listEntries _) _ _
  · exact Http.looks_run (Reading.looks_endpoint
      (Prog.uses_bind (Action.looks_inl (looks_getBySlug _)) fun _ => looks_entry _ _))
  · exact Http.looks_extract fun _ => Reading.looks_endpoint (looks_entryHistory _ _ _)
  · exact Http.looks_extract fun _ => looks_listOf (looks_listVersions _) _ _
  · exact Http.looks_extract fun _ =>
      Action.looks_endpoint (looks_board fun _ => looks_getByNumber _ _)
  · exact Http.looks_run (Action.looks_endpoint (looks_latest _))
  · refine Http.looks_extract fun _ => Action.looks_endpoint ?_
    exact uses_guard (uses_guard (looks_board fun _ =>
      Prog.uses_bind (looks_getByNumber _ _) fun _ =>
      Prog.uses_bind (looks_getByNumber _ _) fun _ => trivial))
  · refine Http.looks_extract fun y => ?_
    exact Action.looks_endpoint (looks_board fun _ => uses_sql rfl)
  · exact Http.looks_extract fun _ => looks_listOf (looks_listReferences _) _ _
  · exact fun p hp => absurd hp (by simp)
  · exact fun p hp => absurd hp (by simp)
  · exact fun p hp => absurd hp (by simp)
  · exact Http.looks_run (Action.looks_endpoint
      (uses_guard (looks_board fun _ => Prog.uses_ofExcept _)))
  · exact Http.looks_extract fun _ => Action.looks_endpoint (looks_stream _)
  · exact fun p hp => absurd hp (by simp)

/-- **Collections are only looked at by GET and HEAD.** -/
theorem collectionRoutes_get_looks (path : List String) :
    ∀ p ∈ (app.collectionRoutes x path).get, p.Uses Api.Looks := by
  have hcollection : ∀ slug, (Collections.getBySlug slug).Uses Cmd.Looks := fun slug =>
    looks_select rfl fun _ => uses_okOr _ _
  unfold collectionRoutes
  split
  · exact Http.looks_extract fun _ => Action.looks_endpoint (looks_listCollections _ _)
  · refine Http.looks_run (Prog.uses_bind (Action.looks_endpoint (hcollection _)) fun c => ?_)
    refine ⟨trivial, fun r => ?_⟩
    cases r <;> trivial
  · exact fun p hp => absurd hp (by simp)
  · exact fun p hp => absurd hp (by simp)
  · exact fun p hp => absurd hp (by simp)

/-- What a reading method runs behind the middleware. -/
theorem guardedRoutes_looks {method : Auth.Method} (hread : method.isRead = true)
    (path : List String) : ∀ p ∈ (app.guardedRoutes moment x headers path).handler method,
      p.Uses Api.Looks := by
  have hget : ∀ p ∈ (app.guardedRoutes moment x headers path).get, p.Uses Api.Looks := by
    unfold guardedRoutes
    split
    · exact boardRoutes_get_looks _
    · exact collectionRoutes_get_looks _
    · exact fun p hp => absurd hp (by simp)
  intro p hp
  cases method with
  | get => exact hget p hp
  | head => exact hget p hp
  | options => cases hp
  | _ => cases hread

end App

/-! ### Messages that may write -/

/-- A message has passed the checks that its kind needs to write: for a push the signature, the
event and the branch. -/
def Message.mayWrite : Message app → Bool
  | .http moment request =>
    !request.method.isRead && app.passes moment request.headers request.method
  | .frame opened _ =>
    Auth.hasWriteAuth app.lib app.mac opened.moment.clock opened.moment.mode opened.headers
  | .push headers body _ =>
    (Github.github app.hmac app.env app.parseJson app.sync headers body).isOk
  | .operator _ => true

theorem App.looks_http {moment : Moment Key} {request : Http.Request}
    (h : request.method.isRead = true ∨ app.passes moment request.headers request.method = false) :
    (app.http moment request).Uses Api.Looks := by
  unfold App.http
  split
  · rename_i handler hhandler
    split
    · rename_i hpasses
      have hread : request.method.isRead = true := h.resolve_right (by simp [hpasses])
      exact App.guardedRoutes_looks hread _ _ hhandler
    · trivial
  · trivial

theorem Message.looks_push {headers : Auth.HeaderMap} {body : List UInt8}
    (parsed : List ParsedBoard)
    (h : (Github.github app.hmac app.env app.parseJson app.sync headers body).isOk = false) :
    (runPush app headers body parsed).Uses Cmd.Looks := by
  unfold runPush
  split
  · rename_i push hpush
    rw [hpush] at h
    cases h
  · trivial

/-- **A message that may not write only looks.** -/
theorem Message.looks {m : Message app} (hm : m.mayWrite = false) : m.serve.Uses Api.Looks := by
  cases m with
  | http moment request =>
    refine App.looks_http ?_
    simp only [mayWrite, Bool.and_eq_false_iff, Bool.not_eq_false'] at hm
    exact hm
  | frame opened payload =>
    have hauth := Ws.writeAuthorized_of_stream opened.opened
    have hprocess := Ws.Connection.processScore_unauthorized (hauth.trans hm) app.caller payload
    have hserve : (frame opened payload).serve =
        (opened.connection.processScore app.caller payload).discard.endpoint := rfl
    rw [hserve, hprocess]
    trivial
  | push headers body parsed => exact Action.looks_endpoint (looks_push parsed hm)
  | operator command => cases hm

end Leaderboards
