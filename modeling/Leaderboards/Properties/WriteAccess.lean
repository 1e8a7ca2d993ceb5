import Leaderboards.Library.Erasure
import Leaderboards.Transactions.Looking

/-!
# Who changes anything

A message may write when it passes one of three checks: `require_auth` for a request with a method
that does not read, `has_write_auth` for the upgrade of a WebSocket, or the signature of a push. All
other messages only look, and a run is a run without them (`unauthorized_invisible`).
-/

namespace Leaderboards

open Interaction

variable {Key : Type} {app : App Key} {faulty : Prop}

/-! ### A run without the looks -/

/-- Servers with the same contents. On the second, some looks have not happened: its clock may be
behind. -/
structure Server.Ahead (s s₀ : Server) : Prop where
  db : s₀.db = s.db
  redis : s₀.redis = s.redis
  snapIds : s₀.snapIds = s.snapIds
  clock : s₀.clock ≤ s.clock
  usedBoards : ∀ id ∈ s₀.usedBoards, id ∈ s.usedBoards
  usedEntries : ∀ id ∈ s₀.usedEntries, id ∈ s.usedEntries

namespace Server.Ahead

variable {s s₀ : Server}

theorem refl (s : Server) : s.Ahead s := ⟨rfl, rfl, rfl, le_refl _, fun _ h => h, fun _ h => h⟩

theorem fresh (h : s.Ahead s₀) {u : Uuid} (hu : s.Fresh u) : s₀.Fresh u :=
  ⟨fun hid => hu.1 (h.usedBoards u hid), fun hid => hu.2 (h.usedEntries u hid)⟩

/-- Both servers commit the same row writes. -/
theorem commit (h : s.Ahead s₀) (ws : List RowWrite) : (s.commit ws).Ahead (s₀.commit ws) where
  db := by rw [commit_db, commit_db, h.db]
  redis := h.redis
  snapIds := h.snapIds
  clock := h.clock
  usedBoards id hid := by
    rw [commit_usedBoards, h.db] at hid
    rw [commit_usedBoards]
    exact List.mem_append.mpr ((List.mem_append.mp hid).imp_left (h.usedBoards id))
  usedEntries id hid := by
    rw [commit_usedEntries, h.db] at hid
    rw [commit_usedEntries]
    exact List.mem_append.mpr ((List.mem_append.mp hid).imp_left (h.usedEntries id))

/-- The clocks of both servers are set. -/
theorem setClock (h : s.Ahead s₀) (now : Timestamp) :
    { s with clock := now }.Ahead { s₀ with clock := now } :=
  ⟨h.db, h.redis, h.snapIds, le_refl now, h.usedBoards, h.usedEntries⟩

/-- The clock of the first server goes on. -/
theorem advance (h : s.Ahead s₀) {now : Timestamp} (hnow : s.clock ≤ now) :
    { s with clock := now }.Ahead s₀ :=
  ⟨h.db, h.redis, h.snapIds, h.clock.trans hnow, h.usedBoards, h.usedEntries⟩

/-- The first server commits nothing. -/
theorem commit_nil (h : s.Ahead s₀) : (s.commit []).Ahead s₀ where
  db := h.db
  redis := h.redis
  snapIds := h.snapIds
  clock := h.clock
  usedBoards id hid := by
    rw [commit_usedBoards]
    exact List.mem_append.mpr (.inl (h.usedBoards id hid))
  usedEntries id hid := by
    rw [commit_usedEntries]
    exact List.mem_append.mpr (.inl (h.usedEntries id hid))

/-- **Without the looks, every command does what it did.** -/
theorem follow (h : s.Ahead s₀) {c : Cmd} {hs hs' : Session} {L : List Lock} {r : c.Res}
    {s' : Server}
    (hexec : Exec faulty c s hs L r s' hs') :
    ∃ s₀', Exec faulty c s₀ hs L r s₀' hs' ∧ s'.Ahead s₀' := by
  cases hexec with
  | begin hnow => exact ⟨_, .begin (h.clock.trans hnow), h.setClock _⟩
  | commit => exact ⟨_, .commit, h.commit _⟩
  | rollback => exact ⟨_, .rollback, h⟩
  | statement hu hq =>
    rw [← h.db] at hq ⊢
    exact ⟨_, .statement (h.fresh hu) hq, h⟩
  | statementError hu hq =>
    rw [← h.db] at hq ⊢
    exact ⟨_, .statementError (h.fresh hu) hq, h⟩
  | autocommit hu hnow hq =>
    rw [← h.db] at hq ⊢
    exact ⟨_, .autocommit (h.fresh hu) (h.clock.trans hnow) hq, (h.commit _).setClock _⟩
  | autocommitError hu hnow hq =>
    refine ⟨_, ?_, h.setClock _⟩
    rw [← h.db] at hq ⊢
    exact .autocommitError (h.fresh hu) (h.clock.trans hnow) hq
  | redis =>
    rw [← h.redis]
    exact ⟨_, .redis, h.db, rfl, h.snapIds, h.clock, h.usedBoards, h.usedEntries⟩
  | newUuid hu =>
    rw [← h.snapIds] at hu ⊢
    exact ⟨_, .newUuid hu, h.db, h.redis, rfl, h.clock, h.usedBoards, h.usedEntries⟩
  | beginFault hf => exact ⟨_, .beginFault hf, h⟩
  | commitFault hf => exact ⟨_, .commitFault hf, h⟩
  | statementFault hf => exact ⟨_, .statementFault hf, h⟩
  | redisFault hf => exact ⟨_, .redisFault hf, h⟩

/-- **A look changes no contents**, and opens no transaction. -/
theorem look (h : s.Ahead s₀) {c : Cmd} (hc : c.Looks) {hs' : Session} {L : List Lock} {r : c.Res}
    {s' : Server} (hexec : Exec faulty c s none L r s' hs') :
    hs' = none ∧ s'.Ahead s₀ ∧ s'.db = s.db := by
  cases hexec with
  | begin hnow => cases hc
  | rollback => cases hc
  | autocommit hu hnow hq =>
    obtain rfl := exec_readOnly hc hq
    exact ⟨rfl, h.commit_nil.advance hnow, rfl⟩
  | autocommitError hu hnow hq => exact ⟨rfl, h.advance hnow, rfl⟩
  | redis =>
    refine ⟨rfl, ?_, rfl⟩
    rw [RedisCmd.Looks.execRedis_snd hc]
    exact h
  | newUuid hu => cases hc
  | beginFault hf => exact ⟨rfl, h, rfl⟩
  | commitFault hf => exact ⟨rfl, h, rfl⟩
  | statementFault hf => exact ⟨rfl, h, rfl⟩
  | redisFault hf => exact ⟨rfl, h, rfl⟩

end Server.Ahead

/-- The same for all that the handlers of the API share. -/
structure Api.Ahead (sh sh₀ : Api.Shared) : Prop where
  servers : sh.1.1.Ahead sh₀.1.1
  rows : sh₀.2.rows = sh.2.rows
  usedCollections : ∀ id ∈ sh₀.2.usedCollections, id ∈ sh.2.usedCollections
  referenced : Referenced sh.1.1.db sh.2.rows

theorem Api.Ahead.refl {sh : Api.Shared} (h : Referenced sh.1.1.db sh.2.rows) : Api.Ahead sh sh :=
  ⟨.refl _, rfl, fun _ h => h, h⟩

/-- A look of the first servers. -/
theorem Api.Ahead.look {sh sh₀ sh' : Api.Shared} (h : Api.Ahead sh sh₀)
    (hservers : sh'.1.1.Ahead sh₀.1.1) (hdb : sh'.1.1.db = sh.1.1.db)
    (hfollow : sh.2.Follows sh.1.1.db sh'.1.1.db sh'.2) : Api.Ahead sh' sh₀ := by
  have hsame : sh'.2.rows = sh.2.rows := by
    rw [hfollow.after]
    exact (hdb ▸ h.referenced).cascade_eq
  refine ⟨hservers, h.rows.trans hsame.symm, fun id hid => ?_, hfollow.referenced⟩
  rw [hfollow.after]
  exact List.mem_append_left _ (h.usedCollections id hid)

/-- The table `collection_boards` of the second servers, when the others have changed alike. -/
theorem Api.Ahead.follow {sh sh₀ sh' : Api.Shared} {s₀' : Server} (h : Api.Ahead sh sh₀)
    (hservers : sh'.1.1.Ahead s₀') (hfollow : sh.2.Follows sh.1.1.db sh'.1.1.db sh'.2) :
    ∃ m₀', sh₀.2.Follows sh₀.1.1.db s₀'.db m₀' ∧ Api.Ahead sh' (s₀'.with m₀') := by
  refine ⟨sh₀.2.after s₀'.db, ⟨rfl, fun c hc hused => ?_⟩, hservers, ?_, ?_, hfollow.referenced⟩
  · rw [h.servers.db]
    exact hfollow.fresh c (hservers.db ▸ hc) (h.usedCollections _ hused)
  · rw [hfollow.after]
    simp only [Server.with_table, MemberTable.after, h.rows, hservers.db]
  · intro id hid
    simp only [Server.with_table, MemberTable.after, hservers.db] at hid
    rw [hfollow.after]
    exact List.mem_append.mpr ((List.mem_append.mp hid).imp_left (h.usedCollections id))

/-- The looks of the API. -/
def Api.onlooking (faulty : Prop) : (api faulty).Onlooking where
  Looks := Api.Looks
  Calm h := h = none
  Ahead := Api.Ahead
  idle := rfl
  look {t c sh h L r sh' h' sh₀} hc hcalm hexec hahead := by
    subst hcalm
    rcases c with (c | l) | q
    · obtain ⟨⟨hexec, -⟩, hfollow⟩ := hexec
      obtain ⟨hsession, hservers, hdb⟩ := hahead.servers.look hc hexec
      exact ⟨hsession, hahead.look hservers hdb hfollow⟩
    · obtain ⟨⟨hsession, hsh, -⟩, hfollow⟩ := hexec
      have hservers : sh'.1.1.Ahead sh₀.1.1 := by
        rw [hsh]
        exact hahead.servers
      exact ⟨hsession, hahead.look hservers (congrArg Server.db hsh) hfollow⟩
    · obtain ⟨hsession, hsh, -, hused, hanswer⟩ := hexec
      have hsame : sh'.2.rows = sh.2.rows := by
        rcases hanswer.rows with hsame | hrun
        · exact hsame
        · cases q with
          | selectBoards => exact hrun
          | _ => cases hc
      obtain ⟨hservers, hrows, husedCollections, href⟩ := hahead
      rw [← hsh] at hservers href
      refine ⟨hsession, hservers, hrows.trans hsame.symm, ?_, ?_⟩
      · rw [hused]
        exact husedCollections
      · rw [hsame]
        exact href
  follow {t c sh h L r sh' h' sh₀} hexec hahead := by
    rcases c with (c | l) | q
    · obtain ⟨⟨hexec, -⟩, hfollow⟩ := hexec
      obtain ⟨s₀', hexec₀, hservers⟩ := hahead.servers.follow hexec
      obtain ⟨m₀', hfollow₀, hahead'⟩ := hahead.follow hservers hfollow
      exact ⟨s₀'.with m₀', ⟨⟨hexec₀, trivial⟩, hfollow₀⟩, hahead'⟩
    · obtain ⟨⟨hsession, hsh, hL, hanswer⟩, hfollow⟩ := hexec
      have hservers : sh'.1.1.Ahead sh₀.1.1 := by
        rw [hsh]
        exact hahead.servers
      obtain ⟨m₀', hfollow₀, hahead'⟩ := hahead.follow hservers hfollow
      refine ⟨(sh₀.1, m₀'), ⟨⟨hsession, rfl, hL, ?_⟩, hfollow₀⟩, hahead'⟩
      rw [hahead.servers.db]
      exact hanswer
    · obtain ⟨hsession, hsh, hL, hused, hanswer⟩ := hexec
      obtain ⟨hservers, hrows, husedCollections, href⟩ := hahead
      refine ⟨(sh₀.1, ⟨sh'.2.rows, sh₀.2.usedCollections⟩), ⟨hsession, rfl, hL, rfl, ?_⟩, ?_, rfl,
        ?_, ?_⟩
      · rw [hservers.db, hrows]
        exact hanswer
      · rw [hsh]
        exact hservers
      · rw [hused]
        exact husedCollections
      · rw [hsh]
        exact href.outcome hanswer

/-- A run of the API from servers that serve nobody yet. -/
abbrev Api.Trace (allowed : Message app → Prop) (faulty : Prop) (sh : Api.Shared) :
    List (Event ((Service.sum Lookups).sum Memberships) (Message app)) →
      (Tid → Option (Message app)) → (api faulty).State Error → Prop :=
  Machine.Trace Message.serve allowed (Machine.quiet (api faulty) sh)

/-- **Requests without write access are invisible.** Leave the messages that may not write out of a
run: what remains is a run, in which the others execute the same commands and get the same answers,
and which leads to the same tables, the same Redis and the same collections. Of the messages that
are left out every command only looked. -/
theorem unauthorized_invisible {sh : Api.Shared} (hsh : Referenced sh.1.1.db sh.2.rows)
    {es : List (Event ((Service.sum Lookups).sum Memberships) (Message app))}
    {who : Tid → Option (Message app)} {g : (api faulty).State Error}
    (h : Api.Trace (fun _ => True) faulty sh es who g) :
    (∃ es₀ who₀ g₀, Api.Trace (fun m => m.mayWrite = true) faulty sh es₀ who₀ g₀ ∧
      Machine.eventsOf Message.mayWrite es₀ = Machine.eventsOf Message.mayWrite es ∧
      g₀.shared.1.1.db = g.shared.1.1.db ∧ g₀.shared.1.1.redis = g.shared.1.1.redis ∧
      g₀.shared.2.rows = g.shared.2.rows) ∧
    ∀ t m c a, .exec t (some m) c a ∈ es → m.mayWrite = false → Api.Looks c := by
  obtain ⟨⟨es₀, who₀, g₀, h₀, hevents, herases⟩, hlooks⟩ :=
    h.erase (Api.onlooking faulty) (Api.Ahead.refl hsh) fun m _ hm => Message.looks hm
  refine ⟨⟨es₀, who₀, g₀, ?_, hevents, ?_, ?_, ?_⟩, hlooks⟩
  · simpa only [true_and] using h₀
  · exact herases.shared.servers.db
  · exact herases.shared.servers.redis
  · exact herases.shared.rows

/-! ### A run with two callers -/

/-- An application with the tokens as their own hashes. -/
def sampleApp : App Unit where
  caller := {}
  fmt := ⟨fun _ => "", fun _ => none, fun _ => "", fun _ => none⟩
  sseEnabled := false
  wsEnabled := false
  sync := none
  lib := .ofTable fun _ => none
  mac token := token.toList.map fun c => c.toNat.toUInt8
  hmac _ body := body
  env _ := none
  parseJson _ := none

/-- Writes need the token of one letter, reads none. -/
def sampleMoment : Moment Unit := ⟨.apiToken [116] [] false, ⟨0, 0⟩, .ok ()⟩

/-- A caller without a token polls a board. -/
def pollBoard : Message sampleApp :=
  .http sampleMoment ⟨.get, ["boards", "a"], ⟨[]⟩, {}⟩

/-- The administrator creates the board. -/
def createBoardA : Message sampleApp :=
  .http sampleMoment ⟨.post, ["boards"],
    ⟨[("authorization", [66, 101, 97, 114, 101, 114, 32, 116])]⟩,
    { createBoard := some { slug := "a", name := "A", boardType := "ordered" } }⟩

/-- The row of the board. -/
def boardA : Board where
  id := 1
  slug := "a"
  name := "A"
  boardType := "ordered"
  sortDirection := "desc"
  tierConfig := none
  metadata := none
  accumulative := false
  realtime := false
  clearOnSnapshot := false
  createdAt := 5
  updatedAt := 5

/-- The insertion that the administrator's request executes. -/
def insertBoardA : Event ((Service.sum Lookups).sum Memberships) (Message sampleApp) :=
  .exec 1 (some createBoardA)
    (.inl (.inl (.sql (.insertBoard { slug := "a", name := "A", boardType := "ordered" }))))
      (.ok boardA)

/-- A statement that a handler executes while nobody has a transaction open. -/
theorem Api.Trace.sql {allowed : Message app → Prop} {sh : Api.Shared}
    {es : List (Event ((Service.sum Lookups).sum Memberships) (Message app))}
    {who : Tid → Option (Message app)} {g : (api faulty).State Error}
    (h : Api.Trace allowed faulty sh es who g) (hidle : ∀ u, g.session u = none) {t : Tid}
    {q : Query}
    {k : Except DbError q.Row → Endpoint Unit} {u : Uuid} (now : Timestamp) (row : q.Row)
    (ws : List RowWrite) (ht : g.thread t = some ⟨none, .op (.inl (.inl (.sql q))) k⟩)
    (hu : g.shared.1.1.Fresh u) (hnow : g.shared.1.1.clock ≤ now)
    (hq : exec u now q g.shared.1.1.db = .ok (row, ws))
    (hfresh : ∀ c ∈ (g.shared.1.1.db.applyAll ws).collections, c.id ∈ g.shared.2.usedCollections →
      ∃ r ∈ g.shared.1.1.db.collections, r.SameKey c) :
    ∃ g' : (api faulty).State Error,
      Api.Trace allowed faulty sh (es ++ [.exec t (who t) (.inl (.inl (.sql q))) (.ok row)])
        who g' ∧
        (∀ u, g'.session u = none) ∧
        g'.thread = Function.update g.thread t (some ⟨none, k (.ok row)⟩) ∧
        g'.shared = { g.shared.1.1.commit ws with clock := now }.with
          (g.shared.2.after (g.shared.1.1.db.applyAll ws)) := by
  have hexec : (api faulty).exec t (.inl (.inl (.sql q))) g.shared none
      (q.locks u g.shared.1.1.db) (.ok row) ({ g.shared.1.1.commit ws with clock := now }.with
        (g.shared.2.after (g.shared.1.1.db.applyAll ws))) none :=
    ⟨⟨.autocommit hu hnow hq, trivial⟩, rfl, hfresh⟩
  refine ⟨_, .exec t _ k none none _ _ _ h ht (fun v th hv hth => ?_) hexec, fun v => ?_, rfl, rfl⟩
  · have hnone : th.session = none := (Machine.State.session_of_thread hth).symm.trans (hidle v)
    rw [hnone]
    exact compatible_nil _
  · refine (congrFun (Machine.State.session_exec g t _ ⟨none, k (.ok row)⟩) v).trans ?_
    by_cases hv : v = t
    · subst hv
      exact Function.update_self ..
    · rw [Function.update_of_ne hv]
      exact hidle v

/-- The poll starts first and finds the board that is created in the meantime. -/
theorem poll_trace : ∃ who g, Api.Trace (fun _ => True) False (Server.with {} {})
    [.call 0 pollBoard, .call 1 createBoardA, insertBoardA,
      .exec 0 (some pollBoard) (.inl (.inl (.sql (.selectBoardBySlug "a")))) (.ok (some boardA))]
    who g ∧ g.shared.1.1.db.boards = [boardA] := by
  have h₀ : Api.Trace (fun _ : Message sampleApp => True) False (Server.with {} {}) []
      (fun _ => none) _ := .start
  have h₁ := h₀.call 0 pollBoard trivial rfl
  have h₂ := h₁.call 1 createBoardA trivial rfl
  have hidle : ∀ u, (((Machine.quiet (api False) (Server.with {} {})).setThread 0
      (some ⟨none, pollBoard.serve⟩)).setThread 1 (some ⟨none, createBoardA.serve⟩)).session u =
        none := fun u =>
    congrFun ((Machine.State.session_call rfl _).trans (Machine.State.session_call rfl _)) u
  obtain ⟨g₁, h₃, hidle₁, hthread, hshared⟩ := Api.Trace.sql h₂ hidle (u := 1) (t := 1) 5
    boardA [.addBoard boardA] rfl ⟨List.not_mem_nil, List.not_mem_nil⟩ (Nat.zero_le 5) rfl
    fun c hc => absurd hc List.not_mem_nil
  obtain ⟨g₂, h₄, -, -, hshared₂⟩ := Api.Trace.sql h₃ hidle₁ (u := 2) (t := 0)
    (q := .selectBoardBySlug "a") 5 (some boardA) [] (by rw [hthread]; rfl)
    (by rw [hshared]; exact ⟨by decide, by decide⟩) (by rw [hshared]; exact le_refl 5)
    (by rw [hshared]; rfl) (by rw [hshared]; exact fun c hc => absurd hc List.not_mem_nil)
  refine ⟨_, _, h₄, ?_⟩
  rw [hshared₂, hshared]
  rfl

/-- Without the poll, the administrator's request inserts the same row. -/
theorem unauthorized_invisible_run : pollBoard.mayWrite = false ∧
    ∃ es₀ who₀ g₀, Api.Trace (fun m => m.mayWrite = true) False (Server.with {} {}) es₀ who₀ g₀ ∧
      Machine.eventsOf Message.mayWrite es₀ = [.call 1 createBoardA, insertBoardA] ∧
      g₀.shared.1.1.db.boards = [boardA] := by
  obtain ⟨who, g, h, hboards⟩ := poll_trace
  obtain ⟨⟨es₀, who₀, g₀, h₀, hevents, hdb, -, -⟩, -⟩ := unauthorized_invisible
    (fun _ hrow => absurd hrow List.not_mem_nil) h
  refine ⟨by decide, es₀, who₀, g₀, h₀, hevents.trans ?_, ?_⟩
  · have hpoll : pollBoard.mayWrite = false := by decide
    have hcreate : createBoardA.mayWrite = true := by decide
    simp [Machine.eventsOf, Event.request, insertBoardA, hpoll, hcreate]
  · rw [hdb, hboards]

end Leaderboards
