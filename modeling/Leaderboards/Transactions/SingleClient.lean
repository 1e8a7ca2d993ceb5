import Leaderboards.Transactions.Reachable

/-!
# A client that runs alone

`serve` answers the instructions of one handler while nobody else uses the servers. What the
servers choose freely comes from a `Supply`: the row ids, the instants and the snapshot ids, one
for each instruction. A request that is run this way takes steps of the machine
(`Reachable.serve`), so what it reaches from a reachable state is reachable.
-/

namespace Leaderboards

open Interaction

/-- What the environment supplies, one value for each instruction. -/
structure Supply where
  uuid : ℕ → Uuid
  now : ℕ → Timestamp
  snap : ℕ → Uuid
  uuid_inj : Function.Injective uuid
  now_mono : Monotone now
  snap_inj : Function.Injective snap

/-- The servers, the connection of the client, and how much of the supply is used up. -/
structure World where
  server : Server := {}
  session : Session := none
  tick : ℕ := 0

namespace World

/-- The tables as the client sees them. -/
def view (w : World) : Database := w.session.view w.server.db

end World

variable (env : Supply)

/-- A statement of the client. -/
def serveSql (q : Query) (w : World) : Except DbError q.Row × World :=
  match w.session with
  | some tx =>
    match exec (env.uuid w.tick) tx.now q w.view with
    | .ok (row, ws) =>
      (.ok row, { w with session := some (tx.add ws (q.locks (env.uuid w.tick) w.view))
                         tick := w.tick + 1 })
    | .error e => (.error e, { w with tick := w.tick + 1 })
  | none =>
    match exec (env.uuid w.tick) (env.now w.tick) q w.view with
    | .ok (row, ws) =>
      (.ok row, { w with server := { w.server.commit ws with clock := env.now w.tick }
                         tick := w.tick + 1 })
    | .error e =>
      (.error e, { w with server := { w.server with clock := env.now w.tick }
                          tick := w.tick + 1 })

/-- The servers, when only one client uses them. -/
def serve : Prog.Handler Service World
  | .begin, w =>
    (.ok (), { server := { w.server with clock := env.now w.tick }
               session := some ⟨[], [], env.now w.tick⟩, tick := w.tick + 1 })
  | .commit, w =>
    match w.session with
    | some tx =>
      (.ok (), { server := w.server.commit tx.writes, session := none, tick := w.tick + 1 })
    | none => (.ok (), { w with tick := w.tick + 1 })
  | .rollback, w => ((), { w with session := none, tick := w.tick + 1 })
  | .sql q, w => serveSql env q w
  | .redis c, w =>
    ((execRedis c w.server.redis).1,
      { w with server := { w.server with redis := (execRedis c w.server.redis).2 }
               tick := w.tick + 1 })
  | .newUuid, w =>
    (env.snap w.tick,
      { w with server := { w.server with snapIds := w.server.snapIds ++ [env.snap w.tick] }
               tick := w.tick + 1 })

variable {env}

/-- A statement with `?` on its result. -/
theorem run_sql (q : Query) (w : World) : (Action.sql q).run (serve env) w =
    ((serveSql env q w).1.mapError Error.database, (serveSql env q w).2) := by
  have hop : (Action.sql q).run (serve env) w = ((match (serveSql env q w).1 with
      | .ok row => .ret row
      | .error e => .fail (.database e) : Action q.Row)).run (serve env) (serveSql env q w).2 := rfl
  rw [hop]
  cases (serveSql env q w).1 <;> rfl

/-! ### The rest of the supply is unused -/

/-- The supply fits the servers: the ids to come are unused, the instants to come lie ahead. -/
structure World.Supplied (env : Supply) (w : World) : Prop where
  fresh : ∀ n, w.tick ≤ n → w.server.Fresh (env.uuid n)
  boards : ∀ n, w.tick ≤ n → ∀ b ∈ w.view.boards, b.id ≠ env.uuid n
  entries : ∀ n, w.tick ≤ n → ∀ e ∈ w.view.entries, e.id ≠ env.uuid n
  clock : w.server.clock ≤ env.now w.tick
  snaps : ∀ n, w.tick ≤ n → env.snap n ∉ w.server.snapIds

/-- A supply that fits still fits a tick later, if the rows and the ids in use are the same. -/
theorem World.Supplied.later {w w' : World} (hw : w.Supplied env) (htick : w'.tick = w.tick + 1)
    (hview : w'.view = w.view) (hfresh : w'.server.Fresh = w.server.Fresh)
    (hsnaps : w'.server.snapIds = w.server.snapIds) (hclock : w'.server.clock ≤ env.now w'.tick) :
    w'.Supplied env := by
  have hlater : ∀ n, w'.tick ≤ n → w.tick ≤ n := fun n hn => by omega
  exact
    { fresh := fun n hn => hfresh ▸ hw.fresh n (hlater n hn)
      boards := fun n hn => hview ▸ hw.boards n (hlater n hn)
      entries := fun n hn => hview ▸ hw.entries n (hlater n hn)
      clock := hclock
      snaps := fun n hn => hsnaps ▸ hw.snaps n (hlater n hn) }

/-- The id of the board or entry that a row write inserts. -/
def RowWrite.inserts : RowWrite → Option Uuid
  | .addBoard b => some b.id
  | .addEntry e => some e.id
  | _ => none

/-- A statement inserts boards and entries with the supplied id only, and removes them only when
that is what it is for. -/
theorem exec_writes {u : Uuid} {now : Timestamp} {q : Query} {db : Database} {row : q.Row}
    {ws : List RowWrite} (h : exec u now q db = .ok (row, ws)) : ∀ w ∈ ws,
      (∀ id, w.inserts = some id → id = u) ∧ (w.removesRow → q.removesRow) := by
  intro w hw
  have hwritten := exec_writtenBy h w hw
  cases w with
  | addBoard b => exact ⟨fun id hid => Option.some.inj hid ▸ hwritten.1, False.elim⟩
  | addEntry e => exact ⟨fun id hid => Option.some.inj hid ▸ hwritten.1, False.elim⟩
  | removeBoard id => exact ⟨fun _ hid => (by cases hid), fun _ => hwritten⟩
  | removeEntry id => exact ⟨fun _ hid => (by cases hid), fun _ => hwritten⟩
  | _ => exact ⟨fun _ hid => (by cases hid), False.elim⟩

theorem applyAll_boards {ws : List RowWrite} {db : Database} {b : Board}
    (hb : b ∈ (db.applyAll ws).boards) :
    (∃ x, .addBoard x ∈ ws ∧ x.id = b.id) ∨ ∃ r ∈ db.boards, r.id = b.id := by
  induction ws generalizing db with
  | nil => exact .inr ⟨b, hb, rfl⟩
  | cons w ws ih =>
    rcases ih hb with ⟨x, hx, hid⟩ | ⟨r, hr, hid⟩
    · exact .inl ⟨x, List.mem_cons_of_mem _ hx, hid⟩
    · cases w with
      | addBoard x =>
        rcases List.mem_append.mp hr with hr | hr
        · exact .inr ⟨r, hr, hid⟩
        · obtain rfl := List.mem_singleton.mp hr
          exact .inl ⟨_, List.mem_cons_self, hid⟩
      | setBoard x =>
        rcases Database.mem_setBoard_boards.mp hr with ⟨hr, -⟩ | ⟨rfl, r', hr', hid'⟩
        · exact .inr ⟨r, hr, hid⟩
        · exact .inr ⟨r', hr', hid'.trans hid⟩
      | removeBoard id => exact .inr ⟨r, List.mem_of_mem_filter hr, hid⟩
      | _ => exact .inr ⟨r, hr, hid⟩

theorem applyAll_entries {ws : List RowWrite} {db : Database} {e : Entry}
    (he : e ∈ (db.applyAll ws).entries) :
    (∃ w ∈ ws, w.inserts = some e.id) ∨ ∃ r ∈ db.entries, r.id = e.id := by
  induction ws generalizing db with
  | nil => exact .inr ⟨e, he, rfl⟩
  | cons w ws ih =>
    rcases ih he with ⟨w', hw', hid⟩ | ⟨r, hr, hid⟩
    · exact .inl ⟨w', List.mem_cons_of_mem _ hw', hid⟩
    · cases w with
      | addEntry x =>
        rcases List.mem_append.mp hr with hr | hr
        · exact .inr ⟨r, hr, hid⟩
        · obtain rfl := List.mem_singleton.mp hr
          exact .inl ⟨_, List.mem_cons_self, congrArg some hid⟩
      | setEntry x =>
        rcases Database.mem_setEntry_entries.mp hr with ⟨hr, -⟩ | ⟨rfl, r', hr', hid'⟩
        · exact .inr ⟨r, hr, hid⟩
        · exact .inr ⟨r', hr', hid'.trans hid⟩
      | removeEntry id => exact .inr ⟨r, List.mem_of_mem_filter hr, hid⟩
      | removeBoard id => exact .inr ⟨r, List.mem_of_mem_filter hr, hid⟩
      | _ => exact .inr ⟨r, hr, hid⟩

/-- The supply fits after a statement: it used up one id at most. -/
private theorem Supplied.exec {w : World} (hw : w.Supplied env) {now : Timestamp} {q : Query}
    {row : q.Row} {ws : List RowWrite}
    (hq : Leaderboards.exec (env.uuid w.tick) now q w.view = .ok (row, ws)) {n : ℕ}
    (hn : w.tick + 1 ≤ n) :
    (∀ b ∈ (w.view.applyAll ws).boards, b.id ≠ env.uuid n) ∧
      ∀ e ∈ (w.view.applyAll ws).entries, e.id ≠ env.uuid n := by
  have hne : env.uuid w.tick ≠ env.uuid n := fun h => absurd (env.uuid_inj h) (by omega)
  refine ⟨fun b hb heq => ?_, fun e he heq => ?_⟩
  · rcases applyAll_boards hb with ⟨x, hx, hid⟩ | ⟨r, hr, hid⟩
    · exact hne (((exec_writes hq _ hx).1 _ (congrArg some hid)).symm.trans heq)
    · exact hw.boards n (by omega) r hr (hid.trans heq)
  · rcases applyAll_entries he with ⟨w', hw', hid⟩ | ⟨r, hr, hid⟩
    · exact hne (((exec_writes hq w' hw').1 _ hid).symm.trans heq)
    · exact hw.entries n (by omega) r hr (hid.trans heq)

/-- **A statement of the client is one of the machine.** -/
private theorem serveSql_exec (faulty : Prop) {w : World} (hw : w.Supplied env) (q : Query) :
    (serveSql env q w).2.Supplied env ∧ ∃ L, Exec faulty (.sql q) w.server w.session L
      (serveSql env q w).1 (serveSql env q w).2.server (serveSql env q w).2.session := by
  have hclock : env.now w.tick ≤ env.now (w.tick + 1) := env.now_mono (Nat.le_succ _)
  obtain ⟨server, session, tick⟩ := w
  rcases session with _ | tx
  -- Outside a transaction the statement commits at once, at the instant of the tick.
  · rcases hq : exec (env.uuid tick) (env.now tick) q server.db with e | ⟨row, ws⟩
    · simp only [serveSql, World.view, Session.view_none, hq]
      refine ⟨hw.later rfl rfl rfl rfl hclock, _,
        .autocommitError (hw.fresh tick le_rfl) hw.clock hq⟩
    · simp only [serveSql, World.view, Session.view_none, hq]
      refine ⟨⟨fun n hn => ?_, fun n hn => (Supplied.exec hw hq hn).1,
        fun n hn => (Supplied.exec hw hq hn).2, hclock,
        fun n hn => hw.snaps n (Nat.le_of_succ_le hn)⟩, _,
        .autocommit (hw.fresh tick le_rfl) hw.clock hq⟩
      obtain ⟨hboards, hentries⟩ := Supplied.exec hw hq hn
      obtain ⟨hfresh, hfresh'⟩ := hw.fresh n (Nat.le_of_succ_le hn)
      refine ⟨fun hmem => ?_, fun hmem => ?_⟩
      · rcases List.mem_append.mp hmem with hmem | hmem
        · exact hfresh hmem
        · obtain ⟨b, hb, hid⟩ := List.mem_map.mp hmem
          exact hboards b hb hid
      · rcases List.mem_append.mp hmem with hmem | hmem
        · exact hfresh' hmem
        · obtain ⟨e, he, hid⟩ := List.mem_map.mp hmem
          exact hentries e he hid
  -- In a transaction it sees the writes so far, and its time is that of BEGIN.
  · rcases hq : exec (env.uuid tick) tx.now q (server.db.applyAll tx.writes) with e | ⟨row, ws⟩
    · simp only [serveSql, World.view, Session.view_some, hq]
      exact ⟨hw.later rfl rfl rfl rfl (hw.clock.trans hclock), _,
        .statementError (hw.fresh tick le_rfl) hq⟩
    · simp only [serveSql, World.view, Session.view_some, hq]
      refine ⟨⟨fun n hn => hw.fresh n (Nat.le_of_succ_le hn), fun n hn => ?_, fun n hn => ?_,
        hw.clock.trans hclock, fun n hn => hw.snaps n (Nat.le_of_succ_le hn)⟩, _,
        .statement (hw.fresh tick le_rfl) hq⟩
      · simp only [World.view, Session.view_some, Tx.add_writes, Database.applyAll_append]
        exact (Supplied.exec hw hq hn).1
      · simp only [World.view, Session.view_some, Tx.add_writes, Database.applyAll_append]
        exact (Supplied.exec hw hq hn).2

/-- **A client that runs alone implements the machine.** -/
theorem serve_implements (P : Policy) (faulty : Prop) : (contract faulty P).Implements (serve env)
    World.server World.session (World.Supplied env) where
  exec t c w hw hinv hpre := by
    have hclock : env.now w.tick ≤ env.now (w.tick + 1) := env.now_mono (Nat.le_succ _)
    obtain ⟨server, session, tick⟩ := w
    cases c with
    | begin =>
      obtain rfl : session = none := hpre
      exact ⟨hw.later rfl rfl rfl rfl hclock, [], compatible_nil _, .begin hw.clock⟩
    | commit =>
      obtain ⟨tx, rfl⟩ := Option.ne_none_iff_exists'.mp (show session ≠ none from hpre)
      refine ⟨⟨fun n hn => ?_, fun n hn => hw.boards n (Nat.le_of_succ_le hn),
        fun n hn => hw.entries n (Nat.le_of_succ_le hn), hw.clock.trans hclock,
        fun n hn => hw.snaps n (Nat.le_of_succ_le hn)⟩, [], compatible_nil _, .commit⟩
      obtain ⟨hfresh, hfresh'⟩ := hw.fresh n (Nat.le_of_succ_le hn)
      refine ⟨fun hmem => ?_, fun hmem => ?_⟩
      · rcases List.mem_append.mp hmem with hmem | hmem
        · exact hfresh hmem
        · obtain ⟨b, hb, hid⟩ := List.mem_map.mp hmem
          exact hw.boards n (Nat.le_of_succ_le hn) b hb hid
      · rcases List.mem_append.mp hmem with hmem | hmem
        · exact hfresh' hmem
        · obtain ⟨e, he, hid⟩ := List.mem_map.mp hmem
          exact hw.entries n (Nat.le_of_succ_le hn) e he hid
    | rollback =>
      refine ⟨⟨fun n hn => hw.fresh n (Nat.le_of_succ_le hn), fun n hn b hb => ?_,
        fun n hn e he => ?_, hw.clock.trans hclock,
        fun n hn => hw.snaps n (Nat.le_of_succ_le hn)⟩, [], compatible_nil _, .rollback⟩
      · exact fun hid => (hw.fresh n (Nat.le_of_succ_le hn)).1 (hid ▸ hinv.board_used b hb)
      · exact fun hid => (hw.fresh n (Nat.le_of_succ_le hn)).2 (hid ▸ hinv.entry_used e he)
    | sql q =>
      obtain ⟨hsupplied, L, hexec⟩ := serveSql_exec faulty hw q
      exact ⟨hsupplied, L, compatible_nil _, hexec⟩
    | redis c =>
      exact ⟨hw.later rfl rfl rfl rfl (hw.clock.trans hclock), [], compatible_nil _, .redis⟩
    | newUuid =>
      refine ⟨⟨fun n hn => hw.fresh n (Nat.le_of_succ_le hn),
        fun n hn => hw.boards n (Nat.le_of_succ_le hn),
        fun n hn => hw.entries n (Nat.le_of_succ_le hn), hw.clock.trans hclock,
        fun n hn hmem => ?_⟩, [], compatible_nil _, .newUuid (hw.snaps tick le_rfl)⟩
      rcases List.mem_append.mp hmem with hmem | hmem
      · exact hw.snaps n (Nat.le_of_succ_le hn) hmem
      · obtain rfl : n = tick := env.snap_inj (List.mem_singleton.mp hmem)
        exact absurd hn (Nat.not_succ_le_self _)

/-! ### Requests one after the other -/

/-- The world after a request. -/
def Request.serve (env : Supply) (r : Request) (w : World) : World :=
  (r.handler.run (Leaderboards.serve env) w).2

/-- The world after some requests, in order. -/
def serveAll (env : Supply) (rs : List Request) (w : World) : World :=
  rs.foldl (fun w r => r.serve env w) w

/-- A state of the machine in which no request is under way, and the world a single client sees
there. -/
structure AtRest {faulty : Prop} (env : Supply) (w : World) (g : System faulty) : Prop where
  servers : g.servers = w.server
  session : w.session = none
  supplied : w.Supplied env
  idle : ∀ u th, g.thread u = some th → th.session = none
  finished : ∀ u th, g.thread u = some th → ∀ c k, th.rest ≠ .op c k
  unused : ∃ n, ∀ u, n ≤ u → g.thread u = none

theorem atRest_initial (env : Supply) (faulty : Prop) :
    AtRest env {} (System.initial faulty .codePoint) where
  servers := rfl
  session := rfl
  supplied := ⟨fun _ _ => ⟨List.not_mem_nil, List.not_mem_nil⟩,
    fun _ _ _ hb => absurd hb List.not_mem_nil, fun _ _ _ he => absurd he List.not_mem_nil,
    Nat.zero_le _, fun _ _ => List.not_mem_nil⟩
  idle := by simp [System.initial, Machine.quiet]
  finished := by simp [System.initial, Machine.quiet]
  unused := ⟨0, fun _ _ => rfl⟩

variable {P : Policy} {faulty : Prop}

/-- **A request that runs alone takes steps of the machine**, also when only some requests are
allowed. -/
theorem AtRest.serveAmong {requests : Action Unit → Prop} {w : World} {g : System faulty}
    (h : AtRest env w g) (hinv : ServerInv P w.server) {r : Request} (hr : r.Respects P)
    (hmem : requests r.handler) : ∃ g', Machine.Run requests g g' ∧
      AtRest env (r.serve env w) g' ∧ ServerInv P (r.serve env w).server := by
  -- The request is called on a thread that was never used, and then runs alone to its end.
  obtain ⟨n, hn⟩ := h.unused
  have hcall : Machine.Step requests g (g.setThread n (some ⟨none, r.handler⟩)) :=
    .call g n _ hmem (hn n le_rfl)
  have hothers : ∀ u, u ≠ n → (g.setThread n (some ⟨none, r.handler⟩)).thread u = g.thread u :=
    fun u hun => g.setThread_of_ne _ hun
  have hshared₀ : (g.setThread n (some ⟨none, r.handler⟩)).shared = w.server := h.servers
  have hsafe : (contract faulty P).Safe n closed r.handler w.session w.server :=
    h.session ▸ Request.safe hr
  have hself₀ :
      (g.setThread n (some ⟨none, r.handler⟩)).thread n = some ⟨w.session, r.handler⟩ := by
    rw [h.session]
    exact g.setThread_self ..
  obtain ⟨g', rest, hrun, hshared, hself, hsame, hpost, hsupplied, hinv', hfinished⟩ :=
    (serve_implements P faulty).run requests hsafe h.supplied hinv hshared₀ hself₀
      fun u th hun hu => h.idle u th ((hothers u hun).symm.trans hu)
  refine ⟨g', .head hcall hrun, ⟨hshared, hpost, hsupplied, fun u th hu => ?_, fun u th hu => ?_,
    n + 1, fun u hu => ?_⟩, hinv'⟩
  · by_cases hun : u = n
    · obtain rfl := Option.some.inj (hself.symm.trans (hun ▸ hu))
      exact hpost
    · exact h.idle u th ((hothers u hun).symm.trans ((hsame u hun).symm.trans hu))
  · by_cases hun : u = n
    · obtain rfl := Option.some.inj (hself.symm.trans (hun ▸ hu))
      exact hfinished
    · exact h.finished u th ((hothers u hun).symm.trans ((hsame u hun).symm.trans hu))
  · have hun : u ≠ n := Nat.ne_of_gt hu
    rw [hsame u hun, hothers u hun]
    exact hn u (Nat.le_of_succ_le hu)

/-- Requests one after the other take steps of the machine. -/
theorem AtRest.serveAllAmong {requests : Action Unit → Prop} (rs : List Request) {w : World}
    {g : System faulty} (h : AtRest env w g) (hinv : ServerInv P w.server)
    (hrs : ∀ r ∈ rs, r.Respects P ∧ requests r.handler) :
    ∃ g', Machine.Run requests g g' ∧ AtRest env (Leaderboards.serveAll env rs w) g' := by
  induction rs generalizing w g with
  | nil => exact ⟨g, .refl, h⟩
  | cons r rs ih =>
    obtain ⟨hr, hmem⟩ := hrs r List.mem_cons_self
    obtain ⟨g₁, hrun, h₁, hinv₁⟩ := h.serveAmong hinv hr hmem
    obtain ⟨g₂, hrun', h₂⟩ := ih h₁ hinv₁ fun r' hr' => hrs r' (List.mem_cons_of_mem _ hr')
    exact ⟨g₂, hrun.trans hrun', h₂⟩

theorem AtRest.serveAll (rs : List Request) (hrs : ∀ r ∈ rs, r.Respects P) {w : World}
    {g : System faulty} (h : AtRest env w g) (hg : System.Reachable P g) :
    ∃ g', System.Steps P g g' ∧ AtRest env (Leaderboards.serveAll env rs w) g' :=
  h.serveAllAmong rs (h.servers ▸ hg.inv) fun r hr => ⟨hrs r hr, r, hrs r hr, rfl⟩

/-- **Some requests one after the other** reach states of the runs of those requests. -/
theorem run_serveAll (env : Supply) (faulty : Prop) {requests : Action Unit → Prop}
    (rs : List Request) (hrs : ∀ r ∈ rs, requests r.handler) : ∃ g : System faulty,
      Machine.Run requests (System.initial faulty .codePoint) g ∧
      AtRest env (serveAll env rs {}) g :=
  (atRest_initial env faulty).serveAllAmong rs (System.serverInv_empty _) fun r hr =>
    ⟨r.respects_default, hrs r hr⟩

/-- **What requests reach one after the other is reachable.** -/
theorem reachable_serveAll (env : Supply) (faulty : Prop) (rs : List Request)
    (hrs : ∀ r ∈ rs, r.Respects P) : ∃ g : System faulty, System.Reachable P g ∧
      AtRest env (serveAll env rs {}) g :=
  have ⟨g, hrun, hrest⟩ := (atRest_initial env faulty).serveAll rs hrs (.initial _)
  ⟨g, ⟨_, hrun⟩, hrest⟩

/-- The supply that counts. -/
def counting : Supply where
  uuid n := n + 1
  now n := n
  snap n := n
  uuid_inj _ _ h := Nat.succ.inj h
  now_mono _ _ h := h
  snap_inj _ _ h := h

end Leaderboards
