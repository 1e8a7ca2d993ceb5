import Leaderboards.Properties.ScoreStores

/-!
# One score map behind two stores

The scores that are submitted to an accumulative board are meant to be one map from entries to
their last scores. They are kept in two stores, and the `realtime` flag of the moment selects the
one that is written and the one that a snapshot reads; a PATCH of the flag moves nothing. So what
a snapshot shows is the map of the scores that were submitted while the flag was as it is now
(`snapshot_showsScores`): the last scores of all entries exactly when those submissions include the
last ones, as far as the scores tell (**`one_score_map_iff`**).
-/

namespace Leaderboards

open Interaction Ranking Realtime

variable {env : Supply} {caller : Caller} {slug : String} {faulty : Prop}

/-! ### What has been acknowledged -/

/-- An acknowledged submission, and whether the board was realtime. -/
structure Acknowledged where
  realtime : Bool
  name : String
  score : F64
deriving DecidableEq

/-- The last score of an entry. The last submission comes first. -/
def lastScore (acks : List Acknowledged) (name : String) : Option F64 :=
  (acks.find? fun a => a.name = name).map Acknowledged.score

/-- The last score of an entry that was submitted while the flag had a value. -/
def lastScoreUnder (realtime : Bool) (acks : List Acknowledged) : String → Option F64 :=
  lastScore (acks.filter fun a => a.realtime = realtime)

theorem lastScore_cons (a : Acknowledged) (acks : List Acknowledged) (name : String) :
    lastScore (a :: acks) name = if name = a.name then some a.score else lastScore acks name := by
  rw [lastScore, List.find?_cons]
  by_cases h : a.name = name
  · simp [h]
  · simp [h, Ne.symm h, lastScore]

theorem lastScoreUnder_cons (realtime : Bool) (a : Acknowledged) (acks : List Acknowledged)
    (name : String) : lastScoreUnder realtime (a :: acks) name =
      if realtime = a.realtime ∧ name = a.name then some a.score
      else lastScoreUnder realtime acks name := by
  by_cases h : a.realtime = realtime
  · rw [lastScoreUnder, List.filter_cons_of_pos (by simpa using h), lastScore_cons]
    simp [h, lastScoreUnder]
  · rw [lastScoreUnder, List.filter_cons_of_neg (by simpa using h), if_neg fun hboth =>
      h hboth.1.symm]
    rfl

/-! ### The answers -/

/-- The answer to a snapshot shows a map of scores: one placement for each entry with a score, and
it is refused for lack of scores only when there are none. -/
def ShowsScores (scores : String → Option F64) : Except Error VersionWithPlacements → Prop
  | .ok v => (v.placements.map PlacementWithEntry.entrySlug).Nodup ∧ ∀ name score,
      (∃ p ∈ v.placements, p.entrySlug = name ∧ p.score = score) ↔
        ∃ x, score = some x ∧ scores name = some x
  | .error e => e.LacksScores → ∀ name, scores name = none

/-- The snapshot was made, or refused for lack of scores. -/
def Decides : Except Error VersionWithPlacements → Prop
  | .ok _ => True
  | .error e => e.LacksScores

theorem Decides.of_isSome {r : Except Error VersionWithPlacements}
    (h : r.toOption.isSome = true) : Decides r := by
  cases r with
  | ok v => trivial
  | error e => cases h

variable {scores scores' : String → Option F64} {r : Except Error VersionWithPlacements}

/-- **An answer shows one map at most.** -/
theorem ShowsScores.iff (h : ShowsScores scores r) (hdecides : Decides r) :
    ShowsScores scores' r ↔ ∀ name, scores name = scores' name := by
  constructor
  · intro h'
    cases r with
    | ok v =>
      intro name
      refine Option.ext fun x => ?_
      have hshown := (h.2 name (some x)).symm.trans (h'.2 name (some x))
      simpa using hshown
    | error e => exact fun name => (h hdecides name).trans (h' hdecides name).symm
  · intro heq
    rwa [← funext heq]

/-- What shows the scores as placements shows their map. -/
theorem showsScores_of_freezes {db : Database} {b : Board} {members : List (String × F64)}
    (hnames : (members.map Prod.fst).Nodup)
    (hscores : ∀ name x, (name, x) ∈ members ↔ scores name = some x)
    (h : Freezes db b members r) : ShowsScores scores r := by
  cases r with
  | ok v =>
    have hpairs := h.pairs
    have hslugs : v.placements.map PlacementWithEntry.entrySlug =
        (orderBy (frozenKey (b.sortDirection = "asc") db b.id) members).map Prod.fst := by
      have hfst := congrArg (List.map Prod.fst) hpairs
      rwa [List.map_map, List.map_map] at hfst
    refine ⟨?_, fun name score => ?_⟩
    · rw [hslugs]
      exact ((orderBy_perm _ members).map Prod.fst).nodup_iff.mpr hnames
    · have hmem : (∃ p ∈ v.placements, p.entrySlug = name ∧ p.score = score) ↔
          (name, score) ∈ v.placements.map fun p => (p.entrySlug, p.score) := by
        simp [List.mem_map]
      rw [hmem, hpairs, List.mem_map]
      constructor
      · rintro ⟨x, hx, heq⟩
        obtain ⟨rfl, rfl⟩ := Prod.mk.inj heq
        exact ⟨x.2, rfl, (hscores x.1 x.2).mp ((mem_orderBy _).mp hx)⟩
      · rintro ⟨x, rfl, hx⟩
        exact ⟨(name, x), (mem_orderBy _).mpr ((hscores name x).mpr hx), rfl⟩
  | error e =>
    intro hlacks name
    have hnil := h hlacks
    refine Option.eq_none_iff_forall_not_mem.mpr fun x hx => ?_
    have hmem := (hscores name x).mpr hx
    rw [hnil] at hmem
    exact List.not_mem_nil hmem

/-! ### Calls one after the other -/

/-- A call on the scores of a board. -/
inductive ScoreCall
  | submit (input : SubmitScore)
  | patch (input : UpdateBoard)
  | snapshot (input : SnapshotInput)

namespace ScoreCall

/-- The request of a call. -/
def request (caller : Caller) (slug : String) : ScoreCall → Request
  | .submit input => .submit caller slug input
  | .patch input => .updateBoard slug input
  | .snapshot input => .snapshot caller slug input

/-- The call does not ask for `clear_on_snapshot`. -/
def KeepsLive : ScoreCall → Prop
  | .patch input => input.clearOnSnapshot ≠ some true
  | _ => True

end ScoreCall

/-- The flag of the board of a slug. -/
def realtimeAt (slug : String) (s : Server) : Bool := (s.db.boardBySlug? slug).any Board.realtime

/-- What has been acknowledged after a call. -/
def ScoreCall.acknowledge (env : Supply) (caller : Caller) (slug : String) (w : World)
    (acks : List Acknowledged) : ScoreCall → List Acknowledged
  | .submit input =>
    match ((Routes.submit caller slug input).run (serve env) w).1 with
    | .ok _ => ⟨realtimeAt slug w.server, input.entrySlug, input.score⟩ :: acks
    | .error _ => acks
  | _ => acks

/-- The world and what has been acknowledged, after a call. -/
def ScoreCall.serve (env : Supply) (caller : Caller) (slug : String)
    (x : World × List Acknowledged) (c : ScoreCall) : World × List Acknowledged :=
  ((c.request caller slug).serve env x.1, c.acknowledge env caller slug x.1 x.2)

/-- The world and what has been acknowledged, after some calls in order. -/
def serveCalls (env : Supply) (caller : Caller) (slug : String) (calls : List ScoreCall)
    (x : World × List Acknowledged) : World × List Acknowledged :=
  calls.foldl (ScoreCall.serve env caller slug) x

/-- No score of the board is stored. -/
structure Unscored (keyPrefix : String) (b : Board) (s : Server) : Prop where
  live : s.redis (scoresKey keyPrefix b.slug) = none
  names : s.redis (entriesKey keyPrefix b.slug) = none
  table : s.db.scoresOf b.id = []

/-- **The invariant**: each store holds the last scores that were submitted under its value of the
flag. -/
structure HoldsLast (faulty : Prop) (env : Supply) (keyPrefix slug : String)
    (x : World × List Acknowledged) (b : Board) : Prop where
  rest : ∃ g : System faulty, System.At keyPrefix g ∧ AtRest env x.1 g
  row : x.1.server.db.boardBySlug? slug = some b
  clear : b.clearOnSnapshot = false
  names : NamesHash keyPrefix b x.1.server.redis
  stored : ∀ realtime n y, (n, y) ∈ StoredScores keyPrefix b x.1.server realtime ↔
    lastScoreUnder realtime x.2 n = some y

namespace HoldsLast

variable {keyPrefix : String} {x : World × List Acknowledged} {b : Board}

theorem schema (h : HoldsLast faulty env keyPrefix slug x b) : x.1.server.db.Schema := by
  obtain ⟨g, hg, hrest⟩ := h.rest
  rw [← hrest.servers]
  exact hg.reachable.inv.schema

theorem session (h : HoldsLast faulty env keyPrefix slug x b) : x.1.session = none := by
  obtain ⟨g, -, hrest⟩ := h.rest
  exact hrest.session

theorem realtimeAt_eq (h : HoldsLast faulty env keyPrefix slug x b) :
    realtimeAt slug x.1.server = b.realtime := by
  rw [realtimeAt, h.row]
  rfl

end HoldsLast

/-! ### One call keeps the invariant -/

section Step

variable {keyPrefix : String} {x : World × List Acknowledged} {b : Board} {w w₁ : World}

theorem storedScores_congr {s s' : Server} (hdb : s'.db = s.db) (hredis : s'.redis = s.redis)
    (realtime : Bool) :
    StoredScores keyPrefix b s' realtime = StoredScores keyPrefix b s realtime := by
  cases realtime
  · rw [StoredScores, StoredScores, hdb]
  · rw [StoredScores, StoredScores, hredis]

theorem LeavesScores.after_read {s : Server} (h : LeavesScores keyPrefix b w₁.server s)
    (hread : w.Reads w₁) : LeavesScores keyPrefix b w.server s where
  boards := h.boards.trans (congrArg Database.boards hread.db)
  names := h.names
  stored hdb realtime n y := by
    rw [h.stored hdb, storedScores_congr hread.db hread.redis]

theorem AddsScore.after_read {input : SubmitScore} {s : Server}
    (h : AddsScore keyPrefix b input w₁.server s) (hread : w.Reads w₁) :
    AddsScore keyPrefix b input w.server s where
  boards := h.boards.trans (congrArg Database.boards hread.db)
  names := h.names
  stored hdb realtime n y := by
    rw [h.stored hdb, storedScores_congr hread.db hread.redis]

/-- **`routes::scores::submit`**: an acknowledged submission is in the store of the moment. -/
theorem ends_submit (h : HoldsLast faulty env caller.keyPrefix slug x b) (input : SubmitScore) :
    (Routes.submit caller slug input).Ends env (Prog.outcome
      (fun _ w' => AddsScore caller.keyPrefix b input x.1.server w'.server)
      fun _ w' => LeavesScores caller.keyPrefix b x.1.server w'.server) x.1 := by
  obtain ⟨g, hg, hrest⟩ := h.rest
  -- The working set is one of scores: nothing else was ever stored under the key.
  have hscores : x.1.server.redis.IsScores (scoresKey caller.keyPrefix b.slug) := by
    rw [← hrest.servers]
    exact hg.scores b.slug
  unfold Routes.submit
  refine ends_found h.session h.row fun w₁ h₁ => ?_
  have hdb₁ : w₁.server.db.Schema := by
    rw [h₁.db]
    exact h.schema
  have hnames₁ : NamesHash caller.keyPrefix b w₁.server.redis := by
    rw [h₁.redis]
    exact h.names
  split
  · rename_i hrealtime
    refine Prog.ends_failIf (fun _ => ?_) fun _ => ?_
    · exact LeavesScores.of_eq h.names h₁.db h₁.redis
    · rw [← h₁.redis] at hscores
      refine (ends_submitLive hdb₁ hnames₁ hscores hrealtime h₁.session' input).mono
        fun r w₂ hr => ?_
      rcases r with e | _
      · exact LeavesScores.after_read hr h₁
      · exact AddsScore.after_read hr h₁
  · rename_i hrealtime
    refine Prog.ends_bind ((ends_submitScore hdb₁ hnames₁ (by simpa using hrealtime) input).mono
      fun r w₂ hr => ?_)
    rcases r with e | _
    · exact LeavesScores.after_read hr h₁
    · exact AddsScore.after_read hr h₁

/-- **`routes::scores::snapshot`** leaves the scores alone. -/
theorem ends_snapshot (h : HoldsLast faulty env keyPrefix slug x b) (input : SnapshotInput) :
    (Routes.snapshot caller slug input).Ends env
      (fun _ w' => LeavesScores keyPrefix b x.1.server w'.server) x.1 := by
  have hsame :
      (Routes.snapshot caller slug input).Ends env (fun _ w' => x.1.SameScores w') x.1 := by
    unfold Routes.snapshot
    refine ends_found h.session h.row fun w₁ h₁ => ?_
    have hview₁ : w₁.view = x.1.server.db := by
      rw [World.view, h₁.session']
      exact h₁.db
    have hstart : x.1.SameScores w₁ :=
      ⟨⟨congrArg _ h₁.db, congrArg _ h₁.db, congrArg _ h₁.db⟩,
        ⟨congrArg _ hview₁, congrArg _ hview₁, congrArg _ hview₁⟩, h₁.redis⟩
    split
    · exact Prog.ends_failIf (fun _ => hstart) fun _ =>
        ends_ofSnapshot (ofSnapshot_live h.clear _ _ _ _) hstart
    · exact ends_ofSnapshot (ofSnapshot_scores _ _ _ _) hstart
  exact hsame.mono fun _ w' hw' => LeavesScores.of_same h.schema h.names hw'

/-- What holds after a call holds when its answer is dropped. -/
theorem ends_discard {α : Type} {p : Action α} {P : World → Prop}
    (h : p.Ends env (fun _ w' => P w') w) : P (p.discard.run (serve env) w).2 := by
  have hends : p.discard.Ends env (fun _ w' => P w') w := by
    refine Prog.ends_bind (h.mono fun r w' hw' => ?_)
    rcases r with e | a
    · exact hw'
    · exact hw'
  exact hends

/-- Nothing is sent to Redis. -/
def Cmd.NoRedis : Cmd → Prop
  | .redis _ => False
  | _ => True

theorem ends_noRedis {α : Type} {p : Action α} (hp : p.Uses Cmd.NoRedis) :
    p.Ends env (fun _ w' => w'.server.redis = w.server.redis) w := by
  induction p generalizing w with
  | ret a => rfl
  | fail e => rfl
  | op c k ih =>
    obtain ⟨hc, hk⟩ := hp
    refine (ih _ (hk _)).mono fun _ w' hw' => hw'.trans ?_
    obtain ⟨server, session, tick⟩ := w
    cases c with
    | commit => cases session <;> rfl
    | redis c => exact hc.elim
    | sql q =>
      cases session <;> simp only [serve, serveSql] <;> split <;> rfl
    | _ => rfl

/-- The board row after a PATCH. -/
structure PatchedRow (b b' : Board) (s s' : Server) : Prop where
  id : b'.id = b.id
  slug : b'.slug = b.slug
  mem : b' ∈ s'.db.boards
  entries : s'.db.entries = s.db.entries
  scores : s'.db.accumulatedScores = s.db.accumulatedScores

/-- **`routes::boards::update`** changes the board row only. -/
theorem ends_patch (h : HoldsLast faulty env keyPrefix slug x b) {input : UpdateBoard}
    (hclear : input.clearOnSnapshot ≠ some true) :
    (Routes.updateBoard slug input).Ends env (fun _ w' => w'.server.redis = x.1.server.redis ∧
      ∃ b', b'.clearOnSnapshot = false ∧ PatchedRow b b' x.1.server w'.server) x.1 := by
  have hmem := (Database.mem_of_boardBySlug? h.row).1
  have hnothing : ∀ w', x.1.Saves w' [] → ∃ b', b'.clearOnSnapshot = false ∧
      PatchedRow b b' x.1.server w'.server := by
    intro w' hw'
    have hdb : w'.server.db = x.1.server.db := hw'.db
    exact ⟨b, h.clear, rfl, rfl, hdb ▸ hmem, congrArg _ hdb, congrArg _ hdb⟩
  -- A PATCH of a board sends nothing to Redis; what it does to the row is a matter of the tables.
  have hredis : (Routes.updateBoard slug input).Ends env
      (fun _ w' => w'.server.redis = x.1.server.redis) x.1 := by
    refine ends_noRedis ?_
    unfold Routes.updateBoard
    split
    · exact Prog.uses_bind (uses_sql trivial) fun _ => uses_okOr _ _
    · exact uses_check fun _ => uses_transaction trivial trivial trivial <|
        Prog.uses_bind (uses_sql trivial) fun _ => uses_row fun _ => uses_check fun _ =>
        uses_sql trivial
  have hrow : (Routes.updateBoard slug input).Ends env (fun _ w' => ∃ b',
      b'.clearOnSnapshot = false ∧ PatchedRow b b' x.1.server w'.server) x.1 := by
    unfold Routes.updateBoard
    split
    · refine ends_getBySlug h.session (fun hnone => ?_) fun _ _ w' hw' => hnothing w' hw'
      cases hnone.symm.trans h.row
    · refine ends_updateBoard h.session h.row (h.schema.board?_eq hmem)
        (h.schema.board_checks b hmem) (fun e _ w' hw' => hnothing w' hw') fun now _ _ w' hw' => ?_
      have hdb : w'.server.db = x.1.server.db.setBoard (input.patch now b) := hw'.db
      refine ⟨input.patch now b, ?_, rfl, rfl, ?_, by rw [hdb]; rfl, by rw [hdb]; rfl⟩
      · have hflag : (input.patch now b).clearOnSnapshot =
            input.clearOnSnapshot.getD b.clearOnSnapshot := rfl
        rw [hflag]
        rcases hinput : input.clearOnSnapshot with _ | clear
        · exact h.clear
        · cases clear
          · rfl
          · exact absurd hinput hclear
      · rw [hdb]
        exact Database.mem_setBoard_boards.mpr (.inr ⟨rfl, b, hmem, rfl⟩)
  exact ⟨hredis, hrow⟩

/-- What the invariant needs of the scores, once a call has been served. -/
theorem HoldsLast.after {x' : World × List Acknowledged}
    (h : HoldsLast faulty env keyPrefix slug x b)
    (hrest : ∃ g : System faulty, System.At keyPrefix g ∧ AtRest env x'.1 g)
    (hboards : x'.1.server.db.boards = x.1.server.db.boards)
    (hnames : NamesHash keyPrefix b x'.1.server.redis)
    (hstored : ∀ realtime n y, (n, y) ∈ StoredScores keyPrefix b x'.1.server realtime ↔
      lastScoreUnder realtime x'.2 n = some y) : HoldsLast faulty env keyPrefix slug x' b where
  rest := hrest
  row := by
    rw [Database.boardBySlug?, hboards]
    exact h.row
  clear := h.clear
  names := hnames
  stored := hstored

/-- **One call keeps the invariant.** -/
theorem HoldsLast.call (h : HoldsLast faulty env caller.keyPrefix slug x b) {c : ScoreCall}
    (hc : c.KeepsLive) : ∃ b', HoldsLast faulty env caller.keyPrefix slug
      (c.serve env caller slug x) b' := by
  obtain ⟨g, hg, hrest⟩ := h.rest
  have hat : (c.request caller slug).At caller.keyPrefix := by
    cases c <;> simp [ScoreCall.request, Request.At, Request.caller?]
  have hdeployed : Deployed caller.keyPrefix (c.request caller slug).handler := ⟨_, hat, rfl⟩
  obtain ⟨g', hrun, hrest', hinv'⟩ := hrest.serveAmong (hrest.servers ▸ hg.reachable.inv)
    (c.request caller slug).respects_default hdeployed
  have hrest'' : ∃ g : System faulty, System.At caller.keyPrefix g ∧
      AtRest env (c.serve env caller slug x).1 g := ⟨g', hg.run hrun, hrest'⟩
  have hdb' : (c.serve env caller slug x).1.server.db.Schema := hinv'.schema
  cases c with
  | submit input =>
    have hends := ends_submit h input
    refine ⟨b, ?_⟩
    have hworld : (ScoreCall.serve env caller slug x (.submit input)).1 =
        ((Routes.submit caller slug input).run (serve env) x.1).2 := rfl
    have hacks : (ScoreCall.serve env caller slug x (.submit input)).2 =
        match ((Routes.submit caller slug input).run (serve env) x.1).1 with
        | .ok _ => ⟨realtimeAt slug x.1.server, input.entrySlug, input.score⟩ :: x.2
        | .error _ => x.2 := rfl
    unfold Action.Ends Prog.Ends at hends
    rw [hworld] at hdb'
    rcases hresult : ((Routes.submit caller slug input).run (serve env) x.1).1 with e | _
    -- A refused submission is not acknowledged and leaves the scores alone.
    · rw [hresult] at hends hacks
      refine h.after hrest'' hends.boards hends.names fun realtime n y => ?_
      rw [hacks, hworld, hends.stored hdb', h.stored]
    · rw [hresult] at hends hacks
      refine h.after hrest'' hends.boards hends.names fun realtime n y => ?_
      rw [hacks, hworld, hends.stored hdb', h.stored, lastScoreUnder_cons, h.realtimeAt_eq]
      split
      · rw [Option.some.injEq, eq_comm]
      · rfl
  | snapshot input =>
    have hends : LeavesScores caller.keyPrefix b x.1.server
        (ScoreCall.serve env caller slug x (.snapshot input)).1.server :=
      ends_discard (ends_snapshot h input)
    refine ⟨b, h.after hrest'' hends.boards hends.names fun realtime n y => ?_⟩
    exact (hends.stored hdb' realtime n y).trans (h.stored realtime n y)
  | patch input =>
    obtain ⟨hredis, b', hclear, hpatched⟩ := ends_discard (ends_patch h hc)
    have hslug := (Database.mem_of_boardBySlug? h.row).2
    refine ⟨b', hrest'', ?_, hclear, ?_, fun realtime n y => ?_⟩
    · have hfound := hdb'.boardBySlug?_eq hpatched.mem
      rwa [hpatched.slug, hslug] at hfound
    · intro v hv
      rw [hpatched.slug] at hv
      exact h.names v (hredis ▸ hv)
    · refine Iff.trans ?_ (h.stored realtime n y)
      cases realtime with
      | true =>
        rw [StoredScores, StoredScores, hpatched.slug]
        exact hredis ▸ Iff.rfl
      | false =>
        rw [StoredScores, StoredScores, hpatched.id]
        exact mem_tableScores_same h.schema hdb' (KeepsEntries.of_eq hpatched.entries)
          hpatched.scores

/-- **Some calls keep the invariant.** -/
theorem HoldsLast.calls {calls : List ScoreCall}
    (h : HoldsLast faulty env caller.keyPrefix slug x b) (hcalls : ∀ c ∈ calls, c.KeepsLive) :
    ∃ b', HoldsLast faulty env caller.keyPrefix slug (serveCalls env caller slug calls x) b' := by
  induction calls generalizing x b with
  | nil => exact ⟨b, h⟩
  | cons c calls ih =>
    obtain ⟨b', h'⟩ := h.call (hcalls c List.mem_cons_self)
    exact ih h' fun c' hc' => hcalls c' (List.mem_cons_of_mem c hc')

/-- The invariant of a board without scores. -/
theorem HoldsLast.start {g : System faulty} (hg : System.At keyPrefix g) (hrest : AtRest env w g)
    (hb : w.server.db.boardBySlug? slug = some b) (hclear : b.clearOnSnapshot = false)
    (hnone : Unscored keyPrefix b w.server) : HoldsLast faulty env keyPrefix slug (w, []) b where
  rest := ⟨g, hg, hrest⟩
  row := hb
  clear := hclear
  names v hv := by cases hnone.names.symm.trans hv
  stored realtime n y := by
    have hempty : StoredScores keyPrefix b w.server realtime = [] := by
      cases realtime
      · rw [StoredScores, Database.tableScores, Database.scoreRows, hnone.table]
        rfl
      · rw [StoredScores, Redis.members, hnone.live]
        rfl
    rw [hempty]
    simp [lastScoreUnder, lastScore]

/-! ### What a snapshot shows -/

/-- **A snapshot shows the scores that were submitted under the flag of the moment.** -/
theorem snapshot_showsScores (h : HoldsLast faulty env caller.keyPrefix slug x b)
    (input : SnapshotInput) : (Routes.snapshot caller slug input).Ends env
      (fun r _ => ShowsScores (lastScoreUnder (realtimeAt slug x.1.server) x.2) r) x.1 := by
  obtain ⟨g, hg, hrest⟩ := h.rest
  have hdistinct : x.1.server.redis.Distinct := by
    rw [← hrest.servers]
    exact hg.reachable.redis_distinct
  have hrow := h.schema.board?_eq (Database.mem_of_boardBySlug? h.row).1
  rw [h.realtimeAt_eq]
  -- It reads the store that the flag names at the moment, and each name there once.
  have hshows : ∀ realtime, b.realtime = realtime →
      ((StoredScores caller.keyPrefix b x.1.server realtime).map Prod.fst).Nodup →
      ∀ r, Freezes x.1.server.db b (StoredScores caller.keyPrefix b x.1.server realtime) r →
      ShowsScores (lastScoreUnder b.realtime x.2) r := by
    rintro _ rfl hnames r hr
    exact showsScores_of_freezes hnames (h.stored b.realtime) hr
  unfold Routes.snapshot
  refine ends_found h.session h.row fun w₁ h₁ => ?_
  have hdb₁ : w₁.server.db.Schema := by
    rw [h₁.db]
    exact h.schema
  rw [← h₁.db] at hrow
  split
  · rename_i hrealtime
    refine Prog.ends_failIf (fun _ hlacks => ?_) fun _ => ?_
    · rcases hlacks with heq | heq <;> cases heq
    · rw [← h₁.redis] at hdistinct
      refine (liveSnapshot_freezes hdb₁ hrow h.clear hdistinct _ _ _ _).mono fun r _ hr => ?_
      refine hshows true hrealtime ?_ r ?_
      · rw [StoredScores, ← h₁.redis]
        exact hdistinct _
      · rwa [h₁.db, h₁.redis] at hr
  · rename_i hrealtime
    refine (scoresSnapshot_freezes hdb₁ hrow _ _ _ _).mono fun r _ hr => ?_
    rw [h₁.db] at hr
    exact hshows false (by simpa using hrealtime) (h.schema.tableScores_nodup b.id) r hr

/-- **One score map.** Take a board without scores that keeps its live scores, and any sequence of
submissions, PATCHes and snapshots of it. The next snapshot that is made, or refused for lack of
scores, shows the last scores of all entries exactly when every entry has the same last score among
the submissions that were acknowledged while `realtime` was as it is now. -/
theorem one_score_map_iff {g : System faulty} (hg : System.At caller.keyPrefix g)
    (hrest : AtRest env w g) (hb : w.server.db.boardBySlug? slug = some b)
    (hclear : b.clearOnSnapshot = false) (hnone : Unscored caller.keyPrefix b w.server)
    {calls : List ScoreCall} (hcalls : ∀ c ∈ calls, c.KeepsLive) (input : SnapshotInput)
    (hdecides : Decides (((Routes.snapshot caller slug input).run (serve env)
      (serveCalls env caller slug calls (w, [])).1).1)) :
    ShowsScores (lastScore (serveCalls env caller slug calls (w, [])).2)
        ((Routes.snapshot caller slug input).run (serve env)
          (serveCalls env caller slug calls (w, [])).1).1 ↔
      ∀ name, lastScoreUnder (realtimeAt slug (serveCalls env caller slug calls (w, [])).1.server)
          (serveCalls env caller slug calls (w, [])).2 name =
        lastScore (serveCalls env caller slug calls (w, [])).2 name := by
  obtain ⟨b', h⟩ := (HoldsLast.start hg hrest hb hclear hnone).calls hcalls
  exact ShowsScores.iff (snapshot_showsScores h input) hdecides

end Step

/-- An accumulative board. -/
def createAccumulative : Request := .createBoard
  { slug := "b", name := "B", boardType := "scored", accumulative := true }

/-- The world after its creation. -/
def accumulativeWorld : World := serveAll counting [createAccumulative] {}

set_option maxRecDepth 10000 in
/-- The world is at rest in a state of a run, and no score of the board is stored. -/
theorem exists_accumulative : ∃ (g : System False) (b : Board), System.At "rl" g ∧
    AtRest counting accumulativeWorld g ∧ accumulativeWorld.server.db.boardBySlug? "b" = some b ∧
      b.accumulative = true ∧ b.clearOnSnapshot = false ∧
      Unscored "rl" b accumulativeWorld.server := by
  have hrs : ∀ r ∈ [createAccumulative], Deployed "rl" r.handler := by
    intro r hr
    obtain rfl := List.mem_singleton.mp hr
    exact ⟨createAccumulative, by simp [createAccumulative, Request.At, Request.caller?], rfl⟩
  obtain ⟨g, hrun, hrest⟩ := run_serveAll counting False _ hrs
  have hstate : ∃ b ∈ accumulativeWorld.server.db.boardBySlug? "b",
      b.accumulative = true ∧ b.clearOnSnapshot = false ∧
      accumulativeWorld.server.redis (scoresKey "rl" b.slug) = none ∧
      accumulativeWorld.server.redis (entriesKey "rl" b.slug) = none ∧
      accumulativeWorld.server.db.scoresOf b.id = [] := by decide
  obtain ⟨b, hb, haccumulative, hclear, hlive, hnames, htable⟩ := hstate
  exact ⟨g, b, System.at_initial.run hrun, hrest, hb, haccumulative, hclear, hlive, hnames, htable⟩

/-- The calls of a board that becomes realtime between two submissions to the same entry. -/
def switchedCalls : List ScoreCall :=
  [.submit ⟨"e", "E", ⟨1⟩⟩, .patch { realtime := some true }, .submit ⟨"e", "E", ⟨2⟩⟩]

/-- The calls of a board that becomes realtime after a submission. -/
def strandedCalls : List ScoreCall :=
  [.submit ⟨"e", "E", ⟨1⟩⟩, .patch { realtime := some true }]

set_option maxRecDepth 10000 in
theorem switched_evaluates :
    (serveCalls counting {} "b" switchedCalls (accumulativeWorld, [])).2 =
        [⟨true, "e", ⟨2⟩⟩, ⟨false, "e", ⟨1⟩⟩] ∧
      realtimeAt "b" (serveCalls counting {} "b" switchedCalls (accumulativeWorld, [])).1.server =
        true ∧
      ((Routes.snapshot {} "b" {}).run (serve counting)
        (serveCalls counting {} "b" switchedCalls (accumulativeWorld, [])).1).1.toOption.isSome =
        true := by
  decide

set_option maxRecDepth 10000 in
theorem stranded_evaluates :
    (serveCalls counting {} "b" strandedCalls (accumulativeWorld, [])).2 =
        [⟨false, "e", ⟨1⟩⟩] ∧
      ((Routes.snapshot {} "b" {}).run (serve counting)
        (serveCalls counting {} "b" strandedCalls (accumulativeWorld, [])).1).1 =
        .error noScores := by
  decide

/-- A board becomes realtime between two submissions to the same entry: the snapshot shows the last
score. -/
theorem one_score_map_run : lastScore [⟨true, "e", ⟨2⟩⟩, ⟨false, "e", ⟨1⟩⟩] "e" = some ⟨2⟩ ∧
    ShowsScores (lastScore (serveCalls counting {} "b" switchedCalls (accumulativeWorld, [])).2)
      ((Routes.snapshot {} "b" {}).run (serve counting)
        (serveCalls counting {} "b" switchedCalls (accumulativeWorld, [])).1).1 := by
  obtain ⟨g, b, hg, hrest, hb, -, hclear, hnone⟩ := exists_accumulative
  obtain ⟨hacks, hflag, hmade⟩ := switched_evaluates
  have hcalls : ∀ c ∈ switchedCalls, c.KeepsLive := by
    simp [switchedCalls, ScoreCall.KeepsLive]
  have hg' : System.At (Caller.keyPrefix {}) g := hg
  have hshows := one_score_map_iff hg' hrest hb hclear hnone hcalls {} (.of_isSome hmade)
  refine ⟨rfl, hshows.mpr fun name => ?_⟩
  rw [hacks, hflag]
  by_cases hname : name = "e"
  · subst hname
    rfl
  · simp [lastScoreUnder, lastScore, Ne.symm hname]

/-- A board becomes realtime after a submission: the snapshot is refused for lack of scores. -/
theorem one_score_map_fails : ∃ (g : System False) (w : World) (b : Board),
    System.At "rl" g ∧ AtRest counting w g ∧ w.server.db.boardBySlug? "b" = some b ∧
      b.accumulative = true ∧ b.clearOnSnapshot = false ∧ Unscored "rl" b w.server ∧
      ∃ calls : List ScoreCall, (∀ c ∈ calls, c.KeepsLive) ∧
        lastScore (serveCalls counting {} "b" calls (w, [])).2 "e" = some ⟨1⟩ ∧
        ((Routes.snapshot {} "b" {}).run (serve counting)
          (serveCalls counting {} "b" calls (w, [])).1).1 = .error noScores := by
  obtain ⟨g, b, hg, hrest, hb, haccumulative, hclear, hnone⟩ := exists_accumulative
  obtain ⟨hacks, hrefused⟩ := stranded_evaluates
  have hcalls : ∀ c ∈ strandedCalls, c.KeepsLive := by
    simp [strandedCalls, ScoreCall.KeepsLive]
  refine ⟨g, accumulativeWorld, b, hg, hrest, hb, haccumulative, hclear, hnone, strandedCalls,
    hcalls, ?_, hrefused⟩
  rw [hacks]
  rfl

end Leaderboards
