import Leaderboards.Properties.LiveEntries
import Leaderboards.Properties.LiveNames
import Leaderboards.Properties.SnapshotAnswers

/-!
# Live standings and snapshots

`realtime::latest` ranks the live scores as Redis returns them, equal scores by name, and shows
the names of the Redis hash. `realtime::snapshot` ranks the same scores as SQL does, equal scores
by entry id, and shows the names of the entry rows. Both are lists of `lines`
(`latest_lines`, `snapshot_lines`); the first could lack a score whose name is not in the hash, but
in every reachable state all live scores have names (`Reachable.redis_named`). The lists are the
same exactly when the names agree and the names of equal scores are ordered as their entry ids
(`live_standings_agree`).
-/

namespace Leaderboards

open Interaction Ranking Realtime

variable {keyPrefix : String} {faulty : Prop} {env : Supply} {s : Server} {b : Board}

/-! ### The live standings -/

/-- The fields of a hash. -/
def Redis.fields (r : Redis) (key : String) : List (String × String) := hashFields (r key)

/-- The name that the live standings show for a slug. -/
def liveName (r : Redis) (key slug : String) : String :=
  (((r.fields key).find? fun f => f.1 = slug).map Prod.snd).getD slug

/-- The live scores in the order of the standings. -/
def liveOrder (asc : Bool) (ms : List (String × F64)) : List (String × F64) :=
  if asc then orderBy memberKey ms else (orderBy memberKey ms).reverse

theorem mem_liveOrder {asc : Bool} {ms : List (String × F64)} {x : String × F64} :
    x ∈ liveOrder asc ms ↔ x ∈ ms := by
  cases asc <;> simp [liveOrder]

theorem readHash_reply {r : Redis} {key : String} {slugs : List String}
    {names : List (Option String)} (h : (execRedis (.hget key slugs) r).1 = .ok names) :
    names = readHash.hashReply
      (slugs.map fun slug => ((r.fields key).find? fun f => f.1 = slug).map Prod.snd) := by
  simp only [execRedis, readHash] at h
  split at h
  · rename_i hkey
    cases h
    simp [Redis.fields, hashFields, hkey]
  · rename_i content hkey
    cases h
    simp [Redis.fields, hashFields, hkey]
  · cases h

theorem hashReply_of_ne_none {values : List (Option String)} (h : ∀ v ∈ values, v ≠ none) :
    readHash.hashReply values = values := by
  unfold readHash.hashReply
  split
  · exact absurd rfl (h none (List.mem_singleton_self _))
  · rfl

/-- A read of fields that are all there answers each with its value. -/
theorem readHash_ok {r : Redis} {key : String} {slugs : List String} {names : List (Option String)}
    (hfields : ∀ slug ∈ slugs, r.HasField key slug)
    (h : (execRedis (.hget key slugs) r).1 = .ok names) :
    names = slugs.map fun slug => ((r.fields key).find? fun f => f.1 = slug).map Prod.snd := by
  refine (readHash_reply h).trans (hashReply_of_ne_none fun v hv => ?_)
  obtain ⟨slug, hslug, rfl⟩ := List.mem_map.mp hv
  obtain ⟨value, hvalue⟩ := hfields slug hslug
  have hfound : ((r.fields key).find? fun f => f.1 = slug).isSome = true :=
    List.find?_isSome.mpr ⟨_, hvalue, decide_eq_true rfl⟩
  rw [Ne, Option.map_eq_none_iff]
  exact Option.isSome_iff_ne_none.mp hfound

/-- **What `realtime::latest` shows**, when all live scores have names. -/
theorem latest_lines {l : VersionWithPlacements} (hnamed : s.redis.Named)
    (h : respond env s (Realtime.latest b keyPrefix) = .ok l) :
    l.placements.map PlacementWithEntry.line =
      lines (liveName s.redis (entriesKey keyPrefix b.slug))
        (liveOrder (b.sortDirection = "asc") (s.redis.members (scoresKey keyPrefix b.slug))) := by
  -- What follows the read of the scores.
  let rest : List (String × F64) → Action VersionWithPlacements := fun ms => do
    let names ←
      if ms = [] then pure []
      else Action.redis (.hget (entriesKey keyPrefix b.slug) (ms.map Prod.fst)) "Redis error"
    return { version := { id := 0, boardId := b.id, versionNumber := 0, note := none
                          metadata := none, createdAt := 0 }
             placements := (ms.zip names).zipIdx.map standing }
  let shows : List (String × F64) → Except Error VersionWithPlacements → World → Prop :=
    fun ms r _ => ∀ l, r = .ok l → l.placements.map PlacementWithEntry.line =
      lines (liveName s.redis (entriesKey keyPrefix b.slug)) ms
  have hrest : ∀ ms (w : World),
      ms = liveOrder (b.sortDirection = "asc") (s.redis.members (scoresKey keyPrefix b.slug)) →
      w.server.redis = s.redis → (rest ms).Ends env (shows ms) w := by
    intro ms w hms hredis
    have hfields : ∀ slug ∈ ms.map Prod.fst,
        s.redis.HasField (entriesKey keyPrefix b.slug) slug := by
      intro slug hslug
      obtain ⟨x, hx, rfl⟩ := List.mem_map.mp hslug
      exact (hnamed keyPrefix b.slug).named x.1 ⟨x.2, mem_liveOrder.mp (hms ▸ hx)⟩
    simp only [rest]
    split
    · rename_i hnil
      subst hnil
      rintro l hl
      cases hl
      rfl
    · refine ends_redis (fun e w' _ l hl => nomatch hl) fun names w' hnames _ l hl => ?_
      rw [hredis] at hnames
      cases hl
      have hzip : ms.zip names = ms.map fun x => (x, ((s.redis.fields
          (entriesKey keyPrefix b.slug)).find? fun f => f.1 = x.1).map Prod.snd) := by
        rw [List.map_prod_left_eq_zip, readHash_ok hfields hnames, List.map_map]
        rfl
      rw [hzip, List.zipIdx_map, List.map_map, List.map_map, lines]
      rfl
  have hends : (Realtime.latest b keyPrefix).Ends env
      (shows (liveOrder (b.sortDirection = "asc")
        (s.redis.members (scoresKey keyPrefix b.slug)))) { server := s } := by
    unfold Realtime.latest
    dsimp only
    split
    · rename_i hasc
      refine ends_redis (fun e w' _ l hl => nomatch hl) fun ms w' hms h => ?_
      have horder : liveOrder (b.sortDirection = "asc")
          (s.redis.members (scoresKey keyPrefix b.slug)) = ms := by
        rw [liveOrder, if_pos (by simpa using hasc), readZset_ok hms]
      rw [horder]
      exact hrest ms w' horder.symm h.redis
    · rename_i hdesc
      refine ends_redis (fun e w' _ l hl => nomatch hl) fun ms w' hms h => ?_
      have horder : liveOrder (b.sortDirection = "asc")
          (s.redis.members (scoresKey keyPrefix b.slug)) = ms := by
        rw [liveOrder, if_neg (by simpa using hdesc), zrevrange_ok hms]
      rw [horder]
      exact hrest ms w' horder.symm h.redis
  exact hends l h

/-! ### Where they agree -/

/-- The names in Redis are the names of the entry rows. -/
def NamesAgree (keyPrefix : String) (s : Server) (b : Board) : Prop :=
  ∀ e ∈ s.db.entriesOf b.id, s.redis.Has (scoresKey keyPrefix b.slug) e.slug →
    liveName s.redis (entriesKey keyPrefix b.slug) e.slug = e.name

/-- Entries with equal live scores have ids in the order in which Redis returns them. -/
def TiesAgree (keyPrefix : String) (s : Server) (b : Board) : Prop :=
  ∀ e ∈ s.db.entriesOf b.id, ∀ e' ∈ s.db.entriesOf b.id, ∀ x x' : F64,
    (e.slug, x) ∈ s.redis.members (scoresKey keyPrefix b.slug) →
    (e'.slug, x') ∈ s.redis.members (scoresKey keyPrefix b.slug) → x.sqlKey = x'.sqlKey →
    ((if b.sortDirection = "asc" then e.slug < e'.slug else e'.slug < e.slug) ↔ e.id < e'.id)

theorem frozenKey_lt {asc : Bool} {db : Database} {boardId : Uuid} {x y : String × F64} :
    frozenKey asc db boardId x < frozenKey asc db boardId y ↔
      (if asc = true then x.2.sqlKey < y.2.sqlKey else y.2.sqlKey < x.2.sqlKey) ∨
        x.2.sqlKey = y.2.sqlKey ∧ (db.entryOf boardId x.1).1 < (db.entryOf boardId y.1).1 := by
  simp only [frozenKey, pairKey, frozenPair, Prod.Lex.toLex_lt_toLex, lt_irrefl, true_and, false_or]
  cases asc <;> simp

/-- Both orders go by the score first, so they are the same when they agree on equal scores. -/
theorem liveOrder_eq_iff {asc : Bool} {db : Database} {boardId : Uuid}
    {ms : List (String × F64)} (hnames : (ms.map Prod.fst).Nodup)
    (hids : (ms.map fun x => (db.entryOf boardId x.1).1).Nodup) :
    liveOrder asc ms = orderBy (frozenKey asc db boardId) ms ↔
      ∀ x ∈ ms, ∀ y ∈ ms, x.2.sqlKey = y.2.sqlKey → ((if asc = true then x.1 < y.1 else y.1 < x.1) ↔
        (db.entryOf boardId x.1).1 < (db.entryOf boardId y.1).1) := by
  have hmember : (ms.map memberKey).Nodup := by
    refine List.Nodup.of_map (fun k => (ofLex k).2) ?_
    rw [List.map_map]
    exact hnames
  have hfrozen := frozenKey_nodup asc hids
  -- On equal scores only the second component counts.
  have hpair : ∀ (p e a c : Prop), (e → ¬p) → ((p ∨ e ∧ a ↔ p ∨ e ∧ c) ↔ (e → (a ↔ c))) := by
    intro p e a c hexcl
    by_cases he : e
    · simp [he, hexcl he]
    · simp [he]
  unfold liveOrder
  cases asc with
  | true =>
    rw [if_pos rfl, orderBy_eq_orderBy_iff _ _ hmember hfrozen]
    refine forall₂_congr fun x _ => forall₂_congr fun y _ => ?_
    rw [frozenKey_lt, memberKey, memberKey, Prod.Lex.toLex_lt_toLex]
    simp only [if_true]
    exact hpair _ _ _ _ fun he hlt => absurd he hlt.ne
  | false =>
    rw [if_neg (by simp), reverse_orderBy _ hmember,
      orderBy_eq_orderBy_iff _ _ (List.Nodup.of_map OrderDual.ofDual ?_) hfrozen]
    · refine forall₂_congr fun x _ => forall₂_congr fun y _ => ?_
      rw [frozenKey_lt, OrderDual.toDual_lt_toDual, memberKey, memberKey, Prod.Lex.toLex_lt_toLex]
      simp only [Bool.false_eq_true, if_false]
      rw [eq_comm (a := y.2.sqlKey)]
      exact hpair _ _ _ _ fun he hlt => absurd he.symm hlt.ne
    · rw [List.map_map]
      exact hmember

/-- **The live standings agree with the snapshot exactly when the names agree and equal scores
are ordered as the entry ids**, in every reachable state. -/
theorem live_standings_agree {g : System faulty} (hg : System.At keyPrefix g)
    (hb : b ∈ g.servers.db.boards) (hclear : b.clearOnSnapshot = false) {env env' : Supply}
    {note : Option String} {metadata : Option Json} {maxVersions : Option ℤ}
    {maxEntries : Option ℕ} {l v : VersionWithPlacements}
    (hlatest : respond env g.servers (Realtime.latest b keyPrefix) = .ok l)
    (hsnapshot : respond env' g.servers
      (Realtime.snapshot b note metadata keyPrefix maxVersions maxEntries) = .ok v) :
    l.placements.map PlacementWithEntry.line = v.placements.map PlacementWithEntry.line ↔
      NamesAgree keyPrefix g.servers b ∧ TiesAgree keyPrefix g.servers b := by
  have hdb : g.servers.db.Schema := hg.reachable.inv.schema
  have hdistinct : g.servers.redis.Distinct := hg.reachable.redis_distinct
  have hshows := snapshot_lines hdb (hdb.board?_eq hb) hclear hdistinct hsnapshot
  have hids := frozenIds_nodup hdb (hdistinct _) hshows.found
  rw [latest_lines hg.reachable.redis_named hlatest, hshows.lines, lines_eq_iff,
    liveOrder_eq_iff (hdistinct (scoresKey keyPrefix b.slug)) hids, and_comm]
  simp only [mem_liveOrder, decide_eq_true_eq]
  -- Every live name has its entry, so both conditions can be said of entries.
  refine and_congr ⟨fun h e he hhas => ?_, fun h x hx => ?_⟩
    ⟨fun h e he e' he' x x' hx hx' heq => ?_, fun h x hx y hy heq => ?_⟩
  · obtain ⟨x, hx⟩ := hhas
    rw [h _ hx, hdb.entryOf_eq he]
  · obtain ⟨e, he, hslug⟩ := hshows.found x hx
    rw [← hslug, hdb.entryOf_eq he]
    exact h e he ⟨x.2, hslug ▸ hx⟩
  · have hiff := h _ hx _ hx' heq
    rwa [hdb.entryOf_eq he, hdb.entryOf_eq he'] at hiff
  · obtain ⟨e, he, hslug⟩ := hshows.found x hx
    obtain ⟨e', he', hslug'⟩ := hshows.found y hy
    have hiff := h e he e' he' x.2 y.2 (hslug ▸ hx) (hslug' ▸ hy) heq
    rw [hslug, hslug'] at hiff
    rw [hiff, ← hslug, ← hslug', hdb.entryOf_eq he, hdb.entryOf_eq he']

/-- A realtime board with two live scores, the second as given. -/
def liveRequests (score : F64) : List Request :=
  [createRealtime, .submit {} "b" ⟨"e", "E", ⟨1⟩⟩, .submit {} "b" ⟨"f", "F", score⟩]

theorem liveRequests_deployed (score : F64) :
    ∀ r ∈ liveRequests score, Deployed "rl" r.handler := by
  intro r hr
  refine ⟨r, ?_, rfl⟩
  simp only [liveRequests, List.mem_cons, List.not_mem_nil, or_false] at hr
  rcases hr with rfl | rfl | rfl <;> simp [createRealtime, Request.At, Request.caller?]

/-- The lines of an answer, if it is one. -/
def linesOf (r : Except Error VersionWithPlacements) : Option (List Line) :=
  r.toOption.map fun v => v.placements.map PlacementWithEntry.line

theorem linesOf_eq_some {r : Except Error VersionWithPlacements} {l : List Line}
    (h : linesOf r = some l) :
    ∃ v, r = .ok v ∧ v.placements.map PlacementWithEntry.line = l :=
  Prog.exists_ok (Option.map_eq_some_iff.mp h)

set_option maxRecDepth 10000 in
/-- A run after which the live standings of two entries are those of a snapshot. -/
theorem live_standings_agree_run : ∃ (g : System False) (b : Board) (l v : VersionWithPlacements),
    b ∈ g.servers.db.boards ∧ respond counting g.servers (Realtime.latest b "rl") = .ok l ∧
      respond counting g.servers (Realtime.snapshot b none none "rl" none none) = .ok v ∧
      l.placements.map PlacementWithEntry.line =
        [⟨"f", "F", some ⟨2⟩, some 1⟩, ⟨"e", "E", some ⟨1⟩, some 2⟩] ∧
      l.placements.map PlacementWithEntry.line = v.placements.map PlacementWithEntry.line ∧
      NamesAgree "rl" g.servers b ∧ TiesAgree "rl" g.servers b := by
  obtain ⟨g, hrun, hrest⟩ := run_serveAll counting False (liveRequests ⟨2⟩)
    (liveRequests_deployed ⟨2⟩)
  have hstate : ∃ b ∈ g.servers.db.boards, b.clearOnSnapshot = false ∧
      linesOf (respond counting g.servers (Realtime.latest b "rl")) =
        some [⟨"f", "F", some ⟨2⟩, some 1⟩, ⟨"e", "E", some ⟨1⟩, some 2⟩] ∧
      linesOf (respond counting g.servers (Realtime.snapshot b none none "rl" none none)) =
        some [⟨"f", "F", some ⟨2⟩, some 1⟩, ⟨"e", "E", some ⟨1⟩, some 2⟩] := by
    rw [hrest.servers]
    decide
  obtain ⟨b, hb, hclear, hlatest, hsnapshot⟩ := hstate
  obtain ⟨l, hl, hlines⟩ := linesOf_eq_some hlatest
  obtain ⟨v, hv, hlines'⟩ := linesOf_eq_some hsnapshot
  have hagree := (live_standings_agree (System.at_initial.run hrun) hb hclear hl hv).mp
    (hlines.trans hlines'.symm)
  exact ⟨g, b, l, v, hb, hl, hv, hlines, hlines.trans hlines'.symm, hagree⟩

set_option maxRecDepth 10000 in
/-- Two entries with equal scores, and a new name for one of them: the standings differ from the
snapshot. -/
theorem live_standings_differ : ∃ (g : System False) (b : Board) (l v : VersionWithPlacements),
    System.At "rl" g ∧ b ∈ g.servers.db.boards ∧ b.realtime = true ∧ b.clearOnSnapshot = false ∧
      respond counting g.servers (Realtime.latest b "rl") = .ok l ∧
      respond counting g.servers (Realtime.snapshot b none none "rl" none none) = .ok v ∧
      l.placements.map PlacementWithEntry.line =
        [⟨"f", "F", some ⟨1⟩, some 1⟩, ⟨"e", "E", some ⟨1⟩, some 2⟩] ∧
      v.placements.map PlacementWithEntry.line =
        [⟨"e", "E2", some ⟨1⟩, some 1⟩, ⟨"f", "F", some ⟨1⟩, some 2⟩] := by
  have hrs : ∀ r ∈ liveRequests ⟨1⟩ ++ [.updateEntry "b" "e" { name := some "E2" }],
      Deployed "rl" r.handler := by
    intro r hr
    rcases List.mem_append.mp hr with hr | hr
    · exact liveRequests_deployed ⟨1⟩ r hr
    · obtain rfl := List.mem_singleton.mp hr
      exact ⟨_, by simp [Request.At, Request.caller?], rfl⟩
  obtain ⟨g, hrun, hrest⟩ := run_serveAll counting False _ hrs
  have hstate : ∃ b ∈ g.servers.db.boards, b.realtime = true ∧ b.clearOnSnapshot = false ∧
      linesOf (respond counting g.servers (Realtime.latest b "rl")) =
        some [⟨"f", "F", some ⟨1⟩, some 1⟩, ⟨"e", "E", some ⟨1⟩, some 2⟩] ∧
      linesOf (respond counting g.servers (Realtime.snapshot b none none "rl" none none)) =
        some [⟨"e", "E2", some ⟨1⟩, some 1⟩, ⟨"f", "F", some ⟨1⟩, some 2⟩] := by
    rw [hrest.servers]
    decide
  obtain ⟨b, hb, hrealtime, hclear, hlatest, hsnapshot⟩ := hstate
  obtain ⟨l, hl, hlines⟩ := linesOf_eq_some hlatest
  obtain ⟨v, hv, hlines'⟩ := linesOf_eq_some hsnapshot
  exact ⟨g, b, l, v, System.at_initial.run hrun, hb, hrealtime, hclear, hl, hv, hlines, hlines'⟩

end Leaderboards
