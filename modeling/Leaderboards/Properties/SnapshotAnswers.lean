import Leaderboards.Properties.ScoredRank
import Leaderboards.Transactions.Snapshot

/-!
# What a snapshot answers

A snapshot of the accumulated scores and one of the live scores insert one placement for each
score, derive the positions and read the placements back. What they answer with shows the scores,
ranked by score and entry id, under the names of the entry rows (`ShowsFrozen`); and they are
refused for lack of scores only when there are none (`scoresSnapshot_freezes`,
`liveSnapshot_freezes`).
-/

namespace Leaderboards

open Interaction Ranking Realtime

variable {keyPrefix : String} {env : Supply} {b : Board} {w : World}

/-- What a placement shows. -/
structure Line where
  slug : String
  name : String
  score : Option F64
  position : Option ℤ
deriving DecidableEq

/-- The line of a placement. -/
def PlacementWithEntry.line (p : PlacementWithEntry) : Line :=
  ⟨p.entrySlug, p.entryName, p.score, p.position⟩

/-- The lines of ranked scores under their names. -/
def lines (name : String → String) (ms : List (String × F64)) : List Line :=
  ms.zipIdx.map fun x => ⟨x.1.1, name x.1.1, some x.1.2, some ((x.2 : ℤ) + 1)⟩

/-- What can be read off each line without its position. -/
private theorem map_lines {β : Type} {name : String → String} {ms : List (String × F64)}
    (f : Line → β) (f' : String × F64 → β)
    (hf : ∀ x n, f ⟨x.1, name x.1, some x.2, n⟩ = f' x) : (lines name ms).map f = ms.map f' := by
  have hfst : ms.zipIdx.map (fun x => f' x.1) = (ms.zipIdx.map Prod.fst).map f' := by
    rw [List.map_map]
    rfl
  rw [lines, List.map_map, ← List.zipIdx_map_fst 0 ms, ← hfst, List.zipIdx_map_fst]
  exact List.map_congr_left fun x _ => hf x.1 _

/-- Lines show the ranked scores and their names. -/
theorem lines_eq_iff {name name' : String → String} {ms ms' : List (String × F64)} :
    lines name ms = lines name' ms' ↔ ms = ms' ∧ ∀ x ∈ ms, name x.1 = name' x.1 := by
  constructor
  · intro heq
    have hscores := congrArg (List.map fun y => (y.slug, y.score)) heq
    rw [map_lines _ (fun x => (x.1, some x.2)) fun _ _ => rfl,
      map_lines _ (fun x => (x.1, some x.2)) fun _ _ => rfl] at hscores
    have hinjective : Function.Injective fun x : String × F64 => (x.1, some x.2) := by
      rintro ⟨m, x⟩ ⟨m', x'⟩ h
      simpa using h
    obtain rfl := List.map_injective_iff.mpr hinjective hscores
    have hnames := congrArg (List.map fun y => y.name) heq
    rw [map_lines _ (fun x => name x.1) fun _ _ => rfl,
      map_lines _ (fun x => name' x.1) fun _ _ => rfl] at hnames
    exact ⟨rfl, List.map_inj_left.mp hnames⟩
  · rintro ⟨rfl, hname⟩
    refine List.map_congr_left fun x hx => ?_
    rw [hname x.1 (List.fst_mem_of_mem_zipIdx hx)]

/-! ### Scores as placements -/

section Frozen

variable {db : Database} {boardId versionId : Uuid} {members done : List (String × F64)} {w : World}

/-- The id and the name of the entry with a slug. -/
def Database.entryOf (db : Database) (boardId : Uuid) (slug : String) : Uuid × String :=
  ((db.entryBySlug? boardId slug).map fun e => (e.id, e.name)).getD (0, slug)

theorem Database.Schema.entryOf_eq (h : db.Schema) {e : Entry} (he : e ∈ db.entriesOf boardId) :
    db.entryOf boardId e.slug = (e.id, e.name) := by
  obtain ⟨hmem, rfl⟩ := Database.mem_entriesOf.mp he
  rw [Database.entryOf, h.entryBySlug?_eq hmem]
  rfl

/-- A live score as a pair of an entry and a score. -/
def frozenPair (db : Database) (boardId : Uuid) (x : String × F64) : Uuid × Option F64 :=
  ((db.entryOf boardId x.1).1, some x.2)

/-- The order of live scores in a snapshot. -/
def frozenKey (asc : Bool) (db : Database) (boardId : Uuid) (x : String × F64) : ℕ ×ₗ ℤ ×ₗ ℕ :=
  pairKey asc (frozenPair db boardId x)

/-- Some of the live scores are in the placements of the pending version. -/
structure Frozen (db : Database) (boardId versionId : Uuid) (done : List (String × F64))
    (w : World) : Prop where
  session : w.session.isSome = true
  entries : w.view.entries = db.entries
  ids : (w.view.placements.map Placement.id).Nodup
  pairs : (w.view.placementsOf versionId).map Placement.pair = done.map (frozenPair db boardId)
  found : ∀ x ∈ done, ∃ e ∈ db.entriesOf boardId, e.slug = x.1

/-- A new version has no placements yet. -/
theorem Frozen.start (hdb : db.Schema) {version : Version} (hs : w.session.isSome = true)
    (hview : w.view = db.addVersion version) (hfresh : ∀ v ∈ db.versions, v.id ≠ version.id) :
    Frozen db boardId version.id [] w := by
  have hnone : w.view.placementsOf version.id = [] := by
    rw [hview]
    refine List.filter_eq_nil_iff.mpr fun p hp hversionId => ?_
    obtain ⟨v, hv, -, -, hid, -⟩ := hdb.placement_board p hp
    exact hfresh v hv (hid.trans (of_decide_eq_true hversionId))
  exact ⟨hs, by rw [hview]; rfl, by rw [hview]; exact hdb.placement_id, by rw [hnone]; rfl, by simp⟩

/-- One more score. -/
theorem Frozen.place (hdb : db.Schema) (h : Frozen db boardId versionId done w) {e : Entry}
    (he : e ∈ db.entriesOf boardId) (x : F64) :
    (Action.sql (.insertPlacement versionId e.id none (some x) none none) >>= fun _ =>
      pure () : Action Unit).Ends env (Prog.outcome
        (fun _ w' => Frozen db boardId versionId (done ++ [(e.slug, x)]) w')
        fun err _ => ¬err.LacksScores) w := by
  refine ends_statement h.session (fun e _ _ _ _ => Error.database_not_lacksScores e) fun _ p ws w'
    hexec h' => ?_
  obtain ⟨rfl, hid, -, -, -, rfl⟩ := execInsertPlacement_ok hexec
  have hview : w'.view = w.view.addPlacement _ := h'.view
  have hnext : Frozen db boardId versionId (done ++ [(e.slug, x)]) w' := by
    refine ⟨h'.session, ?_, ?_, ?_, ?_⟩
    · rw [hview]
      exact h.entries
    · rw [hview, Database.addPlacement_placements, List.map_append, List.nodup_append]
      refine ⟨h.ids, by simp, fun i hi j hj hij => ?_⟩
      obtain ⟨r, hr, rfl⟩ := List.mem_map.mp hi
      obtain rfl := List.mem_singleton.mp hj
      exact hid r hr hij
    · rw [hview, placementsOf_addPlacement, if_pos rfl, List.map_append, h.pairs, List.map_append,
        List.map_singleton, List.map_singleton, frozenPair, hdb.entryOf_eq he]
      rfl
    · intro y hy
      rcases List.mem_append.mp hy with hy | hy
      · exact h.found y hy
      · obtain rfl := List.mem_singleton.mp hy
        exact ⟨e, he, rfl⟩
  exact hnext

/-- All scores. -/
theorem Frozen.insertAll {γ : Type} {xs : List γ} {insert : γ → Action Unit}
    {score : γ → String × F64} (h : Frozen db boardId versionId [] w)
    (hinsert : ∀ x ∈ xs, ∀ done w', Frozen db boardId versionId done w' → (insert x).Ends env
      (Prog.outcome (fun _ w'' => Frozen db boardId versionId (done ++ [score x]) w'')
        fun e _ => ¬e.LacksScores) w') :
    (Prog.each xs insert).Ends (serve env) (Prog.outcome
      (fun _ w' => Frozen db boardId versionId (xs.map score) w')
      fun (e : Error) _ => ¬e.LacksScores) w := by
  refine (Prog.ends_each (I := fun l w' => ∃ before, xs = before ++ l ∧
    Frozen db boardId versionId (before.map score) w')
      (E := fun e _ => ¬e.LacksScores) ?_ ⟨[], rfl, h⟩).mono ?_
  · rintro x l w' ⟨before, hsplit, h'⟩
    have hx : x ∈ xs := hsplit ▸ List.mem_append_right _ List.mem_cons_self
    refine (hinsert x hx _ w' h').mono fun r w'' hr => ?_
    rcases r with e | _
    · exact hr
    · refine ⟨before ++ [x], by rw [hsplit, List.append_assoc]; rfl, ?_⟩
      rw [List.map_append]
      exact hr
  · rintro (e | _) w' hr
    · exact hr
    · obtain ⟨before, hsplit, h'⟩ := hr
      rw [List.append_nil] at hsplit
      rw [hsplit]
      exact h'

/-- Distinct names have distinct entries. -/
theorem frozenIds_nodup (hdb : db.Schema) (hnames : (members.map Prod.fst).Nodup)
    (hfound : ∀ x ∈ members, ∃ e ∈ db.entriesOf boardId, e.slug = x.1) :
    (members.map fun x => (db.entryOf boardId x.1).1).Nodup := by
  have hinj : ∀ x ∈ members, ∀ y ∈ members,
      (db.entryOf boardId x.1).1 = (db.entryOf boardId y.1).1 → x.1 = y.1 := by
    intro x hx y hy heq
    obtain ⟨e, he, hslug⟩ := hfound x hx
    obtain ⟨e', he', hslug'⟩ := hfound y hy
    rw [← hslug, ← hslug', hdb.entryOf_eq he, hdb.entryOf_eq he'] at heq
    have hsame : e = e' := hdb.entry_inj (Database.mem_entriesOf.mp he).1
      (Database.mem_entriesOf.mp he').1 heq
    rw [← hslug, ← hslug', hsame]
  refine List.pairwise_map.mpr ((List.pairwise_map.mp hnames).imp_of_mem fun hx hy hne heq => ?_)
  exact hne (hinj _ hx _ hy heq)

theorem frozenKey_nodup (asc : Bool) (h : (members.map fun x => (db.entryOf boardId x.1).1).Nodup) :
    (members.map (frozenKey asc db boardId)).Nodup := by
  refine List.Nodup.of_map (fun k => (ofLex (ofLex k).2).2) ?_
  rw [List.map_map]
  exact h

/-- The lines of scores ranked by a key show the ranks. -/
theorem lines_orderBy {κ : Type} [LinearOrder κ] {key : String × F64 → κ}
    (h : (members.map key).Nodup) (name : String → String) :
    lines name (orderBy key members) = (orderBy key members).map fun x =>
      (⟨x.1, name x.1, some x.2, some (rank key members x : ℤ)⟩ : Line) := by
  have hranks := congrArg (List.map fun x : (String × F64) × ℕ =>
    (⟨x.1.1, name x.1.1, some x.1.2, some (x.2 : ℤ)⟩ : Line)) (map_rank_orderBy key h)
  rw [List.map_map, List.zipIdx_succ, List.map_map] at hranks
  exact hranks.symm

/-- **What the ranked placements of the version show.** -/
theorem Frozen.lines_eq (hdb : db.Schema) (h : Frozen db boardId versionId members w)
    (hnames : (members.map Prod.fst).Nodup) (asc : Bool) :
    (orderBy (positionKey w.view.collation) ((w.view.setPositions
      (rankedPositions w.view versionId asc)).placementRows versionId)).map
        PlacementWithEntry.line =
      lines (fun slug => (db.entryOf boardId slug).2) (orderBy (frozenKey asc db boardId)
        members) := by
  have hkeys := frozenIds_nodup hdb hnames h.found
  have hnodup := frozenKey_nodup asc hkeys
  let ps := w.view.placementsOf versionId
  have hentryIds : (ps.map Placement.entryId).Nodup := by
    have hfst := congrArg (List.map Prod.fst) h.pairs
    rw [List.map_map, List.map_map] at hfst
    change (List.map (Prod.fst ∘ Placement.pair) ps).Nodup
    rw [hfst]
    exact hkeys
  let line : String × F64 → Line := fun x =>
    ⟨x.1, (db.entryOf boardId x.1).2, some x.2,
      some (rank (frozenKey asc db boardId) members x : ℤ)⟩
  -- The rows of the join, in the order of insertion.
  have hrows : ((w.view.setPositions (rankedPositions w.view versionId asc)).placementRows
      versionId).map PlacementWithEntry.line = members.map line := by
    let shown : Uuid × Option F64 → Option Line := fun y =>
      (db.entryById? y.1).map fun e => ⟨e.slug, e.name, y.2,
        some (rank (pairKey asc) (ps.map Placement.pair) y : ℤ)⟩
    have hplacements : ((w.view.setPositions (rankedPositions w.view versionId asc)).placementRows
        versionId).map PlacementWithEntry.line = ps.filterMap fun p => shown p.pair := by
      rw [Database.placementRows, Database.placementsOf_derive h.ids hentryIds, List.filterMap_map,
        List.map_filterMap]
      refine List.filterMap_congr fun p _ => ?_
      have hentry : (w.view.setPositions (rankedPositions w.view versionId asc)).entryById?
          p.entryId = db.entryById? p.entryId := by
        rw [Database.entryById?, Database.entryById?, Database.setPositions_entries, h.entries]
      have hrank : rank (scoreKey asc) ps p = rank (pairKey asc) (ps.map Placement.pair) p.pair :=
        (rank_map (pairKey asc) (pairKey_pair asc) ps p).symm
      simp only [Function.comp_apply, Database.withEntry, ranked, hentry, Option.map_map, shown]
      rw [← hrank]
      rfl
    have hshown : ∀ x ∈ members, shown (frozenPair db boardId x) = some (line x) := by
      intro x hx
      obtain ⟨e, he, hslug⟩ := h.found x hx
      have hentry : db.entryOf boardId x.1 = (e.id, e.name) := hslug ▸ hdb.entryOf_eq he
      have hrank : rank (pairKey asc) (ps.map Placement.pair) (frozenPair db boardId x) =
          rank (frozenKey asc db boardId) members x := by
        rw [h.pairs]
        exact rank_map (pairKey asc) (fun _ => rfl) members x
      simp only [shown, line, hrank]
      simp only [frozenPair, hentry, hdb.entryById?_eq (Database.mem_entriesOf.mp he).1, hslug,
        Option.map_some]
    calc _ = ps.filterMap fun p => shown p.pair := hplacements
      _ = (ps.map Placement.pair).filterMap shown := by rw [List.filterMap_map]; rfl
      _ = members.filterMap fun x => shown (frozenPair db boardId x) := by
        rw [h.pairs, List.filterMap_map]
        rfl
      _ = members.filterMap fun x => some (line x) := List.filterMap_congr hshown
      _ = members.map line := by rw [List.filterMap_eq_map']
  let key : Line → ℤ ×ₗ w.view.collation.Text := fun y =>
    toLex (coalesceLast y.position, w.view.collation.text y.name)
  have hsorted :
      orderBy (frozenKey asc db boardId) members = orderBy (fun x => key (line x)) members := by
    refine eq_orderBy _ (orderBy_perm _ _) ((orderBy_pairwise_lt _ hnodup).imp_of_mem ?_)
    intro x y hx _ hlt
    have hrank := (rank_lt_rank _ ((mem_orderBy _).mp hx)).mpr hlt
    refine Prod.Lex.toLex_lt_toLex.mpr (.inl ?_)
    exact Int.ofNat_lt.mpr hrank
  calc (orderBy (positionKey w.view.collation) _).map PlacementWithEntry.line
      = orderBy key (List.map PlacementWithEntry.line _) := (orderBy_map key _ _).symm
    _ = (orderBy (fun x => key (line x)) members).map line := by rw [hrows, orderBy_map]
    _ = lines (fun slug => (db.entryOf boardId slug).2)
        (orderBy (frozenKey asc db boardId) members) := by rw [lines_orderBy hnodup, hsorted]

/-- The answer shows the scores in the order of a snapshot, and each of them has its entry. -/
structure ShowsFrozen (db : Database) (board : Board) (members : List (String × F64))
    (v : VersionWithPlacements) : Prop where
  found : ∀ x ∈ members, ∃ e ∈ db.entriesOf board.id, e.slug = x.1
  lines :
    v.placements.map PlacementWithEntry.line = lines (fun slug => (db.entryOf board.id slug).2)
      (orderBy (frozenKey (board.sortDirection = "asc") db board.id) members)

/-- The scores of the answer. -/
theorem ShowsFrozen.pairs {board : Board} {v : VersionWithPlacements}
    (h : ShowsFrozen db board members v) : v.placements.map (fun p => (p.entrySlug, p.score)) =
      (orderBy (frozenKey (board.sortDirection = "asc") db board.id) members).map fun x =>
        (x.1, some x.2) := by
  have hpairs := congrArg (List.map fun y => (y.slug, y.score)) h.lines
  rw [map_lines _ (fun x => (x.1, some x.2)) fun _ _ => rfl, List.map_map] at hpairs
  exact hpairs

/-- The order in which the scores are read does not matter. -/
theorem ShowsFrozen.of_perm (hdb : db.Schema) {board : Board} {v : VersionWithPlacements}
    {members' : List (String × F64)} (h : ShowsFrozen db board members v)
    (hnames : (members.map Prod.fst).Nodup) (hperm : members.Perm members') :
    ShowsFrozen db board members' v where
  found x hx := h.found x (hperm.mem_iff.mpr hx)
  lines := by
    have hnodup := frozenKey_nodup (board.sortDirection = "asc")
      (frozenIds_nodup hdb hnames h.found)
    rw [h.lines, eq_orderBy _ ((orderBy_perm _ members).trans hperm)
      (orderBy_pairwise_lt _ hnodup)]

/-- The positions, and the placements read back. -/
theorem Frozen.ends_readBack {board : Board} {version : Version} (hdb : db.Schema)
    (h : Frozen db board.id version.id members w) (hnames : (members.map Prod.fst).Nodup) :
    (do
      Versions.deriveScoredPositions version.id board.sortDirection
      let placements ← Action.sql (.selectSnapshotPlacements version.id)
      return ⟨version, placements⟩ : Action VersionWithPlacements).Ends env (Prog.outcome
        (fun v w' => w'.session.isSome = true ∧ ShowsFrozen db board members v)
        fun e _ => ¬e.LacksScores) w := by
  refine ends_statement h.session (fun e _ _ _ _ => Error.database_not_lacksScores e)
    fun _ _ ws w₁ hderive h₁ => ?_
  refine ends_query rfl h₁.session (fun e _ _ _ _ => Error.database_not_lacksScores e)
    fun _ placements w₂ hread h₂ => ?_
  obtain rfl := execDerivePositions_ok hderive
  obtain ⟨rfl, -⟩ := Prod.mk.inj (Except.ok.inj hread)
  refine ⟨h₂.session, h.found, ?_⟩
  have hview : w₁.view = w.view.setPositions
      (rankedPositions w.view version.id (board.sortDirection = "asc")) := h₁.view
  rw [hview]
  exact h.lines_eq hdb hnames _

end Frozen

/-- The answer to a snapshot of these scores: it shows them, and it is refused for lack of scores
only when there are none. -/
def Freezes (db : Database) (board : Board) (members : List (String × F64)) :
    Except Error VersionWithPlacements → Prop
  | .ok v => ShowsFrozen db board members v
  | .error e => e.LacksScores → members = []

/-! ### Live scores -/

section Live

variable {members : List (String × F64)}

theorem ends_writeSnapshot_shows {board : Board} {note : Option String} {metadata : Option Json}
    (hs : w.session.isSome = true) (hdb : w.view.Schema) (hnames : (members.map Prod.fst).Nodup) :
    (writeSnapshot board members note metadata).Ends env (Prog.outcome
      (fun v w' => w'.session.isSome = true ∧ ShowsFrozen w.view board members v)
      fun e _ => ¬e.LacksScores) w := by
  refine ends_query rfl hs (fun e _ _ _ _ => Error.database_not_lacksScores e) fun _ number w₁
    _ h₁ => ?_
  refine ends_statement h₁.session (fun e _ _ _ _ => Error.database_not_lacksScores e)
    fun _ version ws w₂ hins h₂ => ?_
  refine ends_query rfl h₂.session (fun e _ _ _ _ => Error.database_not_lacksScores e)
    fun _ entries w₃ hsel h₃ => ?_
  obtain ⟨rfl, -, hfresh, -, -, hversion⟩ := execInsertVersion_ok hins
  have hview₁ : w₁.view = w.view := h₁.view
  have hview₃ : w₃.view = w.view.addVersion version := by
    rw [h₃.view, h₂.view, hview₁]
    rfl
  have hnew : ∀ v ∈ w.view.versions, v.id ≠ version.id := by
    intro v hv
    rw [hversion]
    exact hfresh v (hview₁ ▸ hv)
  have hentries : ∀ x ∈ entries, ∃ e ∈ w.view.entriesOf board.id, x = (e.id, e.slug, e.name) := by
    intro x hx
    obtain ⟨rfl, -⟩ := Prod.mk.inj (Except.ok.inj hsel)
    obtain ⟨e, he, rfl⟩ := List.mem_map.mp hx
    have hmem : e ∈ w₂.view.entriesOf board.id := (List.mem_filter.mp he).1
    rw [h₂.view, hview₁] at hmem
    exact ⟨e, hmem, rfl⟩
  -- One placement for each member, with the entry that has its name as slug.
  have hinsert : ∀ x ∈ members, ∀ done w', Frozen w.view board.id version.id done w' →
      (Realtime.insertScore version entries x).Ends env (Prog.outcome
        (fun _ w'' => Frozen w.view board.id version.id (done ++ [id x]) w'')
        fun e _ => ¬e.LacksScores) w' := by
    intro x _ done w' h'
    unfold Realtime.insertScore
    split
    · rintro (heq | heq) <;> cases heq
    · rename_i entryId rest hfind
      obtain ⟨e, he, heq⟩ := hentries _ (List.mem_of_find?_eq_some hfind)
      obtain ⟨rfl, rfl⟩ := Prod.mk.inj heq
      have hslug : e.slug = x.1 := by simpa using List.find?_some hfind
      have hplaced : Action.Ends env _ _ w' := h'.place hdb he x.2
      rw [hslug] at hplaced
      exact hplaced
  have hloop := (Frozen.start hdb h₃.session hview₃ hnew).insertAll hinsert
  rw [List.map_id] at hloop
  refine Prog.ends_bind (hloop.mono fun r w₄ hr => ?_)
  rcases r with e | _
  · exact hr
  · exact hr.ends_readBack hdb hnames

/-- **What `realtime::snapshot` answers** for a board that keeps its live scores. -/
theorem liveSnapshot_freezes (hdb : w.server.db.Schema) (hb : w.server.db.board? b.id = some b)
    (hclear : b.clearOnSnapshot = false) (hdistinct : w.server.redis.Distinct)
    (note : Option String) (metadata : Option Json) (maxVersions : Option ℤ)
    (maxEntries : Option ℕ) :
    (Realtime.snapshot b note metadata keyPrefix maxVersions maxEntries).Ends env
      (fun r _ => Freezes w.server.db b (w.server.redis.members (scoresKey keyPrefix b.slug))
        r) w := by
  unfold Realtime.snapshot isolate
  rw [if_neg (by simp [hclear]), pure_bind]
  refine Prog.ends_bind (ends_transaction fun w₀ h₀ => ?_)
  refine ends_snapshotBody h₀.session (fun e w' _ hlack w'' _ heq => ?_)
    fun board members w₁ hboard hread h₁ => ?_
  · have hread := hlack heq
    rw [h₀.redis] at hread
    have hnone := zrevrange_ok hread
    have hperm : (w.server.redis.members (scoresKey keyPrefix b.slug)).Perm [] := by
      rw [hnone]
      exact ((List.reverse_perm _).trans (orderBy_perm _ _)).symm
    exact hperm.eq_nil
  have hview₁ : w₁.view = w.server.db := h₁.view.trans h₀.view
  rw [h₀.view, hb] at hboard
  obtain rfl := Option.some.inj hboard
  have hperm : members.Perm (w.server.redis.members (scoresKey keyPrefix b.slug)) := by
    rw [h₀.redis] at hread
    rw [zrevrange_ok hread]
    exact (List.reverse_perm _).trans (orderBy_perm _ _)
  have hnames : (members.map Prod.fst).Nodup :=
    (hperm.map Prod.fst).nodup_iff.mpr (hdistinct _)
  refine (ends_writeSnapshot_shows h₁.session (hview₁ ▸ hdb) hnames).mono fun r w₂ hr => ?_
  rcases r with e | v
  · exact fun w₃ _ hlacks => absurd hlacks hr
  · exact ⟨hr.1, fun w₃ _ => ShowsFrozen.of_perm hdb (hview₁ ▸ hr.2) hnames hperm⟩

/-- What `realtime::snapshot` shows of a board that keeps its live scores. -/
theorem snapshot_lines {s : Server} (hdb : s.db.Schema) (hb : s.db.board? b.id = some b)
    (hclear : b.clearOnSnapshot = false) (hdistinct : s.redis.Distinct) {note : Option String}
    {metadata : Option Json} {maxVersions : Option ℤ} {maxEntries : Option ℕ}
    {v : VersionWithPlacements} (h : respond env s
      (Realtime.snapshot b note metadata keyPrefix maxVersions maxEntries) = .ok v) :
    ShowsFrozen s.db b (s.redis.members (scoresKey keyPrefix b.slug)) v := by
  have hfreezes : Freezes s.db b (s.redis.members (scoresKey keyPrefix b.slug))
      (respond env s (Realtime.snapshot b note metadata keyPrefix maxVersions maxEntries)) :=
    liveSnapshot_freezes (w := { server := s }) hdb hb hclear hdistinct note metadata maxVersions
      maxEntries
  rw [h] at hfreezes
  exact hfreezes

end Live

/-! ### Accumulated scores -/

/-- The accumulated scores of a board and the entries they belong to. -/
def Database.scoreRows (db : Database) (boardId : Uuid) : List (Uuid × F64 × String × String) :=
  (db.scoresOf boardId).filterMap fun s =>
    (db.entryById? s.entryId).map fun e => (s.entryId, s.score, e.slug, e.name)

/-- The accumulated scores of a board, under the slugs of their entries. -/
def Database.tableScores (db : Database) (boardId : Uuid) : List (String × F64) :=
  (db.scoreRows boardId).map fun row => (row.2.2.1, row.2.1)

section Table

variable {db : Database} {boardId : Uuid} {row : Uuid × F64 × String × String}

theorem Database.Schema.mem_scoreRows (h : db.Schema) : row ∈ db.scoreRows boardId ↔
    ∃ s ∈ db.scoresOf boardId, ∃ e ∈ db.entriesOf boardId,
      e.id = s.entryId ∧ row = (e.id, s.score, e.slug, e.name) := by
  rw [Database.scoreRows, List.mem_filterMap]
  refine exists_congr fun s => and_congr_right fun hs => ?_
  obtain ⟨hmem, hboard⟩ := Database.mem_scoresOf.mp hs
  obtain ⟨-, e, he, hid, heb⟩ := h.score_board s hmem
  have hfind : db.entryById? s.entryId = some e := hid ▸ h.entryById?_eq he
  have hof : e ∈ db.entriesOf boardId := Database.mem_entriesOf.mpr ⟨he, heb.trans hboard⟩
  rw [hfind, Option.map_some, Option.some.injEq]
  constructor
  · rintro rfl
    exact ⟨e, hof, hid, by rw [hid]⟩
  · rintro ⟨e', he', hid', rfl⟩
    rw [h.entry_inj (Database.mem_entriesOf.mp he').1 he (hid'.trans hid.symm), hid]

theorem Database.Schema.mem_tableScores (h : db.Schema) {name : String} {score : F64} :
    (name, score) ∈ db.tableScores boardId ↔ ∃ s ∈ db.scoresOf boardId, ∃ e ∈ db.entriesOf boardId,
      e.id = s.entryId ∧ e.slug = name ∧ s.score = score := by
  rw [Database.tableScores, List.mem_map]
  constructor
  · rintro ⟨row, hrow, heq⟩
    obtain ⟨s, hs, e, he, hid, rfl⟩ := h.mem_scoreRows.mp hrow
    obtain ⟨hslug, hscore⟩ := Prod.mk.inj heq
    exact ⟨s, hs, e, he, hid, hslug, hscore⟩
  · rintro ⟨s, hs, e, he, hid, rfl, rfl⟩
    exact ⟨_, h.mem_scoreRows.mpr ⟨s, hs, e, he, hid, rfl⟩, rfl⟩

/-- Every entry has one accumulated score at most. -/
theorem Database.Schema.tableScores_nodup (h : db.Schema) (boardId : Uuid) :
    ((db.tableScores boardId).map Prod.fst).Nodup := by
  have hkeys : ((db.scoresOf boardId).map fun s => (s.boardId, s.entryId)).Nodup :=
    h.score_key.sublist (List.filter_sublist.map _)
  rw [Database.tableScores, Database.scoreRows, List.map_map, List.map_filterMap]
  refine List.pairwise_filterMap.mpr ((List.pairwise_map.mp hkeys).imp_of_mem ?_)
  intro s s' hs hs' hne name hname name' hname' heq
  obtain ⟨e, he, hslug⟩ : ∃ e, db.entryById? s.entryId = some e ∧ e.slug = name := by
    simpa using hname
  obtain ⟨e', he', hslug'⟩ : ∃ e, db.entryById? s'.entryId = some e ∧ e.slug = name' := by
    simpa using hname'
  have hboard : ∀ s ∈ db.scoresOf boardId, ∀ e, db.entryById? s.entryId = some e →
      e ∈ db.entries ∧ e.id = s.entryId ∧ e.boardId = s.boardId := by
    intro s hs e he
    obtain ⟨hmem, hid⟩ := Database.mem_of_entryById? he
    obtain ⟨-, r, hr, hrid, hrb⟩ := h.score_board s (Database.mem_scoresOf.mp hs).1
    obtain rfl := h.entry_inj hmem hr (hid.trans hrid.symm)
    exact ⟨hmem, hid, hrb⟩
  obtain ⟨hmem, hid, hb⟩ := hboard s hs e he
  obtain ⟨hmem', hid', hb'⟩ := hboard s' hs' e' he'
  have hsb : s.boardId = s'.boardId :=
    (Database.mem_scoresOf.mp hs).2.trans (Database.mem_scoresOf.mp hs').2.symm
  have hsame : e = e' := h.entry_key_inj hmem hmem' (hb.trans (hsb.trans hb'.symm))
    (hslug.trans (heq.trans hslug'.symm))
  exact hne (by rw [hsb, ← hid, ← hid', hsame])

/-- The outcome of the part of a snapshot inside its transaction. -/
private def inScores (db : Database) (b : Board) :
    Except Error VersionWithPlacements → World → Prop :=
  Prog.outcome (fun v w => w.session.isSome = true ∧ ShowsFrozen db b (db.tableScores b.id) v)
    fun e _ => e.LacksScores → db.tableScores b.id = []

/-- The transaction of `scores::snapshot`. -/
theorem ends_scoresBody {note : Option String} {metadata : Option Json} {maxVersions : Option ℤ}
    {maxEntries : Option ℕ} (hs : w.session.isSome = true) (hdb : w.view.Schema)
    (hb : w.view.board? b.id = some b) :
    (Scores.snapshotBody b.id note metadata maxVersions maxEntries).Ends env
      (inScores w.view b) w := by
  have hdberr : ∀ e : DbError, (Error.database e).LacksScores → w.view.tableScores b.id = [] :=
    fun e hlacks => absurd hlacks (Error.database_not_lacksScores e)
  have hrefused : ∀ msg : String, msg.toList.head? ≠ some 'n' →
      (Error.validation msg).LacksScores → w.view.tableScores b.id = [] :=
    fun msg hmsg hlacks => absurd hlacks (Error.not_lacksScores hmsg)
  unfold Scores.snapshotBody
  refine ends_statement hs (fun e _ _ _ _ => hdberr e) fun now board ws w₁ hexec h₁ => ?_
  simp only [exec, hb] at hexec
  obtain ⟨rfl, rfl⟩ := Prod.mk.inj (Except.ok.inj hexec)
  have hview₁ : w₁.view = w.view := h₁.view
  -- The limit on the versions.
  have hlimit : ∀ f : Unit → Action VersionWithPlacements, (∀ w₂ : World,
      w₂.session.isSome = true → w₂.view = w.view → (f ()).Ends env (inScores w.view b) w₂) →
      (Versions.checkVersionLimit b.id maxVersions >>= f).Ends env (inScores w.view b) w₁ := by
    intro f hf
    cases maxVersions with
    | none => exact hf w₁ h₁.session hview₁
    | some max =>
      unfold Versions.checkVersionLimit
      rw [bind_assoc]
      refine ends_query rfl h₁.session (fun e _ _ _ _ => hdberr e) fun _ count w₂ _ h₂ => ?_
      refine Prog.ends_failIf (fun _ => hrefused _ ?_) fun _ => ?_
      · simp [toString, String.toList_append]
      · exact hf w₂ h₂.session (h₂.view.trans hview₁)
  refine hlimit _ fun w₂ hs₂ hview₂ => ?_
  refine ends_query rfl hs₂ (fun e _ _ _ _ => hdberr e) fun _ rows w₃ hrows h₃ => ?_
  have hrows' : rows = w.view.scoreRows b.id := by
    obtain ⟨rfl, -⟩ := Prod.mk.inj (Except.ok.inj hrows)
    rw [hview₂]
    rfl
  have hview₃ : w₃.view = w.view := h₃.view.trans hview₂
  refine Prog.ends_failIf (fun hnil _ => ?_) fun _ => ?_
  · rw [Database.tableScores, ← hrows', hnil]
    rfl
  -- The limit on the entries.
  have hcount : ∀ f : Unit → Action VersionWithPlacements, (f ()).Ends env (inScores w.view b) w₃ →
      (Scores.checkEntryLimit rows.length maxEntries >>= f).Ends env (inScores w.view b) w₃ := by
    intro f hf
    cases maxEntries with
    | none => exact hf
    | some max =>
      refine Prog.ends_failIf (fun _ => hrefused _ ?_) fun _ => hf
      simp [toString, String.toList_append]
  refine hcount _ ?_
  refine ends_query rfl h₃.session (fun e _ _ _ _ => hdberr e) fun _ number w₄ _ h₄ => ?_
  refine ends_statement h₄.session (fun e _ _ _ _ => hdberr e) fun _ version ws w₅ hins h₅ => ?_
  obtain ⟨rfl, -, hfresh, -, -, hversion⟩ := execInsertVersion_ok hins
  have hview₄ : w₄.view = w.view := h₄.view.trans hview₃
  have hview₅ : w₅.view = w.view.addVersion version := by
    rw [h₅.view, hview₄]
    rfl
  have hnew : ∀ v ∈ w.view.versions, v.id ≠ version.id := by
    intro v hv
    rw [hversion]
    exact hfresh v (hview₄ ▸ hv)
  have hinsert : ∀ x ∈ rows, ∀ done w', Frozen w.view b.id version.id done w' →
      (Scores.insertScore version x).Ends env (Prog.outcome
        (fun _ w'' => Frozen w.view b.id version.id (done ++ [(x.2.2.1, x.2.1)]) w'')
        fun e _ => ¬e.LacksScores) w' := by
    intro x hx done w' h'
    rw [hrows'] at hx
    obtain ⟨s, hs', e, he, -, rfl⟩ := hdb.mem_scoreRows.mp hx
    exact h'.place hdb he s.score
  have hloop := (Frozen.start hdb h₅.session hview₅ hnew).insertAll hinsert
  rw [hrows'] at hloop ⊢
  refine Prog.ends_bind (hloop.mono fun r w₆ hr => ?_)
  rcases r with e | _
  · exact fun hlacks => absurd hlacks hr
  · rw [Prog.outcome_ok] at hr ⊢
    refine (hr.ends_readBack hdb (hdb.tableScores_nodup b.id)).mono fun r w₇ hr' => ?_
    rcases r with e | v
    · exact fun hlacks => absurd hlacks hr'
    · exact hr'

/-- **What `scores::snapshot` answers.** -/
theorem scoresSnapshot_freezes (hdb : w.server.db.Schema) (hb : w.server.db.board? b.id = some b)
    (note : Option String) (metadata : Option Json) (maxVersions : Option ℤ)
    (maxEntries : Option ℕ) :
    (Scores.snapshot b note metadata maxVersions maxEntries).Ends env
      (fun r _ => Freezes w.server.db b (w.server.db.tableScores b.id) r) w := by
  have hrefused : ∀ msg : String, msg.toList.head? ≠ some 'n' → Freezes w.server.db b
      (w.server.db.tableScores b.id) (.error (.validation msg)) :=
    fun msg hmsg hlacks => absurd hlacks (Error.not_lacksScores hmsg)
  unfold Scores.snapshot
  refine Prog.ends_failIf (fun _ => hrefused _ (by decide)) fun _ => ?_
  refine Prog.ends_failIf (fun _ => hrefused _ (by decide)) fun _ => ?_
  refine ends_transaction fun w₀ h₀ => ?_
  refine (ends_scoresBody h₀.session (h₀.view ▸ hdb) (h₀.view ▸ hb)).mono fun r w₁ hr => ?_
  rw [h₀.view] at hr
  rcases r with e | v
  · exact fun _ _ => hr
  · exact ⟨hr.1, fun _ _ => hr.2⟩

end Table

end Leaderboards
