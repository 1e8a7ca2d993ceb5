import Leaderboards.Transactions.Calls
import Leaderboards.Transactions.VersionReads

/-!
# Creating a version

What `versions::create` does when it runs alone. `Database.checkCreation` are its checks, in their
order, and `Database.withVersion` the tables with the rows that it inserts: one placement row for
each placement of the request (`PlacedAs`), which a scored board then ranks. What it answers with
are the placement rows in the order of the request, or for a scored board what `fetch_placements`
reads afterwards.
-/

namespace Leaderboards

open Interaction Ranking

variable {env : Supply} {w : World} {db : Database}

/-! ### The checks -/

namespace Database

variable (db : Database)

/-- The limit on the number of versions. -/
def checkVersionLimit (boardId : Uuid) : Option ℤ → Except Error Unit
  | none => .ok ()
  | some max =>
    if max ≤ ((db.versionsOf boardId).length : ℤ) then
      .error (.validation
        s!"board has too many versions ({(db.versionsOf boardId).length}, max {max})")
    else .ok ()

/-- The rows that the slugs select. -/
def entriesNamed (boardId : Uuid) (slugs : List String) : List (Uuid × String × String) :=
  ((db.entriesOf boardId).filter fun e => e.slug ∈ slugs).map fun e => (e.id, e.slug, e.name)

/-- The checks of `versions::create` inside its transaction. -/
def checkCreateBody (b : Board) (input : CreateVersion) (max : Option ℤ) : Except Error Unit := do
  db.checkVersionLimit b.id max
  Versions.validatePlacements b input.placements
  if 2147483647 < db.maxVersionNumber b.id + 1 then .error (.database .outOfRange)
  Versions.checkEntriesFound b
    (db.entriesNamed b.id (input.placements.map CreatePlacement.entrySlug)) input.placements
  if b.boardType = "scored" then
    if input.placements.length ≤ 2147483647 then
      ((Contents.tierOrds b.tierConfig (input.placements.map CreatePlacement.tier)).map
        fun _ => ()).mapError Error.database
    else .error (.database .outOfRange)

/-- The checks of `versions::create` for a board whose current row is `b`. -/
def checkCreate (board b : Board) (input : CreateVersion) (max : Option ℤ) : Except Error Unit := do
  if board.accumulative = true then
    .error (.validation
      "cannot create versions directly on accumulative boards; use POST /boards/:slug/snapshot instead")
  Versions.validatePlacements board input.placements
  db.checkCreateBody b input max

end Database

/-! ### The rows -/

/-- The row of a placement of the request. -/
structure PlacedAs (db : Database) (b : Board) (v : Version) (x : CreatePlacement × ℕ)
    (p : Placement) : Prop where
  versionId : p.versionId = v.id
  entry : ∃ e ∈ db.entriesOf b.id, e.id = p.entryId ∧ e.slug = x.1.entrySlug
  position : p.position = Versions.storedPosition b x.1 x.2
  score : p.score = x.1.score
  tier : p.tier = x.1.tier
  metadata : p.metadata = x.1.metadata

/-- The row writes of a version and its placements. -/
def versionWrites (v : Version) (rows : List Placement) : List RowWrite :=
  .addVersion v :: rows.map .addPlacement

/-- The tables with a version and its placements. -/
def Database.withVersion (db : Database) (v : Version) (rows : List Placement) : Database :=
  { db with versions := db.versions ++ [v], placements := db.placements ++ rows }

theorem applyAll_versionWrites (db : Database) (v : Version) (rows : List Placement) :
    db.applyAll (versionWrites v rows) = db.withVersion v rows := by
  have hrows : ∀ (rows : List Placement) (db : Database), db.applyAll (rows.map .addPlacement) =
      { db with placements := db.placements ++ rows } := by
    intro rows
    induction rows with
    | nil => simp
    | cons p rows ih =>
      intro db
      rw [List.map_cons, Database.applyAll_cons, ih]
      simp
  rw [versionWrites, Database.applyAll_cons, hrows]
  rfl

/-- The row writes of the rank by score. -/
def rankWrites (db : Database) (b : Board) (v : Version) : List RowWrite :=
  if b.boardType = "scored" then
    [.setPositions (rankedPositions db v.id (b.sortDirection = "asc"))]
  else []

/-- What `versions::create` has inserted. -/
structure CreatedVersion (db : Database) (b : Board) (input : CreateVersion) (v : Version)
    (rows : List Placement) : Prop where
  board : db.board? b.id = some b
  boardId : v.boardId = b.id
  number : v.versionNumber = db.maxVersionNumber b.id + 1
  note : v.note = input.note
  metadata : v.metadata = input.metadata
  new : ∀ r ∈ db.versions, r.id ≠ v.id
  rows : List.Forall₂ (PlacedAs db b v) input.placements.zipIdx rows

/-- The id belongs to no row yet. -/
structure Database.Unused (db : Database) (u : Uuid) : Prop where
  versions : ∀ v ∈ db.versions, v.id ≠ u
  placements : ∀ p ∈ db.placements, p.id ≠ u

theorem map_zipIdx_fst {α β : Type} (f : α → β) (l : List α) :
    l.zipIdx.map (fun x => f x.1) = l.map f := by
  rw [← List.zipIdx_map_fst 0 l, List.map_map, List.zipIdx_map_fst]
  rfl

section Rows

variable {b : Board} {v : Version} {rows : List Placement} {done rest : List (CreatePlacement × ℕ)}
  {x : CreatePlacement × ℕ}

/-- The placement is one of those that were inserted. -/
theorem placedAs_of_mem (h : List.Forall₂ (PlacedAs db b v) done rows) {p : Placement}
    (hp : p ∈ rows) : ∃ x ∈ done, PlacedAs db b v x p := by
  induction h with
  | nil => cases hp
  | @cons x q done rows hx _ ih =>
    rcases List.mem_cons.mp hp with rfl | hp
    · exact ⟨x, List.mem_cons_self, hx⟩
    · obtain ⟨y, hy, hplaced⟩ := ih hp
      exact ⟨y, List.mem_cons_of_mem _ hy, hplaced⟩

/-- What the rows have from the placements of the request. -/
theorem map_of_placedAs {β : Type} {f : Placement → β} {g : CreatePlacement × ℕ → β}
    (h : List.Forall₂ (PlacedAs db b v) done rows)
    (hfg : ∀ x p, PlacedAs db b v x p → f p = g x) : rows.map f = done.map g := by
  induction h with
  | nil => rfl
  | cons hx _ ih => rw [List.map_cons, List.map_cons, ih, hfg _ _ hx]

/-- The placements of the new version are the rows that were inserted for it. -/
theorem placementsOf_withVersion (hdb : db.Schema) (hnew : ∀ r ∈ db.versions, r.id ≠ v.id)
    (hrows : List.Forall₂ (PlacedAs db b v) done rows) :
    (db.withVersion v rows).placementsOf v.id = rows := by
  have hold : db.placements.filter (fun p => p.versionId = v.id) = [] := by
    refine List.filter_eq_nil_iff.mpr fun p hp => ?_
    obtain ⟨r, hr, -, -, hid, -⟩ := hdb.placement_board p hp
    have hne := hnew r hr
    rw [hid] at hne
    simpa using hne
  have hself : rows.filter (fun p => p.versionId = v.id) = rows := by
    refine List.filter_eq_self.mpr fun p hp => ?_
    obtain ⟨x, -, hx⟩ := placedAs_of_mem hrows hp
    simpa using hx.versionId
  rw [Database.placementsOf, Database.withVersion, List.filter_append, hold, hself,
    List.nil_append]

/-- The insertion of one placement when nothing stands in its way. -/
theorem execInsertPlacement_withVersion (hdb : db.Schema) (hnew : ∀ r ∈ db.versions, r.id ≠ v.id)
    (hrows : List.Forall₂ (PlacedAs db b v) done rows) {e : Entry} (he : e ∈ db.entriesOf b.id)
    (hother : ∀ y ∈ done, y.1.entrySlug ≠ e.slug) {u : Uuid}
    (hu : ∀ r ∈ db.placements ++ rows, r.id ≠ u) (position : Option ℤ) (score : Option F64)
    (tier : Option String) (metadata : Option Json) :
    execInsertPlacement u (db.withVersion v rows) v.id e.id position score tier metadata =
      .ok (⟨u, v.id, e.id, position, score, tier, metadata⟩,
        [.addPlacement ⟨u, v.id, e.id, position, score, tier, metadata⟩]) := by
  have hmem := (Database.mem_entriesOf.mp he).1
  -- Rows of other versions have another version id, since the version is new.
  have hunique : (db.placements ++ rows).any (fun r => r.id = u ∨
      r.versionId = v.id ∧ r.entryId = e.id) = false := by
    rw [List.any_eq_false]
    intro r hr
    simp only [decide_eq_true_eq, not_or, not_and]
    refine ⟨hu r hr, fun hversion hentry => ?_⟩
    rcases List.mem_append.mp hr with hr | hr
    · obtain ⟨r', hr', -, -, hid, -⟩ := hdb.placement_board r hr
      exact hnew r' hr' (hid.trans hversion)
    · -- The entries of the rows so far have other slugs.
      obtain ⟨y, hy, hplaced⟩ := placedAs_of_mem hrows hr
      obtain ⟨e', he', hid, hslug⟩ := hplaced.entry
      obtain rfl := hdb.entry_inj (Database.mem_entriesOf.mp he').1 hmem (hid.trans hentry)
      exact hother y hy hslug.symm
  have hversion : (db.withVersion v rows).version? v.id ≠ none := by
    intro hnone
    exact Database.version?_eq_none.mp hnone v (List.mem_append_right _ List.mem_cons_self) rfl
  have hentry : (db.withVersion v rows).entryById? e.id ≠ none := fun hnone =>
    Database.entryById?_eq_none.mp hnone e hmem rfl
  have hplacements : (db.withVersion v rows).placements = db.placements ++ rows := rfl
  simp only [execInsertPlacement, hplacements, hunique]
  rw [if_neg Bool.false_ne_true, if_neg]
  simpa [Option.isNone_iff_eq_none] using ⟨hversion, hentry⟩

end Rows

/-! ### The walk -/

/-- The ids of a new version and of its rows come from the supply. -/
structure World.NewIds (env : Supply) (w w' : World) (v : Version) (rows : List Placement) :
    Prop where
  version : ∃ n, w.tick ≤ n ∧ n < w'.tick ∧ v.id = env.uuid n
  nodup : (rows.map Placement.id).Nodup
  placements : ∀ p ∈ rows, ∃ n, w.tick ≤ n ∧ n < w'.tick ∧ p.id = env.uuid n

theorem World.NewIds.mono {w₀ w₁ w₂ : World} {v : Version} {rows : List Placement}
    (h : World.NewIds env w₀ w₁ v rows) (hw : w.tick ≤ w₀.tick) (hw₂ : w₁.tick ≤ w₂.tick) :
    World.NewIds env w w₂ v rows where
  version := by
    obtain ⟨n, hle, hlt, hid⟩ := h.version
    exact ⟨n, by omega, by omega, hid⟩
  nodup := h.nodup
  placements p hp := by
    obtain ⟨n, hle, hlt, hid⟩ := h.placements p hp
    exact ⟨n, by omega, by omega, hid⟩

/-- How far the insertion of the placements is. -/
structure World.Inserting (env : Supply) (w : World) (b : Board) (v : Version)
    (ps : List (CreatePlacement × ℕ)) (answers : List PlacementWithEntry)
    (rest : List (CreatePlacement × ℕ)) (rows : List Placement) (w' : World) : Prop where
  session : w'.session.isSome = true
  server : w'.server = w.server
  tick : w.tick ≤ w'.tick
  view : w'.view = w.view.withVersion v rows
  placed : ∃ done, done ++ rest = ps ∧ List.Forall₂ (PlacedAs w.view b v) done rows
  answers : answers = rows.filterMap w.view.withEntry
  ids : ∀ p ∈ rows, ∃ n, w.tick ≤ n ∧ n < w'.tick ∧ p.id = env.uuid n
  nodup : (rows.map Placement.id).Nodup

/-- **The insertion of the placements.** -/
theorem ends_insertPlacements {b : Board} {v : Version} {entries : List (Uuid × String × String)}
    {ps : List (CreatePlacement × ℕ)} {w₁ : World} {P : Error → World → Prop}
    (hdb : w.view.Schema) (hnew : ∀ r ∈ w.view.versions, r.id ≠ v.id)
    (hentries : ∀ x ∈ ps, ∃ e ∈ w.view.entriesOf b.id, e.slug = x.1.entrySlug ∧
      entries.find? (fun e => e.2.1 = x.1.entrySlug) = some (e.id, e.slug, e.name))
    (hslugs : (ps.map fun x => x.1.entrySlug).Nodup)
    (hstart : w.Inserting env b v ps [] ps [] w₁)
    (hclash : (¬∀ n, w.tick ≤ n → w.view.Unused (env.uuid n)) → ∀ e w', P e w') :
    (Prog.collect ps (Versions.insertPlacement b v entries)).Ends (serve env)
      (Prog.outcome (fun answers w' => w₁.tick ≤ w'.tick ∧
        ∃ rows, w.Inserting env b v ps answers [] rows w') P)
      w₁ := by
  refine (Prog.ends_collect (I := fun answers rest w' => w₁.tick ≤ w'.tick ∧
    ∃ rows, w.Inserting env b v ps answers rest rows w') [] ?_ ⟨le_rfl, [], hstart⟩).mono
      fun r w' hr => by simpa using hr
  rintro answers x rest w₂ ⟨hpast, rows, h₂⟩
  -- The induction is on the placements that are still to come; `done` are those before `x`.
  obtain ⟨done, hsplit, hplaced⟩ := h₂.placed
  have hmem : x ∈ ps := hsplit ▸ List.mem_append_right _ List.mem_cons_self
  obtain ⟨e, he, hslug, hfind⟩ := hentries x hmem
  have hother : ∀ y ∈ done, y.1.entrySlug ≠ e.slug := by
    rw [← hsplit, List.map_append, List.map_cons] at hslugs
    have hne := (List.nodup_append.mp hslugs).2.2
    exact fun y hy heq => hne _ (List.mem_map_of_mem hy) _ List.mem_cons_self
      (heq.trans hslug)
  unfold Versions.insertPlacement
  rw [hfind]
  refine ends_statement h₂.session (fun err now w₃ hexec h₃ => ?_) fun now row ws w₃ hexec h₃ => ?_
  · refine hclash (fun hunused => ?_) _ _
    -- Apart from ids that are in use, nothing can refuse the row.
    have hu : ∀ r ∈ w.view.placements ++ rows, r.id ≠ env.uuid w₂.tick := by
      intro r hr
      rcases List.mem_append.mp hr with hr | hr
      · exact (hunused _ h₂.tick).placements r hr
      · obtain ⟨n, -, hlt, hid⟩ := h₂.ids r hr
        exact fun heq => hlt.ne (env.uuid_inj (hid.symm.trans heq))
    have hok := execInsertPlacement_withVersion hdb hnew hplaced he hother hu
      (Versions.storedPosition b x.1 x.2) x.1.score x.1.tier x.1.metadata
    rw [h₂.view] at hexec
    cases hexec.symm.trans hok
  · obtain ⟨rfl, -, -, -, -, hrow⟩ := execInsertPlacement_ok hexec
    have hjoined : w.view.withEntry row = some (row.joined e) := by
      rw [Database.withEntry, hrow, hdb.entryById?_eq (Database.mem_entriesOf.mp he).1]
      rfl
    have hplacedAs : PlacedAs w.view b v x row := by
      rw [hrow]
      exact ⟨rfl, ⟨e, he, rfl, hslug⟩, rfl, rfl, rfl, rfl⟩
    have htick := h₃.tick
    have htick₂ := h₂.tick
    -- One more placement is done, with the id that the supply gave at this tick.
    have hnext : w.Inserting env b v ps (answers ++ [row.joined e]) rest (rows ++ [row]) w₃ := {
      session := h₃.session
      server := h₃.server.trans h₂.server
      tick := by omega
      view := by
        rw [h₃.view, h₂.view]
        simp only [Database.applyAll_cons, Database.applyAll_nil, RowWrite.apply,
          Database.withVersion, Database.addPlacement, List.append_assoc]
      placed := ⟨done ++ [x], by simpa using hsplit,
        List.rel_append hplaced (.cons hplacedAs .nil)⟩
      answers := by
        rw [List.filterMap_append, ← h₂.answers, List.filterMap_cons, hjoined, List.filterMap_nil]
      ids := by
        intro p hp
        rcases List.mem_append.mp hp with hp | hp
        · obtain ⟨n, hle, hlt, hid⟩ := h₂.ids p hp
          exact ⟨n, hle, by omega, hid⟩
        · obtain rfl := List.mem_singleton.mp hp
          exact ⟨w₂.tick, h₂.tick, by omega, congrArg Placement.id hrow⟩
      nodup := by
        rw [List.map_append, List.map_singleton]
        refine List.nodup_append.mpr ⟨h₂.nodup, List.nodup_singleton _, fun x hx y hy => ?_⟩
        obtain ⟨p, hp, rfl⟩ := List.mem_map.mp hx
        obtain rfl := List.mem_singleton.mp hy
        obtain ⟨n, -, hlt, hid⟩ := h₂.ids p hp
        rw [hid, hrow]
        exact fun heq => hlt.ne (env.uuid_inj heq) }
    have hpast' : w₁.tick ≤ w₃.tick := by omega
    exact ⟨hpast', rows ++ [row], hnext⟩

/-- The number of the next version is positive. -/
theorem Database.Schema.next_pos (hdb : db.Schema) (boardId : Uuid) :
    0 < db.maxVersionNumber boardId + 1 := by
  have hmax : 0 ≤ db.maxVersionNumber boardId := by
    unfold Database.maxVersionNumber
    rcases hfind : ((db.versionsOf boardId).map Version.versionNumber).max? with _ | n
    · rfl
    · obtain ⟨v, hv, rfl⟩ := List.mem_map.mp (List.max?_mem hfind)
      exact (hdb.version_pos v (Database.mem_versionsOf.mp hv).1).le
  omega

/-- The insertion of the version row when nothing stands in its way. -/
theorem execInsertVersion_next (hdb : db.Schema) {b : Board} (hb : b ∈ db.boards) {u : Uuid}
    (hu : ∀ r ∈ db.versions, r.id ≠ u) (now : Timestamp) (note : Option String)
    (metadata : Option Json) :
    ∃ v, execInsertVersion u now db b.id (db.maxVersionNumber b.id + 1) note metadata =
      .ok (v, [.addVersion v]) := by
  have hnone : db.version? u = none := Database.version?_eq_none.mpr hu
  have hnumber : (db.versionsOf b.id).any
      (fun r => r.versionNumber = db.maxVersionNumber b.id + 1) = false := by
    rw [List.any_eq_false]
    intro r hr
    obtain ⟨hmem, hid⟩ := Database.mem_versionsOf.mp hr
    have hle := Database.le_maxVersionNumber hmem
    rw [hid] at hle
    simp only [decide_eq_true_eq]
    omega
  have hpos := hdb.next_pos b.id
  refine ⟨⟨u, b.id, db.maxVersionNumber b.id + 1, note, metadata, now⟩, ?_⟩
  simp [execInsertVersion, hnone, hnumber, hpos, hdb.board?_eq hb]

/-! ### The body of the transaction -/

/-- The answer to a creation: the rows in the order of the request, or for a scored board what
`fetch_placements` reads. -/
def AnswersWith (db : Database) (b : Board) (v : Version) (ps : List PlacementWithEntry) : Prop :=
  if b.boardType = "scored" then fetchPlacements db v.id = .ok ps else ps = db.placementRows v.id

/-- There is one tier lookup for each row. -/
theorem length_tierOrds {tierConfig : Option Json} {tiers : List (Option String)}
    {ords : List (Option ℤ)} (h : Contents.tierOrds tierConfig tiers = .ok ords) :
    ords.length = tiers.length := by
  induction tiers generalizing ords with
  | nil =>
    cases h
    rfl
  | cons tier tiers ih =>
    rw [Contents.tierOrds] at h
    obtain ⟨ord, -, h⟩ := Prog.except_bind_ok.mp h
    obtain ⟨ords', hords, h⟩ := Prog.except_bind_ok.mp h
    cases h
    rw [List.length_cons, List.length_cons, ih hords]

/-- The tier lookups of the placement queries, and the rows. -/
theorem withTierOrd_eq (tierConfig : Option Json) (ps : List PlacementWithEntry) :
    withTierOrd tierConfig ps =
      (Contents.tierOrds tierConfig (ps.map PlacementWithEntry.tier)).map fun ords =>
        ords.zip ps := by
  induction ps with
  | nil => rfl
  | cons p ps ih =>
    rw [withTierOrd, ih, List.map_cons, Contents.tierOrds]
    rcases tierOrd tierConfig p.tier with e | ord
    · rfl
    · rcases Contents.tierOrds tierConfig (ps.map PlacementWithEntry.tier) with e | ords
      · rfl
      · rfl

section Rows

variable {b : Board} {v : Version} {rows : List Placement} {done : List (CreatePlacement × ℕ)}

/-- The new version and its board. -/
theorem version?_withVersion (hnew : ∀ r ∈ db.versions, r.id ≠ v.id) (rows : List Placement) :
    (db.withVersion v rows).version? v.id = some v := by
  have hnone : db.versions.find? (fun r => r.id = v.id) = none := by
    simpa [List.find?_eq_none] using hnew
  rw [Database.version?, Database.withVersion, List.find?_append, hnone]
  simp

/-- The join of the new version loses no row, whatever the positions. -/
theorem withEntry_withVersion (hdb : db.Schema) (hrows : List.Forall₂ (PlacedAs db b v) done rows)
    {p q : Placement} (hp : p ∈ rows) (hq : q.entryId = p.entryId) :
    ∃ e ∈ db.entriesOf b.id, db.withEntry q = some (q.joined e) := by
  obtain ⟨x, -, hx⟩ := placedAs_of_mem hrows hp
  obtain ⟨e, he, hid, -⟩ := hx.entry
  refine ⟨e, he, ?_⟩
  rw [Database.withEntry, hq, ← hid, hdb.entryById?_eq (Database.mem_entriesOf.mp he).1]
  rfl

/-- The tiers of the new version are those of the request. -/
theorem tiers_withVersion (hdb : db.Schema) (hnew : ∀ r ∈ db.versions, r.id ≠ v.id)
    (hrows : List.Forall₂ (PlacedAs db b v) done rows) (l : List (Uuid × ℤ)) :
    (((db.withVersion v rows).setPositions l).placementRows v.id).map PlacementWithEntry.tier =
      done.map fun x => x.1.tier := by
  have hplacements : ((db.withVersion v rows).setPositions l).placementsOf v.id =
      rows.map (Database.withPosition l) := by
    rw [Database.placementsOf_setPositions, placementsOf_withVersion hdb hnew hrows]
  have htiers : ∀ p ∈ rows, (db.withEntry (Database.withPosition l p)).map
      PlacementWithEntry.tier = some p.tier := by
    intro p hp
    obtain ⟨e, -, he⟩ := withEntry_withVersion hdb hrows hp (Database.withPosition_entryId l p)
    rw [he, Option.map_some, Placement.joined_tier, Database.withPosition_tier]
  rw [Database.placementRows, hplacements, List.map_filterMap, List.filterMap_map,
    ← map_of_placedAs hrows fun _ _ hx => hx.tier, ← List.filterMap_eq_map]
  exact List.filterMap_congr fun p hp => htiers p hp

end Rows

/-- **What `fetch_placements` reads of the new version**, whatever the positions. -/
theorem CreatedVersion.fetchPlacements_setPositions {b : Board} {input : CreateVersion}
    {v : Version} {rows : List Placement} (h : CreatedVersion db b input v rows) (hdb : db.Schema)
    (l : List (Uuid × ℤ)) : fetchPlacements ((db.withVersion v rows).setPositions l) v.id =
      (Contents.tierOrds b.tierConfig (input.placements.map CreatePlacement.tier)).map fun ords =>
        (orderBy (tierKey db.collation) (ords.zip
          (((db.withVersion v rows).setPositions l).placementRows v.id))).map Prod.snd := by
  have hversion : ((db.withVersion v rows).setPositions l).version? v.id = some v :=
    version?_withVersion h.new rows
  have hboard : ((db.withVersion v rows).setPositions l).board? v.boardId = some b := by
    rw [h.boardId]
    exact h.board
  have htiers : (((db.withVersion v rows).setPositions l).placementRows v.id).map
      PlacementWithEntry.tier = input.placements.map CreatePlacement.tier := by
    rw [tiers_withVersion hdb h.new h.rows]
    exact map_zipIdx_fst CreatePlacement.tier input.placements
  rw [fetchPlacements, hversion, Option.bind_some, hboard]
  dsimp only
  rw [withTierOrd_eq, htiers]
  cases Contents.tierOrds b.tierConfig (input.placements.map CreatePlacement.tier) <;> rfl

theorem Database.setPositions_nil (db : Database) : db.setPositions [] = db := by
  have hsame : ∀ p, Database.withPosition [] p = p := fun _ => rfl
  rw [Database.setPositions, List.map_congr_left fun p _ => hsame p, List.map_id']

/-- What the checks find is found. -/
theorem find_of_checkEntriesFound {board : Board} {entries : List (Uuid × String × String)}
    {ps : List CreatePlacement} (h : Versions.checkEntriesFound board entries ps = .ok ()) :
    ∀ p ∈ ps, ∃ e, entries.find? (fun e => e.2.1 = p.entrySlug) = some e := by
  induction ps with
  | nil => simp
  | cons p ps ih =>
    rw [Versions.checkEntriesFound] at h
    split at h
    · rename_i hany
      rintro q hq
      rcases List.mem_cons.mp hq with rfl | hq
      · obtain ⟨e, he, hslug⟩ := List.any_eq_true.mp hany
        exact Option.isSome_iff_exists.mp (List.find?_isSome.mpr ⟨e, he, hslug⟩)
      · exact ih h q hq
    · cases h

/-- A row that the selection of the entries has. -/
theorem find_entriesNamed {boardId : Uuid} {slugs : List String} {slug : String}
    {x : Uuid × String × String}
    (h : (db.entriesNamed boardId slugs).find? (fun e => e.2.1 = slug) = some x) :
    ∃ e ∈ db.entriesOf boardId, e.slug = slug ∧ x = (e.id, e.slug, e.name) := by
  obtain ⟨e, he, rfl⟩ := List.mem_map.mp (List.mem_of_find?_eq_some h)
  exact ⟨e, (List.mem_filter.mp he).1, by simpa using List.find?_some h, rfl⟩

/-- The transaction has gone on, and now it sees these tables. -/
structure World.Sees (w w' : World) (db : Database) : Prop where
  session : w'.session.isSome = true
  server : w'.server = w.server
  tick : w.tick ≤ w'.tick
  view : w'.view = db

theorem World.Sees.refl (hs : w.session.isSome = true) : w.Sees w w.view := ⟨hs, rfl, le_rfl, rfl⟩

theorem World.Sees.write {w₁ w₂ : World} {ws : List RowWrite} (h : w.Sees w₁ db)
    (h₂ : w₁.Writes w₂ ws) : w.Sees w₂ (db.applyAll ws) where
  session := h₂.session
  server := h₂.server.trans h.server
  tick := by
    have htick := h.tick
    have htick₂ := h₂.tick
    omega
  view := by rw [h₂.view, h.view]

theorem World.Sees.read {w₁ w₂ : World} (h : w.Sees w₁ db) (h₂ : w₁.Writes w₂ []) :
    w.Sees w₂ db := h.write h₂

section Phases

variable {β : Type} {b : Board} {input : CreateVersion} {v : Version} {w₁ : World}
  {post : Except Error β → World → Prop}

/-- The limit on the number of versions. -/
theorem ends_checkVersionLimit {boardId : Uuid} {max : Option ℤ} {f : Unit → Action β}
    (h : w.Sees w₁ w.view)
    (herr : ∀ e w', w.view.checkVersionLimit boardId max = .error e → post (.error e) w')
    (hok : ∀ w', w.view.checkVersionLimit boardId max = .ok () → w.Sees w' w.view →
      (f ()).Ends env post w') :
    (Versions.checkVersionLimit boardId max >>= f).Ends env post w₁ := by
  cases max with
  | none => exact hok w₁ rfl h
  | some m =>
    unfold Versions.checkVersionLimit
    rw [bind_assoc]
    refine ends_query rfl h.session (fun e now w' hexec _ => by cases hexec)
      fun now count w₂ hexec h₂ => ?_
    obtain ⟨rfl, -⟩ := Prod.mk.inj (Except.ok.inj hexec)
    rw [h.view]
    refine Prog.ends_failIf (fun hm => herr _ w₂ ?_) fun hm => ?_
    · rw [Database.checkVersionLimit, if_pos hm]
    · refine hok w₂ ?_ (h.read h₂)
      rw [Database.checkVersionLimit, if_neg hm]

/-- The row of the new version. -/
structure World.NewVersion (env : Supply) (w w' : World) (b : Board) (input : CreateVersion)
    (v : Version) : Prop where
  boardId : v.boardId = b.id
  number : v.versionNumber = w.view.maxVersionNumber b.id + 1
  note : v.note = input.note
  metadata : v.metadata = input.metadata
  new : ∀ r ∈ w.view.versions, r.id ≠ v.id
  id : ∃ n, w.tick ≤ n ∧ n < w'.tick ∧ v.id = env.uuid n

/-- The number and the row of the version. -/
theorem ends_insertVersion {f : ℤ → Version → Action β} (hdb : w.view.Schema)
    (hb : b ∈ w.view.boards)
    (h : w.Sees w₁ w.view)
    (hrange : ∀ w', 2147483647 < w.view.maxVersionNumber b.id + 1 →
      post (.error (.database .outOfRange)) w')
    (hclash : (¬∀ n, w.tick ≤ n → w.view.Unused (env.uuid n)) → ∀ e w', post (.error e) w')
    (hok : ∀ v w', ¬2147483647 < w.view.maxVersionNumber b.id + 1 →
      w.NewVersion env w' b input v → w.Sees w' (w.view.withVersion v []) →
      (f v.versionNumber v).Ends env post w') :
    (Action.sql (.nextVersionNumber b.id) >>= fun number =>
      Action.sql (.insertVersion b.id number input.note input.metadata) >>= f number).Ends
        env post w₁ := by
  refine ends_query rfl h.session (fun e now w' hexec _ => ?_) fun now number w₂ hexec h₂ => ?_
  · simp only [exec, h.view] at hexec
    split at hexec
    · cases hexec
    · obtain rfl := Except.error.inj hexec
      exact hrange w' (by omega)
  simp only [exec, h.view] at hexec
  split at hexec
  swap
  · cases hexec
  rename_i hnumber
  obtain ⟨rfl, -⟩ := Prod.mk.inj (Except.ok.inj hexec)
  have hsees₂ := h.read h₂
  have htick₂ := hsees₂.tick
  refine ends_statement hsees₂.session (fun e now w' hexec _ => ?_) fun now v ws w₃ hexec h₃ => ?_
  · refine hclash (fun hunused => ?_) _ _
    -- The number is the next one, so only an id that is in use can refuse the row.
    have hu := (hunused w₂.tick htick₂).versions
    obtain ⟨v, hv⟩ := execInsertVersion_next hdb hb hu now input.note input.metadata
    rw [hsees₂.view] at hexec
    cases hexec.symm.trans hv
  · rw [hsees₂.view] at hexec
    obtain ⟨rfl, -, hnew, -, -, hv⟩ := execInsertVersion_ok hexec
    have htick₃ := h₃.tick
    have hsees₃ := hsees₂.write h₃
    have hnumber' : v.versionNumber = w.view.maxVersionNumber b.id + 1 := by rw [hv]
    rw [← hnumber']
    refine hok v w₃ (by omega) ?_ ?_
    · rw [hv]
      exact ⟨rfl, rfl, rfl, rfl, hnew, w₂.tick, htick₂, by omega, rfl⟩
    · rw [← applyAll_versionWrites]
      exact hsees₃

/-- The entries are looked up, and the placements inserted. -/
theorem ends_insertRows {f : List PlacementWithEntry → Action β} (hdb : w.view.Schema)
    (hvalid : Versions.validatePlacements b input.placements = .ok ())
    (hnew : ∀ r ∈ w.view.versions, r.id ≠ v.id) (h : w.Sees w₁ (w.view.withVersion v []))
    (hfound : ∀ e w', Versions.checkEntriesFound b (w.view.entriesNamed b.id
      (input.placements.map CreatePlacement.entrySlug)) input.placements = .error e →
      post (.error e) w')
    (hclash : (¬∀ n, w.tick ≤ n → w.view.Unused (env.uuid n)) → ∀ e w', post (.error e) w')
    (hok : ∀ rows answers w', Versions.checkEntriesFound b (w.view.entriesNamed b.id
      (input.placements.map CreatePlacement.entrySlug)) input.placements = .ok () →
      w₁.tick ≤ w'.tick → w.Inserting env b v input.placements.zipIdx answers [] rows w' →
      (f answers).Ends env post w') :
    (Action.sql (.selectEntriesBySlug b.id (input.placements.map CreatePlacement.entrySlug)) >>=
      fun entries => Prog.ofExcept (Versions.checkEntriesFound b entries input.placements) >>=
      fun _ => Prog.collect input.placements.zipIdx (Versions.insertPlacement b v entries) >>=
      f).Ends env post w₁ := by
  refine ends_query rfl h.session (fun e now w' hexec _ => by cases hexec)
    fun now entries w₂ hexec h₂ => ?_
  obtain rfl : entries = w.view.entriesNamed b.id
      (input.placements.map CreatePlacement.entrySlug) := by
    obtain ⟨rfl, -⟩ := Prod.mk.inj (Except.ok.inj hexec)
    rw [h.view]
    rfl
  refine Prog.ends_ofExcept (fun e he => hfound e w₂ he) fun _ hchecked => ?_
  -- `checkEntriesFound` has passed, so each placement has an entry among those that were read.
  have hps : ∀ x ∈ input.placements.zipIdx, ∃ e ∈ w.view.entriesOf b.id,
      e.slug = x.1.entrySlug ∧ (w.view.entriesNamed b.id
        (input.placements.map CreatePlacement.entrySlug)).find? (fun e => e.2.1 = x.1.entrySlug) =
          some (e.id, e.slug, e.name) := by
    intro x hx
    obtain ⟨y, hy⟩ := find_of_checkEntriesFound hchecked x.1 (List.fst_mem_of_mem_zipIdx hx)
    obtain ⟨e, he, hslug, rfl⟩ := find_entriesNamed hy
    exact ⟨e, he, hslug, hy⟩
  have hslugs : (input.placements.zipIdx.map fun x => x.1.entrySlug).Nodup := by
    have hnodup := (Versions.validatePlacements_iff.mp hvalid).1
    rwa [map_zipIdx_fst CreatePlacement.entrySlug input.placements]
  have hsees := h.read h₂
  have hstart : w.Inserting env b v input.placements.zipIdx [] input.placements.zipIdx [] w₂ :=
    ⟨hsees.session, hsees.server, hsees.tick, hsees.view, ⟨[], rfl, .nil⟩, rfl, by simp,
      List.nodup_nil⟩
  refine Prog.ends_bind ((ends_insertPlacements hdb hnew hps hslugs hstart hclash).mono
    fun r w₃ hr => ?_)
  rcases r with e | answers
  · exact hr
  · obtain ⟨htick₃, rows, h₃⟩ := hr
    have htick₂ := h₂.tick
    exact hok rows answers w₃ hchecked (by omega) h₃

end Phases

/-- The checks of the ranking of a scored board. -/
def checkRank (b : Board) (input : CreateVersion) : Except Error Unit :=
  if b.boardType = "scored" then
    if input.placements.length ≤ 2147483647 then
      ((Contents.tierOrds b.tierConfig (input.placements.map CreatePlacement.tier)).map
        fun _ => ()).mapError Error.database
    else .error (.database .outOfRange)
  else .ok ()

/-- What a scored board does with the placements it has inserted. -/
theorem ends_rank {b : Board} {input : CreateVersion} {v : Version} {rows : List Placement}
    {answers : List PlacementWithEntry} {w₁ : World}
    {post : Except Error VersionWithPlacements → World → Prop} (hdb : w.view.Schema)
    (hcreated : CreatedVersion w.view b input v rows)
    (h : w.Sees w₁ (w.view.withVersion v rows))
    (hanswers : answers = rows.filterMap w.view.withEntry)
    (herr : ∀ e w', checkRank b input = .error e → post (.error e) w')
    (hok : ∀ ps w', checkRank b input = .ok () → w₁.tick ≤ w'.tick →
      w.Sees w' ((w.view.withVersion v rows).applyAll
        (rankWrites (w.view.withVersion v rows) b v)) →
      AnswersWith w'.view b v ps → post (.ok ⟨v, ps⟩) w') :
    (if b.boardType = "scored" then do
      Versions.deriveScoredPositions v.id b.sortDirection
      let derived ← Versions.fetchPlacements v.id
      return ⟨v, derived⟩
    else return ⟨v, answers⟩ : Action VersionWithPlacements).Ends env post w₁ := by
  have hplacements := placementsOf_withVersion hdb hcreated.new hcreated.rows
  split
  · rename_i hscored
    have hcheck : checkRank b input = if input.placements.length ≤ 2147483647 then
        ((Contents.tierOrds b.tierConfig (input.placements.map CreatePlacement.tier)).map
          fun _ => ()).mapError Error.database else .error (.database .outOfRange) :=
      if_pos hscored
    have hlength : rows.length = input.placements.length := by
      rw [← hcreated.rows.length_eq, List.length_zipIdx]
    -- The positions.
    refine ends_statement h.session (fun e now w' hexec _ => herr _ w' ?_)
      fun now row ws w₂ hexec h₂ => ?_
    · simp only [exec, execDerivePositions, h.view, hplacements, hlength] at hexec
      split at hexec
      · cases hexec
      · rename_i hlong
        obtain rfl := Except.error.inj hexec
        rw [hcheck, if_neg hlong]
    simp only [exec, execDerivePositions, h.view, hplacements, hlength] at hexec
    split at hexec
    swap
    · cases hexec
    rename_i hshort
    obtain ⟨-, rfl⟩ := Prod.mk.inj (Except.ok.inj hexec)
    rw [if_pos hshort] at hcheck
    have hsees₂ := h.write h₂
    have hfetch := hcreated.fetchPlacements_setPositions hdb
      (rankedPositions (w.view.withVersion v rows) v.id (b.sortDirection = "asc"))
    have hview₂ : w₂.view = (w.view.withVersion v rows).setPositions
        (rankedPositions (w.view.withVersion v rows) v.id (b.sortDirection = "asc")) := hsees₂.view
    rw [← hview₂] at hfetch
    -- What is read back.
    refine ends_query rfl hsees₂.session (fun e now w' hexec _ => herr _ w' ?_)
      fun now ps w₃ hexec h₃ => ?_
    · simp only [exec, hfetch] at hexec
      rw [hcheck]
      rcases htierOrds : Contents.tierOrds b.tierConfig
        (input.placements.map CreatePlacement.tier) with e' | ords
      · rw [htierOrds] at hexec
        cases hexec
        rfl
      · rw [htierOrds] at hexec
        cases hexec
    · simp only [exec] at hexec
      have htick₂ := h₂.tick
      have htick₃ := h₃.tick
      have hsees₃ := hsees₂.read h₃
      rcases hps : fetchPlacements w₂.view v.id with e' | ps'
      · rw [hps] at hexec
        cases hexec
      · rw [hps] at hexec
        obtain ⟨rfl, -⟩ := Prod.mk.inj (Except.ok.inj hexec)
        refine hok ps' w₃ ?_ (by omega) ?_ ?_
        · rw [hfetch] at hps
          rw [hcheck]
          rcases htierOrds : Contents.tierOrds b.tierConfig
            (input.placements.map CreatePlacement.tier) with e' | ords
          · rw [htierOrds] at hps
            cases hps
          · rfl
        · rw [rankWrites, if_pos hscored]
          exact hsees₃
        · rw [AnswersWith, if_pos hscored, hsees₃.view, ← hsees₂.view]
          exact hps
  · rename_i hscored
    have hcheck : checkRank b input = .ok () := if_neg hscored
    refine hok answers w₁ hcheck le_rfl ?_ ?_
    · rwa [rankWrites, if_neg hscored]
    · rw [AnswersWith, if_neg hscored, h.view, Database.placementRows, hplacements, hanswers]
      rfl

/-- The checks that are left when the first three have passed. -/
theorem Database.checkCreateBody_rest {b : Board} {input : CreateVersion} {max : Option ℤ}
    (hlimit : db.checkVersionLimit b.id max = .ok ())
    (hvalid : Versions.validatePlacements b input.placements = .ok ())
    (hrange : ¬2147483647 < db.maxVersionNumber b.id + 1) :
    db.checkCreateBody b input max = Versions.checkEntriesFound b (db.entriesNamed b.id
      (input.placements.map CreatePlacement.entrySlug)) input.placements >>= fun _ =>
        checkRank b input := by
  rw [Database.checkCreateBody, hlimit, hvalid]
  dsimp only [bind, Except.bind]
  rw [if_neg hrange]
  rfl

/-- **The body of `versions::create`.** -/
theorem ends_createBody {b : Board} {input : CreateVersion} {max : Option ℤ}
    {post : Except Error VersionWithPlacements → World → Prop} (hs : w.session.isSome = true)
    (hdb : w.view.Schema) (hb : w.view.board? b.id = some b)
    (herr : ∀ e w', (w.view.checkCreateBody b input max = .error e ∨
      ¬∀ n, w.tick ≤ n → w.view.Unused (env.uuid n)) → post (.error e) w')
    (hok : ∀ v rows ps w', w.view.checkCreateBody b input max = .ok () →
      CreatedVersion w.view b input v rows → World.NewIds env w w' v rows →
      w'.session.isSome = true → w'.server = w.server → w.tick ≤ w'.tick →
      w'.view = (w.view.withVersion v rows).applyAll (rankWrites (w.view.withVersion v rows) b v) →
      AnswersWith w'.view b v ps → post (.ok ⟨v, ps⟩) w') :
    (Versions.createBody b.id input max).Ends env post w := by
  have hclash : (¬∀ n, w.tick ≤ n → w.view.Unused (env.uuid n)) → ∀ e w', post (.error e) w' :=
    fun h e w' => herr e w' (.inr h)
  unfold Versions.createBody
  refine ends_statement hs (fun e now w' hexec _ => ?_) fun now row ws w₁ hexec h₁ => ?_
  · simp only [exec, hb] at hexec
    cases hexec
  simp only [exec, hb] at hexec
  obtain ⟨rfl, rfl⟩ := Prod.mk.inj (Except.ok.inj hexec)
  refine ends_checkVersionLimit ((World.Sees.refl hs).write h₁) (fun e w' he => herr e w' (.inl ?_))
    fun w₂ hlimit h₂ => ?_
  · rw [Database.checkCreateBody, he]
    rfl
  refine Prog.ends_ofExcept (fun e he => herr e w₂ (.inl ?_)) fun _ hvalid => ?_
  · rw [Database.checkCreateBody, hlimit, he]
    rfl
  refine ends_insertVersion hdb (Database.mem_of_board? hb).1 h₂
    (fun w' hrange => herr _ w' (.inl ?_)) hclash fun v w₃ hrange hv h₃ => ?_
  · rw [Database.checkCreateBody, hlimit, hvalid]
    dsimp only [bind, Except.bind]
    rw [if_pos hrange]
  -- The checks so far have passed; what is left of `checkCreateBody` are the entries and the rank.
  have hrest := Database.checkCreateBody_rest hlimit hvalid hrange
  rw [hrest] at herr hok
  refine ends_insertRows hdb hvalid hv.new h₃ (fun e w' he => herr e w' (.inl ?_)) hclash
    fun rows answers w₄ hfound htick₄ h₄ => ?_
  · rw [he]
    rfl
  rw [hfound] at herr hok
  obtain ⟨done, hdone, hplaced⟩ := h₄.placed
  rw [List.append_nil] at hdone
  subst hdone
  have hcreated : CreatedVersion w.view b input v rows :=
    ⟨hb, hv.boardId, hv.number, hv.note, hv.metadata, hv.new, hplaced⟩
  obtain ⟨n, hle, hlt, hid⟩ := hv.id
  have hids : World.NewIds env w w₄ v rows := ⟨⟨n, hle, by omega, hid⟩, h₄.nodup, h₄.ids⟩
  refine ends_rank hdb hcreated ⟨h₄.session, h₄.server, h₄.tick, h₄.view⟩ h₄.answers
    (fun e w' he => herr e w' (.inl he)) fun ps w₅ hranked htick₅ h₅ hanswer => ?_
  exact hok v rows ps w₅ hranked hcreated (hids.mono le_rfl htick₅) h₅.session h₅.server h₅.tick
    h₅.view hanswer

/-- The transaction of a version creation sends statements only. -/
theorem isSql_createBody (boardId : Uuid) (input : CreateVersion) (max : Option ℤ) :
    (Versions.createBody boardId input max).Uses Cmd.IsSql := by
  refine Prog.uses_bind (uses_sql ⟨_, rfl⟩) fun board => Prog.uses_bind ?_ fun _ =>
    uses_check fun _ => Prog.uses_bind (uses_sql ⟨_, rfl⟩) fun _ =>
    Prog.uses_bind (uses_sql ⟨_, rfl⟩) fun version => Prog.uses_bind (uses_sql ⟨_, rfl⟩) fun _ =>
    uses_check fun _ => Prog.uses_bind (Prog.uses_collect fun x => ?_) fun _ => ?_
  · cases max with
    | none => trivial
    | some m => exact Prog.uses_bind (uses_sql ⟨_, rfl⟩) fun _ => Prog.uses_failIf _ _
  · unfold Versions.insertPlacement
    split
    · trivial
    · exact Prog.uses_bind (uses_sql ⟨_, rfl⟩) fun _ => trivial
  · split
    · exact Prog.uses_bind (uses_sql ⟨_, rfl⟩) fun _ =>
        Prog.uses_bind (uses_sql ⟨_, rfl⟩) fun _ => trivial
    · trivial

/-- **`versions::create`**: it stops with the error of the first check that fails, and then has
committed nothing, or it inserts the version. -/
theorem ends_createVersion {board b : Board} {input : CreateVersion} {max : Option ℤ}
    {post : Except Error VersionWithPlacements → World → Prop} (hs : w.session = none)
    (hdb : w.server.db.Schema) (hb : w.server.db.board? board.id = some b)
    (herr : ∀ e w', (w.server.db.checkCreate board b input max = .error e ∨
      ¬∀ n, w.tick ≤ n → w.server.db.Unused (env.uuid n)) → w.Saves w' [] → post (.error e) w')
    (hok : ∀ v rows ps w', w.server.db.checkCreate board b input max = .ok () →
      CreatedVersion w.server.db b input v rows → World.NewIds env w w' v rows →
      w.Saves w' (versionWrites v rows ++ rankWrites (w.server.db.withVersion v rows) b v) →
      AnswersWith w'.server.db b v ps → post (.ok ⟨v, ps⟩) w') :
    (Versions.create board input max).Ends env post w := by
  have hnothing : w.Saves w [] := ⟨hs, rfl, le_rfl⟩
  have hid : b.id = board.id := (Database.mem_of_board? hb).2
  unfold Versions.create
  refine Prog.ends_failIf (fun hacc => herr _ w (.inl ?_) hnothing) fun hacc => ?_
  · rw [Database.checkCreate, if_pos hacc]
    rfl
  refine Prog.ends_ofExcept (fun e he => herr e w (.inl ?_) hnothing) fun _ hvalid => ?_
  · rw [Database.checkCreate, if_neg hacc, he]
    rfl
  -- What is left to check is checked inside the transaction.
  have hcheck : w.server.db.checkCreate board b input max =
      w.server.db.checkCreateBody b input max := by
    rw [Database.checkCreate, if_neg hacc, hvalid]
    rfl
  rw [hcheck] at herr hok
  refine ends_save (isSql_createBody ..) fun w₀ h₀ => ?_
  have htick₀ := h₀.tick
  rw [← hid] at hb ⊢
  refine ends_createBody h₀.session (h₀.view ▸ hdb) (h₀.view ▸ hb) (fun e w' he w₂ h₂ => ?_) ?_
  · rw [h₀.view] at he
    refine herr e w₂ (he.imp_right fun hclash hunused => hclash fun n hn => ?_) h₂
    exact hunused n (by omega)
  · intro v rows ps w₁ hchecked hcreated hids _ _ _ hview hanswer
    rw [h₀.view] at hchecked hcreated hview
    refine ⟨_, ?_, fun w₂ h₂ htick => hok v rows ps w₂ hchecked hcreated
      (hids.mono (by omega) htick) h₂ ?_⟩
    · rw [hview, ← applyAll_versionWrites, Database.applyAll_append]
    · have hdb₂ : w₂.server.db = w₁.view := by
        rw [h₂.db, Database.applyAll_append, applyAll_versionWrites, hview]
      rw [hdb₂]
      exact hanswer

end Leaderboards
