import Leaderboards.Library.RowNumber
import Leaderboards.Store.Database
import Leaderboards.Store.Jsonb
import Mathlib.Data.Prod.Lex

/-!
# SQL statements

`Query` has one constructor for each statement the service sends, and `exec` is what the
statement does: it reads the tables as the session sees them and answers with a row set and
the row writes it makes, or with a database error. The `CHECK`, `UNIQUE` and foreign key
constraints of the schema are checked here, by the statement that could break them. Column
defaults come from outside: `u` is the next value of `uuidv7()` and `now` the transaction's
`now()`.
-/

namespace Leaderboards

open Ranking

/-- The SQL statements of the repository functions. -/
inductive Query
  | insertBoard (input : CreateBoard)
  | selectBoardBySlug (slug : String)
  | selectBoardBySlugForUpdate (slug : String)
  | selectBoardForUpdate (id : Uuid)
  | updateBoard (id : Uuid) (name sortDirection : String) (tierConfig metadata : Option Json)
      (realtime clearOnSnapshot : Bool)
  | deleteBoard (slug : String)
  | insertEntry (boardId : Uuid) (slug name : String) (metadata : Option Json)
  /-- `INSERT … ON CONFLICT (board_id, slug) DO UPDATE SET name`. -/
  | upsertEntry (boardId : Uuid) (slug name : String)
  | selectEntries (boardId : Uuid)
  | selectEntryForUpdate (boardId : Uuid) (slug : String)
  /-- `… WHERE board_id = $1 AND slug = ANY($2)`. -/
  | selectEntriesBySlug (boardId : Uuid) (slugs : List String)
  | updateEntry (id : Uuid) (name : String) (metadata : Option Json)
  | countVersionsPlacing (entryId : Uuid)
  | deleteEntry (id : Uuid)
  | countVersions (boardId : Uuid)
  /-- `COALESCE(MAX(version_number), 0) + 1`. -/
  | nextVersionNumber (boardId : Uuid)
  | insertVersion (boardId : Uuid) (versionNumber : ℤ) (note : Option String)
      (metadata : Option Json)
  | selectVersions (boardId : Uuid)
  | selectVersionByNumber (boardId : Uuid) (versionNumber : ℤ)
  | selectLatestVersion (boardId : Uuid)
  | selectVersionsSince (boardId : Uuid) (afterVersion : ℤ) (limit : ℕ)
  | insertPlacement (versionId entryId : Uuid) (position : Option ℤ) (score : Option F64)
      (tier : Option String) (metadata : Option Json)
  /-- The `UPDATE` of `derive_scored_positions`; `asc` is the interpolated order. -/
  | derivePositions (versionId : Uuid) (asc : Bool)
  /-- The placements of a version in tier order, as `fetch_placements` reads them. -/
  | selectPlacements (versionId : Uuid)
  /-- The placements of a version by position, as the snapshots read them. -/
  | selectSnapshotPlacements (versionId : Uuid)
  /-- The placements of all versions of a board, as `export_board` reads them. -/
  | selectBoardPlacements (boardId : Uuid)
  | upsertScore (boardId entryId : Uuid) (score : F64)
  | selectScores (boardId : Uuid)
  /-- The `INSERT` of `references::create`, joined with the pinned version. -/
  | insertReference (boardId : Uuid) (pinnedVersionId : Option Uuid) (uri refType : String)
      (label : Option String)
  | deleteReference (id boardId : Uuid)
  | insertCollection (slug name : String) (metadata : Option Json)
  | selectCollectionBySlug (slug : String)
  | selectCollectionBySlugForUpdate (slug : String)
  | updateCollection (id : Uuid) (name : String) (metadata : Option Json)
  | deleteCollection (slug : String)
  /-- The pages of the `list_paginated` functions: the rows after the cursor, at most `limit`. -/
  | selectBoardsPage (cursor : Option (Timestamp × Uuid)) (limit : ℕ)
  | selectEntriesPage (boardId : Uuid) (cursor : Option (Timestamp × Uuid)) (limit : ℕ)
  | selectVersionsPage (boardId : Uuid) (cursor : Option (Timestamp × Uuid)) (limit : ℕ)
  | selectCollectionsPage (cursor : Option (Timestamp × Uuid)) (limit : ℕ)
  | selectReferencesPage (boardId : Uuid) (cursor : Option (Timestamp × Uuid)) (limit : ℕ)
deriving DecidableEq

/-- What a statement returns when it succeeds. -/
abbrev Query.Row : Query → Type
  | insertBoard .. => Board
  | selectBoardBySlug .. => Option Board
  | selectBoardBySlugForUpdate .. => Option Board
  | selectBoardForUpdate .. => Board
  | updateBoard .. => Board
  | deleteBoard .. => ℕ
  | insertEntry .. => Entry
  | upsertEntry .. => Uuid
  | selectEntries .. => List Entry
  | selectEntryForUpdate .. => Option Entry
  | selectEntriesBySlug .. => List (Uuid × String × String)
  | updateEntry .. => Entry
  | countVersionsPlacing .. => ℕ
  | deleteEntry .. => Unit
  | countVersions .. => ℕ
  | nextVersionNumber .. => ℤ
  | insertVersion .. => Version
  | selectVersions .. => List Version
  | selectVersionByNumber .. => Option Version
  | selectLatestVersion .. => Option Version
  | selectVersionsSince .. => List Version
  | insertPlacement .. => Placement
  | derivePositions .. => Unit
  | selectPlacements .. => List PlacementWithEntry
  | selectSnapshotPlacements .. => List PlacementWithEntry
  | selectBoardPlacements .. => List PlacementWithEntry
  | upsertScore .. => AccumulatedScore
  | selectScores .. => List (Uuid × F64 × String × String)
  | insertReference .. => BoardReference
  | deleteReference .. => ℕ
  | insertCollection .. => Collection
  | selectCollectionBySlug .. => Option Collection
  | selectCollectionBySlugForUpdate .. => Option Collection
  | updateCollection .. => Collection
  | deleteCollection .. => ℕ
  | selectBoardsPage .. => List Board
  | selectEntriesPage .. => List Entry
  | selectVersionsPage .. => List Version
  | selectCollectionsPage .. => List Collection
  | selectReferencesPage .. => List BoardReference

/-! ### Sort keys -/

/-- `COALESCE(position, 2147483647)`. -/
def coalesceLast (x : Option ℤ) : ℤ := x.getD 2147483647

/-- `ORDER BY score ASC|DESC NULLS LAST, entry_id ASC`. -/
def scoreKey (asc : Bool) (p : Placement) : ℕ ×ₗ ℤ ×ₗ ℕ :=
  match p.score with
  | none => toLex (1, toLex (0, p.entryId))
  | some x => toLex (0, toLex (if asc then x.sqlKey else -x.sqlKey, p.entryId))

/-- `ORDER BY COALESCE(position, 2147483647) ASC, e.name ASC`. -/
def positionKey (c : Collation) (p : PlacementWithEntry) : ℤ ×ₗ c.Text :=
  toLex (coalesceLast p.position, c.text p.entryName)

/-- `ORDER BY COALESCE(tier_ord, 2147483647) ASC, COALESCE(position, 2147483647) ASC,
e.name ASC`. -/
def tierKey (c : Collation) (r : Option ℤ × PlacementWithEntry) : ℤ ×ₗ ℤ ×ₗ c.Text :=
  toLex (coalesceLast r.1, positionKey c r.2)

/-- The export order: by version number, then as in `tierKey`. -/
def exportKey (c : Collation) (r : ℤ × Option ℤ × PlacementWithEntry) :
    ℤ ×ₗ ℤ ×ₗ ℤ ×ₗ c.Text :=
  toLex (r.1, tierKey c r.2)

/-! ### Reads with a tier lookup -/

/-- Join every placement with the configured position of its tier. -/
def withTierOrd (tierConfig : Option Json) :
    List PlacementWithEntry → Except DbError (List (Option ℤ × PlacementWithEntry))
  | [] => .ok []
  | p :: ps => do
    let ord ← tierOrd tierConfig p.tier
    let rows ← withTierOrd tierConfig ps
    .ok ((ord, p) :: rows)

/-- The placements of the versions of a board, each with its version number. -/
def versionRows (db : Database) (tierConfig : Option Json) :
    List Version → Except DbError (List (ℤ × Option ℤ × PlacementWithEntry))
  | [] => .ok []
  | v :: vs => do
    let rows ← withTierOrd tierConfig (db.placementRows v.id)
    let rest ← versionRows db tierConfig vs
    .ok (rows.map (fun r => (v.versionNumber, r)) ++ rest)

/-- The query of `fetch_placements`. -/
def fetchPlacements (db : Database) (versionId : Uuid) :
    Except DbError (List PlacementWithEntry) :=
  match (db.version? versionId).bind fun v => db.board? v.boardId with
  | none => .ok []
  | some b => do
    let rows ← withTierOrd b.tierConfig (db.placementRows versionId)
    .ok ((orderBy (tierKey db.collation) rows).map Prod.snd)

/-- The placement query of `export_board`. -/
def fetchBoardPlacements (db : Database) (boardId : Uuid) :
    Except DbError (List PlacementWithEntry) :=
  match db.board? boardId with
  | none => .ok []
  | some b => do
    let rows ← versionRows db b.tierConfig (db.versionsOf boardId)
    .ok ((orderBy (exportKey db.collation) rows).map fun r => r.2.2)

/-! ### Pages -/

/-- The key that a page is ordered by: the time of creation, then the id. -/
abbrev PageKey := ℕ ×ₗ ℕ

/-- `(created_at, id)`. -/
def pageKey (createdAt : Timestamp) (id : Uuid) : PageKey := toLex (createdAt, id)

/-- `WHERE (created_at, id) > ($1, $2) ORDER BY created_at ASC, id ASC LIMIT`. -/
def ascendingPage {α : Type} (key : α → PageKey) (rows : List α)
    (cursor : Option (Timestamp × Uuid)) (limit : ℕ) : List α :=
  (orderBy key (rows.filter fun r => cursor.all fun c => pageKey c.1 c.2 < key r)).take limit

/-- `WHERE (created_at, id) < ($1, $2) ORDER BY created_at DESC, id DESC LIMIT`. -/
def descendingPage {α : Type} (key : α → PageKey) (rows : List α)
    (cursor : Option (Timestamp × Uuid)) (limit : ℕ) : List α :=
  (orderBy (fun r => OrderDual.toDual (key r))
    (rows.filter fun r => cursor.all fun c => key r < pageKey c.1 c.2)).take limit

/-! ### Constraints -/

/-- The `CHECK` constraints of `boards`. -/
def Board.checks (b : Board) : Prop :=
  (b.boardType = "ordered" ∨ b.boardType = "scored" ∨ b.boardType = "tiered") ∧
  (b.sortDirection = "asc" ∨ b.sortDirection = "desc") ∧
  (b.accumulative = true → b.boardType = "scored") ∧
  (b.realtime = true → b.accumulative = true ∧ b.boardType = "scored") ∧
  (b.clearOnSnapshot = true → b.realtime = true)

instance (b : Board) : Decidable b.checks := by unfold Board.checks; infer_instance

/-! ### Writing statements -/

section Write

variable (u : Uuid) (now : Timestamp) (db : Database)

/-- `INSERT INTO boards`. -/
def execInsertBoard (input : CreateBoard) : Except DbError (Board × List RowWrite) :=
  let b : Board :=
    { id := u, slug := input.slug, name := input.name, boardType := input.boardType
      sortDirection := input.sortDirection, tierConfig := input.tierConfig
      metadata := input.metadata, accumulative := input.accumulative, realtime := input.realtime
      clearOnSnapshot := input.clearOnSnapshot, createdAt := now, updatedAt := now }
  if ¬b.checks then .error .checkViolation
  else if (db.board? u).isSome ∨ (db.boardBySlug? input.slug).isSome then .error .uniqueViolation
  else .ok (b, [.addBoard b])

/-- `UPDATE boards SET … WHERE id`. -/
def execUpdateBoard (id : Uuid) (name sortDirection : String) (tierConfig metadata : Option Json)
    (realtime clearOnSnapshot : Bool) : Except DbError (Board × List RowWrite) :=
  match db.board? id with
  | none => .error .rowNotFound
  | some r =>
    let b : Board :=
      { r with name := name, sortDirection := sortDirection, tierConfig := tierConfig
               metadata := metadata, realtime := realtime, clearOnSnapshot := clearOnSnapshot
               updatedAt := now }
    if b.checks then .ok (b, [.setBoard b]) else .error .checkViolation

/-- `DELETE FROM boards WHERE slug`. -/
def execDeleteBoard (slug : String) : Except DbError (ℕ × List RowWrite) :=
  match db.boardBySlug? slug with
  | none => .ok (0, [])
  | some b => .ok (1, [.removeBoard b.id])

/-- `INSERT INTO entries`. -/
def execInsertEntry (boardId : Uuid) (slug name : String) (metadata : Option Json) :
    Except DbError (Entry × List RowWrite) :=
  let e : Entry :=
    { id := u, boardId := boardId, slug := slug, name := name, metadata := metadata
      createdAt := now, updatedAt := now }
  if (db.entryById? u).isSome ∨ (db.entryBySlug? boardId slug).isSome then .error .uniqueViolation
  else if (db.board? boardId).isNone then .error .foreignKeyViolation
  else .ok (e, [.addEntry e])

/-- `INSERT INTO entries … ON CONFLICT (board_id, slug) DO UPDATE SET name = …`. -/
def execUpsertEntry (boardId : Uuid) (slug name : String) :
    Except DbError (Uuid × List RowWrite) :=
  match db.entryBySlug? boardId slug with
  | some e => .ok (e.id, [.setEntry { e with name := name, updatedAt := now }])
  | none => (execInsertEntry u now db boardId slug name none).map fun r => (r.1.id, r.2)

/-- `UPDATE entries SET … WHERE id`. -/
def execUpdateEntry (id : Uuid) (name : String) (metadata : Option Json) :
    Except DbError (Entry × List RowWrite) :=
  match db.entryById? id with
  | none => .error .rowNotFound
  | some r =>
    let e : Entry := { r with name := name, metadata := metadata, updatedAt := now }
    .ok (e, [.setEntry e])

/-- `INSERT INTO versions`. -/
def execInsertVersion (boardId : Uuid) (versionNumber : ℤ) (note : Option String)
    (metadata : Option Json) : Except DbError (Version × List RowWrite) :=
  let v : Version :=
    { id := u, boardId := boardId, versionNumber := versionNumber, note := note
      metadata := metadata, createdAt := now }
  if ¬0 < versionNumber then .error .checkViolation
  else if (db.version? u).isSome ∨
      (db.versionsOf boardId).any (fun r => r.versionNumber = versionNumber) then
    .error .uniqueViolation
  else if (db.board? boardId).isNone then .error .foreignKeyViolation
  else .ok (v, [.addVersion v])

/-- `INSERT INTO placements`. -/
def execInsertPlacement (versionId entryId : Uuid) (position : Option ℤ) (score : Option F64)
    (tier : Option String) (metadata : Option Json) :
    Except DbError (Placement × List RowWrite) :=
  let p : Placement :=
    { id := u, versionId := versionId, entryId := entryId, position := position, score := score
      tier := tier, metadata := metadata }
  if db.placements.any (fun r => r.id = u ∨ r.versionId = versionId ∧ r.entryId = entryId) then
    .error .uniqueViolation
  else if (db.version? versionId).isNone ∨ (db.entryById? entryId).isNone then
    .error .foreignKeyViolation
  else .ok (p, [.addPlacement p])

/-- The ranked placements of a version: each placement id with its row number. -/
def rankedPositions (versionId : Uuid) (asc : Bool) : List (Uuid × ℤ) :=
  (rowNumbers (scoreKey asc) (db.placementsOf versionId)).map fun r => (r.1.id, (r.2 : ℤ))

/-- The `UPDATE` of `derive_scored_positions`. A row number is a `bigint`, and the assignment
to the `integer` column fails on one that does not fit. -/
def execDerivePositions (versionId : Uuid) (asc : Bool) : Except DbError (Unit × List RowWrite) :=
  if (db.placementsOf versionId).length ≤ 2147483647 then
    .ok ((), [.setPositions (rankedPositions db versionId asc)])
  else .error .outOfRange

/-- `INSERT INTO accumulated_scores … ON CONFLICT (board_id, entry_id) DO UPDATE SET score`. -/
def execUpsertScore (boardId entryId : Uuid) (score : F64) :
    Except DbError (AccumulatedScore × List RowWrite) :=
  match (db.scoresOf boardId).find? fun s => s.entryId = entryId with
  | some r =>
    let s : AccumulatedScore := { r with score := score, submittedAt := now }
    .ok (s, [.setScore s])
  | none =>
    let s : AccumulatedScore :=
      { id := u, boardId := boardId, entryId := entryId, score := score, submittedAt := now }
    if db.accumulatedScores.any (fun r => r.id = u) then .error .uniqueViolation
    else if (db.board? boardId).isNone ∨ (db.entryById? entryId).isNone then
      .error .foreignKeyViolation
    else .ok (s, [.addScore s])

/-- The `INSERT` of `references::create`. -/
def execInsertReference (boardId : Uuid) (pinnedVersionId : Option Uuid) (uri refType : String)
    (label : Option String) : Except DbError (BoardReference × List RowWrite) :=
  let r : ReferenceRow :=
    { id := u, boardId := boardId, pinnedVersionId := pinnedVersionId, uri := uri
      refType := refType, label := label, createdAt := now }
  if ¬(refType = "embed" ∨ refType = "citation" ∨ refType = "context") then
    .error .checkViolation
  else if db.references.any (fun x => x.id = u) then .error .uniqueViolation
  else if (db.board? boardId).isNone ∨ (pinnedVersionId.any fun id => (db.version? id).isNone) then
    .error .foreignKeyViolation
  else .ok (db.withPinned r, [.addReference r])

/-- `DELETE FROM board_references WHERE id AND board_id`. -/
def execDeleteReference (id boardId : Uuid) : Except DbError (ℕ × List RowWrite) :=
  if db.references.any (fun r => r.id = id ∧ r.boardId = boardId) then
    .ok (1, [.removeReference id])
  else .ok (0, [])

/-- `INSERT INTO collections`. -/
def execInsertCollection (slug name : String) (metadata : Option Json) :
    Except DbError (Collection × List RowWrite) :=
  let c : Collection :=
    { id := u, slug := slug, name := name, metadata := metadata, createdAt := now
      updatedAt := now }
  if (db.collection? u).isSome ∨ (db.collectionBySlug? slug).isSome then .error .uniqueViolation
  else .ok (c, [.addCollection c])

/-- `UPDATE collections SET … WHERE id`. -/
def execUpdateCollection (id : Uuid) (name : String) (metadata : Option Json) :
    Except DbError (Collection × List RowWrite) :=
  match db.collection? id with
  | none => .error .rowNotFound
  | some r =>
    let c : Collection := { r with name := name, metadata := metadata, updatedAt := now }
    .ok (c, [.setCollection c])

/-- `DELETE FROM collections WHERE slug`. -/
def execDeleteCollection (slug : String) : Except DbError (ℕ × List RowWrite) :=
  match db.collectionBySlug? slug with
  | none => .ok (0, [])
  | some c => .ok (1, [.removeCollection c.id])

end Write

/-- What a statement answers and the row writes it makes, on the tables the session sees. -/
def exec (u : Uuid) (now : Timestamp) :
    (q : Query) → Database → Except DbError (q.Row × List RowWrite)
  | .insertBoard input, db => execInsertBoard u now db input
  | .selectBoardBySlug slug, db => .ok (db.boardBySlug? slug, [])
  | .selectBoardBySlugForUpdate slug, db => .ok (db.boardBySlug? slug, [])
  | .selectBoardForUpdate id, db =>
    match db.board? id with
    | some b => .ok (b, [])
    | none => .error .rowNotFound
  | .updateBoard id name sortDirection tierConfig metadata realtime clearOnSnapshot, db =>
    execUpdateBoard now db id name sortDirection tierConfig metadata realtime clearOnSnapshot
  | .deleteBoard slug, db => execDeleteBoard db slug
  | .insertEntry boardId slug name metadata, db =>
    execInsertEntry u now db boardId slug name metadata
  | .upsertEntry boardId slug name, db => execUpsertEntry u now db boardId slug name
  | .selectEntries boardId, db => .ok (orderBy Entry.createdAt (db.entriesOf boardId), [])
  | .selectEntryForUpdate boardId slug, db => .ok (db.entryBySlug? boardId slug, [])
  | .selectEntriesBySlug boardId slugs, db =>
    .ok (((db.entriesOf boardId).filter fun e => e.slug ∈ slugs).map
      fun e => (e.id, e.slug, e.name), [])
  | .updateEntry id name metadata, db => execUpdateEntry now db id name metadata
  | .countVersionsPlacing entryId, db =>
    .ok (((db.placementsOfEntry entryId).map Placement.versionId).dedup.length, [])
  | .deleteEntry id, _ => .ok ((), [.removeEntry id])
  | .countVersions boardId, db => .ok ((db.versionsOf boardId).length, [])
  | .nextVersionNumber boardId, db =>
    let next := db.maxVersionNumber boardId + 1
    if next ≤ 2147483647 then .ok (next, []) else .error .outOfRange
  | .insertVersion boardId versionNumber note metadata, db =>
    execInsertVersion u now db boardId versionNumber note metadata
  | .selectVersions boardId, db =>
    .ok (orderBy (fun v => -v.versionNumber) (db.versionsOf boardId), [])
  | .selectVersionByNumber boardId versionNumber, db =>
    .ok ((db.versionsOf boardId).find? fun v => v.versionNumber = versionNumber, [])
  | .selectLatestVersion boardId, db =>
    .ok ((orderBy (fun v => -v.versionNumber) (db.versionsOf boardId)).head?, [])
  | .selectVersionsSince boardId afterVersion limit, db =>
    .ok (((orderBy Version.versionNumber (db.versionsOf boardId)).filter
      fun v => afterVersion < v.versionNumber).take limit, [])
  | .insertPlacement versionId entryId position score tier metadata, db =>
    execInsertPlacement u db versionId entryId position score tier metadata
  | .derivePositions versionId asc, db => execDerivePositions db versionId asc
  | .selectPlacements versionId, db => (fetchPlacements db versionId).map fun ps => (ps, [])
  | .selectSnapshotPlacements versionId, db =>
    .ok (orderBy (positionKey db.collation) (db.placementRows versionId), [])
  | .selectBoardPlacements boardId, db =>
    (fetchBoardPlacements db boardId).map fun ps => (ps, [])
  | .upsertScore boardId entryId score, db => execUpsertScore u now db boardId entryId score
  | .selectScores boardId, db =>
    .ok ((db.scoresOf boardId).filterMap fun s =>
      (db.entryById? s.entryId).map fun e => (s.entryId, s.score, e.slug, e.name), [])
  | .insertReference boardId pinnedVersionId uri refType label, db =>
    execInsertReference u now db boardId pinnedVersionId uri refType label
  | .deleteReference id boardId, db => execDeleteReference db id boardId
  | .insertCollection slug name metadata, db => execInsertCollection u now db slug name metadata
  | .selectCollectionBySlug slug, db => .ok (db.collectionBySlug? slug, [])
  | .selectCollectionBySlugForUpdate slug, db => .ok (db.collectionBySlug? slug, [])
  | .updateCollection id name metadata, db => execUpdateCollection now db id name metadata
  | .deleteCollection slug, db => execDeleteCollection db slug
  | .selectBoardsPage cursor limit, db =>
    .ok (descendingPage (fun b => pageKey b.createdAt b.id) db.boards cursor limit, [])
  | .selectEntriesPage boardId cursor limit, db =>
    .ok (ascendingPage (fun e => pageKey e.createdAt e.id) (db.entriesOf boardId) cursor limit, [])
  | .selectVersionsPage boardId cursor limit, db =>
    .ok (descendingPage (fun v => pageKey v.createdAt v.id) (db.versionsOf boardId) cursor limit,
      [])
  | .selectCollectionsPage cursor limit, db =>
    .ok (descendingPage (fun c => pageKey c.createdAt c.id) db.collections cursor limit, [])
  | .selectReferencesPage boardId cursor limit, db =>
    .ok ((ascendingPage (fun r => pageKey r.createdAt r.id) (db.referencesOf boardId) cursor
      limit).map db.withPinned, [])

end Leaderboards
