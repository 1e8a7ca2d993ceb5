import Leaderboards.Repo.Boards
import Leaderboards.Repo.Versions

/-!
# `repo/export.rs`

A board travels as a document that names entries by slug. Import creates the board, its entries
and all of its versions in one transaction.
-/

namespace Leaderboards

open Interaction

/-- Board metadata for export. -/
structure BoardExportMeta where
  slug : String
  name : String
  boardType : String
  sortDirection : String
  tierConfig : Option Json
  metadata : Option Json
  accumulative : Bool
  realtime : Bool
  clearOnSnapshot : Bool
deriving DecidableEq

/-- A placement in the export format. -/
structure PlacementExport where
  entrySlug : String
  entryName : String
  position : Option ℤ
  score : Option F64
  tier : Option String
  metadata : Option Json
deriving DecidableEq

/-- A version in the export format. -/
structure VersionExport where
  versionNumber : ℤ
  note : Option String
  metadata : Option Json
  placements : List PlacementExport
deriving DecidableEq

/-- An export document. -/
structure BoardExport where
  board : BoardExportMeta
  versions : List VersionExport
deriving DecidableEq

/-- What an import reports. -/
structure ImportResult where
  boardSlug : String
  versionNumbers : List ℤ
deriving DecidableEq

namespace Export

/-- `From<&Board> for BoardExportMeta`. -/
def ofBoard (b : Board) : BoardExportMeta where
  slug := b.slug
  name := b.name
  boardType := b.boardType
  sortDirection := b.sortDirection
  tierConfig := b.tierConfig
  metadata := b.metadata
  accumulative := b.accumulative
  realtime := b.realtime
  clearOnSnapshot := b.clearOnSnapshot

/-- `From<&PlacementWithEntry> for PlacementExport`. -/
def ofPlacement (p : PlacementWithEntry) : PlacementExport where
  entrySlug := p.entrySlug
  entryName := p.entryName
  position := p.position
  score := p.score
  tier := p.tier
  metadata := p.metadata

/-- A version with the placements that carry its id. -/
def ofVersion (allPlacements : List PlacementWithEntry) (v : Version) : VersionExport where
  versionNumber := v.versionNumber
  note := v.note
  metadata := v.metadata
  placements := (allPlacements.filter fun p => p.versionId = v.id).map ofPlacement

/-- `sort_by_key(|v| v.version_number)`, which is stable. -/
def sortByNumber (vs : List VersionExport) : List VersionExport :=
  Ranking.orderBy VersionExport.versionNumber vs

/-- `export_board`. -/
def exportBoard (slug : String) : Action BoardExport := do
  let board ← Boards.getBySlug slug
  let versions ← Versions.list board.id
  let allPlacements ← Action.sql (.selectBoardPlacements board.id)
  return { board := ofBoard board, versions :=
    sortByNumber (versions.map (ofVersion allPlacements)) }

/-! ### Import -/

/-- The `CreatePlacement` of an exported placement. -/
def toCreatePlacement (p : PlacementExport) : CreatePlacement where
  entrySlug := p.entrySlug
  position := p.position
  score := p.score
  tier := p.tier
  metadata := p.metadata

/-- The board-like value that the placements are validated against. -/
def tempBoard (m : BoardExportMeta) : Board where
  id := 0
  slug := m.slug
  name := m.name
  boardType := m.boardType
  sortDirection := m.sortDirection
  tierConfig := m.tierConfig
  metadata := m.metadata
  accumulative := m.accumulative
  realtime := m.realtime
  clearOnSnapshot := m.clearOnSnapshot
  createdAt := 0
  updatedAt := 0

/-- The validation of all versions before the transaction. -/
def validateVersions (m : BoardExportMeta) : List VersionExport → Except Error Unit
  | [] => .ok ()
  | v :: vs => do
    Versions.validatePlacements (tempBoard m) (v.placements.map toCreatePlacement)
    validateVersions m vs

/-- The `CreateBoard` of an export document. -/
def createBoardOf (m : BoardExportMeta) : CreateBoard where
  slug := m.slug
  name := m.name
  boardType := m.boardType
  sortDirection := m.sortDirection
  tierConfig := m.tierConfig
  metadata := m.metadata
  accumulative := m.accumulative
  realtime := m.realtime
  clearOnSnapshot := m.clearOnSnapshot

/-- The field checks of `import_board`. Unlike `boards::create` it does not look at the tier
configuration, nor at the direction of a board that is not scored. -/
def validateImport (input : CreateBoard) : Except Error Unit := do
  validateSlug input.slug
  validateName input.name
  validateBoardType input.boardType
  validateSortDirection input.sortDirection
  Boards.validateFlags input

/-- The entries of a document by slug, each with the name seen last. -/
def entryNames (versions : List VersionExport) : List (String × String) :=
  (versions.flatMap VersionExport.placements).foldl
    (fun names p => assocSet names p.entrySlug p.entryName) []

/-- The iteration order of a `HashMap`: some permutation of its items. -/
structure HashOrder where
  order : List (String × String) → List (String × String)
  perm : ∀ l, (order l).Perm l

/-- Insert one entry of the document and return its slug and id. -/
def importEntry (boardId : Uuid) (x : String × String) : Action (String × Uuid) := do
  Prog.ofExcept (validateSlug x.1)
  Prog.ofExcept (validateName x.2)
  let entry ← Action.sql (.insertEntry boardId x.1 x.2 none)
  return (x.1, entry.id)

/-- Insert one placement of the document. -/
def importPlacement (versionId : Uuid) (entryIds : List (String × Uuid)) (p : PlacementExport) :
    Action Unit :=
  match entryIds.find? fun e => e.1 = p.entrySlug with
  | none => .fail (.validation s!"unknown entry slug '{p.entrySlug}' in export")
  | some (_, entryId) => do
    let _ ← Action.sql
      (.insertPlacement versionId entryId p.position p.score p.tier p.metadata)

/-- Insert one version of the document with its placements. -/
def importVersion (board : Board) (entryIds : List (String × Uuid)) (v : VersionExport) :
    Action Unit := do
  let version ← Action.sql (.insertVersion board.id v.versionNumber v.note v.metadata)
  Prog.each v.placements (importPlacement version.id entryIds)
  if board.boardType = "scored" then
    Versions.deriveScoredPositions version.id board.sortDirection

/-- The part of `import_board` inside the transaction. -/
def importBody (hashOrder : HashOrder) (doc : BoardExport) : Action ImportResult := do
  Prog.ofExcept (validateImport (createBoardOf doc.board))
  let board ← Boards.insert (createBoardOf doc.board)
  let entryIds ← Prog.collect (hashOrder.order (entryNames doc.versions)) (importEntry board.id)
  Prog.each (sortByNumber doc.versions) (importVersion board entryIds)
  return { boardSlug := board.slug
           versionNumbers := (sortByNumber doc.versions).map VersionExport.versionNumber }

/-- `import_board`. -/
def importBoard (hashOrder : HashOrder) (doc : BoardExport) : Action ImportResult := do
  Prog.ofExcept (validateVersions doc.board doc.versions)
  Action.transaction (importBody hashOrder doc)

end Export

end Leaderboards
