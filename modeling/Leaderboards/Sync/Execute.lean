import Leaderboards.Repo.Boards
import Leaderboards.Repo.Entries
import Leaderboards.Repo.Versions
import Leaderboards.Sync.Parse

/-!
# `sync/execute.rs`

A sync compares a parsed board directory with the database: it creates or updates the board and
its entries, and creates a version when the placements differ from those of the latest one.
-/

namespace Leaderboards

open Interaction

/-- What a sync did to a board. -/
inductive SyncAction
  | created (versionNumber : ℤ)
  | updated (versionNumber : ℤ)
  | noChange
  | skipped (reason : String)
  | failed (error : String)
deriving DecidableEq

/-- The result of syncing a single board. -/
structure BoardSyncResult where
  slug : String
  name : String
  action : SyncAction
deriving DecidableEq

namespace Sync

/-- `n as i32`. -/
def asI32 (n : ℕ) : ℤ := Int.bmod n 4294967296

/-- The JSON of the tier at index `i`. The fields of the object stand in key order. -/
def tierJson (x : TierToml × ℕ) : Json :=
  .obj (("key", .str x.1.key) ::
    ((x.1.label.map fun l => ("label", Json.str l)).toList ++
      [("position", Json.int (asI32 (x.2 + 1)))]))

/-- The tier configuration of a parsed board. -/
def tierConfig (parsed : ParsedBoard) : Option Json :=
  if parsed.board.tiers = [] then none
  else some (.obj [("tiers", .arr (parsed.board.tiers.zipIdx.map tierJson))])

/-- The field of a PATCH that turns `old` into `new`. -/
def patchField (old new : Option Json) : Nullable Json :=
  if old ≠ new then
    match new with
    | some v => .value v
    | none => .null
  else .absent

/-- The field of a PATCH that turns the text `old` into `new`. -/
def patchText (old new : String) : Option String := if old ≠ new then some new else none

/-- The PATCH that brings a board row to the parsed file. -/
def boardPatch (existing : Board) (parsed : ParsedBoard) : UpdateBoard where
  name := patchText existing.name parsed.board.name
  sortDirection := patchText existing.sortDirection parsed.board.sortDirection
  tierConfig := patchField existing.tierConfig (tierConfig parsed)
  metadata := patchField existing.metadata (parsed.board.metadata.map tomlToJson)
  realtime := none
  clearOnSnapshot := none

/-- The direction or the tiers differ from the stored row: a new version is forced. -/
def rankingConfigChanged (existing : Board) (parsed : ParsedBoard) : Bool :=
  existing.sortDirection ≠ parsed.board.sortDirection ∨ existing.tierConfig ≠ tierConfig parsed

/-- The `CreateBoard` of a parsed file. -/
def boardOf (parsed : ParsedBoard) : CreateBoard where
  slug := parsed.slug
  name := parsed.board.name
  boardType := parsed.board.boardType
  sortDirection := parsed.board.sortDirection
  tierConfig := tierConfig parsed
  metadata := parsed.board.metadata.map tomlToJson
  accumulative := false
  realtime := false
  clearOnSnapshot := false

/-- Bring the board row to the parsed file; also whether the ranking configuration changed. -/
def syncBoardRow (parsed : ParsedBoard) : Action (Board × Bool) := do
  match ← (Boards.getBySlug parsed.slug).attempt with
  | .ok existing =>
    if existing.name ≠ parsed.board.name ∨
        existing.sortDirection ≠ parsed.board.sortDirection ∨
        existing.tierConfig ≠ tierConfig parsed ∨
        existing.metadata ≠ parsed.board.metadata.map tomlToJson then
      let board ← Boards.update parsed.slug (boardPatch existing parsed)
      return (board, rankingConfigChanged existing parsed)
    else return (existing, rankingConfigChanged existing parsed)
  | .error (.notFound _) =>
    let board ← Boards.create (boardOf parsed)
    return (board, false)
  | .error e => .fail e

/-- The stored metadata of a file entry. -/
def entryMetadata (entry : EntryToml) : Option Json := entry.metadata.map tomlToJson

/-- Create the entry of a file line, or update the row that `entries::list` returned for it. -/
def syncEntry (boardId : Uuid) (existingEntries : List Entry) (entry : EntryToml) :
    Action Unit :=
  match existingEntries.find? fun e => e.slug = entry.slug with
  | none => do
    let _ ← Entries.create boardId
      { slug := entry.slug, name := entry.name, metadata := entryMetadata entry }
  | some existing =>
    if existing.name ≠ entry.name ∨ existing.metadata ≠ entryMetadata entry then do
      let _ ← Entries.update boardId entry.slug
        { name := patchText existing.name entry.name
          metadata := patchField existing.metadata (entryMetadata entry) }
    else .ret ()

/-- The placement of a file line. -/
def placementOf (entry : EntryToml) : CreatePlacement where
  entrySlug := entry.slug
  position := entry.position
  score := entry.score
  tier := entry.tier
  metadata := entryMetadata entry

/-- Whether a proposed placement at index `idx` differs from the current one of its entry. -/
def placementChanged (boardType : String) (current : List PlacementWithEntry)
    (x : CreatePlacement × ℕ) : Bool :=
  match current.reverse.find? fun c => c.entrySlug = x.1.entrySlug with
  | none => true
  | some c =>
    (match x.1.position with
      | some _ => decide (c.position ≠ x.1.position)
      | none =>
        decide (boardType = "ordered") && decide (c.position ≠ some ((x.2 : ℤ) + 1))) ||
    !scoresEqual c.score x.1.score || decide (c.tier ≠ x.1.tier) ||
    decide (c.metadata ≠ x.1.metadata)

/-- `placements_changed`. -/
def placementsChanged (boardType : String) (current : List PlacementWithEntry)
    (proposed : List CreatePlacement) : Bool :=
  current.length ≠ proposed.length ∨
    proposed.zipIdx.any fun x => placementChanged boardType current x

/-- Whether the latest version differs from the proposed placements, or there is none. -/
def needsVersion (board : Board) (placements : List CreatePlacement) : Action Bool := do
  match ← (Versions.getLatest board.id).attempt with
  | .ok latest => return placementsChanged board.boardType latest.placements placements
  | .error (.notFound _) => return true
  | .error e => .fail e

/-- The reason given when an accumulative board is skipped. -/
def skipReason : String :=
  "accumulative boards are managed via score submission, not file sync"

/-- Create the version of a parsed file. -/
def createVersion (parsed : ParsedBoard) (board : Board) (note : Option String)
    (placements : List CreatePlacement) : Action BoardSyncResult := do
  let version ← Versions.create board
    { note := some (note.getD "Synced from file"), metadata := parsed.versionMetadata
      placements := placements } none
  let n := version.version.versionNumber
  return { slug := parsed.slug, name := board.name
           action := if n = 1 then .created n else .updated n }

/-- `sync_board`. -/
def syncBoard (parsed : ParsedBoard) (note : Option String) : Action BoardSyncResult :=
  if parsed.board.accumulative = true then
    .ret { slug := parsed.slug, name := parsed.board.name, action := .skipped skipReason }
  else do
    let (board, rankingConfigChanged) ← syncBoardRow parsed
    if parsed.entries = [] then
      return { slug := parsed.slug, name := board.name, action := .noChange }
    else
      let existingEntries ← Entries.list board.id
      Prog.each parsed.entries (syncEntry board.id existingEntries)
      let placements := parsed.entries.map placementOf
      let needed ←
        if rankingConfigChanged then pure true else needsVersion board placements
      if needed then createVersion parsed board note placements
      else return { slug := parsed.slug, name := board.name, action := .noChange }

/-- `sync_dir` after parsing: one result for each parsed board; a failure is recorded and the
loop goes on. -/
def syncDir (parsed : List ParsedBoard) (note : Option String) : Action (List BoardSyncResult) :=
  Prog.collect parsed fun p => do
    match ← (syncBoard p note).attempt with
    | .ok result => return result
    | .error e => return { slug := p.slug, name := p.slug, action := .failed e.display }

end Sync

end Leaderboards
