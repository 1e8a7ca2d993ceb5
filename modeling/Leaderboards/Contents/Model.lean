import Leaderboards.Sync.Execute

/-!
# What a board holds

`Contents` is a board without ids and times: the requests that would create it. The operations
below say what the repository functions mean for the contents, and `Contents.sync` what a sync
means: it is a function of the contents and of the parsed file. That the functions do to the
tables what the operations do to the contents is shown in `Contents/Calls.lean` and
`Contents/Syncing.lean`.
-/

namespace Leaderboards

open Ranking

/-- What a board holds. -/
structure Contents where
  board : CreateBoard
  /-- The entries in the order of their ids. -/
  entries : List CreateEntry := []
  /-- The versions with their numbers, in the order in which they were inserted. -/
  versions : List (ℤ × CreateVersion) := []
deriving DecidableEq

/-! ### Rows and contents -/

/-- The row that a creation inserts. -/
def CreateBoard.row (input : CreateBoard) (u : Uuid) (now : Timestamp) : Board where
  id := u
  slug := input.slug
  name := input.name
  boardType := input.boardType
  sortDirection := input.sortDirection
  tierConfig := input.tierConfig
  metadata := input.metadata
  accumulative := input.accumulative
  realtime := input.realtime
  clearOnSnapshot := input.clearOnSnapshot
  createdAt := now
  updatedAt := now

/-- The creation of a board row. -/
def Board.input (b : Board) : CreateBoard where
  slug := b.slug
  name := b.name
  boardType := b.boardType
  sortDirection := b.sortDirection
  tierConfig := b.tierConfig
  metadata := b.metadata
  accumulative := b.accumulative
  realtime := b.realtime
  clearOnSnapshot := b.clearOnSnapshot

/-- The creation of an entry row. -/
def Entry.input (e : Entry) : CreateEntry where
  slug := e.slug
  name := e.name
  metadata := e.metadata

/-- The placement of an entry with a slug, as a request states it. -/
def Placement.input (p : Placement) (entrySlug : String) : CreatePlacement where
  entrySlug := entrySlug
  position := p.position
  score := p.score
  tier := p.tier
  metadata := p.metadata

/-- A row of the join of a placement with its entry, without ids and names. -/
def CreatePlacement.joined (p : CreatePlacement) : PlacementWithEntry where
  id := 0
  versionId := 0
  entryId := 0
  position := p.position
  score := p.score
  tier := p.tier
  metadata := p.metadata
  entrySlug := p.entrySlug
  entryName := ""

/-- An entry after a PATCH. -/
def CreateEntry.patched (input : UpdateEntry) (e : CreateEntry) : CreateEntry where
  slug := e.slug
  name := input.name.getD e.name
  metadata := input.metadata.apply e.metadata

/-- A board after a PATCH. -/
def CreateBoard.patched (input : UpdateBoard) (b : CreateBoard) : CreateBoard where
  slug := b.slug
  name := input.name.getD b.name
  boardType := b.boardType
  sortDirection := input.sortDirection.getD b.sortDirection
  tierConfig := input.tierConfig.apply b.tierConfig
  metadata := input.metadata.apply b.metadata
  accumulative := b.accumulative
  realtime := input.realtime.getD b.realtime
  clearOnSnapshot := input.clearOnSnapshot.getD b.clearOnSnapshot

namespace Sync

/-- The file asks for another board row. -/
def rowDiffers (b : Board) (parsed : ParsedBoard) : Prop :=
  b.name ≠ parsed.board.name ∨ b.sortDirection ≠ parsed.board.sortDirection ∨
    b.tierConfig ≠ tierConfig parsed ∨ b.metadata ≠ parsed.board.metadata.map tomlToJson

instance (b : Board) (parsed : ParsedBoard) : Decidable (rowDiffers b parsed) := by
  unfold rowDiffers
  infer_instance

end Sync

namespace Contents

/-- A board row with these contents. -/
def row (c : Contents) : Board := c.board.row 0 0

/-! ### Entries -/

/-- `entries::create`. -/
def createEntry (c : Contents) (input : CreateEntry) : Except Error Contents := do
  validateSlug input.slug
  validateName input.name
  if c.entries.any fun e => e.slug = input.slug then
    .error (.conflict s!"entry with slug '{input.slug}' already exists on this board")
  else .ok { c with entries := c.entries ++ [input] }

/-- The entries after a PATCH of the one with a slug. -/
def patchEntries (slug : String) (input : UpdateEntry) (entries : List CreateEntry) :
    List CreateEntry :=
  entries.map fun e => if e.slug = slug then e.patched input else e

/-- `entries::update`. -/
def updateEntry (c : Contents) (slug : String) (input : UpdateEntry) : Except Error Contents := do
  if let some name := input.name then validateName name
  if c.entries.any fun e => e.slug = slug then
    .ok { c with entries := patchEntries slug input c.entries }
  else .error (.notFound s!"entry '{slug}' not found")

/-! ### Versions -/

/-- The version with the largest number. -/
def latest? (c : Contents) : Option (ℤ × CreateVersion) :=
  (orderBy (fun v : ℤ × CreateVersion => -v.1) c.versions).head?

/-- The number of the next version. -/
def nextNumber (c : Contents) : ℤ := ((c.versions.map Prod.fst).max?).getD 0 + 1

/-- The tier lookups of the placement queries. -/
def tierOrds (tierConfig : Option Json) : List (Option String) → Except DbError (List (Option ℤ))
  | [] => .ok []
  | tier :: tiers => do
    let ord ← tierOrd tierConfig tier
    let ords ← tierOrds tierConfig tiers
    .ok (ord :: ords)

/-- A placement row with the place of its entry among the entries as the id of the entry. -/
def placement (c : Contents) (p : CreatePlacement) : Placement where
  id := 0
  versionId := 0
  entryId := c.entries.findIdx fun e => e.slug = p.entrySlug
  position := p.position
  score := p.score
  tier := p.tier
  metadata := p.metadata

/-- The rank of a placement by score, ties by the place of the entry. -/
def scoreRank (c : Contents) (ps : List CreatePlacement) (p : CreatePlacement) : ℕ :=
  rank (scoreKey (c.board.sortDirection = "asc")) (ps.map c.placement) (c.placement p)

/-- The placements that a version stores. -/
def stored (c : Contents) (ps : List CreatePlacement) : List CreatePlacement :=
  if c.board.boardType = "scored" then
    ps.map fun p => { p with position := some (c.scoreRank ps p : ℤ) }
  else
    ps.zipIdx.map fun x => { x.1 with position := Versions.storedPosition c.row x.1 x.2 }

/-- The rows of the entries that the slugs name, without ids. -/
def listed (c : Contents) (slugs : List String) : List (Uuid × String × String) :=
  (c.entries.filter fun e => e.slug ∈ slugs).map fun e => (0, e.slug, e.name)

/-- The positions by score fit the column, and the placements can be read back. -/
def deriveScored (c : Contents) (ps : List CreatePlacement) : Except DbError Unit :=
  if ps.length ≤ 2147483647 then
    (tierOrds c.board.tierConfig (ps.map CreatePlacement.tier)).map fun _ => ()
  else .error .outOfRange

/-- The part of `versions::create` inside the transaction: the number of the new version, and the
contents with it. -/
def createBody (c : Contents) (input : CreateVersion) : Except Error (ℤ × Contents) := do
  Versions.validatePlacements c.row input.placements
  if 2147483647 < c.nextNumber then .error (.database .outOfRange)
  Versions.checkEntriesFound c.row
    (c.listed (input.placements.map CreatePlacement.entrySlug)) input.placements
  if c.board.boardType = "scored" then (c.deriveScored input.placements).mapError Error.database
  .ok (c.nextNumber, { c with
    versions := c.versions ++
      [(c.nextNumber, { input with placements := c.stored input.placements })] })

/-- `versions::create` without a limit. -/
def createVersion (c : Contents) (input : CreateVersion) : Except Error (ℤ × Contents) := do
  if c.board.accumulative = true then
    .error (.validation
      "cannot create versions directly on accumulative boards; use POST /boards/:slug/snapshot instead")
  Versions.validatePlacements c.row input.placements
  c.createBody input

/-! ### The sync -/

/-- `Sync.needsVersion`. -/
def needsVersion (c : Contents) (placements : List CreatePlacement) : Except Error Bool :=
  match c.latest? with
  | none => .ok true
  | some v =>
    match tierOrds c.board.tierConfig (v.2.placements.map CreatePlacement.tier) with
    | .error e => .error (.database e)
    | .ok _ => .ok (Sync.placementsChanged c.board.boardType
        (v.2.placements.map CreatePlacement.joined) placements)

/-- `Sync.createVersion`. -/
def syncVersion (c : Contents) (parsed : ParsedBoard) (note : Option String) :
    Except Error BoardSyncResult × Contents :=
  match c.createVersion
    { note := some (note.getD "Synced from file"), metadata := parsed.versionMetadata
      placements := parsed.entries.map Sync.placementOf } with
  | .error e => (.error e, c)
  | .ok (n, c') =>
    (.ok { slug := parsed.slug, name := c.board.name
           action := if n = 1 then .created n else .updated n }, c')

/-- `Sync.syncEntry`. -/
def syncEntry (existingEntries : List CreateEntry) (line : EntryToml) (c : Contents) :
    Except Error Contents :=
  match existingEntries.find? fun e => e.slug = line.slug with
  | none =>
    c.createEntry
      { slug := line.slug, name := line.name, metadata := Sync.entryMetadata line }
  | some e =>
    if e.name ≠ line.name ∨ e.metadata ≠ Sync.entryMetadata line then
      c.updateEntry line.slug
        { name := Sync.patchText e.name line.name
          metadata := Sync.patchField e.metadata (Sync.entryMetadata line) }
    else .ok c

/-- The loop over the file lines. -/
def syncLines (existingEntries : List CreateEntry) :
    List EntryToml → Contents → Except Error Unit × Contents
  | [], c => (.ok (), c)
  | line :: lines, c =>
    match syncEntry existingEntries line c with
    | .error e => (.error e, c)
    | .ok c' => syncLines existingEntries lines c'

/-- The part of `sync_board` after the file lines. -/
def versionStep (c : Contents) (parsed : ParsedBoard) (note : Option String)
    (rankingConfigChanged : Bool) : Except Error BoardSyncResult × Contents :=
  match (if rankingConfigChanged then .ok true
    else c.needsVersion (parsed.entries.map Sync.placementOf) : Except Error Bool) with
  | .error e => (.error e, c)
  | .ok true => c.syncVersion parsed note
  | .ok false => (.ok { slug := parsed.slug, name := c.board.name, action := .noChange }, c)

/-- The part of `sync_board` after the board row. -/
def afterRow (c : Contents) (parsed : ParsedBoard) (note : Option String)
    (rankingConfigChanged : Bool) : Except Error BoardSyncResult × Contents :=
  if parsed.entries = [] then
    (.ok { slug := parsed.slug, name := c.board.name, action := .noChange }, c)
  else
    match syncLines c.entries parsed.entries c with
    | (.error e, c') => (.error e, c')
    | (.ok (), c') => c'.versionStep parsed note rankingConfigChanged

/-- The validation of `boards::update`. -/
def validatePatch (c : Contents) (input : UpdateBoard) : Except Error Unit := do
  Boards.validateUpdateFields input
  Boards.validateUpdate c.row input

/-- A sync when there is no board with the slug of the file. -/
def syncNew (parsed : ParsedBoard) (note : Option String) :
    Except Error BoardSyncResult × Option Contents :=
  match Boards.validateCreate (Sync.boardOf parsed) with
  | .error e => (.error e, none)
  | .ok () =>
    let r := afterRow { board := Sync.boardOf parsed } parsed note false
    (r.1, some r.2)

/-- A sync of a board that is there. -/
def syncKnown (c : Contents) (parsed : ParsedBoard) (note : Option String) :
    Except Error BoardSyncResult × Contents :=
  if Sync.rowDiffers c.row parsed then
    match c.validatePatch (Sync.boardPatch c.row parsed) with
    | .error e => (.error e, c)
    | .ok () => afterRow { c with board := c.board.patched (Sync.boardPatch c.row parsed) }
        parsed note (Sync.rankingConfigChanged c.row parsed)
  else afterRow c parsed note (Sync.rankingConfigChanged c.row parsed)

/-- **`sync_board`**, for the contents under the slug of the file, if there is a board. -/
def sync (parsed : ParsedBoard) (note : Option String) (c? : Option Contents) :
    Except Error BoardSyncResult × Option Contents :=
  if parsed.board.accumulative = true then
    (.ok { slug := parsed.slug, name := parsed.board.name, action := .skipped Sync.skipReason }, c?)
  else
    match c? with
    | none => syncNew parsed note
    | some c => ((c.syncKnown parsed note).1, some (c.syncKnown parsed note).2)

variable {parsed : ParsedBoard}

theorem sync_skipped (h : parsed.board.accumulative = true) (note : Option String)
    (c? : Option Contents) : sync parsed note c? =
      (.ok { slug := parsed.slug, name := parsed.board.name
             action := .skipped Sync.skipReason }, c?) := if_pos h

theorem sync_none (h : parsed.board.accumulative = false) (note : Option String) :
    sync parsed note none = syncNew parsed note := if_neg (by simp [h])

theorem sync_some (h : parsed.board.accumulative = false) (note : Option String) (c : Contents) :
    sync parsed note (some c) =
      ((c.syncKnown parsed note).1, some (c.syncKnown parsed note).2) := if_neg (by simp [h])

end Contents

end Leaderboards
