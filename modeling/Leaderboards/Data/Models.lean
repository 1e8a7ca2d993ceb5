import Leaderboards.Data.F64
import Leaderboards.Data.Json

/-!
# Rows, requests and errors

The structures of `models.rs` that the repository functions read and write, and the error
type of the core crate. Field names follow the source. A uuid is a natural number: only
equality and the order of ids are ever used. Timestamps are instants on one clock.
-/

namespace Leaderboards

/-- A row id. The database generates them and compares them as a tiebreak. -/
abbrev Uuid := ℕ

/-- An instant, as `now()` returns it. -/
abbrev Timestamp := ℕ

/-! ### Errors -/

/-- What the database can answer instead of a result. -/
inductive DbError
  | uniqueViolation
  | foreignKeyViolation
  | checkViolation
  /-- `fetch_one` found no row. -/
  | rowNotFound
  /-- A value does not fit the type it is computed in or cast to. -/
  | outOfRange
  /-- A text is not the literal of the type it is cast to. -/
  | invalidTextRepresentation
  /-- `jsonb_array_elements` was applied to something that is not an array. -/
  | notAnArray
  /-- The connection or the server failed. -/
  | connection
deriving DecidableEq

/-- The error type of the core crate. -/
inductive Error
  | config (msg : String)
  | notFound (msg : String)
  | conflict (msg : String)
  | validation (msg : String)
  | internal (msg : String)
  | serviceUnavailable (msg : String)
  | database (e : DbError)
deriving DecidableEq

/-- The message of a database error, up to the names and values that the server puts into it. -/
def DbError.display : DbError → String
  | .uniqueViolation => "duplicate key value violates unique constraint"
  | .foreignKeyViolation => "insert or update violates foreign key constraint"
  | .checkViolation => "new row violates check constraint"
  | .rowNotFound => "no rows returned by a query that expected to return at least one row"
  | .outOfRange => "integer out of range"
  | .invalidTextRepresentation => "invalid input syntax for type integer"
  | .notAnArray => "cannot extract elements from an object"
  | .connection => "error communicating with database"

/-- `Display` of an error. -/
def Error.display : Error → String
  | .config msg => s!"configuration error: {msg}"
  | .notFound msg => s!"not found: {msg}"
  | .conflict msg => s!"conflict: {msg}"
  | .validation msg => s!"validation error: {msg}"
  | .internal msg => s!"internal error: {msg}"
  | .serviceUnavailable msg => s!"service unavailable: {msg}"
  | .database e => s!"database error: {e.display}"

/-! ### Three-state fields of a PATCH -/

/-- A field of a PATCH: left out, set to null, or set to a value. -/
inductive Nullable (α : Type)
  | absent
  | null
  | value (v : α)
deriving DecidableEq

/-- The column value after a PATCH of a nullable column. -/
def Nullable.apply {α : Type} (old : Option α) : Nullable α → Option α
  | .absent => old
  | .null => none
  | .value v => some v

/-! ### Boards -/

/-- A row of `boards`. -/
structure Board where
  id : Uuid
  slug : String
  name : String
  boardType : String
  sortDirection : String
  tierConfig : Option Json
  metadata : Option Json
  accumulative : Bool
  realtime : Bool
  clearOnSnapshot : Bool
  createdAt : Timestamp
  updatedAt : Timestamp
deriving DecidableEq

/-- The body of a board creation. -/
structure CreateBoard where
  slug : String
  name : String
  boardType : String
  sortDirection : String := "desc"
  tierConfig : Option Json := none
  metadata : Option Json := none
  accumulative : Bool := false
  realtime : Bool := false
  clearOnSnapshot : Bool := false
deriving DecidableEq

/-- The body of a board PATCH. -/
structure UpdateBoard where
  name : Option String := none
  sortDirection : Option String := none
  tierConfig : Nullable Json := .absent
  metadata : Nullable Json := .absent
  realtime : Option Bool := none
  clearOnSnapshot : Option Bool := none
deriving DecidableEq

/-! ### Entries -/

/-- A row of `entries`. -/
structure Entry where
  id : Uuid
  boardId : Uuid
  slug : String
  name : String
  metadata : Option Json
  createdAt : Timestamp
  updatedAt : Timestamp
deriving DecidableEq

/-- The body of an entry creation. -/
structure CreateEntry where
  slug : String
  name : String
  metadata : Option Json := none
deriving DecidableEq

/-- The body of an entry PATCH. -/
structure UpdateEntry where
  name : Option String := none
  metadata : Nullable Json := .absent
deriving DecidableEq

/-! ### Versions and placements -/

/-- A row of `versions`. -/
structure Version where
  id : Uuid
  boardId : Uuid
  versionNumber : ℤ
  note : Option String
  metadata : Option Json
  createdAt : Timestamp
deriving DecidableEq

/-- A row of `placements`. -/
structure Placement where
  id : Uuid
  versionId : Uuid
  entryId : Uuid
  position : Option ℤ
  score : Option F64
  tier : Option String
  metadata : Option Json
deriving DecidableEq

/-- A placement of a version creation. -/
structure CreatePlacement where
  entrySlug : String
  position : Option ℤ := none
  score : Option F64 := none
  tier : Option String := none
  metadata : Option Json := none
deriving DecidableEq

/-- The body of a version creation. -/
structure CreateVersion where
  note : Option String := none
  metadata : Option Json := none
  placements : List CreatePlacement
deriving DecidableEq

/-- A placement joined with the entry it places. -/
structure PlacementWithEntry where
  id : Uuid
  versionId : Uuid
  entryId : Uuid
  position : Option ℤ
  score : Option F64
  tier : Option String
  metadata : Option Json
  entrySlug : String
  entryName : String
deriving DecidableEq

/-- The row of the join of a placement with its entry. -/
@[simps] def Placement.joined (p : Placement) (e : Entry) : PlacementWithEntry where
  id := p.id
  versionId := p.versionId
  entryId := p.entryId
  position := p.position
  score := p.score
  tier := p.tier
  metadata := p.metadata
  entrySlug := e.slug
  entryName := e.name

/-- A version together with its placements. -/
structure VersionWithPlacements where
  version : Version
  placements : List PlacementWithEntry
deriving DecidableEq

/-! ### Accumulated scores -/

/-- A row of `accumulated_scores`. -/
structure AccumulatedScore where
  id : Uuid
  boardId : Uuid
  entryId : Uuid
  score : F64
  submittedAt : Timestamp
deriving DecidableEq

/-- The body of a score submission. -/
structure SubmitScore where
  entrySlug : String
  entryName : String
  score : F64
deriving DecidableEq

/-- The body of a snapshot request. -/
structure SnapshotInput where
  note : Option String := none
  metadata : Option Json := none
deriving DecidableEq

/-! ### References -/

/-- A row of `board_references`. -/
structure ReferenceRow where
  id : Uuid
  boardId : Uuid
  pinnedVersionId : Option Uuid
  uri : String
  refType : String
  label : Option String
  createdAt : Timestamp
deriving DecidableEq

/-- A reference joined with the number of the version it pins. -/
structure BoardReference where
  id : Uuid
  boardId : Uuid
  pinnedVersionId : Option Uuid
  pinnedVersionNumber : Option ℤ
  uri : String
  refType : String
  label : Option String
  createdAt : Timestamp
deriving DecidableEq

/-- The body of a reference creation. -/
structure CreateReference where
  uri : String
  refType : String
  label : Option String := none
  pinnedVersionNumber : Option ℤ := none
deriving DecidableEq

/-! ### Collections -/

/-- A row of `collections`. -/
structure Collection where
  id : Uuid
  slug : String
  name : String
  metadata : Option Json
  createdAt : Timestamp
  updatedAt : Timestamp
deriving DecidableEq

/-- The body of a collection creation. -/
structure CreateCollection where
  slug : String
  name : String
  metadata : Option Json := none
deriving DecidableEq

/-- The body of a collection PATCH. -/
structure UpdateCollection where
  name : Option String := none
  metadata : Nullable Json := .absent
deriving DecidableEq

/-! ### The difference of two versions -/

/-- An entry that was added or removed, or that stayed. -/
structure DiffEntry where
  entrySlug : String
  entryName : String
  position : Option ℤ
  score : Option F64
  tier : Option String
deriving DecidableEq

/-- An entry whose position, score or tier changed. -/
structure DiffMovedEntry where
  entrySlug : String
  entryName : String
  fromPosition : Option ℤ
  toPosition : Option ℤ
  fromScore : Option F64
  toScore : Option F64
  fromTier : Option String
  toTier : Option String
deriving DecidableEq

/-- The difference of two versions. -/
structure VersionDiff where
  fromVersion : ℤ
  toVersion : ℤ
  added : List DiffEntry
  removed : List DiffEntry
  moved : List DiffMovedEntry
  unchanged : List DiffEntry
deriving DecidableEq

/-! ### Comparing scores -/

/-- `scores_equal`: absent scores are equal, present ones by their bits. -/
def scoresEqual : Option F64 → Option F64 → Bool
  | none, none => true
  | some x, some y => x.bits == y.bits
  | _, _ => false

@[simp] theorem scoresEqual_iff {a b : Option F64} : scoresEqual a b = true ↔ a = b := by
  rcases a with _ | ⟨⟨x⟩⟩ <;> rcases b with _ | ⟨⟨y⟩⟩ <;> simp [scoresEqual]

end Leaderboards
