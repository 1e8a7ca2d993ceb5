import Leaderboards.Library.Reader
import Leaderboards.Library.RowNumber
import Leaderboards.Repo.Boards
import Leaderboards.Repo.Versions

/-!
# The summary of a board and the history of an entry

`boards::get_summary`, `entries::get_by_slug` and `entries::history`, with the routes that call
them. They make selects that no other function makes (`Lookup`), next to those of `Store/Sql.lean`,
and all of them outside transactions.
-/

namespace Leaderboards

open Interaction Ranking

/-- `BoardSummary`. -/
structure BoardSummary where
  board : Board
  latestVersion : Option ℤ
  entryCount : ℕ

/-- `EntryHistoryItem`. -/
structure EntryHistoryItem where
  versionNumber : ℤ
  position : Option ℤ
  score : Option F64
  tier : Option String
  metadata : Option Json
  createdAt : Timestamp
deriving DecidableEq

/-- `LimitParam`. -/
structure LimitParam where
  limit : Option ℤ := none

/-- `LimitParam::effective_limit`. -/
def LimitParam.effectiveLimit (params : LimitParam) : ℤ :=
  max 1 (min maxPageLimit (params.limit.getD defaultPageLimit))

/-! ### The selects -/

/-- The selects of these functions. -/
inductive Lookup
  | latestNumber (boardId : Uuid)
  | entryCount (boardId : Uuid)
  | entryBySlug (boardId : Uuid) (slug : String)
  | entryHistory (entryId : Uuid) (limit : ℕ)

/-- What a select returns. -/
abbrev Lookup.Row : Lookup → Type
  | latestNumber .. => Option ℤ
  | entryCount .. => ℕ
  | entryBySlug .. => Option Entry
  | entryHistory .. => List EntryHistoryItem

/-- The row of a placement joined with its version. -/
def Placement.historyItem (p : Placement) (v : Version) : EntryHistoryItem where
  versionNumber := v.versionNumber
  position := p.position
  score := p.score
  tier := p.tier
  metadata := p.metadata
  createdAt := v.createdAt

/-- The placements of an entry joined with their versions, in the order of the version numbers. -/
def Database.historyOf (db : Database) (entryId : Uuid) : List EntryHistoryItem :=
  orderBy EntryHistoryItem.versionNumber ((db.placementsOfEntry entryId).filterMap fun p =>
    (db.version? p.versionId).map p.historyItem)

/-- The answer to a select. -/
def Lookup.answer (db : Database) : (l : Lookup) → l.Row
  | .latestNumber boardId =>
    (orderBy (fun v => -v.versionNumber) (db.versionsOf boardId)).head?.map Version.versionNumber
  | .entryCount boardId => (db.entriesOf boardId).length
  | .entryBySlug boardId slug => db.entryBySlug? boardId slug
  | .entryHistory entryId limit => (db.historyOf entryId).take limit

/-- The interface of these selects. -/
def Lookups : Signature := ⟨Lookup, fun l => Except DbError l.Row⟩

/-- A function that makes selects of both kinds. -/
abbrev Reading (α : Type) := Prog (Service.sum Lookups) Error α

/-- A select with `?` on its result. -/
def Lookup.fetch (l : Lookup) : Reading l.Row :=
  Prog.op (S := Service.sum Lookups) (.inr l) fun
    | .ok row => .ret row
    | .error e => .fail (.database e)

/-! ### The functions -/

/-- `boards::get_summary`. -/
def Boards.getSummary (slug : String) : Reading BoardSummary := do
  let board ← (Boards.getBySlug slug).inl
  let latestVersion ← (Lookup.latestNumber board.id).fetch
  let entryCount ← (Lookup.entryCount board.id).fetch
  return { board, latestVersion, entryCount }

/-- `entries::get_by_slug`. -/
def Entries.getBySlug (boardId : Uuid) (slug : String) : Reading Entry := do
  let entry ← (Lookup.entryBySlug boardId slug).fetch
  (Action.okOr entry (.notFound s!"entry '{slug}' not found")).inl

/-- `entries::history`. -/
def Entries.history (boardId : Uuid) (entrySlug : String) (limit : ℕ) :
    Reading (List EntryHistoryItem) := do
  let entry ← Entries.getBySlug boardId entrySlug
  (Lookup.entryHistory entry.id limit).fetch

/-- `routes::entries::get`. -/
def Routes.getEntry (boardSlug entrySlug : String) : Reading Entry := do
  let board ← (Boards.getBySlug boardSlug).inl
  Entries.getBySlug board.id entrySlug

/-- `routes::entries::history`. -/
def Routes.entryHistory (boardSlug entrySlug : String) (params : LimitParam) :
    Reading (List EntryHistoryItem) := do
  let board ← (Boards.getBySlug boardSlug).inl
  Entries.history board.id entrySlug params.effectiveLimit.toNat

end Leaderboards
