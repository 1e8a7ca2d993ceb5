import Leaderboards.Repo.Pagination
import Leaderboards.Repo.Validation

/-!
# `repo/boards.rs`
-/

namespace Leaderboards

open Interaction

namespace Boards

/-- The cross-field rules that `boards::create` and `import_board` share. -/
def validateFlags (input : CreateBoard) : Except Error Unit :=
  if input.accumulative = true ∧ input.boardType ≠ "scored" then
    .error (.validation "accumulative boards must have board_type 'scored'")
  else if input.realtime = true ∧ ¬(input.accumulative = true ∧ input.boardType = "scored") then
    .error (.validation "realtime boards must be accumulative and scored")
  else if input.clearOnSnapshot = true ∧ ¬input.realtime = true then
    .error (.validation "clear_on_snapshot requires realtime to be true")
  else .ok ()

/-- The validation at the head of `boards::create`. -/
def validateCreate (input : CreateBoard) : Except Error Unit := do
  validateSlug input.slug
  validateName input.name
  validateBoardType input.boardType
  validateSortDirection input.sortDirection
  if input.boardType = "tiered" then validateTierConfig input.tierConfig
  validateFlags input
  if input.boardType ≠ "scored" ∧ input.sortDirection ≠ "desc" then
    .error (.validation "sort_direction is only meaningful for scored boards")

/-- The insertion of a board row, with the unique violation reported as a conflict. -/
def insert (input : CreateBoard) : Action Board := do
  match ← Action.trySql (.insertBoard input) with
  | .ok board => return board
  | .error .uniqueViolation =>
    .fail (.conflict s!"board with slug '{input.slug}' already exists")
  | .error e => .fail (.database e)

/-- `boards::create`. -/
def create (input : CreateBoard) : Action Board := do
  Prog.ofExcept (validateCreate input)
  insert input

/-- `boards::get_by_slug`. -/
def getBySlug (slug : String) : Action Board := do
  let board ← Action.sql (.selectBoardBySlug slug)
  Action.okOr board (.notFound s!"board '{slug}' not found")

/-- `boards::list_paginated`: the newest boards first. -/
def listPaginated (fmt : CursorFormat) : PaginationParams → Action (PaginatedResponse Board) :=
  paginate fmt (fun b => (b.createdAt, b.id)) fun cursor limit =>
    Action.sql (.selectBoardsPage cursor limit)

/-- The validation of `boards::update` before the row is read. -/
def validateUpdateFields (input : UpdateBoard) : Except Error Unit := do
  if let some name := input.name then validateName name
  if let some sd := input.sortDirection then validateSortDirection sd

/-- The validation of `boards::update` against the locked row. -/
def validateUpdate (board : Board) (input : UpdateBoard) : Except Error Unit := do
  if input.sortDirection.isSome ∧ board.boardType ≠ "scored" then
    .error (.validation "sort_direction is only meaningful for scored boards")
  if board.boardType = "tiered" then
    match input.tierConfig with
    | .value v => validateTierConfig (some v)
    | .null => .error (.validation "tier_config cannot be null on tiered boards")
    | .absent => .ok ()
  let realtime := input.realtime.getD board.realtime
  let clearOnSnapshot := input.clearOnSnapshot.getD board.clearOnSnapshot
  if realtime = true ∧ ¬(board.accumulative = true ∧ board.boardType = "scored") then
    .error (.validation "realtime boards must be accumulative and scored")
  if clearOnSnapshot = true ∧ ¬realtime = true then
    .error (.validation "clear_on_snapshot requires realtime to be true")

/-- The `UPDATE` that `boards::update` sends for a PATCH of a row. -/
def updateQuery (board : Board) (input : UpdateBoard) : Query :=
  .updateBoard board.id (input.name.getD board.name)
    (input.sortDirection.getD board.sortDirection) (input.tierConfig.apply board.tierConfig)
    (input.metadata.apply board.metadata) (input.realtime.getD board.realtime)
    (input.clearOnSnapshot.getD board.clearOnSnapshot)

/-- `boards::update`. -/
def update (slug : String) (input : UpdateBoard) : Action Board := do
  Prog.ofExcept (validateUpdateFields input)
  Action.transaction do
    -- The row lock keeps concurrent PATCHes from overwriting each other.
    let row ← Action.sql (.selectBoardBySlugForUpdate slug)
    let board ← Action.okOr row (.notFound s!"board '{slug}' not found")
    Prog.ofExcept (validateUpdate board input)
    Action.sql (updateQuery board input)

/-- `boards::delete`. -/
def delete (slug : String) : Action Unit := do
  let rows ← Action.sql (.deleteBoard slug)
  Prog.failIf (rows = 0) (.notFound s!"board '{slug}' not found")

end Boards

end Leaderboards
