import Leaderboards.Repo.Pagination
import Leaderboards.Repo.Validation

/-!
# `repo/entries.rs`
-/

namespace Leaderboards

open Interaction

namespace Entries

/-- `entries::create`. -/
def create (boardId : Uuid) (input : CreateEntry) : Action Entry := do
  Prog.ofExcept (validateSlug input.slug)
  Prog.ofExcept (validateName input.name)
  match ← Action.trySql (.insertEntry boardId input.slug input.name input.metadata) with
  | .ok entry => return entry
  | .error .uniqueViolation =>
    .fail (.conflict s!"entry with slug '{input.slug}' already exists on this board")
  | .error e => .fail (.database e)

/-- `entries::list`. -/
def list (boardId : Uuid) : Action (List Entry) := Action.sql (.selectEntries boardId)

/-- `entries::list_paginated`: the oldest entries first. -/
def listPaginated (fmt : CursorFormat) (boardId : Uuid) :
    PaginationParams → Action (PaginatedResponse Entry) :=
  paginate fmt (fun e => (e.createdAt, e.id)) fun cursor limit =>
    Action.sql (.selectEntriesPage boardId cursor limit)

/-- `entries::update`. -/
def update (boardId : Uuid) (slug : String) (input : UpdateEntry) : Action Entry := do
  if let some name := input.name then Prog.ofExcept (validateName name)
  Action.transaction do
    let row ← Action.sql (.selectEntryForUpdate boardId slug)
    let entry ← Action.okOr row (.notFound s!"entry '{slug}' not found")
    Action.sql (.updateEntry entry.id (input.name.getD entry.name)
      (input.metadata.apply entry.metadata))

/-- `entries::delete`. -/
def delete (boardId : Uuid) (slug : String) : Action Unit :=
  Action.transaction do
    -- The lock serializes against a version creation that may place this entry.
    let row ← Action.sql (.selectEntryForUpdate boardId slug)
    let entry ← Action.okOr row (.notFound s!"entry '{slug}' not found")
    -- A deletion would cascade into the placements of earlier versions.
    let versionCount ← Action.sql (.countVersionsPlacing entry.id)
    Prog.failIf (0 < versionCount) (.conflict
      s!"entry '{slug}' cannot be deleted because it has placements in {versionCount} version(s)")
    Action.sql (.deleteEntry entry.id)

end Entries

end Leaderboards
