import Leaderboards.Repo.Pagination
import Leaderboards.Repo.Validation

/-!
# `repo/collections.rs`

The first half: the collection rows. The boards of a collection are in `Repo/CollectionBoards.lean`.
-/

namespace Leaderboards

open Interaction

namespace Collections

/-- `collections::create`. -/
def create (input : CreateCollection) : Action Collection := do
  Prog.ofExcept (validateSlug input.slug)
  Prog.ofExcept (validateName input.name)
  match ← Action.trySql (.insertCollection input.slug input.name input.metadata) with
  | .ok collection => return collection
  | .error .uniqueViolation =>
    .fail (.conflict s!"collection with slug '{input.slug}' already exists")
  | .error e => .fail (.database e)

/-- `collections::list_paginated`: the newest collections first. -/
def listPaginated (fmt : CursorFormat) : PaginationParams → Action (PaginatedResponse Collection) :=
  paginate fmt (fun c => (c.createdAt, c.id)) fun cursor limit =>
    Action.sql (.selectCollectionsPage cursor limit)

/-- `collections::get_by_slug`. -/
def getBySlug (slug : String) : Action Collection := do
  let collection ← Action.sql (.selectCollectionBySlug slug)
  Action.okOr collection (.notFound s!"collection '{slug}' not found")

/-- `collections::update`. -/
def update (slug : String) (input : UpdateCollection) : Action Collection := do
  if let some name := input.name then Prog.ofExcept (validateName name)
  Action.transaction do
    -- The row lock keeps concurrent PATCHes from overwriting each other.
    let row ← Action.sql (.selectCollectionBySlugForUpdate slug)
    let collection ← Action.okOr row (.notFound s!"collection '{slug}' not found")
    Action.sql (.updateCollection collection.id (input.name.getD collection.name)
      (input.metadata.apply collection.metadata))

/-- `collections::delete`. -/
def delete (slug : String) : Action Unit := do
  let rows ← Action.sql (.deleteCollection slug)
  Prog.failIf (rows = 0) (.notFound s!"collection '{slug}' not found")

end Collections

end Leaderboards
