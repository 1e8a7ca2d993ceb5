import Leaderboards.Repo.Pagination

/-!
# `repo/references.rs`

A reference links a board to a URI. It may pin a version, which the caller names by its number on
the board; the row stores the id of that version.
-/

namespace Leaderboards

open Interaction

namespace References

/-- `validate_ref_type`. -/
def validateRefType (refType : String) : Except Error Unit :=
  if refType = "embed" ∨ refType = "citation" ∨ refType = "context" then .ok ()
  else .error (.validation
    s!"invalid ref_type '{refType}': must be 'embed', 'citation', or 'context'")

/-- `validate_uri`; the length counts bytes. -/
def validateUri (uri : String) : Except Error Unit :=
  if uri.utf8ByteSize = 0 then .error (.validation "uri must not be empty")
  else if 2048 < uri.utf8ByteSize then
    .error (.validation "uri must not exceed 2048 characters")
  else .ok ()

/-- `validate_label`. -/
def validateLabel : Option String → Except Error Unit
  | none => .ok ()
  | some label =>
    if 256 < label.utf8ByteSize then
      .error (.validation "label must not exceed 256 characters")
    else .ok ()

/-- The id of the version with a number on the board. -/
def resolvePin (boardId : Uuid) : Option ℤ → Action (Option Uuid)
  | none => .ret none
  | some num => do
    let row ← Action.sql (.selectVersionByNumber boardId num)
    let version ← Action.okOr row (.notFound s!"version {num} not found on this board")
    return some version.id

/-- `references::create`. -/
def create (boardId : Uuid) (input : CreateReference) : Action BoardReference := do
  Prog.ofExcept (validateRefType input.refType)
  Prog.ofExcept (validateUri input.uri)
  Prog.ofExcept (validateLabel input.label)
  let pinnedVersionId ← resolvePin boardId input.pinnedVersionNumber
  Action.sql (.insertReference boardId pinnedVersionId input.uri input.refType input.label)

/-- `references::list_paginated`: the oldest references first. -/
def listPaginated (fmt : CursorFormat) (boardId : Uuid) :
    PaginationParams → Action (PaginatedResponse BoardReference) :=
  paginate fmt (fun r => (r.createdAt, r.id)) fun cursor limit =>
    Action.sql (.selectReferencesPage boardId cursor limit)

/-- `references::delete`. -/
def delete (boardId referenceId : Uuid) : Action Unit := do
  let rows ← Action.sql (.deleteReference referenceId boardId)
  Prog.failIf (rows = 0) (.notFound s!"reference '{referenceId}' not found")

end References

end Leaderboards
