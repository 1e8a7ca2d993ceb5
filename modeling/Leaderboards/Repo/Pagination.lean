import Leaderboards.Library.Keyset
import Leaderboards.Service

/-!
# Pagination

The listings answer in pages. A cursor is the time of creation and the id of the last row of a
page, as text. The text formats come from outside: `CursorFormat` has the RFC 3339 texts of
timestamps and the texts of uuids. `paginate` is the common shape of the `list_paginated`
functions; each of them passes its own query.
-/

namespace Leaderboards

open Interaction

/-- The texts of timestamps and uuids. -/
structure CursorFormat where
  /-- `DateTime::to_rfc3339`. -/
  rfc3339 : Timestamp → String
  parseTimestamp : String → Option Timestamp
  uuidText : Uuid → String
  parseUuid : String → Option Uuid

/-- The texts of a timestamp and a uuid are read back as what they stand for, and the timestamp's
has no comma. -/
structure CursorFormat.RoundTrips (fmt : CursorFormat) (x : Timestamp × Uuid) : Prop where
  timestamp : fmt.parseTimestamp (fmt.rfc3339 x.1) = some x.1
  uuid : fmt.parseUuid (fmt.uuidText x.2) = some x.2
  comma : ∀ c ∈ (fmt.rfc3339 x.1).toList, c ≠ ','

/-- `PaginationParams`. -/
structure PaginationParams where
  limit : Option ℤ := none
  cursor : Option String := none

/-- `DEFAULT_PAGE_LIMIT`. -/
def defaultPageLimit : ℤ := 50

/-- `MAX_PAGE_LIMIT`. -/
def maxPageLimit : ℤ := 200

/-- `effective_limit`. -/
def PaginationParams.effectiveLimit (params : PaginationParams) : ℤ :=
  max 1 (min maxPageLimit (params.limit.getD defaultPageLimit))

theorem PaginationParams.effectiveLimit_pos (params : PaginationParams) :
    1 ≤ params.effectiveLimit := le_max_left _ _

/-- `splitn(2, ',')`, when it gives two parts. -/
def splitComma (cursor : String) : Option (String × String) :=
  match cursor.toList.dropWhile (fun c => c ≠ ',') with
  | [] => none
  | _ :: rest => some (String.ofList (cursor.toList.takeWhile fun c => c ≠ ','), String.ofList rest)

/-- `decode_cursor`. -/
def PaginationParams.decodeCursor (fmt : CursorFormat) (params : PaginationParams) :
    Except Error (Option (Timestamp × Uuid)) :=
  match params.cursor with
  | none => .ok none
  | some cursor =>
    match splitComma cursor with
    | none => .error (.validation "invalid cursor format")
    | some (ts, id) =>
      match fmt.parseTimestamp ts, fmt.parseUuid id with
      | none, _ => .error (.validation "invalid cursor timestamp")
      | some _, none => .error (.validation "invalid cursor id")
      | some ts, some id => .ok (some (ts, id))

/-- `encode_cursor`. -/
def encodeCursor (fmt : CursorFormat) (x : Timestamp × Uuid) : String :=
  s!"{fmt.rfc3339 x.1},{fmt.uuidText x.2}"

/-- `PaginatedResponse`. -/
structure PaginatedResponse (α : Type) where
  items : List α
  nextCursor : Option String
deriving DecidableEq

/-- The response made from the rows of a query that asks for one row more than the page takes. -/
def PaginatedResponse.ofRows {α : Type} (fmt : CursorFormat) (stamp : α → Timestamp × Uuid)
    (limit : ℤ) (rows : List α) : PaginatedResponse α :=
  let hasMore := limit < (rows.length : ℤ)
  let items := rows.take limit.toNat
  { items := items
    nextCursor := if hasMore then items.getLast?.map fun x => encodeCursor fmt (stamp x) else none }

/-- The common part of the `list_paginated` functions. -/
def paginate {α : Type} (fmt : CursorFormat) (stamp : α → Timestamp × Uuid)
    (query : Option (Timestamp × Uuid) → ℕ → Action (List α)) (params : PaginationParams) :
    Action (PaginatedResponse α) := do
  let limit := params.effectiveLimit
  let cursor ← Prog.ofExcept (params.decodeCursor fmt)
  let rows ← query cursor (limit + 1).toNat
  return .ofRows fmt stamp limit rows

/-- **`decode_cursor` inverts `encode_cursor`.** -/
theorem decodeCursor_encodeCursor {fmt : CursorFormat} {x : Timestamp × Uuid}
    (h : fmt.RoundTrips x) (limit : Option ℤ) :
    PaginationParams.decodeCursor fmt ⟨limit, some (encodeCursor fmt x)⟩ = .ok (some x) := by
  have hlist : (encodeCursor fmt x).toList =
      (fmt.rfc3339 x.1).toList ++ ',' :: (fmt.uuidText x.2).toList := by
    have htext : encodeCursor fmt x = fmt.rfc3339 x.1 ++ "," ++ fmt.uuidText x.2 := rfl
    rw [htext, String.toList_append, String.toList_append, List.append_assoc]
    rfl
  have hp : ∀ c ∈ (fmt.rfc3339 x.1).toList, decide (c ≠ ',') = true := by
    simpa using h.comma
  have hsplit : splitComma (encodeCursor fmt x) = some (fmt.rfc3339 x.1, fmt.uuidText x.2) := by
    rw [splitComma, hlist, List.dropWhile_append_of_pos hp, List.takeWhile_append_of_pos hp]
    simp
  simp only [PaginationParams.decodeCursor, hsplit, h.timestamp, h.uuid]

end Leaderboards
