import Leaderboards.Repo.Collections
import Leaderboards.Repo.Reads

/-!
# The boards of a collection

The second half of `repo/collections.rs`. The rows of `collection_boards` refer to a collection and
to a board and go with either of them (`ON DELETE CASCADE`). Their statements run outside
transactions.
-/

namespace Leaderboards

open Interaction Ranking

/-- A row of `collection_boards`. -/
structure CollectionBoard where
  collectionId : Uuid
  boardId : Uuid
  displayOrder : ℤ
deriving DecidableEq

/-- `CollectionBoardEntry`. -/
structure CollectionBoardEntry where
  slug : String
  name : String
  boardType : String
  displayOrder : ℤ
  latestVersion : Option ℤ
deriving DecidableEq

/-- `CollectionWithBoards`. -/
structure CollectionWithBoards where
  collection : Collection
  boards : List CollectionBoardEntry

/-- `AddBoardToCollection`. -/
structure AddBoardToCollection where
  boardSlug : String
  displayOrder : ℤ := 0

/-! ### The statements -/

/-- The statements on `collection_boards`. -/
inductive MembershipQuery
  | insert (row : CollectionBoard)
  | delete (collectionId boardId : Uuid)
  /-- The join with `boards` that `get_with_boards` reads. -/
  | selectBoards (collectionId : Uuid)

/-- What a statement returns when it succeeds. -/
abbrev MembershipQuery.Row : MembershipQuery → Type
  | insert .. => Unit
  | delete .. => ℕ
  | selectBoards .. => List CollectionBoardEntry

/-- The primary key of a row is `(collection_id, board_id)`. -/
def CollectionBoard.HasKey (row : CollectionBoard) (collectionId boardId : Uuid) : Prop :=
  row.collectionId = collectionId ∧ row.boardId = boardId

instance (row : CollectionBoard) (collectionId boardId : Uuid) :
    Decidable (row.HasKey collectionId boardId) := by
  unfold CollectionBoard.HasKey
  infer_instance

/-- A row with its board. -/
def CollectionBoard.entry (row : CollectionBoard) (db : Database) (b : Board) :
    CollectionBoardEntry where
  slug := b.slug
  name := b.name
  boardType := b.boardType
  displayOrder := row.displayOrder
  latestVersion := ((db.versionsOf b.id).map Version.versionNumber).max?

/-- A row joined with its board. -/
def CollectionBoard.joined (row : CollectionBoard) (db : Database) : Option CollectionBoardEntry :=
  (db.board? row.boardId).map (row.entry db)

/-- `ORDER BY cb.display_order ASC, b.name ASC`. -/
def displayKey (c : Collation) (e : CollectionBoardEntry) : ℤ ×ₗ c.Text :=
  toLex (e.displayOrder, c.text e.name)

/-- The rows whose collection and board are there: a foreign key removes the others. -/
def cascade (db : Database) (rows : List CollectionBoard) : List CollectionBoard :=
  rows.filter fun row => (db.collection? row.collectionId).isSome ∧ (db.board? row.boardId).isSome

/-- What a statement answers, and the rows after it. -/
def MembershipQuery.run (db : Database) (rows : List CollectionBoard) :
    (q : MembershipQuery) → Except DbError q.Row × List CollectionBoard
  | .insert row =>
    if ∃ r ∈ rows, r.HasKey row.collectionId row.boardId then (.error .uniqueViolation, rows)
    else if (db.collection? row.collectionId).isNone ∨ (db.board? row.boardId).isNone then
      (.error .foreignKeyViolation, rows)
    else (.ok (), rows ++ [row])
  | .delete collectionId boardId =>
    (.ok (rows.filter fun r => r.HasKey collectionId boardId).length,
      rows.filter fun r => ¬r.HasKey collectionId boardId)
  | .selectBoards collectionId =>
    (.ok (orderBy (displayKey db.collation) ((rows.filter fun r =>
      r.collectionId = collectionId).filterMap
      fun r => r.joined db)), rows)

/-- The locks of a statement: an `INSERT` locks the rows it refers to. -/
def MembershipQuery.locks : MembershipQuery → List Lock
  | .insert row => [⟨.collection row.collectionId, .keyShare⟩, ⟨.board row.boardId, .keyShare⟩]
  | _ => []

/-- The interface of these statements. -/
def Memberships : Signature := ⟨MembershipQuery, fun q => Except DbError q.Row⟩

/-- A handler of the API: a function that may also execute these statements. -/
abbrev Endpoint (α : Type) := Prog ((Service.sum Lookups).sum Memberships) Error α

/-- A reading function, as a handler of the API. -/
def Reading.endpoint {α : Type} (p : Reading α) : Endpoint α := p.inl

/-- A repository function, as a handler of the API. -/
def Action.endpoint {α : Type} (p : Action α) : Endpoint α := p.inl.inl

/-- A statement on `collection_boards`. -/
def MembershipQuery.perform (q : MembershipQuery) : Endpoint (Except DbError q.Row) :=
  Prog.op (S := (Service.sum Lookups).sum Memberships) (.inr q) fun r => .ret r

/-! ### The functions -/

namespace Collections

/-- `collections::get_with_boards`. -/
def getWithBoards (slug : String) : Endpoint CollectionWithBoards := do
  let collection ← (getBySlug slug).endpoint
  match ← (MembershipQuery.selectBoards collection.id).perform with
  | .ok boards => return { collection, boards }
  | .error e => .fail (.database e)

/-- `collections::add_board`. -/
def addBoard (collectionSlug : String) (input : AddBoardToCollection) : Endpoint Unit := do
  let collection ← (getBySlug collectionSlug).endpoint
  let board ← (Boards.getBySlug input.boardSlug).endpoint
  match ← (MembershipQuery.insert ⟨collection.id, board.id, input.displayOrder⟩).perform with
  | .ok _ => return ()
  | .error .uniqueViolation => .fail (.conflict
      s!"board '{input.boardSlug}' is already in collection '{collectionSlug}'")
  | .error .foreignKeyViolation => .fail (.notFound
      s!"collection '{collectionSlug}' or board '{input.boardSlug}' not found")
  | .error e => .fail (.database e)

/-- `collections::remove_board`. -/
def removeBoard (collectionSlug boardSlug : String) : Endpoint Unit := do
  let collection ← (getBySlug collectionSlug).endpoint
  let board ← (Boards.getBySlug boardSlug).endpoint
  match ← (MembershipQuery.delete collection.id board.id).perform with
  | .ok rows =>
    Prog.failIf (rows = 0)
      (.notFound s!"board '{boardSlug}' is not in collection '{collectionSlug}'")
  | .error e => .fail (.database e)

end Collections

end Leaderboards
