import Leaderboards.Data.Models
import Mathlib.Data.String.Basic
import Mathlib.Tactic.Simps.Basic

/-!
# The tables

`Database` holds the rows of the tables that the service ranks from, in insertion order, and the
collation that the database orders texts by.
The lookups below are the `WHERE` clauses the statements share; the row operations are what
`INSERT`, `UPDATE` and `DELETE` do to the tables, cascades included. None of them checks a
constraint: `Store/Sql.lean` does that statement by statement, and what the constraints
guarantee of a whole database is an invariant of the runs.
-/

namespace Leaderboards

/-- The collation of a database: the order of its texts. It is deterministic, so texts that it does
not tell apart are ordered by their bytes. -/
structure Collation where
  order : LinearOrder String

namespace Collation

/-- The texts of a database with this collation. -/
def Text (_ : Collation) : Type := String

instance (c : Collation) : LinearOrder c.Text := c.order

/-- A string as a text of the database. -/
def text (c : Collation) (s : String) : c.Text := s

/-- The collation `C`: the order by code points, which is the order by bytes. -/
def codePoint : Collation := ⟨inferInstance⟩

end Collation

/-- The contents of the tables, and the collation that the database was created with. -/
structure Database where
  boards : List Board := []
  entries : List Entry := []
  versions : List Version := []
  placements : List Placement := []
  accumulatedScores : List AccumulatedScore := []
  references : List ReferenceRow := []
  collections : List Collection := []
  collation : Collation := .codePoint

namespace Database

variable (db : Database)

/-! ### Lookups -/

/-- The board row with an id. -/
def board? (id : Uuid) : Option Board := db.boards.find? fun b => b.id = id

/-- The board row with a slug. -/
def boardBySlug? (slug : String) : Option Board := db.boards.find? fun b => b.slug = slug

/-- The entry row with an id. -/
def entryById? (id : Uuid) : Option Entry := db.entries.find? fun e => e.id = id

/-- The entry row of a board with a slug. -/
def entryBySlug? (boardId : Uuid) (slug : String) : Option Entry :=
  db.entries.find? fun e => e.boardId = boardId ∧ e.slug = slug

/-- The entries of a board. -/
def entriesOf (boardId : Uuid) : List Entry := db.entries.filter fun e => e.boardId = boardId

/-- The version row with an id. -/
def version? (id : Uuid) : Option Version := db.versions.find? fun v => v.id = id

/-- The versions of a board. -/
def versionsOf (boardId : Uuid) : List Version :=
  db.versions.filter fun v => v.boardId = boardId

/-- The placements of a version. -/
def placementsOf (versionId : Uuid) : List Placement :=
  db.placements.filter fun p => p.versionId = versionId

/-- The placements of an entry, in any version. -/
def placementsOfEntry (entryId : Uuid) : List Placement :=
  db.placements.filter fun p => p.entryId = entryId

/-- The accumulated scores of a board. -/
def scoresOf (boardId : Uuid) : List AccumulatedScore :=
  db.accumulatedScores.filter fun s => s.boardId = boardId

/-- The references of a board. -/
def referencesOf (boardId : Uuid) : List ReferenceRow :=
  db.references.filter fun r => r.boardId = boardId

/-- A reference joined with the version it pins. -/
def withPinned (r : ReferenceRow) : BoardReference where
  id := r.id
  boardId := r.boardId
  pinnedVersionId := r.pinnedVersionId
  pinnedVersionNumber := (r.pinnedVersionId.bind db.version?).map Version.versionNumber
  uri := r.uri
  refType := r.refType
  label := r.label
  createdAt := r.createdAt

/-- The collection row with an id. -/
def collection? (id : Uuid) : Option Collection := db.collections.find? fun c => c.id = id

/-- The collection row with a slug. -/
def collectionBySlug? (slug : String) : Option Collection :=
  db.collections.find? fun c => c.slug = slug

/-- `COALESCE(MAX(version_number), 0)` over the versions of a board. -/
def maxVersionNumber (boardId : Uuid) : ℤ :=
  (((db.versionsOf boardId).map Version.versionNumber).max?).getD 0

/-- A placement joined with its entry; `none` when the join finds no entry. -/
def withEntry (p : Placement) : Option PlacementWithEntry :=
  (db.entryById? p.entryId).map p.joined

/-- The placements of a version joined with their entries. -/
def placementRows (versionId : Uuid) : List PlacementWithEntry :=
  (db.placementsOf versionId).filterMap db.withEntry

/-! ### Row operations -/

/-- Insert a board row. -/
@[simps] def addBoard (b : Board) : Database := { db with boards := db.boards ++ [b] }

/-- Overwrite the board row with the id of `b`. -/
@[simps] def setBoard (b : Board) : Database :=
  { db with boards := db.boards.map fun r => if r.id = b.id then b else r }

/-- Whether a row of `versions` belongs to a board. -/
def ownsVersion (boardId versionId : Uuid) : Bool :=
  db.versions.any fun v => v.id = versionId ∧ v.boardId = boardId

/-- Whether a row of `entries` belongs to a board. -/
def ownsEntry (boardId entryId : Uuid) : Bool :=
  db.entries.any fun e => e.id = entryId ∧ e.boardId = boardId

/-- A reference after the versions of a board are gone: `ON DELETE SET NULL`. -/
def unpin (boardId : Uuid) (r : ReferenceRow) : ReferenceRow :=
  if (r.pinnedVersionId.any fun id => db.ownsVersion boardId id) = true then
    { r with pinnedVersionId := none }
  else r

/-- Delete a board row. The foreign keys cascade to its entries, versions, scores and references,
and through entries and versions to placements and scores; a reference of another board that
pins one of its versions loses the pin. -/
@[simps] def removeBoard (id : Uuid) : Database where
  boards := db.boards.filter fun b => b.id ≠ id
  entries := db.entries.filter fun e => e.boardId ≠ id
  versions := db.versions.filter fun v => v.boardId ≠ id
  placements := db.placements.filter fun p =>
    !db.ownsVersion id p.versionId && !db.ownsEntry id p.entryId
  accumulatedScores := db.accumulatedScores.filter fun s =>
    s.boardId ≠ id ∧ db.ownsEntry id s.entryId = false
  references := (db.references.filter fun r => r.boardId ≠ id).map (db.unpin id)
  collections := db.collections
  collation := db.collation

/-- Insert an entry row. -/
@[simps] def addEntry (e : Entry) : Database := { db with entries := db.entries ++ [e] }

/-- Overwrite the entry row with the id of `e`. -/
@[simps] def setEntry (e : Entry) : Database :=
  { db with entries := db.entries.map fun r => if r.id = e.id then e else r }

/-- Delete an entry row. The foreign keys cascade to its placements and scores. -/
@[simps] def removeEntry (id : Uuid) : Database :=
  { db with
    entries := db.entries.filter fun e => e.id ≠ id
    placements := db.placements.filter fun p => p.entryId ≠ id
    accumulatedScores := db.accumulatedScores.filter fun s => s.entryId ≠ id }

/-- Insert a version row. -/
@[simps] def addVersion (v : Version) : Database := { db with versions := db.versions ++ [v] }

/-- Insert a placement row. -/
@[simps] def addPlacement (p : Placement) : Database :=
  { db with placements := db.placements ++ [p] }

/-- A placement after `UPDATE placements SET position = ranked.pos`. -/
def withPosition (ranked : List (Uuid × ℤ)) (p : Placement) : Placement :=
  match ranked.find? fun r => r.1 = p.id with
  | some r => { p with position := some r.2 }
  | none => p

/-- Set the positions of the placements whose ids are listed. -/
@[simps] def setPositions (ranked : List (Uuid × ℤ)) : Database :=
  { db with placements := db.placements.map (withPosition ranked) }

/-- Insert a score row. -/
@[simps] def addScore (s : AccumulatedScore) : Database :=
  { db with accumulatedScores := db.accumulatedScores ++ [s] }

/-- Overwrite the score row of the same board and entry. -/
@[simps] def setScore (s : AccumulatedScore) : Database :=
  { db with
    accumulatedScores := db.accumulatedScores.map fun r =>
      if r.boardId = s.boardId ∧ r.entryId = s.entryId then s else r }

/-- Insert a reference row. -/
@[simps] def addReference (r : ReferenceRow) : Database :=
  { db with references := db.references ++ [r] }

/-- Delete a reference row. -/
@[simps] def removeReference (id : Uuid) : Database :=
  { db with references := db.references.filter fun r => r.id ≠ id }

/-- Insert a collection row. -/
@[simps] def addCollection (c : Collection) : Database :=
  { db with collections := db.collections ++ [c] }

/-- Overwrite the collection row with the id of `c`. -/
@[simps] def setCollection (c : Collection) : Database :=
  { db with collections := db.collections.map fun r => if r.id = c.id then c else r }

/-- Delete a collection row. -/
@[simps] def removeCollection (id : Uuid) : Database :=
  { db with collections := db.collections.filter fun c => c.id ≠ id }

/-! ### The rows after an operation

`@[simps]` gives each table after an operation; the lemmas below say which rows it holds where
that is not an append or a filter. -/

variable {db}

theorem mem_setBoard_boards {b r : Board} : r ∈ (db.setBoard b).boards ↔
    (r ∈ db.boards ∧ r.id ≠ b.id) ∨ (r = b ∧ ∃ r' ∈ db.boards, r'.id = b.id) := by
  simp only [setBoard_boards, List.mem_map]
  constructor
  · rintro ⟨r', hr', rfl⟩
    by_cases h : r'.id = b.id
    · exact .inr ⟨by rw [if_pos h], r', hr', h⟩
    · rw [if_neg h]
      exact .inl ⟨hr', h⟩
  · rintro (⟨hr, h⟩ | ⟨rfl, r', hr', h⟩)
    · exact ⟨r, hr, if_neg h⟩
    · exact ⟨r', hr', if_pos h⟩

theorem mem_setEntry_entries {e r : Entry} : r ∈ (db.setEntry e).entries ↔
    (r ∈ db.entries ∧ r.id ≠ e.id) ∨ (r = e ∧ ∃ r' ∈ db.entries, r'.id = e.id) := by
  simp only [setEntry_entries, List.mem_map]
  constructor
  · rintro ⟨r', hr', rfl⟩
    by_cases h : r'.id = e.id
    · exact .inr ⟨by rw [if_pos h], r', hr', h⟩
    · rw [if_neg h]
      exact .inl ⟨hr', h⟩
  · rintro (⟨hr, h⟩ | ⟨rfl, r', hr', h⟩)
    · exact ⟨r, hr, if_neg h⟩
    · exact ⟨r', hr', if_pos h⟩

theorem mem_setScore_accumulatedScores {s r : AccumulatedScore} :
    r ∈ (db.setScore s).accumulatedScores ↔
      (r ∈ db.accumulatedScores ∧ ¬(r.boardId = s.boardId ∧ r.entryId = s.entryId)) ∨
      (r = s ∧ ∃ r' ∈ db.accumulatedScores, r'.boardId = s.boardId ∧ r'.entryId = s.entryId) := by
  simp only [setScore_accumulatedScores, List.mem_map]
  constructor
  · rintro ⟨r', hr', rfl⟩
    by_cases h : r'.boardId = s.boardId ∧ r'.entryId = s.entryId
    · exact .inr ⟨by rw [if_pos h], r', hr', h⟩
    · rw [if_neg h]
      exact .inl ⟨hr', h⟩
  · rintro (⟨hr, h⟩ | ⟨rfl, r', hr', h⟩)
    · exact ⟨r, hr, if_neg h⟩
    · exact ⟨r', hr', if_pos h⟩

theorem mem_setCollection_collections {c r : Collection} :
    r ∈ (db.setCollection c).collections ↔
      (r ∈ db.collections ∧ r.id ≠ c.id) ∨ (r = c ∧ ∃ r' ∈ db.collections, r'.id = c.id) := by
  simp only [setCollection_collections, List.mem_map]
  constructor
  · rintro ⟨r', hr', rfl⟩
    by_cases h : r'.id = c.id
    · exact .inr ⟨by rw [if_pos h], r', hr', h⟩
    · rw [if_neg h]
      exact .inl ⟨hr', h⟩
  · rintro (⟨hr, h⟩ | ⟨rfl, r', hr', h⟩)
    · exact ⟨r, hr, if_neg h⟩
    · exact ⟨r', hr', if_pos h⟩

@[simp] theorem unpin_id (boardId : Uuid) (r : ReferenceRow) : (db.unpin boardId r).id = r.id := by
  unfold unpin
  split <;> rfl

@[simp] theorem unpin_boardId (boardId : Uuid) (r : ReferenceRow) :
    (db.unpin boardId r).boardId = r.boardId := by
  unfold unpin
  split <;> rfl

/-- A pin that is left was there before. -/
theorem unpin_pin {boardId id : Uuid} {r : ReferenceRow}
    (h : (db.unpin boardId r).pinnedVersionId = some id) : r.pinnedVersionId = some id := by
  unfold unpin at h
  split at h
  · cases h
  · exact h

@[simp] theorem withPosition_id (ranked : List (Uuid × ℤ)) (p : Placement) :
    (withPosition ranked p).id = p.id := by unfold withPosition; split <;> rfl

@[simp] theorem withPosition_versionId (ranked : List (Uuid × ℤ)) (p : Placement) :
    (withPosition ranked p).versionId = p.versionId := by unfold withPosition; split <;> rfl

@[simp] theorem withPosition_entryId (ranked : List (Uuid × ℤ)) (p : Placement) :
    (withPosition ranked p).entryId = p.entryId := by unfold withPosition; split <;> rfl

@[simp] theorem withPosition_score (ranked : List (Uuid × ℤ)) (p : Placement) :
    (withPosition ranked p).score = p.score := by unfold withPosition; split <;> rfl

@[simp] theorem withPosition_tier (ranked : List (Uuid × ℤ)) (p : Placement) :
    (withPosition ranked p).tier = p.tier := by unfold withPosition; split <;> rfl

@[simp] theorem withPosition_metadata (ranked : List (Uuid × ℤ)) (p : Placement) :
    (withPosition ranked p).metadata = p.metadata := by unfold withPosition; split <;> rfl

/-- A placement whose id is not listed keeps its position. -/
theorem withPosition_of_forall_ne {ranked : List (Uuid × ℤ)} {p : Placement}
    (h : ∀ r ∈ ranked, r.1 ≠ p.id) : withPosition ranked p = p := by
  have hnone : ranked.find? (fun r => r.1 = p.id) = none := by
    simpa [List.find?_eq_none] using h
  rw [withPosition, hnone]

@[simp] theorem ownsVersion_iff {boardId versionId : Uuid} :
    db.ownsVersion boardId versionId = true ↔
    ∃ v ∈ db.versions, v.id = versionId ∧ v.boardId = boardId := by
  simp [ownsVersion]

@[simp] theorem ownsEntry_iff {boardId entryId : Uuid} : db.ownsEntry boardId entryId = true ↔
    ∃ e ∈ db.entries, e.id = entryId ∧ e.boardId = boardId := by
  simp [ownsEntry]

/-! ### What a lookup returns -/

theorem mem_of_board? {id : Uuid} {b : Board} (h : db.board? id = some b) :
    b ∈ db.boards ∧ b.id = id :=
  ⟨List.mem_of_find?_eq_some h, by simpa using List.find?_some h⟩

theorem mem_of_boardBySlug? {slug : String} {b : Board} (h : db.boardBySlug? slug = some b) :
    b ∈ db.boards ∧ b.slug = slug :=
  ⟨List.mem_of_find?_eq_some h, by simpa using List.find?_some h⟩

theorem mem_of_entryById? {id : Uuid} {e : Entry} (h : db.entryById? id = some e) :
    e ∈ db.entries ∧ e.id = id :=
  ⟨List.mem_of_find?_eq_some h, by simpa using List.find?_some h⟩

theorem mem_of_entryBySlug? {boardId : Uuid} {slug : String} {e : Entry}
    (h : db.entryBySlug? boardId slug = some e) :
    e ∈ db.entries ∧ e.boardId = boardId ∧ e.slug = slug :=
  ⟨List.mem_of_find?_eq_some h, by simpa using List.find?_some h⟩

theorem mem_of_version? {id : Uuid} {v : Version} (h : db.version? id = some v) :
    v ∈ db.versions ∧ v.id = id :=
  ⟨List.mem_of_find?_eq_some h, by simpa using List.find?_some h⟩

theorem mem_of_collection? {id : Uuid} {c : Collection} (h : db.collection? id = some c) :
    c ∈ db.collections ∧ c.id = id :=
  ⟨List.mem_of_find?_eq_some h, by simpa using List.find?_some h⟩

theorem mem_of_collectionBySlug? {slug : String} {c : Collection}
    (h : db.collectionBySlug? slug = some c) : c ∈ db.collections ∧ c.slug = slug :=
  ⟨List.mem_of_find?_eq_some h, by simpa using List.find?_some h⟩

theorem board?_eq_none {id : Uuid} : db.board? id = none ↔ ∀ b ∈ db.boards, b.id ≠ id := by
  simp [board?]

theorem boardBySlug?_eq_none {slug : String} :
    db.boardBySlug? slug = none ↔ ∀ b ∈ db.boards, b.slug ≠ slug := by
  simp [boardBySlug?]

theorem entryById?_eq_none {id : Uuid} : db.entryById? id = none ↔ ∀ e ∈ db.entries, e.id ≠ id := by
  simp [entryById?]

theorem entryBySlug?_eq_none {boardId : Uuid} {slug : String} :
    db.entryBySlug? boardId slug = none ↔
      ∀ e ∈ db.entries, ¬(e.boardId = boardId ∧ e.slug = slug) := by
  simp [entryBySlug?]

theorem version?_eq_none {id : Uuid} :
    db.version? id = none ↔ ∀ v ∈ db.versions, v.id ≠ id := by
  simp [version?]

theorem collection?_eq_none {id : Uuid} :
    db.collection? id = none ↔ ∀ c ∈ db.collections, c.id ≠ id := by
  simp [collection?]

theorem collectionBySlug?_eq_none {slug : String} :
    db.collectionBySlug? slug = none ↔ ∀ c ∈ db.collections, c.slug ≠ slug := by
  simp [collectionBySlug?]

@[simp] theorem mem_entriesOf {boardId : Uuid} {e : Entry} :
    e ∈ db.entriesOf boardId ↔ e ∈ db.entries ∧ e.boardId = boardId := by
  simp [entriesOf]

@[simp] theorem mem_versionsOf {boardId : Uuid} {v : Version} :
    v ∈ db.versionsOf boardId ↔ v ∈ db.versions ∧ v.boardId = boardId := by
  simp [versionsOf]

@[simp] theorem mem_placementsOf {versionId : Uuid} {p : Placement} :
    p ∈ db.placementsOf versionId ↔ p ∈ db.placements ∧ p.versionId = versionId := by
  simp [placementsOf]

@[simp] theorem mem_placementsOfEntry {entryId : Uuid} {p : Placement} :
    p ∈ db.placementsOfEntry entryId ↔ p ∈ db.placements ∧ p.entryId = entryId := by
  simp [placementsOfEntry]

@[simp] theorem mem_referencesOf {boardId : Uuid} {r : ReferenceRow} :
    r ∈ db.referencesOf boardId ↔ r ∈ db.references ∧ r.boardId = boardId := by
  simp [referencesOf]

@[simp] theorem mem_scoresOf {boardId : Uuid} {s : AccumulatedScore} :
    s ∈ db.scoresOf boardId ↔ s ∈ db.accumulatedScores ∧ s.boardId = boardId := by
  simp [scoresOf]

/-- No number of a list is above its maximum. -/
theorem le_max?_getD {l : List ℤ} {n : ℤ} (h : n ∈ l) (d : ℤ) : n ≤ l.max?.getD d := by
  rcases hmax : l.max? with _ | m
  · rw [List.max?_eq_none_iff.mp hmax] at h
    exact absurd h List.not_mem_nil
  · exact (List.max?_eq_some_iff.mp hmax).2 n h

theorem le_maxVersionNumber {v : Version} (hv : v ∈ db.versions) :
    v.versionNumber ≤ db.maxVersionNumber v.boardId := by
  exact le_max?_getD (List.mem_map_of_mem (mem_versionsOf.mpr ⟨hv, rfl⟩)) 0

end Database

/-! ### Row writes -/

/-- What a statement does to the tables, row by row. A transaction carries the row writes of
its statements until it commits. -/
inductive RowWrite
  | addBoard (b : Board)
  | setBoard (b : Board)
  | removeBoard (id : Uuid)
  | addEntry (e : Entry)
  | setEntry (e : Entry)
  | removeEntry (id : Uuid)
  | addVersion (v : Version)
  | addPlacement (p : Placement)
  | setPositions (ranked : List (Uuid × ℤ))
  | addScore (s : AccumulatedScore)
  | setScore (s : AccumulatedScore)
  | addReference (r : ReferenceRow)
  | removeReference (id : Uuid)
  | addCollection (c : Collection)
  | setCollection (c : Collection)
  | removeCollection (id : Uuid)

/-- The tables after one row write. -/
@[simp] def RowWrite.apply : RowWrite → Database → Database
  | .addBoard b, db => db.addBoard b
  | .setBoard b, db => db.setBoard b
  | .removeBoard id, db => db.removeBoard id
  | .addEntry e, db => db.addEntry e
  | .setEntry e, db => db.setEntry e
  | .removeEntry id, db => db.removeEntry id
  | .addVersion v, db => db.addVersion v
  | .addPlacement p, db => db.addPlacement p
  | .setPositions ranked, db => db.setPositions ranked
  | .addScore s, db => db.addScore s
  | .setScore s, db => db.setScore s
  | .addReference r, db => db.addReference r
  | .removeReference id, db => db.removeReference id
  | .addCollection c, db => db.addCollection c
  | .setCollection c, db => db.setCollection c
  | .removeCollection id, db => db.removeCollection id

/-- No statement changes the collation. -/
@[simp] theorem RowWrite.apply_collation (w : RowWrite) (db : Database) :
    (w.apply db).collation = db.collation := by
  cases w <;> rfl

namespace Database

/-- The tables after a list of row writes, in order. -/
def applyAll (db : Database) (ws : List RowWrite) : Database :=
  ws.foldl (fun d w => w.apply d) db

@[simp] theorem applyAll_nil (db : Database) : db.applyAll [] = db := rfl

@[simp] theorem applyAll_cons (db : Database) (w : RowWrite) (ws : List RowWrite) :
    db.applyAll (w :: ws) = (w.apply db).applyAll ws := rfl

theorem applyAll_append (db : Database) (ws ws' : List RowWrite) :
    db.applyAll (ws ++ ws') = (db.applyAll ws).applyAll ws' := by
  rw [applyAll, List.foldl_append]
  rfl

@[simp] theorem applyAll_collation (db : Database) (ws : List RowWrite) :
    (db.applyAll ws).collation = db.collation := by
  induction ws generalizing db with
  | nil => rfl
  | cons w ws ih => rw [applyAll_cons, ih, RowWrite.apply_collation]

end Database

end Leaderboards
