import Leaderboards.Store.Sql

/-!
# Row locks

The locks a statement takes in PostgreSQL under READ COMMITTED, held until the transaction
ends. A resource is a row, or the key of a unique index: an `INSERT` makes a concurrent
`INSERT` of an equal key wait, just as it makes everyone else wait for its new row.

* `SELECT … FOR UPDATE` and `DELETE` lock in mode `update`; a delete locks every row it removes
  through a cascade.
* `UPDATE` of columns that are not part of a key locks in mode `noKeyUpdate`.
* The foreign key checks of an `INSERT` lock the referenced rows in mode `keyShare`.

Plain reads lock nothing.
-/

namespace Leaderboards

/-- What can be locked. -/
inductive Resource
  | board (id : Uuid)
  /-- The key of `UNIQUE (slug)` on `boards`. -/
  | boardSlug (slug : String)
  | entry (id : Uuid)
  /-- The key of `UNIQUE (board_id, slug)` on `entries`. -/
  | entrySlug (boardId : Uuid) (slug : String)
  | version (id : Uuid)
  | placement (id : Uuid)
  /-- The key of `UNIQUE (board_id, entry_id)` on `accumulated_scores`, and its row. -/
  | score (boardId entryId : Uuid)
  | reference (id : Uuid)
  | collection (id : Uuid)
  /-- The key of `UNIQUE (slug)` on `collections`. -/
  | collectionSlug (slug : String)
deriving DecidableEq

/-- The lock modes in use, from the weakest to the strongest. -/
inductive LockMode
  | keyShare
  | noKeyUpdate
  | update
deriving DecidableEq

namespace LockMode

/-- The conflict table: `keyShare` conflicts with `update` only. -/
def conflicts : LockMode → LockMode → Bool
  | keyShare, keyShare => false
  | keyShare, noKeyUpdate => false
  | noKeyUpdate, keyShare => false
  | _, _ => true

theorem conflicts_comm (m n : LockMode) : m.conflicts n = n.conflicts m := by
  cases m <;> cases n <;> rfl

/-- One mode is at least as strong as another. -/
def covers : LockMode → LockMode → Bool
  | update, _ => true
  | noKeyUpdate, update => false
  | noKeyUpdate, _ => true
  | keyShare, keyShare => true
  | keyShare, _ => false

theorem conflicts_of_covers {m n m' n' : LockMode} (hm : m.covers m' = true)
    (hn : n.covers n' = true) (h : m'.conflicts n' = true) : m.conflicts n = true := by
  revert hm hn h
  cases m <;> cases m' <;> cases n <;> cases n' <;> decide

end LockMode

/-- A lock on a resource. -/
structure Lock where
  resource : Resource
  mode : LockMode
deriving DecidableEq

/-- Two sets of locks can be held by two sessions at once. -/
def Compatible (L L' : List Lock) : Prop :=
  ∀ l ∈ L, ∀ l' ∈ L', l.resource = l'.resource → l.mode.conflicts l'.mode = false

theorem Compatible.symm {L L' : List Lock} (h : Compatible L L') : Compatible L' L := by
  intro l hl l' hl' hr
  rw [LockMode.conflicts_comm]
  exact h l' hl' l hl hr.symm

@[simp] theorem compatible_nil (L : List Lock) : Compatible L [] := by simp [Compatible]

@[simp] theorem nil_compatible (L : List Lock) : Compatible [] L := by simp [Compatible]

theorem compatible_append {L L₁ L₂ : List Lock} :
    Compatible (L₁ ++ L₂) L ↔ Compatible L₁ L ∧ Compatible L₂ L := by
  simp only [Compatible, List.mem_append]
  exact ⟨fun h => ⟨fun l hl => h l (.inl hl), fun l hl => h l (.inr hl)⟩,
    fun h l hl => hl.elim (h.1 l) (h.2 l)⟩

/-- A set of locks contains one on `ρ` that is at least as strong as `m`. -/
def Held (L : List Lock) (ρ : Resource) (m : LockMode) : Prop :=
  ∃ l ∈ L, l.resource = ρ ∧ l.mode.covers m = true

theorem Held.mono {L L' : List Lock} {ρ : Resource} {m : LockMode} (h : Held L ρ m)
    (hsub : ∀ l ∈ L, l ∈ L') : Held L' ρ m := by
  obtain ⟨l, hl, hr, hm⟩ := h
  exact ⟨l, hsub l hl, hr, hm⟩

theorem Held.weaken {L : List Lock} {ρ : Resource} {m n : LockMode} (h : Held L ρ m)
    (hmn : m.covers n = true) : Held L ρ n := by
  obtain ⟨l, hl, hr, hm⟩ := h
  refine ⟨l, hl, hr, ?_⟩
  revert hm hmn
  cases l.mode <;> cases m <;> cases n <;> decide

theorem held_of_mem {L : List Lock} {ρ : Resource} {m : LockMode} (h : ⟨ρ, m⟩ ∈ L) :
    Held L ρ m := ⟨_, h, rfl, by cases m <;> rfl⟩

/-- **Conflicting locks are never held side by side.** -/
theorem Compatible.not_held {L L' : List Lock} (h : Compatible L L') {ρ : Resource}
    {m n : LockMode} (hm : Held L ρ m) (hn : Held L' ρ n) (hmn : m.conflicts n = true) :
    False := by
  obtain ⟨l, hl, hr, hlm⟩ := hm
  obtain ⟨l', hl', hr', hln⟩ := hn
  have hconf := LockMode.conflicts_of_covers hlm hln hmn
  rw [h l hl l' hl' (hr.trans hr'.symm)] at hconf
  exact absurd hconf (by decide)

/-! ### The locks of each statement -/

/-- The locks of an inserted entry row. -/
def entryInsertLocks (u boardId : Uuid) (slug : String) : List Lock :=
  [⟨.entry u, .update⟩, ⟨.entrySlug boardId slug, .update⟩, ⟨.board boardId, .keyShare⟩]

/-- The locks a statement takes, given the tables it sees and the id it would insert. -/
def Query.locks (u : Uuid) : Query → Database → List Lock
  | .insertBoard input, _ => [⟨.board u, .update⟩, ⟨.boardSlug input.slug, .update⟩]
  | .selectBoardBySlugForUpdate slug, db =>
    ((db.boardBySlug? slug).map fun b => ⟨.board b.id, .update⟩).toList
  | .selectBoardForUpdate id, db => ((db.board? id).map fun b => ⟨.board b.id, .update⟩).toList
  | .updateBoard id .., _ => [⟨.board id, .noKeyUpdate⟩]
  | .deleteBoard slug, db =>
    match db.boardBySlug? slug with
    | none => []
    | some b =>
      ⟨.board b.id, .update⟩ ::
        ((db.entriesOf b.id).map (fun e => ⟨.entry e.id, .update⟩) ++
          (db.versionsOf b.id).map (fun v => ⟨.version v.id, .update⟩) ++
          (db.versionsOf b.id).flatMap (fun v =>
            (db.placementsOf v.id).map fun p => ⟨.placement p.id, .update⟩) ++
          (db.scoresOf b.id).map (fun s => ⟨.score s.boardId s.entryId, .update⟩) ++
          (db.referencesOf b.id).map (fun r => ⟨.reference r.id, .update⟩))
  | .insertEntry boardId slug .., _ => entryInsertLocks u boardId slug
  | .upsertEntry boardId slug _, db =>
    match db.entryBySlug? boardId slug with
    | some e => [⟨.entry e.id, .noKeyUpdate⟩]
    | none => entryInsertLocks u boardId slug
  | .selectEntryForUpdate boardId slug, db =>
    ((db.entryBySlug? boardId slug).map fun e => ⟨.entry e.id, .update⟩).toList
  | .updateEntry id .., _ => [⟨.entry id, .noKeyUpdate⟩]
  | .deleteEntry id, db =>
    ⟨.entry id, .update⟩ ::
      ((db.placementsOfEntry id).map (fun p => ⟨.placement p.id, .update⟩) ++
        (db.accumulatedScores.filter fun s => s.entryId = id).map
          fun s => ⟨.score s.boardId s.entryId, .update⟩)
  | .insertVersion boardId .., _ => [⟨.version u, .update⟩, ⟨.board boardId, .keyShare⟩]
  | .insertPlacement versionId entryId .., _ =>
    [⟨.placement u, .update⟩, ⟨.version versionId, .keyShare⟩, ⟨.entry entryId, .keyShare⟩]
  | .derivePositions versionId _, db =>
    (db.placementsOf versionId).map fun p => ⟨.placement p.id, .noKeyUpdate⟩
  | .upsertScore boardId entryId _, db =>
    match (db.scoresOf boardId).find? fun s => s.entryId = entryId with
    | some _ => [⟨.score boardId entryId, .noKeyUpdate⟩]
    | none =>
      [⟨.score boardId entryId, .update⟩, ⟨.board boardId, .keyShare⟩,
        ⟨.entry entryId, .keyShare⟩]
  | .insertReference boardId pinnedVersionId .., _ =>
    ⟨.reference u, .update⟩ :: ⟨.board boardId, .keyShare⟩ ::
      (pinnedVersionId.map fun id => ⟨.version id, .keyShare⟩).toList
  | .deleteReference id _, _ => [⟨.reference id, .update⟩]
  | .insertCollection slug .., _ => [⟨.collection u, .update⟩, ⟨.collectionSlug slug, .update⟩]
  | .selectCollectionBySlugForUpdate slug, db =>
    ((db.collectionBySlug? slug).map fun c => ⟨.collection c.id, .update⟩).toList
  | .updateCollection id .., _ => [⟨.collection id, .noKeyUpdate⟩]
  | .deleteCollection slug, db =>
    ((db.collectionBySlug? slug).map fun c => ⟨.collection c.id, .update⟩).toList
  | _, _ => []

end Leaderboards
