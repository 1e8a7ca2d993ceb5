import Leaderboards.Repo.Boards
import Leaderboards.Transactions.Schema
import Leaderboards.Transactions.Server

/-!
# Legal row writes

A row write is *legal* when the constraints allow it in the tables it is applied to, when the
transaction holds the locks that protect it, and when it respects what the service relies on
beyond the schema: an entry with placements is never deleted, placements are only added to and
ranked in versions that are not committed yet, and a version added to a committed board gets the
number after the largest committed one.

`LegalSeq` extends this to the pending writes of a transaction. Legal writes preserve the schema
(`LegalSeq.schema`).

A `Policy` fixes what is known of the requests of a run: the tier configurations they may store,
the version limit they pass, a property that `boards::create` and `boards::update` give to every
board row, whether imported documents state the positions of ordered boards, and the references
they create.
-/

namespace Leaderboards

/-- What is known of the requests of a run. -/
structure Policy where
  /-- The tier configurations that requests store. -/
  config : Option Json → Prop := fun _ => True
  /-- A limit that every version-creating request passes, if there is one. -/
  maxVersions : Option ℤ := none
  /-- A property of the type, the direction and the tier configuration of a board. -/
  setup : String → String → Option Json → Prop := fun _ _ _ => True
  /-- `boards::create` establishes it. -/
  setup_create : ∀ input : CreateBoard, Boards.validateCreate input = .ok () →
    setup input.boardType input.sortDirection input.tierConfig := by intros; trivial
  /-- `boards::update` keeps it. -/
  setup_update :
    ∀ (b : Board) (input : UpdateBoard), setup b.boardType b.sortDirection b.tierConfig →
    Boards.validateUpdate b input = .ok () →
    setup b.boardType (input.sortDirection.getD b.sortDirection)
      (input.tierConfig.apply b.tierConfig) := by intros; trivial
  /-- Imported documents of ordered boards state every position. -/
  explicitOrder : Prop := False
  /-- The references that requests create. -/
  reference : CreateReference → Prop := fun _ => True

/-- The board row has the setup of the policy. -/
def Policy.Allows (P : Policy) (b : Board) : Prop :=
  P.setup b.boardType b.sortDirection b.tierConfig

/-- A board row inserted from the input has the setup of the policy. -/
def Policy.AllowsNew (P : Policy) (input : CreateBoard) : Prop :=
  P.config input.tierConfig ∧ P.setup input.boardType input.sortDirection input.tierConfig

/-- What no update of a board row changes. -/
def Board.SameKey (r b : Board) : Prop :=
  r.id = b.id ∧ r.slug = b.slug ∧ r.boardType = b.boardType ∧ r.accumulative = b.accumulative

/-- What no update of an entry row changes. -/
def Entry.SameKey (r e : Entry) : Prop :=
  r.id = e.id ∧ r.boardId = e.boardId ∧ r.slug = e.slug

/-- A reference row is what a request asks for: where the request names a version by its number,
the row pins the version of the board with this number. -/
structure ReferenceRow.Follows (r : ReferenceRow) (input : CreateReference)
    (versions : List Version) : Prop where
  uri : r.uri = input.uri
  refType : r.refType = input.refType
  label : r.label = input.label
  pinned : r.pinnedVersionId.isSome = input.pinnedVersionNumber.isSome
  pin : ∀ id, r.pinnedVersionId = some id → ∃ v ∈ versions, v.id = id ∧
    v.boardId = r.boardId ∧ input.pinnedVersionNumber = some v.versionNumber

/-- A reference is still what was asked for while the versions of its board stay. -/
theorem ReferenceRow.Follows.mono {r : ReferenceRow} {input : CreateReference}
    {versions versions' : List Version} (h : r.Follows input versions)
    (hversions : ∀ v ∈ versions, v.boardId = r.boardId → v ∈ versions') :
    r.Follows input versions' :=
  { h with
    pin := fun id hid => by
      obtain ⟨v, hv, hvid, hboard, hnumber⟩ := h.pin id hid
      exact ⟨v, hversions v hv hboard, hvid, hboard, hnumber⟩ }

/-- What no update of a collection row changes. -/
def Collection.SameKey (r c : Collection) : Prop := r.id = c.id ∧ r.slug = c.slug

/-- The row write removes rows. -/
def RowWrite.removes : RowWrite → Prop
  | .removeBoard _ => True
  | .removeEntry _ => True
  | .removeReference _ => True
  | .removeCollection _ => True
  | _ => False

/-- A new version number is the one after the largest committed one, within the limit. -/
def NextNumber (P : Policy) (db : Database) (v : Version) : Prop :=
  v.versionNumber = db.maxVersionNumber v.boardId + 1 ∧
    ∀ m, P.maxVersions = some m → ((db.versionsOf v.boardId).length : ℤ) < m

/-- A row write is legal in the tables `db`, for a transaction that holds the locks `L` while
the server is in the state `s`. -/
def Legal (P : Policy) (s : Server) (L : List Lock) : RowWrite → Database → Prop
  | .addBoard b, db =>
    b.id ∉ s.usedBoards ∧ (∀ r ∈ db.boards, r.id ≠ b.id) ∧ (∀ r ∈ db.boards, r.slug ≠ b.slug) ∧
    b.checks ∧ (P.config b.tierConfig ∧ P.Allows b) ∧ Held L (.board b.id) .update ∧
    Held L (.boardSlug b.slug) .update
  | .setBoard b, db =>
    (∃ r ∈ db.boards, r.SameKey b) ∧ b.checks ∧ (P.config b.tierConfig ∧ P.Allows b) ∧
    Held L (.board b.id) .noKeyUpdate
  | .removeBoard id, db =>
    Held L (.board id) .update ∧
    (∀ e ∈ db.entries, e.boardId = id → Held L (.entry e.id) .update) ∧
    (∀ v ∈ db.versions, v.boardId = id → Held L (.version v.id) .update)
  | .addEntry e, db =>
    e.id ∉ s.usedEntries ∧ (∀ r ∈ db.entries, r.id ≠ e.id) ∧
    (∀ r ∈ db.entries, ¬(r.boardId = e.boardId ∧ r.slug = e.slug)) ∧
    (∃ b ∈ db.boards, b.id = e.boardId) ∧ Held L (.board e.boardId) .keyShare ∧
    Held L (.entry e.id) .update ∧ Held L (.entrySlug e.boardId e.slug) .update
  | .setEntry e, db =>
    (∃ r ∈ db.entries, r.SameKey e) ∧ Held L (.entry e.id) .noKeyUpdate
  | .removeEntry id, db =>
    (∀ p ∈ db.placements, p.entryId ≠ id) ∧ Held L (.entry id) .update
  | .addVersion v, db =>
    (∀ r ∈ db.versions, r.id ≠ v.id) ∧
    (∀ r ∈ db.versions, r.boardId = v.boardId → r.versionNumber ≠ v.versionNumber) ∧
    0 < v.versionNumber ∧ (∃ b ∈ db.boards, b.id = v.boardId) ∧
    (NextNumber P s.db v ∨ ∀ r ∈ s.db.boards, r.id ≠ v.boardId) ∧
    Held L (.board v.boardId) .update ∧ Held L (.version v.id) .update
  | .addPlacement p, db =>
    (∀ r ∈ db.placements, r.id ≠ p.id) ∧
    (∀ r ∈ db.placements, ¬(r.versionId = p.versionId ∧ r.entryId = p.entryId)) ∧
    (∃ v ∈ db.versions, ∃ e ∈ db.entries,
      v.id = p.versionId ∧ e.id = p.entryId ∧ e.boardId = v.boardId) ∧
    (∀ v ∈ s.db.versions, v.id ≠ p.versionId) ∧ Held L (.version p.versionId) .update ∧
    Held L (.entry p.entryId) .keyShare ∧ Held L (.placement p.id) .update
  | .setPositions ranked, db =>
    ∀ r ∈ ranked, ∃ p ∈ db.placements, p.id = r.1 ∧
      (∀ v ∈ s.db.versions, v.id ≠ p.versionId) ∧ Held L (.version p.versionId) .update
  | .addScore x, db =>
    (∀ r ∈ db.accumulatedScores, ¬(r.boardId = x.boardId ∧ r.entryId = x.entryId)) ∧
    x.score.isFinite = true ∧ (∃ e ∈ db.entries, e.id = x.entryId ∧ e.boardId = x.boardId) ∧
    Held L (.entry x.entryId) .keyShare ∧ Held L (.score x.boardId x.entryId) .update
  | .setScore x, db =>
    (∃ r ∈ db.accumulatedScores, r.boardId = x.boardId ∧ r.entryId = x.entryId) ∧
    x.score.isFinite = true ∧ Held L (.entry x.entryId) .keyShare ∧
    Held L (.score x.boardId x.entryId) .noKeyUpdate
  | .addReference r, db =>
    (∀ x ∈ db.references, x.id ≠ r.id) ∧ (∃ b ∈ db.boards, b.id = r.boardId) ∧
    (∃ input, P.reference input ∧ r.Follows input db.versions) ∧
    (∀ id, r.pinnedVersionId = some id → Held L (.version id) .keyShare) ∧
    Held L (.board r.boardId) .keyShare ∧ Held L (.reference r.id) .update
  | .removeReference id, _ => Held L (.reference id) .update
  | .addCollection c, db =>
    (∀ r ∈ db.collections, r.id ≠ c.id) ∧ (∀ r ∈ db.collections, r.slug ≠ c.slug) ∧
    Held L (.collection c.id) .update ∧ Held L (.collectionSlug c.slug) .update
  | .setCollection c, db =>
    (∃ r ∈ db.collections, r.SameKey c) ∧ Held L (.collection c.id) .noKeyUpdate
  | .removeCollection id, _ => Held L (.collection id) .update

/-- The row writes of a transaction, applied in order, are all legal. A removal comes last. -/
def LegalSeq (P : Policy) (s : Server) (L : List Lock) : List RowWrite → Database → Prop
  | [], _ => True
  | w :: ws, db => Legal P s L w db ∧ (w.removes → ws = []) ∧ LegalSeq P s L ws (w.apply db)

variable {P : Policy} {s : Server} {L L' : List Lock} {db : Database}

/-- More locks do not hurt. -/
theorem Legal.mono {w : RowWrite} (h : Legal P s L w db) (hsub : ∀ l ∈ L, l ∈ L') :
    Legal P s L' w db := by
  -- In each case only what the write must hold mentions the locks.
  cases w with
  | addBoard b =>
    obtain ⟨h₁, h₂, h₃, h₄, h₅, h₆, h₇⟩ := h
    exact ⟨h₁, h₂, h₃, h₄, h₅, h₆.mono hsub, h₇.mono hsub⟩
  | setBoard b =>
    obtain ⟨h₁, h₂, h₃, h₄⟩ := h
    exact ⟨h₁, h₂, h₃, h₄.mono hsub⟩
  | removeBoard id =>
    obtain ⟨h₁, h₂, h₃⟩ := h
    exact ⟨h₁.mono hsub, fun e he hb => (h₂ e he hb).mono hsub,
      fun v hv hb => (h₃ v hv hb).mono hsub⟩
  | addEntry e =>
    obtain ⟨h₁, h₂, h₃, h₄, h₅, h₆, h₇⟩ := h
    exact ⟨h₁, h₂, h₃, h₄, h₅.mono hsub, h₆.mono hsub, h₇.mono hsub⟩
  | setEntry e =>
    obtain ⟨h₁, h₂⟩ := h
    exact ⟨h₁, h₂.mono hsub⟩
  | removeEntry id =>
    obtain ⟨h₁, h₂⟩ := h
    exact ⟨h₁, h₂.mono hsub⟩
  | addVersion v =>
    obtain ⟨h₁, h₂, h₃, h₄, h₅, h₆, h₇⟩ := h
    exact ⟨h₁, h₂, h₃, h₄, h₅, h₆.mono hsub, h₇.mono hsub⟩
  | addPlacement p =>
    obtain ⟨h₁, h₂, h₃, h₄, h₅, h₆, h₇⟩ := h
    exact ⟨h₁, h₂, h₃, h₄, h₅.mono hsub, h₆.mono hsub, h₇.mono hsub⟩
  | setPositions ranked =>
    intro r hr
    obtain ⟨p, hp, hid, hbase, hL⟩ := h r hr
    exact ⟨p, hp, hid, hbase, hL.mono hsub⟩
  | addScore x =>
    obtain ⟨h₁, h₂, h₃, h₄, h₅⟩ := h
    exact ⟨h₁, h₂, h₃, h₄.mono hsub, h₅.mono hsub⟩
  | setScore x =>
    obtain ⟨h₁, h₂, h₃, h₄⟩ := h
    exact ⟨h₁, h₂, h₃.mono hsub, h₄.mono hsub⟩
  | addReference r =>
    obtain ⟨h₁, h₂, h₃, h₄, h₅, h₆⟩ := h
    exact ⟨h₁, h₂, h₃, fun id hid => (h₄ id hid).mono hsub, h₅.mono hsub, h₆.mono hsub⟩
  | removeReference id => exact Held.mono h hsub
  | addCollection c =>
    obtain ⟨h₁, h₂, h₃, h₄⟩ := h
    exact ⟨h₁, h₂, h₃.mono hsub, h₄.mono hsub⟩
  | setCollection c =>
    obtain ⟨h₁, h₂⟩ := h
    exact ⟨h₁, h₂.mono hsub⟩
  | removeCollection id => exact Held.mono h hsub

theorem LegalSeq.mono {ws : List RowWrite} (h : LegalSeq P s L ws db)
    (hsub : ∀ l ∈ L, l ∈ L') : LegalSeq P s L' ws db := by
  induction ws generalizing db with
  | nil => trivial
  | cons w ws ih => exact ⟨h.1.mono hsub, h.2.1, ih h.2.2⟩

/-- Legal writes can follow writes that remove nothing. -/
theorem LegalSeq.append {ws ws' : List RowWrite} (h : LegalSeq P s L ws db)
    (hws : ∀ w ∈ ws, ¬w.removes) (h' : LegalSeq P s L ws' (db.applyAll ws)) :
    LegalSeq P s L (ws ++ ws') db := by
  induction ws generalizing db with
  | nil => exact h'
  | cons w ws ih =>
    refine ⟨h.1, fun hw => absurd hw (hws w List.mem_cons_self), ?_⟩
    exact ih h.2.2 (fun w' hw' => hws w' (List.mem_cons_of_mem _ hw')) h'

theorem legalSeq_singleton {w : RowWrite} : LegalSeq P s L [w] db ↔ Legal P s L w db := by
  simp [LegalSeq]

/-! ### Legal writes preserve the schema -/

private theorem nodup_map_append {α κ : Type} {f : α → κ} {l : List α} {a : α}
    (hl : (l.map f).Nodup) (ha : ∀ b ∈ l, f b ≠ f a) : ((l ++ [a]).map f).Nodup := by
  rw [List.map_append, List.nodup_append]
  refine ⟨hl, by simp, fun x hx y hy => ?_⟩
  obtain ⟨b, hb, rfl⟩ := List.mem_map.mp hx
  simp only [List.map_cons, List.map_nil, List.mem_singleton] at hy
  rw [hy]
  exact ha b hb

private theorem map_replace {α κ : Type} {f : α → κ} {l : List α} {c : α → Prop}
    [DecidablePred c] {a : α} (h : ∀ b ∈ l, c b → f b = f a) :
    (l.map fun b => if c b then a else b).map f = l.map f := by
  rw [List.map_map]
  refine List.map_congr_left fun b hb => ?_
  by_cases hc : c b
  · simp [hc, h b hb hc]
  · simp [hc]

private theorem schema_addBoard {b : Board} (hdb : db.Schema)
    (h : Legal P s L (.addBoard b) db) : (db.addBoard b).Schema := by
  obtain ⟨-, hid, hslug, hchecks, -⟩ := h
  refine { hdb with board_id := ?_, board_slug := ?_, board_checks := ?_, entry_board := ?_
                    version_board := ?_, reference_board := ?_ }
  · exact nodup_map_append hdb.board_id hid
  · exact nodup_map_append hdb.board_slug hslug
  · simp only [Database.addBoard_boards, List.mem_append, List.mem_singleton]
    rintro r (hr | rfl)
    · exact hdb.board_checks r hr
    · exact hchecks
  · intro e he
    obtain ⟨r, hr, heq⟩ := hdb.entry_board e he
    exact ⟨r, by simp [hr], heq⟩
  · intro v hv
    obtain ⟨r, hr, heq⟩ := hdb.version_board v hv
    exact ⟨r, by simp [hr], heq⟩
  · intro x hx
    obtain ⟨r, hr, heq⟩ := hdb.reference_board x hx
    exact ⟨r, by simp [hr], heq⟩

private theorem schema_setBoard {b : Board} (hdb : db.Schema)
    (h : Legal P s L (.setBoard b) db) : (db.setBoard b).Schema := by
  obtain ⟨⟨r, hr, hrid, hrslug, -⟩, hchecks, -⟩ := h
  have hpresent : ∀ id, (∃ r ∈ db.boards, r.id = id) → ∃ r ∈ (db.setBoard b).boards, r.id = id := by
    rintro id ⟨r', hr', rfl⟩
    by_cases heq : r'.id = b.id
    · exact ⟨b, Database.mem_setBoard_boards.mpr (.inr ⟨rfl, r', hr', heq⟩), heq.symm⟩
    · exact ⟨r', Database.mem_setBoard_boards.mpr (.inl ⟨hr', heq⟩), rfl⟩
  refine { hdb with board_id := ?_, board_slug := ?_, board_checks := ?_, entry_board := ?_
                    version_board := ?_, reference_board := ?_ }
  · rw [Database.setBoard_boards, map_replace fun r' _ h' => h']
    exact hdb.board_id
  · rw [Database.setBoard_boards, map_replace fun r' hr' h' => by
      rw [hdb.board_inj hr' hr (h'.trans hrid.symm), hrslug]]
    exact hdb.board_slug
  · intro r' hr'
    rcases Database.mem_setBoard_boards.mp hr' with ⟨h₁, -⟩ | ⟨rfl, -⟩
    · exact hdb.board_checks r' h₁
    · exact hchecks
  · exact fun e he => hpresent _ (hdb.entry_board e he)
  · exact fun v hv => hpresent _ (hdb.version_board v hv)
  · exact fun x hx => hpresent _ (hdb.reference_board x hx)

private theorem schema_removeBoard {id : Uuid} (hdb : db.Schema) : (db.removeBoard id).Schema where
  board_id := hdb.board_id.sublist (List.filter_sublist.map _)
  board_slug := hdb.board_slug.sublist (List.filter_sublist.map _)
  board_checks b hb := hdb.board_checks b (List.mem_of_mem_filter hb)
  entry_id := hdb.entry_id.sublist (List.filter_sublist.map _)
  entry_key := hdb.entry_key.sublist (List.filter_sublist.map _)
  entry_board e he := by
    simp only [Database.removeBoard_entries, List.mem_filter, decide_eq_true_eq] at he
    obtain ⟨b, hb, heq⟩ := hdb.entry_board e he.1
    refine ⟨b, ?_, heq⟩
    simp only [Database.removeBoard_boards, List.mem_filter, decide_eq_true_eq]
    exact ⟨hb, heq ▸ he.2⟩
  version_id := hdb.version_id.sublist (List.filter_sublist.map _)
  version_key := hdb.version_key.sublist (List.filter_sublist.map _)
  version_pos v hv := hdb.version_pos v (List.mem_of_mem_filter hv)
  version_board v hv := by
    simp only [Database.removeBoard_versions, List.mem_filter, decide_eq_true_eq] at hv
    obtain ⟨b, hb, heq⟩ := hdb.version_board v hv.1
    refine ⟨b, ?_, heq⟩
    simp only [Database.removeBoard_boards, List.mem_filter, decide_eq_true_eq]
    exact ⟨hb, heq ▸ hv.2⟩
  placement_id := hdb.placement_id.sublist (List.filter_sublist.map _)
  placement_key := hdb.placement_key.sublist (List.filter_sublist.map _)
  placement_board p hp := by
    simp only [Database.removeBoard_placements, List.mem_filter, Bool.and_eq_true,
      Bool.not_eq_true', ← Bool.not_eq_true, Database.ownsVersion_iff, Database.ownsEntry_iff,
      not_exists, not_and] at hp
    obtain ⟨v, hv, e, he, hvid, heid, heq⟩ := hdb.placement_board p hp.1
    refine ⟨v, ?_, e, ?_, hvid, heid, heq⟩
    · simp only [Database.removeBoard_versions, List.mem_filter, decide_eq_true_eq]
      exact ⟨hv, hp.2.1 v hv hvid⟩
    · simp only [Database.removeBoard_entries, List.mem_filter, decide_eq_true_eq]
      exact ⟨he, hp.2.2 e he heid⟩
  score_key := hdb.score_key.sublist (List.filter_sublist.map _)
  score_board x hx := by
    simp only [Database.removeBoard_accumulatedScores, List.mem_filter, decide_eq_true_eq,
      ← Bool.not_eq_true, Database.ownsEntry_iff, not_exists, not_and] at hx
    obtain ⟨hfin, e, he, heid, heq⟩ := hdb.score_board x hx.1
    refine ⟨hfin, e, ?_, heid, heq⟩
    simp only [Database.removeBoard_entries, List.mem_filter, decide_eq_true_eq]
    exact ⟨he, hx.2.2 e he heid⟩
  reference_id := by
    rw [Database.removeBoard_references, List.map_map,
      show ReferenceRow.id ∘ db.unpin id = ReferenceRow.id from funext fun r => by simp]
    exact hdb.reference_id.sublist (List.filter_sublist.map _)
  reference_board x hx := by
    obtain ⟨r, hr, rfl⟩ := List.mem_map.mp hx
    simp only [List.mem_filter, decide_eq_true_eq] at hr
    obtain ⟨b, hb, heq⟩ := hdb.reference_board r hr.1
    refine ⟨b, ?_, heq.trans (Database.unpin_boardId id r).symm⟩
    simp only [Database.removeBoard_boards, List.mem_filter, decide_eq_true_eq]
    exact ⟨hb, heq ▸ hr.2⟩
  reference_pin x hx versionId hpin := by
    obtain ⟨r, hr, rfl⟩ := List.mem_map.mp hx
    simp only [List.mem_filter, decide_eq_true_eq] at hr
    -- A pin that is left was there before, and its version is of the same board.
    obtain ⟨v, hv, hvid, hvb⟩ := hdb.reference_pin r hr.1 versionId (Database.unpin_pin hpin)
    refine ⟨v, ?_, hvid, hvb.trans (Database.unpin_boardId id r).symm⟩
    simp only [Database.removeBoard_versions, List.mem_filter, decide_eq_true_eq]
    exact ⟨hv, hvb ▸ hr.2⟩
  collection_id := hdb.collection_id
  collection_slug := hdb.collection_slug

private theorem schema_addEntry {e : Entry} (hdb : db.Schema)
    (h : Legal P s L (.addEntry e) db) : (db.addEntry e).Schema := by
  obtain ⟨-, hid, hkey, hboard, -⟩ := h
  refine { hdb with entry_id := ?_, entry_key := ?_, entry_board := ?_, placement_board := ?_
                    score_board := ?_ }
  · exact nodup_map_append hdb.entry_id hid
  · exact nodup_map_append hdb.entry_key (by simpa using hkey)
  · simp only [Database.addEntry_entries, List.mem_append, List.mem_singleton]
    rintro r (hr | rfl)
    · exact hdb.entry_board r hr
    · exact hboard
  · intro p hp
    obtain ⟨v, hv, r, hr, hrest⟩ := hdb.placement_board p hp
    exact ⟨v, hv, r, by simp [hr], hrest⟩
  · intro x hx
    obtain ⟨hfin, r, hr, hrest⟩ := hdb.score_board x hx
    exact ⟨hfin, r, by simp [hr], hrest⟩

private theorem schema_setEntry {e : Entry} (hdb : db.Schema)
    (h : Legal P s L (.setEntry e) db) : (db.setEntry e).Schema := by
  obtain ⟨⟨r, hr, hrid, hrboard, hrslug⟩, -⟩ := h
  have hpresent : ∀ id bd, (∃ r ∈ db.entries, r.id = id ∧ r.boardId = bd) →
      ∃ r ∈ (db.setEntry e).entries, r.id = id ∧ r.boardId = bd := by
    rintro id bd ⟨r', hr', rfl, rfl⟩
    by_cases heq : r'.id = e.id
    · have hrr : r' = r := hdb.entry_inj hr' hr (heq.trans hrid.symm)
      exact ⟨e, Database.mem_setEntry_entries.mpr (.inr ⟨rfl, r', hr', heq⟩), heq.symm,
        by rw [hrr, hrboard]⟩
    · exact ⟨r', Database.mem_setEntry_entries.mpr (.inl ⟨hr', heq⟩), rfl, rfl⟩
  refine { hdb with entry_id := ?_, entry_key := ?_, entry_board := ?_, placement_board := ?_
                    score_board := ?_ }
  · rw [Database.setEntry_entries, map_replace fun r' _ h' => h']
    exact hdb.entry_id
  · rw [Database.setEntry_entries, map_replace fun r' hr' h' => by
      rw [hdb.entry_inj hr' hr (h'.trans hrid.symm), hrboard, hrslug]]
    exact hdb.entry_key
  · intro r' hr'
    rcases Database.mem_setEntry_entries.mp hr' with ⟨h₁, -⟩ | ⟨rfl, -⟩
    · exact hdb.entry_board r' h₁
    · rw [← hrboard]
      exact hdb.entry_board r hr
  · intro p hp
    obtain ⟨v, hv, r', hr', hvid, hid, hbd⟩ := hdb.placement_board p hp
    obtain ⟨r'', hr'', hid', hbd'⟩ := hpresent p.entryId v.boardId ⟨r', hr', hid, hbd⟩
    exact ⟨v, hv, r'', hr'', hvid, hid', hbd'⟩
  · intro x hx
    exact ⟨(hdb.score_board x hx).1, hpresent _ _ (hdb.score_board x hx).2⟩

private theorem schema_removeEntry {id : Uuid} (hdb : db.Schema) :
    (db.removeEntry id).Schema := by
  refine { hdb with
    entry_id := hdb.entry_id.sublist (List.filter_sublist.map _)
    entry_key := hdb.entry_key.sublist (List.filter_sublist.map _)
    entry_board := fun e he => hdb.entry_board e (List.mem_of_mem_filter he)
    placement_id := hdb.placement_id.sublist (List.filter_sublist.map _)
    placement_key := hdb.placement_key.sublist (List.filter_sublist.map _)
    placement_board := fun p hp => ?_
    score_key := hdb.score_key.sublist (List.filter_sublist.map _)
    score_board := fun x hx => ?_ }
  · simp only [Database.removeEntry_placements, List.mem_filter, decide_eq_true_eq] at hp
    obtain ⟨v, hv, e, he, hvid, heid, heq⟩ := hdb.placement_board p hp.1
    refine ⟨v, hv, e, ?_, hvid, heid, heq⟩
    simp only [Database.removeEntry_entries, List.mem_filter, decide_eq_true_eq]
    exact ⟨he, heid ▸ hp.2⟩
  · simp only [Database.removeEntry_accumulatedScores, List.mem_filter, decide_eq_true_eq] at hx
    obtain ⟨hfin, e, he, heid, heq⟩ := hdb.score_board x hx.1
    refine ⟨hfin, e, ?_, heid, heq⟩
    simp only [Database.removeEntry_entries, List.mem_filter, decide_eq_true_eq]
    exact ⟨he, heid ▸ hx.2⟩

private theorem schema_addVersion {v : Version} (hdb : db.Schema)
    (h : Legal P s L (.addVersion v) db) : (db.addVersion v).Schema := by
  obtain ⟨hid, hkey, hpos, hboard, -⟩ := h
  refine { hdb with version_id := ?_, version_key := ?_, version_pos := ?_, version_board := ?_
                    placement_board := ?_, reference_pin := ?_ }
  · exact nodup_map_append hdb.version_id hid
  · exact nodup_map_append hdb.version_key (by simpa using hkey)
  · simp only [Database.addVersion_versions, List.mem_append, List.mem_singleton]
    rintro r (hr | rfl)
    · exact hdb.version_pos r hr
    · exact hpos
  · simp only [Database.addVersion_versions, List.mem_append, List.mem_singleton]
    rintro r (hr | rfl)
    · exact hdb.version_board r hr
    · exact hboard
  · intro p hp
    obtain ⟨r, hr, hrest⟩ := hdb.placement_board p hp
    exact ⟨r, by simp [hr], hrest⟩
  · intro x hx id hpin
    obtain ⟨r, hr, hrest⟩ := hdb.reference_pin x hx id hpin
    exact ⟨r, by simp [hr], hrest⟩

private theorem schema_addPlacement {p : Placement} (hdb : db.Schema)
    (h : Legal P s L (.addPlacement p) db) : (db.addPlacement p).Schema := by
  obtain ⟨hid, hkey, hboard, -⟩ := h
  refine { hdb with placement_id := ?_, placement_key := ?_, placement_board := ?_ }
  · exact nodup_map_append hdb.placement_id hid
  · exact nodup_map_append hdb.placement_key (by simpa using hkey)
  · simp only [Database.addPlacement_placements, List.mem_append, List.mem_singleton]
    rintro r (hr | rfl)
    · exact hdb.placement_board r hr
    · exact hboard

private theorem schema_setPositions {ranked : List (Uuid × ℤ)} (hdb : db.Schema) :
    (db.setPositions ranked).Schema := by
  refine { hdb with placement_id := ?_, placement_key := ?_, placement_board := ?_ }
  · rw [Database.setPositions_placements, List.map_map,
      show Placement.id ∘ Database.withPosition ranked = Placement.id from
        funext fun p => Database.withPosition_id ranked p]
    exact hdb.placement_id
  · rw [Database.setPositions_placements, List.map_map,
      show (fun p : Placement => (p.versionId, p.entryId)) ∘ Database.withPosition ranked =
        fun p => (p.versionId, p.entryId) from funext fun p => by simp]
    exact hdb.placement_key
  · intro p hp
    obtain ⟨q, hq, rfl⟩ := List.mem_map.mp hp
    simpa using hdb.placement_board q hq

private theorem schema_addScore {x : AccumulatedScore} (hdb : db.Schema)
    (h : Legal P s L (.addScore x) db) : (db.addScore x).Schema := by
  obtain ⟨hkey, hfin, hentry, -⟩ := h
  refine { hdb with score_key := ?_, score_board := ?_ }
  · exact nodup_map_append hdb.score_key (by simpa using hkey)
  · simp only [Database.addScore_accumulatedScores, List.mem_append, List.mem_singleton]
    rintro r (hr | rfl)
    · exact hdb.score_board r hr
    · exact ⟨hfin, hentry⟩

private theorem schema_setScore {x : AccumulatedScore} (hdb : db.Schema)
    (h : Legal P s L (.setScore x) db) : (db.setScore x).Schema := by
  obtain ⟨⟨r, hr, hrb, hre⟩, hfin, -⟩ := h
  refine { hdb with score_key := ?_, score_board := ?_ }
  · rw [Database.setScore_accumulatedScores, map_replace fun r' _ h' => by rw [h'.1, h'.2]]
    exact hdb.score_key
  · intro r' hr'
    rcases Database.mem_setScore_accumulatedScores.mp hr' with ⟨h₁, -⟩ | ⟨rfl, -⟩
    · exact hdb.score_board r' h₁
    · refine ⟨hfin, ?_⟩
      rw [← hrb, ← hre]
      exact (hdb.score_board r hr).2

private theorem schema_addReference {r : ReferenceRow} (hdb : db.Schema)
    (h : Legal P s L (.addReference r) db) : (db.addReference r).Schema := by
  obtain ⟨hid, hboard, ⟨input, -, hfollows⟩, -⟩ := h
  refine { hdb with reference_id := ?_, reference_board := ?_, reference_pin := ?_ }
  · exact nodup_map_append hdb.reference_id hid
  · simp only [Database.addReference_references, List.mem_append, List.mem_singleton]
    rintro x (hx | rfl)
    · exact hdb.reference_board x hx
    · exact hboard
  · simp only [Database.addReference_references, List.mem_append, List.mem_singleton]
    rintro x (hx | rfl)
    · exact hdb.reference_pin x hx
    · intro id hid
      obtain ⟨v, hv, hvid, hvb, -⟩ := hfollows.pin id hid
      exact ⟨v, hv, hvid, hvb⟩

private theorem schema_removeReference {id : Uuid} (hdb : db.Schema) :
    (db.removeReference id).Schema :=
  { hdb with
    reference_id := hdb.reference_id.sublist (List.filter_sublist.map _)
    reference_board := fun x hx => hdb.reference_board x (List.mem_of_mem_filter hx)
    reference_pin := fun x hx => hdb.reference_pin x (List.mem_of_mem_filter hx) }

private theorem schema_addCollection {c : Collection} (hdb : db.Schema)
    (h : Legal P s L (.addCollection c) db) : (db.addCollection c).Schema := by
  obtain ⟨hid, hslug, -⟩ := h
  exact { hdb with
    collection_id := nodup_map_append hdb.collection_id hid
    collection_slug := nodup_map_append hdb.collection_slug hslug }

private theorem schema_setCollection {c : Collection} (hdb : db.Schema)
    (h : Legal P s L (.setCollection c) db) : (db.setCollection c).Schema := by
  obtain ⟨⟨r, hr, hrid, hrslug⟩, -⟩ := h
  refine { hdb with collection_id := ?_, collection_slug := ?_ }
  · rw [Database.setCollection_collections, map_replace fun r' _ h' => h']
    exact hdb.collection_id
  · rw [Database.setCollection_collections, map_replace fun r' hr' h' => by
      rw [hdb.collection_inj hr' hr (h'.trans hrid.symm), hrslug]]
    exact hdb.collection_slug

private theorem schema_removeCollection {id : Uuid} (hdb : db.Schema) :
    (db.removeCollection id).Schema :=
  { hdb with
    collection_id := hdb.collection_id.sublist (List.filter_sublist.map _)
    collection_slug := hdb.collection_slug.sublist (List.filter_sublist.map _) }

/-- **A legal write preserves the schema.** -/
theorem Legal.schema {w : RowWrite} (h : Legal P s L w db) (hdb : db.Schema) :
    (w.apply db).Schema := by
  cases w with
  | addBoard b => exact schema_addBoard hdb h
  | setBoard b => exact schema_setBoard hdb h
  | removeBoard id => exact schema_removeBoard hdb
  | addEntry e => exact schema_addEntry hdb h
  | setEntry e => exact schema_setEntry hdb h
  | removeEntry id => exact schema_removeEntry hdb
  | addVersion v => exact schema_addVersion hdb h
  | addPlacement p => exact schema_addPlacement hdb h
  | setPositions ranked => exact schema_setPositions hdb
  | addScore x => exact schema_addScore hdb h
  | setScore x => exact schema_setScore hdb h
  | addReference r => exact schema_addReference hdb h
  | removeReference id => exact schema_removeReference hdb
  | addCollection c => exact schema_addCollection hdb h
  | setCollection c => exact schema_setCollection hdb h
  | removeCollection id => exact schema_removeCollection hdb

/-- **The pending writes of a transaction lead to tables that satisfy the schema.** -/
theorem LegalSeq.schema {ws : List RowWrite} (h : LegalSeq P s L ws db) (hdb : db.Schema) :
    (db.applyAll ws).Schema := by
  induction ws generalizing db with
  | nil => exact hdb
  | cons w ws ih => exact ih h.2.2 (h.1.schema hdb)

end Leaderboards
