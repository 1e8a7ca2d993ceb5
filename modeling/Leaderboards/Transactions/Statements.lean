import Leaderboards.Transactions.Contract

/-!
# The row writes of each statement

One lemma for each writing statement: what it returned, what it writes, and what the constraints
it passed say about the tables (`exec…_ok`). From these, that its row writes are legal, with
the program-specific premises where the constraints are not enough (`legal_…`).
-/

namespace Leaderboards

variable {u : Uuid} {now : Timestamp} {db : Database} {ws : List RowWrite}

/-! ### Statements that only read -/

/-- A statement that writes no row and locks none. -/
def Query.readOnly : Query → Bool
  | .selectBoardBySlug _ | .selectEntries _ | .selectEntriesBySlug .. | .countVersionsPlacing _
  | .countVersions _ | .nextVersionNumber _ | .selectVersions _ | .selectVersionByNumber ..
  | .selectLatestVersion _ | .selectVersionsSince .. | .selectPlacements _
  | .selectSnapshotPlacements _ | .selectBoardPlacements _ | .selectScores _
  | .selectCollectionBySlug _ | .selectBoardsPage .. | .selectEntriesPage ..
  | .selectVersionsPage ..
  | .selectCollectionsPage .. | .selectReferencesPage .. => true
  | _ => false

theorem map_nil_ok {ε α : Type} {x : Except ε α} {a : α}
    (h : (x.map fun y => (y, ([] : List RowWrite))) = .ok (a, ws)) : x = .ok a ∧ ws = [] := by
  cases x with
  | error e => cases h
  | ok y =>
    cases h
    exact ⟨rfl, rfl⟩

theorem exec_readOnly {q : Query} (hq : q.readOnly = true) {row : q.Row}
    (h : exec u now q db = .ok (row, ws)) : ws = [] := by
  cases q with
  | nextVersionNumber boardId =>
    simp only [exec] at h
    split at h
    · cases h
      rfl
    · cases h
  | selectPlacements versionId => exact (map_nil_ok h).2
  | selectBoardPlacements boardId => exact (map_nil_ok h).2
  | selectBoardBySlug | selectEntries | selectEntriesBySlug | countVersionsPlacing
  | countVersions | selectVersions | selectVersionByNumber | selectLatestVersion
  | selectVersionsSince | selectSnapshotPlacements | selectScores | selectCollectionBySlug
    | selectBoardsPage
  | selectEntriesPage | selectVersionsPage | selectCollectionsPage | selectReferencesPage =>
    cases h
    rfl
  | _ => cases hq

theorem locks_readOnly {q : Query} (hq : q.readOnly = true) : q.locks u db = [] := by
  cases q <;> first | rfl | cases hq

/-! ### What a statement did -/

theorem execInsertBoard_ok {input : CreateBoard} {b : Board}
    (h : execInsertBoard u now db input = .ok (b, ws)) :
    ws = [.addBoard b] ∧ b.checks ∧ (∀ r ∈ db.boards, r.id ≠ u) ∧
      (∀ r ∈ db.boards, r.slug ≠ input.slug) ∧
      b = { id := u, slug := input.slug, name := input.name, boardType := input.boardType
            sortDirection := input.sortDirection, tierConfig := input.tierConfig
            metadata := input.metadata, accumulative := input.accumulative
            realtime := input.realtime, clearOnSnapshot := input.clearOnSnapshot
            createdAt := now, updatedAt := now } := by
  simp only [execInsertBoard] at h
  split at h
  · cases h
  · rename_i hchecks
    split at h
    · cases h
    · rename_i habs
      simp only [not_or, Bool.not_eq_true, Option.isSome_eq_false_iff, Option.isNone_iff_eq_none,
        Database.board?_eq_none, Database.boardBySlug?_eq_none] at habs
      cases h
      exact ⟨rfl, not_not.mp hchecks, habs.1, habs.2, rfl⟩

theorem execUpdateBoard_ok {id : Uuid} {name sortDirection : String}
    {tierConfig metadata : Option Json} {realtime clearOnSnapshot : Bool} {b : Board}
    (h : execUpdateBoard now db id name sortDirection tierConfig metadata realtime
      clearOnSnapshot = .ok (b, ws)) :
    ws = [.setBoard b] ∧ b.checks ∧ ∃ r, db.board? id = some r ∧
      b = { r with name := name, sortDirection := sortDirection, tierConfig := tierConfig
                   metadata := metadata, realtime := realtime
                   clearOnSnapshot := clearOnSnapshot, updatedAt := now } := by
  simp only [execUpdateBoard] at h
  split at h
  · cases h
  · rename_i r hr
    split at h
    · rename_i hchecks
      cases h
      exact ⟨rfl, hchecks, r, hr, rfl⟩
    · cases h

theorem execDeleteBoard_ok {slug : String} {n : ℕ} (h : execDeleteBoard db slug = .ok (n, ws)) :
    ws = [] ∨ ∃ b, db.boardBySlug? slug = some b ∧ ws = [.removeBoard b.id] := by
  simp only [execDeleteBoard] at h
  split at h
  · cases h
    exact .inl rfl
  · rename_i b hb
    cases h
    exact .inr ⟨b, hb, rfl⟩

theorem execInsertEntry_ok {boardId : Uuid} {slug name : String} {metadata : Option Json}
    {e : Entry} (h : execInsertEntry u now db boardId slug name metadata = .ok (e, ws)) :
    ws = [.addEntry e] ∧ (∀ r ∈ db.entries, r.id ≠ u) ∧
      (∀ r ∈ db.entries, ¬(r.boardId = boardId ∧ r.slug = slug)) ∧
      (∃ b ∈ db.boards, b.id = boardId) ∧
      e = { id := u, boardId := boardId, slug := slug, name := name, metadata := metadata
            createdAt := now, updatedAt := now } := by
  simp only [execInsertEntry] at h
  split at h
  · cases h
  · rename_i habs
    simp only [not_or, Bool.not_eq_true, Option.isSome_eq_false_iff, Option.isNone_iff_eq_none,
      Database.entryById?_eq_none, Database.entryBySlug?_eq_none] at habs
    split at h
    · cases h
    · rename_i hboard
      cases h
      refine ⟨rfl, habs.1, habs.2, ?_, rfl⟩
      rcases hfind : db.board? boardId with _ | b
      · exact absurd (by simp [hfind]) hboard
      · exact ⟨b, Database.mem_of_board? hfind⟩

theorem execUpsertEntry_ok {boardId : Uuid} {slug name : String} {id : Uuid}
    (h : execUpsertEntry u now db boardId slug name = .ok (id, ws)) :
    (∃ e, db.entryBySlug? boardId slug = some e ∧ id = e.id ∧
        ws = [.setEntry { e with name := name, updatedAt := now }]) ∨
      ∃ e, db.entryBySlug? boardId slug = none ∧
        execInsertEntry u now db boardId slug name none = .ok (e, ws) ∧ id = e.id := by
  simp only [execUpsertEntry] at h
  split at h
  · rename_i e he
    cases h
    exact .inl ⟨e, he, rfl, rfl⟩
  · rename_i hnone
    rcases hins : execInsertEntry u now db boardId slug name none with err | ⟨e, ws'⟩
    · simp [hins, Except.map] at h
    · simp only [hins, Except.map, Except.ok.injEq, Prod.mk.injEq] at h
      obtain ⟨rfl, rfl⟩ := h
      exact .inr ⟨e, hnone, rfl, rfl⟩

theorem execUpdateEntry_ok {id : Uuid} {name : String} {metadata : Option Json} {e : Entry}
    (h : execUpdateEntry now db id name metadata = .ok (e, ws)) :
    ws = [.setEntry e] ∧ ∃ r, db.entryById? id = some r ∧
      e = { r with name := name, metadata := metadata, updatedAt := now } := by
  simp only [execUpdateEntry] at h
  split at h
  · cases h
  · rename_i r hr
    cases h
    exact ⟨rfl, r, hr, rfl⟩

theorem execInsertVersion_ok {boardId : Uuid} {n : ℤ} {note : Option String}
    {metadata : Option Json} {v : Version}
    (h : execInsertVersion u now db boardId n note metadata = .ok (v, ws)) :
    ws = [.addVersion v] ∧ 0 < n ∧ (∀ r ∈ db.versions, r.id ≠ u) ∧
      (∀ r ∈ db.versions, r.boardId = boardId → r.versionNumber ≠ n) ∧
      (∃ b ∈ db.boards, b.id = boardId) ∧
      v = { id := u, boardId := boardId, versionNumber := n, note := note, metadata := metadata
            createdAt := now } := by
  simp only [execInsertVersion] at h
  split at h
  · cases h
  · rename_i hpos
    split at h
    · cases h
    · rename_i habs
      simp only [not_or, Bool.not_eq_true, Option.isSome_eq_false_iff, Option.isNone_iff_eq_none,
        Database.version?_eq_none, List.any_eq_false, decide_eq_true_eq,
        Database.mem_versionsOf] at habs
      split at h
      · cases h
      · rename_i hboard
        cases h
        refine ⟨rfl, not_not.mp hpos, habs.1, fun r hr hb => habs.2 r ⟨hr, hb⟩, ?_, rfl⟩
        rcases hfind : db.board? boardId with _ | b
        · exact absurd (by simp [hfind]) hboard
        · exact ⟨b, Database.mem_of_board? hfind⟩

theorem execInsertPlacement_ok {versionId entryId : Uuid} {position : Option ℤ}
    {score : Option F64} {tier : Option String} {metadata : Option Json} {p : Placement}
    (h : execInsertPlacement u db versionId entryId position score tier metadata = .ok (p, ws)) :
    ws = [.addPlacement p] ∧ (∀ r ∈ db.placements, r.id ≠ u) ∧
      (∀ r ∈ db.placements, ¬(r.versionId = versionId ∧ r.entryId = entryId)) ∧
      (∃ v ∈ db.versions, v.id = versionId) ∧ (∃ e ∈ db.entries, e.id = entryId) ∧
      p = { id := u, versionId := versionId, entryId := entryId, position := position
            score := score, tier := tier, metadata := metadata } := by
  simp only [execInsertPlacement] at h
  split at h
  · cases h
  · rename_i habs
    simp only [List.any_eq_true, decide_eq_true_eq, not_exists, not_and, not_or] at habs
    split at h
    · cases h
    · rename_i href
      simp only [not_or] at href
      cases h
      refine ⟨rfl, fun r hr => (habs r hr).1, fun r hr hkey => (habs r hr).2 hkey.1 hkey.2, ?_, ?_,
        rfl⟩
      · rcases hfind : db.version? versionId with _ | v
        · exact absurd (by simp [hfind]) href.1
        · exact ⟨v, Database.mem_of_version? hfind⟩
      · rcases hfind : db.entryById? entryId with _ | e
        · exact absurd (by simp [hfind]) href.2
        · exact ⟨e, Database.mem_of_entryById? hfind⟩

theorem execDerivePositions_ok {versionId : Uuid} {asc : Bool} {x : Unit}
    (h : execDerivePositions db versionId asc = .ok (x, ws)) :
    ws = [.setPositions (rankedPositions db versionId asc)] := by
  simp only [execDerivePositions] at h
  split at h
  · cases h
    rfl
  · cases h

theorem execUpsertScore_ok {boardId entryId : Uuid} {score : F64} {x : AccumulatedScore}
    (h : execUpsertScore u now db boardId entryId score = .ok (x, ws)) :
    (∃ r, (db.scoresOf boardId).find? (fun s => s.entryId = entryId) = some r ∧
        x = { r with score := score, submittedAt := now } ∧ ws = [.setScore x]) ∨
      ((db.scoresOf boardId).find? (fun s => s.entryId = entryId) = none ∧
        (∃ e ∈ db.entries, e.id = entryId) ∧ ws = [.addScore x] ∧
        x = { id := u, boardId := boardId, entryId := entryId, score := score
              submittedAt := now }) := by
  simp only [execUpsertScore] at h
  split at h
  · rename_i r hr
    cases h
    exact .inl ⟨r, hr, rfl, rfl⟩
  · rename_i hnone
    split at h
    · cases h
    · split at h
      · cases h
      · rename_i href
        simp only [not_or] at href
        cases h
        refine .inr ⟨hnone, ?_, rfl, rfl⟩
        rcases hfind : db.entryById? entryId with _ | e
        · exact absurd (by simp [hfind]) href.2
        · exact ⟨e, Database.mem_of_entryById? hfind⟩

theorem execInsertReference_ok {boardId : Uuid} {pinnedVersionId : Option Uuid}
    {uri refType : String} {label : Option String} {ref : BoardReference}
    (h : execInsertReference u now db boardId pinnedVersionId uri refType label = .ok (ref, ws)) :
    ∃ r : ReferenceRow, ws = [.addReference r] ∧ ref = db.withPinned r ∧
      (∀ x ∈ db.references, x.id ≠ u) ∧ (∃ b ∈ db.boards, b.id = boardId) ∧
      (∀ id, pinnedVersionId = some id → ∃ v ∈ db.versions, v.id = id) ∧
      r = { id := u, boardId := boardId, pinnedVersionId := pinnedVersionId, uri := uri
            refType := refType, label := label, createdAt := now } := by
  simp only [execInsertReference] at h
  split at h
  · cases h
  · split at h
    · cases h
    · rename_i habs
      split at h
      · cases h
      · rename_i href
        simp only [not_or] at href
        cases h
        refine ⟨_, rfl, rfl, fun x hx => ?_, ?_, fun id hid => ?_, rfl⟩
        · simp only [List.any_eq_true, decide_eq_true_eq, not_exists, not_and] at habs
          exact habs x hx
        · rcases hfind : db.board? boardId with _ | b
          · exact absurd (by simp [hfind]) href.1
          · exact ⟨b, Database.mem_of_board? hfind⟩
        · rcases hfind : db.version? id with _ | v
          · exact absurd (by simp [hid, hfind]) href.2
          · exact ⟨v, Database.mem_of_version? hfind⟩

theorem execDeleteReference_ok {id boardId : Uuid} {n : ℕ}
    (h : execDeleteReference db id boardId = .ok (n, ws)) :
    ws = [] ∨ ws = [.removeReference id] := by
  simp only [execDeleteReference] at h
  split at h
  · cases h
    exact .inr rfl
  · cases h
    exact .inl rfl

theorem execInsertCollection_ok {slug name : String} {metadata : Option Json} {c : Collection}
    (h : execInsertCollection u now db slug name metadata = .ok (c, ws)) :
    ws = [.addCollection c] ∧ (∀ r ∈ db.collections, r.id ≠ u) ∧
      (∀ r ∈ db.collections, r.slug ≠ slug) ∧
      c = { id := u, slug := slug, name := name, metadata := metadata, createdAt := now
            updatedAt := now } := by
  simp only [execInsertCollection] at h
  split at h
  · cases h
  · rename_i habs
    simp only [not_or, Bool.not_eq_true, Option.isSome_eq_false_iff, Option.isNone_iff_eq_none,
      Database.collection?_eq_none, Database.collectionBySlug?_eq_none] at habs
    cases h
    exact ⟨rfl, habs.1, habs.2, rfl⟩

theorem execUpdateCollection_ok {id : Uuid} {name : String} {metadata : Option Json}
    {c : Collection} (h : execUpdateCollection now db id name metadata = .ok (c, ws)) :
    ws = [.setCollection c] ∧ ∃ r, db.collection? id = some r ∧
      c = { r with name := name, metadata := metadata, updatedAt := now } := by
  simp only [execUpdateCollection] at h
  split at h
  · cases h
  · rename_i r hr
    cases h
    exact ⟨rfl, r, hr, rfl⟩

theorem execDeleteCollection_ok {slug : String} {n : ℕ}
    (h : execDeleteCollection db slug = .ok (n, ws)) :
    ws = [] ∨ ∃ c, db.collectionBySlug? slug = some c ∧ ws = [.removeCollection c.id] := by
  simp only [execDeleteCollection] at h
  split at h
  · cases h
    exact .inl rfl
  · rename_i c hc
    cases h
    exact .inr ⟨c, hc, rfl⟩

/-! ### Where a row write comes from -/

/-- The row write removes a board or an entry. -/
def RowWrite.removesRow : RowWrite → Prop
  | .removeBoard _ => True
  | .removeEntry _ => True
  | _ => False

/-- The statement removes a board or an entry. -/
def Query.removesRow : Query → Prop
  | .deleteBoard _ => True
  | .deleteEntry _ => True
  | _ => False

/-- The row write is one of the statement: a new row has the id and the time that were supplied, the
names of boards and entries are those of the statement, and their slugs never change. -/
def RowWrite.WrittenBy (u : Uuid) (now : Timestamp) (q : Query) (db : Database)
    (ws : List RowWrite) : RowWrite → Prop
  | .addBoard b => b.id = u ∧ ws = [.addBoard b] ∧ ∃ input, q = .insertBoard input ∧
      b.slug = input.slug ∧ b.name = input.name
  | .setBoard b => (∃ r ∈ db.boards, r.slug = b.slug) ∧
      ∃ sortDirection tierConfig metadata realtime clearOnSnapshot,
        q = .updateBoard b.id b.name sortDirection tierConfig metadata realtime clearOnSnapshot
  | .addEntry e => e.id = u ∧ (q = .insertEntry e.boardId e.slug e.name e.metadata ∨
      q = .upsertEntry e.boardId e.slug e.name)
  | .setEntry e => (∃ r ∈ db.entries, r.slug = e.slug) ∧
      (q = .updateEntry e.id e.name e.metadata ∨ q = .upsertEntry e.boardId e.slug e.name)
  | .addVersion v => ws = [.addVersion v] ∧ v.createdAt = now ∧
      ∃ note metadata, q = .insertVersion v.boardId v.versionNumber note metadata
  | .removeBoard _ => q.removesRow
  | .removeEntry _ => q.removesRow
  | _ => True

/-- **What a statement may write.** -/
theorem exec_writtenBy {q : Query} {row : q.Row} (h : exec u now q db = .ok (row, ws)) :
    ∀ w ∈ ws, w.WrittenBy u now q db ws := by
  cases q with
  | insertBoard input =>
    obtain ⟨rfl, -, -, -, rfl⟩ := execInsertBoard_ok h
    simp [RowWrite.WrittenBy]
  | updateBoard =>
    obtain ⟨rfl, -, r, hr, rfl⟩ := execUpdateBoard_ok h
    obtain ⟨hmem, rfl⟩ := Database.mem_of_board? hr
    simpa [RowWrite.WrittenBy] using ⟨r, hmem, rfl⟩
  | deleteBoard =>
    rcases execDeleteBoard_ok h with rfl | ⟨r, -, rfl⟩ <;>
      simp [RowWrite.WrittenBy, Query.removesRow]
  | selectBoardForUpdate =>
    simp only [exec] at h
    split at h <;> cases h
    simp
  | insertEntry =>
    obtain ⟨rfl, -, -, -, rfl⟩ := execInsertEntry_ok h
    simp [RowWrite.WrittenBy]
  | upsertEntry =>
    rcases execUpsertEntry_ok h with ⟨e, he, -, rfl⟩ | ⟨e, -, hins, -⟩
    · obtain ⟨hmem, rfl, rfl⟩ := Database.mem_of_entryBySlug? he
      simpa [RowWrite.WrittenBy] using ⟨e, hmem, rfl⟩
    · obtain ⟨rfl, -, -, -, rfl⟩ := execInsertEntry_ok hins
      simp [RowWrite.WrittenBy]
  | updateEntry =>
    obtain ⟨rfl, r, hr, rfl⟩ := execUpdateEntry_ok h
    obtain ⟨hmem, rfl⟩ := Database.mem_of_entryById? hr
    simpa [RowWrite.WrittenBy] using ⟨r, hmem, rfl⟩
  | insertVersion =>
    obtain ⟨rfl, -, -, -, -, rfl⟩ := execInsertVersion_ok h
    simp [RowWrite.WrittenBy]
  | insertPlacement =>
    obtain ⟨rfl, -⟩ := execInsertPlacement_ok h
    simp [RowWrite.WrittenBy]
  | derivePositions =>
    obtain rfl := execDerivePositions_ok h
    simp [RowWrite.WrittenBy]
  | upsertScore =>
    rcases execUpsertScore_ok h with ⟨r, -, -, rfl⟩ | ⟨-, -, rfl, -⟩ <;>
      simp [RowWrite.WrittenBy]
  | insertReference =>
    obtain ⟨r, rfl, -⟩ := execInsertReference_ok h
    simp [RowWrite.WrittenBy]
  | deleteReference => rcases execDeleteReference_ok h with rfl | rfl <;> simp [RowWrite.WrittenBy]
  | insertCollection =>
    obtain ⟨rfl, -⟩ := execInsertCollection_ok h
    simp [RowWrite.WrittenBy]
  | updateCollection =>
    obtain ⟨rfl, -⟩ := execUpdateCollection_ok h
    simp [RowWrite.WrittenBy]
  | deleteCollection =>
    rcases execDeleteCollection_ok h with rfl | ⟨c, -, rfl⟩ <;> simp [RowWrite.WrittenBy]
  | deleteEntry =>
    cases h
    simp [RowWrite.WrittenBy, Query.removesRow]
  | selectBoardBySlugForUpdate | selectEntryForUpdate | selectCollectionBySlugForUpdate =>
    cases h
    simp
  | _ =>
    obtain rfl := exec_readOnly rfl h
    simp

/-! ### Legality -/

variable {P : Policy} {s : Server} {L : List Lock}

theorem legal_insertBoard {input : CreateBoard} {b : Board}
    (h : execInsertBoard u now db input = .ok (b, ws)) (hu : s.Fresh u)
    (hconfig : P.AllowsNew input)
    (hL : ∀ l ∈ (Query.insertBoard input).locks u db, l ∈ L) : Legal P s L (.addBoard b) db := by
  obtain ⟨-, hchecks, hid, hslug, rfl⟩ := execInsertBoard_ok h
  exact ⟨hu.1, hid, hslug, hchecks, hconfig, held_of_mem (hL _ (by simp [Query.locks])),
    held_of_mem (hL _ (by simp [Query.locks]))⟩

theorem legal_updateBoard {id : Uuid} {name sortDirection : String}
    {tierConfig metadata : Option Json} {realtime clearOnSnapshot : Bool} {b : Board}
    (h : execUpdateBoard now db id name sortDirection tierConfig metadata realtime
      clearOnSnapshot = .ok (b, ws)) (hconfig : P.config tierConfig)
    (hsetup : ∀ r, db.board? id = some r → P.setup r.boardType sortDirection tierConfig)
    (hL : Held L (.board id) .noKeyUpdate) : Legal P s L (.setBoard b) db := by
  obtain ⟨-, hchecks, r, hr, rfl⟩ := execUpdateBoard_ok h
  obtain ⟨hmem, rfl⟩ := Database.mem_of_board? hr
  exact ⟨⟨r, hmem, rfl, rfl, rfl, rfl⟩, hchecks, ⟨hconfig, hsetup r hr⟩, hL⟩

theorem legal_insertEntry {boardId : Uuid} {slug name : String} {metadata : Option Json}
    {e : Entry} (h : execInsertEntry u now db boardId slug name metadata = .ok (e, ws))
    (hu : s.Fresh u) (hL : ∀ l ∈ entryInsertLocks u boardId slug, l ∈ L) :
    Legal P s L (.addEntry e) db := by
  obtain ⟨-, hid, hkey, hboard, rfl⟩ := execInsertEntry_ok h
  exact ⟨hu.2, hid, hkey, hboard, held_of_mem (hL _ (by simp [entryInsertLocks])),
    held_of_mem (hL _ (by simp [entryInsertLocks])),
    held_of_mem (hL _ (by simp [entryInsertLocks]))⟩

theorem legal_setEntry {r e : Entry} (hr : r ∈ db.entries) (hkey : r.SameKey e)
    (hL : Held L (.entry e.id) .noKeyUpdate) : Legal P s L (.setEntry e) db :=
  ⟨⟨r, hr, hkey⟩, hL⟩

theorem legal_insertVersion {boardId : Uuid} {n : ℤ} {note : Option String}
    {metadata : Option Json} {v : Version}
    (h : execInsertVersion u now db boardId n note metadata = .ok (v, ws))
    (hnext : NextNumber P s.db v ∨ ∀ r ∈ s.db.boards, r.id ≠ boardId)
    (hL : Held L (.board boardId) .update) (hL' : Held L (.version u) .update) :
    Legal P s L (.addVersion v) db := by
  obtain ⟨-, hpos, hid, hkey, hboard, rfl⟩ := execInsertVersion_ok h
  exact ⟨hid, hkey, hpos, hboard, hnext, hL, hL'⟩

theorem legal_insertPlacement {versionId entryId : Uuid} {position : Option ℤ}
    {score : Option F64} {tier : Option String} {metadata : Option Json} {p : Placement}
    (h : execInsertPlacement u db versionId entryId position score tier metadata = .ok (p, ws))
    {v : Version} (hv : v ∈ db.versions) (hvid : v.id = versionId)
    (hentry : ∀ e ∈ db.entries, e.id = entryId → e.boardId = v.boardId)
    (hbase : ∀ r ∈ s.db.versions, r.id ≠ versionId) (hL : Held L (.version versionId) .update)
    (hL' : ∀ l ∈ (Query.insertPlacement versionId entryId position score tier metadata).locks u db,
      l ∈ L) : Legal P s L (.addPlacement p) db := by
  obtain ⟨-, hid, hkey, -, ⟨e, he, heid⟩, rfl⟩ := execInsertPlacement_ok h
  exact ⟨hid, hkey, ⟨v, hv, e, he, hvid, heid, hentry e he heid⟩, hbase, hL,
    held_of_mem (hL' _ (by simp [Query.locks])), held_of_mem (hL' _ (by simp [Query.locks]))⟩

theorem legal_derivePositions {versionId : Uuid} {asc : Bool}
    (hbase : ∀ r ∈ s.db.versions, r.id ≠ versionId) (hL : Held L (.version versionId) .update) :
    Legal P s L (.setPositions (rankedPositions db versionId asc)) db := by
  intro r hr
  obtain ⟨⟨p, n⟩, hp, rfl⟩ := List.mem_map.mp hr
  have hmem : p ∈ db.placementsOf versionId := by
    have hp' : p ∈ (Ranking.orderBy (scoreKey asc) (db.placementsOf versionId)) := by
      have := List.mem_map_of_mem (f := Prod.fst) hp
      simpa [Ranking.rowNumbers, List.zipIdx_map_fst] using this
    exact (Ranking.mem_orderBy _).mp hp'
  obtain ⟨hp', rfl⟩ := Database.mem_placementsOf.mp hmem
  exact ⟨p, hp', rfl, hbase, hL⟩

theorem legal_upsertScore {boardId entryId : Uuid} {score : F64} {x : AccumulatedScore}
    (h : execUpsertScore u now db boardId entryId score = .ok (x, ws))
    (hfin : score.isFinite = true) (hentry : ∀ e ∈ db.entries, e.id = entryId → e.boardId = boardId)
    (hL : Held L (.entry entryId) .keyShare)
    (hL' : ∀ l ∈ (Query.upsertScore boardId entryId score).locks u db, l ∈ L) :
    ∃ w, ws = [w] ∧ ¬w.removes ∧ (∀ v, w ≠ .addVersion v) ∧ Legal P s L w db := by
  rcases execUpsertScore_ok h with ⟨r, hr, rfl, rfl⟩ | ⟨hnone, ⟨e, he, heid⟩, rfl, rfl⟩
  · have hmem := List.mem_of_find?_eq_some hr
    have hkey : r.entryId = entryId := by simpa using List.find?_some hr
    obtain ⟨hmem', rfl⟩ := Database.mem_scoresOf.mp hmem
    refine ⟨_, rfl, id, by simp, ⟨r, hmem', rfl, rfl⟩, hfin, hkey ▸ hL, ?_⟩
    subst hkey
    exact held_of_mem (hL' _ (by simp [Query.locks, hr]))
  · refine ⟨_, rfl, id, by simp, fun r hr hkey => ?_, hfin, ⟨e, he, heid, hentry e he heid⟩, hL,
      held_of_mem (hL' _ (by simp [Query.locks, hnone]))⟩
    have := List.find?_eq_none.mp hnone r (Database.mem_scoresOf.mpr ⟨hr, hkey.1⟩)
    exact this (by simpa using hkey.2)

theorem legal_insertReference {boardId : Uuid} {pinnedVersionId : Option Uuid}
    {input : CreateReference} {ref : BoardReference} (hinput : P.reference input)
    (h : execInsertReference u now db boardId pinnedVersionId input.uri input.refType input.label =
      .ok (ref, ws))
    (hpinned : pinnedVersionId.isSome = input.pinnedVersionNumber.isSome)
    (hpin : ∀ id, pinnedVersionId = some id → ∀ v ∈ db.versions, v.id = id →
      v.boardId = boardId ∧ input.pinnedVersionNumber = some v.versionNumber)
    (hL : ∀ l ∈ (Query.insertReference boardId pinnedVersionId input.uri input.refType
      input.label).locks u db, l ∈ L) :
    ∃ r, ws = [.addReference r] ∧ Legal P s L (.addReference r) db := by
  obtain ⟨r, rfl, -, hid, hboard, hversion, rfl⟩ := execInsertReference_ok h
  refine ⟨_, rfl, hid, hboard, ⟨input, hinput, rfl, rfl, rfl, hpinned, fun id hp => ?_⟩,
    fun id hp => held_of_mem (hL _ ?_), held_of_mem (hL _ (by simp [Query.locks])),
    held_of_mem (hL _ (by simp [Query.locks]))⟩
  · obtain ⟨v, hv, hvid⟩ := hversion id hp
    exact ⟨v, hv, hvid, hpin id hp v hv hvid⟩
  · simp [Query.locks, show pinnedVersionId = some id from hp]

theorem legal_insertCollection {slug name : String} {metadata : Option Json} {c : Collection}
    (h : execInsertCollection u now db slug name metadata = .ok (c, ws))
    (hL : ∀ l ∈ (Query.insertCollection slug name metadata).locks u db, l ∈ L) :
    Legal P s L (.addCollection c) db := by
  obtain ⟨-, hid, hslug, rfl⟩ := execInsertCollection_ok h
  exact ⟨hid, hslug, held_of_mem (hL _ (by simp [Query.locks])),
    held_of_mem (hL _ (by simp [Query.locks]))⟩

theorem legal_updateCollection {id : Uuid} {name : String} {metadata : Option Json}
    {c : Collection} (h : execUpdateCollection now db id name metadata = .ok (c, ws))
    (hL : Held L (.collection id) .noKeyUpdate) : Legal P s L (.setCollection c) db := by
  obtain ⟨-, r, hr, rfl⟩ := execUpdateCollection_ok h
  obtain ⟨hmem, rfl⟩ := Database.mem_of_collection? hr
  exact ⟨⟨r, hmem, rfl, rfl⟩, hL⟩

end Leaderboards
