import Leaderboards.Transactions.Creating
import Leaderboards.Transactions.Schema

/-!
# The parts of a board sync that runs alone

`sync_board` brings the row to the file (`Sync.syncBoardRow`), then each file line to its entry
(`Sync.syncEntry`), and at last makes a version when one is needed. The last part commits
nothing when it fails or when the board is accumulative (`ends_versionStep`).
-/

namespace Leaderboards

open Interaction

variable {env : Supply} {w : World}

namespace Sync

/-- The part of `sync_board` after the file lines. -/
def versionStep (parsed : ParsedBoard) (note : Option String) (board : Board)
    (rankingConfigChanged : Bool) : Action BoardSyncResult := do
  let placements := parsed.entries.map placementOf
  let needed ← if rankingConfigChanged then pure true else needsVersion board placements
  if needed then createVersion parsed board note placements
  else return { slug := parsed.slug, name := board.name, action := .noChange }

/-- The part of `sync_board` after the board row. -/
def afterRow (parsed : ParsedBoard) (note : Option String) (row : Board × Bool) :
    Action BoardSyncResult :=
  if parsed.entries = [] then
    return { slug := parsed.slug, name := row.1.name, action := .noChange }
  else do
    let existingEntries ← Entries.list row.1.id
    Prog.each parsed.entries (syncEntry row.1.id existingEntries)
    versionStep parsed note row.1 row.2

/-- The PATCH that a file line asks for. -/
def linePatch (existing : Entry) (line : EntryToml) : UpdateEntry where
  name := patchText existing.name line.name
  metadata := patchField existing.metadata (entryMetadata line)

/-- What a field of a PATCH that turns `old` into `new` does to a column. -/
theorem patchField_apply (old new current : Option Json) :
    (patchField old new).apply current = if old ≠ new then new else current := by
  unfold patchField
  split
  · cases new <;> rfl
  · rfl

theorem patchText_getD (old new current : String) :
    (patchText old new).getD current = if old ≠ new then new else current := by
  unfold patchText
  split <;> rfl

theorem syncBoard_eq {parsed : ParsedBoard} (note : Option String)
    (h : parsed.board.accumulative = false) :
    syncBoard parsed note = syncBoardRow parsed >>= afterRow parsed note := by
  unfold syncBoard
  rw [h]
  rfl

end Sync

/-! ### The board row -/

/-- **The board row of a sync**: it is created, patched, or left alone. -/
theorem ends_syncBoardRow {parsed : ParsedBoard} {post : Except Error (Board × Bool) → World → Prop}
    (hs : w.session = none) (hschema : w.server.db.Schema)
    (hfresh : ∀ n, w.tick ≤ n → ∀ b ∈ w.server.db.boards, b.id ≠ env.uuid n)
    (hrefusedNew : ∀ e, w.server.db.boardBySlug? parsed.slug = none →
      Boards.validateCreate (Sync.boardOf parsed) = .error e →
      ∀ w', w.Saves w' [] → post (.error e) w')
    (hcreated : ∀ b n w', w.server.db.boardBySlug? parsed.slug = none →
      Boards.validateCreate (Sync.boardOf parsed) = .ok () → w.tick ≤ n → n < w'.tick →
      b = (Sync.boardOf parsed).row (env.uuid n) (env.now n) → w.Saves w' [.addBoard b] →
      post (.ok (b, false)) w')
    (hrefused : ∀ e b, w.server.db.boardBySlug? parsed.slug = some b → Sync.rowDiffers b parsed →
      (Boards.validateUpdateFields (Sync.boardPatch b parsed) = .error e ∨
        Boards.validateUpdateFields (Sync.boardPatch b parsed) = .ok () ∧
          Boards.validateUpdate b (Sync.boardPatch b parsed) = .error e) →
      ∀ w', w.Saves w' [] → post (.error e) w')
    (hupdated : ∀ b now, w.server.db.boardBySlug? parsed.slug = some b →
      Sync.rowDiffers b parsed →
      Boards.validateUpdateFields (Sync.boardPatch b parsed) = .ok () →
      Boards.validateUpdate b (Sync.boardPatch b parsed) = .ok () →
      ∀ w', w.Saves w' [.setBoard ((Sync.boardPatch b parsed).patch now b)] →
        post (.ok ((Sync.boardPatch b parsed).patch now b, Sync.rankingConfigChanged b parsed)) w')
    (hsame : ∀ b, w.server.db.boardBySlug? parsed.slug = some b → ¬Sync.rowDiffers b parsed →
      ∀ w', w.Saves w' [] → post (.ok (b, Sync.rankingConfigChanged b parsed)) w') :
    (Sync.syncBoardRow parsed).Ends env post w := by
  refine Prog.ends_bind (Prog.ends_attempt (ends_getBySlug hs ?_ ?_))
  · intro hnone w₁ h₁
    have hdb₁ : w₁.server.db = w.server.db := h₁.db
    -- Nobody has the slug: the board is created.
    have hcreate : (Boards.create (Sync.boardOf parsed) >>= fun board => pure (board, false) :
        Action (Board × Bool)).Ends env post w₁ := by
      refine Prog.ends_bind (ends_createBoard h₁.session ?_ ?_ ?_ ?_)
      · rw [hdb₁]
        exact hfresh w₁.tick h₁.tick
      · rw [hdb₁]
        exact hnone
      · exact fun e he => hrefusedNew e hnone he w₁ h₁
      · exact fun b hvalid hb w₂ h₂ htick =>
          hcreated b w₁.tick w₂ hnone hvalid h₁.tick (by omega) hb (h₁.trans h₂)
    exact hcreate
  · intro b hb w₁ h₁
    have hdb₁ : w₁.server.db = w.server.db := h₁.db
    have hmem : b ∈ w.server.db.boards := (Database.mem_of_boardBySlug? hb).1
    -- The board is there: it is patched only if the file says something else.
    have hupdate : (if Sync.rowDiffers b parsed then do
          let board ← Boards.update parsed.slug (Sync.boardPatch b parsed)
          return (board, Sync.rankingConfigChanged b parsed)
        else return (b, Sync.rankingConfigChanged b parsed) :
        Action (Board × Bool)).Ends env post w₁ := by
      split
      · rename_i hdiffers
        refine Prog.ends_bind (ends_updateBoard h₁.session (hdb₁ ▸ hb)
          (hdb₁ ▸ hschema.board?_eq hmem) (hschema.board_checks b hmem) ?_ ?_)
        · exact fun e he w₂ h₂ => hrefused e b hb hdiffers he w₂ (h₁.trans h₂)
        · exact fun now hfields hvalid w₂ h₂ =>
            hupdated b now hb hdiffers hfields hvalid w₂ (h₁.trans h₂)
      · rename_i hagrees
        exact hsame b hb hagrees w₁ h₁
    exact hupdate

/-! ### The version -/

/-- The version of a board with the largest number. -/
def Database.latestVersion? (db : Database) (boardId : Uuid) : Option Version :=
  (Ranking.orderBy (fun v => -v.versionNumber) (db.versionsOf boardId)).head?

theorem readOnly_getLatest (boardId : Uuid) : (Versions.getLatest boardId).Uses Cmd.ReadOnly :=
  Prog.uses_bind (uses_sql ⟨_, rfl, rfl⟩) fun _ => uses_row fun _ =>
    Prog.uses_bind (uses_sql ⟨_, rfl, rfl⟩) fun _ => trivial

/-- `versions::get_latest`. -/
theorem ends_getLatest {boardId : Uuid} {post : Except Error VersionWithPlacements → World → Prop}
    (hs : w.session = none)
    (hmissing : w.server.db.latestVersion? boardId = none → ∀ w', w.Saves w' [] →
      post (.error (.notFound "no versions exist for this board")) w')
    (hfound : ∀ v, w.server.db.latestVersion? boardId = some v → ∀ w', w.Saves w' [] →
      post (((fetchPlacements w.server.db v.id).mapError Error.database).map fun ps => ⟨v, ps⟩)
        w') :
    (Versions.getLatest boardId).Ends env post w := by
  unfold Versions.getLatest
  refine ends_readSave hs rfl (fun e w' he => by cases he) fun row w₁ hexec h₁ => ?_
  obtain rfl : w.server.db.latestVersion? boardId = row :=
    (Prod.mk.inj (Except.ok.inj hexec)).1
  rcases hrow : w.server.db.latestVersion? boardId with _ | v
  · exact hmissing hrow w₁ h₁
  · have hdb₁ : w₁.server.db = w.server.db := h₁.db
    change (Action.sql (.selectPlacements v.id) >>= fun ps => pure ⟨v, ps⟩ :
      Action VersionWithPlacements).Ends env _ w₁
    refine ends_readSave h₁.session rfl (fun e w₂ he h₂ => ?_) fun ps w₂ hexec₂ h₂ => ?_
    -- The placements are read from the tables in which the version was found.
    · have hpost := hfound v hrow w₂ (h₁.trans h₂)
      simp only [exec, hdb₁] at he
      rcases hfetch : fetchPlacements w.server.db v.id with e' | ps
      · rw [hfetch] at he hpost
        cases he
        exact hpost
      · rw [hfetch] at he
        cases he
    · have hpost := hfound v hrow w₂ (h₁.trans h₂)
      simp only [exec, hdb₁] at hexec₂
      rcases hfetch : fetchPlacements w.server.db v.id with e | ps'
      · rw [hfetch] at hexec₂
        cases hexec₂
      · rw [hfetch] at hexec₂ hpost
        cases hexec₂
        exact hpost

theorem readOnly_needsVersion (board : Board) (placements : List CreatePlacement) :
    (Sync.needsVersion board placements).Uses Cmd.ReadOnly := by
  refine Prog.uses_bind (Prog.uses_attempt (readOnly_getLatest _)) fun r => ?_
  split <;> trivial

/-- A version creation that fails commits nothing. -/
theorem ends_createVersion_error {board : Board} {input : CreateVersion} {max : Option ℤ}
    (hs : w.session = none) :
    (Versions.create board input max).Ends env
      (fun r w' => ∀ e, r = .error e → w.Saves w' []) w := by
  have hnothing : w.Saves w [] := ⟨hs, rfl, le_rfl⟩
  unfold Versions.create
  refine Prog.ends_failIf (fun _ _ _ => hnothing) fun _ => ?_
  refine Prog.ends_ofExcept (fun _ _ _ _ => hnothing) fun _ _ => ?_
  refine ends_transaction fun w₀ h₀ => ?_
  refine (ends_pending (isSql_createBody ..) h₀.session).mono fun r w₁ h₁ => ?_
  obtain ⟨hsession, hserver, htick⟩ := h₁
  cases r with
  | ok a => exact ⟨hsession, fun w₂ h₂ e he => nomatch he⟩
  | error e =>
    intro w₂ h₂ e' _
    refine ⟨h₂.session, ?_, ?_⟩
    · rw [h₂.db, hserver, h₀.db]
      rfl
    · have htick₀ := h₀.tick
      have htick₂ := h₂.tick
      omega

/-- No version of an accumulative board is created. -/
theorem createVersion_accumulative {board : Board} (h : board.accumulative = true)
    (input : CreateVersion) (max : Option ℤ) :
    Versions.create board input max = Prog.fail (.validation
      "cannot create versions directly on accumulative boards; use POST /boards/:slug/snapshot instead") := by
  unfold Versions.create Prog.failIf
  rw [if_pos h]
  rfl

/-- The part after the file lines commits nothing when it fails or when the board is
accumulative. -/
theorem ends_versionStep {parsed : ParsedBoard} {note : Option String} {board : Board}
    {rankingConfigChanged : Bool} (hs : w.session = none) :
    (Sync.versionStep parsed note board rankingConfigChanged).Ends env
      (fun r w' => (∃ e, r = .error e) ∨ board.accumulative = true → w.Saves w' []) w := by
  have hcreate : ∀ w₁, w.Saves w₁ [] → ∀ needed : Bool, (if needed = true then
      Sync.createVersion parsed board note (parsed.entries.map Sync.placementOf)
      else pure ⟨parsed.slug, board.name, .noChange⟩ : Action BoardSyncResult).Ends env
        (fun r w' => (∃ e, r = .error e) ∨ board.accumulative = true → w.Saves w' []) w₁ := by
    intro w₁ h₁ needed
    split
    · unfold Sync.createVersion
      rcases haccumulative : board.accumulative with _ | _
      · refine Prog.ends_bind ((ends_createVersion_error h₁.session).mono fun r w₂ h₂ => ?_)
        cases r with
        | ok v => rintro (⟨e, he⟩ | habsurd) <;> contradiction
        | error e => exact fun _ => h₁.trans (h₂ e rfl)
      · rw [createVersion_accumulative haccumulative]
        exact fun _ => h₁
    · exact fun _ => h₁
  unfold Sync.versionStep
  split
  · exact hcreate w ⟨hs, rfl, le_rfl⟩ true
  · refine Prog.ends_bind ((ends_readOnly (readOnly_needsVersion _ _) hs).mono fun r w₁ h₁ => ?_)
    cases r with
    | ok needed => exact hcreate w₁ h₁ needed
    | error e => exact fun _ => h₁

/-! ### The entries -/

/-- The slugs of the entries of a board are pairwise different. -/
theorem Database.Schema.slugs_nodup {db : Database} (h : db.Schema) (boardId : Uuid) :
    ((db.entriesOf boardId).map Entry.slug).Nodup := by
  refine (List.nodup_map_iff_inj_on ?_).mpr fun e he e' he' hslug => ?_
  · exact (List.Nodup.of_map _ h.entry_id).sublist List.filter_sublist
  · obtain ⟨hmem, hboard⟩ := Database.mem_entriesOf.mp he
    obtain ⟨hmem', hboard'⟩ := Database.mem_entriesOf.mp he'
    exact h.entry_key_inj hmem hmem' (hboard.trans hboard'.symm) hslug

/-- The row that the list of the entries has for a slug. -/
theorem Database.Schema.find_listed {db : Database} (h : db.Schema) (boardId : Uuid)
    (slug : String) : (Ranking.orderBy Entry.createdAt (db.entriesOf boardId)).find?
      (fun e => e.slug = slug) = db.entryBySlug? boardId slug := by
  rw [← Ranking.find?_perm (h.slugs_nodup boardId)
    (Ranking.orderBy_perm Entry.createdAt _).symm, Database.entriesOf, List.find?_filter,
    Database.entryBySlug?]
  congr 1
  funext e
  simp

section Line

variable {db : Database} {b : Board} {line : EntryToml}

/-- The file line asks for a new entry or for another entry row. -/
def Sync.lineDiffers (db : Database) (b : Board) (line : EntryToml) : Bool :=
  match db.entryBySlug? b.id line.slug with
  | none => true
  | some e => e.name ≠ line.name ∨ e.metadata ≠ Sync.entryMetadata line

/-- A file line that agrees with the row of its entry does nothing. -/
theorem syncEntry_same (hschema : db.Schema) (h : Sync.lineDiffers db b line = false) :
    Sync.syncEntry b.id (Ranking.orderBy Entry.createdAt (db.entriesOf b.id)) line = .ret () := by
  unfold Sync.syncEntry
  rw [hschema.find_listed]
  unfold Sync.lineDiffers at h
  rcases hrow : db.entryBySlug? b.id line.slug with _ | e
  · simp [hrow] at h
  · simp only [hrow, decide_eq_false_iff_not] at h
    exact if_neg h

end Line

/-! ### The rows of a board -/

/-- The rows of the board of a slug are the same in both databases. -/
structure Untouched (slug : String) (db db' : Database) : Prop where
  board : db'.boardBySlug? slug = db.boardBySlug? slug
  entries : ∀ b, db.boardBySlug? slug = some b → db'.entriesOf b.id = db.entriesOf b.id
  versions : ∀ b, db.boardBySlug? slug = some b → db'.versionsOf b.id = db.versionsOf b.id
  placements : ∀ b, db.boardBySlug? slug = some b → ∀ v ∈ db.versionsOf b.id,
    db'.placementsOf v.id = db.placementsOf v.id

theorem Untouched.refl (slug : String) (db : Database) : Untouched slug db db :=
  ⟨rfl, fun _ _ => rfl, fun _ _ => rfl, fun _ _ _ _ => rfl⟩

end Leaderboards
