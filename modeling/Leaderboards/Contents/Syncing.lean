import Leaderboards.Contents.Calls

/-!
# A sync on the contents

`Contents.sync` is what `sync_board` does: it computes the result of the sync and the contents of
the board afterwards from the contents before, and the boards under other slugs hold what they
held (`ends_syncBoard_contents`).
-/

namespace Leaderboards

open Interaction Ranking

variable {env : Supply} {w w' : World} {db₀ : Database} {b : Board} {c : Contents}

/-! ### The file lines -/

/-- The list of the entries as a sync reads it, without ids and times. -/
def Lists (listed : List Entry) (existing : List CreateEntry) : Prop :=
  ∀ slug, (listed.find? fun e => e.slug = slug).map Entry.input =
    existing.find? fun e => e.slug = slug

/-- `entries::list` lists the entries of the contents. -/
theorem World.Holds.lists (h : w.Holds env db₀ b c) :
    Lists (orderBy Entry.createdAt (w.server.db.entriesOf b.id)) c.entries := by
  intro slug
  have hperm : (orderBy Entry.createdAt (w.server.db.entriesOf b.id)).Perm
      (orderBy Entry.id (w.server.db.entriesOf b.id)) :=
    (orderBy_perm _ _).trans (orderBy_perm _ _).symm
  have hslugs : ((orderBy Entry.createdAt (w.server.db.entriesOf b.id)).map Entry.slug).Nodup := by
    rw [((orderBy_perm Entry.createdAt _).map Entry.slug).nodup_iff]
    exact h.rested.schema.slugs_nodup b.id
  rw [find?_perm hslugs hperm, ← h.contents, Database.boardContents_entries, List.find?_map]
  rfl

/-- One file line on the contents. -/
theorem ends_syncEntry_holds (h : w.Holds env db₀ b c) {listed : List Entry}
    {existing : List CreateEntry} (hlists : Lists listed existing) (line : EntryToml) :
    (Sync.syncEntry b.id listed line).Ends env (Prog.outcome
      (fun _ w' => ∃ c', Contents.syncEntry existing line c = .ok c' ∧ w'.Holds env db₀ b c')
      fun e w' => Contents.syncEntry existing line c = .error e ∧ w'.Holds env db₀ b c) w := by
  have hfind := hlists line.slug
  unfold Sync.syncEntry
  rcases hrow : listed.find? (fun e => e.slug = line.slug) with _ | e
  · rw [hrow, Option.map_none] at hfind
    have hline : Contents.syncEntry existing line c = c.createEntry
        { slug := line.slug, name := line.name, metadata := Sync.entryMetadata line } := by
      rw [Contents.syncEntry, ← hfind]
    rw [hline, hrow]
    refine Prog.ends_bind ((ends_createEntry_holds h _).mono fun r w₁ hr => ?_)
    cases r <;> exact hr
  · rw [hrow, Option.map_some] at hfind
    have hline : Contents.syncEntry existing line c =
        if e.name ≠ line.name ∨ e.metadata ≠ Sync.entryMetadata line then
          c.updateEntry line.slug (Sync.linePatch e line)
        else .ok c := by
      rw [Contents.syncEntry, ← hfind]
      rfl
    rw [hline, hrow]
    dsimp only
    split
    · refine Prog.ends_bind ((ends_updateEntry_holds h line.slug _).mono fun r w₁ hr => ?_)
      cases r <;> exact hr
    · exact ⟨c, rfl, h⟩

/-- **The loop over the file lines** on the contents. -/
theorem ends_syncLines (h : w.Holds env db₀ b c) {listed : List Entry}
    {existing : List CreateEntry} (hlists : Lists listed existing) (lines : List EntryToml) :
    Action.Ends env
      (fun r w' => ∃ c', Contents.syncLines existing lines c = (r, c') ∧ w'.Holds env db₀ b c')
      (Prog.each lines (Sync.syncEntry b.id listed)) w := by
  induction lines generalizing w c with
  | nil => exact ⟨c, rfl, h⟩
  | cons line lines ih =>
    refine Prog.ends_bind ((ends_syncEntry_holds h hlists line).mono fun r w₁ hr => ?_)
    cases r with
    | error e =>
      refine ⟨c, ?_, hr.2⟩
      rw [Contents.syncLines, hr.1]
    | ok _ =>
      obtain ⟨c', hline, hholds⟩ := hr
      have hrest : Contents.syncLines existing (line :: lines) c =
          Contents.syncLines existing lines c' := by
        rw [Contents.syncLines, hline]
      rw [hrest]
      exact ih hholds

/-! ### The version -/

/-- The version creation of a sync on the contents. -/
theorem ends_syncVersion_holds (h : w.Holds env db₀ b c) (parsed : ParsedBoard)
    (note : Option String) :
    (Sync.createVersion parsed b note (parsed.entries.map Sync.placementOf)).Ends env
      (fun r w' => ∃ c', c.syncVersion parsed note = (r, c') ∧ w'.Holds env db₀ b c') w := by
  have hname : c.board.name = b.name := congrArg CreateBoard.name h.board
  unfold Sync.createVersion
  refine Prog.ends_bind ((ends_createVersion_holds h _).mono fun r w₁ hr => ?_)
  cases r with
  | error e =>
    refine ⟨c, ?_, hr.2⟩
    rw [Contents.syncVersion, hr.1]
  | ok x =>
    obtain ⟨c', hcreate, hholds⟩ := hr
    refine ⟨c', ?_, hholds⟩
    rw [Contents.syncVersion, hcreate, hname]
    rfl

/-- The part of a sync after the file lines on the contents. -/
theorem ends_versionStep_holds (h : w.Holds env db₀ b c) (parsed : ParsedBoard)
    (note : Option String) (changed : Bool) :
    (Sync.versionStep parsed note b changed).Ends env
      (fun r w' => ∃ c', c.versionStep parsed note changed = (r, c') ∧ w'.Holds env db₀ b c')
      w := by
  have hname : c.board.name = b.name := congrArg CreateBoard.name h.board
  unfold Sync.versionStep
  cases changed with
  | true => exact ends_syncVersion_holds h parsed note
  | false =>
    refine Prog.ends_bind ((ends_needsVersion_holds h _).mono fun r w₁ hr => ?_)
    cases r with
    | error e =>
      refine ⟨c, ?_, hr.2⟩
      rw [Contents.versionStep, if_neg Bool.false_ne_true, hr.1]
    | ok needed =>
      obtain ⟨hneeded, hholds⟩ := hr
      cases needed with
      | true =>
        have hstep : c.versionStep parsed note false = c.syncVersion parsed note := by
          rw [Contents.versionStep, if_neg Bool.false_ne_true, hneeded]
        rw [hstep]
        exact ends_syncVersion_holds hholds parsed note
      | false =>
        refine ⟨c, ?_, hholds⟩
        rw [Contents.versionStep, if_neg Bool.false_ne_true, hneeded, hname]
        rfl

/-- **The part of a sync after the board row** on the contents. -/
theorem ends_afterRow_holds (h : w.Holds env db₀ b c) (parsed : ParsedBoard)
    (note : Option String) (changed : Bool) :
    (Sync.afterRow parsed note (b, changed)).Ends env
      (fun r w' => ∃ c', c.afterRow parsed note changed = (r, c') ∧ w'.Holds env db₀ b c') w := by
  have hname : c.board.name = b.name := congrArg CreateBoard.name h.board
  unfold Sync.afterRow
  split
  · rename_i hempty
    refine ⟨c, ?_, h⟩
    rw [Contents.afterRow, if_pos hempty, hname]
    rfl
  · rename_i hlines
    refine ends_readSave h.rested.session rfl (fun e w₁ he => by cases he) fun row w₁ hexec h₁ => ?_
    obtain rfl := (Prod.mk.inj (Except.ok.inj hexec)).1
    refine Prog.ends_bind ((ends_syncLines (h.nothing h₁) h.lists parsed.entries).mono
      fun r w₂ hr => ?_)
    obtain ⟨c', hrun, hholds⟩ := hr
    cases r with
    | error e =>
      refine ⟨c', ?_, hholds⟩
      rw [Contents.afterRow, if_neg hlines, hrun]
    | ok _ =>
      have hrest : c.afterRow parsed note changed = c'.versionStep parsed note changed := by
        rw [Contents.afterRow, if_neg hlines, hrun]
      rw [hrest]
      exact ends_versionStep_holds hholds parsed note changed

/-! ### The board row -/

/-- The rows under other slugs than that of the file hold what they held, and `c?` is what the
board of the file holds. -/
structure World.Synced (env : Supply) (slug : String) (db₀ : Database) (c? : Option Contents)
    (w : World) : Prop where
  rested : w.Rested env
  contents : w.server.db.boardContents? slug = c?
  others : ∀ other, other ≠ slug → w.server.db.boardContents? other = db₀.boardContents? other

/-- What holds of a board and of the other rows, for the slugs. -/
theorem World.Holds.synced (h : w.Holds env db₀ b c) (hdb₀ : db₀.Schema)
    (hslug : ∀ r ∈ db₀.boards, r.id = b.id → r.slug = b.slug) :
    w.Synced env b.slug db₀ (some c) where
  rested := h.rested
  contents := by
    rw [Database.boardContents?, h.rested.schema.boardBySlug?_eq h.mem, Option.map_some, h.contents]
  others other hother := by
    have hslug' : ∀ r ∈ w.server.db.boards, r.id = b.id → r.slug = b.slug := by
      intro r hr hid
      rw [h.rested.schema.board_inj hr h.mem hid]
    exact h.elsewhere.boardContents?_eq hdb₀ h.rested.schema hslug hslug' hother

/-- A call that saves nothing. -/
theorem World.Rested.synced (h : w.Rested env) (hsaves : w.Saves w' []) (slug : String) :
    w'.Synced env slug w.server.db (w.server.db.boardContents? slug) := by
  have hdb : w'.server.db = w.server.db := hsaves.db
  exact ⟨h.nothing hsaves, by rw [hdb], fun other _ => by rw [hdb]⟩

/-- A call that saves a new board. -/
theorem World.Rested.addBoard (h : w.Rested env) {n : ℕ} (hid : b.id = env.uuid n)
    (hn : w.tick ≤ n) (hn' : n < w'.tick) (hslug : w.server.db.boardBySlug? b.slug = none)
    (hchecks : b.checks) (hsaves : w.Saves w' [.addBoard b]) :
    w'.Holds env w.server.db b { board := b.input } := by
  have hnew : ∀ r ∈ w.server.db.boards, r.id ≠ b.id := fun r hr =>
    hid ▸ (h.lt_uuid hn (h.below.boards r hr)).ne
  have hdb : w'.server.db = w.server.db.addBoard b := hsaves.db
  have hschema : (w.server.db.addBoard b).Schema :=
    h.schema.addBoard hnew (Database.boardBySlug?_eq_none.mp hslug) hchecks
  have hbelow := h.below.mono (h.ascending.monotone hsaves.tick)
  refine ⟨⟨hsaves.session, hdb ▸ hschema, h.ascending, ?_⟩, ?_, ?_, hdb ▸ elsewhere_addBoard⟩
  · rw [hdb]
    refine ⟨fun r hr => ?_, hbelow.entries, hbelow.versions, hbelow.placements⟩
    rcases List.mem_append.mp hr with hr | hr
    · exact hbelow.boards r hr
    · obtain rfl := List.mem_singleton.mp hr
      exact hid ▸ h.ascending hn'
  · rw [hdb]
    exact List.mem_append_right _ List.mem_cons_self
  · rw [hdb]
    exact contents_addBoard h.schema hnew

/-- A call that saves other values in a board. -/
theorem World.Rested.setBoard (h : w.Rested env) {input : UpdateBoard} {now : Timestamp}
    (hb : b ∈ w.server.db.boards) (hchecks : (input.patch now b).checks)
    (hsaves : w.Saves w' [.setBoard (input.patch now b)]) :
    w'.Holds env w.server.db (input.patch now b)
      { w.server.db.boardContents b with board := b.input.patched input } := by
  have hdb : w'.server.db = w.server.db.setBoard (input.patch now b) := hsaves.db
  have hschema : (w.server.db.setBoard (input.patch now b)).Schema :=
    h.schema.setBoard ⟨b, hb, rfl, rfl, rfl, rfl⟩ hchecks
  have hbelow := h.below.mono (h.ascending.monotone hsaves.tick)
  refine ⟨⟨hsaves.session, hdb ▸ hschema, h.ascending, ?_⟩, ?_, ?_, hdb ▸ elsewhere_setBoard⟩
  · rw [hdb]
    refine ⟨fun r hr => ?_, hbelow.entries, hbelow.versions, hbelow.placements⟩
    rcases Database.mem_setBoard_boards.mp hr with ⟨hr, -⟩ | ⟨rfl, -⟩
    · exact hbelow.boards r hr
    · exact hbelow.boards b hb
  · rw [hdb]
    exact Database.mem_setBoard_boards.mpr (.inr ⟨rfl, b, hb, rfl⟩)
  · rw [hdb]
    exact contents_setBoard rfl rfl

/-- **`sync_board`** on the contents. -/
theorem ends_syncBoard_contents (h : w.Rested env) (parsed : ParsedBoard) (note : Option String) :
    (Sync.syncBoard parsed note).Ends env (fun r w' => ∃ c?,
      Contents.sync parsed note (w.server.db.boardContents? parsed.slug) = (r, c?) ∧
        w'.Synced env parsed.slug w.server.db c?) w := by
  have hnothing : ∀ w', w.Saves w' [] → w'.Synced env parsed.slug w.server.db
      (w.server.db.boardContents? parsed.slug) := fun w' h' => h.synced h' parsed.slug
  rcases haccumulative : parsed.board.accumulative with _ | _
  swap
  · have hsync : Sync.syncBoard parsed note = .ret ⟨parsed.slug, parsed.board.name,
        .skipped Sync.skipReason⟩ := if_pos haccumulative
    rw [hsync]
    exact ⟨_, Contents.sync_skipped haccumulative note _, hnothing w ⟨h.session, rfl, le_rfl⟩⟩
  rw [Sync.syncBoard_eq note haccumulative]
  have hnone : w.server.db.boardBySlug? parsed.slug = none →
      Contents.sync parsed note (w.server.db.boardContents? parsed.slug) =
        Contents.syncNew parsed note := by
    intro hb
    rw [Database.boardContents?, hb]
    exact Contents.sync_none haccumulative note
  have hsome : ∀ {b r}, w.server.db.boardBySlug? parsed.slug = some b →
      (w.server.db.boardContents b).syncKnown parsed note = r →
      Contents.sync parsed note (w.server.db.boardContents? parsed.slug) = (r.1, some r.2) := by
    rintro b r hb rfl
    rw [Database.boardContents?, hb]
    exact Contents.sync_some haccumulative note _
  -- What the rest of the sync does once the row is there.
  have hrest : ∀ {b c changed w₁}, w₁.Holds env w.server.db b c → b.slug = parsed.slug →
      (∀ r ∈ w.server.db.boards, r.id = b.id → r.slug = b.slug) →
      Contents.sync parsed note (w.server.db.boardContents? parsed.slug) =
        ((c.afterRow parsed note changed).1, some (c.afterRow parsed note changed).2) →
      (Sync.afterRow parsed note (b, changed)).Ends env (fun r w' => ∃ c?,
        Contents.sync parsed note (w.server.db.boardContents? parsed.slug) = (r, c?) ∧
          w'.Synced env parsed.slug w.server.db c?) w₁ := by
    intro b c changed w₁ hholds hslug hunique hsync
    refine (ends_afterRow_holds hholds parsed note changed).mono fun r w₂ hr => ?_
    obtain ⟨c', hafter, hholds'⟩ := hr
    rw [hafter] at hsync
    exact ⟨some c', hsync, hslug ▸ hholds'.synced h.schema hunique⟩
  refine Prog.ends_bind (ends_syncBoardRow h.session h.schema ?_ ?_ ?_ ?_ ?_ ?_)
  · exact fun n hn b hb => (h.lt_uuid hn (h.below.boards b hb)).ne
  · intro e hb he w₁ h₁
    have hnew : w.server.db.boardContents? parsed.slug = none := by
      rw [Database.boardContents?, hb, Option.map_none]
    refine ⟨_, ?_, hnothing w₁ h₁⟩
    rw [hnone hb, Contents.syncNew, he, hnew]
  · intro b n w₁ hb hvalid hn hn' hrow h₁
    subst hrow
    refine hrest (h.addBoard rfl hn hn' hb (Boards.checks_of_validateCreate hvalid) h₁) rfl ?_ ?_
    · intro r hr hid
      exact absurd hid (h.lt_uuid hn (h.below.boards r hr)).ne
    · rw [hnone hb, Contents.syncNew, hvalid]
      rfl
  · intro e b hb hdiffers he w₁ h₁
    have hfound : w.server.db.boardContents? parsed.slug = some (w.server.db.boardContents b) := by
      rw [Database.boardContents?, hb, Option.map_some]
    have hdiffers' : Sync.rowDiffers (w.server.db.boardContents b).row parsed := hdiffers
    have hrefused : (w.server.db.boardContents b).validatePatch
        (Sync.boardPatch (w.server.db.boardContents b).row parsed) = .error e := by
      change (Boards.validateUpdateFields (Sync.boardPatch b parsed) >>= fun _ =>
        Boards.validateUpdate b (Sync.boardPatch b parsed)) = _
      rcases he with he | ⟨hfields, he⟩
      · rw [he]
        rfl
      · rw [hfields]
        exact he
    have hknown : (w.server.db.boardContents b).syncKnown parsed note =
        (.error e, w.server.db.boardContents b) := by
      rw [Contents.syncKnown, if_pos hdiffers', hrefused]
    exact ⟨_, hsome hb hknown, hfound ▸ hnothing w₁ h₁⟩
  · intro b now hb hdiffers hfields hvalid w₁ h₁
    obtain ⟨hmem, hslug⟩ := Database.mem_of_boardBySlug? hb
    have hdiffers' : Sync.rowDiffers (w.server.db.boardContents b).row parsed := hdiffers
    have hpassed : (w.server.db.boardContents b).validatePatch
        (Sync.boardPatch (w.server.db.boardContents b).row parsed) = .ok () := by
      change (Boards.validateUpdateFields (Sync.boardPatch b parsed) >>= fun _ =>
        Boards.validateUpdate b (Sync.boardPatch b parsed)) = _
      rw [hfields]
      exact hvalid
    refine hrest (h.setBoard hmem (Boards.checks_of_validateUpdate (h.schema.board_checks b hmem)
      hfields hvalid) h₁) hslug ?_ ?_
    · intro r hr hid
      rw [h.schema.board_inj hr hmem hid]
      rfl
    · refine hsome hb ?_
      rw [Contents.syncKnown, if_pos hdiffers', hpassed]
      rfl
  · intro b hb hagrees w₁ h₁
    obtain ⟨hmem, hslug⟩ := Database.mem_of_boardBySlug? hb
    have hholds : w.Holds env w.server.db b (w.server.db.boardContents b) :=
      ⟨h, hmem, rfl, .refl b.id w.server.db⟩
    refine hrest (hholds.nothing h₁) hslug ?_ ?_
    · intro r hr hid
      rw [h.schema.board_inj hr hmem hid]
    · exact hsome hb (if_neg hagrees)

/-! ### The loop over the boards -/

/-- The result that `sync_dir` records for a board. -/
def Sync.recorded (parsed : ParsedBoard) : Except Error BoardSyncResult → BoardSyncResult
  | .ok result => result
  | .error e => { slug := parsed.slug, name := parsed.slug, action := .failed e.display }

/-- **`sync_dir`** on the contents: the result for each board and what the board holds afterwards
are those of `Contents.sync` before the loop. -/
theorem ends_syncDir_contents (h : w.Rested env) {parsed : List ParsedBoard}
    (hslugs : (parsed.map ParsedBoard.slug).Nodup) (note : Option String) :
    (Sync.syncDir parsed note).Ends env (fun r w' => w'.Rested env ∧
      r = .ok (parsed.map fun p => Sync.recorded p
        (Contents.sync p note (w.server.db.boardContents? p.slug)).1) ∧
      (∀ p ∈ parsed, w'.server.db.boardContents? p.slug =
        (Contents.sync p note (w.server.db.boardContents? p.slug)).2) ∧
      ∀ slug, slug ∉ parsed.map ParsedBoard.slug →
        w'.server.db.boardContents? slug = w.server.db.boardContents? slug) w := by
  induction parsed generalizing w with
  | nil => exact ⟨h, rfl, fun p hp => absurd hp List.not_mem_nil, fun _ _ => rfl⟩
  | cons p ps ih =>
    obtain ⟨hp, hps⟩ := List.nodup_cons.mp hslugs
    have hstep : Action.Ends env (fun r w' => ∃ c?,
        Contents.sync p note (w.server.db.boardContents? p.slug) = (r, c?) ∧
          w'.Synced env p.slug w.server.db c?) (Sync.syncBoard p note) w :=
      ends_syncBoard_contents h p note
    have hloop : ∀ r c? w₁, Contents.sync p note (w.server.db.boardContents? p.slug) = (r, c?) →
        w₁.Synced env p.slug w.server.db c? →
        (Sync.syncDir ps note >>= fun rs => pure (Sync.recorded p r :: rs)).Ends env
          (fun r w' => w'.Rested env ∧
            r = .ok ((p :: ps).map fun p => Sync.recorded p
              (Contents.sync p note (w.server.db.boardContents? p.slug)).1) ∧
            (∀ q ∈ p :: ps, w'.server.db.boardContents? q.slug =
              (Contents.sync q note (w.server.db.boardContents? q.slug)).2) ∧
            ∀ slug, slug ∉ (p :: ps).map ParsedBoard.slug →
              w'.server.db.boardContents? slug = w.server.db.boardContents? slug) w₁ := by
      intro r c? w₁ hsync h₁
      refine Prog.ends_bind ((ih h₁.rested hps).mono fun rs w₂ h₂ => ?_)
      obtain ⟨hrested, rfl, hdone, hleft⟩ := h₂
      -- The rest of the loop finds the boards of the other files as they were.
      have hsame : ∀ q ∈ ps, w₁.server.db.boardContents? q.slug =
          w.server.db.boardContents? q.slug := by
        intro q hq
        refine h₁.others q.slug fun heq => hp ?_
        exact heq ▸ List.mem_map_of_mem hq
      refine ⟨hrested, ?_, ?_, ?_⟩
      · rw [List.map_cons, hsync]
        refine congrArg (fun rs => Except.ok (Sync.recorded p r :: rs)) ?_
        exact List.map_congr_left fun q hq => by rw [hsame q hq]
      · intro q hq
        rcases List.mem_cons.mp hq with rfl | hq
        · have hfirst : c? = (Contents.sync q note (w.server.db.boardContents? q.slug)).2 := by
            rw [hsync]
          exact (hleft q.slug hp).trans (h₁.contents.trans hfirst)
        · have hlater := hdone q hq
          rwa [hsame q hq] at hlater
      · intro slug hslug
        rw [List.map_cons, List.mem_cons, not_or] at hslug
        exact (hleft slug hslug.2).trans (h₁.others slug hslug.1)
    refine Prog.ends_bind (Prog.ends_bind (Prog.ends_attempt (hstep.mono fun r w₁ h₁ => ?_)))
    obtain ⟨c?, hsync, hsynced⟩ := h₁
    cases r with
    | ok result => exact hloop _ c? w₁ hsync hsynced
    | error e => exact hloop _ c? w₁ hsync hsynced

end Leaderboards
