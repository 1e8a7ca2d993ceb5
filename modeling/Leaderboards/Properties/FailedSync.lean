import Leaderboards.Transactions.Syncing

/-!
# Failed syncs

`sync_board` commits the board row, every entry and the version separately, and what is committed
stays when a later part fails. So a failed sync leaves the rows of its board alone exactly when
what fails is the first thing that it would change (`failed_sync_changes_nothing`).
-/

namespace Leaderboards

open Interaction

variable {env : Supply} {w : World} {db db' : Database} {slug : String}

namespace Sync

/-- What the file line asks for does not pass the validation. -/
def LineRefused (db : Database) (b : Board) (line : EntryToml) : Prop :=
  match db.entryBySlug? b.id line.slug with
  | none => validateSlug line.slug ≠ .ok () ∨ validateName line.name ≠ .ok ()
  | some e => e.name ≠ line.name ∧ validateName line.name ≠ .ok ()

/-- **The first change that the file asks for does not pass its validation**, or the file asks for
none of the board row and of the entries. -/
def FirstChangeRefused (db : Database) (parsed : ParsedBoard) : Prop :=
  match db.boardBySlug? parsed.slug with
  | none => Boards.validateCreate (boardOf parsed) ≠ .ok ()
  | some b =>
    if rowDiffers b parsed then
      Boards.validateUpdateFields (boardPatch b parsed) ≠ .ok () ∨
        Boards.validateUpdate b (boardPatch b parsed) ≠ .ok ()
    else
      ∀ line, parsed.entries.find? (lineDiffers db b) = some line → LineRefused db b line

end Sync

/-! ### What stays changed -/

/-- An entry of the board is new or differs from the one under its slug. -/
def EntryMoved (boardId : Uuid) (db db' : Database) : Prop :=
  ∃ e' ∈ db'.entriesOf boardId, ∀ e ∈ db.entriesOf boardId, e.slug = e'.slug →
    e.name ≠ e'.name ∨ e.metadata ≠ e'.metadata

/-- A change to an entry shows. -/
theorem EntryMoved.not_untouched {b : Board} (h : EntryMoved b.id db db')
    (hb : db.boardBySlug? slug = some b) : ¬Untouched slug db db' := by
  intro hsame
  obtain ⟨e', he', hmoved⟩ := h
  rw [hsame.entries b hb] at he'
  rcases hmoved e' he' rfl with hne | hne <;> exact hne rfl

/-- What a sync has of the tables when it goes from one file line to the next. -/
structure Lines (w w' : World) : Prop where
  session : w'.session = none
  boards : w'.server.db.boards = w.server.db.boards
  ids : (w'.server.db.entries.map Entry.id).Nodup

theorem Lines.refl (hs : w.session = none) (hids : (w.server.db.entries.map Entry.id).Nodup) :
    Lines w w := ⟨hs, rfl, hids⟩

theorem Lines.trans {w₁ w₂ : World} (h : Lines w w₁) (h' : Lines w₁ w₂) : Lines w w₂ :=
  ⟨h'.session, h'.boards.trans h.boards, h'.ids⟩

/-- A call that saves nothing. -/
theorem Lines.of_nothing {w' : World} (hids : (w.server.db.entries.map Entry.id).Nodup)
    (h : w.Saves w' []) : Lines w w' :=
  ⟨h.session, by rw [h.db]; rfl, by rw [h.db]; exact hids⟩

/-- A call that saves a new entry. -/
theorem Lines.of_addEntry {w' : World} {e : Entry}
    (hids : (w.server.db.entries.map Entry.id).Nodup) (hnew : ∀ r ∈ w.server.db.entries,
      r.id ≠ e.id)
    (h : w.Saves w' [.addEntry e]) : Lines w w' := by
  refine ⟨h.session, by rw [h.db]; rfl, ?_⟩
  have hentries : w'.server.db.entries = w.server.db.entries ++ [e] := by rw [h.db]; rfl
  rw [hentries, List.map_append, List.nodup_append]
  refine ⟨hids, by simp, fun x hx y hy => ?_⟩
  obtain ⟨r, hr, rfl⟩ := List.mem_map.mp hx
  obtain rfl : y = e.id := by simpa using hy
  exact hnew r hr

/-- A call that saves other values in an entry. -/
theorem Lines.of_setEntry {w' : World} {e : Entry}
    (hids : (w.server.db.entries.map Entry.id).Nodup) (h : w.Saves w' [.setEntry e]) :
    Lines w w' := by
  refine ⟨h.session, by rw [h.db]; rfl, ?_⟩
  have hentries : w'.server.db.entries.map Entry.id = w.server.db.entries.map Entry.id := by
    rw [h.db]
    change ((w.server.db.entries.map fun r => if r.id = e.id then e else r).map Entry.id) = _
    rw [List.map_map]
    refine List.map_congr_left fun r _ => ?_
    rw [Function.comp_apply]
    split
    · rename_i hid
      exact hid.symm
    · rfl
  rw [hentries]
  exact hids

/-- A patch that differs from the old row in a field sets the field to the new value. -/
theorem linePatch_ne {e r : Entry} {line : EntryToml} {now : Timestamp}
    (h : e.name ≠ r.name ∨ e.metadata ≠ r.metadata) :
    e.name ≠ ((Sync.linePatch e line).patch now r).name ∨
      e.metadata ≠ ((Sync.linePatch e line).patch now r).metadata := by
  simp only [UpdateEntry.patch, Sync.linePatch]
  rw [Sync.patchText_getD, Sync.patchField_apply]
  rcases h with hname | hmetadata
  · left
    split
    · assumption
    · exact hname
  · right
    split
    · assumption
    · exact hmetadata

/-- The row writes of a file line: it inserts an entry, or patches the one under its slug. -/
inductive LineWrites (boardId : Uuid) (existingEntries : List Entry) (line : EntryToml)
    (db : Database) : List RowWrite → Prop
  | nothing : LineWrites boardId existingEntries line db []
  | created (e : Entry) (hid : ∀ r ∈ db.entries, r.id ≠ e.id) :
      LineWrites boardId existingEntries line db [.addEntry e]
  | updated (e r : Entry) (now : Timestamp)
      (he : existingEntries.find? (fun e => e.slug = line.slug) = some e)
      (hr : db.entryBySlug? boardId line.slug = some r) :
      LineWrites boardId existingEntries line db [.setEntry ((Sync.linePatch e line).patch now r)]

/-- **What a file line can save**, whether it fails or not. -/
theorem ends_syncEntry {boardId : Uuid} {existingEntries : List Entry} {line : EntryToml}
    (hs : w.session = none) (hids : (w.server.db.entries.map Entry.id).Nodup) :
    (Sync.syncEntry boardId existingEntries line).Ends env (fun _ w' => ∃ ws, w.Saves w' ws ∧
      LineWrites boardId existingEntries line w.server.db ws) w := by
  have hnothing : ∃ ws, w.Saves w ws ∧ LineWrites boardId existingEntries line w.server.db ws :=
    ⟨[], ⟨hs, rfl, le_rfl⟩, .nothing⟩
  unfold Sync.syncEntry
  split
  · refine Prog.ends_bind (ends_createEntry hs ?_ ?_ ?_)
    · exact fun _ _ => hnothing
    · exact fun _ _ _ _ w' h => ⟨_, h, .nothing⟩
    · intro e _ _ hexec w' h _
      obtain ⟨-, hnew, -, -, he⟩ := execInsertEntry_ok hexec
      have hid : e.id = env.uuid w.tick := by rw [he]
      exact ⟨_, h, .created e (hid ▸ hnew)⟩
  · rename_i e hfind
    split
    · refine Prog.ends_bind (ends_updateEntry hids ?_ ?_ ?_)
      · exact fun _ _ _ _ => hnothing
      · exact fun _ _ w' h => ⟨_, h, .nothing⟩
      · exact fun r now _ hr w' h => ⟨_, h, .updated e r now hfind hr⟩
    · exact hnothing

/-- A file line changes no board, and keeps the ids of the entries apart. -/
theorem LineWrites.lines {boardId : Uuid} {existingEntries : List Entry} {line : EntryToml}
    {ws : List RowWrite} {w' : World} (hwrites : LineWrites boardId existingEntries line
      w.server.db ws)
    (hids : (w.server.db.entries.map Entry.id).Nodup) (h : w.Saves w' ws) : Lines w w' := by
  cases hwrites with
  | nothing => exact .of_nothing hids h
  | created e hid => exact .of_addEntry hids hid h
  | updated e r now => exact .of_setEntry hids h

section Line

variable {b : Board} {line : EntryToml}

/-- **A file line keeps a change**: an entry that was moved stays moved. -/
theorem LineWrites.moved {ws : List RowWrite} {w' : World}
    (hwrites : LineWrites b.id (Ranking.orderBy Entry.createdAt (db.entriesOf b.id)) line
      w.server.db ws) (hschema : db.Schema) (hids : (w.server.db.entries.map Entry.id).Nodup)
    (h : w.Saves w' ws) (hmoved : EntryMoved b.id db w.server.db) :
    EntryMoved b.id db w'.server.db := by
  obtain ⟨e', he', hne⟩ := hmoved
  obtain ⟨hmem, hboard⟩ := Database.mem_entriesOf.mp he'
  cases hwrites with
  | nothing =>
    rw [h.db]
    exact ⟨e', he', hne⟩
  | created e hid =>
    refine ⟨e', Database.mem_entriesOf.mpr ⟨?_, hboard⟩, hne⟩
    rw [h.db]
    exact List.mem_append_left _ hmem
  | updated e r now he hr =>
    rw [hschema.find_listed] at he
    obtain ⟨hmemr, hboardr, hslugr⟩ := Database.mem_of_entryBySlug? hr
    by_cases hid : e'.id = r.id
    · -- The line patches the entry that was moved.
      obtain rfl : e' = r := List.inj_on_of_nodup_map hids hmem hmemr hid
      refine ⟨(Sync.linePatch e line).patch now e', Database.mem_entriesOf.mpr ⟨?_, hboard⟩,
        fun x hx hslug => ?_⟩
      · rw [h.db]
        exact Database.mem_setEntry_entries.mpr (.inr ⟨rfl, e', hmem, rfl⟩)
      · obtain ⟨hmemx, hboardx⟩ := Database.mem_entriesOf.mp hx
        obtain ⟨hmeme, hboarde, hsluge⟩ := Database.mem_of_entryBySlug? he
        obtain rfl : x = e := hschema.entry_key_inj hmemx hmeme (hboardx.trans hboarde.symm)
          ((hslug.trans hslugr).trans hsluge.symm)
        exact linePatch_ne (hne x hx hslug)
    · refine ⟨e', Database.mem_entriesOf.mpr ⟨?_, hboard⟩, hne⟩
      rw [h.db]
      exact Database.mem_setEntry_entries.mpr (.inl ⟨hmem, hid⟩)

/-- A file line that is refused saves nothing. -/
theorem ends_line_refused (hschema : db.Schema) (hs : w.session = none)
    (hdiffers : Sync.lineDiffers db b line = true) (hrefused : Sync.LineRefused db b line) :
    (Sync.syncEntry b.id (Ranking.orderBy Entry.createdAt (db.entriesOf b.id)) line).Ends env
      (Prog.outcome (fun _ _ => False) fun _ w' => w.Saves w' []) w := by
  have hnothing : w.Saves w [] := ⟨hs, rfl, le_rfl⟩
  unfold Sync.syncEntry
  rw [hschema.find_listed]
  unfold Sync.lineDiffers at hdiffers
  unfold Sync.LineRefused at hrefused
  rcases hrow : db.entryBySlug? b.id line.slug with _ | e
  · simp only [hrow] at hrefused
    have habsurd : validateSlug line.slug = .ok () → validateName line.name = .ok () → False := by
      rintro hslug hname
      rcases hrefused with hne | hne
      · exact hne hslug
      · exact hne hname
    refine Prog.ends_bind (ends_createEntry hs (fun _ _ => hnothing) ?_ ?_)
    · exact fun _ hslug hname => (habsurd hslug hname).elim
    · exact fun _ hslug hname => (habsurd hslug hname).elim
  · simp only [hrow, decide_eq_true_eq] at hdiffers hrefused
    dsimp only
    rw [if_pos hdiffers]
    -- The patch has the name that is refused.
    have hpatch : Sync.patchText e.name line.name = some line.name := if_pos hrefused.1
    obtain ⟨err, herr⟩ : ∃ err, validateName line.name = .error err := by
      rcases hname : validateName line.name with err | ⟨⟩
      · exact ⟨err, rfl⟩
      · exact absurd hname hrefused.2
    refine Prog.ends_bind ?_
    unfold Entries.update
    rw [hpatch]
    refine Prog.ends_ofExcept (fun _ _ => hnothing) fun _ hok => ?_
    cases herr.symm.trans hok

/-- A file line that is accepted moves an entry. -/
theorem ends_line_accepted (hschema : db.Schema) (hs : w.session = none)
    (hdb : w.server.db = db) (hb : b ∈ db.boards)
    (hfresh : ∀ e ∈ db.entries, e.id ≠ env.uuid w.tick)
    (hdiffers : Sync.lineDiffers db b line = true) (haccepted : ¬Sync.LineRefused db b line) :
    (Sync.syncEntry b.id (Ranking.orderBy Entry.createdAt (db.entriesOf b.id)) line).Ends env
      (Prog.outcome (fun _ w' => Lines w w' ∧ EntryMoved b.id db w'.server.db)
        fun _ _ => False) w := by
  have hids : (w.server.db.entries.map Entry.id).Nodup := hdb ▸ hschema.entry_id
  unfold Sync.syncEntry
  rw [hschema.find_listed]
  unfold Sync.lineDiffers at hdiffers
  unfold Sync.LineRefused at haccepted
  rcases hrow : db.entryBySlug? b.id line.slug with _ | e
  · simp only [hrow, not_or, not_not] at haccepted
    refine Prog.ends_bind (ends_createEntry hs ?_ ?_ ?_)
    · rintro err (herr | ⟨-, herr⟩)
      · cases haccepted.1.symm.trans herr
      · cases haccepted.2.symm.trans herr
    · -- The id is new, the slug is new, and the board is there.
      intro err _ _ herr
      have hid : w.server.db.entryById? (env.uuid w.tick) = none := by
        rw [hdb]
        exact Database.entryById?_eq_none.mpr hfresh
      have hboard : w.server.db.board? b.id = some b := by
        rw [hdb]
        exact hschema.board?_eq hb
      rw [← hdb] at hrow
      simp [execInsertEntry, hid, hrow, hboard] at herr
    · intro e _ _ hexec w' h _
      obtain ⟨-, hnew, hkey, -, he⟩ := execInsertEntry_ok hexec
      have hid : e.id = env.uuid w.tick := by rw [he]
      have hboard : e.boardId = b.id := by rw [he]
      have hslug : e.slug = line.slug := by rw [he]
      have hmem : e ∈ w'.server.db.entries := by
        rw [h.db]
        exact List.mem_append_right _ List.mem_cons_self
      refine ⟨.of_addEntry hids (hid ▸ hnew) h, e, Database.mem_entriesOf.mpr ⟨hmem, hboard⟩,
        fun r hr heq => ?_⟩
      obtain ⟨hmemr, hboardr⟩ := Database.mem_entriesOf.mp hr
      exact absurd ⟨hboardr, heq.trans hslug⟩ (hkey r (hdb ▸ hmemr))
  -- The entry is there, and its name or its metadata are not those of the line.
  · simp only [hrow, decide_eq_true_eq, not_and_or, not_not] at hdiffers haccepted
    dsimp only
    rw [if_pos hdiffers]
    refine Prog.ends_bind (ends_updateEntry hids ?_ ?_ ?_)
    · intro name err hname herr
      change Sync.patchText e.name line.name = some name at hname
      unfold Sync.patchText at hname
      split at hname
      · rename_i hne
        obtain rfl := Option.some.inj hname
        rcases haccepted with heq | hok
        · exact hne heq
        · cases hok.symm.trans herr
      · cases hname
    · intro _ hmissing
      rw [hdb, hrow] at hmissing
      cases hmissing
    · intro r now _ hr w' h
      rw [hdb, hrow] at hr
      obtain rfl := Option.some.inj hr
      obtain ⟨hmem, hboard, hslug⟩ := Database.mem_of_entryBySlug? hrow
      have hset : (Sync.linePatch e line).patch now e ∈ w'.server.db.entries := by
        rw [World.Saves.db h]
        exact Database.mem_setEntry_entries.mpr (.inr ⟨rfl, e, hdb ▸ hmem, rfl⟩)
      refine ⟨.of_setEntry hids h, _, Database.mem_entriesOf.mpr ⟨hset, hboard⟩,
        fun x hx heq => ?_⟩
      obtain ⟨hmemx, hboardx⟩ := Database.mem_entriesOf.mp hx
      obtain rfl : x = e := hschema.entry_key_inj hmemx hmem (hboardx.trans hboard.symm) heq
      simp only [UpdateEntry.patch, Sync.linePatch, Sync.patchText_getD, Sync.patchField_apply]
      rcases hdiffers with hname | hmetadata
      · exact .inl (by rwa [if_pos hname])
      · exact .inr (by rwa [if_pos hmetadata])

/-! ### All lines -/

/-- The file lines of a board, with the entries that were listed before. -/
abbrev syncLines (db : Database) (b : Board) (lines : List EntryToml) : Action Unit :=
  Prog.each lines
    (Sync.syncEntry b.id (Ranking.orderBy Entry.createdAt (db.entriesOf b.id)))

variable {lines : List EntryToml}

/-- The loop over the lines keeps what each line keeps. -/
theorem ends_lines {boardId : Uuid} {existingEntries : List Entry} {I : World → Prop}
    (hI : ∀ line w ws w', I w → (w.server.db.entries.map Entry.id).Nodup →
      LineWrites boardId existingEntries line w.server.db ws → w.Saves w' ws → I w')
    (hs : w.session = none) (hids : (w.server.db.entries.map Entry.id).Nodup) (hw : I w) :
    Action.Ends env (fun _ w' => Lines w w' ∧ I w')
      (Prog.each lines (Sync.syncEntry boardId existingEntries)) w := by
  have hloop := Prog.ends_each (h := serve env) (l := lines) (s := w)
    (I := fun _ w' => Lines w w' ∧ I w') (E := fun _ w' => Lines w w' ∧ I w')
    (f := Sync.syncEntry boardId existingEntries)
    (fun line l w₁ h₁ => (ends_syncEntry h₁.1.session h₁.1.ids).mono fun r w₂ h₂ => ?_)
    ⟨.refl hs hids, hw⟩
  · refine hloop.mono fun r w' h => ?_
    cases r <;> exact h
  · obtain ⟨ws, hsaves, hwrites⟩ := h₂
    have hboth : Lines w w₂ ∧ I w₂ :=
      ⟨h₁.1.trans (hwrites.lines h₁.1.ids hsaves), hI line w₁ ws w₂ h₁.2 h₁.1.ids hwrites hsaves⟩
    cases r <;> exact hboth

/-- The remaining lines keep a change. -/
theorem ends_lines_moved (hschema : db.Schema) (hs : w.session = none)
    (hids : (w.server.db.entries.map Entry.id).Nodup)
    (hmoved : EntryMoved b.id db w.server.db) :
    (syncLines db b lines).Ends env
      (fun _ w' => Lines w w' ∧ EntryMoved b.id db w'.server.db) w :=
  ends_lines (I := fun w' => EntryMoved b.id db w'.server.db)
    (fun _ _ _ _ hw hids hwrites h => hwrites.moved hschema hids h hw) hs hids hmoved

/-- When the first line that differs is refused, the lines save nothing. -/
theorem ends_lines_refused (hschema : db.Schema) (hs : w.session = none)
    (hrefused : ∀ line, lines.find? (Sync.lineDiffers db b) = some line →
      Sync.LineRefused db b line) :
    (syncLines db b lines).Ends env
      (fun _ w' => w.Saves w' []) w := by
  induction lines with
  | nil => exact ⟨hs, rfl, le_rfl⟩
  | cons line lines ih =>
    rcases hdiffers : Sync.lineDiffers db b line with _ | _
    · rw [syncLines, Prog.each, syncEntry_same hschema hdiffers]
      refine ih fun line' hfind => hrefused line' ?_
      rwa [List.find?_cons_of_neg (by simp [hdiffers])]
    · refine Prog.ends_bind ((ends_line_refused hschema hs hdiffers
        (hrefused line (List.find?_cons_of_pos hdiffers))).mono fun r w' h => ?_)
      cases r with
      | ok _ => exact h.elim
      | error e => exact h

/-- When the first line that differs is accepted, the lines move an entry. -/
theorem ends_lines_accepted (hschema : db.Schema) (hs : w.session = none)
    (hdb : w.server.db = db) (hb : b ∈ db.boards)
    (hfresh : ∀ e ∈ db.entries, e.id ≠ env.uuid w.tick)
    (hfind : lines.find? (Sync.lineDiffers db b) = some line)
    (haccepted : ¬Sync.LineRefused db b line) :
    (syncLines db b lines).Ends env
      (fun _ w' => Lines w w' ∧ EntryMoved b.id db w'.server.db) w := by
  induction lines with
  | nil => cases hfind
  | cons line' lines ih =>
    rcases hdiffers : Sync.lineDiffers db b line' with _ | _
    · rw [syncLines, Prog.each, syncEntry_same hschema hdiffers]
      exact ih (by rwa [List.find?_cons_of_neg (by simp [hdiffers])] at hfind)
    · rw [List.find?_cons_of_pos hdiffers] at hfind
      obtain rfl := Option.some.inj hfind
      refine Prog.ends_bind ((ends_line_accepted hschema hs hdb hb hfresh hdiffers
        haccepted).mono fun r w₁ h₁ => ?_)
      cases r with
      | error e => exact h₁.elim
      | ok _ =>
        have hrest : (syncLines db b lines).Ends env
            (fun _ w₂ => Lines w w₂ ∧ EntryMoved b.id db w₂.server.db) w₁ :=
          (ends_lines_moved hschema h₁.1.session h₁.1.ids h₁.2).mono
            fun r w₂ h₂ => ⟨h₁.1.trans h₂.1, h₂.2⟩
        exact hrest

end Line

/-! ### The whole sync -/

section Sync

variable {parsed : ParsedBoard} {note : Option String}

/-- Under a condition the tables are the old ones, and without it the rows of the board show a
change. -/
structure ChangesUnless (condition : Prop) (slug : String) (db db' : Database) : Prop where
  kept : condition → db' = db
  changed : ¬condition → ¬Untouched slug db db'

theorem ChangesUnless.of_kept {condition : Prop} (h : condition) (hdb : db' = db) :
    ChangesUnless condition slug db db' :=
  ⟨fun _ => hdb, fun hn => absurd h hn⟩

theorem ChangesUnless.of_changed {condition : Prop} (h : ¬condition)
    (hdb : ¬Untouched slug db db') : ChangesUnless condition slug db db' :=
  ⟨fun hc => absurd hc h, fun _ => hdb⟩

/-- The rows of the board are untouched exactly under the condition. -/
theorem ChangesUnless.untouched_iff {condition : Prop} (h : ChangesUnless condition slug db db') :
    Untouched slug db db' ↔ condition := by
  refine ⟨fun hsame => by_contra fun hn => h.changed hn hsame, fun hc => ?_⟩
  rw [h.kept hc]
  exact .refl slug db

/-- The sync ends without a version: it fails, or the stored board is accumulative. -/
def NoVersion {α : Type} (db : Database) (slug : String) (r : Except Error α) : Prop :=
  (∃ e, r = .error e) ∨ ∃ b, db.boardBySlug? slug = some b ∧ b.accumulative = true

/-- The first file line that asks for a change of an entry does not pass the validation. -/
abbrev Sync.LinesRefused (db : Database) (b : Board) (lines : List EntryToml) : Prop :=
  ∀ line, lines.find? (Sync.lineDiffers db b) = some line → Sync.LineRefused db b line

/-- What follows a board row that agrees with the file. -/
theorem ends_afterRow {b : Board} {rankingConfigChanged : Bool} (hschema : db.Schema)
    (hs : w.session = none) (hdb : w.server.db = db) (hb : db.boardBySlug? slug = some b)
    (hfresh : ∀ n, w.tick ≤ n → ∀ e ∈ db.entries, e.id ≠ env.uuid n) :
    (Sync.afterRow parsed note (b, rankingConfigChanged)).Ends env
      (fun r w' => NoVersion db slug r →
        ChangesUnless (Sync.LinesRefused db b parsed.entries) slug db w'.server.db) w := by
  have hmem : b ∈ db.boards := (Database.mem_of_boardBySlug? hb).1
  -- Without a new version the sync has failed, or the board is accumulative.
  have hquiet : ∀ r : Except Error BoardSyncResult, NoVersion db slug r →
      (∃ e, r = .error e) ∨ b.accumulative = true := by
    rintro r (herr | ⟨b', hb', haccumulative⟩)
    · exact .inl herr
    · obtain rfl := Option.some.inj (hb.symm.trans hb')
      exact .inr haccumulative
  unfold Sync.afterRow
  split
  · rename_i hempty
    exact fun _ => .of_kept (by simp [hempty, Sync.LinesRefused]) hdb
  refine ends_read hs (fun e w' he => nomatch he) (fun listed w₁ hexec h₁ => ?_) rfl
  obtain rfl : Ranking.orderBy Entry.createdAt (db.entriesOf b.id) = listed := by
    rw [← hdb]
    exact (Prod.mk.inj (Except.ok.inj hexec)).1
  have hdb₁ : w₁.server.db = db := h₁.db.trans hdb
  have htick₁ := h₁.tick
  -- A first line that is refused stops the sync before anything is written; any other line shows.
  by_cases hrefused : Sync.LinesRefused db b parsed.entries
  · refine Prog.ends_bind ((ends_lines_refused hschema h₁.session' hrefused).mono
      fun r w₂ h₂ => ?_)
    have hdb₂ : w₂.server.db = db := h₂.db.trans hdb₁
    cases r with
    | error e => exact fun _ => .of_kept hrefused hdb₂
    | ok _ =>
      have hstep : (Sync.versionStep parsed note b rankingConfigChanged).Ends env
          (fun r w' => NoVersion db slug r →
            ChangesUnless (Sync.LinesRefused db b parsed.entries) slug db w'.server.db) w₂ :=
        (ends_versionStep h₂.session).mono fun r w₃ h₃ hr =>
          .of_kept hrefused ((h₃ (hquiet r hr)).db.trans hdb₂)
      exact hstep
  · have hrefused' := hrefused
    unfold Sync.LinesRefused at hrefused'
    push Not at hrefused'
    obtain ⟨line, hfind, haccepted⟩ := hrefused'
    refine Prog.ends_bind ((ends_lines_accepted hschema h₁.session' hdb₁ hmem
      (hfresh w₁.tick (by omega)) hfind haccepted).mono fun r w₂ h₂ => ?_)
    have hchanged : ¬Untouched slug db w₂.server.db := h₂.2.not_untouched hb
    cases r with
    | error e => exact fun _ => .of_changed hrefused hchanged
    | ok _ =>
      have hstep : (Sync.versionStep parsed note b rankingConfigChanged).Ends env
          (fun r w' => NoVersion db slug r →
            ChangesUnless (Sync.LinesRefused db b parsed.entries) slug db w'.server.db) w₂ := by
        refine (ends_versionStep h₂.1.session).mono fun r w₃ h₃ hr => .of_changed hrefused ?_
        rw [(h₃ (hquiet r hr)).db]
        exact hchanged
      exact hstep

/-- What follows the board row leaves the board rows alone. -/
theorem ends_afterRow_boards {row : Board × Bool} (hs : w.session = none)
    (hids : (w.server.db.entries.map Entry.id).Nodup) :
    (Sync.afterRow parsed note row).Ends env
      (fun r w' => (∃ e, r = .error e) ∨ row.1.accumulative = true →
        w'.server.db.boards = w.server.db.boards) w := by
  unfold Sync.afterRow
  split
  · exact fun _ => rfl
  refine ends_read hs (fun e w' he => nomatch he) (fun listed w₁ _ h₁ => ?_) rfl
  have hboards₁ : w₁.server.db.boards = w.server.db.boards := by rw [h₁.db]
  refine Prog.ends_bind ((ends_lines (I := fun _ => True) (fun _ _ _ _ _ _ _ _ => trivial)
    h₁.session' (by rwa [h₁.db]) trivial).mono fun r w₂ h₂ => ?_)
  have hboards₂ : w₂.server.db.boards = w.server.db.boards := h₂.1.boards.trans hboards₁
  cases r with
  | error e => exact fun _ => hboards₂
  | ok _ =>
    have hstep : (Sync.versionStep parsed note row.1 row.2).Ends env
        (fun r w' => (∃ e, r = .error e) ∨ row.1.accumulative = true →
          w'.server.db.boards = w.server.db.boards) w₂ := by
      refine (ends_versionStep h₂.1.session).mono fun r w₃ h₃ hr => ?_
      rw [(h₃ hr).db]
      exact hboards₂
    exact hstep

/-- A board row of the slug that is there no longer shows. -/
theorem not_untouched_of_boards (hboards : ∀ b, db.boardBySlug? slug = some b → b ∉ db'.boards)
    (hnew : db.boardBySlug? slug = none → ∃ b ∈ db'.boards, b.slug = slug) :
    ¬Untouched slug db db' := by
  intro hsame
  have hrow := hsame.board
  rcases hold : db.boardBySlug? slug with _ | b
  · rw [hold] at hrow
    obtain ⟨b, hb, hslug⟩ := hnew hold
    exact Database.boardBySlug?_eq_none.mp hrow b hb hslug
  · rw [hold] at hrow
    exact hboards b hold (Database.mem_of_boardBySlug? hrow).1

/-- The patch of a board row that differs from the file changes the row. -/
theorem boardPatch_ne {b : Board} {now : Timestamp} (h : Sync.rowDiffers b parsed) :
    (Sync.boardPatch b parsed).patch now b ≠ b := by
  intro heq
  have hname := congrArg Board.name heq
  have hdirection := congrArg Board.sortDirection heq
  have htiers := congrArg Board.tierConfig heq
  have hmetadata := congrArg Board.metadata heq
  simp only [UpdateBoard.patch, Sync.boardPatch, Sync.patchText_getD, Sync.patchField_apply]
    at hname hdirection htiers hmetadata
  unfold Sync.rowDiffers at h
  grind

/-- **What a sync without a version changes**: nothing when the first change is refused, and
otherwise something that shows. -/
theorem ends_syncBoard (hs : w.session = none) (hschema : w.server.db.Schema)
    (hsupplied : w.Supplied env) (hfile : parsed.board.accumulative = false) :
    (Sync.syncBoard parsed note).Ends env
      (fun r w' => NoVersion w.server.db parsed.slug r → ChangesUnless
        (Sync.FirstChangeRefused w.server.db parsed) parsed.slug w.server.db w'.server.db) w := by
  have hview : w.view = w.server.db := by rw [World.view, hs, Session.view_none]
  have hids := hschema.entry_id
  rw [Sync.syncBoard_eq note hfile]
  refine Prog.ends_bind (ends_syncBoardRow hs hschema ?_ ?_ ?_ ?_ ?_ ?_)
  · rw [← hview]
    exact hsupplied.boards
  · -- The new board is refused.
    intro err hnone herr w₁ h₁ _
    refine .of_kept ?_ h₁.db
    rw [Sync.FirstChangeRefused, hnone]
    simp [herr]
  · -- The board is new.
    intro b n w₁ hnone hvalid _ _ hb h₁
    have hslug : b.slug = parsed.slug := congrArg Board.slug hb
    have hrest : (Sync.afterRow parsed note (b, false)).Ends env
        (fun r w' => NoVersion w.server.db parsed.slug r → ChangesUnless
          (Sync.FirstChangeRefused w.server.db parsed) parsed.slug w.server.db w'.server.db)
        w₁ := by
      refine (ends_afterRow_boards h₁.session (by rwa [h₁.db])).mono fun r w₂ h₂ hr => ?_
      have herr : ∃ e, r = .error e := by
        rcases hr with herr | ⟨b', hb', -⟩
        · exact herr
        · cases hnone.symm.trans hb'
      refine .of_changed ?_ (not_untouched_of_boards (by simp [hnone]) fun _ => ?_)
      · rw [Sync.FirstChangeRefused, hnone]
        simp [hvalid]
      · refine ⟨b, ?_, hslug⟩
        rw [h₂ (.inl herr), h₁.db]
        exact List.mem_append_right _ List.mem_cons_self
    exact hrest
  · -- The patch of the board is refused.
    intro err b hb hdiffers herr w₁ h₁ _
    refine .of_kept ?_ h₁.db
    rw [Sync.FirstChangeRefused, hb]
    dsimp only
    rw [if_pos hdiffers]
    rcases herr with herr | ⟨-, herr⟩
    · exact .inl (by simp [herr])
    · exact .inr (by simp [herr])
  · -- The board is patched.
    intro b now hb hdiffers hfields hvalid w₁ h₁
    have hrest : (Sync.afterRow parsed note
        ((Sync.boardPatch b parsed).patch now b, Sync.rankingConfigChanged b parsed)).Ends env
        (fun r w' => NoVersion w.server.db parsed.slug r → ChangesUnless
          (Sync.FirstChangeRefused w.server.db parsed) parsed.slug w.server.db w'.server.db)
        w₁ := by
      refine (ends_afterRow_boards h₁.session (by rwa [h₁.db])).mono fun r w₂ h₂ hr => ?_
      have hquiet : (∃ e, r = .error e) ∨
          ((Sync.boardPatch b parsed).patch now b).accumulative = true := by
        rcases hr with herr | ⟨b', hb', haccumulative⟩
        · exact .inl herr
        · -- A patch keeps the mode of the board.
          obtain rfl := Option.some.inj (hb.symm.trans hb')
          exact .inr haccumulative
      refine .of_changed ?_ (not_untouched_of_boards (fun b' hb' hkept => ?_) (by simp [hb]))
      · rw [Sync.FirstChangeRefused, hb]
        dsimp only
        rw [if_pos hdiffers]
        simp [hfields, hvalid]
      · obtain rfl := Option.some.inj (hb.symm.trans hb')
        rw [h₂ hquiet, h₁.db] at hkept
        rcases Database.mem_setBoard_boards.mp hkept with ⟨-, hne⟩ | ⟨heq, -⟩
        · exact hne rfl
        · exact boardPatch_ne hdiffers heq.symm
    exact hrest
  · -- The board row agrees with the file.
    intro b hb hsame w₁ h₁
    have hrest : (Sync.afterRow parsed note (b, Sync.rankingConfigChanged b parsed)).Ends env
        (fun r w' => NoVersion w.server.db parsed.slug r → ChangesUnless
          (Sync.FirstChangeRefused w.server.db parsed) parsed.slug w.server.db w'.server.db)
        w₁ := by
      rw [Sync.FirstChangeRefused, hb]
      dsimp only
      rw [if_neg hsame]
      refine ends_afterRow hschema h₁.session h₁.db hb fun n hn x hx => ?_
      have htick₁ := h₁.tick
      exact hsupplied.entries n (by omega) x (hview ▸ hx)
    exact hrest

/-- **A failed sync changes nothing exactly when the first change is refused.** Let the sync of a
parsed board that runs without interruption return an error. Then the board row of the slug, its
entries, versions and placements are as they were before if and only if the first change that the
file asks for does not pass its validation, or the file asks for no change of the board row and of
the entries. -/
theorem failed_sync_changes_nothing {w' : World} {e : Error} (hs : w.session = none)
    (hschema : w.server.db.Schema) (hsupplied : w.Supplied env) (parsed : ParsedBoard)
    (note : Option String)
    (h : (Sync.syncBoard parsed note).run (serve env) w = (.error e, w')) :
    Untouched parsed.slug w.server.db w'.server.db ↔
      Sync.FirstChangeRefused w.server.db parsed := by
  have hends : (Sync.syncBoard parsed note).Ends env
      (fun r w' => (∃ e, r = .error e) → ChangesUnless
        (Sync.FirstChangeRefused w.server.db parsed) parsed.slug w.server.db w'.server.db) w := by
    rcases hfile : parsed.board.accumulative with _ | _
    · exact (ends_syncBoard hs hschema hsupplied hfile).mono fun r w' h hr => h (.inl hr)
    · unfold Sync.syncBoard
      rw [if_pos hfile]
      rintro ⟨e, he⟩
      cases he
  have hpost := hends
  unfold Action.Ends Prog.Ends at hpost
  rw [h] at hpost
  exact (hpost ⟨e, rfl⟩).untouched_iff

/-- A scored board with an entry. -/
def scoredFile (name : String) (score : Option F64) : ParsedBoard where
  slug := "b"
  board := { name := name, boardType := "scored" }
  entries := [{ slug := "e", name := "E", score := score }]

set_option maxRecDepth 10000 in
/-- A file whose board is refused changes nothing. -/
theorem failed_sync_changes_nothing_run : ∃ (e : Error) (w' : World),
    (Sync.syncBoard (scoredFile "" (some ⟨1⟩)) none).run (serve counting) {} = (.error e, w') ∧
      Untouched "b" {} w'.server.db := by
  have hrun : (Sync.syncBoard (scoredFile "" (some ⟨1⟩)) none).run (serve counting) {} =
      (.error (.validation "name must not be empty"),
        ((Sync.syncBoard (scoredFile "" (some ⟨1⟩)) none).run (serve counting) {}).2) := rfl
  have hrefused : Sync.FirstChangeRefused {} (scoredFile "" (some ⟨1⟩)) := by
    change Boards.validateCreate (Sync.boardOf (scoredFile "" (some ⟨1⟩))) ≠ .ok ()
    decide
  exact ⟨_, _, hrun, (failed_sync_changes_nothing rfl (Database.schema_empty _)
    (atRest_initial counting False).supplied _ _ hrun).mpr hrefused⟩

set_option maxRecDepth 10000 in
/-- The first file of a board lacks a score: the version is refused, and the board and the entry
stay. -/
theorem failed_sync_leaves_rows : ∃ (e : Error) (w' : World),
    (Sync.syncBoard (scoredFile "B" none) none).run (serve counting) {} = (.error e, w') ∧
      ¬Untouched "b" {} w'.server.db := by
  refine ⟨.validation "score is required for scored board, missing for entry 'e'", _, rfl,
    fun h => ?_⟩
  have hrow := h.board
  revert hrow
  decide

end Sync

end Leaderboards
