import Leaderboards.Contents.Model
import Leaderboards.Transactions.Patching
import Leaderboards.Transactions.Positions

/-!
# The contents of the tables

`Database.boardContents` reads the contents of a board off its rows. The lemmas say what the row
writes do to the contents of the board they belong to, and that they leave the contents of all
other boards alone (`Elsewhere`).
-/

namespace Leaderboards

open Ranking

namespace Database

variable (db : Database)

/-- The slug of the entry with an id. -/
def slugOf (entryId : Uuid) : String := ((db.entryById? entryId).map Entry.slug).getD ""

/-- The placements of a version. -/
def placed (versionId : Uuid) : List CreatePlacement :=
  (db.placementsOf versionId).map fun p => p.input (db.slugOf p.entryId)

/-- A version and its number. -/
def numbered (v : Version) : ℤ × CreateVersion :=
  (v.versionNumber, { note := v.note, metadata := v.metadata, placements := db.placed v.id })

/-- The contents of the board of a row. -/
def boardContents (b : Board) : Contents where
  board := b.input
  entries := (orderBy Entry.id (db.entriesOf b.id)).map Entry.input
  versions := (db.versionsOf b.id).map db.numbered

/-- The contents of the board of a slug. -/
def boardContents? (slug : String) : Option Contents := (db.boardBySlug? slug).map db.boardContents

@[simp] theorem boardContents_board (b : Board) : (db.boardContents b).board = b.input := rfl

@[simp] theorem boardContents_entries (b : Board) :
    (db.boardContents b).entries = (orderBy Entry.id (db.entriesOf b.id)).map Entry.input := rfl

@[simp] theorem boardContents_versions (b : Board) :
    (db.boardContents b).versions = (db.versionsOf b.id).map db.numbered := rfl

end Database

variable {db db' : Database}

theorem Database.Schema.slugOf_eq (h : db.Schema) {e : Entry} (he : e ∈ db.entries) :
    db.slugOf e.id = e.slug := by
  rw [Database.slugOf, h.entryById?_eq he]
  rfl

/-- A version reads the same when it has the same placement rows and its entries keep their
slugs. -/
theorem Database.Schema.numbered_eq (h : db.Schema) (h' : db'.Schema) {v : Version}
    (hv : v ∈ db.versions) (hplacements : db'.placementsOf v.id = db.placementsOf v.id)
    (hslugs : ∀ e ∈ db.entriesOf v.boardId, ∃ e' ∈ db'.entries, e'.id = e.id ∧ e'.slug = e.slug) :
    db'.numbered v = db.numbered v := by
  have hplaced : db'.placed v.id = db.placed v.id := by
    rw [Database.placed, hplacements]
    refine List.map_congr_left fun p hp => ?_
    obtain ⟨e, he, heid, heb, -⟩ := h.entry_of_placement hv hp
    obtain ⟨e', he', hid, hslug⟩ := hslugs e (Database.mem_entriesOf.mpr ⟨he, heb⟩)
    rw [← heid, h.slugOf_eq he, ← hid, h'.slugOf_eq he', hslug]
  rw [Database.numbered, hplaced]
  rfl

/-- The versions of a board read the same when its versions and their placements are the same rows
and its entries keep their slugs. -/
theorem Database.Schema.numbered_congr (h : db.Schema) (h' : db'.Schema) (boardId : Uuid)
    (hversions : db'.versionsOf boardId = db.versionsOf boardId)
    (hplacements : ∀ v ∈ db.versionsOf boardId, db'.placementsOf v.id = db.placementsOf v.id)
    (hslugs : ∀ e ∈ db.entriesOf boardId, ∃ e' ∈ db'.entries, e'.id = e.id ∧ e'.slug = e.slug) :
    (db'.versionsOf boardId).map db'.numbered = (db.versionsOf boardId).map db.numbered := by
  rw [hversions]
  refine List.map_congr_left fun v hv => ?_
  obtain ⟨hmem, hboard⟩ := Database.mem_versionsOf.mp hv
  exact h.numbered_eq h' hmem (hplacements v hv) (hboard ▸ hslugs)

/-! ### The other boards -/

/-- The rows of all boards but one are the same. -/
structure Elsewhere (boardId : Uuid) (db db' : Database) : Prop where
  boards : ∀ b, b.id ≠ boardId → (b ∈ db'.boards ↔ b ∈ db.boards)
  entries : ∀ id, id ≠ boardId → db'.entriesOf id = db.entriesOf id
  versions : ∀ id, id ≠ boardId → db'.versionsOf id = db.versionsOf id
  placements : ∀ v ∈ db.versions, v.boardId ≠ boardId → db'.placementsOf v.id = db.placementsOf v.id

namespace Elsewhere

variable {boardId : Uuid}

theorem refl (boardId : Uuid) (db : Database) : Elsewhere boardId db db where
  boards _ _ := Iff.rfl
  entries _ _ := rfl
  versions _ _ := rfl
  placements _ _ _ := rfl

theorem trans {db'' : Database} (h : Elsewhere boardId db db') (h' : Elsewhere boardId db' db'') :
    Elsewhere boardId db db'' where
  boards b hb := (h'.boards b hb).trans (h.boards b hb)
  entries id hid := (h'.entries id hid).trans (h.entries id hid)
  versions id hid := (h'.versions id hid).trans (h.versions id hid)
  placements v hv hid := by
    have hmem : v ∈ db'.versionsOf v.boardId := by
      rw [h.versions v.boardId hid]
      exact Database.mem_versionsOf.mpr ⟨hv, rfl⟩
    exact (h'.placements v (Database.mem_versionsOf.mp hmem).1 hid).trans (h.placements v hv hid)

/-- The contents of another board are the same. -/
theorem boardContents_eq (h : Elsewhere boardId db db') (hdb : db.Schema) (hdb' : db'.Schema)
    {b : Board} (hb : b.id ≠ boardId) : db'.boardContents b = db.boardContents b := by
  have hversions := hdb.numbered_congr hdb' b.id (h.versions b.id hb)
    (fun v hv => by
      obtain ⟨hmem, hboard⟩ := Database.mem_versionsOf.mp hv
      exact h.placements v hmem (hboard ▸ hb))
    fun e he => by
      rw [← h.entries b.id hb] at he
      exact ⟨e, (Database.mem_entriesOf.mp he).1, rfl, rfl⟩
  rw [Database.boardContents, hversions, h.entries b.id hb]
  rfl

/-- The contents under another slug are the same. -/
theorem boardContents?_eq (h : Elsewhere boardId db db') (hdb : db.Schema) (hdb' : db'.Schema)
    {slug other : String} (hslug : ∀ b ∈ db.boards, b.id = boardId → b.slug = slug)
    (hslug' : ∀ b ∈ db'.boards, b.id = boardId → b.slug = slug) (hne : other ≠ slug) :
    db'.boardContents? other = db.boardContents? other := by
  unfold Database.boardContents?
  rcases hrow : db.boardBySlug? other with _ | b
  · have hnone : db'.boardBySlug? other = none := by
      rw [Database.boardBySlug?_eq_none] at hrow ⊢
      intro b hb hother
      have hid : b.id ≠ boardId := fun hid => hne (hother.symm.trans (hslug' b hb hid))
      exact hrow b ((h.boards b hid).mp hb) hother
    rw [hnone]
    rfl
  · obtain ⟨hmem, hother⟩ := Database.mem_of_boardBySlug? hrow
    have hid : b.id ≠ boardId := fun hid => hne (hother.symm.trans (hslug b hmem hid))
    have hsome : db'.boardBySlug? other = some b := by
      rw [← hother]
      exact hdb'.boardBySlug?_eq ((h.boards b hid).mpr hmem)
    rw [hsome, Option.map_some, Option.map_some, h.boardContents_eq hdb hdb' hid]

end Elsewhere

/-! ### Row writes -/

theorem elsewhere_addBoard {b : Board} : Elsewhere b.id db (db.addBoard b) where
  boards r hr := by
    simp only [Database.addBoard_boards, List.mem_append, List.mem_singleton, or_iff_left_iff_imp]
    rintro rfl
    exact absurd rfl hr
  entries _ _ := rfl
  versions _ _ := rfl
  placements _ _ _ := rfl

theorem elsewhere_setBoard {b : Board} : Elsewhere b.id db (db.setBoard b) where
  boards r hr := by
    rw [Database.mem_setBoard_boards]
    constructor
    · rintro (⟨hmem, -⟩ | ⟨rfl, -⟩)
      · exact hmem
      · exact absurd rfl hr
    · exact fun hmem => .inl ⟨hmem, hr⟩
  entries _ _ := rfl
  versions _ _ := rfl
  placements _ _ _ := rfl

theorem elsewhere_addEntry {e : Entry} : Elsewhere e.boardId db (db.addEntry e) where
  boards _ _ := Iff.rfl
  entries id hid := by
    simp only [Database.entriesOf, Database.addEntry_entries, List.filter_append]
    rw [List.filter_cons_of_neg (by simpa using hid.symm), List.filter_nil, List.append_nil]
  versions _ _ := rfl
  placements _ _ _ := rfl

theorem elsewhere_setEntry {e : Entry} (h : ∀ r ∈ db.entries, r.id = e.id → r.boardId = e.boardId) :
    Elsewhere e.boardId db (db.setEntry e) where
  boards _ _ := Iff.rfl
  entries id hid := by
    simp only [Database.entriesOf, Database.setEntry_entries, List.filter_map]
    have hfilter : db.entries.filter ((fun r => decide (r.boardId = id)) ∘
        fun r => if r.id = e.id then e else r) = db.entries.filter fun r => r.boardId = id := by
      refine List.filter_congr fun r hr => ?_
      rw [Function.comp_apply]
      split
      · rename_i heq
        rw [h r hr heq]
      · rfl
    rw [hfilter]
    refine (List.map_congr_left fun r hr => ?_).trans (List.map_id _)
    obtain ⟨hmem, hboard⟩ := List.mem_filter.mp hr
    have hboard' : r.boardId = id := by simpa using hboard
    rw [if_neg fun heq => hid (hboard'.symm.trans (h r hmem heq))]
    rfl
  versions _ _ := rfl
  placements _ _ _ := rfl

/-! ### The board itself -/

/-- A new board holds nothing. -/
theorem contents_addBoard (hdb : db.Schema) {b : Board} (hnew : ∀ r ∈ db.boards, r.id ≠ b.id) :
    (db.addBoard b).boardContents b = { board := b.input } := by
  have hentries : (db.addBoard b).entriesOf b.id = [] := by
    rw [List.eq_nil_iff_forall_not_mem]
    intro e he
    obtain ⟨hmem, hboard⟩ := Database.mem_entriesOf.mp he
    obtain ⟨r, hr, hid⟩ := hdb.entry_board e hmem
    exact hnew r hr (hid.trans hboard)
  have hversions : (db.addBoard b).versionsOf b.id = [] := by
    rw [List.eq_nil_iff_forall_not_mem]
    intro v hv
    obtain ⟨hmem, hboard⟩ := Database.mem_versionsOf.mp hv
    obtain ⟨r, hr, hid⟩ := hdb.version_board v hmem
    exact hnew r hr (hid.trans hboard)
  rw [Database.boardContents, hentries, hversions]
  rfl

/-- Other values in the row of a board. -/
theorem contents_setBoard {b b' : Board} {input : UpdateBoard}
    (hid : b'.id = b.id) (hinput : b'.input = b.input.patched input) :
    (db.setBoard b').boardContents b' =
      { db.boardContents b with board := (db.boardContents b).board.patched input } := by
  rw [Database.boardContents, Database.boardContents, hid, hinput]
  rfl

/-- A new entry comes last when its id does. -/
theorem contents_addEntry (hdb : db.Schema) {b : Board} {e : Entry}
    (hdb' : (db.addEntry e).Schema) (hboard : e.boardId = b.id)
    (hlast : ∀ r ∈ db.entries, r.id < e.id) :
    (db.addEntry e).boardContents b =
      { db.boardContents b with entries := (db.boardContents b).entries ++ [e.input] } := by
  have hentries : (db.addEntry e).entriesOf b.id = db.entriesOf b.id ++ [e] := by
    simp only [Database.entriesOf, Database.addEntry_entries, List.filter_append]
    rw [List.filter_cons_of_pos (by simpa using hboard), List.filter_nil]
  have hordered : orderBy Entry.id (db.entriesOf b.id ++ [e]) =
      orderBy Entry.id (db.entriesOf b.id) ++ [e] :=
    orderBy_concat _ (hdb.entry_id.sublist (List.filter_sublist.map _)) fun r hr =>
      hlast r (Database.mem_entriesOf.mp hr).1
  have hversions := hdb.numbered_congr hdb' b.id rfl (fun _ _ => rfl) fun r hr =>
    ⟨r, List.mem_append_left _ (Database.mem_entriesOf.mp hr).1, rfl, rfl⟩
  rw [Database.boardContents, hversions, hentries, hordered, List.map_append]
  rfl

/-- Other values in the row of an entry. -/
theorem contents_setEntry (hdb : db.Schema) {b : Board} {e : Entry} {input : UpdateEntry}
    {now : Timestamp} (hdb' : (db.setEntry (input.patch now e)).Schema) (he : e ∈ db.entries)
    (hboard : e.boardId = b.id) :
    (db.setEntry (input.patch now e)).boardContents b =
      { db.boardContents b with
        entries := Contents.patchEntries e.slug input (db.boardContents b).entries } := by
  -- The update of the row, as a map over the entries: it keeps ids and keys.
  let f : Entry → Entry := fun r => if r.id = e.id then input.patch now e else r
  have hid : ∀ r, (f r).id = r.id := by
    intro r
    simp only [f]
    split
    · rename_i heq
      exact heq.symm
    · rfl
  have hkey : ∀ r ∈ db.entries, (f r).boardId = r.boardId ∧ (f r).slug = r.slug := by
    intro r hr
    simp only [f]
    split
    · rename_i heq
      obtain rfl := hdb.entry_inj hr he heq
      exact ⟨rfl, rfl⟩
    · exact ⟨rfl, rfl⟩
  have hentries : (db.setEntry (input.patch now e)).entriesOf b.id =
      (db.entriesOf b.id).map f := by
    change (db.entries.map f).filter (fun r => decide (r.boardId = b.id)) = _
    rw [List.filter_map, Database.entriesOf]
    refine congrArg (List.map f) (List.filter_congr fun r hr => ?_)
    rw [Function.comp_apply, (hkey r hr).1]
  have hordered : orderBy Entry.id ((db.entriesOf b.id).map f) =
      (orderBy Entry.id (db.entriesOf b.id)).map f := by
    rw [orderBy_map]
    simp only [hid]
  -- By the key of the board, the entry with this id is the one with this slug.
  have hinputs : ((orderBy Entry.id (db.entriesOf b.id)).map f).map Entry.input =
      Contents.patchEntries e.slug input
        ((orderBy Entry.id (db.entriesOf b.id)).map Entry.input) := by
    rw [Contents.patchEntries, List.map_map, List.map_map]
    refine List.map_congr_left fun r hr => ?_
    obtain ⟨hmem, hrb⟩ := Database.mem_entriesOf.mp ((mem_orderBy _).mp hr)
    simp only [Function.comp_apply, f]
    by_cases heq : r.id = e.id
    · obtain rfl := hdb.entry_inj hmem he heq
      rw [if_pos rfl]
      exact (if_pos rfl).symm
    · have hslug : r.input.slug ≠ e.slug := fun hslug =>
        heq (congrArg Entry.id (hdb.entry_key_inj hmem he (hrb.trans hboard.symm) hslug))
      rw [if_neg heq, if_neg hslug]
  have hversions := hdb.numbered_congr hdb' b.id rfl (fun _ _ => rfl) fun r hr => by
    have hmem : r ∈ db.entries := (Database.mem_entriesOf.mp hr).1
    exact ⟨f r, List.mem_map_of_mem hmem, hid r, (hkey r hmem).2⟩
  rw [Database.boardContents, hversions, hentries, hordered, hinputs]
  rfl

end Leaderboards
