import Leaderboards.Contents.Versions
import Leaderboards.Transactions.Syncing

/-!
# The repository calls on the contents

What the repository functions that a sync calls do to the contents of the board, when they run
alone: an operation of `Contents` (`ends_createEntry_holds`, `ends_updateEntry_holds`,
`ends_createVersion_holds`). The rows of all other boards stay as they are. The ids of a client
come from a generator whose ids grow (`World.Rested`), so that a new entry comes last.
-/

namespace Leaderboards

open Interaction Ranking

variable {env : Supply} {w w' : World} {db db₀ : Database} {b : Board} {c : Contents}

/-! ### The state between two calls -/

/-- The ids of all rows lie below an id. -/
structure Database.Below (db : Database) (u : Uuid) : Prop where
  boards : ∀ r ∈ db.boards, r.id < u
  entries : ∀ r ∈ db.entries, r.id < u
  versions : ∀ r ∈ db.versions, r.id < u
  placements : ∀ r ∈ db.placements, r.id < u

theorem Database.Below.mono {u u' : Uuid} (h : db.Below u) (hle : u ≤ u') : db.Below u' where
  boards r hr := (h.boards r hr).trans_le hle
  entries r hr := (h.entries r hr).trans_le hle
  versions r hr := (h.versions r hr).trans_le hle
  placements r hr := (h.placements r hr).trans_le hle

/-- Between two calls, with a generator of growing ids. -/
structure World.Rested (env : Supply) (w : World) : Prop where
  session : w.session = none
  schema : w.server.db.Schema
  ascending : StrictMono env.uuid
  below : w.server.db.Below (env.uuid w.tick)

namespace World.Rested

theorem lt_uuid (h : w.Rested env) {n : ℕ} (hn : w.tick ≤ n) {id : Uuid}
    (hid : id < env.uuid w.tick) : id < env.uuid n := hid.trans_le (h.ascending.monotone hn)

/-- The ids to come belong to no row. -/
theorem unused (h : w.Rested env) {n : ℕ} (hn : w.tick ≤ n) : w.server.db.Unused (env.uuid n) where
  versions r hr := (h.lt_uuid hn (h.below.versions r hr)).ne
  placements r hr := (h.lt_uuid hn (h.below.placements r hr)).ne

/-- A call that saves nothing. -/
theorem nothing (h : w.Rested env) (hsaves : w.Saves w' []) : w'.Rested env where
  session := hsaves.session
  schema := by
    rw [hsaves.db]
    exact h.schema
  ascending := h.ascending
  below := by
    rw [hsaves.db]
    exact h.below.mono (h.ascending.monotone hsaves.tick)

end World.Rested

/-- The empty tables, before the first call. -/
theorem World.rested_initial (henv : StrictMono env.uuid) : World.Rested env {} where
  session := rfl
  schema := Database.schema_empty _
  ascending := henv
  below := by constructor <;> exact fun r hr => absurd hr List.not_mem_nil

/-- Between two calls of a sync: the row of the board and its contents, while the rows of the other
boards are as they were. -/
structure World.Holds (env : Supply) (db₀ : Database) (b : Board) (c : Contents) (w : World) :
    Prop where
  rested : w.Rested env
  mem : b ∈ w.server.db.boards
  contents : w.server.db.boardContents b = c
  elsewhere : Elsewhere b.id db₀ w.server.db

namespace World.Holds

theorem board (h : w.Holds env db₀ b c) : c.board = b.input := by
  rw [← h.contents]
  rfl

/-- A call that saves nothing. -/
theorem nothing (h : w.Holds env db₀ b c) (hsaves : w.Saves w' []) : w'.Holds env db₀ b c := by
  have hdb : w'.server.db = w.server.db := hsaves.db
  exact ⟨h.rested.nothing hsaves, hdb ▸ h.mem, hdb ▸ h.contents, hdb ▸ h.elsewhere⟩

/-- The entry with a slug among the contents. -/
theorem any_entries (h : w.Holds env db₀ b c) (slug : String) :
    c.entries.any (fun e => e.slug = slug) = (w.server.db.entryBySlug? b.id slug).isSome := by
  rw [← h.contents, Database.boardContents_entries, List.any_map, Bool.eq_iff_iff, List.any_eq_true]
  constructor
  · rintro ⟨e, he, hslug⟩
    obtain ⟨hmem, hboard⟩ := Database.mem_entriesOf.mp ((mem_orderBy _).mp he)
    have hslug' : e.slug = slug := of_decide_eq_true hslug
    rw [← hboard, ← hslug', h.rested.schema.entryBySlug?_eq hmem]
    rfl
  · intro hsome
    obtain ⟨e, he⟩ := Option.isSome_iff_exists.mp hsome
    obtain ⟨hmem, hboard, hslug⟩ := Database.mem_of_entryBySlug? he
    have hmem' := (mem_orderBy Entry.id).mpr (Database.mem_entriesOf.mpr ⟨hmem, hboard⟩)
    exact ⟨e, hmem', decide_eq_true hslug⟩

end World.Holds

/-! ### Entries -/

/-- A call that saves a new entry of the board. -/
theorem World.Holds.addEntry (h : w.Holds env db₀ b c) {e : Entry} {input : CreateEntry}
    (hid : e.id = env.uuid w.tick) (hboard : e.boardId = b.id) (hinput : e.input = input)
    (hnew : w.server.db.entryBySlug? b.id input.slug = none) (hsaves : w.Saves w' [.addEntry e])
    (htick : w'.tick = w.tick + 1) :
    w'.Holds env db₀ b { c with entries := c.entries ++ [input] } := by
  have hslug : e.slug = input.slug := congrArg CreateEntry.slug hinput
  have hlast : ∀ r ∈ w.server.db.entries, r.id < e.id := hid ▸ h.rested.below.entries
  have hdb : w'.server.db = w.server.db.addEntry e := hsaves.db
  have hschema : (w.server.db.addEntry e).Schema := by
    refine h.rested.schema.addEntry (fun r hr => (hlast r hr).ne) ?_ ⟨b, h.mem, hboard.symm⟩
    rw [hboard, hslug]
    exact Database.entryBySlug?_eq_none.mp hnew
  have hlt : env.uuid w.tick < env.uuid w'.tick := h.rested.ascending (by omega)
  have hbelow := h.rested.below.mono hlt.le
  refine ⟨⟨hsaves.session, hdb ▸ hschema, h.rested.ascending, ?_⟩, ?_, ?_, ?_⟩
  · rw [hdb]
    refine ⟨hbelow.boards, fun r hr => ?_, hbelow.versions, hbelow.placements⟩
    rcases List.mem_append.mp hr with hr | hr
    · exact hbelow.entries r hr
    · obtain rfl := List.mem_singleton.mp hr
      exact hid ▸ hlt
  · rw [hdb]
    exact h.mem
  · rw [hdb, contents_addEntry h.rested.schema hschema hboard hlast, h.contents, hinput]
  · rw [hdb]
    exact h.elsewhere.trans (hboard ▸ elsewhere_addEntry)

/-- A call that saves other values in an entry of the board. -/
theorem World.Holds.setEntry (h : w.Holds env db₀ b c) {e : Entry} {slug : String}
    {input : UpdateEntry} {now : Timestamp} (he : w.server.db.entryBySlug? b.id slug = some e)
    (hsaves : w.Saves w' [.setEntry (input.patch now e)]) :
    w'.Holds env db₀ b { c with entries := Contents.patchEntries slug input c.entries } := by
  obtain ⟨hmem, hboard, hslug⟩ := Database.mem_of_entryBySlug? he
  have hdb : w'.server.db = w.server.db.setEntry (input.patch now e) := hsaves.db
  have hschema : (w.server.db.setEntry (input.patch now e)).Schema :=
    h.rested.schema.setEntry ⟨e, hmem, rfl, rfl, rfl⟩
  have hbelow := h.rested.below.mono (h.rested.ascending.monotone hsaves.tick)
  refine ⟨⟨hsaves.session, hdb ▸ hschema, h.rested.ascending, ?_⟩, ?_, ?_, ?_⟩
  · rw [hdb]
    refine ⟨hbelow.boards, fun r hr => ?_, hbelow.versions, hbelow.placements⟩
    rcases Database.mem_setEntry_entries.mp hr with ⟨hr, -⟩ | ⟨rfl, -⟩
    · exact hbelow.entries r hr
    · exact hbelow.entries e hmem
  · rw [hdb]
    exact h.mem
  · rw [hdb, contents_setEntry h.rested.schema hschema hmem hboard, h.contents, hslug]
  · have hsame : ∀ r ∈ w.server.db.entries, r.id = (input.patch now e).id →
        r.boardId = (input.patch now e).boardId := by
      intro r hr hid
      rw [h.rested.schema.entry_inj hr hmem hid]
      rfl
    have hother : Elsewhere e.boardId w.server.db (w.server.db.setEntry (input.patch now e)) :=
      elsewhere_setEntry hsame
    rw [hdb]
    exact h.elsewhere.trans (hboard ▸ hother)

/-- **`entries::create`** on the contents. -/
theorem ends_createEntry_holds (h : w.Holds env db₀ b c) (input : CreateEntry) :
    (Entries.create b.id input).Ends env (Prog.outcome
      (fun _ w' => ∃ c', c.createEntry input = .ok c' ∧ w'.Holds env db₀ b c')
      fun e w' => c.createEntry input = .error e ∧ w'.Holds env db₀ b c) w := by
  have hany := h.any_entries input.slug
  refine ends_createEntry h.rested.session (fun e he => ?_) (fun e hslug hname he w₁ h₁ => ?_)
    fun e hslug hname he w₁ h₁ htick => ?_
  · refine ⟨?_, h⟩
    rw [Contents.createEntry]
    rcases he with he | ⟨hslug, he⟩
    · rw [he]
      rfl
    · rw [hslug, he]
      rfl
  · -- The id is new and the board is there, so the slug is taken.
    have hid : w.server.db.entryById? (env.uuid w.tick) = none :=
      Database.entryById?_eq_none.mpr fun r hr => (h.rested.below.entries r hr).ne
    have hboard : w.server.db.board? b.id = some b := h.rested.schema.board?_eq h.mem
    rcases hrow : w.server.db.entryBySlug? b.id input.slug with _ | r
    · simp [execInsertEntry, hid, hrow, hboard] at he
    · obtain rfl : DbError.uniqueViolation = e := by
        simpa [execInsertEntry, hid, hrow] using he
      refine ⟨?_, h.nothing h₁⟩
      rw [hrow, Option.isSome_some] at hany
      rw [Contents.createEntry, hslug, hname, hany]
      rfl
  · obtain ⟨-, -, hkey, -, hrow⟩ := execInsertEntry_ok he
    have hnone : w.server.db.entryBySlug? b.id input.slug = none :=
      Database.entryBySlug?_eq_none.mpr hkey
    refine ⟨{ c with entries := c.entries ++ [input] }, ?_, ?_⟩
    · rw [hnone, Option.isSome_none] at hany
      rw [Contents.createEntry, hslug, hname, hany]
      rfl
    · refine h.addEntry (e := e) ?_ ?_ ?_ hnone h₁ htick <;> rw [hrow]
      rfl

/-- **`entries::update`** on the contents. -/
theorem ends_updateEntry_holds (h : w.Holds env db₀ b c) (slug : String) (input : UpdateEntry) :
    (Entries.update b.id slug input).Ends env (Prog.outcome
      (fun _ w' => ∃ c', c.updateEntry slug input = .ok c' ∧ w'.Holds env db₀ b c')
      fun e w' => c.updateEntry slug input = .error e ∧ w'.Holds env db₀ b c) w := by
  have hany := h.any_entries slug
  -- A name that is given has passed its check; then the slug decides.
  have hchecked : (∀ name, input.name = some name → validateName name = .ok ()) →
      c.updateEntry slug input = if c.entries.any (fun e => e.slug = slug) then
        .ok { c with entries := Contents.patchEntries slug input c.entries }
      else .error (.notFound s!"entry '{slug}' not found") := by
    intro hname
    rw [Contents.updateEntry]
    rcases hinput : input.name with _ | name
    · rfl
    · dsimp only
      rw [hname name hinput]
      rfl
  refine ends_updateEntry h.rested.schema.entry_id (fun name e hname he => ?_)
    (fun hname hmissing w₁ h₁ => ?_) fun e now hname he w₁ h₁ => ?_
  · refine ⟨?_, h⟩
    rw [Contents.updateEntry, hname]
    dsimp only
    rw [he]
    rfl
  · refine ⟨?_, h.nothing h₁⟩
    rw [hmissing, Option.isSome_none] at hany
    rw [hchecked hname, hany]
    rfl
  · refine ⟨_, ?_, h.setEntry he h₁⟩
    rw [he, Option.isSome_some] at hany
    rw [hchecked hname, hany]
    rfl

/-! ### Versions -/

/-- The check that the entries are there only looks at their slugs. -/
theorem checkEntriesFound_congr {board board' : Board} {l l' : List (Uuid × String × String)}
    (hboard : board.slug = board'.slug) (ps : List CreatePlacement)
    (h : ∀ p ∈ ps, l.any (fun e => e.2.1 = p.entrySlug) = l'.any fun e => e.2.1 = p.entrySlug) :
    Versions.checkEntriesFound board l ps = Versions.checkEntriesFound board' l' ps := by
  induction ps with
  | nil => rfl
  | cons p ps ih =>
    rw [Versions.checkEntriesFound, Versions.checkEntriesFound, h p List.mem_cons_self, hboard,
      ih fun q hq => h q (List.mem_cons_of_mem _ hq)]

/-- The rows that the slugs select, with and without ids. -/
theorem any_listed (db : Database) (b : Board) (slugs : List String) (slug : String) :
    (db.entriesNamed b.id slugs).any (fun e => e.2.1 = slug) =
      ((db.boardContents b).listed slugs).any fun e => e.2.1 = slug := by
  rw [Database.entriesNamed, Contents.listed, List.any_map, List.any_map, List.any_filter,
    List.any_filter, Database.boardContents_entries, List.any_map,
    (orderBy_perm Entry.id (db.entriesOf b.id)).any_eq]
  rfl

/-- **The checks of a version creation** are those of the contents. -/
theorem createVersion_boardContents (db : Database) (b : Board) (input : CreateVersion) :
    (db.boardContents b).createVersion input = (db.checkCreate b b input none).map fun _ =>
      ((db.boardContents b).nextNumber, { db.boardContents b with
        versions := (db.boardContents b).versions ++ [((db.boardContents b).nextNumber,
          { input with placements := (db.boardContents b).stored input.placements })] }) := by
  have hslug : b.slug = (db.boardContents b).row.slug := rfl
  have hfound := checkEntriesFound_congr hslug input.placements fun p _ =>
    any_listed db b (input.placements.map CreatePlacement.entrySlug) p.entrySlug
  have hnumber := nextNumber_boardContents db b
  have hvalid : Versions.validatePlacements (db.boardContents b).row input.placements =
      Versions.validatePlacements b input.placements := rfl
  have haccumulative : (db.boardContents b).board.accumulative = b.accumulative := rfl
  have htype : (db.boardContents b).board.boardType = b.boardType := rfl
  have htiers : (db.boardContents b).deriveScored input.placements =
      if input.placements.length ≤ 2147483647 then
        (Contents.tierOrds b.tierConfig (input.placements.map CreatePlacement.tier)).map
          fun _ => ()
      else .error .outOfRange := rfl
  -- Both sides now ask the same things in the same order: the checks are taken one by one.
  rw [Contents.createVersion, Contents.createBody, Database.checkCreate, Database.checkCreateBody,
    haccumulative, hvalid, htype, htiers, hfound, hnumber]
  by_cases hacc : b.accumulative = true
  · rw [if_pos hacc, if_pos hacc]
    rfl
  rw [if_neg hacc, if_neg hacc]
  rcases Versions.validatePlacements b input.placements with e | ⟨⟩
  · rfl
  by_cases hmax : 2147483647 < db.maxVersionNumber b.id + 1
  · simp only [if_pos hmax]
    rfl
  simp only [if_neg hmax]
  rcases Versions.checkEntriesFound (db.boardContents b).row
    ((db.boardContents b).listed (input.placements.map CreatePlacement.entrySlug))
      input.placements with e | ⟨⟩
  · rfl
  by_cases hscored : b.boardType = "scored"
  · simp only [if_pos hscored]
    split
    · rcases Contents.tierOrds b.tierConfig (input.placements.map CreatePlacement.tier)
        with e | ords
      · rfl
      · rfl
    · rfl
  · simp only [if_neg hscored]
    rfl

/-- **`versions::create`** on the contents. -/
theorem ends_createVersion_holds (h : w.Holds env db₀ b c) (input : CreateVersion) :
    (Versions.create b input none).Ends env (Prog.outcome
      (fun x w' => ∃ c', c.createVersion input = .ok (x.version.versionNumber, c') ∧
        w'.Holds env db₀ b c')
      fun e w' => c.createVersion input = .error e ∧ w'.Holds env db₀ b c) w := by
  have hdb := h.rested.schema
  have hcontents := createVersion_boardContents w.server.db b input
  rw [h.contents] at hcontents
  refine ends_createVersion h.rested.session hdb (hdb.board?_eq h.mem) (fun e w₁ he h₁ => ?_)
    fun v rows ps w₁ hchecked hcreated hids h₁ _ => ?_
  · rcases he with he | hclash
    · refine ⟨?_, h.nothing h₁⟩
      rw [hcontents, he]
      rfl
    · exact absurd (fun n hn => h.rested.unused hn) hclash
  have hslugs : (input.placements.map CreatePlacement.entrySlug).Nodup := by
    rw [Database.checkCreate] at hchecked
    split at hchecked
    · cases hchecked
    · obtain ⟨⟨⟩, hvalid, -⟩ := Prog.except_bind_ok.mp hchecked
      exact (Versions.validatePlacements_iff.mp hvalid).1
  have hnew : ∀ p ∈ rows, ∀ r ∈ w.server.db.placements, r.id ≠ p.id := by
    intro p hp r hr
    obtain ⟨n, hle, -, hid⟩ := hids.placements p hp
    exact hid ▸ (h.rested.unused hle).placements r hr
  have hdb' := hcreated.schema hdb hslugs hnew hids.nodup
  -- What is committed is the version and then the ranks, which change no id.
  have hafter : w₁.server.db = (w.server.db.withVersion v rows).applyAll
      (rankWrites (w.server.db.withVersion v rows) b v) := by
    rw [h₁.db, Database.applyAll_append, applyAll_versionWrites]
  have hlt : ∀ n, n < w₁.tick → env.uuid n < env.uuid w₁.tick := fun n hn => h.rested.ascending hn
  have hbelow := h.rested.below.mono (h.rested.ascending.monotone h₁.tick)
  refine ⟨_, ?_, ⟨h₁.session, hafter ▸ hdb'.rankWrites b v, h.rested.ascending, ?_⟩, ?_,
    hafter ▸ (boardContents_withVersion hdb hcreated hdb'), ?_⟩
  · rw [hcontents, hchecked, h.contents, ← h.contents, nextNumber_boardContents, hcreated.number]
    rfl
  · rw [hafter]
    refine ⟨fun r hr => ?_, fun r hr => ?_, fun r hr => ?_, fun r hr => ?_⟩
    · rw [rankWrites_boards] at hr
      exact hbelow.boards r hr
    · rw [rankWrites_entries] at hr
      exact hbelow.entries r hr
    · rw [rankWrites_versions] at hr
      rcases List.mem_append.mp hr with hr | hr
      · exact hbelow.versions r hr
      · obtain rfl := List.mem_singleton.mp hr
        obtain ⟨n, -, hn, hid⟩ := hids.version
        exact hid ▸ hlt n hn
    · -- The ranks keep the ids of the placements.
      have hplaced : ∃ p ∈ (w.server.db.withVersion v rows).placements, p.id = r.id := by
        unfold rankWrites at hr
        split at hr
        · obtain ⟨p, hp, rfl⟩ := List.mem_map.mp hr
          exact ⟨p, hp, (Database.withPosition_id _ p).symm⟩
        · exact ⟨r, hr, rfl⟩
      obtain ⟨p, hp, hid⟩ := hplaced
      rw [← hid]
      rcases List.mem_append.mp hp with hp | hp
      · exact hbelow.placements p hp
      · obtain ⟨n, -, hn, hid⟩ := hids.placements p hp
        exact hid ▸ hlt n hn
  · rw [hafter, rankWrites_boards]
    exact h.mem
  · rw [hafter]
    exact h.elsewhere.trans (elsewhere_withVersion hcreated hdb')

/-! ### The change detector -/

/-- A joined row without ids and names. -/
def PlacementWithEntry.bare (p : PlacementWithEntry) : PlacementWithEntry :=
  { p with id := 0, versionId := 0, entryId := 0, entryName := "" }

/-- The change detector looks at no ids and at no names. -/
theorem placementsChanged_bare (boardType : String) (current : List PlacementWithEntry)
    (proposed : List CreatePlacement) :
    Sync.placementsChanged boardType (current.map PlacementWithEntry.bare) proposed =
      Sync.placementsChanged boardType current proposed := by
  have hchanged : Sync.placementChanged boardType (current.map PlacementWithEntry.bare) =
      Sync.placementChanged boardType current := by
    funext x
    have hfind : (current.map PlacementWithEntry.bare).reverse.find?
        (fun c => c.entrySlug = x.1.entrySlug) =
          (current.reverse.find? fun c => c.entrySlug = x.1.entrySlug).map
            PlacementWithEntry.bare := by
      rw [← List.map_reverse, List.find?_map]
      rfl
    unfold Sync.placementChanged
    rw [hfind]
    generalize current.reverse.find? (fun c => c.entrySlug = x.1.entrySlug) = found
    cases found <;> rfl
  rw [Sync.placementsChanged, Sync.placementsChanged, hchanged, List.length_map]

/-- The change detector does not depend on the order of the current placements. -/
theorem placementsChanged_perm (boardType : String) {current current' : List PlacementWithEntry}
    (hslugs : (current.map PlacementWithEntry.entrySlug).Nodup) (h : current.Perm current')
    (proposed : List CreatePlacement) :
    Sync.placementsChanged boardType current proposed =
      Sync.placementsChanged boardType current' proposed := by
  have hchanged : Sync.placementChanged boardType current =
      Sync.placementChanged boardType current' := by
    funext x
    have hslugs' : (current.reverse.map PlacementWithEntry.entrySlug).Nodup := by
      rwa [List.map_reverse, List.nodup_reverse]
    have hperm : current.reverse.Perm current'.reverse :=
      (List.reverse_perm _).trans (h.trans (List.reverse_perm _).symm)
    unfold Sync.placementChanged
    rw [find?_perm hslugs' hperm]
  rw [Sync.placementsChanged, Sync.placementsChanged, hchanged, h.length_eq]

/-- The joined rows of a version, without ids and names, are its contents. -/
theorem bare_placementRows (hdb : db.Schema) {v : Version} (hv : v ∈ db.versions) :
    (db.placementRows v.id).map PlacementWithEntry.bare =
      (db.placed v.id).map CreatePlacement.joined := by
  rw [Database.placed, List.map_map, Database.placementRows, List.map_filterMap,
    ← List.filterMap_eq_map]
  refine List.filterMap_congr fun p hp => ?_
  obtain ⟨e, he, heid, -, hfind⟩ := hdb.entry_of_placement hv hp
  have hslug : db.slugOf p.entryId = e.slug := heid ▸ hdb.slugOf_eq he
  rw [Database.withEntry, hfind, Option.map_some, Option.map_some, Function.comp_apply,
    Function.comp_apply, hslug]
  rfl

/-- What `fetch_placements` reads is compared as the contents of the version are. -/
theorem fetchPlacements_boardContents (hdb : db.Schema) (hb : b ∈ db.boards) {v : Version}
    (hv : v ∈ db.versionsOf b.id) (proposed : List CreatePlacement) :
    ((fetchPlacements db v.id).map fun ps => Sync.placementsChanged b.boardType ps proposed) =
      (Contents.tierOrds b.tierConfig ((db.placed v.id).map CreatePlacement.tier)).map fun _ =>
        Sync.placementsChanged b.boardType ((db.placed v.id).map CreatePlacement.joined)
          proposed := by
  obtain ⟨hmem, hboard⟩ := Database.mem_versionsOf.mp hv
  have hbare := bare_placementRows hdb hmem
  have htiers : (db.placementRows v.id).map PlacementWithEntry.tier =
      (db.placed v.id).map CreatePlacement.tier := by
    have htiers' := congrArg (List.map PlacementWithEntry.tier) hbare
    rwa [List.map_map, List.map_map] at htiers'
  rw [fetchPlacements_eq hdb hmem hb hboard.symm, ← htiers, withTierOrd_eq]
  rcases hords : Contents.tierOrds b.tierConfig ((db.placementRows v.id).map
    PlacementWithEntry.tier) with e | ords
  · rfl
  have hlength : ords.length = (db.placementRows v.id).length := by
    rw [length_tierOrds hords, List.length_map]
  have hperm :
      ((orderBy (tierKey db.collation) (ords.zip (db.placementRows v.id))).map Prod.snd).Perm
      (db.placementRows v.id) := by
    have hzip :=
      (orderBy_perm (tierKey db.collation) (ords.zip (db.placementRows v.id))).map Prod.snd
    rwa [List.map_snd_zip hlength.ge] at hzip
  have hslugs := hdb.entrySlugs_nodup hmem
  have hsame := placementsChanged_perm b.boardType
    (((hperm.map PlacementWithEntry.entrySlug).nodup_iff).mpr hslugs) hperm proposed
  rw [← hbare, placementsChanged_bare]
  exact congrArg Except.ok hsame

/-- The version with the largest number. -/
theorem latest?_boardContents (db : Database) (b : Board) :
    (db.boardContents b).latest? = (db.latestVersion? b.id).map db.numbered := by
  rw [Contents.latest?, Database.boardContents_versions, orderBy_map, List.head?_map]
  rfl

/-- **The change detector** on the contents. -/
theorem ends_needsVersion_holds (h : w.Holds env db₀ b c) (placements : List CreatePlacement) :
    (Sync.needsVersion b placements).Ends env (Prog.outcome
      (fun needed w' => c.needsVersion placements = .ok needed ∧ w'.Holds env db₀ b c)
      fun e w' => c.needsVersion placements = .error e ∧ w'.Holds env db₀ b c) w := by
  have hlatest := latest?_boardContents w.server.db b
  rw [h.contents] at hlatest
  have htiers : c.board.tierConfig = b.tierConfig := congrArg CreateBoard.tierConfig h.board
  have htype : c.board.boardType = b.boardType := congrArg CreateBoard.boardType h.board
  refine Prog.ends_bind (Prog.ends_attempt (ends_getLatest h.rested.session ?_ ?_))
  · intro hnone w₁ h₁
    refine ⟨?_, h.nothing h₁⟩
    rw [hnone] at hlatest
    rw [Contents.needsVersion, hlatest]
    rfl
  · intro v hsome w₁ h₁
    have hv : v ∈ w.server.db.versionsOf b.id := (mem_orderBy _).mp (List.mem_of_head? hsome)
    have hplaced := fetchPlacements_boardContents h.rested.schema h.mem hv placements
    have hholds := h.nothing h₁
    rw [hsome, Option.map_some] at hlatest
    generalize hneeds : c.needsVersion placements = needed
    rw [Contents.needsVersion, hlatest, htiers, htype] at hneeds
    dsimp only [Database.numbered] at hneeds
    generalize Contents.tierOrds b.tierConfig ((w.server.db.placed v.id).map CreatePlacement.tier) =
      ords at hplaced hneeds
    generalize fetchPlacements w.server.db v.id = found at hplaced ⊢
    -- The tier lookups fail for both, or for neither.
    rcases ords with e | ords <;> rcases found with e' | ps
    · obtain rfl : e' = e := Except.error.inj hplaced
      exact ⟨hneeds.symm, hholds⟩
    · cases hplaced
    · cases hplaced
    · refine ⟨?_, hholds⟩
      rw [← hneeds]
      exact congrArg Except.ok (Except.ok.inj hplaced).symm

end Leaderboards
