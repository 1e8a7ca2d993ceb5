import Leaderboards.Transactions.SingleClient

/-!
# Committed versions never change

Placements are only inserted into, and ranked in, versions that are not committed yet; an entry
with placements is not deleted; and a deleted board takes only its own versions along. So each
legal row write keeps every committed version of a board that stays
(`Legal.keeps_version`). By induction over the writes of a commit and over the steps of a run,
the version keeps its row, its placements and what they show (`version_immutable`).
-/

namespace Leaderboards

open Interaction

/-- What a placement shows to the readers of a version. -/
structure PlacementContent where
  entrySlug : String
  position : Option ℤ
  score : Option F64
  tier : Option String
  metadata : Option Json
deriving DecidableEq

/-- The part of a joined row that belongs to the version. -/
def PlacementWithEntry.content (p : PlacementWithEntry) : PlacementContent where
  entrySlug := p.entrySlug
  position := p.position
  score := p.score
  tier := p.tier
  metadata := p.metadata

/-- The placements of a version as its readers see them. -/
def Database.contents (db : Database) (versionId : Uuid) : List PlacementContent :=
  (db.placementRows versionId).map PlacementWithEntry.content

variable {P : Policy} {faulty : Prop} {s s' : Server} {L : List Lock} {db db' : Database}
  {v : Version}

/-- Two states of the tables hold the same version `v`. -/
structure SameVersion (v : Version) (db db' : Database) : Prop where
  row : v ∈ db'.versions
  placements : db'.placementsOf v.id = db.placementsOf v.id
  contents : db'.contents v.id = db.contents v.id

theorem SameVersion.refl (hv : v ∈ db.versions) : SameVersion v db db := ⟨hv, rfl, rfl⟩

theorem SameVersion.trans {db'' : Database} (h : SameVersion v db db')
    (h' : SameVersion v db' db'') : SameVersion v db db'' :=
  ⟨h'.row, h'.placements.trans h.placements, h'.contents.trans h.contents⟩

/-- A version shows the same when its placements and the slugs of their entries are the same. -/
theorem contents_congr (hdb : db.Schema) (hdb' : db'.Schema) {versionId : Uuid}
    (hplacements : db'.placementsOf versionId = db.placementsOf versionId)
    (hslugs : ∀ p ∈ db.placementsOf versionId, ∀ e ∈ db.entries, e.id = p.entryId →
      ∃ e' ∈ db'.entries, e'.id = e.id ∧ e'.slug = e.slug) :
    db'.contents versionId = db.contents versionId := by
  simp only [Database.contents, Database.placementRows, hplacements, List.map_filterMap]
  refine List.filterMap_congr fun p hp => ?_
  obtain ⟨-, -, e, he, -, hid, -⟩ := hdb.placement_board p (Database.mem_placementsOf.mp hp).1
  obtain ⟨e', he', hid', hslug⟩ := hslugs p hp e he hid
  have hfind : db.entryById? p.entryId = some e := hid ▸ hdb.entryById?_eq he
  have hfind' : db'.entryById? p.entryId = some e' := (hid'.trans hid) ▸ hdb'.entryById?_eq he'
  simp [Database.withEntry, hfind, hfind', PlacementWithEntry.content, hslug]

/-! ### One write -/

/-- The placements of a committed version after a legal write. -/
theorem Legal.keeps_placements {w : RowWrite} (h : Legal P s L w db) (hdb : db.Schema)
    (hv : v ∈ db.versions) (hold : v ∈ s.db.versions)
    (hboard : ∀ id, w = .removeBoard id → id ≠ v.boardId) :
    (w.apply db).placementsOf v.id = db.placementsOf v.id := by
  have hfilter : ∀ c : Placement → Bool, (∀ p ∈ db.placementsOf v.id, c p = true) →
      (db.placements.filter c).filter (fun p => p.versionId = v.id) = db.placementsOf v.id := by
    intro c hc
    rw [List.filter_comm]
    exact List.filter_eq_self.mpr hc
  -- Placements are added to and ranked in uncommitted versions only, and an entry that is removed
  -- has none; so only the removal of the board could take some away.
  cases w with
  | addPlacement p =>
    obtain ⟨-, -, -, huncommitted, -⟩ := h
    rw [RowWrite.apply, placementsOf_addPlacement, if_neg fun heq => huncommitted v hold heq.symm,
      List.append_nil]
  | setPositions ranked =>
    have hfix : ∀ p ∈ db.placementsOf v.id, Database.withPosition ranked p = p := by
      intro p hp
      obtain ⟨hp, hpv⟩ := Database.mem_placementsOf.mp hp
      refine Database.withPosition_of_forall_ne fun r hr hid => ?_
      obtain ⟨q, hq, hqid, huncommitted, -⟩ := h r hr
      have hqp : q = p := hdb.placement_inj hq hp (hqid.trans hid)
      exact huncommitted v hold (by rw [hqp, hpv])
    rw [RowWrite.apply, Database.placementsOf_setPositions, List.map_congr_left hfix, List.map_id']
  | removeEntry id =>
    obtain ⟨hunplaced, -⟩ := h
    refine hfilter _ fun p hp => ?_
    simpa using hunplaced p (Database.mem_placementsOf.mp hp).1
  | removeBoard id =>
    refine hfilter _ fun p hp => ?_
    obtain ⟨hp, hpv⟩ := Database.mem_placementsOf.mp hp
    obtain ⟨r, hr, e, he, hrid, heid, hre⟩ := hdb.placement_board p hp
    have hrv : r = v := hdb.version_inj hr hv (hrid.trans hpv)
    have hversion : ¬db.ownsVersion id p.versionId = true := fun howns => by
      obtain ⟨r', hr', hid, hb⟩ := Database.ownsVersion_iff.mp howns
      rw [hdb.version_inj hr' hv (hid.trans hpv)] at hb
      exact hboard id rfl hb.symm
    have hentry : ¬db.ownsEntry id p.entryId = true := fun howns => by
      obtain ⟨e', he', hid, hb⟩ := Database.ownsEntry_iff.mp howns
      rw [hdb.entry_inj he' he (hid.trans heid.symm), hre, hrv] at hb
      exact hboard id rfl hb.symm
    simp [hversion, hentry]
  | _ => rfl

/-- The slugs of the entries that a committed version places, after a legal write. -/
theorem Legal.keeps_slugs {w : RowWrite} (h : Legal P s L w db) (hdb : db.Schema)
    (hv : v ∈ db.versions) (hboard : ∀ id, w = .removeBoard id → id ≠ v.boardId) {p : Placement}
    (hp : p ∈ db.placementsOf v.id) {e : Entry} (he : e ∈ db.entries) (hid : e.id = p.entryId) :
    ∃ e' ∈ (w.apply db).entries, e'.id = e.id ∧ e'.slug = e.slug := by
  cases w with
  | addEntry x => exact ⟨e, List.mem_append_left _ he, rfl, rfl⟩
  | setEntry x =>
    obtain ⟨⟨r, hr, hrid, -, hrslug⟩, -⟩ := h
    by_cases heq : e.id = x.id
    · refine ⟨x, Database.mem_setEntry_entries.mpr (.inr ⟨rfl, e, he, heq⟩), heq.symm, ?_⟩
      rw [hdb.entry_inj he hr (heq.trans hrid.symm), hrslug]
    · exact ⟨e, Database.mem_setEntry_entries.mpr (.inl ⟨he, heq⟩), rfl, rfl⟩
  | removeEntry id =>
    obtain ⟨hunplaced, -⟩ := h
    refine ⟨e, List.mem_filter.mpr ⟨he, ?_⟩, rfl, rfl⟩
    simpa [hid] using hunplaced p (Database.mem_placementsOf.mp hp).1
  | removeBoard id =>
    refine ⟨e, List.mem_filter.mpr ⟨he, ?_⟩, rfl, rfl⟩
    obtain ⟨hp, hpv⟩ := Database.mem_placementsOf.mp hp
    obtain ⟨r, hr, e', he', hrid, heid, hre⟩ := hdb.placement_board p hp
    rw [hdb.entry_inj he he' (hid.trans heid.symm), hre,
      hdb.version_inj hr hv (hrid.trans hpv)]
    simpa using (hboard id rfl).symm
  | _ => exact ⟨e, he, rfl, rfl⟩

/-- **A legal write keeps every committed version of a board that stays.** -/
theorem Legal.keeps_version {w : RowWrite} (h : Legal P s L w db) (hdb : db.Schema)
    (hv : v ∈ db.versions) (hold : v ∈ s.db.versions)
    (hboard : ∀ id, w = .removeBoard id → id ≠ v.boardId) : SameVersion v db (w.apply db) where
  row := by
    cases w with
    | addVersion r => exact List.mem_append_left _ hv
    | removeBoard id =>
      exact List.mem_filter.mpr ⟨hv, by simpa using (hboard id rfl).symm⟩
    | _ => exact hv
  placements := h.keeps_placements hdb hv hold hboard
  contents := contents_congr hdb (h.schema hdb) (h.keeps_placements hdb hv hold hboard)
    fun _ hp _ he hid => h.keeps_slugs hdb hv hboard hp he hid

/-! ### Commits and runs -/

/-- The writes of a commit. When the board is there at the end, no write removed it: a removal
is the last write. -/
theorem LegalSeq.keeps_version {ws : List RowWrite} (h : LegalSeq P s L ws db) (hdb : db.Schema)
    (hv : v ∈ db.versions) (hold : v ∈ s.db.versions)
    (hboard : ∃ b ∈ (db.applyAll ws).boards, b.id = v.boardId) :
    SameVersion v db (db.applyAll ws) := by
  induction ws generalizing db with
  | nil => exact SameVersion.refl hv
  | cons w ws ih =>
    have hkeep : SameVersion v db (w.apply db) := by
      refine h.1.keeps_version hdb hv hold ?_
      rintro id rfl rfl
      rw [h.2.1 trivial] at hboard
      obtain ⟨b, hb, hid⟩ := hboard
      have hne := (List.mem_filter.mp hb).2
      simp [hid] at hne
    exact hkeep.trans (ih h.2.2 (h.1.schema hdb) hkeep.row hboard)

/-- One step of any handler. -/
theorem System.Reachable.step_keeps_version {g g' : System faulty} (hg : System.Reachable P g)
    (hstep : System.Step P g g') (hv : v ∈ g.servers.db.versions)
    (hboard : ∃ b ∈ g'.servers.db.boards, b.id = v.boardId) :
    SameVersion v g.servers.db g'.servers.db := by
  rcases hg.step_commits hstep with hsame | ⟨L, ws, hlegal, -, hdb, -⟩
  · rw [hsame.1]
    exact SameVersion.refl hv
  · rw [hdb] at hboard ⊢
    exact hlegal.keeps_version hg.inv.schema hv hv hboard

/-- **Version immutability.** A committed version of a board keeps its row (number, note,
metadata) and its placements, with what they show, over every run of requests at whose end the
board still exists: ids are not used twice, so nothing deleted the board on the way. -/
theorem version_immutable {g g' : System faulty} (hg : System.Reachable P g)
    (hv : v ∈ g.servers.db.versions) (hrun : System.Steps P g g')
    (hboard : ∃ b ∈ g'.servers.db.boards, b.id = v.boardId) :
    v ∈ g'.servers.db.versions ∧
      g'.servers.db.placementsOf v.id = g.servers.db.placementsOf v.id ∧
      g'.servers.db.contents v.id = g.servers.db.contents v.id := by
  suffices h : SameVersion v g.servers.db g'.servers.db from ⟨h.row, h.placements, h.contents⟩
  induction hrun with
  | refl => exact SameVersion.refl hv
  | @tail g₁ g₂ hrun hstep ih =>
    have hg₁ : System.Reachable P g₁ := hg.trans hrun
    obtain ⟨b, hb, hid⟩ := hboard
    obtain ⟨r₀, hr₀, hrid₀⟩ := hg.inv.schema.version_board v hv
    have hused : b.id ∈ g₁.servers.usedBoards := by
      rw [hid, ← hrid₀]
      exact (hg.rely hrun).board_used _ (hg.inv.board_used r₀ hr₀)
    obtain ⟨r, hr, hkey⟩ := (hg₁.rely (.single hstep)).board_reused b hb hused
    have hkeep := ih ⟨r, hr, hkey.1.trans hid⟩
    exact hkeep.trans (hg₁.step_keeps_version hstep hkeep.row ⟨b, hb, hid⟩)

/-- A scored board with two entries and one version. -/
def scoredRequests : List Request :=
  [.createBoard { slug := "b", name := "B", boardType := "scored" },
    .createEntry "b" { slug := "e", name := "E" }, .createEntry "b" { slug := "f", name := "F" },
    .createVersion {} "b" { placements := [{ entrySlug := "e", score := some ⟨1⟩ },
      { entrySlug := "f", score := some ⟨2⟩ }] }]

/-- Requests that would disturb a version: the deletion of a placed entry, new names, the other
direction, a second version. -/
def laterRequests : List Request :=
  [.deleteEntry "b" "e", .updateEntry "b" "f" { name := some "G" },
    .updateBoard "b" { sortDirection := some "asc" },
    .createVersion {} "b" { placements := [{ entrySlug := "e", score := some ⟨2⟩ }] }]

set_option maxRecDepth 10000 in
/-- A run in which the first version is committed and keeps its two placements. -/
theorem version_immutable_run : ∃ (g g' : System False) (v : Version),
    v ∈ g.servers.db.versions ∧ (g.servers.db.placementsOf v.id).length = 2 ∧
      g'.servers.db.versions.length = 2 ∧ v ∈ g'.servers.db.versions ∧
      g'.servers.db.placementsOf v.id = g.servers.db.placementsOf v.id ∧
      g'.servers.db.contents v.id = g.servers.db.contents v.id := by
  obtain ⟨g, hg, hrest⟩ := reachable_serveAll (P := {}) counting False scoredRequests
    fun r _ => r.respects_default
  obtain ⟨g', hrun, hrest'⟩ := hrest.serveAll laterRequests
    (fun r _ => r.respects_default) hg
  have hv : (⟨10, 1, 1, none, none, 6⟩ : Version) ∈ g.servers.db.versions := by
    rw [hrest.servers]
    decide
  have hboard : ∃ b ∈ g'.servers.db.boards, b.id = 1 := by
    rw [hrest'.servers]
    decide
  refine ⟨g, g', ⟨10, 1, 1, none, none, 6⟩, hv, ?_, ?_, version_immutable hg hv hrun hboard⟩
  · rw [hrest.servers]
    decide
  · rw [hrest'.servers]
    decide

end Leaderboards
