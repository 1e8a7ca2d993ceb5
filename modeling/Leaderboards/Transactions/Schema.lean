import Leaderboards.Store.Sql

/-!
# What the schema guarantees

`Database.Schema` collects the primary keys, the `UNIQUE`, foreign key and `CHECK` constraints of
the tables, and three facts the schema does not enforce but the service maintains: a placement
never joins an entry and a version of different boards, nor a score an entry of another board, nor
does a reference pin a version of another board.
-/

namespace Leaderboards

/-- The constraints on a whole database. -/
structure Database.Schema (db : Database) : Prop where
  board_id : (db.boards.map Board.id).Nodup
  board_slug : (db.boards.map Board.slug).Nodup
  board_checks : ∀ b ∈ db.boards, b.checks
  entry_id : (db.entries.map Entry.id).Nodup
  entry_key : (db.entries.map fun e => (e.boardId, e.slug)).Nodup
  entry_board : ∀ e ∈ db.entries, ∃ b ∈ db.boards, b.id = e.boardId
  version_id : (db.versions.map Version.id).Nodup
  version_key : (db.versions.map fun v => (v.boardId, v.versionNumber)).Nodup
  version_pos : ∀ v ∈ db.versions, 0 < v.versionNumber
  version_board : ∀ v ∈ db.versions, ∃ b ∈ db.boards, b.id = v.boardId
  placement_id : (db.placements.map Placement.id).Nodup
  placement_key : (db.placements.map fun p => (p.versionId, p.entryId)).Nodup
  placement_board : ∀ p ∈ db.placements, ∃ v ∈ db.versions, ∃ e ∈ db.entries,
    v.id = p.versionId ∧ e.id = p.entryId ∧ e.boardId = v.boardId
  score_key : (db.accumulatedScores.map fun s => (s.boardId, s.entryId)).Nodup
  score_board : ∀ s ∈ db.accumulatedScores, s.score.isFinite = true ∧
    ∃ e ∈ db.entries, e.id = s.entryId ∧ e.boardId = s.boardId
  reference_id : (db.references.map ReferenceRow.id).Nodup
  reference_board : ∀ r ∈ db.references, ∃ b ∈ db.boards, b.id = r.boardId
  reference_pin : ∀ r ∈ db.references, ∀ id, r.pinnedVersionId = some id →
    ∃ v ∈ db.versions, v.id = id ∧ v.boardId = r.boardId
  collection_id : (db.collections.map Collection.id).Nodup
  collection_slug : (db.collections.map Collection.slug).Nodup

namespace Database.Schema

variable {db : Database} (h : db.Schema)

include h

/-! ### Lookups by key -/

theorem board_inj {b b' : Board} (hb : b ∈ db.boards) (hb' : b' ∈ db.boards)
    (heq : b.id = b'.id) : b = b' := List.inj_on_of_nodup_map h.board_id hb hb' heq

theorem board_slug_inj {b b' : Board} (hb : b ∈ db.boards) (hb' : b' ∈ db.boards)
    (heq : b.slug = b'.slug) : b = b' := List.inj_on_of_nodup_map h.board_slug hb hb' heq

theorem entry_inj {e e' : Entry} (he : e ∈ db.entries) (he' : e' ∈ db.entries)
    (heq : e.id = e'.id) : e = e' := List.inj_on_of_nodup_map h.entry_id he he' heq

theorem entry_key_inj {e e' : Entry} (he : e ∈ db.entries) (he' : e' ∈ db.entries)
    (hb : e.boardId = e'.boardId) (hs : e.slug = e'.slug) : e = e' :=
  List.inj_on_of_nodup_map h.entry_key he he' (by simp [hb, hs])

theorem version_inj {v v' : Version} (hv : v ∈ db.versions) (hv' : v' ∈ db.versions)
    (heq : v.id = v'.id) : v = v' := List.inj_on_of_nodup_map h.version_id hv hv' heq

theorem placement_inj {p p' : Placement} (hp : p ∈ db.placements) (hp' : p' ∈ db.placements)
    (heq : p.id = p'.id) : p = p' := List.inj_on_of_nodup_map h.placement_id hp hp' heq

theorem placement_key_inj {p p' : Placement} (hp : p ∈ db.placements)
    (hp' : p' ∈ db.placements) (hv : p.versionId = p'.versionId) (he : p.entryId = p'.entryId) :
    p = p' := List.inj_on_of_nodup_map h.placement_key hp hp' (by simp [hv, he])

theorem collection_inj {c c' : Collection} (hc : c ∈ db.collections) (hc' : c' ∈ db.collections)
    (heq : c.id = c'.id) : c = c' := List.inj_on_of_nodup_map h.collection_id hc hc' heq

theorem board?_eq {b : Board} (hb : b ∈ db.boards) : db.board? b.id = some b := by
  rcases hfind : db.board? b.id with _ | b'
  · exact absurd rfl (Database.board?_eq_none.mp hfind b hb)
  · obtain ⟨hb', hid⟩ := Database.mem_of_board? hfind
    rw [h.board_inj hb' hb hid]

theorem boardBySlug?_eq {b : Board} (hb : b ∈ db.boards) : db.boardBySlug? b.slug = some b := by
  rcases hfind : db.boardBySlug? b.slug with _ | b'
  · exact absurd rfl (Database.boardBySlug?_eq_none.mp hfind b hb)
  · obtain ⟨hb', hslug⟩ := Database.mem_of_boardBySlug? hfind
    rw [h.board_slug_inj hb' hb hslug]

theorem entryById?_eq {e : Entry} (he : e ∈ db.entries) : db.entryById? e.id = some e := by
  rcases hfind : db.entryById? e.id with _ | e'
  · exact absurd rfl (Database.entryById?_eq_none.mp hfind e he)
  · obtain ⟨he', hid⟩ := Database.mem_of_entryById? hfind
    rw [h.entry_inj he' he hid]

theorem entryBySlug?_eq {e : Entry} (he : e ∈ db.entries) :
    db.entryBySlug? e.boardId e.slug = some e := by
  rcases hfind : db.entryBySlug? e.boardId e.slug with _ | e'
  · exact absurd ⟨rfl, rfl⟩ (Database.entryBySlug?_eq_none.mp hfind e he)
  · obtain ⟨he', hboard, hslug⟩ := Database.mem_of_entryBySlug? hfind
    rw [h.entry_key_inj he' he hboard hslug]

theorem version?_eq {v : Version} (hv : v ∈ db.versions) : db.version? v.id = some v := by
  rcases hfind : db.version? v.id with _ | v'
  · exact absurd rfl (Database.version?_eq_none.mp hfind v hv)
  · obtain ⟨hv', hid⟩ := Database.mem_of_version? hfind
    rw [h.version_inj hv' hv hid]

/-! ### Placements joined with their entries -/

/-- The entry of a placement, which is on the board of its version. -/
theorem entry_of_placement {v : Version} (hv : v ∈ db.versions) {p : Placement}
    (hp : p ∈ db.placementsOf v.id) :
    ∃ e ∈ db.entries, e.id = p.entryId ∧ e.boardId = v.boardId ∧
      db.entryById? p.entryId = some e := by
  obtain ⟨hmem, hpv⟩ := Database.mem_placementsOf.mp hp
  obtain ⟨r, hr, e, he, hrid, heid, hboard⟩ := h.placement_board p hmem
  have hrv : r = v := h.version_inj hr hv (hrid.trans hpv)
  exact ⟨e, he, heid, hrv ▸ hboard, heid ▸ h.entryById?_eq he⟩

/-- The number of a version finds it among those of its board. -/
theorem find_versionNumber {v : Version} (hv : v ∈ db.versions) :
    (db.versionsOf v.boardId).find? (fun w => w.versionNumber = v.versionNumber) = some v := by
  rcases hfind : (db.versionsOf v.boardId).find? (fun w => w.versionNumber = v.versionNumber)
    with _ | w
  · have hnone := List.find?_eq_none.mp hfind v (Database.mem_versionsOf.mpr ⟨hv, rfl⟩)
    simp at hnone
  · obtain ⟨hw, hboard⟩ := Database.mem_versionsOf.mp (List.mem_of_find?_eq_some hfind)
    have hnumber : w.versionNumber = v.versionNumber := by simpa using List.find?_some hfind
    have heq : w = v := List.inj_on_of_nodup_map h.version_key hw hv (by simp [hboard, hnumber])
    rw [hfind, heq]

/-- A row of the join is a placement of the version together with its entry. -/
theorem mem_placementRows {v : Version} (hv : v ∈ db.versions) {r : PlacementWithEntry} :
    r ∈ db.placementRows v.id ↔ ∃ p ∈ db.placementsOf v.id, ∃ e ∈ db.entries,
      e.id = p.entryId ∧ e.boardId = v.boardId ∧ r = p.joined e := by
  simp only [Database.placementRows, List.mem_filterMap]
  constructor
  · rintro ⟨p, hp, hr⟩
    obtain ⟨e, he, heid, hboard, hfind⟩ := h.entry_of_placement hv hp
    rw [Database.withEntry, hfind, Option.map_some, Option.some.injEq] at hr
    exact ⟨p, hp, e, he, heid, hboard, hr.symm⟩
  · rintro ⟨p, hp, e, he, heid, -, rfl⟩
    have hfind : db.entryById? p.entryId = some e := heid ▸ h.entryById?_eq he
    refine ⟨p, hp, ?_⟩
    rw [Database.withEntry, hfind, Option.map_some]

/-- The join loses no placement: what it shows of the placements is what they hold. -/
theorem placementRows_map {β : Type} {v : Version} (hv : v ∈ db.versions)
    {f : PlacementWithEntry → β} {g : Placement → β} (hfg : ∀ p e, f (Placement.joined p e) = g p) :
    (db.placementRows v.id).map f = (db.placementsOf v.id).map g := by
  rw [Database.placementRows, List.map_filterMap, ← List.filterMap_eq_map]
  refine List.filterMap_congr fun p hp => ?_
  obtain ⟨e, -, -, -, hfind⟩ := h.entry_of_placement hv hp
  rw [Database.withEntry, hfind, Option.map_some, Option.map_some, hfg]
  rfl

/-- The entries of a version are pairwise different. -/
theorem entryIds_nodup (versionId : Uuid) :
    ((db.placementsOf versionId).map Placement.entryId).Nodup := by
  have hsub : ((db.placementsOf versionId).map fun p => (p.versionId, p.entryId)).Nodup :=
    h.placement_key.sublist (List.filter_sublist.map _)
  have hcongr : (db.placementsOf versionId).map (fun p => (p.versionId, p.entryId)) =
      ((db.placementsOf versionId).map Placement.entryId).map fun e => (versionId, e) := by
    rw [List.map_map]
    exact List.map_congr_left fun p hp => by simp [(Database.mem_placementsOf.mp hp).2]
  rw [hcongr] at hsub
  exact hsub.of_map _

/-- The slugs that a version shows are pairwise different. -/
theorem entrySlugs_nodup {v : Version} (hv : v ∈ db.versions) :
    ((db.placementRows v.id).map PlacementWithEntry.entrySlug).Nodup := by
  have hids : ((db.placementRows v.id).map PlacementWithEntry.entryId).Nodup := by
    rw [h.placementRows_map hv fun _ _ => rfl]
    exact h.entryIds_nodup v.id
  refine (hids.of_map _).map_on fun r hr r' hr' hslug => ?_
  refine List.inj_on_of_nodup_map hids hr hr' ?_
  obtain ⟨p, -, e, he, heid, hboard, rfl⟩ := (h.mem_placementRows hv).mp hr
  obtain ⟨p', -, e', he', heid', hboard', rfl⟩ := (h.mem_placementRows hv).mp hr'
  have hee : e = e' := h.entry_key_inj he he' (hboard.trans hboard'.symm) hslug
  change p.entryId = p'.entryId
  rw [← heid, ← heid', hee]

end Database.Schema

/-- The empty database satisfies the schema. -/
theorem Database.schema_empty (collation : Collation) : ({ collation } : Database).Schema where
  board_id := by simp
  board_slug := by simp
  board_checks := by simp
  entry_id := by simp
  entry_key := by simp
  entry_board := by simp
  version_id := by simp
  version_key := by simp
  version_pos := by simp
  version_board := by simp
  placement_id := by simp
  placement_key := by simp
  placement_board := by simp
  score_key := by simp
  score_board := by simp
  reference_id := by simp
  reference_board := by simp
  reference_pin := by simp
  collection_id := by simp
  collection_slug := by simp

end Leaderboards
