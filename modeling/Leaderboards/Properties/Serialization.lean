import Leaderboards.Properties.ScoredRank

/-!
# Version creation against concurrent PATCHes

A handler that creates a version reads the board row before its transaction, and a PATCH may
commit in between. The row that counts is the one locked inside the transaction. No PATCH can
commit between that lock and the commit, so the version fits the row that the board has when the
version becomes visible (`created_under_current_row`): its placements pass `validate_placements`
for it, and on a scored board they are ranked under its direction.
-/

namespace Leaderboards

open Interaction Ranking

variable {P : Policy} {faulty : Prop} {db : Database} {v : Version}

/-- A placement of a version, as a request would state it. -/
def PlacementWithEntry.request (r : PlacementWithEntry) : CreatePlacement where
  entrySlug := r.entrySlug
  position := r.position
  score := r.score
  tier := r.tier
  metadata := r.metadata

/-- The placements of a version, as a request would state them. -/
def Database.requested (db : Database) (versionId : Uuid) : List CreatePlacement :=
  (db.placementRows versionId).map PlacementWithEntry.request

/-- **The placements of a version pass `validate_placements` exactly when their values follow the
rules of the board**: no entry is placed twice. -/
theorem Database.Schema.validatePlacements_requested (h : db.Schema) (hv : v ∈ db.versions)
    {b : Board} : Versions.validatePlacements b (db.requested v.id) = .ok () ↔
      Versions.Valid b.boardType b.tierConfig ((db.placementsOf v.id).map Placement.values) := by
  have hslugs : ((db.requested v.id).map CreatePlacement.entrySlug).Nodup := by
    rw [Database.requested, List.map_map]
    exact h.entrySlugs_nodup hv
  have hvalues : (db.requested v.id).map Versions.valuesOf =
      (db.placementsOf v.id).map Placement.values := by
    rw [Database.requested, List.map_map]
    exact h.placementRows_map hv fun _ _ => rfl
  rw [Versions.validatePlacements_iff, hvalues]
  exact and_iff_right hslugs

/-- **Version creation is serialized with the PATCHes of its board.** Whenever a step of any
interleaving makes a version visible, there is a row of its board that is there after the step,
is the only one the board can have had before the step, accepts the placements of the version,
and gives the direction under which a scored version is ranked. -/
theorem created_under_current_row {g₀ g₁ : System faulty} (hg : System.Reachable P g₀)
    (hstep : System.Step P g₀ g₁) (hv : v ∈ g₁.servers.db.versions)
    (hnew : v ∉ g₀.servers.db.versions) :
    ∃ b ∈ g₁.servers.db.boards, b.id = v.boardId ∧
      (∀ r ∈ g₀.servers.db.boards, r.id = v.boardId → r = b) ∧
      Versions.validatePlacements b (g₁.servers.db.requested v.id) = .ok () ∧
      (b.boardType = "scored" → ∀ p ∈ g₁.servers.db.placementsOf v.id, p.position =
        some (place (b.sortDirection = "asc")
          ((g₁.servers.db.placementsOf v.id).map Placement.pair) p.pair : ℤ)) := by
  have hg₁ : System.Reachable P g₁ := hg.tail hstep
  rcases hg.step_commits hstep with hsame | ⟨L, ws, -, hsealed, hdb, -⟩
  · exact absurd (hsame.1 ▸ hv) hnew
  · obtain ⟨b, hb, hid, hcurrent, hcomplete⟩ := hsealed v (hdb ▸ hv) hnew
    rw [← hdb] at hb hcomplete
    refine ⟨b, hb, hid, fun r hr hrid => hcurrent r hr (hrid.trans hid.symm), ?_, ?_⟩
    · exact (hg₁.inv.schema.validatePlacements_requested hv).mpr hcomplete.valid
    · intro hscored p hp
      rw [(hcomplete.scored hscored).position p hp, rank_eq_place]

set_option maxRecDepth 10000 in
/-- A run in which the direction of a board changes before its second version becomes visible. -/
theorem created_under_current_row_run : ∃ (g g₀ g₁ : System False) (v : Version) (b : Board),
    v ∈ g.servers.db.versions ∧ v.versionNumber = 2 ∧ System.Steps {} g₁ g ∧
      v ∉ g₀.servers.db.versions ∧ b ∈ g₁.servers.db.boards ∧ b.id = v.boardId ∧
      Versions.validatePlacements b (g₁.servers.db.requested v.id) = .ok () := by
  obtain ⟨g, hg, hrest⟩ := reachable_serveAll (P := {}) counting False
    (scoredRequests ++ laterRequests) fun r _ => r.respects_default
  have hv : ∃ v ∈ g.servers.db.versions, v.versionNumber = 2 := by
    rw [hrest.servers]
    decide
  obtain ⟨v, hv, hnumber⟩ := hv
  obtain ⟨g₀, g₁, _, hcreated, -⟩ := exists_created hg hv
  obtain ⟨b, hb, hid, -, hvalid, -⟩ :=
    created_under_current_row hcreated.before hcreated.step hcreated.present hcreated.absent
  exact ⟨g, g₀, g₁, v, b, hv, hnumber, hcreated.after, hcreated.absent, hb, hid, hvalid⟩

end Leaderboards
