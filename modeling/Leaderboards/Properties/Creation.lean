import Leaderboards.Properties.Immutability

/-!
# The commits that create versions

Every version in a reachable state was committed by one step (`Created`). The placements that it
has since then were complete for the board row of that step (`created_complete`): they passed
validation for it, and on a scored board they are ranked under its direction.
-/

namespace Leaderboards

open Interaction

variable {P : Policy} {faulty : Prop}

/-- The step that commits a version, when the version is in a reachable state. -/
structure Created (P : Policy) (v : Version) (b : Board) (g₀ g₁ g : System faulty) : Prop where
  before : System.Reachable P g₀
  step : System.Step P g₀ g₁
  after : System.Steps P g₁ g
  absent : v ∉ g₀.servers.db.versions
  present : v ∈ g₁.servers.db.versions
  board : b ∈ g₁.servers.db.boards
  board_id : b.id = v.boardId

/-- Every version was committed complete, by some step. -/
theorem exists_created {g : System faulty} (hg : System.Reachable P g) {v : Version}
    (hv : v ∈ g.servers.db.versions) : ∃ (g₀ g₁ : System faulty) (b : Board),
      Created P v b g₀ g₁ g ∧ CompleteFor P b (g₁.servers.db.placementsOf v.id) := by
  obtain ⟨collation, hrun⟩ := hg
  induction hrun with
  | refl => exact absurd hv List.not_mem_nil
  | @tail g₀ g₁ hrun hstep ih =>
    have hg₀ : System.Reachable P g₀ := ⟨collation, hrun⟩
    by_cases hold : v ∈ g₀.servers.db.versions
    · obtain ⟨h₀, h₁, b, hcreated, hcomplete⟩ := ih hold
      exact ⟨h₀, h₁, b, { hcreated with after := hcreated.after.tail hstep }, hcomplete⟩
    · rcases hg₀.step_commits hstep with hsame | ⟨L, ws, -, hsealed, hdb, -⟩
      · exact absurd (hsame.1 ▸ hv) hold
      · obtain ⟨b, hb, hid, -, hcomplete⟩ := hsealed v (hdb ▸ hv) hold
        rw [← hdb] at hb hcomplete
        exact ⟨g₀, g₁, b, ⟨hg₀, hstep, .refl, hold, hv, hb, hid⟩, hcomplete⟩

/-- **A version keeps the placements it was committed with**, and its board keeps the type it had
then. -/
theorem created_complete {g : System faulty} (hg : System.Reachable P g) {v : Version}
    (hv : v ∈ g.servers.db.versions) {b : Board} (hb : b ∈ g.servers.db.boards)
    (hid : b.id = v.boardId) : ∃ (g₀ g₁ : System faulty) (r : Board),
      Created P v r g₀ g₁ g ∧ r.SameKey b ∧
        CompleteFor P r (g.servers.db.placementsOf v.id) := by
  obtain ⟨g₀, g₁, r, hcreated, hcomplete⟩ := exists_created hg hv
  have hg₁ : System.Reachable P g₁ := hcreated.before.tail hcreated.step
  have hsame := (version_immutable hg₁ hcreated.present hcreated.after ⟨b, hb, hid⟩).2.1
  have hused : b.id ∈ g₁.servers.usedBoards := by
    rw [hid, ← hcreated.board_id]
    exact hg₁.inv.board_used r hcreated.board
  obtain ⟨r', hr', hkey⟩ := (hg₁.rely hcreated.after).board_reused b hb hused
  have hrr : r' = r := hg₁.inv.schema.board_inj hr' hcreated.board
    (hkey.1.trans (hid.trans hcreated.board_id.symm))
  exact ⟨g₀, g₁, r, hcreated, hrr ▸ hkey, hsame ▸ hcomplete⟩

end Leaderboards
