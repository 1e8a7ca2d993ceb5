import Leaderboards.Properties.Immutability

/-!
# Rows of different boards are never linked

The schema lets a placement join an entry and a version of different boards, a score an entry of
another board, and a reference pin any version. The service looks all of them up within one board
(`cross_board_integrity`). A reference pins the version that the request named by its number, and
this version keeps its row for as long as the reference is there.
-/

namespace Leaderboards

open Interaction

variable {P : Policy} {faulty : Prop}

/-- **Cross-board integrity.** In every reachable state, placements join entries and versions of
one board, scores belong to entries of their board, and every reference that pins a version pins
an existing version of its board with the number that one of the run's requests with the same uri,
type and label asks for. The pinned version keeps its row, with the number, in every later state
that still has the reference. -/
theorem cross_board_integrity {g : System faulty} (hg : System.Reachable P g) :
    (∀ p ∈ g.servers.db.placements, ∃ v ∈ g.servers.db.versions, ∃ e ∈ g.servers.db.entries,
      v.id = p.versionId ∧ e.id = p.entryId ∧ e.boardId = v.boardId) ∧
    (∀ x ∈ g.servers.db.accumulatedScores, ∃ e ∈ g.servers.db.entries,
      e.id = x.entryId ∧ e.boardId = x.boardId) ∧
    (∀ r ∈ g.servers.db.references, ∃ input, P.reference input ∧
      r.Follows input g.servers.db.versions) ∧
    ∀ r ∈ g.servers.db.references, ∀ v ∈ g.servers.db.versions, r.pinnedVersionId = some v.id →
      v.boardId = r.boardId ∧ ∀ g' : System faulty, System.Steps P g g' →
        r ∈ g'.servers.db.references → v ∈ g'.servers.db.versions := by
  have hschema := hg.inv.schema
  refine ⟨hschema.placement_board, fun x hx => (hschema.score_board x hx).2, hg.inv.references,
    fun r hr v hv hpin => ?_⟩
  obtain ⟨v', hv', hvid, hboard⟩ := hschema.reference_pin r hr v.id hpin
  have hvv : v' = v := hschema.version_inj hv' hv hvid
  have hvboard : v.boardId = r.boardId := hvv ▸ hboard
  refine ⟨hvboard, fun g' hrun hr' => ?_⟩
  -- The reference keeps its board, and the board keeps the version.
  have hg' : System.Reachable P g' := hg.trans hrun
  obtain ⟨b, hb, hid⟩ := hg'.inv.schema.reference_board r hr'
  exact (version_immutable hg hv hrun ⟨b, hb, hid.trans hvboard.symm⟩).1

/-- A citation of the first version of the scored board. -/
def citation : CreateReference where
  uri := "u"
  refType := "citation"
  pinnedVersionNumber := some 1

set_option maxRecDepth 10000 in
/-- A run whose only reference pins the first of two versions. -/
theorem cross_board_integrity_run : ∃ g : System False,
    g.servers.db.versions.length = 2 ∧ g.servers.db.placements.length = 3 ∧
      ∃ r ∈ g.servers.db.references, ∃ v ∈ g.servers.db.versions,
        r.pinnedVersionId = some v.id ∧ v.boardId = r.boardId ∧ v.versionNumber = 1 := by
  obtain ⟨g, hg, hrest⟩ := reachable_serveAll (P := { reference := fun x => x = citation })
    counting False (scoredRequests ++ .createReference "b" citation :: laterRequests) (by
      simp only [scoredRequests, laterRequests, List.cons_append, List.nil_append,
        List.forall_mem_cons]
      refine ⟨fun _ => trivial, trivial, trivial, ?_, rfl, trivial, trivial, trivial, ?_, by simp⟩
      · rintro _ ⟨⟩
      · rintro _ ⟨⟩)
  have hrows : g.servers.db.versions.length = 2 ∧ g.servers.db.placements.length = 3 ∧
      ∃ r, r ∈ g.servers.db.references := by
    rw [hrest.servers]
    exact ⟨by decide, by decide, List.exists_mem_of_ne_nil _ (by decide)⟩
  obtain ⟨hversions, hplacements, r, hr⟩ := hrows
  obtain ⟨-, -, hfollows, hkept⟩ := cross_board_integrity hg
  obtain ⟨_, rfl, hr'⟩ := hfollows r hr
  obtain ⟨id, hid⟩ := Option.isSome_iff_exists.mp hr'.pinned
  obtain ⟨v, hv, rfl, -, hnumber⟩ := hr'.pin id hid
  have hone : (1 : ℤ) = v.versionNumber := Option.some.inj hnumber
  exact ⟨g, hversions, hplacements, r, hr, v, hv, hid, (hkept r hr v hv hid).1, hone.symm⟩

end Leaderboards
