import Leaderboards.Properties.BoardSetup
import Leaderboards.Properties.Creation

/-!
# The positions of ordered versions

`validate_placements` resolves an omitted position of an ordered board from the index of the
placement, and compares the resolved positions. `versions::create` stores what was resolved;
`import_board` stores the position as the document has it, so an omitted one stays absent.
What is stored is then exactly right when no position was omitted (`Versions.Valid.ordered_iff`).
In a run whose accepted imports of ordered boards state all positions, every version of an
ordered board has present, positive and pairwise different positions (`ordered_positions`).
-/

namespace Leaderboards

variable {faulty : Prop}

/-- The values of an ordered version: every position is present, at least `1`, and different from
the others. -/
structure OrderedValues (l : List Versions.Values) : Prop where
  present : ∀ x ∈ l, ∃ n, x.position = some n ∧ 1 ≤ n
  distinct : (l.map Versions.Values.position).Nodup

/-- Where no position is omitted, resolving changes nothing. -/
private theorem resolved_eq {l : List Versions.Values} (h : ∀ x ∈ l, x.position ≠ none) :
    (l.zipIdx.map fun x => x.1.position.getD ((x.2 : ℤ) + 1)) =
      (l.map Versions.Values.position).map fun n => n.getD 0 := by
  have hcongr : ∀ x ∈ l.zipIdx, x.1.position.getD ((x.2 : ℤ) + 1) = x.1.position.getD 0 := by
    intro x hx
    have hmem : x.1 ∈ l := List.fst_mem_of_mem_zipIdx hx
    obtain ⟨n, hn⟩ := Option.ne_none_iff_exists'.mp (h x.1 hmem)
    rw [hn, Option.getD_some, Option.getD_some]
  rw [List.map_congr_left hcongr, List.map_map]
  calc l.zipIdx.map (fun x => x.1.position.getD 0)
      = (l.zipIdx.map Prod.fst).map (fun x => x.position.getD 0) := by rw [List.map_map]; rfl
    _ = l.map ((fun n => n.getD 0) ∘ Versions.Values.position) := by
      rw [List.zipIdx_map_fst]
      rfl

/-- **Values that passed validation are right as they stand exactly when no position is
omitted.** -/
theorem Versions.Valid.ordered_iff {tierConfig : Option Json} {l : List Versions.Values}
    (h : Versions.Valid "ordered" tierConfig l) :
    OrderedValues l ↔ ∀ x ∈ l, x.position ≠ none := by
  constructor
  · intro hl x hx hnone
    obtain ⟨n, hn, -⟩ := hl.present x hx
    rw [hnone] at hn
    cases hn
  · intro hpresent
    have hnodup := h.ordered rfl
    rw [resolved_eq hpresent] at hnodup
    refine ⟨fun x hx => ?_, hnodup.of_map _⟩
    obtain ⟨n, hn⟩ := Option.ne_none_iff_exists'.mp (hpresent x hx)
    exact ⟨n, hn, h.positive x hx n hn⟩

/-- **The ordered version invariant.** In every run whose accepted imports of ordered boards omit
no position, every version of an ordered board in every reachable state has a placement, each
entry at most once, and positions that are present, at least `1` and pairwise different. -/
theorem ordered_positions {g : System faulty}
    (hg : System.Reachable { explicitOrder := True } g) {v : Version}
    (hv : v ∈ g.servers.db.versions) {b : Board} (hb : b ∈ g.servers.db.boards)
    (hid : b.id = v.boardId) (hordered : b.boardType = "ordered") :
    g.servers.db.placementsOf v.id ≠ [] ∧
      ((g.servers.db.placementsOf v.id).map Placement.entryId).Nodup ∧
      (∀ p ∈ g.servers.db.placementsOf v.id, ∃ n, p.position = some n ∧ 1 ≤ n) ∧
      ((g.servers.db.placementsOf v.id).map Placement.position).Nodup := by
  obtain ⟨g₀, g₁, r, -, ⟨-, -, htype, -⟩, hcomplete⟩ := created_complete hg hv hb hid
  have hr : r.boardType = "ordered" := htype.trans hordered
  have hvalid := hcomplete.valid
  rw [hr] at hvalid
  have hpresent : ∀ x ∈ (g.servers.db.placementsOf v.id).map Placement.values,
      x.position ≠ none := by
    simp only [List.forall_mem_map]
    exact hcomplete.explicit trivial hr
  obtain ⟨hpos, hdistinct⟩ := hvalid.ordered_iff.mpr hpresent
  rw [List.map_map] at hdistinct
  simp only [List.forall_mem_map] at hpos
  refine ⟨?_, hg.inv.schema.entryIds_nodup v.id, hpos, hdistinct⟩
  have hne := hvalid.nonempty
  rwa [ne_eq, List.map_eq_nil_iff] at hne

/-- A document of an ordered board with one version. -/
def orderedDocument (positions : List (String × Option ℤ)) : BoardExport where
  board := { slug := "o", name := "O", boardType := "ordered", sortDirection := "desc"
             tierConfig := none, metadata := none, accumulative := false, realtime := false
             clearOnSnapshot := false }
  versions := [{ versionNumber := 1, note := none, metadata := none
                 placements := positions.map fun x =>
                   { entrySlug := x.1, entryName := x.1, position := x.2, score := none
                     tier := none, metadata := none } }]

set_option maxRecDepth 10000 in
/-- A run that imports an ordered board with stated positions and then creates a version of it
whose positions are partly omitted. -/
theorem ordered_positions_run : ∃ (g : System False) (v : Version),
    v ∈ g.servers.db.versions ∧ v.versionNumber = 2 ∧
      (g.servers.db.placementsOf v.id).map Placement.position = [some 3, some 2] ∧
      ((g.servers.db.placementsOf v.id).map Placement.position).Nodup := by
  obtain ⟨g, hg, hrest⟩ := reachable_serveAll (P := { explicitOrder := True }) counting False
    [.importBoard inOrder (orderedDocument [("e", some 1), ("f", some 2)]),
      .createVersion {} "o" { placements := [{ entrySlug := "f", position := some 3 },
        { entrySlug := "e" }] }] (by
    simp only [List.forall_mem_cons]
    refine ⟨fun _ _ => ⟨⟨trivial, trivial⟩, fun _ _ => ?_⟩, ?_, by simp⟩
    · simp [orderedDocument]
    · rintro _ ⟨⟩)
  have hrow : ∃ v ∈ g.servers.db.versions, v.versionNumber = 2 ∧
      (g.servers.db.placementsOf v.id).map Placement.position = [some 3, some 2] ∧
      ∃ b ∈ g.servers.db.boards, b.id = v.boardId ∧ b.boardType = "ordered" := by
    rw [hrest.servers]
    decide
  obtain ⟨v, hv, hnumber, hpositions, b, hb, hid, hordered⟩ := hrow
  obtain ⟨-, -, -, hnodup⟩ := ordered_positions hg hv hb hid hordered
  exact ⟨g, v, hv, hnumber, hpositions, hnodup⟩

set_option maxRecDepth 10000 in
/-- A document that omits the position of its only placement is accepted, and the stored position
is absent. -/
theorem ordered_positions_fail : ∃ g : System False, System.Reachable {} g ∧
    ∃ v ∈ g.servers.db.versions, ∃ b ∈ g.servers.db.boards, b.id = v.boardId ∧
      b.boardType = "ordered" ∧
      ¬∀ p ∈ g.servers.db.placementsOf v.id, ∃ n, p.position = some n ∧ 1 ≤ n := by
  obtain ⟨g, hg, hrest⟩ := reachable_serveAll (P := {}) counting False
    [.importBoard inOrder (orderedDocument [("e", none)])] fun r _ => r.respects_default
  have hrow : ∃ v ∈ g.servers.db.versions, ∃ b ∈ g.servers.db.boards, b.id = v.boardId ∧
      b.boardType = "ordered" ∧ ∃ p ∈ g.servers.db.placementsOf v.id, p.position = none := by
    rw [hrest.servers]
    decide
  obtain ⟨v, hv, b, hb, hid, hordered, p, hp, hnone⟩ := hrow
  refine ⟨g, hg, v, hv, b, hb, hid, hordered, fun hall => ?_⟩
  obtain ⟨n, hn, -⟩ := hall p hp
  rw [hnone] at hn
  cases hn

end Leaderboards
