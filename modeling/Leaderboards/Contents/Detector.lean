import Leaderboards.Contents.Synced

/-!
# The change detector

`placements_changed` compares the placements of a file with those of the latest version. It looks
at a position when the file states one, and otherwise on ordered boards only
(`placementsChanged_eq_false_iff`). So it reports a change right after a version was made from
the file exactly when the file of a scored board states a position that is not the rank by score
(`placementsChanged_stored`).
-/

namespace Leaderboards

open Interaction Ranking

/-- What the change detector asks of the current placement `q` and of the placement at an index of
the file. -/
structure CreatePlacement.Matches (boardType : String) (q : CreatePlacement)
    (x : CreatePlacement × ℕ) : Prop where
  slug : q.entrySlug = x.1.entrySlug
  score : q.score = x.1.score
  tier : q.tier = x.1.tier
  metadata : q.metadata = x.1.metadata
  explicit : ∀ n, x.1.position = some n → q.position = some n
  implicit : x.1.position = none → boardType = "ordered" → q.position = some ((x.2 : ℤ) + 1)

variable {boardType : String} {current ps : List CreatePlacement} {x : CreatePlacement × ℕ}

/-- A placement that matches differs in the position at most. -/
theorem CreatePlacement.Matches.eq {q : CreatePlacement} (h : q.Matches boardType x) :
    q = { x.1 with position := q.position } := by
  obtain ⟨slug, position, score, tier, metadata⟩ := q
  obtain ⟨hslug, hscore, htier, hmetadata, -, -⟩ := h
  dsimp only at hslug hscore htier hmetadata ⊢
  rw [hslug, hscore, htier, hmetadata]

/-- One placement of the file. -/
theorem placementChanged_eq_false_iff (hslugs : (current.map CreatePlacement.entrySlug).Nodup) :
    Sync.placementChanged boardType (current.map CreatePlacement.joined) x = false ↔
      ∃ q ∈ current, q.Matches boardType x := by
  have hslugs' : (current.reverse.map CreatePlacement.entrySlug).Nodup := by
    rwa [List.map_reverse, List.nodup_reverse]
  -- `collect` into a `HashMap` keeps the last placement of an entry.
  have hfind : (current.map CreatePlacement.joined).reverse.find?
      (fun c => c.entrySlug = x.1.entrySlug) = (current.reverse.find?
        fun q => q.entrySlug = x.1.entrySlug).map CreatePlacement.joined := by
    rw [← List.map_reverse, List.find?_map]
    rfl
  rcases hrow : current.reverse.find? (fun q => q.entrySlug = x.1.entrySlug) with _ | q
  · have hnone : ∀ q ∈ current, ¬q.entrySlug = x.1.entrySlug := fun q hq => by
      simpa using List.find?_eq_none.mp hrow q (List.mem_reverse.mpr hq)
    rw [hrow] at hfind
    rw [Sync.placementChanged, hfind, Option.map_none]
    refine iff_of_false Bool.noConfusion ?_
    rintro ⟨q, hq, hmatches⟩
    exact hnone q hq hmatches.slug
  · have hmem : q ∈ current := List.mem_reverse.mp (List.mem_of_find?_eq_some hrow)
    have hslug : q.entrySlug = x.1.entrySlug := by simpa using List.find?_some hrow
    -- There is one placement for each entry, so the one that was found is the only candidate.
    have honly : (∃ q' ∈ current, q'.Matches boardType x) ↔ q.Matches boardType x := by
      constructor
      · rintro ⟨q', hq', hmatches⟩
        rwa [List.inj_on_of_nodup_map hslugs hmem hq' (hslug.trans hmatches.slug.symm)]
      · exact fun hmatches => ⟨q, hmem, hmatches⟩
    rw [hrow] at hfind
    rw [Sync.placementChanged, hfind, Option.map_some, honly]
    rcases hposition : x.1.position with _ | n
    · dsimp only [CreatePlacement.joined]
      simp only [Bool.or_eq_false_iff, Bool.and_eq_false_iff, decide_eq_false_iff_not, ne_eq,
        not_not, Bool.not_eq_false', scoresEqual_iff]
      constructor
      · rintro ⟨⟨⟨himplicit, hscore⟩, htier⟩, hmetadata⟩
        refine ⟨hslug, hscore, htier, hmetadata, fun n hn => ?_, fun _ htype => ?_⟩
        · rw [hposition] at hn
          cases hn
        · exact himplicit.resolve_left fun hne => hne htype
      · intro hmatches
        refine ⟨⟨⟨?_, hmatches.score⟩, hmatches.tier⟩, hmatches.metadata⟩
        by_cases htype : boardType = "ordered"
        · exact .inr (hmatches.implicit hposition htype)
        · exact .inl htype
    · dsimp only [CreatePlacement.joined]
      simp only [Bool.or_eq_false_iff, decide_eq_false_iff_not, ne_eq, not_not,
        Bool.not_eq_false', scoresEqual_iff]
      constructor
      · rintro ⟨⟨⟨hexplicit, hscore⟩, htier⟩, hmetadata⟩
        refine ⟨hslug, hscore, htier, hmetadata, fun m hm => ?_, fun hnone => ?_⟩
        · rw [← hm, hposition]
          exact hexplicit
        · rw [hposition] at hnone
          cases hnone
      · intro hmatches
        exact ⟨⟨⟨hmatches.explicit n hposition, hmatches.score⟩, hmatches.tier⟩, hmatches.metadata⟩

/-- **What the change detector compares.** -/
theorem placementsChanged_eq_false_iff (hslugs : (current.map CreatePlacement.entrySlug).Nodup) :
    Sync.placementsChanged boardType (current.map CreatePlacement.joined) ps = false ↔
      current.length = ps.length ∧ ∀ x ∈ ps.zipIdx, ∃ q ∈ current, q.Matches boardType x := by
  have hrows : (∀ x ∈ ps.zipIdx, Sync.placementChanged boardType
      (current.map CreatePlacement.joined) x = false) ↔
        ∀ x ∈ ps.zipIdx, ∃ q ∈ current, q.Matches boardType x :=
    forall₂_congr fun x _ => placementChanged_eq_false_iff hslugs
  rw [← hrows, Sync.placementsChanged, decide_eq_false_iff_not, not_or, not_not, List.length_map,
    Bool.not_eq_true, List.any_eq_false]
  simp only [Bool.not_eq_true]

namespace Contents

/-- The position at which a version stores the placement at an index. -/
def positionAt (c : Contents) (ps : List CreatePlacement) (x : CreatePlacement × ℕ) : Option ℤ :=
  if c.board.boardType = "scored" then some (c.scoreRank ps x.1 : ℤ)
  else Versions.storedPosition c.row x.1 x.2

theorem stored_eq (c : Contents) (ps : List CreatePlacement) :
    c.stored ps = ps.zipIdx.map fun x => { x.1 with position := c.positionAt ps x } := by
  unfold stored positionAt
  split
  · exact (map_zipIdx_fst (fun p : CreatePlacement =>
      { p with position := some (c.scoreRank ps p : ℤ) }) ps).symm
  · rfl

/-- A version stores the slugs of the request. -/
theorem map_slug_stored (c : Contents) (ps : List CreatePlacement) :
    (c.stored ps).map CreatePlacement.entrySlug = ps.map CreatePlacement.entrySlug := by
  rw [stored_eq, List.map_map]
  exact map_zipIdx_fst CreatePlacement.entrySlug ps

/-- A position that the request states is stored, but for a scored board. -/
theorem positionAt_explicit {c : Contents} {n : ℤ} (htype : c.board.boardType ≠ "scored")
    (hn : x.1.position = some n) (ps : List CreatePlacement) : c.positionAt ps x = some n := by
  rw [positionAt, if_neg htype, Versions.storedPosition, Versions.resolvedPosition, hn]
  split <;> rfl

/-- The placement that a version stores for the placement at an index. -/
theorem mem_stored {c : Contents} (hslugs : (ps.map CreatePlacement.entrySlug).Nodup)
    (hx : x ∈ ps.zipIdx) {q : CreatePlacement} (hslug : q.entrySlug = x.1.entrySlug) :
    q ∈ c.stored ps ↔ q = { x.1 with position := c.positionAt ps x } := by
  have hindexed : (ps.zipIdx.map fun y => y.1.entrySlug).Nodup := by
    rwa [map_zipIdx_fst CreatePlacement.entrySlug ps]
  rw [stored_eq, List.mem_map]
  constructor
  · rintro ⟨y, hy, rfl⟩
    rw [List.inj_on_of_nodup_map hindexed hy hx hslug]
  · rintro rfl
    exact ⟨x, hx, rfl⟩

/-- **Right after a version was made**, the change detector reports a change exactly when the board
is scored and a placement states a position that is not its rank. -/
theorem placementsChanged_stored {c : Contents}
    (hslugs : (ps.map CreatePlacement.entrySlug).Nodup) :
    Sync.placementsChanged c.board.boardType ((c.stored ps).map CreatePlacement.joined) ps = false ↔
      (c.board.boardType = "scored" →
        ∀ p ∈ ps, ∀ n, p.position = some n → n = c.scoreRank ps p) := by
  have hslugs' : ((c.stored ps).map CreatePlacement.entrySlug).Nodup := by
    rwa [map_slug_stored]
  have hlength : (c.stored ps).length = ps.length := by
    rw [stored_eq, List.length_map, List.length_zipIdx]
  rw [placementsChanged_eq_false_iff hslugs', and_iff_right hlength]
  constructor
  · intro hmatches hscored p hp n hn
    obtain ⟨i, hi, hget⟩ := List.getElem_of_mem hp
    have hx : (p, i) ∈ ps.zipIdx := List.mem_zipIdx_iff_getElem?.mpr (by rw [← hget]; simp)
    obtain ⟨q, hq, hmatch⟩ := hmatches (p, i) hx
    have hstored : q.position = some (c.scoreRank ps p : ℤ) := by
      rw [(mem_stored hslugs hx hmatch.slug).mp hq]
      exact if_pos hscored
    exact Option.some.inj ((hmatch.explicit n hn).symm.trans hstored)
  -- The stored placement has the values of the file, and on a scored board the rank as position.
  · intro hranks x hx
    have hstored :
        ({ x.1 with position := c.positionAt ps x } : CreatePlacement) ∈ c.stored ps := by
      rw [stored_eq]
      exact List.mem_map_of_mem hx
    refine ⟨_, hstored, rfl, rfl, rfl, rfl, fun n hn => ?_, fun hnone htype => ?_⟩
    · by_cases hscored : c.board.boardType = "scored"
      · have hmem : x.1 ∈ ps := List.fst_mem_of_mem_zipIdx hx
        rw [hranks hscored x.1 hmem n hn]
        exact if_pos hscored
      · exact positionAt_explicit hscored hn ps
    · have hscored : c.board.boardType ≠ "scored" := by
        rw [htype]
        decide
      have htype' : c.row.boardType = "ordered" := htype
      change c.positionAt ps x = _
      rw [positionAt, if_neg hscored, Versions.storedPosition, if_pos htype',
        Versions.resolvedPosition, hnone]
      rfl

end Contents

end Leaderboards
