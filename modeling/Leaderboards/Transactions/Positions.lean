import Leaderboards.Repo.Versions
import Leaderboards.Transactions.Legal

/-!
# Positions of scored versions

What `derive_scored_positions` does to a version: every placement gets its rank by score, ties
by entry id (`Schema.placementsOf_derive`). `ScoredRanked` is the resulting property of the
placements. It says that the positions are exactly `1, …, n` (`ScoredRanked.positions`) and that
they order the placements as the scores do (`ScoredRanked.before_iff`).
-/

namespace Leaderboards

open Ranking

/-- The placements of a scored version: finite scores, ranked by score under a direction, ties
by entry id. -/
structure ScoredRanked (asc : Bool) (ps : List Placement) : Prop where
  finite : ∀ p ∈ ps, ∃ x, p.score = some x ∧ x.isFinite = true
  position : ∀ p ∈ ps, p.position = some (Ranking.rank (scoreKey asc) ps p : ℤ)

/-- The values of a stored placement. -/
def Placement.values (p : Placement) : Versions.Values := ⟨p.position, p.score, p.tier⟩

/-- The placements `ps` are what a version of the board `b` has to hold. -/
structure CompleteFor (P : Policy) (b : Board) (ps : List Placement) : Prop where
  valid : Versions.Valid b.boardType b.tierConfig (ps.map Placement.values)
  scored : b.boardType = "scored" → ScoredRanked (b.sortDirection = "asc") ps
  /-- The positions by score fit their column. -/
  fits : b.boardType = "scored" → ps.length ≤ 2147483647
  explicit : P.explicitOrder → b.boardType = "ordered" → ∀ p ∈ ps, p.position ≠ none

/-- A placement with its rank as position. -/
def ranked (asc : Bool) (ps : List Placement) (p : Placement) : Placement :=
  { p with position := some (rank (scoreKey asc) ps p : ℤ) }

/-- Ranked placements with finite scores follow the rules of a scored board. -/
theorem valid_ranked {asc : Bool} {ps : List Placement} {boardType : String}
    {tierConfig : Option Json} (hne : ps ≠ []) (hscored : boardType = "scored")
    (hfin : ∀ p ∈ ps, ∃ x, p.score = some x ∧ x.isFinite = true) :
    Versions.Valid boardType tierConfig ((ps.map (ranked asc ps)).map Placement.values) where
  nonempty := by simpa using hne
  positive := by
    simp only [List.forall_mem_map]
    intro p _ n hn
    obtain rfl : ((rank (scoreKey asc) ps p : ℕ) : ℤ) = n := Option.some.inj hn
    have hpos : 1 ≤ rank (scoreKey asc) ps p := Nat.le_add_left ..
    omega
  ordered ht := absurd (ht.symm.trans hscored) (by decide)
  scored _ := by
    simp only [List.forall_mem_map]
    exact hfin
  tiered ht := absurd (ht.symm.trans hscored) (by decide)

theorem scoreKey_ranked (asc asc' : Bool) (ps : List Placement) (p : Placement) :
    scoreKey asc (ranked asc' ps p) = scoreKey asc p := rfl

/-- Different entries have different sort keys. -/
theorem scoreKey_nodup (asc : Bool) {ps : List Placement}
    (h : (ps.map Placement.entryId).Nodup) : (ps.map (scoreKey asc)).Nodup := by
  refine List.Nodup.of_map (fun k => (ofLex (ofLex k).2).2) ?_
  rw [List.map_map]
  convert h using 2
  funext p
  simp only [Function.comp_apply, scoreKey]
  split <;> rfl

/-- Ranking placements with finite scores makes a scored version. -/
theorem scoredRanked_ranked {asc : Bool} {ps : List Placement}
    (hfin : ∀ p ∈ ps, ∃ x, p.score = some x ∧ x.isFinite = true) :
    ScoredRanked asc (ps.map (ranked asc ps)) where
  finite := by
    simpa [List.forall_mem_map, ranked] using hfin
  position := by
    simp only [List.forall_mem_map]
    intro p _
    rw [rank_map _ (scoreKey_ranked asc asc ps)]
    rfl

namespace ScoredRanked

variable {asc : Bool} {ps : List Placement} (h : ScoredRanked asc ps)

include h

/-- **The positions are exactly `1, …, n`.** -/
theorem positions (hentries : (ps.map Placement.entryId).Nodup) :
    (ps.map Placement.position).Perm
      ((List.range' 1 ps.length).map fun n : ℕ => some (n : ℤ)) := by
  have hperm := (map_rank_perm (scoreKey asc) (scoreKey_nodup asc hentries)).map
    fun n : ℕ => some (n : ℤ)
  rw [List.map_map] at hperm
  rw [List.map_congr_left fun p hp => h.position p hp]
  exact hperm

/-- **A placement stands before another exactly when its score is strictly better, or the scores
are equal and its entry id is smaller.** -/
theorem before_iff {p q : Placement} (hp : p ∈ ps) (hq : q ∈ ps) {m n : ℤ} {x y : F64}
    (hm : p.position = some m) (hn : q.position = some n) (hx : p.score = some x)
    (hy : q.score = some y) :
    m < n ↔ (if asc then x.scaled < y.scaled else y.scaled < x.scaled) ∨
      (x.scaled = y.scaled ∧ p.entryId < q.entryId) := by
  have hkey : m < n ↔ scoreKey asc p < scoreKey asc q := by
    rw [h.position p hp, Option.some.injEq] at hm
    rw [h.position q hq, Option.some.injEq] at hn
    rw [← hm, ← hn, Int.ofNat_lt, rank_lt_rank _ hp]
  obtain ⟨x', hx', hxfin⟩ := h.finite p hp
  obtain ⟨y', hy', hyfin⟩ := h.finite q hq
  obtain rfl : x = x' := by simpa [hx] using hx'
  obtain rfl : y = y' := by simpa [hy] using hy'
  rw [hkey]
  simp only [scoreKey, hx, hy, F64.sqlKey_of_isFinite hxfin, F64.sqlKey_of_isFinite hyfin,
    Prod.Lex.toLex_lt_toLex, lt_irrefl, true_and, false_or]
  cases asc <;> simp

end ScoredRanked

/-! ### The statement -/

namespace Database

variable {db : Database}

theorem placementsOf_setPositions {l : List (Uuid × ℤ)} {id : Uuid} :
    (db.setPositions l).placementsOf id = (db.placementsOf id).map (withPosition l) := by
  simp [placementsOf, List.filter_map, Function.comp_def]

/-- Which ids `derive_scored_positions` touches, and what it gives them. -/
theorem mem_rankedPositions {versionId : Uuid}
    (h : ((db.placementsOf versionId).map Placement.entryId).Nodup) {asc : Bool} {id : Uuid}
    {n : ℤ} : (id, n) ∈ rankedPositions db versionId asc ↔ ∃ p ∈ db.placementsOf versionId,
      p.id = id ∧ n = rank (scoreKey asc) (db.placementsOf versionId) p := by
  have hnodup := scoreKey_nodup asc h
  simp only [rankedPositions, List.mem_map, Prod.exists, mem_rowNumbers _ hnodup, Prod.mk.injEq]
  constructor
  · rintro ⟨p, k, ⟨hp, rfl⟩, rfl, rfl⟩
    exact ⟨p, hp, rfl, rfl⟩
  · rintro ⟨p, hp, rfl, rfl⟩
    exact ⟨p, _, ⟨hp, rfl⟩, rfl, rfl⟩

/-- **`derive_scored_positions` gives every placement of the version its rank.** -/
theorem placementsOf_derive (hids : (db.placements.map Placement.id).Nodup) {versionId : Uuid}
    (hentries : ((db.placementsOf versionId).map Placement.entryId).Nodup) (asc : Bool) :
    (db.setPositions (rankedPositions db versionId asc)).placementsOf versionId =
      (db.placementsOf versionId).map (ranked asc (db.placementsOf versionId)) := by
  rw [placementsOf_setPositions]
  refine List.map_congr_left fun p hp => ?_
  rw [withPosition]
  split
  · rename_i r hr
    have hid : r.1 = p.id := by simpa using List.find?_some hr
    obtain ⟨q, hq, hqid, hn⟩ :=
      (mem_rankedPositions hentries).mp (show (r.1, r.2) ∈ _ from List.mem_of_find?_eq_some hr)
    have hqp : q = p := List.inj_on_of_nodup_map hids (mem_placementsOf.mp hq).1
      (mem_placementsOf.mp hp).1 (hqid.trans hid)
    rw [ranked, hn, hqp]
  · rename_i hnone
    have hmem : (p.id, _) ∈ rankedPositions db versionId asc :=
      (mem_rankedPositions hentries).mpr ⟨p, hp, rfl, rfl⟩
    exact absurd (List.find?_eq_none.mp hnone _ hmem) (by simp)

theorem Schema.placementsOf_derive (h : db.Schema) (versionId : Uuid) (asc : Bool) :
    (db.setPositions (rankedPositions db versionId asc)).placementsOf versionId =
      (db.placementsOf versionId).map (ranked asc (db.placementsOf versionId)) :=
  Database.placementsOf_derive h.placement_id (h.entryIds_nodup versionId) asc

/-- **`derive_scored_positions` leaves the other versions alone.** -/
theorem Schema.placementsOf_derive_of_ne (h : db.Schema) {versionId id : Uuid} (asc : Bool)
    (hne : id ≠ versionId) :
    (db.setPositions (rankedPositions db versionId asc)).placementsOf id = db.placementsOf id := by
  rw [placementsOf_setPositions]
  have hfix : ∀ p ∈ db.placementsOf id,
      withPosition (rankedPositions db versionId asc) p = p := by
    intro p hp
    refine withPosition_of_forall_ne fun r hr heq => hne ?_
    obtain ⟨q, hq, hqid, -⟩ :=
      (mem_rankedPositions (h.entryIds_nodup versionId)).mp (show (r.1, r.2) ∈ _ from hr)
    obtain ⟨hpm, hpv⟩ := mem_placementsOf.mp hp
    obtain ⟨hqm, hqv⟩ := mem_placementsOf.mp hq
    rw [← hpv, ← hqv, h.placement_inj hqm hpm (hqid.trans heq)]
  rw [List.map_congr_left hfix, List.map_id']

end Database

end Leaderboards
