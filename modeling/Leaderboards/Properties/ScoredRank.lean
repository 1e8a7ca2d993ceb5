import Leaderboards.Properties.Creation
import Mathlib.Data.Multiset.Count

/-!
# The ranks of scored versions

A version of a scored board is committed together with the ranking that
`derive_scored_positions` gave it under the lock on the board row, and it never changes after
that. So in every reachable state its positions are those ranks, under the direction the board
row had in the step that committed it (`scored_rank`), whichever request created it.
-/

namespace Leaderboards

open Interaction Ranking

variable {P : Policy} {faulty : Prop}

/-- What the rank of a placement depends on: its entry and its score. -/
def Placement.pair (p : Placement) : Uuid × Option F64 := (p.entryId, p.score)

/-- `scoreKey` as a function of the pair. -/
def pairKey (asc : Bool) (x : Uuid × Option F64) : ℕ ×ₗ ℤ ×ₗ ℕ :=
  match x.2 with
  | none => toLex (1, toLex (0, x.1))
  | some y => toLex (0, toLex (if asc then y.sqlKey else -y.sqlKey, x.1))

/-- The place of a pair among a set of pairs. -/
def place (asc : Bool) (pairs : Multiset (Uuid × Option F64)) (x : Uuid × Option F64) : ℕ :=
  pairs.countP (fun y => pairKey asc y < pairKey asc x) + 1

theorem pairKey_pair (asc : Bool) (p : Placement) : pairKey asc p.pair = scoreKey asc p := rfl

/-- The rank of a placement is the place of its pair. -/
theorem rank_eq_place (asc : Bool) (ps : List Placement) (p : Placement) :
    rank (scoreKey asc) ps p = place asc (ps.map Placement.pair) p.pair := by
  rw [place, Multiset.coe_countP, List.countP_map]
  rfl

/-- **The rank of scored versions.** In every reachable state, every version of a scored board
was committed by some step, and with the direction that the board row had there: the scores are
finite; the positions are exactly `1, …, n`; a placement stands before another exactly when its
score is strictly better, or the scores are equal and its entry id is smaller; and so every
position is determined by the set of entries with their scores. -/
theorem scored_rank {g : System faulty} (hg : System.Reachable P g) {v : Version}
    (hv : v ∈ g.servers.db.versions) {b : Board} (hb : b ∈ g.servers.db.boards)
    (hid : b.id = v.boardId) (hscored : b.boardType = "scored") :
    ∃ (g₀ g₁ : System faulty) (r : Board), Created P v r g₀ g₁ g ∧
      (∀ p ∈ g.servers.db.placementsOf v.id, ∃ x, p.score = some x ∧ x.isFinite = true) ∧
      ((g.servers.db.placementsOf v.id).map Placement.position).Perm
        ((List.range' 1 (g.servers.db.placementsOf v.id).length).map fun n : ℕ => some (n : ℤ)) ∧
      (∀ p ∈ g.servers.db.placementsOf v.id, ∀ q ∈ g.servers.db.placementsOf v.id,
        ∀ (m n : ℤ) (x y : F64), p.position = some m → q.position = some n →
          p.score = some x → q.score = some y →
          (m < n ↔ (if r.sortDirection = "asc" then x.scaled < y.scaled
            else y.scaled < x.scaled) ∨ (x.scaled = y.scaled ∧ p.entryId < q.entryId))) ∧
      ∀ p ∈ g.servers.db.placementsOf v.id, p.position =
        some (place (r.sortDirection = "asc")
          ((g.servers.db.placementsOf v.id).map Placement.pair) p.pair : ℤ) := by
  obtain ⟨g₀, g₁, r, hcreated, hkey, hcomplete⟩ := created_complete hg hv hb hid
  have hranked := hcomplete.scored (hkey.2.2.1.trans hscored)
  refine ⟨g₀, g₁, r, hcreated, hranked.finite,
    hranked.positions (hg.inv.schema.entryIds_nodup v.id), fun p hp q hq m n x y hm hn hx hy => ?_,
    fun p hp => ?_⟩
  · simpa using hranked.before_iff hp hq hm hn hx hy
  · rw [hranked.position p hp, rank_eq_place]

set_option maxRecDepth 10000 in
/-- A run in which a scored version is committed before the direction of its board changes. -/
theorem scored_rank_run : ∃ (g : System False) (v : Version) (b : Board),
    v ∈ g.servers.db.versions ∧ b ∈ g.servers.db.boards ∧ b.sortDirection = "asc" ∧
      (g.servers.db.placementsOf v.id).map Placement.position = [some 2, some 1] ∧
      ∃ (g₀ g₁ : System False) (r : Board), Created {} v r g₀ g₁ g ∧
        ((g.servers.db.placementsOf v.id).map Placement.position).Perm
          ((List.range' 1 (g.servers.db.placementsOf v.id).length).map
            fun n : ℕ => some (n : ℤ)) := by
  obtain ⟨g, hg, hrest⟩ := reachable_serveAll (P := {}) counting False
    (scoredRequests ++ laterRequests) fun r _ => r.respects_default
  have hv : (⟨10, 1, 1, none, none, 6⟩ : Version) ∈ g.servers.db.versions := by
    rw [hrest.servers]
    decide
  have hb : ∃ b ∈ g.servers.db.boards, b.id = 1 ∧ b.boardType = "scored" ∧
      b.sortDirection = "asc" := by
    rw [hrest.servers]
    decide
  obtain ⟨b, hb, hid, hscored, hasc⟩ := hb
  obtain ⟨g₀, g₁, r, hcreated, -, hperm, -⟩ := scored_rank hg hv hb hid hscored
  refine ⟨g, ⟨10, 1, 1, none, none, 6⟩, b, hv, hb, hasc, ?_, g₀, g₁, r, hcreated, hperm⟩
  rw [hrest.servers]
  decide

end Leaderboards
