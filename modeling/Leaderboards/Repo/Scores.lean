import Leaderboards.Repo.Validation
import Leaderboards.Repo.Versions

/-!
# `repo/scores.rs`
-/

namespace Leaderboards

open Interaction

namespace Scores

/-- `scores::submit`. -/
def submit (board : Board) (input : SubmitScore) : Action AccumulatedScore := do
  Prog.failIf (¬board.accumulative = true)
    (.validation "score submission is only allowed on accumulative boards")
  Prog.failIf (board.boardType ≠ "scored")
    (.validation "score submission is only allowed on scored boards")
  Prog.failIf (input.score.isNan || input.score.isInfinite)
    (.validation "score must be a finite number")
  Prog.ofExcept (validateSlug input.entrySlug)
  Prog.ofExcept (validateName input.entryName)
  Action.transaction do
    let entryId ← Action.sql (.upsertEntry board.id input.entrySlug input.entryName)
    Action.sql (.upsertScore board.id entryId input.score)

/-- The limit on the number of entries. -/
def checkEntryLimit (count : ℕ) : Option ℕ → Action Unit
  | none => .ret ()
  | some max => Prog.failIf (max < count)
      (.validation s!"too many entries to snapshot ({count}, max {max})")

/-- Insert one score as a placement; the position comes later. -/
def insertScore (version : Version) (s : Uuid × F64 × String × String) : Action Unit := do
  let _ ← Action.sql (.insertPlacement version.id s.1 none (some s.2.1) none none)

/-- The part of `scores::snapshot` inside the transaction. -/
def snapshotBody (boardId : Uuid) (note : Option String) (metadata : Option Json)
    (maxVersions : Option ℤ) (maxEntries : Option ℕ) : Action VersionWithPlacements := do
  -- The lock serializes concurrent snapshots.
  let board ← Action.sql (.selectBoardForUpdate boardId)
  Versions.checkVersionLimit board.id maxVersions
  let scores ← Action.sql (.selectScores board.id)
  Prog.failIf (scores = []) (.validation "no accumulated scores to snapshot")
  checkEntryLimit scores.length maxEntries
  let nextNumber ← Action.sql (.nextVersionNumber board.id)
  let version ← Action.sql (.insertVersion board.id nextNumber note metadata)
  Prog.each scores (insertScore version)
  Versions.deriveScoredPositions version.id board.sortDirection
  let placements ← Action.sql (.selectSnapshotPlacements version.id)
  return ⟨version, placements⟩

/-- `scores::snapshot`. -/
def snapshot (board : Board) (note : Option String) (metadata : Option Json)
    (maxVersions : Option ℤ) (maxEntries : Option ℕ) : Action VersionWithPlacements := do
  Prog.failIf (¬board.accumulative = true)
    (.validation "snapshot is only allowed on accumulative boards")
  Prog.failIf (board.boardType ≠ "scored")
    (.validation "snapshot is only allowed on scored boards")
  Action.transaction (snapshotBody board.id note metadata maxVersions maxEntries)

end Scores

end Leaderboards
