import Leaderboards.Contents.Syncing

/-!
# Independence of the boards of a sync

`sync_dir` brings one board after the other to its file and records a failure instead of
stopping. Each result, and what each board holds afterwards, is what a sync of that file alone
would give.
-/

namespace Leaderboards

open Interaction

variable {env : Supply} {w : World} {note : Option String}

/-- Syncing a file alone from the tables `db`, with whatever ids and times, records `result`, and
the board of the file holds afterwards what it holds in `db'`. -/
def Sync.AgreesAlone (note : Option String) (db db' : Database) (parsed : ParsedBoard)
    (result : BoardSyncResult) : Prop :=
  ∀ (env : Supply) (w : World), w.Rested env → w.server.db = db →
    (Sync.syncBoard parsed note).Ends env (fun r w' => Sync.recorded parsed r = result ∧
      w'.server.db.boardContents? parsed.slug = db'.boardContents? parsed.slug) w

/-- What `Contents.sync` computes is what a sync alone gives. -/
theorem Sync.agreesAlone_of_contents {db db' : Database} {parsed : ParsedBoard}
    (h : db'.boardContents? parsed.slug =
      (Contents.sync parsed note (db.boardContents? parsed.slug)).2) :
    Sync.AgreesAlone note db db' parsed (Sync.recorded parsed
      (Contents.sync parsed note (db.boardContents? parsed.slug)).1) := by
  rintro env w hw rfl
  refine (ends_syncBoard_contents hw parsed note).mono fun r w' hr => ?_
  obtain ⟨c?, hsync, hsynced⟩ := hr
  rw [h, hsync, hsynced.contents]
  exact ⟨rfl, rfl⟩

/-- **Boards sync independently.** The loop of `sync_dir` over files with pairwise different slugs
records one result for each file, in their order. Each result, and what the board of the file holds
at the end, are those of a sync of that file alone from the same tables. -/
theorem boards_sync_independently (h : w.Rested env) {parsed : List ParsedBoard}
    (hslugs : (parsed.map ParsedBoard.slug).Nodup) (note : Option String) :
    ∃ results w', (Sync.syncDir parsed note).run (serve env) w = (.ok results, w') ∧
      List.Forall₂ (Sync.AgreesAlone note w.server.db w'.server.db) parsed results := by
  have hends := ends_syncDir_contents h hslugs note
  unfold Action.Ends Prog.Ends at hends
  obtain ⟨-, hresults, hcontents, -⟩ := hends
  refine ⟨_, _, Prod.ext hresults rfl, ?_⟩
  rw [List.forall₂_map_right_iff, List.forall₂_same]
  exact fun p hp => Sync.agreesAlone_of_contents (hcontents p hp)

/-! ### Two files -/

/-- A file of an ordered board with one entry. -/
def orderedFile (slug name : String) : ParsedBoard where
  slug := slug
  board := { name := name, boardType := "ordered" }
  entries := [{ slug := "e", name := "E" }]

/-- The first file is refused, and the second one creates its board. -/
theorem boards_sync_independently_run : ∃ results w',
    (Sync.syncDir [orderedFile "a" "", orderedFile "b" "B"] none).run (serve counting) {} =
      (.ok results, w') ∧
    List.Forall₂ (Sync.AgreesAlone none {} w'.server.db)
      [orderedFile "a" "", orderedFile "b" "B"] results :=
  boards_sync_independently (World.rested_initial fun _ _ => Nat.succ_lt_succ) (by decide) none

end Leaderboards
