import Leaderboards.Properties.FailedSync

/-!
# Syncs of accumulative boards

`sync_board` passes over a board when the file says that it is accumulative. The mode of the stored
board is looked at by `versions::create` alone, which refuses a version, after the board row and
the entries have been written. So the sync leaves a stored accumulative board alone exactly when
the file says that the board is accumulative, or the first change that the file asks for is refused
(`accumulative_left_alone_iff`).
-/

namespace Leaderboards

open Interaction

/-- The rows of the board of a slug, its accumulated scores among them, are the same in both
databases. -/
structure LeftAlone (slug : String) (db db' : Database) : Prop extends Untouched slug db db' where
  scores : ∀ b, db.boardBySlug? slug = some b → db'.scoresOf b.id = db.scoresOf b.id

theorem LeftAlone.refl (slug : String) (db : Database) : LeftAlone slug db db :=
  ⟨.refl slug db, fun _ _ => rfl⟩

variable {env : Supply} {w : World}

/-- **When a sync leaves an accumulative board alone.** Let the board of the slug of a parsed
directory be accumulative. Then the sync that runs without interruption leaves its row, its
entries, its accumulated scores and its versions as they were, whatever it returns, if and only if
the file says that the board is accumulative, or the first change that the file asks for does not
pass its validation (or the file asks for no change of the board row and of the entries). -/
theorem accumulative_left_alone_iff {b : Board} {r : Except Error BoardSyncResult} {w' : World}
    (hs : w.session = none) (hschema : w.server.db.Schema) (hsupplied : w.Supplied env)
    (parsed : ParsedBoard) (note : Option String)
    (hb : w.server.db.boardBySlug? parsed.slug = some b) (haccumulative : b.accumulative = true)
    (h : (Sync.syncBoard parsed note).run (serve env) w = (r, w')) :
    LeftAlone parsed.slug w.server.db w'.server.db ↔
      parsed.board.accumulative = true ∨ Sync.FirstChangeRefused w.server.db parsed := by
  rcases hfile : parsed.board.accumulative with _ | _
  · have hends : (Sync.syncBoard parsed note).Ends env (fun _ w' => ChangesUnless
        (Sync.FirstChangeRefused w.server.db parsed) parsed.slug w.server.db w'.server.db) w :=
      (ends_syncBoard hs hschema hsupplied hfile).mono fun r w' hr =>
        hr (.inr ⟨b, hb, haccumulative⟩)
    have hpost := hends
    unfold Action.Ends Prog.Ends at hpost
    rw [h] at hpost
    constructor
    · intro halone
      exact .inr (hpost.untouched_iff.mp halone.toUntouched)
    · rintro (habsurd | hrefused)
      · cases habsurd
      · rw [hpost.kept hrefused]
        exact .refl _ _
  · -- The file is passed over.
    have hskipped : w'.server.db = w.server.db := by
      unfold Sync.syncBoard at h
      rw [if_pos hfile] at h
      exact congrArg (fun x => x.2.server.db) h.symm
    rw [hskipped]
    exact iff_of_true (.refl _ _) (.inl rfl)

/-! ### Two runs -/

/-- The world after the creation of an accumulative board. -/
def arcade : World := serveAll counting
  [.createBoard { slug := "b", name := "B", boardType := "scored", accumulative := true }] {}

/-- The world is one that can be reached, and nothing is going on in it. -/
theorem arcade_reached : (∃ g : System False, System.Reachable {} g ∧ g.servers = arcade.server) ∧
    arcade.session = none ∧ arcade.Supplied counting := by
  obtain ⟨g, hg, hrest⟩ := reachable_serveAll (P := {}) counting False
    [.createBoard { slug := "b", name := "B", boardType := "scored", accumulative := true }]
    fun r _ => r.respects_default
  exact ⟨⟨g, hg, hrest.servers⟩, hrest.session, hrest.supplied⟩

set_option maxRecDepth 10000 in
/-- The name of the one entry in the file is refused, and the file agrees with the board row. -/
theorem accumulative_left_alone_run : ∃ (b : Board) (e : Error) (w' : World),
    arcade.server.db.boardBySlug? "b" = some b ∧ b.accumulative = true ∧
      (Sync.syncBoard { scoredFile "B" none with entries := [{ slug := "e", name := "" }] }
        none).run (serve counting) arcade = (.error e, w') ∧
      LeftAlone "b" arcade.server.db w'.server.db := by
  obtain ⟨⟨g, hg, hserver⟩, hs, hsupplied⟩ := arcade_reached
  refine ⟨_, .validation "name must not be empty", _, rfl, rfl, rfl, ?_⟩
  refine (accumulative_left_alone_iff hs (hserver ▸ hg.inv.schema) hsupplied
    { scoredFile "B" none with entries := [{ slug := "e", name := "" }] } none
    rfl rfl rfl).mpr (.inr ?_)
  intro line hline
  obtain rfl := Option.some.inj (hline.symm.trans rfl)
  exact .inr (by decide)

set_option maxRecDepth 10000 in
/-- A file that does not say that its board is accumulative gives the board an entry before the
version is refused. -/
theorem accumulative_synced_from_file : ∃ (g : System False) (b : Board) (e : Error) (w' : World),
    System.Reachable {} g ∧ g.servers = arcade.server ∧
      arcade.server.db.boardBySlug? "b" = some b ∧ b.accumulative = true ∧
      (Sync.syncBoard (scoredFile "B" (some ⟨1⟩)) none).run (serve counting) arcade =
        (.error e, w') ∧
      ¬LeftAlone "b" arcade.server.db w'.server.db := by
  obtain ⟨⟨g, hg, hserver⟩, -, -⟩ := arcade_reached
  refine ⟨g, _, .validation
    "cannot create versions directly on accumulative boards; use POST /boards/:slug/snapshot instead",
    _, hg, hserver, rfl, rfl, rfl, fun h => ?_⟩
  have hentries := congrArg List.length (h.entries _ rfl)
  revert hentries
  decide

end Leaderboards
