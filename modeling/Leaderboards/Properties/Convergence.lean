import Leaderboards.Properties.SyncAgain

/-!
# Convergence of a sync

After a sync of a file with entries that made a version, the latest version is what a version of
the file would be now. When the change detector found no difference, that is so exactly when what
it does not compare agrees as well: the ranks of a scored board, the positions that a tiered file
leaves out, and that no entry stands twice in the file (`sync_converges_iff`).
-/

namespace Leaderboards

open Interaction Ranking

variable {env : Supply} {w w' : World} {db : Database} {parsed : ParsedBoard}
  {note : Option String} {c c' : Contents} {ps current : List CreatePlacement}

namespace Sync

/-- The latest version has exactly the placements of the file, at the positions that a version
created now would give them. -/
def Converged (db : Database) (parsed : ParsedBoard) : Prop :=
  ∃ c v, db.boardContents? parsed.slug = some c ∧ c.latest? = some v ∧
    v.2.placements.Perm (c.stored (parsed.entries.map placementOf))

/-- What the change detector does not compare agrees with the file: no entry stands twice in it, the
stored positions of a scored board are the ranks, and a tiered board has no position where the file
has none. -/
def UncomparedAgree (c? : Option Contents) (parsed : ParsedBoard)
    (current : List CreatePlacement) : Prop :=
  (parsed.entries.map EntryToml.slug).Nodup ∧
    ∀ line ∈ parsed.entries, ∀ q ∈ current, q.entrySlug = line.slug →
      (Contents.typeFor c? parsed = "scored" →
        q.position = some (scoreRank parsed (Contents.slugsFor c? parsed) line : ℤ)) ∧
      (Contents.typeFor c? parsed = "tiered" → line.position = none → q.position = none)

/-- A sync of the file brings the latest version to the file: it has to make a version, or the
latest version agrees with the file in what is not compared. -/
def BringsLatest (c? : Option Contents) (parsed : ParsedBoard) : Prop :=
  Contents.MakesVersion c? parsed ∨ ∃ c v, c? = some c ∧ c.latest? = some v ∧
    UncomparedAgree c? parsed v.2.placements

end Sync

/-- A list of placements that the change detector finds no difference to is the one that a version
stores exactly when no entry stands twice and the positions are the ones that it gives. -/
theorem perm_stored_iff (hcurrent : (current.map CreatePlacement.entrySlug).Nodup)
    (hlength : current.length = ps.length)
    (hmatches : ∀ x ∈ ps.zipIdx, ∃ q ∈ current, q.Matches c.board.boardType x) :
    current.Perm (c.stored ps) ↔ (ps.map CreatePlacement.entrySlug).Nodup ∧
      ∀ x ∈ ps.zipIdx, ∀ q ∈ current, q.entrySlug = x.1.entrySlug →
        q.position = c.positionAt ps x := by
  constructor
  · intro hperm
    have hslugs : (ps.map CreatePlacement.entrySlug).Nodup := by
      rw [← Contents.map_slug_stored c ps]
      exact ((hperm.map _).nodup_iff).mp hcurrent
    refine ⟨hslugs, fun x hx q hq hslug => ?_⟩
    rw [(Contents.mem_stored hslugs hx hslug).mp (hperm.mem_iff.mp hq)]
  · rintro ⟨hslugs, hpositions⟩
    have hstored : (c.stored ps).Nodup := by
      refine List.Nodup.of_map CreatePlacement.entrySlug ?_
      rwa [Contents.map_slug_stored]
    have hsub : c.stored ps ⊆ current := by
      intro p hp
      rw [Contents.stored_eq] at hp
      obtain ⟨x, hx, rfl⟩ := List.mem_map.mp hp
      obtain ⟨q, hq, hmatch⟩ := hmatches x hx
      have hq' : q = { x.1 with position := c.positionAt ps x } := by
        rw [← hpositions x hx q hq hmatch.slug]
        exact hmatch.eq
      exact hq' ▸ hq
    have hstoredLength : (c.stored ps).length = ps.length := by
      rw [Contents.stored_eq, List.length_map, List.length_zipIdx]
    exact ((hstored.subperm hsub).perm_of_length_le (by omega)).symm

/-- The slugs of the placements of a version are pairwise different. -/
theorem slugs_placed {b : Board} (hdb : db.Schema) {v : Version} (hv : v ∈ db.versionsOf b.id) :
    ((db.placed v.id).map CreatePlacement.entrySlug).Nodup := by
  have hmem := (Database.mem_versionsOf.mp hv).1
  have hslugs : (db.placed v.id).map CreatePlacement.entrySlug =
      (db.placementRows v.id).map PlacementWithEntry.entrySlug := by
    have hbare := congrArg (List.map PlacementWithEntry.entrySlug) (bare_placementRows hdb hmem)
    rw [List.map_map, List.map_map] at hbare
    exact hbare.symm
  rw [hslugs]
  exact hdb.entrySlugs_nodup hmem

/-- What the table guarantees of the contents of a board with a latest version. -/
theorem boardContents?_latest {slug : String} (hdb : db.Schema)
    (hc : db.boardContents? slug = some c) {v : ℤ × CreateVersion} (hv : c.latest? = some v) :
    (v.2.placements.map CreatePlacement.entrySlug).Nodup ∧
      (c.board.boardType = "ordered" ∨ c.board.boardType = "scored" ∨
        c.board.boardType = "tiered") := by
  obtain ⟨b, hb, rfl⟩ := Option.map_eq_some_iff.mp hc
  rw [latest?_boardContents] at hv
  obtain ⟨r, hr, rfl⟩ := Option.map_eq_some_iff.mp hv
  have hr' : r ∈ db.versionsOf b.id := (mem_orderBy _).mp (List.mem_of_head? hr)
  exact ⟨slugs_placed hdb hr',
    (hdb.board_checks b (Database.mem_of_boardBySlug? hb).1).1⟩

/-- The position that a version of a scored board stores for a file line. -/
theorem positionAt_scored {c? : Option Contents} {r : BoardSyncResult}
    (h : Contents.Synced parsed c? r c) (htype : c.board.boardType = "scored") (line : EntryToml)
    (i : ℕ) : c.positionAt (parsed.entries.map Sync.placementOf) (Sync.placementOf line, i) =
      some (Sync.scoreRank parsed (Contents.slugsFor c? parsed) line : ℤ) := by
  have hrank := scoreRank_contents h.direction line
  rw [h.slugs] at hrank
  rw [Contents.positionAt, if_pos htype, hrank]

/-- The position that a version of a tiered board stores for a file line. -/
theorem positionAt_tiered (htype : c.board.boardType = "tiered") (line : EntryToml) (i : ℕ) :
    c.positionAt ps (Sync.placementOf line, i) = line.position := by
  have hscored : ¬c.board.boardType = "scored" := by
    rw [htype]
    decide
  have hordered : ¬c.row.boardType = "ordered" := by
    change ¬c.board.boardType = "ordered"
    rw [htype]
    decide
  rw [Contents.positionAt, if_neg hscored, Versions.storedPosition, if_neg hordered]
  rfl

/-- The positions that a version of the file would store now, for what is not compared. -/
theorem positions_iff {c? : Option Contents} {r : BoardSyncResult}
    (h : Contents.Synced parsed c? r c)
    (htype : c.board.boardType = "ordered" ∨ c.board.boardType = "scored" ∨
      c.board.boardType = "tiered")
    (hmatches : ∀ x ∈ (parsed.entries.map Sync.placementOf).zipIdx,
      ∃ q ∈ current, q.Matches c.board.boardType x)
    (hcurrent : (current.map CreatePlacement.entrySlug).Nodup) :
    (∀ x ∈ (parsed.entries.map Sync.placementOf).zipIdx, ∀ q ∈ current,
      q.entrySlug = x.1.entrySlug →
        q.position = c.positionAt (parsed.entries.map Sync.placementOf) x) ↔
    ∀ line ∈ parsed.entries, ∀ q ∈ current, q.entrySlug = line.slug →
      (Contents.typeFor c? parsed = "scored" → q.position =
        some (Sync.scoreRank parsed (Contents.slugsFor c? parsed) line : ℤ)) ∧
      (Contents.typeFor c? parsed = "tiered" → line.position = none → q.position = none) := by
  rw [← h.boardType]
  constructor
  · intro hpositions line hline q hq hslug
    obtain ⟨i, hi, hget⟩ := List.getElem_of_mem hline
    have hx : (Sync.placementOf line, i) ∈ (parsed.entries.map Sync.placementOf).zipIdx := by
      refine List.mem_zipIdx_iff_getElem?.mpr ?_
      rw [List.getElem?_map, List.getElem?_eq_getElem hi, hget]
      rfl
    have hposition := hpositions _ hx q hq hslug
    refine ⟨fun hscored => ?_, fun htiered hnone => ?_⟩
    · rw [hposition, positionAt_scored h hscored]
    · rw [hposition, positionAt_tiered htiered, hnone]
  · rintro huncompared ⟨p, i⟩ hx q hq hslug
    obtain ⟨q', hq', hmatch⟩ := hmatches _ hx
    obtain rfl : q = q' := List.inj_on_of_nodup_map hcurrent hq hq'
      (hslug.trans hmatch.slug.symm)
    obtain ⟨line, hline, rfl⟩ := List.mem_map.mp (List.fst_mem_of_mem_zipIdx hx)
    obtain ⟨hscored, htiered⟩ := huncompared line hline q hq hslug
    -- On an ordered board every position is compared, on a tiered one every stated position.
    rcases htype with htype | htype | htype
    · have hneScored : c.board.boardType ≠ "scored" := by
        rw [htype]
        decide
      rcases hline' : line.position with _ | n
      · rw [hmatch.implicit hline' htype, Contents.positionAt, if_neg hneScored,
          Versions.storedPosition, if_pos (show c.row.boardType = "ordered" from htype),
          Versions.resolvedPosition]
        exact congrArg (fun o : Option ℤ => some (o.getD ((i : ℤ) + 1))) hline'.symm
      · rw [hmatch.explicit n hline', Contents.positionAt_explicit hneScored hline']
    · rw [hscored htype, positionAt_scored h htype]
    · rw [positionAt_tiered htype]
      rcases hline' : line.position with _ | n
      · exact htiered htype hline'
      · exact hmatch.explicit n hline'

/-- **Convergence.** Let the sync of a file with entries return that it created a version or that
there was no change. Then the latest version has exactly the placements of the file, with their
scores, tiers and metadata and at the positions that a version created now would give them, if and
only if the sync had to make a version or the latest version agreed in what is not compared. -/
theorem sync_converges_iff {r : BoardSyncResult} (h : w.Rested env) (note : Option String)
    (hrun : (Sync.syncBoard parsed note).run (serve env) w = (.ok r, w'))
    (hne : parsed.entries ≠ []) (haction : r.Versioned ∨ r.action = .noChange) :
    Sync.Converged w'.server.db parsed ↔
      Sync.BringsLatest (w.server.db.boardContents? parsed.slug) parsed := by
  rcases hfile : parsed.board.accumulative with _ | _
  swap
  · have hskip : Sync.syncBoard parsed note = .ret ⟨parsed.slug, parsed.board.name,
        .skipped Sync.skipReason⟩ := if_pos hfile
    rw [hskip] at hrun
    obtain rfl := Except.ok.inj (Prod.mk.inj hrun).1
    rcases haction with ⟨n, haction | haction⟩ | haction <;> cases haction
  have hends := ends_syncBoard_contents h parsed note
  unfold Action.Ends Prog.Ends at hends
  rw [hrun] at hends
  obtain ⟨c'?, hsync, hsynced⟩ := hends
  obtain ⟨c', rfl, hleft⟩ := Contents.sync_ok hfile (slugs_boardContents? h.schema) hsync
  have hconverged : Sync.Converged w'.server.db parsed ↔ ∃ v, c'.latest? = some v ∧
      v.2.placements.Perm (c'.stored (parsed.entries.map Sync.placementOf)) := by
    unfold Sync.Converged
    rw [hsynced.contents]
    simp
  rw [hconverged]
  by_cases hmade : Contents.MakesVersion (w.server.db.boardContents? parsed.slug) parsed
  · obtain ⟨-, -, v, hlatest, hplacements⟩ := hleft.made hne hmade
    exact iff_of_true ⟨v, hlatest, hplacements ▸ List.Perm.refl _⟩ (.inl hmade)
  obtain ⟨-, -, c, hc, hversions⟩ := hleft.kept hne hmade
  have hlatest' : c'.latest? = c.latest? := by rw [Contents.latest?, hversions]; rfl
  have htype' : c'.board.boardType = c.board.boardType := by
    rw [hleft.boardType, hc]
    rfl
  -- The latest version that the change detector found no difference to.
  obtain ⟨v, hlatest, hunchanged⟩ : ∃ v, c.latest? = some v ∧
      Sync.placementsChanged c.board.boardType (v.2.placements.map CreatePlacement.joined)
        (parsed.entries.map Sync.placementOf) = false := by
    have hneeds : ¬c.Needs parsed (Sync.rankingConfigChanged c.row parsed) := fun hneeds =>
      hmade fun x hx => Option.some.inj (hc.symm.trans hx) ▸ hneeds
    unfold Contents.Needs at hneeds
    push Not at hneeds
    obtain ⟨-, v, hlatest, hunchanged⟩ := hneeds
    exact ⟨v, hlatest, Bool.not_eq_true _ |>.mp hunchanged⟩
  obtain ⟨hslugs, htypes⟩ := boardContents?_latest h.schema hc hlatest
  obtain ⟨hlength, hmatches⟩ := (placementsChanged_eq_false_iff hslugs).mp hunchanged
  rw [← htype'] at hmatches htypes
  have hfileSlugs : (parsed.entries.map Sync.placementOf).map CreatePlacement.entrySlug =
      parsed.entries.map EntryToml.slug := List.map_map ..
  have hagree : v.2.placements.Perm (c'.stored (parsed.entries.map Sync.placementOf)) ↔
      Sync.UncomparedAgree (w.server.db.boardContents? parsed.slug) parsed v.2.placements := by
    rw [perm_stored_iff hslugs hlength hmatches, hfileSlugs,
      positions_iff hleft htypes hmatches hslugs]
    rfl
  rw [hlatest']
  constructor
  · rintro ⟨v', hv', hperm⟩
    obtain rfl := Option.some.inj (hlatest.symm.trans hv')
    exact .inr ⟨c, v, hc, hlatest, hagree.mp hperm⟩
  · rintro (hmakes | ⟨c₀, v', hc₀, hv', huncompared⟩)
    · exact absurd hmakes hmade
    · obtain rfl := Option.some.inj (hc.symm.trans hc₀)
      obtain rfl := Option.some.inj (hlatest.symm.trans hv')
      exact ⟨v, hlatest, hagree.mpr huncompared⟩

set_option maxRecDepth 10000 in
/-- A first sync makes a version. -/
theorem sync_converges_iff_run :
    Sync.Converged (afterFirst (fileAt "ordered" 2)).server.db (fileAt "ordered" 2) := by
  have hrun : (Sync.syncBoard (fileAt "ordered" 2) none).run (serve counting) {} =
      (.ok ⟨"b", "B", .created 1⟩, afterFirst (fileAt "ordered" 2)) := rfl
  have hmakes : Contents.MakesVersion none (fileAt "ordered" 2) := fun c hc => by cases hc
  exact (sync_converges_iff (World.rested_initial fun _ _ => Nat.succ_lt_succ) none hrun
    (List.cons_ne_nil _ _) (.inl ⟨1, .inl rfl⟩)).mpr (.inl hmakes)

/-! ### A direction that was patched -/

/-- A file of a scored board with the two smallest positive scores. -/
def twoScores (sortDirection : String) : ParsedBoard where
  slug := "b"
  board := { name := "B", boardType := "scored", sortDirection := sortDirection }
  entries := [{ slug := "x", name := "X", score := some ⟨1⟩ },
    { slug := "y", name := "Y", score := some ⟨2⟩ }]

/-- The world after the sync of the descending board and a PATCH of its direction. -/
def patchedWorld : World :=
  ((Boards.update "b" { sortDirection := some "asc" }).run (serve counting)
    (afterFirst (twoScores "desc"))).2

set_option maxRecDepth 20000 in
/-- The sync of the ascending file finds no difference, and the descending positions stay. -/
theorem sync_keeps_stale_ranks :
    ((Sync.syncBoard (twoScores "asc") none).run (serve counting) patchedWorld).1 =
      .ok ⟨"b", "B", .noChange⟩ ∧
    ¬Sync.Converged ((Sync.syncBoard (twoScores "asc") none).run (serve counting)
      patchedWorld).2.server.db (twoScores "asc") := by
  refine ⟨rfl, ?_⟩
  generalize hdb : ((Sync.syncBoard (twoScores "asc") none).run (serve counting)
    patchedWorld).2.server.db = db
  have hlatest : ((db.boardContents? "b").bind Contents.latest?).map
      (fun v => v.2.placements.map fun p => (p.entrySlug, p.position)) =
        some [("x", some 2), ("y", some 1)] := by
    rw [← hdb]
    rfl
  have hstored : (db.boardContents? "b").map (fun c =>
      (c.stored ((twoScores "asc").entries.map Sync.placementOf)).map
        fun p => (p.entrySlug, p.position)) = some [("x", some 1), ("y", some 2)] := by
    rw [← hdb]
    rfl
  rintro ⟨c, v, hc, hv, hperm⟩
  rw [show (twoScores "asc").slug = "b" from rfl] at hc
  rw [hc, Option.bind_some, hv, Option.map_some] at hlatest
  rw [hc, Option.map_some] at hstored
  have hperm' := hperm.map fun p => (p.entrySlug, p.position)
  rw [Option.some.inj hlatest, Option.some.inj hstored] at hperm'
  revert hperm'
  decide

end Leaderboards
