import Leaderboards.Contents.Rows
import Leaderboards.Transactions.Creating

/-!
# The contents with a new version

The rows that `versions::create` inserts are, in the contents of their board, one more version
with the placements of the request at the positions that the board gives them
(`boardContents_withVersion`). The ids of the entries only matter for ties between scores, where
they stand for the order in which the entries were created (`entryId_lt_iff`).
-/

namespace Leaderboards

open Ranking

variable {db db' : Database} {b : Board} {input : CreateVersion} {v : Version}
  {rows : List Placement}

/-! ### The schema -/

/-- What a write that is legal while nothing is committed leads to. -/
private theorem schema_of_legal {w : RowWrite} {L : List Lock} (hdb : db.Schema)
    (h : Legal {} {} L w db) : (w.apply db).Schema := h.schema hdb

theorem Database.Schema.addBoard (hdb : db.Schema) (hid : ∀ r ∈ db.boards, r.id ≠ b.id)
    (hslug : ∀ r ∈ db.boards, r.slug ≠ b.slug) (hchecks : b.checks) : (db.addBoard b).Schema :=
  schema_of_legal (w := .addBoard b)
    (L := [⟨.board b.id, .update⟩, ⟨.boardSlug b.slug, .update⟩]) hdb
    ⟨List.not_mem_nil, hid, hslug, hchecks, ⟨trivial, trivial⟩, held_of_mem (by simp),
      held_of_mem (by simp)⟩

theorem Database.Schema.setBoard (hdb : db.Schema) (hkey : ∃ r ∈ db.boards, r.SameKey b)
    (hchecks : b.checks) : (db.setBoard b).Schema :=
  schema_of_legal (w := .setBoard b) (L := [⟨.board b.id, .noKeyUpdate⟩]) hdb
    ⟨hkey, hchecks, ⟨trivial, trivial⟩, held_of_mem (by simp)⟩

theorem Database.Schema.addEntry {e : Entry} (hdb : db.Schema)
    (hid : ∀ r ∈ db.entries, r.id ≠ e.id)
    (hkey : ∀ r ∈ db.entries, ¬(r.boardId = e.boardId ∧ r.slug = e.slug))
    (hboard : ∃ b ∈ db.boards, b.id = e.boardId) : (db.addEntry e).Schema :=
  schema_of_legal (w := .addEntry e) (L := [⟨.board e.boardId, .keyShare⟩, ⟨.entry e.id, .update⟩,
    ⟨.entrySlug e.boardId e.slug, .update⟩]) hdb
    ⟨List.not_mem_nil, hid, hkey, hboard, held_of_mem (by simp), held_of_mem (by simp),
      held_of_mem (by simp)⟩

theorem Database.Schema.setEntry {e : Entry} (hdb : db.Schema)
    (hkey : ∃ r ∈ db.entries, r.SameKey e) : (db.setEntry e).Schema :=
  schema_of_legal (w := .setEntry e) (L := [⟨.entry e.id, .noKeyUpdate⟩]) hdb
    ⟨hkey, held_of_mem (by simp)⟩

/-- The tables with a new version keep the schema. -/
theorem CreatedVersion.schema (h : CreatedVersion db b input v rows) (hdb : db.Schema)
    (hslugs : (input.placements.map CreatePlacement.entrySlug).Nodup)
    (hids : ∀ p ∈ rows, ∀ r ∈ db.placements, r.id ≠ p.id) (hnodup : (rows.map Placement.id).Nodup) :
    (db.withVersion v rows).Schema := by
  have hmem : b ∈ db.boards := (Database.mem_of_board? h.board).1
  have hversion : (db.withVersion v []).Schema := by
    have hnumber : ∀ r ∈ db.versions, r.boardId = v.boardId →
      r.versionNumber ≠ v.versionNumber := by
      intro r hr hboard
      have hle := Database.le_maxVersionNumber hr
      rw [hboard, h.boardId] at hle
      rw [h.number]
      omega
    have hlegal : Legal {} {} [⟨.board v.boardId, .update⟩, ⟨.version v.id, .update⟩]
        (.addVersion v) db :=
      ⟨h.new, hnumber, h.number ▸ hdb.next_pos b.id, ⟨b, hmem, h.boardId.symm⟩,
        .inr fun r hr => absurd hr List.not_mem_nil, held_of_mem (by simp), held_of_mem (by simp)⟩
    have hadded := schema_of_legal hdb hlegal
    simpa only [RowWrite.apply, Database.addVersion, Database.withVersion, List.append_nil]
      using hadded
  -- The placements are inserted one after the other.
  have hplacements : ∀ (rest : List Placement) (xs : List (CreatePlacement × ℕ))
      (before : List Placement) (ys : List (CreatePlacement × ℕ)),
      List.Forall₂ (PlacedAs db b v) xs rest → List.Forall₂ (PlacedAs db b v) ys before →
      ((ys ++ xs).map fun x => x.1.entrySlug).Nodup →
      ((before ++ rest).map Placement.id).Nodup →
      (∀ p ∈ rest, ∀ r ∈ db.placements, r.id ≠ p.id) → (db.withVersion v before).Schema →
      (db.withVersion v (before ++ rest)).Schema := by
    intro rest
    induction rest with
    | nil =>
      intro xs before ys _ _ _ _ _ hbefore
      rwa [List.append_nil]
    | cons p rest ih =>
      rintro xs before ys (_ | ⟨hp, hrest⟩) hys hnd hidnd hnew hbefore
      rename_i x xs
      obtain ⟨e, he, hentry, hslug⟩ := hp.entry
      obtain ⟨hentryMem, hentryBoard⟩ := Database.mem_entriesOf.mp he
      have hid : ∀ r ∈ db.placements ++ before, r.id ≠ p.id := by
        intro r hr
        rcases List.mem_append.mp hr with hr | hr
        · exact hnew p List.mem_cons_self r hr
        · rw [List.map_append, List.map_cons] at hidnd
          exact (List.nodup_append.mp hidnd).2.2 _ (List.mem_map_of_mem hr) _ List.mem_cons_self
      have hkey : ∀ r ∈ db.placements ++ before,
          ¬(r.versionId = p.versionId ∧ r.entryId = p.entryId) := by
        rintro r hr ⟨hversion', hentry'⟩
        rcases List.mem_append.mp hr with hr | hr
        · obtain ⟨v', hv', -, -, hvid, -⟩ := hdb.placement_board r hr
          exact h.new v' hv' (hvid.trans (hversion'.trans hp.versionId))
        · obtain ⟨y, hy, hplaced⟩ := placedAs_of_mem hys hr
          obtain ⟨e', he', hentry'', hslug'⟩ := hplaced.entry
          obtain rfl := hdb.entry_inj (Database.mem_entriesOf.mp he').1 hentryMem
            (hentry''.trans (hentry'.trans hentry.symm))
          rw [List.map_append, List.map_cons] at hnd
          exact (List.nodup_append.mp hnd).2.2 _ (List.mem_map_of_mem hy) _ List.mem_cons_self
            (hslug'.symm.trans hslug)
      have hlegal : Legal {} {} [⟨.version p.versionId, .update⟩, ⟨.entry p.entryId, .keyShare⟩,
          ⟨.placement p.id, .update⟩] (.addPlacement p) (db.withVersion v before) :=
        ⟨hid, hkey, ⟨v, List.mem_append_right _ List.mem_cons_self, e, hentryMem,
            hp.versionId.symm, hentry, hentryBoard.trans h.boardId.symm⟩,
          fun r hr => absurd hr List.not_mem_nil, held_of_mem (by simp), held_of_mem (by simp),
          held_of_mem (by simp)⟩
      have hnext : (db.withVersion v (before ++ [p])).Schema := by
        have hadded := schema_of_legal hbefore hlegal
        simpa only [RowWrite.apply, Database.withVersion, Database.addPlacement,
          List.append_assoc] using hadded
      have hstep := ih xs (before ++ [p]) (ys ++ [x]) hrest
        (List.rel_append hys (.cons hp .nil)) (by simpa using hnd) (by simpa using hidnd)
        (fun q hq => hnew q (List.mem_cons_of_mem _ hq)) hnext
      rwa [List.append_assoc] at hstep
  have hslugs' : (input.placements.zipIdx.map fun x => x.1.entrySlug).Nodup := by
    rwa [map_zipIdx_fst CreatePlacement.entrySlug input.placements]
  exact hplacements rows _ [] [] h.rows .nil hslugs' hnodup hids hversion

/-- The ranks keep the schema. -/
theorem Database.Schema.rankWrites (hdb : db.Schema) (b : Board) (v : Version) :
    (db.applyAll (rankWrites db b v)).Schema := by
  unfold Leaderboards.rankWrites
  split
  · exact schema_of_legal hdb (legal_derivePositions (L := [⟨.version v.id, .update⟩])
      (fun r hr => absurd hr List.not_mem_nil) (held_of_mem (by simp)))
  · exact hdb

/-! ### Ranks -/

/-- Related lists count alike. -/
theorem countP_forall₂ {α β : Type} {R : α → β → Prop} {p : α → Bool} {q : β → Bool} {l : List α}
    {l' : List β} (h : List.Forall₂ R l l') (hpq : ∀ a b, R a b → p a = q b) :
    l.countP p = l'.countP q := by
  induction h with
  | nil => rfl
  | cons hab _ ih => rw [List.countP_cons, List.countP_cons, ih, hpq _ _ hab]

/-- The rank by score only depends on the scores and on the order of the entries. -/
theorem scoreKey_lt_iff {asc : Bool} {p q p' q' : Placement} (hp : p.score = p'.score)
    (hq : q.score = q'.score) (hentries : p.entryId < q.entryId ↔ p'.entryId < q'.entryId) :
    scoreKey asc p < scoreKey asc q ↔ scoreKey asc p' < scoreKey asc q' := by
  unfold scoreKey
  rw [hp, hq]
  rcases p'.score with _ | x <;> rcases q'.score with _ | y <;>
    simp only [Prod.Lex.toLex_lt_toLex, hentries]

section Entries

variable {e e' : Entry}

/-- The place of an entry among those of its board. -/
theorem findIdx_entries (hdb : db.Schema) (he : e ∈ db.entriesOf b.id) :
    ∃ h : (db.boardContents b).entries.findIdx (fun x => x.slug = e.slug) <
        (orderBy Entry.id (db.entriesOf b.id)).length,
      (orderBy Entry.id (db.entriesOf b.id)).get ⟨_, h⟩ = e := by
  obtain ⟨i, hi, hget⟩ := List.getElem_of_mem ((mem_orderBy Entry.id).mpr he)
  have hsorted : (orderBy Entry.id (db.entriesOf b.id)).Pairwise fun x y => x.id < y.id :=
    orderBy_pairwise_lt Entry.id (hdb.entry_id.sublist (List.filter_sublist.map _))
  have hlength : i < (db.boardContents b).entries.length := by
    rwa [Database.boardContents_entries, List.length_map]
  have hplace : (db.boardContents b).entries.findIdx (fun x => x.slug = e.slug) = i := by
    rw [List.findIdx_eq hlength]
    simp only [Database.boardContents_entries, List.getElem_map]
    refine ⟨by rw [hget]; exact decide_eq_true rfl, fun j hj => decide_eq_false fun hslug => ?_⟩
    -- An entry before it has another id, so it has another slug.
    have hj' : j < (orderBy Entry.id (db.entriesOf b.id)).length := hj.trans hi
    have hlt := List.pairwise_iff_getElem.mp hsorted j i hj' hi hj
    have hmem := (mem_orderBy Entry.id).mp (List.getElem_mem hj')
    obtain ⟨hmemj, hboardj⟩ := Database.mem_entriesOf.mp hmem
    obtain ⟨hmeme, hboarde⟩ := Database.mem_entriesOf.mp he
    have heq := hdb.entry_key_inj hmemj hmeme (hboardj.trans hboarde.symm) hslug
    rw [hget, heq] at hlt
    exact lt_irrefl _ hlt
  rw [hplace]
  exact ⟨hi, hget⟩

/-- **The ids of the entries of a board are ordered as their places are.** -/
theorem entryId_lt_iff (hdb : db.Schema) (he : e ∈ db.entriesOf b.id)
    (he' : e' ∈ db.entriesOf b.id) : e.id < e'.id ↔
      (db.boardContents b).entries.findIdx (fun x => x.slug = e.slug) <
        (db.boardContents b).entries.findIdx (fun x => x.slug = e'.slug) := by
  obtain ⟨hi, hget⟩ := findIdx_entries hdb he
  obtain ⟨hi', hget'⟩ := findIdx_entries hdb he'
  have hsorted : (orderBy Entry.id (db.entriesOf b.id)).Pairwise fun x y => x.id < y.id :=
    orderBy_pairwise_lt Entry.id (hdb.entry_id.sublist (List.filter_sublist.map _))
  have hmono := List.pairwise_iff_getElem.mp hsorted
  generalize hm : (db.boardContents b).entries.findIdx (fun x => x.slug = e.slug) = m at *
  generalize hn : (db.boardContents b).entries.findIdx (fun x => x.slug = e'.slug) = n at *
  rw [List.get_eq_getElem] at hget hget'
  rcases lt_trichotomy m n with hlt | heq | hlt
  · have hids := hmono m n hi hi' hlt
    rw [hget, hget'] at hids
    exact iff_of_true hids hlt
  · subst heq
    rw [← hget, ← hget']
    simp
  · have hids := hmono n m hi' hi hlt
    rw [hget, hget'] at hids
    exact iff_of_false hids.not_gt hlt.not_gt

end Entries

/-- The rank of a new row is that of the placement of the request. -/
theorem rank_placedAs (hdb : db.Schema) {done : List (CreatePlacement × ℕ)}
    (h : List.Forall₂ (PlacedAs db b v) done rows) {x : CreatePlacement × ℕ} {p : Placement}
    (hp : PlacedAs db b v x p) :
    rank (scoreKey (b.sortDirection = "asc")) rows p =
      (db.boardContents b).scoreRank (done.map Prod.fst) x.1 := by
  have hkey : ∀ y q, PlacedAs db b v y q →
      decide (scoreKey (b.sortDirection = "asc") q < scoreKey (b.sortDirection = "asc") p) =
        decide (scoreKey (b.sortDirection = "asc") ((db.boardContents b).placement y.1) <
          scoreKey (b.sortDirection = "asc") ((db.boardContents b).placement x.1)) := by
    intro y q hq
    obtain ⟨e, he, hid, hslug⟩ := hp.entry
    obtain ⟨e', he', hid', hslug'⟩ := hq.entry
    refine decide_eq_decide.mpr (scoreKey_lt_iff hq.score hp.score ?_)
    rw [← hid, ← hid', entryId_lt_iff hdb he' he, hslug, hslug']
    rfl
  have hcount := countP_forall₂ h fun y q hq => (hkey y q hq).symm
  rw [rank, Contents.scoreRank, rank, ← hcount, List.map_map, List.countP_map]
  rfl

/-! ### The contents -/

theorem nextNumber_boardContents (db : Database) (b : Board) :
    (db.boardContents b).nextNumber = db.maxVersionNumber b.id + 1 := by
  rw [Contents.nextNumber, Database.boardContents_versions, List.map_map]
  rfl

/-- The positions that a version stores. -/
theorem stored_placedAs (hdb : db.Schema) (h : CreatedVersion db b input v rows)
    {f : Placement → Placement}
    (hf : f = if b.boardType = "scored" then ranked (b.sortDirection = "asc") rows else id) :
    (rows.map f).map (fun p => p.input (db.slugOf p.entryId)) =
      (db.boardContents b).stored input.placements := by
  have hslug : ∀ x p, PlacedAs db b v x p → db.slugOf p.entryId = x.1.entrySlug := by
    intro x p hp
    obtain ⟨e, he, hid, hslug⟩ := hp.entry
    rw [← hid, hdb.slugOf_eq (Database.mem_entriesOf.mp he).1, hslug]
  rw [List.map_map]
  -- On a scored board the ranks replace the positions; otherwise they are stored as given.
  by_cases hscored : b.boardType = "scored"
  · rw [if_pos hscored] at hf
    have hstored : (db.boardContents b).stored input.placements = input.placements.zipIdx.map
        fun x => { x.1 with
          position := some ((db.boardContents b).scoreRank input.placements x.1 : ℤ) } := by
      have hpositions := map_zipIdx_fst (fun p : CreatePlacement => { p with
        position := some ((db.boardContents b).scoreRank input.placements p : ℤ) })
        input.placements
      exact (if_pos hscored).trans hpositions.symm
    rw [hstored, hf]
    refine map_of_placedAs h.rows fun x p hp => ?_
    have hrank := rank_placedAs hdb h.rows hp
    rw [List.zipIdx_map_fst] at hrank
    simp only [Function.comp_apply, ranked, Placement.input, hrank, hslug x p hp, hp.score, hp.tier,
      hp.metadata]
  · rw [if_neg hscored] at hf
    have hstored : (db.boardContents b).stored input.placements = input.placements.zipIdx.map
        fun x => { x.1 with position := Versions.storedPosition b x.1 x.2 } := if_neg hscored
    rw [hstored, hf]
    refine map_of_placedAs h.rows fun x p hp => ?_
    simp only [Function.comp_apply, id, Placement.input, hslug x p hp, hp.position, hp.score,
      hp.tier, hp.metadata]

/-- The placements of the new version, with their positions. -/
theorem placementsOf_rankWrites (hdb : db.Schema) (h : CreatedVersion db b input v rows)
    (hdb' : (db.withVersion v rows).Schema) :
    ((db.withVersion v rows).applyAll (rankWrites (db.withVersion v rows) b v)).placementsOf v.id =
      rows.map (if b.boardType = "scored" then ranked (b.sortDirection = "asc") rows else id) := by
  have hrows := placementsOf_withVersion hdb h.new h.rows
  unfold rankWrites
  split
  · have hderived := hdb'.placementsOf_derive v.id (b.sortDirection = "asc")
    rwa [hrows] at hderived
  · rw [List.map_id]
    exact hrows

/-- The placements of the other versions. -/
theorem placementsOf_rankWrites_of_ne (h : CreatedVersion db b input v rows)
    (hdb' : (db.withVersion v rows).Schema) {id : Uuid} (hid : id ≠ v.id) :
    ((db.withVersion v rows).applyAll (rankWrites (db.withVersion v rows) b v)).placementsOf id =
      db.placementsOf id := by
  have hrows : (db.withVersion v rows).placementsOf id = db.placementsOf id := by
    have hnone : rows.filter (fun p => p.versionId = id) = [] := by
      refine List.filter_eq_nil_iff.mpr fun p hp => ?_
      obtain ⟨x, -, hx⟩ := placedAs_of_mem h.rows hp
      rw [hx.versionId]
      simpa using hid.symm
    rw [Database.placementsOf, Database.withVersion, List.filter_append, hnone, List.append_nil]
    rfl
  rw [← hrows]
  unfold rankWrites
  split
  · exact hdb'.placementsOf_derive_of_ne _ hid
  · rfl

theorem rankWrites_versions (db : Database) (b : Board) (v : Version) :
    (db.applyAll (rankWrites db b v)).versions = db.versions := by
  unfold rankWrites
  split <;> rfl

theorem rankWrites_entries (db : Database) (b : Board) (v : Version) :
    (db.applyAll (rankWrites db b v)).entries = db.entries := by
  unfold rankWrites
  split <;> rfl

theorem rankWrites_boards (db : Database) (b : Board) (v : Version) :
    (db.applyAll (rankWrites db b v)).boards = db.boards := by
  unfold rankWrites
  split <;> rfl

/-- **The contents with a new version.** -/
theorem boardContents_withVersion (hdb : db.Schema) (h : CreatedVersion db b input v rows)
    (hdb' : (db.withVersion v rows).Schema) :
    ((db.withVersion v rows).applyAll (rankWrites (db.withVersion v rows) b v)).boardContents b =
      { db.boardContents b with
        versions := (db.boardContents b).versions ++
          [((db.boardContents b).nextNumber,
            { input with placements := (db.boardContents b).stored input.placements })] } := by
  have hranked := hdb'.rankWrites b v
  have hrows := placementsOf_rankWrites hdb h hdb'
  have hrows' : ∀ id, id ≠ v.id → _ := fun id => placementsOf_rankWrites_of_ne h hdb'
  have hversions := rankWrites_versions (db.withVersion v rows) b v
  have hentries := rankWrites_entries (db.withVersion v rows) b v
  generalize (db.withVersion v rows).applyAll (rankWrites (db.withVersion v rows) b v) = db' at *
  have hversions' : db'.versionsOf b.id = db.versionsOf b.id ++ [v] := by
    rw [Database.versionsOf, hversions]
    simp [Database.withVersion, Database.versionsOf, h.boardId]
  have hentries' : db'.entriesOf b.id = db.entriesOf b.id := by
    rw [Database.entriesOf, hentries]
    rfl
  -- The old versions read as before.
  have hold : (db.versionsOf b.id).map db'.numbered = (db.versionsOf b.id).map db.numbered := by
    refine List.map_congr_left fun r hr => ?_
    have hmem := (Database.mem_versionsOf.mp hr).1
    refine hdb.numbered_eq hranked hmem (hrows' r.id (h.new r hmem)) fun e he => ?_
    exact ⟨e, by rw [hentries]; exact (Database.mem_entriesOf.mp he).1, rfl, rfl⟩
  have hslugOf : db'.slugOf = db.slugOf := by
    funext id
    rw [Database.slugOf, Database.entryById?, hentries]
    rfl
  have hnew : db'.numbered v = ((db.boardContents b).nextNumber,
      { input with placements := (db.boardContents b).stored input.placements }) := by
    rw [Database.numbered, Database.placed, hrows, hslugOf, stored_placedAs hdb h rfl, h.number,
      nextNumber_boardContents, h.note, h.metadata]
  rw [Database.boardContents, hversions', hentries', List.map_append, hold,
    List.map_singleton, hnew]
  rfl

/-- A new version of a board leaves the others alone. -/
theorem elsewhere_withVersion (h : CreatedVersion db b input v rows)
    (hdb' : (db.withVersion v rows).Schema) :
    Elsewhere b.id db
      ((db.withVersion v rows).applyAll (rankWrites (db.withVersion v rows) b v)) where
  boards r _ := by rw [rankWrites_boards]; rfl
  entries id _ := by rw [Database.entriesOf, rankWrites_entries]; rfl
  versions id hid := by
    rw [Database.versionsOf, rankWrites_versions]
    have hother : ¬v.boardId = id := fun heq => hid (heq.symm.trans h.boardId)
    simp [Database.withVersion, Database.versionsOf, hother]
  placements r hr _ := placementsOf_rankWrites_of_ne h hdb' (h.new r hr)

end Leaderboards
