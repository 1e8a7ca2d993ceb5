import Leaderboards.Properties.OrderedPositions
import Leaderboards.Transactions.Creating

/-!
# The response to a version creation

`versions::create` answers with the placements in the order of the request, and only for a scored
board with what `fetch_placements` reads. `get_by_number` sorts by tier, position and name, and it
fails when a tier lookup does. So the response is what is read afterwards exactly when the board is
scored, or the request lists the placements in the order of the read (`create_response_iff`).
-/

namespace Leaderboards

open Interaction Ranking Versions

variable {faulty : Prop} {collation : Collation} {db : Database} {env : Supply} {w : World}

/-- What the read sorts a placement by. -/
def readKey (collation : Collation) (tierConfig : Option Json) (p : PlacementWithEntry) :
    Except DbError (ℤ ×ₗ ℤ ×ₗ collation.Text) :=
  (tierOrd tierConfig p.tier).map fun ord => tierKey collation (ord, p)

/-- The lists are the same up to the order of placements that tie on the whole key. -/
structure SameUpToTies (collation : Collation) (tierConfig : Option Json)
    (ps qs : List PlacementWithEntry) : Prop where
  perm : ps.Perm qs
  keys : ps.map (readKey collation tierConfig) = qs.map (readKey collation tierConfig)

/-- What the read will sort a placement of a request by, given its tier lookup. -/
def inputKey (db : Database) (b : Board) (x : Option ℤ × CreatePlacement × ℕ) :
    ℤ ×ₗ ℤ ×ₗ db.collation.Text :=
  toLex (coalesceLast x.1, toLex (coalesceLast (storedPosition b x.2.1 x.2.2), db.collation.text
    (((db.entryBySlug? b.id x.2.1.entrySlug).map Entry.name).getD "")))

/-- The tier lookups succeed, and the request lists the placements in the order of the read. -/
def InReadOrder (db : Database) (b : Board) (ps : List CreatePlacement) : Prop :=
  ∃ ords, Contents.tierOrds b.tierConfig (ps.map CreatePlacement.tier) = .ok ords ∧
    ((ords.zip ps.zipIdx).map (inputKey db b)).Pairwise (· ≤ ·)

/-- The tier lookups, one by one. -/
theorem tierOrds_readKey {tierConfig : Option Json} {ps : List PlacementWithEntry}
    {ords : List (Option ℤ)}
    (h : Contents.tierOrds tierConfig (ps.map PlacementWithEntry.tier) = .ok ords) :
    ∀ x ∈ ords.zip ps, readKey collation tierConfig x.2 = .ok (tierKey collation x) := by
  induction ps generalizing ords with
  | nil => simp
  | cons p ps ih =>
    rw [List.map_cons, Contents.tierOrds] at h
    obtain ⟨ord, hord, h⟩ := Prog.except_bind_ok.mp h
    obtain ⟨ords', hords, h⟩ := Prog.except_bind_ok.mp h
    cases h
    rintro x hx
    rcases List.mem_cons.mp hx with rfl | hx
    · rw [readKey, hord]
      rfl
    · exact ih hords x hx

/-- Sorting some rows by the read's key changes nothing but ties exactly when they were in order. -/
theorem sameUpToTies_orderBy_iff (collation : Collation) {tierConfig : Option Json}
    {ps : List PlacementWithEntry}
    {ords : List (Option ℤ)}
    (h : Contents.tierOrds tierConfig (ps.map PlacementWithEntry.tier) = .ok ords) :
    SameUpToTies collation tierConfig ps ((orderBy (tierKey collation) (ords.zip ps)).map
      Prod.snd) ↔
      ((ords.zip ps).map (tierKey collation)).Pairwise (· ≤ ·) := by
  have hlength : ps.length ≤ ords.length := by
    rw [length_tierOrds h, List.length_map]
  have hrows : (ords.zip ps).map Prod.snd = ps := List.map_snd_zip hlength
  have hkeys : ∀ l : List (Option ℤ × PlacementWithEntry), (∀ x ∈ l, x ∈ ords.zip ps) →
      (l.map Prod.snd).map (readKey collation tierConfig) = (l.map (tierKey collation)).map
        Except.ok := by
    intro l hl
    rw [List.map_map, List.map_map]
    exact List.map_congr_left fun x hx => tierOrds_readKey h x (hl x hx)
  have hsorted := hkeys (orderBy (tierKey collation) (ords.zip ps)) fun x hx =>
    (mem_orderBy _).mp hx
  have hplain := hkeys (ords.zip ps) fun x hx => hx
  rw [hrows] at hplain
  -- The lookups have not failed, so comparing keys is comparing results.
  have hinj :
      Function.Injective (List.map (Except.ok : _ → Except DbError (ℤ ×ₗ ℤ ×ₗ collation.Text))) :=
    List.map_injective_iff.mpr fun _ _ => Except.ok.inj
  rw [← map_orderBy_eq_iff]
  constructor
  · intro hsame
    have heq := hsame.keys
    rw [hplain, hsorted] at heq
    exact (hinj heq).symm
  · intro heq
    refine ⟨?_, by rw [hplain, hsorted, heq]⟩
    have hperm := (orderBy_perm (tierKey collation) (ords.zip ps)).map Prod.snd
    rw [hrows] at hperm
    exact hperm.symm

/-! ### The new version -/

section Rows

variable {b : Board} {input : CreateVersion} {v : Version} {rows : List Placement}

/-- What the rows of the new version are sorted by, apart from the tier. -/
theorem positionKeys_of_created (h : CreatedVersion db b input v rows) (hdb : db.Schema) :
    ((db.withVersion v rows).placementRows v.id).map (positionKey db.collation) =
      input.placements.zipIdx.map fun x => (toLex (coalesceLast (storedPosition b x.1 x.2),
        db.collation.text (((db.entryBySlug? b.id x.1.entrySlug).map Entry.name).getD "")) :
          ℤ ×ₗ db.collation.Text) := by
  have hkey : ∀ x p, PlacedAs db b v x p → (db.withEntry p).map (positionKey db.collation) =
      some (toLex (coalesceLast (storedPosition b x.1 x.2),
        db.collation.text (((db.entryBySlug? b.id x.1.entrySlug).map Entry.name).getD "")) :
          ℤ ×ₗ db.collation.Text) := by
    intro x p hx
    obtain ⟨e, he, hid, hslug⟩ := hx.entry
    obtain ⟨hmem, hboard⟩ := Database.mem_entriesOf.mp he
    have hfind : db.entryBySlug? b.id x.1.entrySlug = some e := by
      rw [← hslug, ← hboard]
      exact hdb.entryBySlug?_eq hmem
    rw [hfind, Database.withEntry, ← hid, hdb.entryById?_eq hmem]
    simp [positionKey, hx.position]
  have hkeys := map_of_placedAs h.rows hkey
  have hrows : (db.withVersion v rows).placementRows v.id = rows.filterMap db.withEntry := by
    rw [Database.placementRows, placementsOf_withVersion hdb h.new h.rows]
    rfl
  rw [hrows, List.map_filterMap]
  have hid : rows.filterMap (fun p => (db.withEntry p).map (positionKey db.collation)) =
      (rows.map fun p => (db.withEntry p).map (positionKey db.collation)).filterMap id := by
    rw [List.filterMap_map]
    rfl
  rw [hid, hkeys, List.filterMap_map]
  exact congrFun List.filterMap_eq_map' _

/-- The keys of the rows are those that the request tells. -/
theorem tierKeys_of_created (h : CreatedVersion db b input v rows) (hdb : db.Schema)
    (ords : List (Option ℤ)) :
    (ords.zip ((db.withVersion v rows).placementRows v.id)).map (tierKey db.collation) =
      (ords.zip input.placements.zipIdx).map (inputKey db b) := by
  have hleft : ∀ ps : List PlacementWithEntry, (ords.zip ps).map (tierKey db.collation) =
      List.zipWith (fun ord k => (toLex (coalesceLast ord, k) : ℤ ×ₗ ℤ ×ₗ db.collation.Text)) ords
        (ps.map (positionKey db.collation)) := by
    intro ps
    rw [List.zipWith_map_right, List.zip, List.map_zipWith]
    rfl
  rw [hleft, positionKeys_of_created h hdb, List.zipWith_map_right, List.zip, List.map_zipWith]
  rfl

end Rows

/-- The version that was inserted is found by its number. -/
theorem find_created {b : Board} {input : CreateVersion} {v : Version} {rows : List Placement}
    (h : CreatedVersion db b input v rows) {vs : List Version}
    (hvs : vs = db.versionsOf b.id ++ [v]) :
    vs.find? (fun r => r.versionNumber = v.versionNumber) = some v := by
  have hnone : (db.versionsOf b.id).find? (fun r => r.versionNumber = v.versionNumber) = none := by
    rw [List.find?_eq_none]
    intro r hr
    obtain ⟨hmem, hid⟩ := Database.mem_versionsOf.mp hr
    have hle := Database.le_maxVersionNumber hmem
    have hnumber := h.number
    rw [hid] at hle
    simp only [decide_eq_true_eq]
    omega
  rw [hvs, List.find?_append, hnone]
  simp

/-! ### The response -/

/-- The response `x` of a creation is what `get_by_number` answers in a state of the servers. -/
def ResponseReadsBack (env : Supply) (s : Server) (b : Board) (x : VersionWithPlacements) : Prop :=
  ∃ y, respond env s (getByNumber b.id x.version.versionNumber) = .ok y ∧ y.version = x.version ∧
    SameUpToTies s.db.collation b.tierConfig x.placements y.placements

/-- **What is read back after the insertion of a version.** -/
theorem responseReadsBack_iff {b : Board} {input : CreateVersion} {v : Version}
    {rows : List Placement} {ps : List PlacementWithEntry} {s : Server}
    (hcreated : CreatedVersion db b input v rows) (hdb : db.Schema)
    (hs : s.db = (db.withVersion v rows).applyAll (rankWrites (db.withVersion v rows) b v))
    (hanswer : AnswersWith s.db b v ps) : ResponseReadsBack env s b ⟨v, ps⟩ ↔
      b.boardType = "scored" ∨ InReadOrder db b input.placements := by
  have hversions : s.db.versionsOf b.id = db.versionsOf b.id ++ [v] := by
    have hsame : s.db.versions = db.versions ++ [v] := by
      rw [hs, rankWrites]
      split <;> rfl
    rw [Database.versionsOf, hsame, List.filter_append]
    simp [hcreated.boardId, Database.versionsOf]
  have hread : respond env s (getByNumber b.id v.versionNumber) =
      ((fetchPlacements s.db v.id).mapError Error.database).map fun ps => ⟨v, ps⟩ := by
    rw [respond_getByNumber, find_created hcreated hversions]
  unfold ResponseReadsBack
  rw [hread]
  by_cases hscored : b.boardType = "scored"
  · -- The response was read in the same way.
    rw [AnswersWith, if_pos hscored] at hanswer
    rw [hanswer]
    exact iff_of_true ⟨_, rfl, rfl, .refl _, rfl⟩ (.inl hscored)
  -- The response has the order of the request, and the read sorts the rows anew.
  · rw [AnswersWith, if_neg hscored] at hanswer
    have hdb' : s.db = db.withVersion v rows := by
      rw [hs, rankWrites, if_neg hscored, Database.applyAll_nil]
    have hfetch := hcreated.fetchPlacements_setPositions hdb []
    have htiers : (s.db.placementRows v.id).map PlacementWithEntry.tier =
        input.placements.map CreatePlacement.tier := by
      have htiers := tiers_withVersion hdb hcreated.new hcreated.rows []
      rw [Database.setPositions_nil, ← hdb'] at htiers
      exact htiers.trans (map_zipIdx_fst CreatePlacement.tier input.placements)
    rw [Database.setPositions_nil, ← hdb'] at hfetch
    rw [hfetch, or_iff_right hscored, InReadOrder, hanswer]
    rcases hords : Contents.tierOrds b.tierConfig
      (input.placements.map CreatePlacement.tier) with e | ords
    · -- The read fails.
      constructor
      · rintro ⟨y, hy, -⟩
        cases hy
      · rintro ⟨ords, hords', -⟩
        cases hords'
    · have hcollation : s.db.collation = db.collation := by
        rw [hdb']
        rfl
      have hties := sameUpToTies_orderBy_iff db.collation (htiers ▸ hords)
      have hkeys := tierKeys_of_created hcreated hdb ords
      rw [← hdb'] at hkeys
      rw [hkeys] at hties
      rw [hcollation]
      constructor
      · rintro ⟨y, hy, -, hsame⟩
        cases hy
        exact ⟨ords, rfl, hties.mp hsame⟩
      · rintro ⟨ords', hords', hsorted⟩
        cases hords'
        exact ⟨_, rfl, rfl, hties.mpr hsorted⟩

/-- **When the response to a version creation is what is read afterwards.** For every board in a
reachable state and every creation that succeeds when it runs alone: `get_by_number` answers with
the same version and the same placements in the same order, up to ties, if and only if the board is
scored or the request lists the placements in the order of the read. -/
theorem create_response_iff {g : System faulty} (hg : System.Reachable {} g) {b : Board}
    (hb : b ∈ g.servers.db.boards) {input : CreateVersion} {max : Option ℤ}
    {x : VersionWithPlacements} {w' : World}
    (hrun : (Versions.create b input max).run (serve env) { server := g.servers } = (.ok x, w')) :
    ResponseReadsBack env w'.server b x ↔
      b.boardType = "scored" ∨ InReadOrder g.servers.db b input.placements := by
  have hs := hg.inv.schema
  have hends : (Versions.create b input max).Ends env (fun r w' => ∀ x, r = .ok x →
      (ResponseReadsBack env w'.server b x ↔
        b.boardType = "scored" ∨ InReadOrder g.servers.db b input.placements))
      { server := g.servers } := by
    refine ends_createVersion rfl hs (hs.board?_eq hb) (fun e _ _ _ x hx => nomatch hx) ?_
    rintro v rows ps w' - hcreated - hsaves hanswer x hx
    obtain rfl := Except.ok.inj hx
    refine responseReadsBack_iff hcreated hs ?_ hanswer
    rw [hsaves.db, Database.applyAll_append, applyAll_versionWrites]
  unfold Action.Ends Prog.Ends at hends
  rw [hrun] at hends
  exact hends x rfl

/-! ### Two runs -/

/-- A supply for a client that comes later. -/
def countingFrom (k : ℕ) : Supply where
  uuid n := n + k + 1
  now n := n + k
  snap n := n + k
  uuid_inj _ _ h := Nat.add_right_cancel (Nat.succ.inj h)
  now_mono _ _ h := Nat.add_le_add_right h k
  snap_inj _ _ h := Nat.add_right_cancel h

set_option maxRecDepth 10000 in
/-- A creation on an ordered board whose positions are left out, so that the request is in the
order of the read. -/
theorem create_response_run : ∃ (g : System False) (b : Board) (x : VersionWithPlacements)
    (w' : World), System.Reachable {} g ∧ b ∈ g.servers.db.boards ∧ b.boardType = "ordered" ∧
      (Versions.create b { placements := [{ entrySlug := "f" }, { entrySlug := "e" }] } none).run
        (serve (countingFrom 100)) { server := g.servers } = (.ok x, w') ∧
      ResponseReadsBack (countingFrom 100) w'.server b x := by
  obtain ⟨g, hg, hrest⟩ := reachable_serveAll (P := {}) counting False
    [.importBoard inOrder (orderedDocument [("e", some 1), ("f", some 2)])]
    fun r _ => r.respects_default
  have hb : ∃ b ∈ g.servers.db.boards, b.boardType = "ordered" ∧ InReadOrder g.servers.db b
      [{ entrySlug := "f" }, { entrySlug := "e" }] ∧ ∃ x w',
      (Versions.create b { placements := [{ entrySlug := "f" }, { entrySlug := "e" }] } none).run
        (serve (countingFrom 100)) { server := g.servers } = (.ok x, w') := by
    rw [hrest.servers]
    exact ⟨_, List.mem_cons_self, rfl, ⟨_, rfl, by decide⟩, _, _, rfl⟩
  obtain ⟨b, hb, hordered, hinOrder, x, w', hrun⟩ := hb
  exact ⟨g, b, x, w', hg, hb, hordered, hrun,
    (create_response_iff hg hb hrun).mpr (.inr hinOrder)⟩

set_option maxRecDepth 10000 in
/-- A creation on an ordered board with the positions stated backwards: the response lists the
placements as the request did, the read afterwards lists them by position. -/
theorem create_response_fail : ∃ (g : System False) (b : Board) (x : VersionWithPlacements)
    (w' : World), System.Reachable {} g ∧ b ∈ g.servers.db.boards ∧ b.boardType = "ordered" ∧
      (Versions.create b { placements := [{ entrySlug := "f", position := some 2 },
          { entrySlug := "e", position := some 1 }] } none).run
        (serve (countingFrom 100)) { server := g.servers } = (.ok x, w') ∧
      ¬ResponseReadsBack (countingFrom 100) w'.server b x := by
  obtain ⟨g, hg, hrest⟩ := reachable_serveAll (P := {}) counting False
    [.importBoard inOrder (orderedDocument [("e", some 1), ("f", some 2)])]
    fun r _ => r.respects_default
  have hb : ∃ b ∈ g.servers.db.boards, b.boardType = "ordered" ∧ ∃ x w' y,
      (Versions.create b { placements := [{ entrySlug := "f", position := some 2 },
          { entrySlug := "e", position := some 1 }] } none).run
        (serve (countingFrom 100)) { server := g.servers } = (.ok x, w') ∧
      respond (countingFrom 100) w'.server (getByNumber b.id x.version.versionNumber) = .ok y ∧
      x.placements.map (readKey g.servers.db.collation b.tierConfig) ≠ y.placements.map
        (readKey g.servers.db.collation b.tierConfig) := by
    rw [hrest.servers]
    refine ⟨_, List.mem_cons_self, rfl, _, _, _, rfl, rfl, fun hkeys => ?_⟩
    have hpositions := congrArg (List.map fun k => k.toOption.map fun k => (ofLex (ofLex k).2).1)
      hkeys
    revert hpositions
    decide
  obtain ⟨b, hb, hordered, x, w', y, hrun, hread, hkeys⟩ := hb
  refine ⟨g, b, x, w', hg, hb, hordered, hrun, ?_⟩
  rintro ⟨y', hy', -, hsame⟩
  obtain rfl : y = y' := Except.ok.inj (hread.symm.trans hy')
  exact hkeys hsame.keys

end Leaderboards
