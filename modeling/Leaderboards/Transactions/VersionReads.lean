import Leaderboards.Transactions.Reading

/-!
# Reading a version

`fetch_placements` joins the placements of a version with their entries and the configured
positions of their tiers, and sorts them. `get_by_number` and `get_latest` answer with a version
row and its placements.
-/

namespace Leaderboards

open Interaction Ranking

variable {db : Database} {s : Server} {env : Supply}

/-- The joined rows of a version, in some order. -/
structure ShowsVersion (db : Database) (v : Version) (ps : List PlacementWithEntry) : Prop where
  version : v ∈ db.versions
  rows : ps.Perm (db.placementRows v.id)
  all : ps.length = (db.placementsOf v.id).length

theorem withTierOrd_rows {c : Option Json} {ps : List PlacementWithEntry}
    {rows : List (Option ℤ × PlacementWithEntry)} (h : withTierOrd c ps = .ok rows) :
    rows.map Prod.snd = ps := by
  induction ps generalizing rows with
  | nil =>
    cases h
    rfl
  | cons p ps ih =>
    rw [withTierOrd] at h
    obtain ⟨ord, -, h⟩ := Prog.except_bind_ok.mp h
    obtain ⟨rest, hrest, h⟩ := Prog.except_bind_ok.mp h
    cases h
    rw [List.map_cons, ih hrest]

/-- `fetch_placements` of a version that is there. -/
theorem fetchPlacements_eq (hdb : db.Schema) {v : Version} (hv : v ∈ db.versions) {b : Board}
    (hb : b ∈ db.boards) (hid : b.id = v.boardId) : fetchPlacements db v.id =
      (withTierOrd b.tierConfig (db.placementRows v.id)).map fun rows =>
        (orderBy (tierKey db.collation) rows).map Prod.snd := by
  have hboard : (db.version? v.id).bind (fun v => db.board? v.boardId) = some b := by
    rw [hdb.version?_eq hv, Option.bind_some, ← hid, hdb.board?_eq hb]
  rw [fetchPlacements, hboard]
  rfl

/-- `fetch_placements` reads all placements of a version. -/
theorem fetchPlacements_shows (hdb : db.Schema) {v : Version} (hv : v ∈ db.versions)
    {ps : List PlacementWithEntry} (h : fetchPlacements db v.id = .ok ps) :
    ShowsVersion db v ps := by
  obtain ⟨b, hb, hid⟩ := hdb.version_board v hv
  rw [fetchPlacements_eq hdb hv hb hid] at h
  obtain ⟨rows, hrows, h⟩ := Prog.except_bind_ok.mp h
  cases h
  have hperm :
      ((orderBy (tierKey db.collation) rows).map Prod.snd).Perm (db.placementRows v.id) := by
    rw [← withTierOrd_rows hrows]
    exact (orderBy_perm (tierKey db.collation) rows).map _
  refine ⟨hv, hperm, hperm.length_eq.trans ?_⟩
  have hids := congrArg List.length (hdb.placementRows_map hv (f := PlacementWithEntry.id)
    (g := Placement.id) fun _ _ => rfl)
  rwa [List.length_map, List.length_map] at hids

/-! ### The order of the rows -/

/-- The configured position of a tier as the read sorts by it: a missing one comes last. -/
def tierPlace (tierConfig : Option Json) (tier : Option String) : ℤ :=
  coalesceLast (tierOrd tierConfig tier).toOption.join

/-- What the read sorts a row by. -/
def rowKey (collation : Collation) (tierConfig : Option Json) (p : PlacementWithEntry) :
    ℤ ×ₗ ℤ ×ₗ collation.Text :=
  toLex (tierPlace tierConfig p.tier, positionKey collation p)

/-- The lookups of all tiers, when none of them fails. -/
theorem withTierOrd_ok {c : Option Json} {ps : List PlacementWithEntry}
    {rows : List (Option ℤ × PlacementWithEntry)} (h : withTierOrd c ps = .ok rows) :
    (∀ p ∈ ps, ∃ ord, tierOrd c p.tier = .ok ord) ∧
      rows = ps.map fun p => ((tierOrd c p.tier).toOption.join, p) := by
  induction ps generalizing rows with
  | nil =>
    cases h
    simp
  | cons p ps ih =>
    rw [withTierOrd] at h
    obtain ⟨ord, hord, h⟩ := Prog.except_bind_ok.mp h
    obtain ⟨rest, hrest, h⟩ := Prog.except_bind_ok.mp h
    cases h
    obtain ⟨hlookups, rfl⟩ := ih hrest
    refine ⟨fun q hq => ?_, ?_⟩
    · rcases List.mem_cons.mp hq with rfl | hq
      · exact ⟨ord, hord⟩
      · exact hlookups q hq
    · rw [List.map_cons, hord]
      rfl

/-- **What `fetch_placements` reads**: the rows of the version, sorted. -/
theorem fetchPlacements_ok (hdb : db.Schema) {v : Version} (hv : v ∈ db.versions) {b : Board}
    (hb : b ∈ db.boards) (hid : b.id = v.boardId) {ps : List PlacementWithEntry}
    (h : fetchPlacements db v.id = .ok ps) :
    (∀ p ∈ db.placementRows v.id, ∃ ord, tierOrd b.tierConfig p.tier = .ok ord) ∧
      ps = orderBy (rowKey db.collation b.tierConfig) (db.placementRows v.id) := by
  rw [fetchPlacements_eq hdb hv hb hid] at h
  obtain ⟨rows, hrows, h⟩ := Prog.except_bind_ok.mp h
  cases h
  obtain ⟨hlookups, rfl⟩ := withTierOrd_ok hrows
  refine ⟨hlookups, ?_⟩
  dsimp only
  rw [orderBy_map (tierKey db.collation), List.map_map]
  exact List.map_id _

/-! ### The reads -/

theorem reads_getByNumber (boardId : Uuid) (n : ℤ) : Reads (Versions.getByNumber boardId n) :=
  reads_sql rfl fun _ => reads_okOr fun _ => reads_sql rfl fun _ => .ret _

theorem reads_getLatest (boardId : Uuid) : Reads (Versions.getLatest boardId) :=
  reads_sql rfl fun _ => reads_okOr fun _ => reads_sql rfl fun _ => .ret _

/-- The placements of a version, read in a single state. -/
theorem shows_of_fetch (hs : s.db.Schema) {v : Version} (hv : v ∈ s.db.versions)
    {x : VersionWithPlacements} (h : respond env s (Versions.fetchPlacements v.id >>= fun ps =>
      (.ret ⟨v, ps⟩ : Action VersionWithPlacements)) = .ok x) :
    x.version = v ∧ ShowsVersion s.db v x.placements := by
  obtain ⟨ps, hps, h⟩ := ok_of_respond_sql rfl (fun _ => .ret _) h
  cases h
  refine ⟨rfl, fetchPlacements_shows hs hv ?_⟩
  rcases hfetch : fetchPlacements s.db v.id with e | ps'
  · simp [Query.answer, exec, hfetch, Except.map] at hps
  · simp only [Query.answer, exec, hfetch, Except.map] at hps
    exact hps

/-- **What `get_by_number` answers in a single state**: the row of the number, with its
placements. -/
theorem respond_getByNumber (boardId : Uuid) (n : ℤ) :
    respond env s (Versions.getByNumber boardId n) =
      match (s.db.versionsOf boardId).find? fun v => v.versionNumber = n with
      | none => .error (.notFound s!"version {n} not found")
      | some v => (fetchPlacements s.db v.id).mapError Error.database |>.map fun ps => ⟨v, ps⟩ := by
  have hread : respond env s (Versions.getByNumber boardId n) = _ :=
    (reads_getByNumber boardId n).respond_select
  refine hread.trans ?_
  have hrow : (Query.selectVersionByNumber boardId n).answer s.db =
      .ok ((s.db.versionsOf boardId).find? fun v => v.versionNumber = n) := rfl
  rcases hfind : (s.db.versionsOf boardId).find? (fun v => v.versionNumber = n) with _ | v
  · rw [hrow, hfind]
    rfl
  · rw [hrow, hfind]
    have hfetch : Reads (Versions.fetchPlacements v.id >>= fun ps =>
        (.ret ⟨v, ps⟩ : Action VersionWithPlacements)) := reads_sql rfl fun _ => .ret _
    have hselect : respond env s (Versions.fetchPlacements v.id >>= fun ps =>
        (.ret ⟨v, ps⟩ : Action VersionWithPlacements)) = _ := hfetch.respond_select
    refine hselect.trans ?_
    have hplacements : (Query.selectPlacements v.id).answer s.db = fetchPlacements s.db v.id := by
      simp only [Query.answer, exec]
      cases fetchPlacements s.db v.id <;> rfl
    rw [hplacements]
    dsimp only
    cases fetchPlacements s.db v.id <;> rfl

/-- An answer of `get_by_number` is a version of the board with what `fetch_placements` reads. -/
theorem getByNumber_ok {boardId : Uuid} {n : ℤ} {x : VersionWithPlacements}
    (h : respond env s (Versions.getByNumber boardId n) = .ok x) :
    x.version ∈ s.db.versionsOf boardId ∧ x.version.versionNumber = n ∧
      fetchPlacements s.db x.version.id = .ok x.placements := by
  rw [respond_getByNumber] at h
  rcases hfind : (s.db.versionsOf boardId).find? (fun v => v.versionNumber = n) with _ | v
  · rw [hfind] at h
    cases h
  · rw [hfind] at h
    rcases hfetch : fetchPlacements s.db v.id with e | ps
    · simp [hfetch, Except.mapError, Except.map] at h
    · simp only [hfetch, Except.mapError, Except.map, Except.ok.injEq] at h
      obtain rfl := h
      exact ⟨List.mem_of_find?_eq_some hfind, by simpa using List.find?_some hfind, hfetch⟩

theorem getByNumber_shows (hs : s.db.Schema) {boardId : Uuid} {n : ℤ} {x : VersionWithPlacements}
    (h : respond env s (Versions.getByNumber boardId n) = .ok x) :
    x.version.boardId = boardId ∧ x.version.versionNumber = n ∧
      ShowsVersion s.db x.version x.placements := by
  obtain ⟨hmem, hnumber, hfetch⟩ := getByNumber_ok h
  obtain ⟨hv, hboard⟩ := Database.mem_versionsOf.mp hmem
  exact ⟨hboard, hnumber, fetchPlacements_shows hs hv hfetch⟩

/-- What `get_latest` answers in a single state. -/
theorem getLatest_shows (hs : s.db.Schema) {boardId : Uuid} {x : VersionWithPlacements}
    (h : respond env s (Versions.getLatest boardId) = .ok x) :
    ShowsVersion s.db x.version x.placements := by
  obtain ⟨row, hrow, h⟩ := ok_of_respond_sql rfl
    (fun _ => reads_okOr fun _ => reads_sql rfl fun _ => .ret _) h
  obtain rfl := Except.ok.inj hrow
  rcases hhead : (orderBy (fun v => -v.versionNumber) (s.db.versionsOf boardId)).head? with _ | v
  · rw [hhead] at h
    cases h
  · rw [hhead] at h
    have hmem := (mem_orderBy _).mp (List.mem_of_head? hhead)
    obtain ⟨hversion, hshows⟩ := shows_of_fetch hs (Database.mem_versionsOf.mp hmem).1 h
    rw [hversion]
    exact hshows

end Leaderboards
