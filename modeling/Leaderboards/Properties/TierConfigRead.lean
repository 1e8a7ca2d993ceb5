import Leaderboards.Properties.Immutability

/-!
# Reading placements in tier order

The lookup of a tier in `tier_config` runs for boards of every type, and fails when the `tiers`
member is there but not an array, or when the position of the tier it finds is not the text of
an integer. `Readable` says that it never fails (`readable_iff`). The validation of tiered
boards guarantees it (`readable_of_validate`), and nothing does for the other boards nor for an
import. When every request stores readable configurations only, no placement query fails, in
any reachable state and inside any transaction (`placement_reads_succeed`).
-/

namespace Leaderboards

open Interaction

/-- The position of a tier is missing, null, or the text of an integer of 32 bits. -/
def ReadablePosition (obj : Json) : Prop :=
  ∀ text, arrowText "position" obj = some text → ∃ n, castInt4 text = .ok n

/-- A tier configuration that a placement query can read: without `tiers`, or with an array of
them in which the first tier of each key has a readable position. -/
def Readable (tierConfig : Option Json) : Prop :=
  arrow "tiers" tierConfig = none ∨ ∃ items, arrow "tiers" tierConfig = some (.arr items) ∧
    ∀ key obj, items.find? (fun obj => arrowText "key" obj = some key) = some obj →
      ReadablePosition obj

variable {c : Option Json}

theorem readablePosition_iff {obj : Json} :
    ReadablePosition obj ↔ ∃ o, tierPosition obj = .ok o := by
  unfold ReadablePosition tierPosition
  cases arrowText "position" obj with
  | none => simp
  | some text =>
    simp only [Option.some.injEq, forall_eq']
    cases castInt4 text <;> simp [Except.map]

/-- The tier that the lookup of a placement finds. -/
private theorem find_tier (items : List Json) (tier : Option String) :
    items.find? (fun obj => (arrowText "key" obj).isSome ∧ arrowText "key" obj = tier) =
      tier.bind fun key => items.find? fun obj => arrowText "key" obj = some key := by
  cases tier with
  | none =>
    rw [Option.bind_none, List.find?_eq_none]
    intro obj _ h
    simp only [decide_eq_true_eq] at h
    simp [h.2] at h
  | some key =>
    refine congrArg (fun f => items.find? f) (funext fun obj => decide_eq_decide.mpr ?_)
    constructor
    · exact fun h => h.2
    · exact fun h => ⟨by simp [h], h⟩

/-- **A configuration is readable exactly when no lookup fails.** -/
theorem readable_iff : Readable c ↔ ∀ tier, ∃ o, tierOrd c tier = .ok o := by
  unfold Readable tierOrd
  rcases harrow : arrow "tiers" c with _ | j
  · simp [jsonbArrayElements]
  · cases j with
    | arr items =>
      simp only [reduceCtorEq, false_or, jsonbArrayElements, find_tier]
      constructor
      · rintro ⟨items', hitems, h⟩ tier
        cases hitems
        rcases hfind : tier.bind fun key => items.find? fun obj => arrowText "key" obj = some key
          with _ | obj
        · exact ⟨none, rfl⟩
        · obtain ⟨key, rfl, hobj⟩ := Option.bind_eq_some_iff.mp hfind
          exact readablePosition_iff.mp (h key obj hobj)
      · intro h
        refine ⟨items, rfl, fun key obj hobj => readablePosition_iff.mpr ?_⟩
        have hkey := h (some key)
        simp only [Option.bind_some, hobj] at hkey
        exact hkey
    | _ => simp [jsonbArrayElements]

/-! ### What validation guarantees -/

/-- The database reads the key of a tier as the service does. -/
theorem TierEntry.arrowText_key {obj : Json} {key : String} {n : ℤ} (h : TierEntry obj key n) :
    arrowText "key" obj = some key := by
  obtain ⟨j, hj, hstr⟩ := Option.bind_eq_some_iff.mp h.1
  have htext : j = .str key := by
    cases j <;> simp_all [Json.asStr]
  rw [arrowText, hj, htext]
  rfl

/-- The database casts the position of a tier to the number the service checked. -/
theorem TierEntry.tierPosition_eq {obj : Json} {key : String} {n : ℤ} (h : TierEntry obj key n) :
    tierPosition obj = .ok (some n) := by
  obtain ⟨-, hposition, hlo, hhi⟩ := h
  obtain ⟨j, hj, hasI64⟩ := Option.bind_eq_some_iff.mp hposition
  have hnum : j = .num n 0 := by
    unfold Json.asI64 at hasI64
    split at hasI64
    · split at hasI64
      · cases hasI64
        rfl
      · cases hasI64
    · cases hasI64
  have htext : arrowText "position" obj = some (toString n) := by
    rw [arrowText, hj, hnum]
    rfl
  rw [tierPosition, htext]
  dsimp only
  rw [castInt4_toString hlo hhi]
  rfl

/-- **The configuration of a tiered board is readable** when it was validated. -/
theorem readable_of_validate (h : validateTierConfig c = .ok ()) : Readable c := by
  obtain ⟨tc, tiers, rfl, htiers, hall, -⟩ := validateTierConfig_ok h
  have harrow : arrow "tiers" (some tc) = some (.arr tiers) := htiers
  refine .inr ⟨tiers, harrow, fun key obj hfind => readablePosition_iff.mpr ?_⟩
  obtain ⟨key', n, hentry⟩ := hall obj (List.mem_of_find?_eq_some hfind)
  exact ⟨some n, hentry.tierPosition_eq⟩

/-! ### The placement queries -/

theorem withTierOrd_succeeds (hc : Readable c) (ps : List PlacementWithEntry) :
    ∃ rows, withTierOrd c ps = .ok rows := by
  induction ps with
  | nil => exact ⟨[], rfl⟩
  | cons p ps ih =>
    obtain ⟨ord, hord⟩ := readable_iff.mp hc p.tier
    obtain ⟨rows, hrows⟩ := ih
    exact ⟨(ord, p) :: rows, by rw [withTierOrd, hord, hrows]; rfl⟩

theorem versionRows_succeeds (hc : Readable c) (db : Database) (vs : List Version) :
    ∃ rows, versionRows db c vs = .ok rows := by
  induction vs with
  | nil => exact ⟨[], rfl⟩
  | cons v vs ih =>
    obtain ⟨rows, hrows⟩ := withTierOrd_succeeds hc (db.placementRows v.id)
    obtain ⟨rest, hrest⟩ := ih
    exact ⟨_, by rw [versionRows, hrows, hrest]; rfl⟩

/-- No placement query fails on these tables. -/
structure Database.PlacementsReadable (db : Database) : Prop where
  version : ∀ versionId, ∃ ps, fetchPlacements db versionId = .ok ps
  board : ∀ boardId, ∃ ps, fetchBoardPlacements db boardId = .ok ps

/-- **Readable configurations make all placements readable.** -/
theorem placementsReadable_of_readable {db : Database}
    (h : ∀ b ∈ db.boards, Readable b.tierConfig) : db.PlacementsReadable where
  version versionId := by
    unfold fetchPlacements
    split
    · exact ⟨[], rfl⟩
    · rename_i b hb
      obtain ⟨v, -, hvb⟩ := Option.bind_eq_some_iff.mp hb
      obtain ⟨rows, hrows⟩ := withTierOrd_succeeds (h b (Database.mem_of_board? hvb).1)
        (db.placementRows versionId)
      exact ⟨_, by rw [hrows]; rfl⟩
  board boardId := by
    unfold fetchBoardPlacements
    split
    · exact ⟨[], rfl⟩
    · rename_i b hb
      obtain ⟨rows, hrows⟩ := versionRows_succeeds (h b (Database.mem_of_board? hb).1) db
        (db.versionsOf boardId)
      exact ⟨_, by rw [hrows]; rfl⟩

/-- **Reading a version never fails on the tier configuration**, in any run whose requests store
readable configurations only: neither on the committed tables nor on those that a transaction
sees when it is about to send a statement. -/
theorem placement_reads_succeed {faulty : Prop} {max : Option ℤ} {g : System faulty}
    (hg : System.Reachable { config := Readable, maxVersions := max } g) :
    g.servers.db.PlacementsReadable ∧
      ∀ t session q k, g.thread t = some ⟨session, .op (.sql q) k⟩ →
        (session.view g.servers.db).PlacementsReadable := by
  refine ⟨placementsReadable_of_readable fun b hb => (hg.inv.config b hb).1,
    fun t session q k ht => ?_⟩
  have hsafe := hg.good.safe t _ ht
  have hready := (hsafe g.servers (Rely.refl _ _) hg.inv).1
  exact placementsReadable_of_readable fun b hb => (hready b hb).1

/-- A configured tier. -/
def tierS : Json := .obj [("tiers", .arr [.obj [("key", .str "s"), ("position", .int 1)]])]

/-- A board with one version that places an entry in the tier `s`. -/
def tierRequests (boardType : String) (tierConfig : Json) : List Request :=
  [.createBoard { slug := "b", name := "B", boardType := boardType, tierConfig := some tierConfig },
    .createEntry "b" { slug := "e", name := "E" },
    .createVersion {} "b" { placements := [{ entrySlug := "e", tier := some "s" }] }]

set_option maxRecDepth 10000 in
/-- A run on a tiered board, whose version is read back. -/
theorem placement_reads_succeed_run : ∃ g : System False,
    System.Reachable { config := Readable } g ∧ g.servers.db.PlacementsReadable ∧
      ∃ v ∈ g.servers.db.versions,
        (fetchPlacements g.servers.db v.id).map (List.map PlacementWithEntry.tier) =
          .ok [some "s"] := by
  obtain ⟨g, hg, hrest⟩ := reachable_serveAll (P := { config := Readable }) counting False
    (tierRequests "tiered" tierS) (by
      simp only [tierRequests, List.forall_mem_cons]
      refine ⟨fun _ => readable_of_validate rfl, trivial, ?_, by simp⟩
      rintro max ⟨⟩)
  refine ⟨g, hg, (placement_reads_succeed hg).1, ?_⟩
  rw [hrest.servers]
  decide

set_option maxRecDepth 10000 in
/-- An ordered board whose configuration has no array of tiers: it is accepted, a version is
created, and no reader ever gets its placements. -/
theorem placement_reads_fail : ∃ g : System False, System.Reachable {} g ∧
    ∃ v ∈ g.servers.db.versions, ∃ b ∈ g.servers.db.boards, b.id = v.boardId ∧
      fetchPlacements g.servers.db v.id = .error .notAnArray ∧
      fetchBoardPlacements g.servers.db b.id = .error .notAnArray := by
  obtain ⟨g, hg, hrest⟩ := reachable_serveAll (P := {}) counting False
    (tierRequests "ordered" (.obj [("tiers", .int 5)])) fun r _ => r.respects_default
  refine ⟨g, hg, ?_⟩
  rw [hrest.servers]
  decide

end Leaderboards
