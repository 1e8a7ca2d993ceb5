import Leaderboards.Repo.Pagination

/-!
# `repo/versions.rs`
-/

namespace Leaderboards

open Interaction

namespace Versions

/-! ### Placement validation -/

/-- No entry slug occurs twice. -/
def checkDuplicateSlugs (seenSlugs : List String) : List CreatePlacement → Except Error Unit
  | [] => .ok ()
  | p :: ps =>
    if p.entrySlug ∈ seenSlugs then
      .error (.validation s!"duplicate entry slug '{p.entrySlug}' in placements")
    else checkDuplicateSlugs (p.entrySlug :: seenSlugs) ps

/-- Explicit positions are at least `1`. -/
def checkExplicitPositions : List CreatePlacement → Except Error Unit
  | [] => .ok ()
  | p :: ps =>
    match p.position with
    | some pos =>
      if pos < 1 then
        .error (.validation s!"position must be >= 1, got {pos} for entry '{p.entrySlug}'")
      else checkExplicitPositions ps
    | none => checkExplicitPositions ps

/-- The position an ordered board gives to the placement at index `i`. -/
def resolvedPosition (p : CreatePlacement) (i : ℕ) : ℤ := p.position.getD ((i : ℤ) + 1)

/-- Ordered boards: the resolved positions are pairwise different. -/
def checkOrdered (seenPositions : List ℤ) (i : ℕ) : List CreatePlacement → Except Error Unit
  | [] => .ok ()
  | p :: ps =>
    if resolvedPosition p i ∈ seenPositions then
      .error (.validation
        s!"duplicate position {resolvedPosition p i} in ordered board placements")
    else checkOrdered (resolvedPosition p i :: seenPositions) (i + 1) ps

/-- Scored boards: every score is present and finite. -/
def checkScored : List CreatePlacement → Except Error Unit
  | [] => .ok ()
  | p :: ps =>
    match p.score with
    | none => .error (.validation
        s!"score is required for scored board, missing for entry '{p.entrySlug}'")
    | some s =>
      if s.isNan || s.isInfinite then
        .error (.validation s!"score must be a finite number for entry '{p.entrySlug}'")
      else checkScored ps

/-- The keys of the configured tiers, when there is a `tiers` array. -/
def validTiers (tierConfig : Option Json) : Option (List String) :=
  ((tierConfig.bind (Json.get "tiers")).bind Json.asArray).map fun tiers =>
    tiers.filterMap fun t => (t.get "key").bind Json.asStr

/-- `char::escape_debug` inside a string, for characters that are printable or control
characters. -/
def escapeDebug (c : Char) : List Char :=
  if c = '"' ∨ c = '\\' then ['\\', c]
  else if c = '\t' then ['\\', 't']
  else if c = '\r' then ['\\', 'r']
  else if c = '\n' then ['\\', 'n']
  else if c.toNat = 0 then ['\\', '0']
  else if c.toNat < 32 ∨ 127 ≤ c.toNat ∧ c.toNat < 160 then
    ['\\', 'u', '\x7b'] ++ Nat.toDigits 16 c.toNat ++ ['\x7d']
  else [c]

/-- `{:?}` of a string. -/
def debugString (s : String) : String :=
  String.ofList ('"' :: s.toList.flatMap escapeDebug ++ ['"'])

/-- `{:?}` of a list of strings. -/
def debugStrings (l : List String) : String :=
  "[" ++ ", ".intercalate (l.map debugString) ++ "]"

/-- Tiered boards: every tier is present and, when tiers are configured, one of them. -/
def checkTiered (valid : Option (List String)) : List CreatePlacement → Except Error Unit
  | [] => .ok ()
  | p :: ps =>
    match p.tier with
    | none => .error (.validation
        s!"tier is required for tiered board, missing for entry '{p.entrySlug}'")
    | some tier =>
      match valid with
      | none => checkTiered valid ps
      | some keys =>
        if tier ∈ keys then checkTiered valid ps
        else .error (.validation
          s!"invalid tier '{tier}' for entry '{p.entrySlug}': valid tiers are {debugStrings keys}")

/-- `validate_placements`. -/
def validatePlacements (board : Board) (placements : List CreatePlacement) :
    Except Error Unit := do
  if placements = [] then .error (.validation "version must have at least one placement")
  checkDuplicateSlugs [] placements
  checkExplicitPositions placements
  if board.boardType = "ordered" then checkOrdered [] 0 placements
  else if board.boardType = "scored" then checkScored placements
  else if board.boardType = "tiered" then checkTiered (validTiers board.tierConfig) placements
  else .ok ()

/-! ### What validation guarantees -/

/-- What the rules of the board types look at in a placement. -/
structure Values where
  position : Option ℤ
  score : Option F64
  tier : Option String

/-- The values of a placement in a request. -/
def valuesOf (p : CreatePlacement) : Values := ⟨p.position, p.score, p.tier⟩

/-- The rules on the values of a version. -/
structure Valid (boardType : String) (tierConfig : Option Json) (l : List Values) : Prop where
  nonempty : l ≠ []
  positive : ∀ x ∈ l, ∀ n, x.position = some n → 1 ≤ n
  ordered : boardType = "ordered" →
    (l.zipIdx.map fun x => x.1.position.getD ((x.2 : ℤ) + 1)).Nodup
  scored : boardType = "scored" → ∀ x ∈ l, ∃ y, x.score = some y ∧ y.isFinite = true
  tiered : boardType = "tiered" → ∀ x ∈ l, ∃ tier, x.tier = some tier ∧
    ∀ keys, validTiers tierConfig = some keys → tier ∈ keys

theorem checkDuplicateSlugs_iff {seen : List String} {ps : List CreatePlacement} :
    checkDuplicateSlugs seen ps = .ok () ↔
      (ps.map CreatePlacement.entrySlug).Nodup ∧ ∀ p ∈ ps, p.entrySlug ∉ seen := by
  induction ps generalizing seen with
  | nil => simp [checkDuplicateSlugs]
  | cons p ps ih =>
    simp only [checkDuplicateSlugs]
    split
    · rename_i hseen
      simp [hseen]
    · rename_i hnew
      rw [ih]
      simp only [List.forall_mem_cons, List.map_cons, List.nodup_cons, List.mem_map]
      simp only [List.mem_cons, not_or]
      constructor
      · rintro ⟨hnodup, hunseen⟩
        refine ⟨⟨?_, hnodup⟩, hnew, fun q hq => (hunseen q hq).2⟩
        rintro ⟨q, hq, heq⟩
        exact (hunseen q hq).1 heq
      · rintro ⟨⟨habs, hnodup⟩, -, hunseen⟩
        exact ⟨hnodup, fun q hq => ⟨fun heq => habs ⟨q, hq, heq⟩, hunseen q hq⟩⟩

theorem checkExplicitPositions_iff {ps : List CreatePlacement} :
    checkExplicitPositions ps = .ok () ↔ ∀ p ∈ ps, ∀ n, p.position = some n → 1 ≤ n := by
  induction ps with
  | nil => simp [checkExplicitPositions]
  | cons p ps ih =>
    simp only [checkExplicitPositions, List.forall_mem_cons]
    split
    · rename_i pos hpos
      split
      · rename_i hlt
        simp only [reduceCtorEq, false_iff, not_and]
        intro hp
        have := hp pos hpos
        omega
      · rename_i hge
        rw [ih]
        refine ⟨fun h => ⟨fun n hn => ?_, h⟩, And.right⟩
        rw [hpos] at hn
        cases hn
        omega
    · rename_i hnone
      rw [ih]
      exact ⟨fun h => ⟨fun n hn => absurd (hnone.symm.trans hn) (by simp), h⟩, And.right⟩

theorem checkOrdered_iff {seen : List ℤ} {i : ℕ} {ps : List CreatePlacement} :
    checkOrdered seen i ps = .ok () ↔
      ((ps.zipIdx i).map fun x => resolvedPosition x.1 x.2).Nodup ∧
        ∀ x ∈ ps.zipIdx i, resolvedPosition x.1 x.2 ∉ seen := by
  induction ps generalizing seen i with
  | nil => simp [checkOrdered]
  | cons p ps ih =>
    simp only [checkOrdered]
    split
    · rename_i hseen
      simp [hseen]
    · rename_i hnew
      rw [ih]
      simp only [List.zipIdx_cons, List.forall_mem_cons, List.map_cons, List.nodup_cons,
        List.mem_map]
      simp only [List.mem_cons, not_or]
      constructor
      · rintro ⟨hnodup, hunseen⟩
        refine ⟨⟨?_, hnodup⟩, hnew, fun x hx => (hunseen x hx).2⟩
        rintro ⟨x, hx, heq⟩
        exact (hunseen x hx).1 heq
      · rintro ⟨⟨habs, hnodup⟩, -, hunseen⟩
        exact ⟨hnodup, fun x hx => ⟨fun heq => habs ⟨x, hx, heq⟩, hunseen x hx⟩⟩

theorem checkScored_iff {ps : List CreatePlacement} : checkScored ps = .ok () ↔
    ∀ p ∈ ps, ∃ x, p.score = some x ∧ x.isFinite = true := by
  induction ps with
  | nil => simp [checkScored]
  | cons p ps ih =>
    simp only [checkScored, List.forall_mem_cons]
    split
    · rename_i hnone
      simp [hnone]
    · rename_i x hx
      have hfin : x.isFinite = !(x.isNan || x.isInfinite) := rfl
      split
      · rename_i hbad
        simp [hx, hfin, hbad]
      · rename_i hgood
        rw [ih]
        simp [hx, hfin, hgood]

theorem checkTiered_iff {valid : Option (List String)} {ps : List CreatePlacement} :
    checkTiered valid ps = .ok () ↔
      ∀ p ∈ ps, ∃ tier, p.tier = some tier ∧ ∀ keys, valid = some keys → tier ∈ keys := by
  induction ps with
  | nil => simp [checkTiered]
  | cons p ps ih =>
    simp only [checkTiered, List.forall_mem_cons]
    split
    · rename_i hnone
      simp [hnone]
    · rename_i tier htier
      cases valid with
      | none =>
        rw [ih]
        simp [htier]
      | some keys =>
        dsimp only
        split
        · rename_i hmem
          rw [ih]
          simp [htier, hmem]
        · rename_i hmem
          simp [htier, hmem]

/-- The resolved positions depend on the values only. -/
private theorem resolved_valuesOf (ps : List CreatePlacement) :
    ((ps.map valuesOf).zipIdx.map fun x => x.1.position.getD ((x.2 : ℤ) + 1)) =
      ps.zipIdx.map fun x => resolvedPosition x.1 x.2 := by
  rw [List.zipIdx_map, List.map_map]
  rfl

/-- **What `validate_placements` accepts**: every entry once, and values that follow the rules. -/
theorem validatePlacements_iff {board : Board} {ps : List CreatePlacement} :
    validatePlacements board ps = .ok () ↔ (ps.map CreatePlacement.entrySlug).Nodup ∧
      Valid board.boardType board.tierConfig (ps.map valuesOf) := by
  -- The loops say the same as the rules for values.
  have hvalid : Valid board.boardType board.tierConfig (ps.map valuesOf) ↔
      ps ≠ [] ∧ checkExplicitPositions ps = .ok () ∧
        (board.boardType = "ordered" → checkOrdered [] 0 ps = .ok ()) ∧
        (board.boardType = "scored" → checkScored ps = .ok ()) ∧
        (board.boardType = "tiered" → checkTiered (validTiers board.tierConfig) ps = .ok ()) := by
    simp only [checkExplicitPositions_iff, checkOrdered_iff, checkScored_iff, checkTiered_iff,
      List.not_mem_nil, not_false_eq_true, implies_true, and_true]
    constructor
    · rintro ⟨h₁, h₂, h₃, h₄, h₅⟩
      rw [resolved_valuesOf] at h₃
      simp only [List.forall_mem_map] at h₂ h₄ h₅
      exact ⟨by simpa using h₁, h₂, h₃, h₄, h₅⟩
    · rintro ⟨h₁, h₂, h₃, h₄, h₅⟩
      rw [← resolved_valuesOf] at h₃
      refine ⟨by simpa using h₁, ?_, h₃, fun ht => ?_, fun ht => ?_⟩
      · exact List.forall_mem_map.mpr h₂
      · exact List.forall_mem_map.mpr (h₄ ht)
      · exact List.forall_mem_map.mpr (h₅ ht)
  have hdup := @checkDuplicateSlugs_iff [] ps
  simp only [List.not_mem_nil, not_false_eq_true, implies_true, and_true] at hdup
  rw [hvalid, ← hdup]
  by_cases hne : ps = []
  · have herr : validatePlacements board ps =
        .error (.validation "version must have at least one placement") := by rw [hne]; rfl
    rw [herr]
    simp [hne]
  · simp only [validatePlacements, hne, if_false, Prog.except_bind_ok]
    -- The last check is the one of the type of the board.
    have hlast : (if board.boardType = "ordered" then checkOrdered [] 0 ps
        else if board.boardType = "scored" then checkScored ps
        else if board.boardType = "tiered" then checkTiered (validTiers board.tierConfig) ps
        else .ok ()) = .ok () ↔
        (board.boardType = "ordered" → checkOrdered [] 0 ps = .ok ()) ∧
        (board.boardType = "scored" → checkScored ps = .ok ()) ∧
        (board.boardType = "tiered" → checkTiered (validTiers board.tierConfig) ps = .ok ()) := by
      split
      · rename_i ht
        simp [ht]
      · rename_i ht
        split
        · rename_i ht'
          simp [ht']
        · rename_i ht'
          split
          · rename_i ht''
            simp [ht'']
          · rename_i ht''
            simp [ht, ht', ht'']
    constructor
    · rintro ⟨⟨⟩, h₁, ⟨⟩, h₂, h₃⟩
      exact ⟨h₁, hne, h₂, hlast.mp h₃⟩
    · rintro ⟨h₁, -, h₂, h₃⟩
      exact ⟨(), h₁, (), h₂, hlast.mpr h₃⟩

/-- A resolved position is at least `1`. -/
theorem one_le_resolvedPosition {p : CreatePlacement} {i : ℕ}
    (h : ∀ n, p.position = some n → 1 ≤ n) : 1 ≤ resolvedPosition p i := by
  unfold resolvedPosition
  cases hp : p.position with
  | none =>
    simp only [Option.getD_none]
    omega
  | some n => exact h n hp

/-! ### Creating a version -/

/-- The limit on the number of versions, checked under the board lock. -/
def checkVersionLimit (boardId : Uuid) : Option ℤ → Action Unit
  | none => .ret ()
  | some max => do
    let versionCount ← Action.sql (.countVersions boardId)
    Prog.failIf (max ≤ (versionCount : ℤ))
      (.validation s!"board has too many versions ({versionCount}, max {max})")

/-- `derive_scored_positions`. -/
def deriveScoredPositions (versionId : Uuid) (sortDirection : String) : Action Unit :=
  Action.sql (.derivePositions versionId (sortDirection = "asc"))

/-- `fetch_placements`. -/
def fetchPlacements (versionId : Uuid) : Action (List PlacementWithEntry) :=
  Action.sql (.selectPlacements versionId)

/-- The slug of every placement is among the entries that were found. -/
def checkEntriesFound (board : Board) (entries : List (Uuid × String × String)) :
    List CreatePlacement → Except Error Unit
  | [] => .ok ()
  | p :: ps =>
    if entries.any fun e => e.2.1 = p.entrySlug then checkEntriesFound board entries ps
    else .error (.validation s!"entry '{p.entrySlug}' not found on board '{board.slug}'")

/-- The position that goes into the row of the placement at index `i`. -/
def storedPosition (board : Board) (p : CreatePlacement) (i : ℕ) : Option ℤ :=
  if board.boardType = "ordered" then some (resolvedPosition p i) else p.position

/-- Insert one placement and return its row with the entry's slug and name. -/
def insertPlacement (board : Board) (version : Version) (entries : List (Uuid × String × String))
    (x : CreatePlacement × ℕ) : Action PlacementWithEntry :=
  match entries.find? fun e => e.2.1 = x.1.entrySlug with
  -- Indexing the map by a missing slug panics; `checkEntriesFound` has excluded it.
  | none => .fail (.internal "no entry found for key")
  | some (entryId, entrySlug, entryName) => do
    let row ← Action.sql (.insertPlacement version.id entryId (storedPosition board x.1 x.2)
      x.1.score x.1.tier x.1.metadata)
    return { id := row.id, versionId := row.versionId, entryId := row.entryId
             position := row.position, score := row.score, tier := row.tier
             metadata := row.metadata, entrySlug := entrySlug, entryName := entryName }

/-- The part of `versions::create` inside the transaction. -/
def createBody (boardId : Uuid) (input : CreateVersion) (maxVersions : Option ℤ) :
    Action VersionWithPlacements := do
  -- The lock serializes version creation, and the row is the current one from here on.
  let board ← Action.sql (.selectBoardForUpdate boardId)
  checkVersionLimit board.id maxVersions
  Prog.ofExcept (validatePlacements board input.placements)
  let nextNumber ← Action.sql (.nextVersionNumber board.id)
  let version ← Action.sql (.insertVersion board.id nextNumber input.note input.metadata)
  let entries ← Action.sql
    (.selectEntriesBySlug board.id (input.placements.map CreatePlacement.entrySlug))
  Prog.ofExcept (checkEntriesFound board entries input.placements)
  let placements ← Prog.collect input.placements.zipIdx (insertPlacement board version entries)
  if board.boardType = "scored" then
    deriveScoredPositions version.id board.sortDirection
    let derived ← fetchPlacements version.id
    return ⟨version, derived⟩
  else return ⟨version, placements⟩

/-- `versions::create`. -/
def create (board : Board) (input : CreateVersion) (maxVersions : Option ℤ) :
    Action VersionWithPlacements := do
  Prog.failIf (board.accumulative = true) (.validation
    "cannot create versions directly on accumulative boards; use POST /boards/:slug/snapshot instead")
  Prog.ofExcept (validatePlacements board input.placements)
  Action.transaction (createBody board.id input maxVersions)

/-! ### Reading versions -/

/-- `versions::list`. -/
def list (boardId : Uuid) : Action (List Version) := Action.sql (.selectVersions boardId)

/-- `versions::list_paginated`: the newest versions first. -/
def listPaginated (fmt : CursorFormat) (boardId : Uuid) :
    PaginationParams → Action (PaginatedResponse Version) :=
  paginate fmt (fun v => (v.createdAt, v.id)) fun cursor limit =>
    Action.sql (.selectVersionsPage boardId cursor limit)

/-- `versions::get_by_number`. -/
def getByNumber (boardId : Uuid) (versionNumber : ℤ) : Action VersionWithPlacements := do
  let row ← Action.sql (.selectVersionByNumber boardId versionNumber)
  let version ← Action.okOr row (.notFound s!"version {versionNumber} not found")
  let placements ← fetchPlacements version.id
  return ⟨version, placements⟩

/-- `versions::get_latest`. -/
def getLatest (boardId : Uuid) : Action VersionWithPlacements := do
  let row ← Action.sql (.selectLatestVersion boardId)
  let version ← Action.okOr row (.notFound "no versions exist for this board")
  let placements ← fetchPlacements version.id
  return ⟨version, placements⟩

/-- `versions::since`. -/
def since (boardId : Uuid) (afterVersion : ℤ) (limit : ℕ) : Action (List Version) :=
  Action.sql (.selectVersionsSince boardId afterVersion limit)

/-! ### Comparing versions -/

/-- Look a slug up in the map that collects the placements by their slugs: the last one stays. -/
def lookupSlug (placements : List PlacementWithEntry) (slug : String) :
    Option PlacementWithEntry :=
  (placements.filter fun p => p.entrySlug = slug).getLast?

/-- The line of a placement that was added or removed, or that stayed. -/
def diffEntry (p : PlacementWithEntry) : DiffEntry where
  entrySlug := p.entrySlug
  entryName := p.entryName
  position := p.position
  score := p.score
  tier := p.tier

/-- The line of a placement that moved. -/
def diffMovedEntry (fromP p : PlacementWithEntry) : DiffMovedEntry where
  entrySlug := p.entrySlug
  entryName := p.entryName
  fromPosition := fromP.position
  toPosition := p.position
  fromScore := fromP.score
  toScore := p.score
  fromTier := fromP.tier
  toTier := p.tier

/-- The position, the score or the tier changed. -/
def hasMoved (fromP p : PlacementWithEntry) : Bool :=
  fromP.position ≠ p.position || !scoresEqual fromP.score p.score || fromP.tier ≠ p.tier

/-- The difference of the placements of two versions. -/
def diffPlacements (fromNumber toNumber : ℤ) (fromPs toPs : List PlacementWithEntry) :
    VersionDiff where
  fromVersion := fromNumber
  toVersion := toNumber
  added := (toPs.filter fun p => (lookupSlug fromPs p.entrySlug).isNone).map diffEntry
  removed := (fromPs.filter fun p => (lookupSlug toPs p.entrySlug).isNone).map diffEntry
  moved := toPs.filterMap fun p =>
    (lookupSlug fromPs p.entrySlug).bind fun fromP =>
      if hasMoved fromP p then some (diffMovedEntry fromP p) else none
  unchanged := (toPs.filter fun p =>
    (lookupSlug fromPs p.entrySlug).any fun fromP => !hasMoved fromP p).map diffEntry

/-- `versions::diff`. -/
def diff (boardId : Uuid) (fromNumber toNumber : ℤ) : Action VersionDiff := do
  let fromVersion ← getByNumber boardId fromNumber
  let toVersion ← getByNumber boardId toNumber
  return diffPlacements fromNumber toNumber fromVersion.placements toVersion.placements

end Versions

end Leaderboards
