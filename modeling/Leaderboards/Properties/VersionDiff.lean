import Leaderboards.Properties.OrderedPositions
import Leaderboards.Transactions.VersionReads

/-!
# The difference of two versions

`versions::diff` puts every entry of two versions into one of four lists, by looking its slug up in
the other version. An entry occurs at most once in a version, so the lists partition the entries
(`VersionDiff.Exact`) and say all that is needed to turn one version into the other
(`VersionDiff.patch`). `version_diff_exact` is about the versions of any reachable state.
-/

namespace Leaderboards

open Interaction Versions

/-! ### Lines -/

/-- What a difference says of a placement. -/
structure DiffLine where
  entrySlug : String
  position : Option ℤ
  score : Option F64
  tier : Option String
deriving DecidableEq

/-- The line of a placement of a version. -/
def PlacementWithEntry.diffLine (p : PlacementWithEntry) : DiffLine :=
  ⟨p.entrySlug, p.position, p.score, p.tier⟩

/-- The line of an entry that was added or removed, or that stayed. -/
def DiffEntry.line (e : DiffEntry) : DiffLine := ⟨e.entrySlug, e.position, e.score, e.tier⟩

/-- The line that an entry moved to. -/
def DiffMovedEntry.toLine (m : DiffMovedEntry) : DiffLine :=
  ⟨m.entrySlug, m.toPosition, m.toScore, m.toTier⟩

/-- The two sides of a move exchanged. -/
def DiffMovedEntry.swap (m : DiffMovedEntry) : DiffMovedEntry where
  entrySlug := m.entrySlug
  entryName := m.entryName
  fromPosition := m.toPosition
  toPosition := m.fromPosition
  fromScore := m.toScore
  toScore := m.fromScore
  fromTier := m.toTier
  toTier := m.fromTier

namespace VersionDiff

/-- The slugs of all four lists. -/
def slugs (d : VersionDiff) : List String :=
  d.added.map DiffEntry.entrySlug ++ d.removed.map DiffEntry.entrySlug ++
    d.moved.map DiffMovedEntry.entrySlug ++ d.unchanged.map DiffEntry.entrySlug

/-- The difference in the other direction. -/
def swap (d : VersionDiff) : VersionDiff where
  fromVersion := d.toVersion
  toVersion := d.fromVersion
  added := d.removed
  removed := d.added
  moved := d.moved.map DiffMovedEntry.swap
  unchanged := d.unchanged

/-- Where a line of the old version moves to. -/
def moveLine (d : VersionDiff) (l : DiffLine) : DiffLine :=
  match d.moved.find? fun m => m.entrySlug = l.entrySlug with
  | some m => m.toLine
  | none => l

/-- The lines of the new version, rebuilt from those of the old one. -/
def patch (d : VersionDiff) (lines : List DiffLine) : List DiffLine :=
  (lines.filter fun l => l.entrySlug ∉ d.removed.map DiffEntry.entrySlug).map d.moveLine ++
    d.added.map DiffEntry.line

theorem moveLine_slug (d : VersionDiff) (l : DiffLine) :
    (d.moveLine l).entrySlug = l.entrySlug := by
  unfold moveLine
  split
  · rename_i m hm
    have hslug : m.entrySlug = l.entrySlug := by simpa using List.find?_some hm
    exact hslug
  · rfl

end VersionDiff

/-! ### Looking up a slug -/

variable {ps fromPs toPs : List PlacementWithEntry}

/-- The entries of a list of placements are pairwise different. -/
def DistinctSlugs (ps : List PlacementWithEntry) : Prop :=
  (ps.map PlacementWithEntry.entrySlug).Nodup

theorem DistinctSlugs.eq (h : DistinctSlugs ps) {p q : PlacementWithEntry} (hp : p ∈ ps)
    (hq : q ∈ ps) (heq : p.entrySlug = q.entrySlug) : p = q := List.inj_on_of_nodup_map h hp hq heq

theorem lookupSlug_eq_none {slug : String} :
    lookupSlug ps slug = none ↔ slug ∉ ps.map PlacementWithEntry.entrySlug := by
  simp [lookupSlug]

theorem lookupSlug_mem {slug : String} {p : PlacementWithEntry} (h : lookupSlug ps slug = some p) :
    p ∈ ps ∧ p.entrySlug = slug := by
  have hmem := List.mem_filter.mp (List.mem_of_getLast? h)
  exact ⟨hmem.1, by simpa using hmem.2⟩

/-- The map has the placement of every entry of the list. -/
theorem DistinctSlugs.lookupSlug (h : DistinctSlugs ps) {p : PlacementWithEntry} (hp : p ∈ ps) :
    lookupSlug ps p.entrySlug = some p := by
  rcases hlookup : Versions.lookupSlug ps p.entrySlug with _ | q
  · exact absurd (List.mem_map_of_mem hp) (lookupSlug_eq_none.mp hlookup)
  · obtain ⟨hq, hslug⟩ := lookupSlug_mem hlookup
    rw [h.eq hq hp hslug]

theorem hasMoved_eq_false_iff {p q : PlacementWithEntry} : hasMoved p q = false ↔
    p.position = q.position ∧ p.tier = q.tier ∧ scoresEqual p.score q.score = true := by
  simp only [hasMoved, Bool.or_eq_false_iff, Bool.not_eq_false', decide_eq_false_iff_not, not_not]
  constructor
  · rintro ⟨⟨hposition, hscore⟩, htier⟩
    exact ⟨hposition, htier, hscore⟩
  · rintro ⟨hposition, htier, hscore⟩
    exact ⟨⟨hposition, hscore⟩, htier⟩

/-- A placement that did not move has the same line. -/
theorem hasMoved_eq_false {p q : PlacementWithEntry} (hslug : p.entrySlug = q.entrySlug) :
    hasMoved p q = false ↔ p.diffLine = q.diffLine := by
  simp [hasMoved, PlacementWithEntry.diffLine, hslug, and_assoc]

theorem hasMoved_comm (p q : PlacementWithEntry) : hasMoved p q = hasMoved q p := by
  have hscore : scoresEqual p.score q.score = scoresEqual q.score p.score := by
    rw [Bool.eq_iff_iff, scoresEqual_iff, scoresEqual_iff, eq_comm]
  simp only [hasMoved, hscore, ne_comm]

/-! ### The four lists -/

variable {m n : ℤ}

theorem mem_added {e : DiffEntry} : e ∈ (diffPlacements m n fromPs toPs).added ↔
    ∃ q ∈ toPs, q.entrySlug ∉ fromPs.map PlacementWithEntry.entrySlug ∧ diffEntry q = e := by
  simp only [diffPlacements, List.mem_map, List.mem_filter, Option.isNone_iff_eq_none,
    lookupSlug_eq_none, and_assoc]

theorem mem_removed {e : DiffEntry} : e ∈ (diffPlacements m n fromPs toPs).removed ↔
    ∃ p ∈ fromPs, p.entrySlug ∉ toPs.map PlacementWithEntry.entrySlug ∧ diffEntry p = e := by
  simp only [diffPlacements, List.mem_map, List.mem_filter, Option.isNone_iff_eq_none,
    lookupSlug_eq_none, and_assoc]

section Distinct

variable (hfrom : DistinctSlugs fromPs)

include hfrom

theorem mem_moved {e : DiffMovedEntry} : e ∈ (diffPlacements m n fromPs toPs).moved ↔
    ∃ p ∈ fromPs, ∃ q ∈ toPs, p.entrySlug = q.entrySlug ∧ hasMoved p q = true ∧
      diffMovedEntry p q = e := by
  simp only [diffPlacements, List.mem_filterMap, Option.bind_eq_some_iff]
  constructor
  · rintro ⟨q, hq, p, hlookup, h⟩
    obtain ⟨hp, hslug⟩ := lookupSlug_mem hlookup
    by_cases hmoved : hasMoved p q = true
    · exact ⟨p, hp, q, hq, hslug, hmoved, by simpa [hmoved] using h⟩
    · simp [hmoved] at h
  · rintro ⟨p, hp, q, hq, hslug, hmoved, rfl⟩
    exact ⟨q, hq, p, hslug ▸ hfrom.lookupSlug hp, if_pos hmoved⟩

theorem mem_unchanged {e : DiffEntry} : e ∈ (diffPlacements m n fromPs toPs).unchanged ↔
    ∃ p ∈ fromPs, ∃ q ∈ toPs, p.entrySlug = q.entrySlug ∧ hasMoved p q = false ∧
      diffEntry q = e := by
  simp only [diffPlacements, List.mem_map, List.mem_filter, Option.any_eq_true,
    Bool.not_eq_true']
  constructor
  · rintro ⟨q, ⟨hq, p, hlookup, hmoved⟩, rfl⟩
    obtain ⟨hp, hslug⟩ := lookupSlug_mem hlookup
    exact ⟨p, hp, q, hq, hslug, hmoved, rfl⟩
  · rintro ⟨p, hp, q, hq, hslug, hmoved, rfl⟩
    exact ⟨q, ⟨hq, p, hslug ▸ hfrom.lookupSlug hp, hmoved⟩, rfl⟩

end Distinct

theorem added_slugs : (diffPlacements m n fromPs toPs).added.map DiffEntry.entrySlug =
    (toPs.filter fun p => (lookupSlug fromPs p.entrySlug).isNone).map
      PlacementWithEntry.entrySlug := by
  simp [diffPlacements, diffEntry, Function.comp_def]

theorem removed_slugs : (diffPlacements m n fromPs toPs).removed.map DiffEntry.entrySlug =
    (fromPs.filter fun p => (lookupSlug toPs p.entrySlug).isNone).map
      PlacementWithEntry.entrySlug := by
  simp [diffPlacements, diffEntry, Function.comp_def]

theorem unchanged_slugs : (diffPlacements m n fromPs toPs).unchanged.map DiffEntry.entrySlug =
    (toPs.filter fun q => (lookupSlug fromPs q.entrySlug).any fun p => !hasMoved p q).map
      PlacementWithEntry.entrySlug := by
  simp [diffPlacements, diffEntry, Function.comp_def]

theorem moved_slugs : (diffPlacements m n fromPs toPs).moved.map DiffMovedEntry.entrySlug =
    (toPs.filter fun q => (lookupSlug fromPs q.entrySlug).any fun p => hasMoved p q).map
      PlacementWithEntry.entrySlug := by
  have hline : ∀ q : PlacementWithEntry, (((lookupSlug fromPs q.entrySlug).bind fun p =>
      if hasMoved p q = true then some (diffMovedEntry p q) else none).map
        DiffMovedEntry.entrySlug) =
      if (lookupSlug fromPs q.entrySlug).any (fun p => hasMoved p q) = true then some q.entrySlug
      else none := by
    intro q
    rcases lookupSlug fromPs q.entrySlug with _ | p
    · rfl
    · by_cases hmoved : hasMoved p q = true
      · simp [hmoved, diffMovedEntry]
      · simp [hmoved]
  simp only [diffPlacements, List.map_filterMap, hline]
  rw [← List.filterMap_eq_map, List.filterMap_filter]
  rfl

/-- The added entries are those of the new version only. -/
theorem mem_added_slugs {slug : String} :
    slug ∈ (diffPlacements m n fromPs toPs).added.map DiffEntry.entrySlug ↔
      slug ∈ toPs.map PlacementWithEntry.entrySlug ∧
        slug ∉ fromPs.map PlacementWithEntry.entrySlug := by
  rw [List.mem_map]
  constructor
  · rintro ⟨e, he, rfl⟩
    obtain ⟨q, hq, hnew, rfl⟩ := mem_added.mp he
    exact ⟨List.mem_map_of_mem hq, hnew⟩
  · rintro ⟨ht, hnew⟩
    obtain ⟨q, hq, rfl⟩ := List.mem_map.mp ht
    exact ⟨diffEntry q, mem_added.mpr ⟨q, hq, hnew, rfl⟩, rfl⟩

/-- The removed entries are those of the old version only. -/
theorem mem_removed_slugs {slug : String} :
    slug ∈ (diffPlacements m n fromPs toPs).removed.map DiffEntry.entrySlug ↔
      slug ∈ fromPs.map PlacementWithEntry.entrySlug ∧
        slug ∉ toPs.map PlacementWithEntry.entrySlug := by
  rw [List.mem_map]
  constructor
  · rintro ⟨e, he, rfl⟩
    obtain ⟨p, hp, hgone, rfl⟩ := mem_removed.mp he
    exact ⟨List.mem_map_of_mem hp, hgone⟩
  · rintro ⟨hf, hgone⟩
    obtain ⟨p, hp, rfl⟩ := List.mem_map.mp hf
    exact ⟨diffEntry p, mem_removed.mpr ⟨p, hp, hgone, rfl⟩, rfl⟩

theorem mem_moved_slugs (hfrom : DistinctSlugs fromPs) {slug : String} :
    slug ∈ (diffPlacements m n fromPs toPs).moved.map DiffMovedEntry.entrySlug ↔
      ∃ p ∈ fromPs, ∃ q ∈ toPs, p.entrySlug = slug ∧ q.entrySlug = slug ∧
        hasMoved p q = true := by
  rw [List.mem_map]
  constructor
  · rintro ⟨e, he, rfl⟩
    obtain ⟨p, hp, q, hq, hslug, hmoved, rfl⟩ := (mem_moved hfrom).mp he
    exact ⟨p, hp, q, hq, hslug, rfl, hmoved⟩
  · rintro ⟨p, hp, q, hq, rfl, hslug, hmoved⟩
    exact ⟨_, (mem_moved hfrom).mpr ⟨p, hp, q, hq, hslug.symm, hmoved, rfl⟩, hslug⟩

theorem mem_unchanged_slugs (hfrom : DistinctSlugs fromPs) {slug : String} :
    slug ∈ (diffPlacements m n fromPs toPs).unchanged.map DiffEntry.entrySlug ↔
      ∃ p ∈ fromPs, ∃ q ∈ toPs, p.entrySlug = slug ∧ q.entrySlug = slug ∧
        hasMoved p q = false := by
  rw [List.mem_map]
  constructor
  · rintro ⟨e, he, rfl⟩
    obtain ⟨p, hp, q, hq, hslug, hmoved, rfl⟩ := (mem_unchanged hfrom).mp he
    exact ⟨p, hp, q, hq, hslug, rfl, hmoved⟩
  · rintro ⟨p, hp, q, hq, rfl, hslug, hmoved⟩
    exact ⟨_, (mem_unchanged hfrom).mpr ⟨p, hp, q, hq, hslug.symm, hmoved, rfl⟩, hslug⟩

/-! ### Patching -/

/-- Where a line moves to, when the moves are known by their slugs. -/
theorem VersionDiff.moveLine_eq {d : VersionDiff}
    (hslugs : (d.moved.map DiffMovedEntry.entrySlug).Nodup)
    {l : DiffLine} {e : DiffMovedEntry} (he : e ∈ d.moved) (hslug : e.entrySlug = l.entrySlug) :
    d.moveLine l = e.toLine := by
  unfold VersionDiff.moveLine
  split
  · rename_i e' he'
    have hslug' : e'.entrySlug = l.entrySlug := by simpa using List.find?_some he'
    rw [List.inj_on_of_nodup_map hslugs (List.mem_of_find?_eq_some he') he
      (hslug'.trans hslug.symm)]
  · rename_i hnone
    exact absurd hslug (by simpa using List.find?_eq_none.mp hnone e he)

theorem VersionDiff.moveLine_of_forall_ne {d : VersionDiff} {l : DiffLine}
    (h : ∀ e ∈ d.moved, e.entrySlug ≠ l.entrySlug) : d.moveLine l = l := by
  have hnone : d.moved.find? (fun m => m.entrySlug = l.entrySlug) = none := by
    simpa [List.find?_eq_none] using h
  rw [VersionDiff.moveLine, hnone]

theorem DistinctSlugs.lines_nodup (h : DistinctSlugs ps) :
    (ps.map PlacementWithEntry.diffLine).Nodup := by
  refine List.Nodup.of_map DiffLine.entrySlug ?_
  rw [List.map_map]
  exact h

/-- **Patching**: a difference whose lists are right for two versions turns the lines of the one
into the lines of the other. -/
theorem VersionDiff.patch_perm {d : VersionDiff} (hfrom : DistinctSlugs fromPs)
    (hto : DistinctSlugs toPs) (hnodup : (d.added.map DiffEntry.entrySlug).Nodup)
    (hadded : ∀ e, e ∈ d.added ↔ ∃ q ∈ toPs,
      q.entrySlug ∉ fromPs.map PlacementWithEntry.entrySlug ∧ diffEntry q = e)
    (hremoved : ∀ p ∈ fromPs, p.entrySlug ∈ d.removed.map DiffEntry.entrySlug ↔
      p.entrySlug ∉ toPs.map PlacementWithEntry.entrySlug)
    (hmoved : ∀ p ∈ fromPs, ∀ q ∈ toPs, p.entrySlug = q.entrySlug →
      d.moveLine p.diffLine = q.diffLine) :
    (d.patch (fromPs.map PlacementWithEntry.diffLine)).Perm
      (toPs.map PlacementWithEntry.diffLine) := by
  have hlines : ∀ l, l ∈ d.patch (fromPs.map PlacementWithEntry.diffLine) ↔
      l ∈ toPs.map PlacementWithEntry.diffLine := by
    intro l
    rw [VersionDiff.patch, List.mem_append]
    constructor
    · rintro (hl | hl)
      · obtain ⟨l', hkept, rfl⟩ := List.mem_map.mp hl
        obtain ⟨hold, hstays⟩ := List.mem_filter.mp hkept
        obtain ⟨p, hp, rfl⟩ := List.mem_map.mp hold
        -- An entry that is not removed is in the new version.
        have hslug := not_not.mp (mt (hremoved p hp).mpr (of_decide_eq_true hstays))
        obtain ⟨q, hq, heq⟩ := List.mem_map.mp hslug
        rw [hmoved p hp q hq heq.symm]
        exact List.mem_map_of_mem hq
      · obtain ⟨e, he, rfl⟩ := List.mem_map.mp hl
        obtain ⟨q, hq, -, rfl⟩ := (hadded e).mp he
        exact List.mem_map_of_mem hq
    · intro hl
      obtain ⟨q, hq, rfl⟩ := List.mem_map.mp hl
      by_cases hslug : q.entrySlug ∈ fromPs.map PlacementWithEntry.entrySlug
      · obtain ⟨p, hp, heq⟩ := List.mem_map.mp hslug
        have hstays := mt (hremoved p hp).mp (not_not.mpr (heq ▸ List.mem_map_of_mem hq))
        rw [← hmoved p hp q hq heq]
        exact .inl (List.mem_map_of_mem (List.mem_filter.mpr
          ⟨List.mem_map_of_mem hp, decide_eq_true hstays⟩))
      · exact .inr (List.mem_map_of_mem ((hadded (diffEntry q)).mpr ⟨q, hq, hslug, rfl⟩))
  -- No slug stands twice in the patched lines.
  have hpatched : (d.patch (fromPs.map PlacementWithEntry.diffLine)).Nodup := by
    refine List.Nodup.of_map DiffLine.entrySlug ?_
    have hkept : (((fromPs.map PlacementWithEntry.diffLine).filter fun l =>
        l.entrySlug ∉ d.removed.map DiffEntry.entrySlug).map d.moveLine).map DiffLine.entrySlug =
        ((fromPs.map PlacementWithEntry.diffLine).filter fun l =>
          l.entrySlug ∉ d.removed.map DiffEntry.entrySlug).map DiffLine.entrySlug := by
      rw [List.map_map]
      exact List.map_congr_left fun l _ => d.moveLine_slug l
    have hold : ((fromPs.map PlacementWithEntry.diffLine).map DiffLine.entrySlug).Nodup := by
      rw [List.map_map]
      exact hfrom
    rw [VersionDiff.patch, List.map_append, hkept, List.nodup_append]
    refine ⟨hold.sublist (List.filter_sublist.map _), ?_, ?_⟩
    · rw [List.map_map]
      exact hnodup
    · simp only [List.mem_map, List.mem_filter]
      rintro _ ⟨_, ⟨⟨p, hp, rfl⟩, -⟩, rfl⟩ _ ⟨_, ⟨e, he, rfl⟩, rfl⟩ heq
      obtain ⟨q, -, hnew, rfl⟩ := (hadded e).mp he
      have hslug : p.entrySlug = q.entrySlug := heq
      exact hnew (hslug ▸ List.mem_map_of_mem hp)
  exact (List.perm_ext_iff_of_nodup hpatched hto.lines_nodup).mpr hlines

/-! ### What a difference says -/

/-- The difference says exactly how the placements `toPs` differ from `fromPs`. -/
structure VersionDiff.Exact (fromPs toPs : List PlacementWithEntry) (d : VersionDiff) : Prop where
  /-- Every slug is in one list, once. -/
  slugs_nodup : d.slugs.Nodup
  mem_slugs : ∀ slug, slug ∈ d.slugs ↔ slug ∈ fromPs.map PlacementWithEntry.entrySlug ∨
    slug ∈ toPs.map PlacementWithEntry.entrySlug
  added : ∀ slug, slug ∈ d.added.map DiffEntry.entrySlug ↔
    slug ∈ toPs.map PlacementWithEntry.entrySlug ∧ slug ∉ fromPs.map PlacementWithEntry.entrySlug
  removed : ∀ slug, slug ∈ d.removed.map DiffEntry.entrySlug ↔
    slug ∈ fromPs.map PlacementWithEntry.entrySlug ∧ slug ∉ toPs.map PlacementWithEntry.entrySlug
  unchanged : ∀ slug, slug ∈ d.unchanged.map DiffEntry.entrySlug ↔ ∃ p ∈ fromPs, ∃ q ∈ toPs,
    p.entrySlug = slug ∧ q.entrySlug = slug ∧ p.position = q.position ∧ p.tier = q.tier ∧
      scoresEqual p.score q.score = true
  /-- The new version, from the old one and the difference. -/
  patches :
    (d.patch (fromPs.map PlacementWithEntry.diffLine)).Perm (toPs.map PlacementWithEntry.diffLine)
  /-- The old version, from the new one and the difference. -/
  unpatches :
    (d.swap.patch (toPs.map PlacementWithEntry.diffLine)).Perm
      (fromPs.map PlacementWithEntry.diffLine)

/-- Two differences with the same lists up to their order. -/
structure VersionDiff.SameLists (d d' : VersionDiff) : Prop where
  fromVersion : d.fromVersion = d'.fromVersion
  toVersion : d.toVersion = d'.toVersion
  added : d.added.Perm d'.added
  removed : d.removed.Perm d'.removed
  moved : d.moved.Perm d'.moved
  unchanged : d.unchanged.Perm d'.unchanged

section Distinct

variable (hfrom : DistinctSlugs fromPs) (hto : DistinctSlugs toPs)

include hto in
theorem added_slugs_nodup :
    ((diffPlacements m n fromPs toPs).added.map DiffEntry.entrySlug).Nodup := by
  rw [added_slugs]
  exact hto.sublist (List.filter_sublist.map _)

include hfrom in
theorem removed_slugs_nodup :
    ((diffPlacements m n fromPs toPs).removed.map DiffEntry.entrySlug).Nodup := by
  rw [removed_slugs]
  exact hfrom.sublist (List.filter_sublist.map _)

include hto in
theorem moved_slugs_nodup : ((diffPlacements m n fromPs toPs).moved.map
    DiffMovedEntry.entrySlug).Nodup := by
  rw [moved_slugs]
  exact hto.sublist (List.filter_sublist.map _)

include hfrom hto

/-- The old line of an entry of both versions moves to its new line. -/
theorem moveLine_diff {p q : PlacementWithEntry} (hp : p ∈ fromPs) (hq : q ∈ toPs)
    (hslug : p.entrySlug = q.entrySlug) :
    (diffPlacements m n fromPs toPs).moveLine p.diffLine = q.diffLine := by
  by_cases hmoved : hasMoved p q = true
  · have hmem : diffMovedEntry p q ∈ (diffPlacements m n fromPs toPs).moved :=
      (mem_moved hfrom).mpr ⟨p, hp, q, hq, hslug, hmoved, rfl⟩
    exact VersionDiff.moveLine_eq (moved_slugs_nodup hto) hmem hslug.symm
  · rw [← (hasMoved_eq_false hslug).mp (by simpa using hmoved)]
    refine VersionDiff.moveLine_of_forall_ne fun e he heq => hmoved ?_
    obtain ⟨p', hp', q', hq', hslug', hmoved', rfl⟩ := (mem_moved hfrom).mp he
    have hqp : q'.entrySlug = p.entrySlug := heq
    obtain rfl := hto.eq hq' hq (hqp.trans hslug)
    obtain rfl := hfrom.eq hp' hp (hslug'.trans hqp)
    exact hmoved'

/-- The new line of an entry of both versions moves back to its old line. -/
theorem moveLine_swap_diff {p q : PlacementWithEntry} (hp : p ∈ fromPs) (hq : q ∈ toPs)
    (hslug : p.entrySlug = q.entrySlug) :
    (diffPlacements m n fromPs toPs).swap.moveLine q.diffLine = p.diffLine := by
  have hslugs : ((diffPlacements m n fromPs toPs).swap.moved.map
      DiffMovedEntry.entrySlug).Nodup := by
    have hmap : (diffPlacements m n fromPs toPs).swap.moved.map DiffMovedEntry.entrySlug =
        (diffPlacements m n fromPs toPs).moved.map DiffMovedEntry.entrySlug := List.map_map
    rw [hmap]
    exact moved_slugs_nodup hto
  by_cases hmoved : hasMoved p q = true
  · have hmem : (diffMovedEntry p q).swap ∈ (diffPlacements m n fromPs toPs).swap.moved :=
      List.mem_map_of_mem ((mem_moved hfrom).mpr ⟨p, hp, q, hq, hslug, hmoved, rfl⟩)
    rw [VersionDiff.moveLine_eq hslugs hmem rfl]
    simp [DiffMovedEntry.swap, DiffMovedEntry.toLine, diffMovedEntry,
      PlacementWithEntry.diffLine, hslug]
  · rw [(hasMoved_eq_false hslug).mp (by simpa using hmoved)]
    refine VersionDiff.moveLine_of_forall_ne fun e he heq => hmoved ?_
    obtain ⟨e', he', rfl⟩ := List.mem_map.mp he
    obtain ⟨p', hp', q', hq', hslug', hmoved', rfl⟩ := (mem_moved hfrom).mp he'
    have hqq : q'.entrySlug = q.entrySlug := heq
    obtain rfl := hto.eq hq' hq hqq
    obtain rfl := hfrom.eq hp' hp (hslug'.trans hslug.symm)
    exact hmoved'

/-- **The four lists are disjoint.** -/
theorem slugs_nodup_diff : (diffPlacements m n fromPs toPs).slugs.Nodup := by
  -- The added, the moved and the unchanged entries are told apart by a look at the old version.
  have hunchanged : ((diffPlacements m n fromPs toPs).unchanged.map DiffEntry.entrySlug).Nodup := by
    rw [unchanged_slugs]
    exact hto.sublist (List.filter_sublist.map _)
  rw [VersionDiff.slugs, List.nodup_append, List.nodup_append, List.nodup_append]
  refine ⟨⟨⟨added_slugs_nodup hto, removed_slugs_nodup hfrom, ?_⟩, moved_slugs_nodup hto, ?_⟩,
    hunchanged, ?_⟩
  · rintro slug ha _ hr rfl
    exact (mem_added_slugs.mp ha).2 (mem_removed_slugs.mp hr).1
  · rintro slug hslug _ hm rfl
    obtain ⟨p, hp, q, hq, rfl, hslug', -⟩ := (mem_moved_slugs hfrom).mp hm
    rcases List.mem_append.mp hslug with ha | hr
    · exact (mem_added_slugs.mp ha).2 (List.mem_map_of_mem hp)
    · exact (mem_removed_slugs.mp hr).2 (hslug' ▸ List.mem_map_of_mem hq)
  · rintro slug hslug _ hu rfl
    obtain ⟨p, hp, q, hq, rfl, hslug', hsame⟩ := (mem_unchanged_slugs hfrom).mp hu
    rcases List.mem_append.mp hslug with hslug | hm
    · rcases List.mem_append.mp hslug with ha | hr
      · exact (mem_added_slugs.mp ha).2 (List.mem_map_of_mem hp)
      · exact (mem_removed_slugs.mp hr).2 (hslug' ▸ List.mem_map_of_mem hq)
    · obtain ⟨p', hp', q', hq', hpp, hqq, hmoved⟩ := (mem_moved_slugs hfrom).mp hm
      obtain rfl := hfrom.eq hp' hp hpp
      obtain rfl := hto.eq hq' hq (hqq.trans hslug'.symm)
      rw [hsame] at hmoved
      cases hmoved

omit hto in
/-- Every entry of the two versions is in one of the lists. -/
theorem mem_slugs_diff (slug : String) : slug ∈ (diffPlacements m n fromPs toPs).slugs ↔
    slug ∈ fromPs.map PlacementWithEntry.entrySlug ∨
      slug ∈ toPs.map PlacementWithEntry.entrySlug := by
  simp only [VersionDiff.slugs, List.mem_append, mem_added_slugs, mem_removed_slugs,
    mem_moved_slugs hfrom, mem_unchanged_slugs hfrom]
  constructor
  · rintro (((⟨ht, -⟩ | ⟨hf, -⟩) | ⟨p, hp, q, -, rfl, -⟩) | ⟨p, hp, q, -, rfl, -⟩)
    · exact .inr ht
    · exact .inl hf
    · exact .inl (List.mem_map_of_mem hp)
    · exact .inl (List.mem_map_of_mem hp)
  · intro hslug
    by_cases hf : slug ∈ fromPs.map PlacementWithEntry.entrySlug
    · by_cases ht : slug ∈ toPs.map PlacementWithEntry.entrySlug
      · obtain ⟨p, hp, rfl⟩ := List.mem_map.mp hf
        obtain ⟨q, hq, heq⟩ := List.mem_map.mp ht
        cases hmoved : hasMoved p q with
        | true => exact .inl (.inr ⟨p, hp, q, hq, rfl, heq, hmoved⟩)
        | false => exact .inr ⟨p, hp, q, hq, rfl, heq, hmoved⟩
      · exact .inl (.inl (.inr ⟨hf, ht⟩))
    · exact .inl (.inl (.inl ⟨hslug.resolve_left hf, hf⟩))

/-- **The difference of two lists of distinct entries is exact.** -/
theorem exact_diff : (diffPlacements m n fromPs toPs).Exact fromPs toPs where
  slugs_nodup := slugs_nodup_diff hfrom hto
  mem_slugs := mem_slugs_diff hfrom
  added _ := mem_added_slugs
  removed _ := mem_removed_slugs
  unchanged slug := by
    rw [mem_unchanged_slugs hfrom]
    simp only [hasMoved_eq_false_iff]
  patches := by
    refine VersionDiff.patch_perm hfrom hto (added_slugs_nodup hto) (fun _ => mem_added)
      (fun p hp => ?_) fun p hp q hq hslug => moveLine_diff hfrom hto hp hq hslug
    rw [mem_removed_slugs, and_iff_right (List.mem_map_of_mem hp)]
  unpatches := by
    have hnodup : ((diffPlacements m n fromPs toPs).swap.added.map DiffEntry.entrySlug).Nodup :=
      removed_slugs_nodup (m := m) (n := n) hfrom
    have hadded : ∀ e, e ∈ (diffPlacements m n fromPs toPs).swap.added ↔ _ :=
      fun _ => mem_removed (m := m) (n := n)
    refine VersionDiff.patch_perm hto hfrom hnodup hadded (fun q hq => ?_)
      fun q hq p hp hslug => moveLine_swap_diff hfrom hto hp hq hslug.symm
    refine (mem_added_slugs (m := m) (n := n)).trans ?_
    rw [and_iff_right (List.mem_map_of_mem hq)]

end Distinct

/-! ### Consequences -/

/-- The difference of a version with itself. -/
theorem diff_self (h : DistinctSlugs ps) : diffPlacements m m ps ps =
    { fromVersion := m, toVersion := m, added := [], removed := [], moved := []
      unchanged := ps.map diffEntry } := by
  have hfound : ∀ p ∈ ps, (lookupSlug ps p.entrySlug).isNone = false := by
    intro p hp
    rw [h.lookupSlug hp]
    rfl
  have hself : ∀ p : PlacementWithEntry, hasMoved p p = false := fun p =>
    (hasMoved_eq_false rfl).mpr rfl
  have hnone : ps.filter (fun p => (lookupSlug ps p.entrySlug).isNone) = [] :=
    List.filter_eq_nil_iff.mpr fun p hp => by simp [hfound p hp]
  have hmoved : ps.filterMap (fun q => (lookupSlug ps q.entrySlug).bind fun p =>
      if hasMoved p q = true then some (diffMovedEntry p q) else none) = [] := by
    rw [List.filterMap_eq_nil_iff]
    intro q hq
    rw [h.lookupSlug hq, Option.bind_some, hself, if_neg Bool.false_ne_true]
  have hall : ps.filter (fun q => (lookupSlug ps q.entrySlug).any fun p => !hasMoved p q) = ps := by
    rw [List.filter_eq_self]
    intro q hq
    rw [h.lookupSlug hq, Option.any_some, hself]
    rfl
  rw [diffPlacements, hnone, hmoved, hall]
  rfl

/-- **With the arguments swapped** the difference is the one in the other direction, when the
versions agree on the names of the entries. -/
theorem sameLists_swap (hfrom : DistinctSlugs fromPs) (hto : DistinctSlugs toPs)
    (hnames : ∀ p ∈ fromPs, ∀ q ∈ toPs, p.entrySlug = q.entrySlug → p.entryName = q.entryName) :
    (diffPlacements n m toPs fromPs).SameLists (diffPlacements m n fromPs toPs).swap where
  fromVersion := rfl
  toVersion := rfl
  added := .refl _
  removed := .refl _
  moved := by
    -- Swapping a moved entry exchanges its two sides; it keeps the name of one of them.
    have hswapped : ∀ p ∈ fromPs, ∀ q ∈ toPs, p.entrySlug = q.entrySlug →
        (diffMovedEntry p q).swap = diffMovedEntry q p := by
      intro p hp q hq hslug
      simp [diffMovedEntry, DiffMovedEntry.swap, hslug, hnames p hp q hq hslug]
    have hnodup : (diffPlacements n m toPs fromPs).moved.Nodup :=
      (moved_slugs_nodup hfrom).of_map _
    have hnodup' : (diffPlacements m n fromPs toPs).swap.moved.Nodup := by
      refine List.Nodup.of_map DiffMovedEntry.entrySlug ?_
      have hmap : (diffPlacements m n fromPs toPs).swap.moved.map DiffMovedEntry.entrySlug =
          (diffPlacements m n fromPs toPs).moved.map DiffMovedEntry.entrySlug := List.map_map
      rw [hmap]
      exact moved_slugs_nodup hto
    refine (List.perm_ext_iff_of_nodup hnodup hnodup').mpr fun e => ?_
    rw [mem_moved hto]
    constructor
    · rintro ⟨q, hq, p, hp, hslug, hmoved, rfl⟩
      rw [← hswapped p hp q hq hslug.symm]
      rw [hasMoved_comm] at hmoved
      exact List.mem_map_of_mem ((mem_moved hfrom).mpr ⟨p, hp, q, hq, hslug.symm, hmoved, rfl⟩)
    · intro he
      obtain ⟨e', he', rfl⟩ := List.mem_map.mp he
      obtain ⟨p, hp, q, hq, hslug, hmoved, rfl⟩ := (mem_moved hfrom).mp he'
      rw [hasMoved_comm] at hmoved
      exact ⟨q, hq, p, hp, hslug.symm, hmoved, (hswapped p hp q hq hslug).symm⟩
  unchanged := by
    have hsame : ∀ p ∈ fromPs, ∀ q ∈ toPs, p.entrySlug = q.entrySlug → hasMoved p q = false →
        diffEntry p = diffEntry q := by
      intro p hp q hq hslug hmoved
      obtain ⟨hposition, htier, hscore⟩ := hasMoved_eq_false_iff.mp hmoved
      rw [scoresEqual_iff] at hscore
      simp [diffEntry, hslug, hnames p hp q hq hslug, hposition, htier, hscore]
    have hnodup : ∀ {fromPs toPs : List PlacementWithEntry} {m n : ℤ}, DistinctSlugs toPs →
        (diffPlacements m n fromPs toPs).unchanged.Nodup := by
      intro fromPs toPs m n hto
      refine List.Nodup.of_map DiffEntry.entrySlug ?_
      rw [unchanged_slugs]
      exact hto.sublist (List.filter_sublist.map _)
    refine (List.perm_ext_iff_of_nodup (hnodup hfrom) (hnodup (m := m) (n := n) hto)).mpr
      fun e => ?_
    refine (mem_unchanged hto).trans (Iff.trans ?_ (mem_unchanged (m := m) (n := n) hfrom).symm)
    constructor
    · rintro ⟨q, hq, p, hp, hslug, hmoved, rfl⟩
      rw [hasMoved_comm] at hmoved
      exact ⟨p, hp, q, hq, hslug.symm, hmoved, (hsame p hp q hq hslug.symm hmoved).symm⟩
    · rintro ⟨p, hp, q, hq, hslug, hmoved, rfl⟩
      have hback : hasMoved q p = false := by rwa [hasMoved_comm]
      exact ⟨q, hq, p, hp, hslug.symm, hback, hsame p hp q hq hslug hmoved⟩

/-! ### Versions of a board -/

variable {faulty : Prop} {g : System faulty} {env : Supply} {boardId : Uuid}
  {x y : VersionWithPlacements}

/-- What `versions::diff` answers when both versions are there. -/
theorem respond_diff {s : Server} (hx : respond env s (getByNumber boardId m) = .ok x)
    (hy : respond env s (getByNumber boardId n) = .ok y) :
    respond env s (diff boardId m n) = .ok (diffPlacements m n x.placements y.placements) := by
  have hsecond : ∀ v : VersionWithPlacements, Reads (getByNumber boardId n >>= fun toVersion =>
      (.ret (diffPlacements m n v.placements toVersion.placements) : Action VersionDiff)) :=
    fun _ => (reads_getByNumber boardId n).bind fun _ => .ret _
  have hfirst : respond env s (diff boardId m n) = _ :=
    (reads_getByNumber boardId m).respond_bind hsecond hx
  rw [hfirst, (reads_getByNumber boardId n).respond_bind (fun _ => .ret _) hy]
  rfl

theorem distinctSlugs_of_getByNumber {s : Server} (hs : s.db.Schema)
    (hx : respond env s (getByNumber boardId m) = .ok x) : DistinctSlugs x.placements := by
  obtain ⟨-, -, hshows⟩ := getByNumber_shows hs hx
  exact ((hshows.rows.map _).nodup_iff).mpr (hs.entrySlugs_nodup hshows.version)

/-- Two versions of a board agree on the names of the entries. -/
theorem names_of_getByNumber {s : Server} (hs : s.db.Schema)
    (hx : respond env s (getByNumber boardId m) = .ok x)
    (hy : respond env s (getByNumber boardId n) = .ok y) {p q : PlacementWithEntry}
    (hp : p ∈ x.placements) (hq : q ∈ y.placements) (hslug : p.entrySlug = q.entrySlug) :
    p.entryName = q.entryName := by
  obtain ⟨hbx, -, hshows⟩ := getByNumber_shows hs hx
  obtain ⟨hby, -, hshows'⟩ := getByNumber_shows hs hy
  obtain ⟨p, -, e, he, -, hboard, rfl⟩ :=
    (hs.mem_placementRows hshows.version).mp (hshows.rows.mem_iff.mp hp)
  obtain ⟨q, -, e', he', -, hboard', rfl⟩ :=
    (hs.mem_placementRows hshows'.version).mp (hshows'.rows.mem_iff.mp hq)
  have hsame : e = e' := hs.entry_key_inj he he'
    (hboard.trans (hbx.trans (hby.symm.trans hboard'.symm))) hslug
  exact congrArg Entry.name hsame

/-- **The difference of two versions is exact.** In every reachable state, for every two versions of
a board: the four lists partition the entries of both, each version can be rebuilt from the other
and the difference, the difference of a version with itself has unchanged entries only, and with
the arguments swapped the difference is the one in the other direction. -/
theorem version_diff_exact (hg : System.Reachable {} g)
    (hx : respond env g.servers (getByNumber boardId m) = .ok x)
    (hy : respond env g.servers (getByNumber boardId n) = .ok y) :
    ∃ d, respond env g.servers (diff boardId m n) = .ok d ∧
      d.Exact x.placements y.placements ∧
      (m = n → d.added = [] ∧ d.removed = [] ∧ d.moved = [] ∧
        d.unchanged = x.placements.map diffEntry) ∧
      ∃ d', respond env g.servers (diff boardId n m) = .ok d' ∧ d'.SameLists d.swap := by
  have hs := hg.inv.schema
  have hfrom := distinctSlugs_of_getByNumber hs hx
  have hto := distinctSlugs_of_getByNumber hs hy
  refine ⟨_, respond_diff hx hy, exact_diff hfrom hto, ?_, _, respond_diff hy hx,
    sameLists_swap hfrom hto fun p hp q hq => names_of_getByNumber hs hx hy hp hq⟩
  rintro rfl
  obtain rfl : x = y := Except.ok.inj (hx.symm.trans hy)
  rw [diff_self hfrom]
  exact ⟨rfl, rfl, rfl, rfl⟩

set_option maxRecDepth 10000 in
/-- A run that imports a version with three entries and creates another one: an entry is removed,
one is added, one moves and one stays. -/
theorem version_diff_run : ∃ (g : System False) (x y : VersionWithPlacements) (d : VersionDiff),
    System.Reachable {} g ∧ respond counting g.servers (diff 2 1 2) = .ok d ∧
      d.slugs = ["i", "e", "f", "h"] ∧ d.Exact x.placements y.placements := by
  obtain ⟨g, hg, hrest⟩ := reachable_serveAll (P := {}) counting False
    [.importBoard inOrder (orderedDocument [("e", some 1), ("f", some 2), ("h", some 3)]),
      .createEntry "o" { slug := "i", name := "I" },
      .createVersion {} "o" { placements := [{ entrySlug := "f" }, { entrySlug := "i" },
        { entrySlug := "h" }] }] fun r _ => r.respects_default
  have hrun : ∃ x y d, respond counting g.servers (getByNumber 2 1) = .ok x ∧
      respond counting g.servers (getByNumber 2 2) = .ok y ∧
      respond counting g.servers (diff 2 1 2) = .ok d ∧ d.slugs = ["i", "e", "f", "h"] := by
    rw [hrest.servers]
    exact ⟨_, _, _, rfl, rfl, rfl, rfl⟩
  obtain ⟨x, y, d, hx, hy, hd, hslugs⟩ := hrun
  obtain ⟨d', hd', hexact, -⟩ := version_diff_exact hg hx hy
  obtain rfl : d' = d := Except.ok.inj (hd'.symm.trans hd)
  exact ⟨g, x, y, d', hg, hd, hslugs, hexact⟩

end Leaderboards
