import Leaderboards.Properties.RankOrder
import Leaderboards.Properties.TierConfigRead

/-!
# Tiered versions grouped by tier

The read of a tiered board sorts by the configured position of the tier, then by the position of
the placement with an absent one as `2147483647`, then by name. `validate_tier_config` rejects two
tiers with one key, but not two tiers with one position, so the placements of such tiers are not
kept apart; and a stated position `2147483647` is not told from an absent one. `Separated` says
that neither happens among the placements of a version, and it is exactly the condition under
which every answer to the query is grouped (`tier_groups_iff`). The query leaves the order of ties
open, so the statement is about every list it may answer.
-/

namespace Leaderboards

open Interaction Ranking Versions

variable {faulty : Prop} {env : Supply} {collation : Collation} {c : Option Json}

/-- The tier is in the configuration, with this position. -/
def Configured (tierConfig : Option Json) (key : String) (position : ℤ) : Prop :=
  ∃ tc tiers tier, tierConfig = some tc ∧ tc.get "tiers" = some (.arr tiers) ∧ tier ∈ tiers ∧
    TierEntry tier key position

/-- Within a tier: by stated position, those without one last, by name in the order of the
database. -/
def WithinTier (collation : Collation) (p q : PlacementWithEntry) : Prop :=
  match p.position, q.position with
  | some m, some n => m ≤ n
  | some _, none => True
  | none, some _ => False
  | none, none => collation.text p.entryName ≤ collation.text q.entryName

/-- The placements stand tier by tier. -/
structure GroupedByTier (collation : Collation) (tierConfig : Option Json)
    (ps : List PlacementWithEntry) : Prop where
  contiguous : ∀ p q r, [p, q, r].Sublist ps → p.tier = r.tier → q.tier = p.tier
  tiers : ps.Pairwise fun p q => ∀ key key' m n, p.tier = some key → q.tier = some key' →
    Configured tierConfig key m → Configured tierConfig key' n → m ≤ n
  within : ps.Pairwise fun p q => p.tier = q.tier → WithinTier collation p q

/-- Nothing of another tier with the same configured position sorts between two placements of a
tier, and a stated position sorts before an absent one of its tier. -/
structure Separated (collation : Collation) (tierConfig : Option Json)
    (ps : List PlacementWithEntry) : Prop where
  apart : ∀ p ∈ ps, ∀ q ∈ ps, ∀ r ∈ ps, p ≠ r → p.tier = r.tier → q.tier ≠ p.tier →
    tierPlace tierConfig p.tier = tierPlace tierConfig q.tier →
    ¬(positionKey collation p ≤ positionKey collation q ∧
      positionKey collation q ≤ positionKey collation r)
  stated : ∀ p ∈ ps, ∀ q ∈ ps, p.tier = q.tier → p.position ≠ none → q.position = none →
    positionKey collation p < positionKey collation q

/-! ### The configured positions -/

/-- **The lookup of a tier finds its configured position** when the configuration was accepted. -/
theorem tierOrd_of_configured (hc : validateTierConfig c = .ok ()) {key : String} {n : ℤ}
    (h : Configured c key n) : tierOrd c (some key) = .ok (some n) := by
  obtain ⟨tc, tiers, tier, rfl, htiers, hmem, hentry⟩ := h
  obtain ⟨tc', tiers', htc, htiers', hall, hpairs⟩ := validateTierConfig_ok hc
  obtain rfl := Option.some.inj htc
  obtain rfl : tiers = tiers' := Json.arr.inj (Option.some.inj (htiers.symm.trans htiers'))
  have harrow : arrow "tiers" (some tc) = some (.arr tiers) := htiers
  have hfind : tiers.find? (fun obj => (arrowText "key" obj).isSome ∧
      arrowText "key" obj = some key) = some tier := by
    obtain ⟨before, after, rfl⟩ := List.append_of_mem hmem
    have hother : ∀ t ∈ before, arrowText "key" t ≠ some key := by
      intro t ht hkey
      obtain ⟨key', n', hentry'⟩ := hall t (List.mem_append_left _ ht)
      have hne := (List.pairwise_append.mp hpairs).2.2 t ht tier List.mem_cons_self
      rw [hentry'.arrowText_key] at hkey
      exact hne (by rw [hentry'.1, hentry.1, Option.some.inj hkey])
    rw [List.find?_append, List.find?_eq_none.mpr, Option.none_or, List.find?_cons_of_pos]
    · simp [hentry.arrowText_key]
    · intro t ht
      simp [hother t ht]
  rw [tierOrd, harrow]
  simp only [jsonbArrayElements, hfind]
  exact hentry.tierPosition_eq

theorem tierPlace_of_configured (hc : validateTierConfig c = .ok ()) {key : String} {n : ℤ}
    (h : Configured c key n) : tierPlace c (some key) = n := by
  rw [tierPlace, tierOrd_of_configured hc h]
  rfl

/-! ### What the sorting guarantees -/

variable {l ps : List PlacementWithEntry}

theorem within_of_le {p q : PlacementWithEntry}
    (hle : positionKey collation p ≤ positionKey collation q)
    (hstated : q.position ≠ none → p.position = none →
      positionKey collation q < positionKey collation p) :
    WithinTier collation p q := by
  rw [WithinTier]
  split
  · rename_i m n hm hn
    simp only [positionKey, hm, hn, coalesceLast, Option.getD_some,
      Prod.Lex.toLex_le_toLex] at hle
    omega
  · trivial
  · rename_i n hm hn
    exact absurd hle (hstated (by rw [hn]; exact Option.some_ne_none n) hm).not_ge
  · rename_i hm hn
    simp only [positionKey, hm, hn, Prod.Lex.toLex_le_toLex, lt_irrefl, false_or,
      true_and] at hle
    exact hle

/-- Separated placements are grouped in every arrangement. -/
theorem Separated.grouped (h : Separated collation c l) (hc : validateTierConfig c = .ok ())
    (hnodup : l.Nodup) (hps : Arranges (rowKey collation c) l ps) :
    GroupedByTier collation c ps where
  contiguous p q r hsub htier := by
    by_contra hne
    have hsorted := hps.sorted.sublist hsub
    have hdistinct : [p, q, r].Nodup := (hps.perm.nodup_iff.mpr hnodup).sublist hsub
    have hmem : ∀ x ∈ [p, q, r], x ∈ l := fun x hx => hps.perm.mem_iff.mp (hsub.subset hx)
    simp only [List.pairwise_cons, List.mem_cons, List.not_mem_nil, or_false, forall_eq_or_imp,
      forall_eq, rowKey, Prod.Lex.toLex_le_toLex] at hsorted
    obtain ⟨⟨hpq, -⟩, hqr, -⟩ := hsorted
    rw [← htier] at hqr
    -- The tier in the middle has the configured position of the other one.
    have hplace : tierPlace c p.tier = tierPlace c q.tier := by omega
    refine h.apart p (hmem p (by simp)) q (hmem q (by simp)) r (hmem r (by simp))
      (by simp_all) htier hne hplace ⟨?_, ?_⟩
    · exact hpq.elim (fun hlt => absurd hplace hlt.ne) And.right
    · exact hqr.elim (fun hlt => absurd hplace hlt.ne') And.right
  tiers := by
    refine hps.sorted.imp fun {p q} hle key key' m n hkey hkey' hm hn => ?_
    rw [rowKey, rowKey, Prod.Lex.toLex_le_toLex, hkey, hkey', tierPlace_of_configured hc hm,
      tierPlace_of_configured hc hn] at hle
    omega
  within := by
    refine hps.sorted.imp_of_mem fun {p q} hp hq hle htier => ?_
    rw [hps.perm.mem_iff] at hp hq
    rw [rowKey, rowKey, Prod.Lex.toLex_le_toLex, htier] at hle
    refine within_of_le ?_ fun hstated hnone => h.stated q hq p hp htier.symm hstated hnone
    rcases hle with hlt | ⟨-, hle⟩
    · exact absurd hlt (lt_irrefl _)
    · exact hle

/-- Placements that are grouped in every arrangement are separated. -/
theorem separated_of_grouped (h : ∀ ps, Arranges (rowKey collation c) l ps →
    GroupedByTier collation c ps) :
    Separated collation c l where
  apart p hp q hq r hr hne htier hother hplace := by
    rintro ⟨hpq, hqr⟩
    -- Break the ties so that the other tier stands in the middle.
    have hqp : q ≠ p := fun heq => hother (congrArg PlacementWithEntry.tier heq)
    have hrq : r ≠ q :=
      fun heq => hother ((congrArg PlacementWithEntry.tier heq).symm.trans htier.symm)
    have hle : rowKey collation c p ≤ rowKey collation c q :=
      Prod.Lex.toLex_le_toLex.mpr (.inr ⟨hplace, hpq⟩)
    have hle' : rowKey collation c q ≤ rowKey collation c r :=
      Prod.Lex.toLex_le_toLex.mpr (.inr ⟨htier ▸ hplace.symm, hqr⟩)
    obtain ⟨ps, hps, hsub⟩ := exists_arranges_sublist (rowKey collation c)
      (fun x => if x = p then 0 else if x = q then 1 else 2) (l := l) (r := [p, q, r])
      (by simp [hp, hq, hr]) (by simp [hle, hle', hle.trans hle', hqp, hrq, hne.symm])
    exact hother ((h ps hps).contiguous p q r hsub htier)
  stated p hp q hq htier hstated hnone := by
    by_contra hlt
    rw [not_lt] at hlt
    have hqp : p ≠ q := by
      rintro rfl
      exact hstated hnone
    have hle : rowKey collation c q ≤ rowKey collation c p :=
      Prod.Lex.toLex_le_toLex.mpr (.inr ⟨by rw [htier], hlt⟩)
    obtain ⟨ps, hps, hsub⟩ := exists_arranges_sublist (rowKey collation c)
      (fun x => if x = q then 0 else 1) (l := l) (r := [q, p]) (by simp [hp, hq])
      (by simp [hle, hqp])
    have hwithin := List.pairwise_iff_forall_sublist.mp (h ps hps).within hsub htier.symm
    obtain ⟨n, hn⟩ := Option.ne_none_iff_exists'.mp hstated
    simp [WithinTier, hnone, hn] at hwithin

/-! ### Versions of a tiered board -/

/-- `get_by_number` of a version whose placements can be read. -/
theorem respond_getByNumber_eq {s : Server} (hs : s.db.Schema) {v : Version}
    (hv : v ∈ s.db.versions) {ps : List PlacementWithEntry}
    (hps : fetchPlacements s.db v.id = .ok ps) :
    respond env s (getByNumber v.boardId v.versionNumber) = .ok ⟨v, ps⟩ := by
  rw [respond_getByNumber, hs.find_versionNumber hv]
  simp only [hps]
  rfl

/-- **When a tiered version is read tier by tier.** For every version of a tiered board in a
reachable state whose configuration `validate_tier_config` accepts: `get_by_number` answers with an
arrangement of its placements by the sort key, and all arrangements are grouped by tier, with the
configured positions of the tiers in order and within a tier first the stated positions in order,
then the others by name in the collation of the database, if and only if the placements are
separated. -/
theorem tier_groups_iff {P : Policy} {g : System faulty} (hg : System.Reachable P g) {b : Board}
    (hb : b ∈ g.servers.db.boards) (hc : validateTierConfig b.tierConfig = .ok ()) {v : Version}
    (hv : v ∈ g.servers.db.versions) (hid : b.id = v.boardId) :
    (∃ x, respond env g.servers (getByNumber b.id v.versionNumber) = .ok x ∧
        Arranges (rowKey g.servers.db.collation b.tierConfig) (g.servers.db.placementRows v.id)
          x.placements) ∧
      ((∀ ps, Arranges (rowKey g.servers.db.collation b.tierConfig)
        (g.servers.db.placementRows v.id) ps →
          GroupedByTier g.servers.db.collation b.tierConfig ps) ↔
        Separated g.servers.db.collation b.tierConfig (g.servers.db.placementRows v.id)) := by
  have hs := hg.inv.schema
  refine ⟨?_, separated_of_grouped, fun h ps hps => h.grouped hc ?_ hps⟩
  · obtain ⟨rows, hrows⟩ := withTierOrd_succeeds (readable_of_validate hc)
      (g.servers.db.placementRows v.id)
    have hfetch := fetchPlacements_eq hs hv hb hid
    rw [hrows] at hfetch
    refine ⟨_, hid ▸ respond_getByNumber_eq hs hv hfetch, ?_⟩
    have hsorted := (fetchPlacements_ok hs hv hb hid hfetch).2
    dsimp only at hsorted ⊢
    rw [hsorted]
    exact arranges_orderBy _ _
  · exact (hs.entrySlugs_nodup hv).of_map _

/-- A tiered board with two tiers, and a version with two entries in the first and one in the
second. -/
def groupRequests (positionA positionB : ℤ) : List Request :=
  [.createBoard { slug := "t", name := "T", boardType := "tiered"
                  tierConfig := some (twoTiers "a" positionA "b" positionB) },
    .createEntry "t" { slug := "e", name := "E" },
    .createEntry "t" { slug := "f", name := "F" },
    .createEntry "t" { slug := "h", name := "H" },
    .createVersion {} "t" { placements := [{ entrySlug := "e", tier := some "a" },
      { entrySlug := "f", tier := some "b" }, { entrySlug := "h", tier := some "a" }] }]

set_option maxRecDepth 10000 in
/-- With two configured positions the tiers are kept apart. -/
theorem tier_groups_run : ∃ (g : System False) (b : Board) (x : VersionWithPlacements),
    System.Reachable {} g ∧ b ∈ g.servers.db.boards ∧ b.boardType = "tiered" ∧
      respond counting g.servers (getByNumber b.id 1) = .ok x ∧ x.placements.length = 3 ∧
      GroupedByTier g.servers.db.collation b.tierConfig x.placements := by
  obtain ⟨g, hg, hrest⟩ := reachable_serveAll (P := {}) counting False (groupRequests 1 2)
    fun r _ => r.respects_default
  have hrow : ∃ b ∈ g.servers.db.boards, ∃ v ∈ g.servers.db.versions, b.id = v.boardId ∧
      b.boardType = "tiered" ∧ v.versionNumber = 1 ∧ validateTierConfig b.tierConfig = .ok () ∧
      (g.servers.db.placementRows v.id).length = 3 ∧
      Separated g.servers.db.collation b.tierConfig (g.servers.db.placementRows v.id) := by
    rw [hrest.servers]
    refine ⟨_, List.mem_cons_self, _, List.mem_cons_self, rfl, rfl, rfl, rfl, rfl, ?_, ?_⟩
    · decide
    · decide
  obtain ⟨b, hb, v, hv, hid, htiered, hnumber, hc, hlength, hseparated⟩ := hrow
  have hread : (∃ x, respond counting g.servers (getByNumber b.id v.versionNumber) = .ok x ∧
      Arranges (rowKey g.servers.db.collation b.tierConfig) (g.servers.db.placementRows v.id)
        x.placements) ∧ _ :=
    tier_groups_iff hg hb hc hv hid
  obtain ⟨⟨x, hx, hps⟩, hiff⟩ := hread
  rw [hnumber] at hx
  exact ⟨g, b, x, hg, hb, htiered, hx, hps.perm.length_eq.trans hlength,
    hiff.mpr hseparated x.placements hps⟩

set_option maxRecDepth 10000 in
/-- With one position for both tiers the second one is read in the middle of the first. -/
theorem tier_groups_fail : ∃ (g : System False) (b : Board) (x : VersionWithPlacements),
    System.Reachable {} g ∧ b ∈ g.servers.db.boards ∧ b.boardType = "tiered" ∧
      validateTierConfig b.tierConfig = .ok () ∧
      respond counting g.servers (getByNumber b.id 1) = .ok x ∧
      x.placements.map PlacementWithEntry.tier = [some "a", some "b", some "a"] ∧
      ¬GroupedByTier g.servers.db.collation b.tierConfig x.placements := by
  obtain ⟨g, hg, hrest⟩ := reachable_serveAll (P := {}) counting False (groupRequests 1 1)
    fun r _ => r.respects_default
  have hrow : ∃ b ∈ g.servers.db.boards, ∃ p q r v, b.boardType = "tiered" ∧
      validateTierConfig b.tierConfig = .ok () ∧
      respond counting g.servers (getByNumber b.id 1) = .ok ⟨v, [p, q, r]⟩ ∧
      p.tier = some "a" ∧ q.tier = some "b" ∧ r.tier = some "a" := by
    rw [hrest.servers]
    exact ⟨_, List.mem_cons_self, _, _, _, _, rfl, rfl, rfl, rfl, rfl, rfl⟩
  obtain ⟨b, hb, p, q, r, v, htiered, hc, hx, hp, hq, hr⟩ := hrow
  refine ⟨g, b, _, hg, hb, htiered, hc, hx, by simp [hp, hq, hr], fun hgrouped => ?_⟩
  have hsame := hgrouped.contiguous p q r (.refl _) (hp.trans hr.symm)
  rw [hp, hq] at hsame
  exact absurd hsame (by decide)

end Leaderboards
