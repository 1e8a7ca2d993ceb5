import Leaderboards.Properties.OrderedPositions
import Leaderboards.Transactions.VersionReads

/-!
# Versions in rank order

The read sorts by the configured position of the tier before it sorts by the position, and it looks
up the tier of a placement on a board of any type. On ordered and scored boards neither
`tier_config` nor the tiers of the placements are validated. So a version of such a board is read
in the order of its positions exactly when the configured positions of the tiers follow them
(`rank_order_iff`).
-/

namespace Leaderboards

open Interaction Ranking Versions

variable {P : Policy} {faulty : Prop} {env : Supply} {collation : Collation}

/-- All positions are present, and they strictly increase. -/
def InRankOrder (ps : List PlacementWithEntry) : Prop :=
  ∃ ns : List ℤ, ps.map PlacementWithEntry.position = ns.map some ∧ ns.Pairwise (· < ·)

/-- All positions are present. -/
def Positioned (ps : List PlacementWithEntry) : Prop := ∀ p ∈ ps, p.position ≠ none

/-- The configured positions of the tiers never contradict the positions. -/
def TiersFollow (tierConfig : Option Json) (ps : List PlacementWithEntry) : Prop :=
  ∀ p ∈ ps, ∀ q ∈ ps, coalesceLast p.position < coalesceLast q.position →
    tierPlace tierConfig p.tier ≤ tierPlace tierConfig q.tier

theorem inRankOrder_iff {ps : List PlacementWithEntry} : InRankOrder ps ↔ Positioned ps ∧
    ps.Pairwise fun p q => ∀ m n, p.position = some m → q.position = some n → m < n := by
  constructor
  · rintro ⟨ns, hns, hlt⟩
    refine ⟨fun p hp hnone => ?_, ?_⟩
    · have hmem : p.position ∈ ns.map some := hns ▸ List.mem_map_of_mem hp
      rw [hnone] at hmem
      simp at hmem
    · have hpairs : (ps.map PlacementWithEntry.position).Pairwise
          fun x y => ∀ m n, x = some m → y = some n → m < n := by
        rw [hns, List.pairwise_map]
        refine hlt.imp fun hab m n hm hn => ?_
        cases hm
        cases hn
        exact hab
      exact List.pairwise_map.mp hpairs
  · rintro ⟨hpresent, hpairs⟩
    refine ⟨ps.map fun p => coalesceLast p.position, ?_, ?_⟩
    · rw [List.map_map]
      refine List.map_congr_left fun p hp => ?_
      obtain ⟨n, hn⟩ := Option.ne_none_iff_exists'.mp (hpresent p hp)
      rw [Function.comp_apply, hn]
      rfl
    · rw [List.pairwise_map]
      refine hpairs.imp_of_mem fun {p q} hp hq hlt => ?_
      obtain ⟨m, hm⟩ := Option.ne_none_iff_exists'.mp (hpresent p hp)
      obtain ⟨n, hn⟩ := Option.ne_none_iff_exists'.mp (hpresent q hq)
      rw [hm, hn]
      exact hlt m n hm hn

/-- Rows with different positions are read in their order exactly when the tiers follow it. -/
theorem inRankOrder_orderBy_iff {tierConfig : Option Json} {ps : List PlacementWithEntry}
    (hdistinct : Positioned ps → (ps.map PlacementWithEntry.position).Nodup) :
    InRankOrder (orderBy (rowKey collation tierConfig) ps) ↔
      Positioned ps ∧ TiersFollow tierConfig ps := by
  have hsorted := orderBy_pairwise (rowKey collation tierConfig) ps
  have hperm := orderBy_perm (rowKey collation tierConfig) ps
  have hpresent : Positioned (orderBy (rowKey collation tierConfig) ps) ↔ Positioned ps := by
    unfold Positioned
    simp only [mem_orderBy]
  rw [inRankOrder_iff, hpresent]
  refine and_congr_right fun hpos => ?_
  have hnodup :
      ((orderBy (rowKey collation tierConfig) ps).map PlacementWithEntry.position).Nodup :=
    (hperm.map _).nodup_iff.mpr (hdistinct hpos)
  rw [List.Nodup, List.pairwise_map] at hnodup
  constructor
  · intro hlt p hp q hq hmn
    obtain ⟨m, hm⟩ := Option.ne_none_iff_exists'.mp (hpos p hp)
    obtain ⟨n, hn⟩ := Option.ne_none_iff_exists'.mp (hpos q hq)
    rw [hm, hn] at hmn
    by_contra htiers
    -- Otherwise the tier puts the larger position first.
    have hkey : rowKey collation tierConfig q < rowKey collation tierConfig p :=
      Prod.Lex.toLex_lt_toLex.mpr (.inl (not_le.mp htiers))
    have hbefore : [q, p].Sublist (orderBy (rowKey collation tierConfig) ps) :=
      sublist_of_pairwise_lt _ hsorted (by simp [hp, hq]) (by simpa using hkey)
    have hnm := List.pairwise_iff_forall_sublist.mp hlt hbefore n m hn hm
    exact hnm.asymm hmn
  · intro hfollow
    refine (hsorted.and hnodup).imp_of_mem fun {p q} hp hq hboth m n hm hn => ?_
    obtain ⟨hle, hne⟩ := hboth
    rw [mem_orderBy] at hp hq
    by_contra hmn
    have hneq : m ≠ n := fun heq => hne (by rw [hm, hn, heq])
    have htiers := hfollow q hq p hp (by
      rw [hm, hn]
      exact lt_of_le_of_ne (not_lt.mp hmn) hneq.symm)
    rcases Prod.Lex.toLex_le_toLex.mp hle with htier | ⟨-, hposition⟩
    · exact absurd htier htiers.not_gt
    · simp only [positionKey, hm, hn, coalesceLast, Option.getD_some,
        Prod.Lex.toLex_le_toLex] at hposition
      rcases hposition with hlt | ⟨heq, -⟩
      · exact hmn hlt
      · exact hneq heq

/-! ### Versions of a board -/

/-- The positions of a version of an ordered or scored board are different when they are present,
and they are unless an import left them out. -/
theorem positions_nodup {g : System faulty} (hg : System.Reachable P g) {v : Version}
    (hv : v ∈ g.servers.db.versions) {b : Board} (hb : b ∈ g.servers.db.boards)
    (hid : b.id = v.boardId) (htype : b.boardType = "ordered" ∨ b.boardType = "scored") :
    (Positioned (g.servers.db.placementRows v.id) →
        ((g.servers.db.placementRows v.id).map PlacementWithEntry.position).Nodup) ∧
      (P.explicitOrder ∨ b.boardType = "scored" →
        Positioned (g.servers.db.placementRows v.id)) := by
  have hs := hg.inv.schema
  have hpositions := hs.placementRows_map hv (f := PlacementWithEntry.position)
    (g := Placement.position) fun _ _ => rfl
  have hpositioned : Positioned (g.servers.db.placementRows v.id) ↔
      ∀ p ∈ g.servers.db.placementsOf v.id, p.position ≠ none := by
    have hmaps : (∀ x ∈ (g.servers.db.placementRows v.id).map PlacementWithEntry.position,
        x ≠ none) ↔ ∀ x ∈ (g.servers.db.placementsOf v.id).map Placement.position, x ≠ none := by
      rw [hpositions]
    simp only [List.forall_mem_map] at hmaps
    exact hmaps
  -- The version was complete when it was made, and its placements have not changed since.
  obtain ⟨g₀, g₁, r, -, ⟨-, -, hsame, -⟩, hcomplete⟩ := created_complete hg hv hb hid
  rw [hpositioned, hpositions]
  rcases htype with hordered | hscored
  · have hr : r.boardType = "ordered" := hsame.trans hordered
    have hvalid := hcomplete.valid
    rw [hr] at hvalid
    refine ⟨fun hpresent => ?_, ?_⟩
    · have hvalues := hvalid.ordered_iff.mpr (by
        simp only [List.forall_mem_map]
        exact hpresent)
      have hdistinct := hvalues.distinct
      rwa [List.map_map] at hdistinct
    · rintro (hexplicit | hscored)
      · exact hcomplete.explicit hexplicit hr
      · exact absurd (hordered.symm.trans hscored) (by decide)
  · have hranked := hcomplete.scored (hsame.trans hscored)
    have hperm := hranked.positions (hs.entryIds_nodup v.id)
    refine ⟨fun _ => hperm.nodup_iff.mpr ?_, fun _ p hp => ?_⟩
    · refine List.Nodup.map (fun m n h => ?_) List.nodup_range'
      have hint := Option.some.inj h
      omega
    · rw [hranked.position p hp]
      exact Option.some_ne_none _

/-- **When a version is read in rank order.** For every version of an ordered or scored board in a
reachable state that `get_by_number` answers: its placements stand in strictly increasing position
order if and only if all positions are present and the configured positions of the tiers follow
them. Positions are always present on a scored board, and on an ordered one unless an import left
them out. -/
theorem rank_order_iff {g : System faulty} (hg : System.Reachable P g) {b : Board}
    (hb : b ∈ g.servers.db.boards) (htype : b.boardType = "ordered" ∨ b.boardType = "scored")
    {v : Version} (hv : v ∈ g.servers.db.versions) (hid : b.id = v.boardId)
    {x : VersionWithPlacements}
    (hx : respond env g.servers (getByNumber b.id v.versionNumber) = .ok x) :
    (InRankOrder x.placements ↔ Positioned (g.servers.db.placementRows v.id) ∧
        TiersFollow b.tierConfig (g.servers.db.placementRows v.id)) ∧
      (P.explicitOrder ∨ b.boardType = "scored" →
        Positioned (g.servers.db.placementRows v.id)) := by
  have hs := hg.inv.schema
  obtain ⟨hmem, hnumber, hfetch⟩ := getByNumber_ok hx
  obtain ⟨hxv, hboard⟩ := Database.mem_versionsOf.mp hmem
  have hsame : x.version = v :=
    List.inj_on_of_nodup_map hs.version_key hxv hv (by simp [hboard, hid, hnumber])
  rw [hsame] at hfetch
  obtain ⟨hdistinct, hpresent⟩ := positions_nodup hg hv hb hid htype
  refine ⟨?_, hpresent⟩
  rw [(fetchPlacements_ok hs hv hb hid hfetch).2]
  exact inRankOrder_orderBy_iff hdistinct

/-- Two configured tiers. -/
def twoTiers (keyA : String) (positionA : ℤ) (keyB : String) (positionB : ℤ) : Json :=
  .obj [("tiers", .arr [.obj [("key", .str keyA), ("position", .int positionA)],
    .obj [("key", .str keyB), ("position", .int positionB)]])]

/-- An ordered board with two configured tiers, and a version whose placements name them. -/
def rankRequests (positionA positionB : ℤ) : List Request :=
  [.createBoard { slug := "o", name := "O", boardType := "ordered"
                  tierConfig := some (twoTiers "a" positionA "b" positionB) },
    .createEntry "o" { slug := "e", name := "E" },
    .createEntry "o" { slug := "f", name := "F" },
    .createVersion {} "o" { placements := [{ entrySlug := "e", tier := some "a" },
      { entrySlug := "f", tier := some "b" }] }]

set_option maxRecDepth 10000 in
/-- A run in which the configured positions follow those of the version. -/
theorem rank_order_run : ∃ (g : System False) (b : Board) (x : VersionWithPlacements),
    System.Reachable { explicitOrder := True } g ∧ b ∈ g.servers.db.boards ∧
      b.boardType = "ordered" ∧ respond counting g.servers (getByNumber b.id 1) = .ok x ∧
      x.placements.length = 2 ∧ InRankOrder x.placements := by
  obtain ⟨g, hg, hrest⟩ := reachable_serveAll (P := { explicitOrder := True }) counting False
    (rankRequests 1 2) (by
      simp only [rankRequests, List.forall_mem_cons]
      refine ⟨fun _ => trivial, trivial, trivial, ?_, by simp⟩
      rintro max ⟨⟩)
  have hrow : ∃ b ∈ g.servers.db.boards, ∃ v ∈ g.servers.db.versions, ∃ x, b.id = v.boardId ∧
      b.boardType = "ordered" ∧ v.versionNumber = 1 ∧
      respond counting g.servers (getByNumber b.id 1) = .ok x ∧ x.placements.length = 2 ∧
      TiersFollow b.tierConfig (g.servers.db.placementRows v.id) := by
    rw [hrest.servers]
    refine ⟨_, List.mem_cons_self, _, List.mem_cons_self, _, rfl, rfl, rfl, rfl, rfl, ?_⟩
    unfold TiersFollow
    decide
  obtain ⟨b, hb, v, hv, x, hid, hordered, hnumber, hx, hlength, hfollow⟩ := hrow
  obtain ⟨hiff, hpresent⟩ := rank_order_iff hg hb (.inl hordered) hv hid (hnumber ▸ hx)
  exact ⟨g, b, x, hg, hb, hordered, hx, hlength, hiff.mpr ⟨hpresent (.inl trivial), hfollow⟩⟩

set_option maxRecDepth 10000 in
/-- With the configured positions the other way round the second placement is read first. -/
theorem rank_order_fail : ∃ (g : System False) (b : Board) (x : VersionWithPlacements),
    System.Reachable { explicitOrder := True } g ∧ b ∈ g.servers.db.boards ∧
      b.boardType = "ordered" ∧ respond counting g.servers (getByNumber b.id 1) = .ok x ∧
      x.placements.map PlacementWithEntry.position = [some 2, some 1] ∧
      ¬InRankOrder x.placements := by
  obtain ⟨g, hg, hrest⟩ := reachable_serveAll (P := { explicitOrder := True }) counting False
    (rankRequests 2 1) (by
      simp only [rankRequests, List.forall_mem_cons]
      refine ⟨fun _ => trivial, trivial, trivial, ?_, by simp⟩
      rintro max ⟨⟩)
  have hrow : ∃ b ∈ g.servers.db.boards, ∃ x, b.boardType = "ordered" ∧
      respond counting g.servers (getByNumber b.id 1) = .ok x ∧
      x.placements.map PlacementWithEntry.position = [some 2, some 1] := by
    rw [hrest.servers]
    exact ⟨_, List.mem_cons_self, _, rfl, rfl, rfl⟩
  obtain ⟨b, hb, x, hordered, hx, hpositions⟩ := hrow
  refine ⟨g, b, x, hg, hb, hordered, hx, hpositions, ?_⟩
  rintro ⟨ns, hns, hlt⟩
  obtain rfl : ns = [2, 1] := by
    have hinj := List.map_injective_iff.mpr (Option.some_injective ℤ)
    exact hinj (hns.symm.trans hpositions)
  simp at hlt

end Leaderboards
