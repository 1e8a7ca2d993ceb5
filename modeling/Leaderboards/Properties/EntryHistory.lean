import Leaderboards.Properties.MonotonicReads

/-!
# The history of an entry is an append-only log

`entries::history` joins the placements of an entry with their versions, and sorts them by version
number. As long as the entry exists, its rows stay and new ones come after all of them: one step of
the handlers extends the log (`history_grows_step`), and so does a run. So the answers of a client
that polls extend each other, and each of them says what the versions say
(**`entry_history_append_only`**).
-/

namespace Leaderboards

open Interaction Ranking

variable {P : Policy} {faulty : Prop} {g₀ g₁ g₂ g g' : System faulty} {db : Database} {e : Entry}

/-! ### The rows of the log -/

/-- A row of the log is a placement of the entry with its version. -/
theorem mem_historyOf (hdb : db.Schema) {entryId : Uuid} {item : EntryHistoryItem} :
    item ∈ db.historyOf entryId ↔ ∃ v ∈ db.versions, ∃ p ∈ db.placementsOf v.id,
      p.entryId = entryId ∧ item = p.historyItem v := by
  simp only [Database.historyOf, mem_orderBy, List.mem_filterMap, Database.mem_placementsOfEntry,
    Option.map_eq_some_iff]
  constructor
  · rintro ⟨p, ⟨hp, hentry⟩, v, hv, rfl⟩
    obtain ⟨hv, hid⟩ := Database.mem_of_version? hv
    exact ⟨v, hv, p, Database.mem_placementsOf.mpr ⟨hp, hid.symm⟩, hentry, rfl⟩
  · rintro ⟨v, hv, p, hp, hentry, rfl⟩
    obtain ⟨hp, hid⟩ := Database.mem_placementsOf.mp hp
    exact ⟨p, ⟨hp, hentry⟩, v, hid ▸ hdb.version?_eq hv, rfl⟩

/-- The version of a placement is one of the board of its entry. -/
theorem board_of_placed (hdb : db.Schema) (he : e ∈ db.entries) {v : Version}
    (hv : v ∈ db.versions) {p : Placement} (hp : p ∈ db.placementsOf v.id)
    (hentry : p.entryId = e.id) : v.boardId = e.boardId := by
  obtain ⟨e', he', hid, hboard, -⟩ := hdb.entry_of_placement hv hp
  rw [← hboard, hdb.entry_inj he' he (hid.trans hentry)]

/-- The rows of the log have different version numbers. -/
theorem historyOf_pairwise (hdb : db.Schema) (he : e ∈ db.entries) :
    (db.historyOf e.id).Pairwise fun i j => i.versionNumber < j.versionNumber := by
  refine orderBy_pairwise_lt _ ?_
  rw [List.map_filterMap, List.Nodup, List.pairwise_filterMap]
  have hnodup : (db.placementsOfEntry e.id).Nodup := (hdb.placement_id.of_map _).filter _
  refine hnodup.imp_of_mem fun {p q} hp hq hne n hn m hm heq => hne ?_
  obtain ⟨hp, hpe⟩ := Database.mem_placementsOfEntry.mp hp
  obtain ⟨hq, hqe⟩ := Database.mem_placementsOfEntry.mp hq
  simp only [Option.map_map, Option.map_eq_some_iff, Function.comp_apply] at hn hm
  obtain ⟨v, hv, rfl⟩ := hn
  obtain ⟨w, hw, rfl⟩ := hm
  obtain ⟨hv, hvid⟩ := Database.mem_of_version? hv
  obtain ⟨hw, hwid⟩ := Database.mem_of_version? hw
  have hvb := board_of_placed hdb he hv (Database.mem_placementsOf.mpr ⟨hp, hvid.symm⟩) hpe
  have hwb := board_of_placed hdb he hw (Database.mem_placementsOf.mpr ⟨hq, hwid.symm⟩) hqe
  have hnumber : v.versionNumber = w.versionNumber := heq
  obtain rfl : v = w := List.inj_on_of_nodup_map hdb.version_key hv hw
    (by rw [hvb, hwb, hnumber])
  exact hdb.placement_key_inj hp hq (hvid.symm.trans hwid) (hpe.trans hqe.symm)

/-! ### The log grows -/

/-- **One step of any handler** extends the log of an entry that stays. -/
theorem history_grows_step (hg : System.Reachable P g) (hstep : System.Step P g g')
    (he : e ∈ g.servers.db.entries) (hentry : ∃ r ∈ g'.servers.db.entries, r.id = e.id) :
    g.servers.db.historyOf e.id <+: g'.servers.db.historyOf e.id := by
  have hg' : System.Reachable P g' := hg.tail hstep
  have hdb := hg.inv.schema
  have hdb' := hg'.inv.schema
  obtain ⟨r, hr, hkey⟩ := hg.entry_between he (.single hstep) .refl hentry
  have hboard : ∃ b ∈ g'.servers.db.boards, b.id = e.boardId := hkey.2.1 ▸ hdb'.entry_board r hr
  have hsame : ∀ v ∈ g.servers.db.versions, v.boardId = e.boardId →
      SameVersion v g.servers.db g'.servers.db := fun v hv hid =>
    hg.step_keeps_version hstep hv (hid ▸ hboard)
  refine prefix_of_pairwise_lt _ (historyOf_pairwise hdb he) ?_ (fun item hitem => ?_)
    fun item hitem hnew old hold => ?_
  · rw [hkey.1]
    exact historyOf_pairwise hdb' hr
  · obtain ⟨v, hv, p, hp, hpe, rfl⟩ := (mem_historyOf hdb).mp hitem
    have hkeeps := hsame v hv (board_of_placed hdb he hv hp hpe)
    exact (mem_historyOf hdb').mpr ⟨v, hkeeps.row, p, hkeeps.placements ▸ hp, hpe, rfl⟩
  · obtain ⟨v, hv, p, hp, hpe, rfl⟩ := (mem_historyOf hdb).mp hold
    obtain ⟨w, hw, q, hq, hqe, rfl⟩ := (mem_historyOf hdb').mp hitem
    have hvb := board_of_placed hdb he hv hp hpe
    have hwb : w.boardId = e.boardId :=
      (board_of_placed hdb' hr hw hq (hqe.trans hkey.1)).trans hkey.2.1.symm
    refine hg.later_number (.single hstep) hv hw (hwb.trans hvb.symm) fun hmem => hnew ?_
    -- An old version has no new placements.
    have hkeeps := hsame w hmem hwb
    exact (mem_historyOf hdb).mpr ⟨w, hmem, q, hkeeps.placements ▸ hq, hqe, rfl⟩

/-- **A run** extends the log of an entry that stays. -/
theorem history_grows (hg : System.Reachable P g) (hrun : System.Steps P g g')
    (he : e ∈ g.servers.db.entries) (hentry : ∃ r ∈ g'.servers.db.entries, r.id = e.id) :
    g.servers.db.historyOf e.id <+: g'.servers.db.historyOf e.id := by
  induction hrun with
  | refl => exact List.prefix_rfl
  | @tail g₁ g₂ hrun hstep ih =>
    have hg₁ : System.Reachable P g₁ := hg.trans hrun
    obtain ⟨r, hr, hkey⟩ := hg.entry_between he hrun (.single hstep) hentry
    have hbefore := ih ⟨r, hr, hkey.1.symm⟩
    rw [hkey.1] at hbefore hentry ⊢
    exact hbefore.trans (history_grows_step hg₁ hstep hr hentry)

/-! ### The answers of a client that polls -/

/-- A row of the log, as the contents of a version. -/
def EntryHistoryItem.content (item : EntryHistoryItem) (slug : String) : PlacementContent where
  entrySlug := slug
  position := item.position
  score := item.score
  tier := item.tier
  metadata := item.metadata

/-- A row of the log says what the version says: it is the only placement of the entry there. -/
structure EntryHistoryItem.Records (item : EntryHistoryItem) (e : Entry) (db : Database)
    (v : Version) : Prop where
  version : v ∈ db.versions
  board : v.boardId = e.boardId
  number : item.versionNumber = v.versionNumber
  created : item.createdAt = v.createdAt
  only : (db.contents v.id).filter (fun c => c.entrySlug = e.slug) = [item.content e.slug]

/-- The contents of a version under the slug of an entry. -/
theorem filter_contents (hdb : db.Schema) (he : e ∈ db.entries) {v : Version}
    (hv : v ∈ db.versions) {p : Placement} (hp : p ∈ db.placementsOf v.id)
    (hentry : p.entryId = e.id) : (db.contents v.id).filter (fun c => c.entrySlug = e.slug) =
      [(p.historyItem v).content e.slug] := by
  have hboard := board_of_placed hdb he hv hp hentry
  have hrow : p.joined e ∈ db.placementRows v.id :=
    (hdb.mem_placementRows hv).mpr ⟨p, hp, e, he, hentry.symm, hboard.symm, rfl⟩
  have hslugs : ((db.contents v.id).map PlacementContent.entrySlug).Nodup := by
    rw [Database.contents, List.map_map]
    exact hdb.entrySlugs_nodup hv
  rw [← List.perm_singleton]
  refine (List.perm_ext_iff_of_nodup (hslugs.of_map _ |>.filter _) (List.nodup_singleton _)).mpr
    fun c => ?_
  rw [List.mem_filter, decide_eq_true_eq, List.mem_singleton]
  constructor
  · rintro ⟨hc, hslug⟩
    exact List.inj_on_of_nodup_map hslugs hc (List.mem_map_of_mem hrow) hslug
  · rintro rfl
    exact ⟨List.mem_map_of_mem hrow, rfl⟩

theorem EntryHistoryItem.Records.of_sameKey {r : Entry} (hkey : e.SameKey r)
    {item : EntryHistoryItem} {v : Version} (h : item.Records r db v) : item.Records e db v where
  version := h.version
  board := h.board.trans hkey.2.1.symm
  number := h.number
  created := h.created
  only := hkey.2.2 ▸ h.only

theorem records_of_mem (hdb : db.Schema) (he : e ∈ db.entries) {item : EntryHistoryItem}
    (hitem : item ∈ db.historyOf e.id) : ∃ v, item.Records e db v := by
  obtain ⟨v, hv, p, hp, hpe, rfl⟩ := (mem_historyOf hdb).mp hitem
  exact ⟨v, hv, board_of_placed hdb he hv hp hpe, rfl, rfl, filter_contents hdb he hv hp hpe⟩

/-- A version that shows the entry has a row in the log. -/
theorem exists_mem_historyOf (hdb : db.Schema) (he : e ∈ db.entries) {v : Version}
    (hv : v ∈ db.versions) (hboard : v.boardId = e.boardId)
    (hshows : ∃ c ∈ db.contents v.id, c.entrySlug = e.slug) :
    ∃ item ∈ db.historyOf e.id, item.versionNumber = v.versionNumber := by
  obtain ⟨c, hc, hslug⟩ := hshows
  obtain ⟨row, hrow, rfl⟩ := List.mem_map.mp hc
  obtain ⟨p, hp, e', he', hid, hboard', rfl⟩ := (hdb.mem_placementRows hv).mp hrow
  obtain rfl := hdb.entry_key_inj he' he (hboard'.trans hboard) hslug
  exact ⟨_, (mem_historyOf hdb).mpr ⟨v, hv, p, hp, hid.symm, rfl⟩, rfl⟩

variable {b : Board} {params params' : LimitParam}

/-- **What a poll answers**: the first rows of the log in some state on the way. -/
theorem observes_history (hg : System.Reachable P g) (hb : b ∈ g.servers.db.boards)
    (he : e ∈ g.servers.db.entries) (hboard : e.boardId = b.id)
    (hentry : ∃ r ∈ g'.servers.db.entries, r.id = e.id) {x : Except Error (List EntryHistoryItem)}
    (h : System.Observes P (Routes.entryHistory b.slug e.slug params) g x g') :
    (∃ err, x = .error (.database err)) ∨ ∃ g₁, System.Steps P g g₁ ∧ System.Steps P g₁ g' ∧
      x = .ok ((g₁.servers.db.historyOf e.id).take params.effectiveLimit.toNat) := by
  have hentry' := hg.entry_between he h.run .refl hentry
  obtain ⟨r', hr', hkey'⟩ := hentry'
  have hg' : System.Reachable P g' := hg.trans h.run
  have hrow : ∃ row ∈ g'.servers.db.boards, row.id = b.id := by
    rw [← hboard, hkey'.2.1]
    exact hg'.inv.schema.entry_board r' hr'
  rcases h.getBySlug hg hb hrow with herror | ⟨g₁, row, hrun, -, hkey, h⟩
  · exact .inl herror
  · have hg₁ : System.Reachable P g₁ := hg.trans hrun
    obtain ⟨r, hr, hrkey⟩ := hg.entry_between he hrun h.run hentry
    rw [Entries.history, ← hkey.1, ← hboard, hrkey.2.1, hrkey.2.2] at h
    rcases h.getEntry hg₁ hr (hrkey.1 ▸ hentry) with herror | ⟨g₂, r₂, hrun₂, -, hkey₂, h⟩
    · exact .inl herror
    · rw [← bind_pure (Lookup.fetch _)] at h
      rcases h.fetch with herror | ⟨g₃, hrun₃, h⟩
      · exact .inl herror
      · obtain ⟨rfl, hlast⟩ := Prog.executes_ret.mp h
        refine .inr ⟨g₃, hrun.trans (hrun₂.trans hrun₃), hlast, ?_⟩
        rw [hrkey.1, hkey₂.1]
        rfl

/-- **The history of an entry is an append-only log.** A client polls the history of an entry and
later polls it again, with any limits, while handlers run, and the entry is still there at the end.
The second answer is not an error, other than one of the database. It starts with the rows of the
first that its limit admits, its version numbers increase, each of its rows says what its version
says at the end, and it has a row for each version that showed the entry before the poll, or a full
page of earlier ones. -/
theorem entry_history_append_only (hg : System.Reachable P g₀) (hb : b ∈ g₀.servers.db.boards)
    (he : e ∈ g₀.servers.db.entries) (hboard : e.boardId = b.id) {items : List EntryHistoryItem}
    {x : Except Error (List EntryHistoryItem)}
    (hfirst : System.Observes P (Routes.entryHistory b.slug e.slug params) g₀ (.ok items) g₁)
    (hrun : System.Steps P g₁ g₂)
    (hsecond : System.Observes P (Routes.entryHistory b.slug e.slug params') g₂ x g)
    (hentry : ∃ r ∈ g.servers.db.entries, r.id = e.id) :
    (∃ err, x = .error (.database err)) ∨ ∃ items', x = .ok items' ∧
      items.take params'.effectiveLimit.toNat <+: items' ∧
      (items'.Pairwise fun i j => i.versionNumber < j.versionNumber) ∧
      (∀ item ∈ items', ∃ v, item.Records e g.servers.db v) ∧
      ∀ v ∈ g₂.servers.db.versions, v.boardId = b.id →
        (∃ c ∈ g₂.servers.db.contents v.id, c.entrySlug = e.slug) →
        (∃ item ∈ items', item.versionNumber = v.versionNumber) ∨
          (items'.length = params'.effectiveLimit.toNat ∧
            ∀ item ∈ items', item.versionNumber < v.versionNumber) := by
  have hg₁ : System.Reachable P g₁ := hg.trans hfirst.run
  have hg₂ : System.Reachable P g₂ := hg₁.trans hrun
  have hlater : System.Steps P g₁ g := hrun.trans hsecond.run
  obtain ⟨e₁, he₁, hkey₁⟩ := hg.entry_between he hfirst.run hlater hentry
  obtain ⟨e₂, he₂, hkey₂⟩ := hg.entry_between he (hfirst.run.trans hrun) hsecond.run hentry
  obtain ⟨b₂, hb₂, hbkey₂⟩ : ∃ r ∈ g₂.servers.db.boards, b.SameKey r := by
    refine hg.board_between hb (hfirst.run.trans hrun) .refl ?_
    rw [← hboard, hkey₂.2.1]
    exact hg₂.inv.schema.entry_board e₂ he₂
  rcases observes_history hg hb he hboard ⟨e₁, he₁, hkey₁.1.symm⟩ hfirst with
    ⟨err, herror⟩ | ⟨gr, hbefore, hafter, hitems⟩
  · cases herror
  obtain rfl := Except.ok.inj hitems
  rw [hbkey₂.2.1, hkey₂.2.2] at hsecond
  rcases observes_history hg₂ hb₂ he₂ (by rw [← hkey₂.2.1, hboard, hbkey₂.1])
    (hkey₂.1 ▸ hentry) hsecond with herror | ⟨gr', hbefore', hafter', rfl⟩
  · exact .inl herror
  have hgr : System.Reachable P gr := hg.trans hbefore
  have hgr' : System.Reachable P gr' := hg₂.trans hbefore'
  have hbetween : ∀ {g' : System faulty}, System.Steps P g₀ g' → System.Steps P g' g →
      ∃ r ∈ g'.servers.db.entries, e.SameKey r := fun h h' => hg.entry_between he h h' hentry
  have hrun' : System.Steps P gr gr' := hafter.trans (hrun.trans hbefore')
  obtain ⟨r, hr, hkey⟩ := hbetween hbefore (hrun'.trans hafter')
  obtain ⟨r', hr', hkey'⟩ := hbetween (hbefore.trans hrun') hafter'
  -- Both polls read the history at one moment, and a history only grows at its end.
  have hgrows : gr.servers.db.historyOf e.id <+: gr'.servers.db.historyOf e.id := by
    rw [hkey.1]
    exact history_grows hgr hrun' hr ⟨r', hr', hkey'.1.symm.trans hkey.1⟩
  have hends : gr'.servers.db.historyOf e.id <+: g.servers.db.historyOf e.id := by
    rw [hkey'.1]
    exact history_grows hgr' hafter' hr' (hkey'.1 ▸ hentry)
  rw [← hkey₂.1]
  -- The page is a prefix of the history: the rows of the first poll stand at its start.
  refine .inr ⟨_, rfl, ?_, ?_, fun item hitem => ?_, fun v hv hvb hshows => ?_⟩
  · exact ((List.take_prefix _ _).trans hgrows).take _
  · rw [hkey'.1]
    exact (historyOf_pairwise hgr'.inv.schema hr').take
  · obtain ⟨last, hlast, hlkey⟩ := hbetween (hbefore.trans (hrun'.trans hafter')) .refl
    have hmem := hends.subset (List.mem_of_mem_take hitem)
    rw [hlkey.1] at hmem
    have hend : System.Reachable P g := hgr'.trans hafter'
    obtain ⟨v, hv⟩ := records_of_mem hend.inv.schema hlast hmem
    exact ⟨v, hv.of_sameKey hlkey⟩
  · rw [hkey₂.2.2] at hshows
    have hve : v.boardId = e₂.boardId := by rw [hvb, ← hboard, hkey₂.2.1]
    obtain ⟨item, hitem, hnumber⟩ := exists_mem_historyOf hg₂.inv.schema he₂ hv hve hshows
    have hpolled : item ∈ gr'.servers.db.historyOf e.id := by
      have hgrows' := history_grows hg₂ hbefore' he₂ ⟨r', hr', hkey'.1.symm.trans hkey₂.1⟩
      rw [hkey₂.1]
      exact hgrows'.subset hitem
    have hsorted := historyOf_pairwise hgr'.inv.schema hr'
    rw [← hkey'.1] at hsorted
    rcases mem_take_or_full _ hsorted hpolled params'.effectiveLimit.toNat with hmem | hfull
    · exact .inl ⟨item, hmem, hnumber⟩
    · exact .inr (hnumber ▸ hfull)

/-- A poll in a single state. -/
theorem observes_history_now {slug : String} (hrow : g.servers.db.boardBySlug? slug = some b)
    {entrySlug : String} (hfind : g.servers.db.entryBySlug? b.id entrySlug = some e) :
    System.Observes P (Routes.entryHistory slug entrySlug params) g
      (.ok ((g.servers.db.historyOf e.id).take params.effectiveLimit.toNat)) g := by
  rw [Routes.entryHistory]
  refine System.observes_getBySlug hrow ?_
  rw [Entries.history, Entries.getBySlug, Prog.bind_assoc]
  refine System.observes_fetch ?_
  have hanswer : (Lookup.entryBySlug b.id entrySlug).answer g.servers.db = some e := hfind
  rw [hanswer]
  change System.Observes P (Lookup.fetch _) g _ g
  rw [← bind_pure (Lookup.fetch _)]
  exact System.observes_fetch (.ret .refl)

set_option maxRecDepth 10000 in
/-- A client polls the history of an entry before and after its second version. -/
theorem entry_history_append_only_run : ∃ (g₀ g₂ : System False) (e : Entry)
    (items items' : List EntryHistoryItem),
    System.Observes {} (Routes.entryHistory "b" "e" {}) g₀ (.ok items) g₀ ∧
      System.Steps {} g₀ g₂ ∧ System.Observes {} (Routes.entryHistory "b" "e" {})
        g₂ (.ok items') g₂ ∧
      items.map EntryHistoryItem.versionNumber = [1] ∧
      items'.map EntryHistoryItem.versionNumber = [1, 2] ∧ items.take 50 <+: items' ∧
      ∀ item ∈ items', ∃ v, item.Records e g₂.servers.db v := by
  obtain ⟨g₀, hg₀, hrest₀⟩ := reachable_serveAll (P := {}) counting False scoredRequests
    fun r _ => r.respects_default
  obtain ⟨g₂, hrun, hrest₂⟩ := hrest₀.serveAll laterRequests (fun r _ => r.respects_default) hg₀
  obtain ⟨b, e, hb, he, hboard, hslug, heslug, heid, hrow, hfind⟩ : ∃ b e,
      b ∈ g₀.servers.db.boards ∧ e ∈ g₀.servers.db.entries ∧ e.boardId = b.id ∧ b.slug = "b" ∧
      e.slug = "e" ∧ e.id = 3 ∧ g₀.servers.db.boardBySlug? "b" = some b ∧
      g₀.servers.db.entryBySlug? b.id "e" = some e := by
    rw [hrest₀.servers]
    exact ⟨_, _, List.mem_cons_self, List.mem_cons_self, rfl, rfl, rfl, rfl, rfl, rfl⟩
  obtain ⟨b', e', he', heid', hrow', hfind'⟩ : ∃ b e, e ∈ g₂.servers.db.entries ∧ e.id = 3 ∧
      g₂.servers.db.boardBySlug? "b" = some b ∧
      g₂.servers.db.entryBySlug? b.id "e" = some e := by
    rw [hrest₂.servers]
    exact ⟨_, _, List.mem_cons_self, rfl, rfl, rfl⟩
  have hfirst : System.Observes {} (Routes.entryHistory "b" "e" {}) g₀ _ g₀ :=
    observes_history_now hrow hfind
  have hsecond : System.Observes {} (Routes.entryHistory "b" "e" {}) g₂ _ g₂ :=
    observes_history_now hrow' hfind'
  have hnumbers : (g₀.servers.db.historyOf e.id).map EntryHistoryItem.versionNumber = [1] ∧
      (g₂.servers.db.historyOf e'.id).map EntryHistoryItem.versionNumber = [1, 2] := by
    rw [heid, heid', hrest₀.servers, hrest₂.servers]
    decide
  obtain ⟨_, herror⟩ | ⟨items', hitems, hprefix, -, hrecords, -⟩ :=
    entry_history_append_only hg₀ hb he hboard
      (by rwa [hslug, heslug]) hrun (by rwa [hslug, heslug]) ⟨e', he', heid'.trans heid.symm⟩
  · cases herror
  · obtain rfl := Except.ok.inj hitems
    refine ⟨g₀, g₂, e, _, _, hfirst, hrun, hsecond, ?_, ?_, hprefix, hrecords⟩
    · rw [List.map_take, hnumbers.1]
      rfl
    · rw [List.map_take, hnumbers.2]
      rfl

end Leaderboards
