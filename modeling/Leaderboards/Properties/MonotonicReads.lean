import Leaderboards.Properties.History
import Leaderboards.Transactions.Observing

/-!
# What a client has seen of a board stays visible

A client reads the versions of a board through the summary, `versions::list`, the stored latest
version, a version by number, or those since a number. Each answer is the answer to one select on
the versions of the board in some state on the way (`VersionRead.Agrees`). Versions stay for as long
as their board does, and new ones get higher numbers. So a client that has been shown a version
finds it in every later answer that covers its number (**`monotonic_reads`**); a number that it was
not shown may still not be found. Of the pages of `GET /versions` the walks of
`Properties/Pagination.lean` speak, and the live standings of a realtime board are no version.
-/

namespace Leaderboards

open Interaction Ranking

variable {P : Policy} {faulty : Prop} {α : Type} {g₀ g₁ g₂ g g' : System faulty}

/-! ### The reads -/

/-- The reads of the versions of a board. -/
inductive VersionRead
  | summary
  | list
  | latest
  | byNumber (versionNumber : ℤ)
  | since (afterVersion : ℤ) (limit : ℕ)

namespace VersionRead

/-- What a read answers with. -/
abbrev Answer : VersionRead → Type
  | summary => BoardSummary
  | list => List Version
  | latest => VersionWithPlacements
  | byNumber _ => VersionWithPlacements
  | since .. => List Version

/-- The function that reads. The latest version is the stored one. -/
def reader (slug : String) : (r : VersionRead) → Reading r.Answer
  | summary => Boards.getSummary slug
  | list => (Boards.getBySlug slug).inl >>= fun board => (Versions.list board.id).inl
  | latest => (Boards.getBySlug slug).inl >>= fun board => (Versions.getLatest board.id).inl
  | byNumber n => (Routes.getVersion slug n).inl
  | since n limit => (Routes.since slug n limit).inl

/-- The version rows of an answer. -/
def rows : (r : VersionRead) → r.Answer → List Version
  | summary, _ => []
  | list, vs => vs
  | latest, x => [x.version]
  | byNumber _, x => [x.version]
  | since .., vs => vs

/-- The version numbers of an answer. -/
def numbers : (r : VersionRead) → r.Answer → List ℤ
  | summary, x => x.latestVersion.toList
  | list, vs => vs.map Version.versionNumber
  | latest, x => [x.version.versionNumber]
  | byNumber _, x => [x.version.versionNumber]
  | since .., vs => vs.map Version.versionNumber

/-- What a read answers when the board has these versions. -/
def Agrees (vs : List Version) : (r : VersionRead) → Except Error r.Answer → Prop
  | summary, .ok x =>
    x.latestVersion = (orderBy (fun v => -v.versionNumber) vs).head?.map Version.versionNumber
  | list, .ok rows => rows = orderBy (fun v => -v.versionNumber) vs
  | latest, .ok x => (orderBy (fun v => -v.versionNumber) vs).head? = some x.version
  | latest, .error e => vs = [] ∨ ∃ e', e = .database e'
  | byNumber n, .ok x => vs.find? (fun v => v.versionNumber = n) = some x.version
  | byNumber n, .error e =>
    vs.find? (fun v => v.versionNumber = n) = none ∨ ∃ e', e = .database e'
  | since n limit, .ok rows =>
    rows = ((orderBy Version.versionNumber vs).filter fun v => n < v.versionNumber).take limit
  | _, .error e => ∃ e', e = .database e'

/-- An answer covers a version: the version is there if the read asks for its number, and otherwise
a later one, or a full page before it. An error is one of the database. -/
def Covers (v : Version) : (r : VersionRead) → Except Error r.Answer → Prop
  | summary, .ok x => ∃ n, x.latestVersion = some n ∧ v.versionNumber ≤ n
  | list, .ok rows => v ∈ rows
  | latest, .ok x => v.versionNumber < x.version.versionNumber ∨ x.version = v
  | byNumber n, .ok x => v.versionNumber = n → x.version = v
  | byNumber n, .error e => v.versionNumber = n → ∃ e', e = .database e'
  | since n limit, .ok rows => n < v.versionNumber →
      v ∈ rows ∨ (rows.length = limit ∧ ∀ r ∈ rows, r.versionNumber < v.versionNumber)
  | _, .error e => ∃ e', e = .database e'

/-! ### What a reader is answered -/

/-- An error of the database tells nothing about the versions. -/
theorem agrees_database (r : VersionRead) (vs : List Version) (e : DbError) :
    r.Agrees vs (.error (.database e)) := by
  cases r with
  | summary | list | since => exact ⟨e, rfl⟩
  | latest | byNumber => exact .inr ⟨e, rfl⟩

variable {b : Board}

/-- The board row is read first, and then its versions. -/
private theorem agrees_of_rest (r : VersionRead) {f : Board → Reading r.Answer}
    {x : Except Error r.Answer} (hg : System.Reachable P g) (hb : b ∈ g.servers.db.boards)
    (hboard : ∃ row ∈ g'.servers.db.boards, row.id = b.id)
    (h : System.Observes P ((Boards.getBySlug b.slug).inl >>= f) g x g')
    (hrest : ∀ row g₁, row.id = b.id → System.Observes P (f row) g₁ x g' →
      (∃ e, x = .error (.database e)) ∨ ∃ g₂, System.Steps P g₁ g₂ ∧ System.Steps P g₂ g' ∧
        r.Agrees (g₂.servers.db.versionsOf b.id) x) :
    ∃ g₁, System.Steps P g g₁ ∧ System.Steps P g₁ g' ∧
      r.Agrees (g₁.servers.db.versionsOf b.id) x := by
  have hread : (∃ e, x = .error (.database e)) ∨ ∃ g₁, System.Steps P g g₁ ∧
      System.Steps P g₁ g' ∧ r.Agrees (g₁.servers.db.versionsOf b.id) x := by
    rcases h.getBySlug hg hb hboard with herror | ⟨g₁, row, hrun, -, hkey, hlater⟩
    · exact .inl herror
    · rcases hrest row g₁ hkey.1.symm hlater with herror | ⟨g₂, hrun', hlater', hagrees⟩
      · exact .inl herror
      · exact .inr ⟨g₂, hrun.trans hrun', hlater', hagrees⟩
  rcases hread with ⟨e, rfl⟩ | hread
  · exact ⟨g, .refl, h.run, r.agrees_database _ e⟩
  · exact hread

/-- The version row is read first, and then its placements. -/
private theorem version_of_rest {v : Version} {x : Except Error VersionWithPlacements}
    (h : System.Observes P (Versions.fetchPlacements v.id >>= fun placements =>
      (.ret ⟨v, placements⟩ : Action VersionWithPlacements)).inl g x g') :
    (∃ e, x = .error (.database e)) ∨ ∃ placements, x = .ok ⟨v, placements⟩ := by
  rw [Prog.inl_bind] at h
  rcases h.sql with herror | ⟨g₁, placements, -, -, h⟩
  · exact .inl herror
  · exact .inr ⟨placements, (Prog.executes_ret.mp h).1⟩

/-- **A reader of the versions of a board** is answered from the versions that the board has in some
state on the way. -/
theorem agrees (r : VersionRead) {x : Except Error r.Answer} (hg : System.Reachable P g)
    (hb : b ∈ g.servers.db.boards) (hboard : ∃ row ∈ g'.servers.db.boards, row.id = b.id)
    (h : System.Observes P (r.reader b.slug) g x g') :
    ∃ g₁, System.Steps P g g₁ ∧ System.Steps P g₁ g' ∧
      r.Agrees (g₁.servers.db.versionsOf b.id) x := by
  -- The last statement that reads versions is the one that decides: `g₁` is the state it was
  -- executed in.
  cases r with
  | summary =>
    refine agrees_of_rest .summary hg hb hboard h fun row g₁ hid h => ?_
    rcases h.fetch with herror | ⟨g₂, hrun, h⟩
    · exact .inl herror
    · rcases h.fetch with herror | ⟨g₃, hrun', h⟩
      · exact .inl herror
      · obtain ⟨rfl, hrun''⟩ := Prog.executes_ret.mp h
        refine .inr ⟨g₂, hrun, hrun'.trans hrun'', ?_⟩
        rw [← hid]
        rfl
  | list =>
    refine agrees_of_rest .list hg hb hboard h fun row g₁ hid h => ?_
    rw [← bind_pure (Versions.list row.id).inl] at h
    rcases h.sql with herror | ⟨g₂, rows, hrun, hrows, h⟩
    · exact .inl herror
    · obtain ⟨rfl, hrun'⟩ := Prog.executes_ret.mp h
      obtain rfl := Except.ok.inj hrows
      refine .inr ⟨g₂, hrun, hrun', ?_⟩
      rw [← hid]
      rfl
  | latest =>
    refine agrees_of_rest .latest hg hb hboard h fun row g₁ hid h => ?_
    rw [Versions.getLatest, Prog.inl_bind] at h
    rcases h.sql with herror | ⟨g₂, v, hrun, hv, h⟩
    · exact .inl herror
    · obtain rfl := Except.ok.inj hv
      rw [hid] at h
      refine .inr ⟨g₂, hrun, h.run, ?_⟩
      rcases hhead : (orderBy (fun v => -v.versionNumber) (g₂.servers.db.versionsOf b.id)).head?
        with _ | v
      · rw [hhead] at h
        obtain ⟨rfl, -⟩ := Prog.executes_fail.mp h
        have hnil := List.length_eq_zero_iff.mpr (List.head?_eq_none_iff.mp hhead)
        rw [length_orderBy] at hnil
        exact .inl (List.length_eq_zero_iff.mp hnil)
      · rw [hhead] at h
        rcases version_of_rest h with ⟨e, rfl⟩ | ⟨placements, rfl⟩
        · exact .inr ⟨e, rfl⟩
        · exact hhead
  | byNumber n =>
    rw [reader, Routes.getVersion, Prog.inl_bind] at h
    refine agrees_of_rest (.byNumber n) hg hb hboard h fun row g₁ hid h => ?_
    rw [Versions.getByNumber, Prog.inl_bind] at h
    rcases h.sql with herror | ⟨g₂, v, hrun, hv, h⟩
    · exact .inl herror
    · obtain rfl := Except.ok.inj hv
      rw [hid] at h
      refine .inr ⟨g₂, hrun, h.run, ?_⟩
      rcases hfind : (g₂.servers.db.versionsOf b.id).find? (fun v => v.versionNumber = n) with _ | v
      · rw [hfind] at h
        obtain ⟨rfl, -⟩ := Prog.executes_fail.mp h
        exact .inl hfind
      · rw [hfind] at h
        rcases version_of_rest h with ⟨e, rfl⟩ | ⟨placements, rfl⟩
        · exact .inr ⟨e, rfl⟩
        · exact hfind
  | since n limit =>
    rw [reader, Routes.since, Prog.inl_bind] at h
    refine agrees_of_rest (.since n limit) hg hb hboard h fun row g₁ hid h => ?_
    rw [← bind_pure (Versions.since row.id n limit).inl] at h
    rcases h.sql with herror | ⟨g₂, rows, hrun, hrows, h⟩
    · exact .inl herror
    · obtain ⟨rfl, hrun'⟩ := Prog.executes_ret.mp h
      obtain rfl := Except.ok.inj hrows
      refine .inr ⟨g₂, hrun, hrun', ?_⟩
      rw [← hid]
      rfl

/-! ### What an answer says about a version -/

/-- The head of the versions in descending order has the largest number. -/
theorem le_of_head? {vs : List Version} {v w : Version} (hv : v ∈ vs)
    (hw : (orderBy (fun v => -v.versionNumber) vs).head? = some w) :
    v.versionNumber ≤ w.versionNumber := by
  have hpairwise := orderBy_pairwise (fun v : Version => -v.versionNumber) vs
  obtain ⟨rest, hrest⟩ := List.head?_eq_some_iff.mp hw
  rw [hrest] at hpairwise
  have hmem : v ∈ w :: rest := hrest ▸ (mem_orderBy _).mpr hv
  rcases List.mem_cons.mp hmem with rfl | hmem
  · exact le_refl _
  · have hle := (List.pairwise_cons.mp hpairwise).1 v hmem
    omega

/-- An answer covers every version that the board has. -/
theorem Agrees.covers {vs : List Version} (hnodup : (vs.map Version.versionNumber).Nodup)
    {v : Version} (hv : v ∈ vs) {r : VersionRead} {x : Except Error r.Answer}
    (h : r.Agrees vs x) : r.Covers v x := by
  -- Numbers are unique on a board, so a version that is found by its number is the one shown.
  have hunique : ∀ w ∈ vs, w.versionNumber = v.versionNumber → w = v := fun w hw heq =>
    List.inj_on_of_nodup_map hnodup hw hv heq
  have hhead : ∃ w, (orderBy (fun v => -v.versionNumber) vs).head? = some w := by
    rw [← Option.isSome_iff_exists, List.isSome_head?]
    exact List.ne_nil_of_mem ((mem_orderBy _).mpr hv)
  cases r with
  | summary =>
    cases x with
    | error e => exact h
    | ok x =>
      obtain ⟨w, hw⟩ := hhead
      rw [Agrees, hw] at h
      exact ⟨w.versionNumber, h, le_of_head? hv hw⟩
  | list =>
    cases x with
    | error e => exact h
    | ok rows =>
      obtain rfl : rows = _ := h
      exact (mem_orderBy _).mpr hv
  | latest =>
    cases x with
    | error e =>
      rcases h with rfl | h
      · exact absurd hv List.not_mem_nil
      · exact h
    | ok x =>
      have hmem := (mem_orderBy _).mp (List.mem_of_head? h)
      rcases (le_of_head? hv h).lt_or_eq with hlt | heq
      · exact .inl hlt
      · exact .inr (hunique _ hmem heq.symm)
  | byNumber n =>
    have hfind : v.versionNumber = n →
        ∃ w, vs.find? (fun v => v.versionNumber = n) = some w ∧ w = v := by
      rintro rfl
      obtain ⟨w, hw⟩ : ∃ w, vs.find? (fun w => w.versionNumber = v.versionNumber) = some w := by
        rw [← Option.isSome_iff_exists, List.find?_isSome]
        exact ⟨v, hv, by simp⟩
      refine ⟨w, hw, hunique w (List.mem_of_find?_eq_some hw) ?_⟩
      simpa using List.find?_some hw
    cases x with
    | error e =>
      intro hn
      obtain ⟨w, hw, -⟩ := hfind hn
      rcases h with hnone | h
      · cases hw.symm.trans hnone
      · exact h
    | ok x =>
      intro hn
      obtain ⟨w, hw, rfl⟩ := hfind hn
      exact Option.some.inj (Eq.trans (Eq.symm h) hw)
  | since n limit =>
    cases x with
    | error e => exact h
    | ok rows =>
      obtain rfl : rows = _ := h
      intro hn
      have hsorted : ((orderBy Version.versionNumber vs).filter
          fun v => n < v.versionNumber).Pairwise fun v w => v.versionNumber < w.versionNumber :=
        (orderBy_pairwise_lt _ hnodup).filter _
      exact mem_take_or_full _ hsorted (List.mem_filter.mpr ⟨(mem_orderBy _).mpr hv,
        decide_eq_true hn⟩) limit

/-- The versions of an answer are those of the board. -/
theorem Agrees.shows {vs : List Version} {r : VersionRead} {x : r.Answer}
    (h : r.Agrees vs (.ok x)) : (∀ v ∈ r.rows x, v ∈ vs) ∧
      ∀ n ∈ r.numbers x, ∃ v ∈ vs, v.versionNumber = n := by
  have hrows : ∀ {rows : List Version}, (∀ v ∈ rows, v ∈ vs) →
      ∀ n ∈ rows.map Version.versionNumber, ∃ v ∈ vs, v.versionNumber = n := by
    intro rows hrows n hn
    obtain ⟨v, hv, rfl⟩ := List.mem_map.mp hn
    exact ⟨v, hrows v hv, rfl⟩
  cases r with
  | summary =>
    refine ⟨fun v hv => absurd hv List.not_mem_nil, fun n hn => ?_⟩
    have hlatest : x.latestVersion = some n := Option.mem_toList.mp hn
    obtain ⟨w, hw, hnumber⟩ := Option.map_eq_some_iff.mp (h.symm.trans hlatest)
    exact ⟨w, (mem_orderBy _).mp (List.mem_of_head? hw), hnumber⟩
  | list =>
    obtain rfl : x = _ := h
    have hall : ∀ v ∈ orderBy (fun v => -v.versionNumber) vs, v ∈ vs := fun v hv =>
      (mem_orderBy _).mp hv
    exact ⟨hall, hrows hall⟩
  | latest =>
    have hall : ∀ v ∈ [x.version], v ∈ vs := fun v hv =>
      List.mem_singleton.mp hv ▸ (mem_orderBy _).mp (List.mem_of_head? h)
    exact ⟨hall, hrows hall⟩
  | byNumber n =>
    have hall : ∀ v ∈ [x.version], v ∈ vs := fun v hv =>
      List.mem_singleton.mp hv ▸ List.mem_of_find?_eq_some h
    exact ⟨hall, hrows hall⟩
  | since n limit =>
    obtain rfl : x = _ := h
    have hall : ∀ v ∈ ((orderBy Version.versionNumber vs).filter
        fun v => n < v.versionNumber).take limit, v ∈ vs := fun v hv =>
      (mem_orderBy _).mp (List.mem_of_mem_filter (List.mem_of_mem_take hv))
    exact ⟨hall, hrows hall⟩

end VersionRead

/-! ### Versions that a run adds -/

/-- The versions of a board have different numbers. -/
theorem Database.Schema.versionNumbers_nodup {db : Database} (hdb : db.Schema) (boardId : Uuid) :
    ((db.versionsOf boardId).map Version.versionNumber).Nodup := by
  have hsub : ((db.versionsOf boardId).map fun v => (v.boardId, v.versionNumber)).Nodup :=
    hdb.version_key.sublist (List.filter_sublist.map _)
  have hcongr : (db.versionsOf boardId).map (fun v => (v.boardId, v.versionNumber)) =
      ((db.versionsOf boardId).map Version.versionNumber).map fun n => (boardId, n) := by
    rw [List.map_map]
    exact List.map_congr_left fun v hv => by simp [(Database.mem_versionsOf.mp hv).2]
  rw [hcongr] at hsub
  exact hsub.of_map _

/-- **The versions that a run adds to a board come after those that it had.** -/
theorem System.Reachable.later_number (hg : System.Reachable P g) (hrun : System.Steps P g g')
    {v w : Version} (hv : v ∈ g.servers.db.versions) (hw : w ∈ g'.servers.db.versions)
    (hboard : w.boardId = v.boardId) (hnew : w ∉ g.servers.db.versions) :
    v.versionNumber < w.versionNumber := by
  induction hrun with
  | refl => exact absurd hw hnew
  | @tail g₁ g₂ hrun hstep ih =>
    have hg₁ : System.Reachable P g₁ := hg.trans hrun
    have hg₂ : System.Reachable P g₂ := hg₁.tail hstep
    obtain ⟨b, hb, hid⟩ := hg.inv.schema.version_board v hv
    have hused : w.boardId ∈ g₁.servers.usedBoards := by
      rw [hboard, ← hid]
      exact (hg.rely hrun).board_used _ (hg.inv.board_used b hb)
    have hafter := hg₂.inv.schema.version_board w hw
    have hbefore := hg₁.board_before (.single hstep) hused hafter
    -- The version was there before the last step, or it is the one that this step committed.
    by_cases hold : w ∈ g₁.servers.db.versions
    · exact ih hold
    · have hkept : v ∈ g₁.servers.db.versions :=
        (hg.rely hrun).version_kept v hv (hid ▸ hg.inv.board_used b hb) (hboard ▸ hbefore)
      have hmem : w ∈ g₂.servers.db.versionsOf w.boardId := Database.mem_versionsOf.mpr ⟨hw, rfl⟩
      have hmem' : w ∉ g₁.servers.db.versionsOf w.boardId := fun h =>
        hold (Database.mem_versionsOf.mp h).1
      have hle := Database.le_maxVersionNumber hkept
      rcases hg₁.step_commits hstep with hsame | ⟨L, hcommits⟩
      · rw [hsame.1] at hw
        exact absurd hw hold
      · rcases hcommits.versions hg₁.inv hbefore hafter with heq | ⟨u, -, hnext, heq⟩
        · exact absurd (heq ▸ hmem) hmem'
        · rw [heq] at hmem
          obtain rfl := List.mem_singleton.mp ((List.mem_append.mp hmem).resolve_left hmem')
          have hnumber := hnext.1
          rw [hboard] at hnumber
          omega

/-- **Monotonic reads.** A client reads the versions of a board and later reads them again, through
any of these reads, while handlers run. For each version number that it was shown the first time,
there is a version with this number, the rows that it was shown under the number are this version,
and the second answer covers it, as long as the board exists. -/
theorem monotonic_reads (hg : System.Reachable P g₀) {b : Board} (hb : b ∈ g₀.servers.db.boards)
    {r r' : VersionRead} {x : r.Answer} {x' : Except Error r'.Answer}
    (hfirst : System.Observes P (r.reader b.slug) g₀ (.ok x) g₁) (hrun : System.Steps P g₁ g₂)
    (hsecond : System.Observes P (r'.reader b.slug) g₂ x' g)
    (hboard : ∃ row ∈ g.servers.db.boards, row.id = b.id) {n : ℤ} (hn : n ∈ r.numbers x) :
    ∃ v, v.boardId = b.id ∧ v.versionNumber = n ∧
      (∀ row ∈ r.rows x, row.versionNumber = n → row = v) ∧ r'.Covers v x' := by
  have hg₁ : System.Reachable P g₁ := hg.trans hfirst.run
  have hg₂ : System.Reachable P g₂ := hg₁.trans hrun
  have hlater : System.Steps P g₁ g := hrun.trans hsecond.run
  obtain ⟨b₁, hb₁, hkey₁⟩ := hg.board_between hb hfirst.run hlater hboard
  obtain ⟨b₂, hb₂, hkey₂⟩ := hg.board_between hb (hfirst.run.trans hrun) hsecond.run hboard
  obtain ⟨gr, hbefore, hafter, hagrees⟩ := r.agrees hg hb ⟨b₁, hb₁, hkey₁.1.symm⟩ hfirst
  rw [hkey₂.2.1] at hsecond
  obtain ⟨gr', hbefore', hafter', hagrees'⟩ := r'.agrees hg₂ hb₂ (hkey₂.1 ▸ hboard) hsecond
  have hgr : System.Reachable P gr := hg.trans hbefore
  have hgr' : System.Reachable P gr' := hg₂.trans hbefore'
  obtain ⟨hrows, hnumbers⟩ := hagrees.shows
  obtain ⟨v, hv, hnumber⟩ := hnumbers n hn
  obtain ⟨hmem, hid⟩ := Database.mem_versionsOf.mp hv
  have hnodup : ∀ {g : System faulty}, System.Reachable P g →
      ((g.servers.db.versionsOf b.id).map Version.versionNumber).Nodup := fun h =>
    h.inv.schema.versionNumbers_nodup b.id
  -- The version that was shown is there as long as its board, so the second read finds it.
  have hkept : v ∈ gr'.servers.db.versions := by
    have hrun' : System.Steps P gr gr' := hafter.trans (hrun.trans hbefore')
    obtain ⟨b', hb', hkey'⟩ := hg.board_between hb (hbefore.trans hrun') hafter' hboard
    obtain ⟨b'', hb'', hid''⟩ := hgr.inv.schema.version_board v hmem
    exact (hgr.rely hrun').version_kept v hmem (hid'' ▸ hgr.inv.board_used b'' hb'')
      ⟨b', hb', hkey'.1.symm.trans hid.symm⟩
  refine ⟨v, hid, hnumber, fun row hrow heq => ?_, ?_⟩
  · exact List.inj_on_of_nodup_map (hnodup hgr) (hrows row hrow) hv (heq.trans hnumber.symm)
  · rw [← hkey₂.1] at hagrees'
    exact hagrees'.covers (hnodup hgr') (Database.mem_versionsOf.mpr ⟨hkept, hid⟩)

/-- A select of a handler that is answered. -/
theorem System.observes_sql {q : Query} {f : q.Row → Reading α} {row : q.Row} {x : Except Error α}
    (hq : q.readOnly = true) (hanswer : q.answer g.servers.db = .ok row)
    (h : System.Observes P (f row) g x g') :
    System.Observes P ((Action.sql q).inl >>= f) g x g' :=
  .op .refl ⟨⟨hq, .inl hanswer.symm⟩, rfl⟩ h

/-- A board row that is found. -/
theorem System.observes_getBySlug {f : Board → Reading α} {x : Except Error α} {slug : String}
    {b : Board} (hrow : g.servers.db.boardBySlug? slug = some b)
    (h : System.Observes P (f b) g x g') :
    System.Observes P ((Boards.getBySlug slug).inl >>= f) g x g' := by
  have hanswer : (Query.selectBoardBySlug slug).answer g.servers.db = .ok (some b) :=
    congrArg Except.ok hrow
  exact .op .refl ⟨⟨rfl, .inl hanswer.symm⟩, rfl⟩ h

/-- A select of a reader that is answered. -/
theorem System.observes_fetch {l : Lookup} {f : l.Row → Reading α} {x : Except Error α}
    (h : System.Observes P (f (l.answer g.servers.db)) g x g') :
    System.Observes P (l.fetch >>= f) g x g' :=
  .op .refl ⟨.inl rfl, rfl⟩ h

set_option maxRecDepth 10000 in
/-- A client sees the first version in the summary, and both versions in a later list. -/
theorem monotonic_reads_run : ∃ (g₀ g₂ : System False) (b : Board) (x : BoardSummary)
    (vs : List Version), System.Observes {} (VersionRead.summary.reader b.slug) g₀ (.ok x) g₀ ∧
      System.Steps {} g₀ g₂ ∧
      System.Observes {} (VersionRead.list.reader b.slug) g₂ (.ok vs) g₂ ∧
      x.latestVersion = some 1 ∧ vs.map Version.versionNumber = [2, 1] ∧
      ∃ v, v.boardId = b.id ∧ v.versionNumber = 1 ∧ VersionRead.list.Covers v (.ok vs) := by
  obtain ⟨g₀, hg₀, hrest₀⟩ := reachable_serveAll (P := {}) counting False scoredRequests
    fun r _ => r.respects_default
  obtain ⟨g₂, hrun, hrest₂⟩ := hrest₀.serveAll laterRequests (fun r _ => r.respects_default) hg₀
  obtain ⟨b, hb, hslug, hid, hrow⟩ : ∃ b ∈ g₀.servers.db.boards, b.slug = "b" ∧ b.id = 1 ∧
      g₀.servers.db.boardBySlug? "b" = some b := by
    rw [hrest₀.servers]
    exact ⟨_, List.mem_cons_self, rfl, rfl, rfl⟩
  obtain ⟨b', hb', hid', hrow'⟩ : ∃ b ∈ g₂.servers.db.boards, b.id = 1 ∧
      g₂.servers.db.boardBySlug? "b" = some b := by
    rw [hrest₂.servers]
    exact ⟨_, List.mem_cons_self, rfl, rfl⟩
  -- The client is alone during each read, so it observes the tables as they are.
  have hfirst : System.Observes {} (VersionRead.summary.reader b.slug) g₀
      (.ok { board := b, latestVersion := (Lookup.latestNumber b.id).answer g₀.servers.db
             entryCount := (Lookup.entryCount b.id).answer g₀.servers.db }) g₀ := by
    rw [hslug, VersionRead.reader, Boards.getSummary]
    refine System.observes_getBySlug hrow ?_
    exact System.observes_fetch (System.observes_fetch (.ret .refl))
  obtain ⟨vs, hvs, hnumbers⟩ : ∃ vs, (Query.selectVersions b'.id).answer g₂.servers.db = .ok vs ∧
      vs.map Version.versionNumber = [2, 1] := by
    rw [hrest₂.servers, hid']
    exact ⟨_, rfl, by decide⟩
  have hsecond : System.Observes {} (VersionRead.list.reader b.slug) g₂ (.ok vs) g₂ := by
    rw [hslug, VersionRead.reader]
    refine System.observes_getBySlug hrow' ?_
    rw [← bind_pure (Versions.list b'.id).inl]
    exact System.observes_sql rfl hvs (.ret .refl)
  have hlatest : (Lookup.latestNumber b.id).answer g₀.servers.db = some 1 := by
    rw [hrest₀.servers, hid]
    decide
  obtain ⟨v, hboard, hnumber, -, hcovers⟩ := monotonic_reads hg₀ hb hfirst hrun hsecond
    ⟨b', hb', hid'.trans hid.symm⟩ (Option.mem_toList.mpr hlatest)
  exact ⟨g₀, g₂, b, _, vs, hfirst, hrun, hsecond, hlatest, hnumbers, v, hboard, hnumber, hcovers⟩

end Leaderboards
