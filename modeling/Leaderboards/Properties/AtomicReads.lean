import Leaderboards.Properties.VersionListings
import Leaderboards.Transactions.VersionReads

/-!
# Reads of several statements

`get_by_number`, `get_latest`, `versions::diff` and `export_board` read in several statements. They
are atomic in every run whose steps do not disturb them (**`reads_atomic`**), and then no version
that they show lacks a placement. A deletion of the board between the two statements of
`get_by_number` disturbs it: the version is returned without its placements (`read_torn`).
-/

namespace Leaderboards

open Interaction Ranking

variable {P : Policy} {faulty : Prop} {db : Database} {s : Server} {env : Supply}

/-! ### What a read shows -/

theorem versionRows_rows {c : Option Json} {vs : List Version}
    {rows : List (ℤ × Option ℤ × PlacementWithEntry)} (h : versionRows db c vs = .ok rows) :
    rows.map (fun r => r.2.2) = vs.flatMap fun v => db.placementRows v.id := by
  induction vs generalizing rows with
  | nil =>
    cases h
    rfl
  | cons v vs ih =>
    rw [versionRows] at h
    obtain ⟨first, hfirst, h⟩ := Prog.except_bind_ok.mp h
    obtain ⟨rest, hrest, h⟩ := Prog.except_bind_ok.mp h
    cases h
    rw [List.map_append, List.map_map, List.flatMap_cons, ih hrest, ← withTierOrd_rows hfirst]
    rfl

/-- A row of the join carries the id of its version. -/
theorem versionId_of_mem_rows {versionId : Uuid} {r : PlacementWithEntry}
    (h : r ∈ db.placementRows versionId) : r.versionId = versionId := by
  obtain ⟨p, hp, hr⟩ := List.mem_filterMap.mp h
  obtain ⟨e, -, rfl⟩ := Option.map_eq_some_iff.mp hr
  exact (Database.mem_placementsOf.mp hp).2

/-- The rows of one version among those of several. -/
theorem filter_versionRows {vs : List Version} (hnodup : (vs.map Version.id).Nodup) {v : Version}
    (hv : v ∈ vs) : (vs.flatMap fun v => db.placementRows v.id).filter
      (fun r => r.versionId = v.id) = db.placementRows v.id := by
  have hrows : ∀ w : Version, (db.placementRows w.id).filter (fun r => r.versionId = v.id) =
      if w.id = v.id then db.placementRows v.id else [] := by
    intro w
    split
    · rename_i hid
      rw [← hid]
      exact List.filter_eq_self.mpr fun r hr => decide_eq_true (versionId_of_mem_rows hr)
    · rename_i hid
      exact List.filter_eq_nil_iff.mpr fun r hr => by simpa [versionId_of_mem_rows hr] using hid
  induction vs with
  | nil => exact absurd hv List.not_mem_nil
  | cons w vs ih =>
    obtain ⟨hw, hnodup⟩ := List.nodup_cons.mp hnodup
    rw [List.flatMap_cons, List.filter_append, hrows]
    rcases List.mem_cons.mp hv with rfl | hv
    · -- No later version has the same id.
      have hrest : (vs.flatMap fun v => db.placementRows v.id).filter
          (fun r => r.versionId = v.id) = [] := by
        refine List.filter_eq_nil_iff.mpr fun r hr => ?_
        obtain ⟨w, hmem, hr⟩ := List.mem_flatMap.mp hr
        rw [versionId_of_mem_rows hr, decide_eq_true_eq]
        exact fun hid => hw (hid ▸ List.mem_map_of_mem hmem)
      rw [if_pos rfl, hrest, List.append_nil]
    · have hne : w.id ≠ v.id := fun hid => hw (hid ▸ List.mem_map_of_mem hv)
      rw [if_neg hne, List.nil_append]
      exact ih hnodup hv

/-- The placement query of `export_board` reads all placements of each version of the board. -/
theorem fetchBoardPlacements_shows (hdb : db.Schema) {v : Version} (hv : v ∈ db.versions)
    {ps : List PlacementWithEntry} (h : fetchBoardPlacements db v.boardId = .ok ps) :
    ShowsVersion db v (ps.filter fun p => p.versionId = v.id) := by
  obtain ⟨b, hb, hid⟩ := hdb.version_board v hv
  have hboard : db.board? v.boardId = some b := by rw [← hid, hdb.board?_eq hb]
  rw [fetchBoardPlacements, hboard] at h
  obtain ⟨rows, hrows, h⟩ := Prog.except_bind_ok.mp h
  cases h
  have hall : ((orderBy (exportKey db.collation) rows).map fun r => r.2.2).Perm
      ((db.versionsOf v.boardId).flatMap fun v => db.placementRows v.id) := by
    rw [← versionRows_rows hrows]
    exact (orderBy_perm (exportKey db.collation) rows).map _
  have hnodup : ((db.versionsOf v.boardId).map Version.id).Nodup :=
    hdb.version_id.sublist (List.filter_sublist.map _)
  have hperm := hall.filter fun r : PlacementWithEntry => r.versionId = v.id
  rw [filter_versionRows hnodup (Database.mem_versionsOf.mpr ⟨hv, rfl⟩)] at hperm
  refine ⟨hv, hperm, hperm.length_eq.trans ?_⟩
  have hids := congrArg List.length (hdb.placementRows_map hv (f := PlacementWithEntry.id)
    (g := Placement.id) fun _ _ => rfl)
  rwa [List.length_map, List.length_map] at hids

/-! ### The reads -/

/-- The reads of several statements. -/
inductive Read
  | getByNumber (boardId : Uuid) (versionNumber : ℤ)
  | getLatest (boardId : Uuid)
  | diff (boardId : Uuid) (fromNumber toNumber : ℤ)
  | exportBoard (slug : String)

namespace Read

/-- What a read answers with. -/
abbrev Answer : Read → Type
  | getByNumber .. => VersionWithPlacements
  | getLatest .. => VersionWithPlacements
  | diff .. => VersionDiff
  | exportBoard .. => BoardExport

/-- The function that reads. -/
def action : (r : Read) → Action r.Answer
  | .getByNumber boardId n => Versions.getByNumber boardId n
  | .getLatest boardId => Versions.getLatest boardId
  | .diff boardId fromNumber toNumber => Versions.diff boardId fromNumber toNumber
  | .exportBoard slug => Export.exportBoard slug

/-- Every version that an answer shows is one of the tables, with all of its placements. -/
def Complete (db : Database) : (r : Read) → r.Answer → Prop
  | .getByNumber .., x => ShowsVersion db x.version x.placements
  | .getLatest .., x => ShowsVersion db x.version x.placements
  | .diff .., _ => True
  | .exportBoard _, doc => ∀ e ∈ doc.versions, ∃ v ps, ShowsVersion db v ps ∧
      e = { versionNumber := v.versionNumber, note := v.note, metadata := v.metadata
            placements := ps.map Export.ofPlacement }

end Read

theorem Read.reads (r : Read) : Reads r.action := by
  cases r with
  | getByNumber boardId n => exact reads_getByNumber boardId n
  | getLatest boardId => exact reads_getLatest boardId
  | diff boardId m n =>
    exact (reads_getByNumber boardId m).bind fun _ =>
      (reads_getByNumber boardId n).bind fun _ => .ret _
  | exportBoard slug =>
    refine Reads.bind ?_ fun _ => reads_sql rfl fun _ => reads_sql rfl fun _ => .ret _
    refine reads_sql rfl fun row => ?_
    rw [← bind_pure (Action.okOr row _)]
    exact reads_okOr fun _ => .ret _

/-- What `export_board` answers in a single state. -/
theorem exportBoard_complete (hs : s.db.Schema) {slug : String} {doc : BoardExport}
    (h : respond env s (Export.exportBoard slug) = .ok doc) :
    (Read.exportBoard slug).Complete s.db doc := by
  have hread : ∀ b : Board, Reads (Versions.list b.id >>= fun versions =>
      Action.sql (.selectBoardPlacements b.id) >>= fun ps => (.ret
        { board := Export.ofBoard b
          versions := Export.sortByNumber (versions.map (Export.ofVersion ps)) } :
        Action BoardExport)) := fun _ => reads_sql rfl fun _ => reads_sql rfl fun _ => .ret _
  rw [Export.exportBoard, Boards.getBySlug, Prog.bind_assoc] at h
  obtain ⟨row, hrow, h⟩ := ok_of_respond_sql rfl (fun _ => reads_okOr hread) h
  rcases row with _ | b
  · cases h
  · obtain ⟨versions, hversions, h⟩ := ok_of_respond_sql rfl
      (fun _ => reads_sql rfl fun _ => .ret _) h
    obtain ⟨ps, hps, h⟩ := ok_of_respond_sql rfl (fun _ => .ret _) h
    obtain rfl := Except.ok.inj hversions
    cases h
    intro e he
    obtain ⟨v, hv, rfl⟩ := List.mem_map.mp ((mem_orderBy _).mp he)
    obtain ⟨hmem, hid⟩ := Database.mem_versionsOf.mp ((mem_orderBy _).mp hv)
    have hfetched : fetchBoardPlacements s.db v.boardId = .ok ps := by
      rw [hid]
      rcases hfetch : fetchBoardPlacements s.db b.id with e | ps'
      · simp [Query.answer, exec, hfetch, Except.map] at hps
      · simp only [Query.answer, exec, hfetch, Except.map] at hps
        exact hps
    exact ⟨v, _, fetchBoardPlacements_shows hs hmem hfetched, rfl⟩

/-- **What a read answers in a single state is complete.** -/
theorem Read.complete (hs : s.db.Schema) (r : Read) {x : r.Answer}
    (h : respond env s r.action = .ok x) : r.Complete s.db x := by
  cases r with
  | getByNumber boardId n => exact (getByNumber_shows hs h).2.2
  | getLatest boardId => exact getLatest_shows hs h
  | diff boardId m n => trivial
  | exportBoard slug => exact exportBoard_complete hs h

/-! ### What disturbs `get_by_number` -/

/-- The answer to the first statement of `get_by_number`. -/
abbrev versionRow (boardId : Uuid) (n : ℤ) (a : (Cmd.sql (.selectVersionByNumber boardId n)).Res) :
    Machine.Answered Service := ⟨.sql (.selectVersionByNumber boardId n), a⟩

/-- How far `get_by_number` is: it has no answer, or the row of the version, or it is done. -/
theorem getByNumber_stage {boardId : Uuid} {n : ℤ} {done : List (Machine.Answered Service)}
    {rest : Action VersionWithPlacements}
    (h : Machine.Answers (S := Service) (Versions.getByNumber boardId n) done rest) :
    done = [] ∨ (∃ v, done = [versionRow boardId n (.ok (some v))]) ∨
      (∃ e, rest = .fail e) ∨ ∃ x, rest = .ret x := by
  cases h with
  | done => exact .inl rfl
  | @next _ _ a as _ h =>
    rcases a with e | row
    · cases h
      exact .inr (.inr (.inl ⟨_, rfl⟩))
    · rcases row with _ | v
      · cases h
        exact .inr (.inr (.inl ⟨_, rfl⟩))
      · cases h with
        | done => exact .inr (.inl ⟨v, rfl⟩)
        | @next _ _ a as _ h =>
          rcases a with e | ps
          · cases h
            exact .inr (.inr (.inl ⟨_, rfl⟩))
          · cases h
            exact .inr (.inr (.inr ⟨_, rfl⟩))

/-- The row of a version that is there. -/
theorem answer_versionRow (hdb : db.Schema) {v : Version} (hv : v ∈ db.versions) :
    (Query.selectVersionByNumber v.boardId v.versionNumber).answer db = .ok (some v) := by
  exact congrArg Except.ok (hdb.find_versionNumber hv)

/-- The first statement of `get_by_number` finds a version of the tables. -/
theorem found_of_versionRow {boardId : Uuid} {n : ℤ} {v : Version} {s s' : Server} {L : List Lock}
    {h' : Session} {a : (Cmd.sql (.selectVersionByNumber boardId n)).Res}
    (hexec : Exec faulty (.sql (.selectVersionByNumber boardId n)) s none L a s' h')
    (ha : a = .ok (some v)) : v ∈ s.db.versions ∧ v.boardId = boardId ∧ v.versionNumber = n := by
  cases hexec with
  | autocommit hu hnow hq =>
    obtain ⟨hanswer, -⟩ := answer_ok rfl hq
    have hfind := Except.ok.inj (hanswer.trans ha)
    obtain ⟨hmem, hid⟩ := Database.mem_versionsOf.mp (List.mem_of_find?_eq_some hfind)
    exact ⟨hmem, hid, by simpa using List.find?_some hfind⟩
  | _ => cases ha

/-- **Nothing but the deletion of its board disturbs `get_by_number`.** -/
theorem getByNumber_undisturbed {g₀ g : System faulty} (hg₀ : System.Reachable P g₀) {b : Board}
    (hb : b ∈ g₀.servers.db.boards) {n : ℤ} {t : Tid} {f : VersionWithPlacements → Action Unit}
    {done : List (Machine.Answered Service)} {h : (server faulty).Session}
    {rest : Prog Service Error VersionWithPlacements}
    (hcourse : Machine.Course (M := server faulty) (Serves P) (fun _ _ _ _ => True) t f
      (Versions.getByNumber b.id n) g₀ done h rest g)
    (hboard : ∃ r ∈ g.servers.db.boards, r.id = b.id) :
    Machine.Course (M := server faulty) (Serves P) Undisturbed t f (Versions.getByNumber b.id n) g₀
        done h rest g ∧
      ∀ v, versionRow b.id n (.ok (some v)) ∈ done →
        v ∈ g.servers.db.versions ∧ v.boardId = b.id ∧ v.versionNumber = n := by
  -- A version that was read stays as long as its board does, so its row is read the same later.
  have hused := hg₀.inv.board_used b hb
  induction hcourse with
  | start ht => exact ⟨.start ht, fun _ hv => absurd hv List.not_mem_nil⟩
  | @other done s rest g g' h hstep ht _ ih =>
    have hg : System.Reachable P g := hg₀.trans h.run
    have hg' : System.Reachable P g' := hg.tail hstep
    obtain ⟨hcourse, hrows⟩ :=
      ih (hg.board_before (.single hstep) ((hg₀.rely h.run).board_used _ hused) hboard)
    have hkept : ∀ v, versionRow b.id n (.ok (some v)) ∈ done →
        v ∈ (System.servers g').db.versions ∧ v.boardId = b.id ∧ v.versionNumber = n := by
      intro v hv
      obtain ⟨hmem, hid, hnumber⟩ := hrows v hv
      exact ⟨(hg.step_keeps_version hstep hmem (by rwa [hid])).row, hid, hnumber⟩
    refine ⟨.other hcourse hstep ht ?_, hkept⟩
    rcases getByNumber_stage h.answers with rfl | ⟨v, rfl⟩ | ⟨e, rfl⟩ | ⟨x, rfl⟩
    · exact .inl fun q a hmem => absurd hmem List.not_mem_nil
    · obtain ⟨hmem, hid, hnumber⟩ := hkept v List.mem_cons_self
      refine .inl fun q a hq => ?_
      cases List.mem_singleton.mp hq
      rw [← hid, ← hnumber]
      exact answer_versionRow hg'.inv.schema hmem
    · exact .inr (.fail e)
    · exact .inr (.ret x)
  | @own done s s' c k g L a sh' h hothers hexec ih =>
    have hg : System.Reachable P g := hg₀.trans h.run
    have hstep : System.Step P g _ := .exec _ t _ _ _ _ _ _ _ h.thread hothers hexec
    obtain ⟨hcourse, hrows⟩ :=
      ih (hg.board_before (.single hstep) ((hg₀.rely h.run).board_used _ hused) hboard)
    obtain ⟨rfl, -⟩ := (reads_getByNumber b.id n).onCourse hcourse
    refine ⟨.own hcourse hothers hexec, fun v hv => ?_⟩
    have hread : v ∈ (System.servers g).db.versions ∧ v.boardId = b.id ∧ v.versionNumber = n := by
      rcases List.mem_append.mp hv with hv | hv
      · exact hrows v hv
      · cases List.mem_singleton.mp hv
        exact found_of_versionRow hexec rfl
    obtain ⟨hmem, hid, hnumber⟩ := hread
    exact ⟨(hg.step_keeps_version hstep hmem (by rwa [hid])).row, hid, hnumber⟩

/-- **Undisturbed reads are atomic.** A handler of a reachable state is about to read. In every run
from there whose steps do not disturb the read, what it answers is what the uninterrupted read
answers in one of the states on the way, and no version that it shows lacks a placement. -/
theorem reads_atomic (r : Read) {g₀ g : System faulty} (hg₀ : System.Reachable P g₀) {t : Tid}
    {f : r.Answer → Action Unit} {done : List (Machine.Answered Service)} {h : Session}
    {x : r.Answer} (hcourse : Machine.Course (M := server faulty) (Serves P) Undisturbed
      t f r.action
      g₀ done h (.ret x) g) :
    ∃ g₁, System.Steps P g₀ g₁ ∧ System.Steps P g₁ g ∧
      (∀ env, respond env g₁.servers r.action = .ok x) ∧ r.Complete g₁.servers.db x := by
  obtain ⟨g₁, hbefore, hafter, hsame⟩ := r.reads.atomic hcourse
  have hg₁ : System.Reachable P g₁ := hg₀.trans hbefore
  exact ⟨g₁, hbefore, hafter, hsame, r.complete hg₁.inv.schema (hsame counting)⟩

/-! ### Two schedules -/

/-- A board with an entry and a version, which a client is about to read. -/
def readPreparation : List Move :=
  [.call (.createBoard { slug := "b", name := "B", boardType := "ordered" }), .turns 0 9,
    .call (.createEntry "b" { slug := "e", name := "E" }), .turns 1 9,
    .call (.createVersion {} "b" { placements := [{ entrySlug := "e" }] }), .turns 2 20,
    .call (.getVersion "b" 1), .turns 3 1]

/-- The clients after the preparation. -/
def prepared : Clients := (Clients.play counting (fun _ _ => true) readPreparation {}).getD {}

/-- The version that is read. -/
def readVersion : Version where
  id := 8
  boardId := 1
  versionNumber := 1
  note := none
  metadata := none
  createdAt := 4

/-- Another client runs between the two statements of the read. -/
def betweenStatements (r : Request) : List Move := [.turns 3 1, .call r, .turns 4 9, .turns 3 1]

/-- The answers to the two statements. -/
def twoAnswers (ps : List PlacementWithEntry) : List (Machine.Answered Service) :=
  [versionRow 1 1 (.ok (some readVersion)), ⟨.sql (.selectPlacements 8), .ok ps⟩]

set_option maxRecDepth 10000 in
/-- The schedule with a request between the statements is a course of the read. -/
theorem exists_read {r : Request} {ps : List PlacementWithEntry} {c : Clients}
    (hplay : Clients.play counting (fun _ _ => true) (betweenStatements r)
      prepared.restart = some c)
    (hanswers : Machine.answersOf 3 c.log = twoAnswers ps) :
    ∃ (g₀ g : System False) (h : Session), System.Reachable {} g₀ ∧ c.Shows g ∧
      g₀.servers.db.boards.map Board.id = [1] ∧ readVersion ∈ g₀.servers.db.versions ∧
      (g₀.servers.db.placementsOf readVersion.id).length = 1 ∧
      Machine.Course (M := server False) (Serves {}) (fun _ _ _ _ => True) 3 (fun _ => .ret ())
        (Versions.getByNumber 1 1) g₀ (twoAnswers ps) h (.ret ⟨readVersion, ps⟩) g := by
  have hprepared : Clients.play counting (fun _ _ => true) readPreparation {} = some prepared := rfl
  have hthread : prepared.threads[3]? = some (none, (Versions.getByNumber 1 1).discard) := rfl
  have hrows : prepared.server.db.boards.map Board.id = [1] ∧
      readVersion ∈ prepared.server.db.versions ∧
      (prepared.server.db.placementsOf readVersion.id).length = 1 := by decide
  obtain ⟨g₀, hg₀, hshows₀⟩ : ∃ g₀ : System False, System.Reachable {} g₀ ∧ prepared.Shows g₀ :=
    Clients.reachable_play hprepared
  obtain ⟨hshows, hlogs⟩ : prepared.restart.Shows g₀ ∧
      prepared.restart.Logs (fun _ _ => true) (fun r => r.Respects {}) g₀ g₀ := hshows₀.restart
  obtain ⟨g, -, hshows', hlogs'⟩ := Clients.play_run (fun r => r.Respects {}) hplay
    (fun _ _ r _ => r.respects_default) hshows
  have hstart : g₀.thread 3 = some ⟨none, Versions.getByNumber 1 1 >>= fun _ => .ret ()⟩ := by
    rw [hshows₀.thread, hthread]
    rfl
  -- The log of the clients is a trace, and in a trace the thread of the read follows a course.
  obtain ⟨h, rest, hcourse⟩ := Machine.Trace.course ((hlogs' g₀ hlogs).trace)
    id (fun _ _ _ h => by cases h) hstart
  rw [hanswers] at hcourse
  have hrest : rest = .ret ⟨readVersion, ps⟩ := by
    cases hcourse.answers with
    | next h =>
      cases h with
      | next h =>
        cases h
        rfl
  rw [← hshows₀.servers] at hrows
  exact ⟨g₀, g, h, hg₀, hshows', hrows.1, hrows.2.1, hrows.2.2, hrest ▸ hcourse⟩

/-- The placement of the version, under the entry's new name. -/
def renamedPlacement : PlacementWithEntry where
  id := 10
  versionId := 8
  entryId := 3
  position := some 1
  score := none
  tier := none
  metadata := none
  entrySlug := "e"
  entryName := "F"

set_option maxRecDepth 10000 in
/-- A PATCH that renames the entry between the two statements does not disturb the read. -/
theorem reads_atomic_run : ∃ (g₀ g₁ g : System False), System.Steps {} g₀ g₁ ∧
    System.Steps {} g₁ g ∧ ∀ env, respond env g₁.servers (Read.getByNumber 1 1).action =
      .ok ⟨readVersion, [renamedPlacement]⟩ := by
  obtain ⟨c, hplay, hanswers, hboard⟩ : ∃ c, Clients.play counting (fun _ _ => true)
      (betweenStatements (.updateEntry "b" "e" { name := some "F" })) prepared.restart = some c ∧
      Machine.answersOf 3 c.log = twoAnswers [renamedPlacement] ∧
      c.server.db.boards.map Board.id = [1] := ⟨_, rfl, rfl, rfl⟩
  obtain ⟨g₀, g, h, hg₀, hshows, hboards, -, -, hcourse⟩ := exists_read hplay hanswers
  have hone : ∀ {bs : List Board}, bs.map Board.id = [1] → ∃ b ∈ bs, b.id = 1 := fun hbs =>
    List.mem_map.mp (hbs ▸ List.mem_cons_self)
  obtain ⟨b, hb, hid⟩ := hone hboards
  rw [← hshows.servers] at hboard
  rw [← hid] at hcourse
  have hundisturbed := (getByNumber_undisturbed hg₀ hb hcourse (hid ▸ hone hboard)).1
  rw [hid] at hundisturbed
  obtain ⟨g₁, hbefore, hafter, hsame, -⟩ := reads_atomic (.getByNumber 1 1) hg₀ hundisturbed
  exact ⟨g₀, g₁, g, hbefore, hafter, hsame⟩

set_option maxRecDepth 10000 in
/-- The board is deleted between the two statements: the version is returned without its
placement, which no state answers. -/
theorem read_torn : ∃ (g₀ g : System False) (done : List (Machine.Answered Service)) (h : Session),
    System.Reachable {} g₀ ∧ readVersion ∈ g₀.servers.db.versions ∧
      (g₀.servers.db.placementsOf readVersion.id).length = 1 ∧
      Machine.Course (M := server False) (Serves {}) (fun _ _ _ _ => True) 3 (fun _ => .ret ())
        (Read.getByNumber 1 1).action g₀ done h (.ret ⟨readVersion, []⟩) g ∧
      ∀ g₁, System.Steps {} g₀ g₁ → System.Steps {} g₁ g →
        ∀ env, respond env g₁.servers (Read.getByNumber 1 1).action ≠ .ok ⟨readVersion, []⟩ := by
  obtain ⟨c, hplay, hanswers⟩ : ∃ c, Clients.play counting (fun _ _ => true)
      (betweenStatements (.deleteBoard {} "b")) prepared.restart = some c ∧
      Machine.answersOf 3 c.log = twoAnswers [] := ⟨_, rfl, rfl⟩
  obtain ⟨g₀, g, h, hg₀, -, -, hversion, hplacements, hcourse⟩ := exists_read hplay hanswers
  refine ⟨g₀, g, _, h, hg₀, hversion, hplacements, hcourse, fun g₁ hbefore _ env hsame => ?_⟩
  have hg₁ : System.Reachable {} g₁ := hg₀.trans hbefore
  obtain ⟨-, -, hshows⟩ := getByNumber_shows hg₁.inv.schema hsame
  have hkept := (version_immutable hg₀ hversion hbefore
    (hg₁.inv.schema.version_board _ hshows.version)).2.1
  have hall := hshows.all
  rw [hkept, hplacements] at hall
  simp at hall

end Leaderboards
