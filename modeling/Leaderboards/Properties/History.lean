import Leaderboards.Properties.Immutability

/-!
# The version history of a board

A transaction that adds a version to a committed board holds the board lock from before it reads
the largest number until it commits, so the number it takes is one more than the largest
committed number (`Commits.versions`). Hence the versions of a board, in the order in which
they are committed, carry the numbers `1, …, n`, and a commit appends at most the number `n + 1`
(`history_step`, `history_run`). A reader that polls `versions::since` therefore sees a growing
prefix of the history (`Polling.isPrefix`).
-/

namespace Leaderboards

open Interaction Ranking

variable {P : Policy} {faulty : Prop} {s s' : Server} {L : List Lock} {db : Database}
  {ws : List RowWrite}

/-! ### What a commit does to the versions of a board -/

/-- Legal writes append versions, each with the number after the largest committed one. -/
theorem LegalSeq.versions (h : LegalSeq P s L ws db) {id : Uuid}
    (hold : ∃ r ∈ s.db.boards, r.id = id) (hboard : ∃ r ∈ (db.applyAll ws).boards, r.id = id) :
    ∃ vs, (db.applyAll ws).versionsOf id = db.versionsOf id ++ vs ∧
      ∀ v ∈ vs, NextNumber P s.db v := by
  induction ws generalizing db with
  | nil => exact ⟨[], by simp, by simp⟩
  | cons w ws ih =>
    obtain ⟨vs, hvs, hnext⟩ := ih h.2.2 hboard
    cases w with
    | addVersion v =>
      have hadd : (db.addVersion v).versionsOf id =
          db.versionsOf id ++ if v.boardId = id then [v] else [] := by
        simp only [Database.versionsOf, Database.addVersion_versions, List.filter_append,
          List.filter_cons, List.filter_nil, decide_eq_true_eq]
      refine ⟨(if v.boardId = id then [v] else []) ++ vs, ?_, ?_⟩
      · rw [← List.append_assoc, ← hadd]
        exact hvs
      · intro v' hv'
        rcases List.mem_append.mp hv' with hv' | hv'
        · split at hv'
          · rename_i hid
            obtain rfl := List.mem_singleton.mp hv'
            refine h.1.2.2.2.2.1.resolve_right fun habs => ?_
            obtain ⟨r, hr, hrid⟩ := hold
            exact habs r hr (hrid.trans hid.symm)
          · exact absurd hv' List.not_mem_nil
        · exact hnext v' hv'
    | removeBoard id' =>
      -- The removed board is another one, since this one is there after all writes.
      have hne : id' ≠ id := by
        rintro rfl
        rw [h.2.1 trivial] at hboard
        obtain ⟨r, hr, hid⟩ := hboard
        have hkept := (List.mem_filter.mp hr).2
        simp [hid] at hkept
      refine ⟨vs, ?_, hnext⟩
      rw [Database.applyAll_cons, hvs]
      congr 1
      simp only [RowWrite.apply, Database.versionsOf, Database.removeBoard_versions,
        List.filter_filter]
      refine List.filter_congr fun v _ => ?_
      by_cases hb : v.boardId = id
      · simp [hb, Ne.symm hne]
      · simp [hb]
    | _ => exact ⟨vs, hvs, hnext⟩

/-- **A commit appends at most one version to a committed board.** -/
theorem Commits.versions (h : Commits P L s s') (hs : ServerInv P s) {id : Uuid}
    (hold : ∃ r ∈ s.db.boards, r.id = id) (hboard : ∃ r ∈ s'.db.boards, r.id = id) :
    s'.db.versionsOf id = s.db.versionsOf id ∨ ∃ v, v.boardId = id ∧ NextNumber P s.db v ∧
      s'.db.versionsOf id = s.db.versionsOf id ++ [v] := by
  have hs' := h.inv hs
  obtain ⟨ws, hlegal, -, hdb, -⟩ := h
  rw [hdb] at hboard
  obtain ⟨vs, hvs, hnext⟩ := hlegal.versions hold hboard
  rw [← hdb] at hvs
  have hmem : ∀ v ∈ vs, v ∈ s'.db.versions ∧ v.boardId = id := fun v hv =>
    Database.mem_versionsOf.mp (hvs ▸ List.mem_append_right _ hv)
  -- Each of the new versions has the next number, so there cannot be two.
  have hnodup : vs.Nodup := by
    have hall : (s'.db.versionsOf id).Nodup :=
      (hs'.schema.version_id.of_map _).sublist List.filter_sublist
    rw [hvs] at hall
    exact hall.of_append_right
  match vs, hmem, hnext, hnodup, hvs with
  | [], _, _, _, hvs => exact .inl (by rw [hvs, List.append_nil])
  | [v], hmem, hnext, _, hvs =>
    exact .inr ⟨v, (hmem v List.mem_cons_self).2, hnext v List.mem_cons_self, hvs⟩
  | v :: v' :: rest, hmem, hnext, hnodup, _ =>
    have hv := hmem v (by simp)
    have hv' := hmem v' (by simp)
    have hnumber : v.versionNumber = v'.versionNumber := by
      rw [(hnext v (by simp)).1, (hnext v' (by simp)).1, hv.2, hv'.2]
    have heq : v = v' := List.inj_on_of_nodup_map hs'.schema.version_key hv.1 hv'.1
      (by simp [hv.2, hv'.2, hnumber])
    exact absurd heq (by
      rintro rfl
      simp at hnodup)

/-! ### The history -/

/-- The versions of a board, in the order of their commits, have the numbers `1, …, n`. -/
def GapFree (vs : List Version) : Prop :=
  vs.map Version.versionNumber = (List.range' 1 vs.length).map fun n : ℕ => (n : ℤ)

theorem GapFree.max {boardId : Uuid} (h : GapFree (db.versionsOf boardId)) :
    db.maxVersionNumber boardId = (db.versionsOf boardId).length := by
  rw [Database.maxVersionNumber, h]
  generalize (db.versionsOf boardId).length = n
  cases n with
  | zero => rfl
  | succ n =>
    have hmax : ((List.range' 1 (n + 1)).map fun k : ℕ => (k : ℤ)).max? = some ((n : ℤ) + 1) := by
      rw [List.max?_eq_some_iff]
      constructor
      · exact List.mem_map.mpr ⟨n + 1, List.mem_range'_1.mpr (by omega), by simp⟩
      · intro k hk
        obtain ⟨m, hm, rfl⟩ := List.mem_map.mp hk
        have := (List.mem_range'_1.mp hm).2
        omega
    rw [hmax]
    simp

theorem GapFree.append {vs : List Version} (h : GapFree vs) {v : Version}
    (hv : v.versionNumber = (vs.length : ℤ) + 1) : GapFree (vs ++ [v]) := by
  unfold GapFree at h ⊢
  rw [List.map_append, h, List.length_append, List.length_singleton, List.range'_1_concat,
    List.map_append]
  simp [hv, add_comm]

/-- In a gap-free history the number of a version is its place. -/
theorem GapFree.number {vs : List Version} (h : GapFree vs) {i : ℕ} (hi : i < vs.length) :
    vs[i].versionNumber = (i : ℤ) + 1 := by
  have hget : (vs.map Version.versionNumber)[i]? =
      ((List.range' 1 vs.length).map fun n : ℕ => (n : ℤ))[i]? := congrArg (fun l => l[i]?) h
  rw [List.getElem?_map, List.getElem?_map, List.getElem?_eq_getElem hi,
    List.getElem?_range' hi] at hget
  simp only [Option.map_some, Option.some.injEq] at hget
  omega

/-- A gap-free history is sorted by number. -/
theorem GapFree.sorted {vs : List Version} (h : GapFree vs) :
    orderBy Version.versionNumber vs = vs := by
  refine List.Pairwise.insertionSort_eq (List.pairwise_iff_getElem.mpr fun i j hi hj hij => ?_)
  rw [h.number hi, h.number hj]
  omega

/-- The versions after the number `k` are those after the first `k`. -/
theorem GapFree.filter {vs : List Version} (h : GapFree vs) {k : ℕ} (hk : k ≤ vs.length) :
    vs.filter (fun v => (k : ℤ) < v.versionNumber) = vs.drop k := by
  have hnumber : ∀ i (hi : i < vs.length), vs[i].versionNumber = (i : ℤ) + 1 := fun i hi =>
    h.number hi
  conv_lhs => rw [← List.take_append_drop k vs]
  rw [List.filter_append, List.filter_eq_nil_iff.mpr, List.filter_eq_self.mpr, List.nil_append]
  · intro v hv
    obtain ⟨i, hi, rfl⟩ := List.mem_iff_getElem.mp hv
    rw [List.getElem_drop, hnumber, decide_eq_true_eq]
    push_cast
    omega
  · intro v hv
    obtain ⟨i, hi, rfl⟩ := List.mem_iff_getElem.mp hv
    rw [List.getElem_take, hnumber, decide_eq_true_eq]
    rw [List.length_take] at hi
    omega

/-! ### Runs -/

/-- What holds of a board after its creation: a gap-free history within the limit. -/
structure Historied (P : Policy) (boardId : Uuid) (s : Server) : Prop where
  gapFree : GapFree (s.db.versionsOf boardId)
  limit : ∀ m, P.maxVersions = some m → 0 ≤ m → ((s.db.versionsOf boardId).length : ℤ) ≤ m

/-- A board that is there at the end of a run was there at its start, if its id was used. -/
theorem System.Reachable.board_before {g g' : System faulty} (hg : System.Reachable P g)
    (hrun : System.Steps P g g') {id : Uuid} (hused : id ∈ g.servers.usedBoards)
    (hboard : ∃ r ∈ g'.servers.db.boards, r.id = id) : ∃ r ∈ g.servers.db.boards, r.id = id := by
  obtain ⟨r, hr, rfl⟩ := hboard
  obtain ⟨r', hr', hkey⟩ := (hg.rely hrun).board_reused r hr hused
  exact ⟨r', hr', hkey.1⟩

/-- **One step of any handler** appends the next number, or nothing. -/
theorem history_step {g g' : System faulty} (hg : System.Reachable P g)
    (hstep : System.Step P g g') {id : Uuid} (hused : id ∈ g.servers.usedBoards)
    (hboard : ∃ r ∈ g'.servers.db.boards, r.id = id) (h : Historied P id g.servers) :
    Historied P id g'.servers ∧ (g'.servers.db.versionsOf id = g.servers.db.versionsOf id ∨
      ∃ v, v.versionNumber = ((g.servers.db.versionsOf id).length : ℤ) + 1 ∧
        g'.servers.db.versionsOf id = g.servers.db.versionsOf id ++ [v]) := by
  have hold := hg.board_before (.single hstep) hused hboard
  rcases hg.step_commits hstep with hsame | ⟨L, hcommits⟩
  · refine ⟨⟨hsame.1 ▸ h.gapFree, fun m hm h0 => hsame.1 ▸ h.limit m hm h0⟩, .inl (by rw [hsame.1])⟩
  · rcases hcommits.versions hg.inv hold hboard with heq | ⟨v, rfl, ⟨hnumber, hlimit⟩, heq⟩
    · exact ⟨⟨heq ▸ h.gapFree, fun m hm h0 => heq ▸ h.limit m hm h0⟩, .inl heq⟩
    · rw [h.gapFree.max] at hnumber
      refine ⟨⟨heq ▸ h.gapFree.append hnumber, fun m hm _ => ?_⟩, .inr ⟨v, hnumber, heq⟩⟩
      have hlt := hlimit m hm
      rw [heq, List.length_append, List.length_singleton]
      push_cast
      omega

/-- **A run** extends the history. -/
theorem history_run {g g' : System faulty} (hg : System.Reachable P g)
    (hrun : System.Steps P g g') {id : Uuid} (hused : id ∈ g.servers.usedBoards)
    (hboard : ∃ r ∈ g'.servers.db.boards, r.id = id) (h : Historied P id g.servers) :
    Historied P id g'.servers ∧
      g.servers.db.versionsOf id <+: g'.servers.db.versionsOf id := by
  induction hrun with
  | refl => exact ⟨h, List.prefix_rfl⟩
  | @tail g₁ g₂ hrun hstep ih =>
    have hg₁ : System.Reachable P g₁ := hg.trans hrun
    have hused₁ := (hg.rely hrun).board_used _ hused
    obtain ⟨h₁, hpre⟩ := ih (hg₁.board_before (.single hstep) hused₁ hboard)
    obtain ⟨h₂, heq | ⟨v, -, heq⟩⟩ := history_step hg₁ hstep hused₁ hboard h₁
    · exact ⟨h₂, heq ▸ hpre⟩
    · exact ⟨h₂, heq ▸ hpre.trans (List.prefix_append _ _)⟩

/-! ### The board that `boards::create` makes -/

/-- The step in which `boards::create` inserts its row, outside a transaction. -/
inductive Inserts (b : Board) : System faulty → System faulty → Prop
  | mk (g : System faulty) (t : Tid) (input : CreateBoard) (k : Board → Action Unit)
      (L : List Lock) (s' : Server)
      (ht : g.thread t = some ⟨none, Boards.insert input >>= k⟩)
      (hothers : ∀ u th, u ≠ t → g.thread u = some th → Compatible L th.session.locks)
      (hexec : Exec faulty (.sql (.insertBoard input)) g.servers none L (.ok b) s' none) :
      Inserts b g ⟨s', Function.update g.thread t (some ⟨none, k b⟩)⟩

variable {g g₀ g₁ g' : System faulty} {b : Board}

theorem Inserts.step (h : Inserts b g₀ g₁) : System.Step P g₀ g₁ := by
  cases h with
  | mk t input k L s' ht hothers hexec => exact .exec g₀ t _ _ none none L _ s' ht hothers hexec

/-- The new board has no version. -/
theorem Inserts.versionsOf (h : Inserts b g₀ g₁) (hg₀ : System.Reachable P g₀) :
    b.id ∈ g₁.servers.usedBoards ∧ g₁.servers.db.versionsOf b.id = [] := by
  cases h with
  | mk t input k L s' ht hothers hexec =>
    cases hexec with
    | autocommit hu hnow hq =>
      obtain ⟨rfl, -, -, -, hb⟩ := execInsertBoard_ok hq
      rename_i u now
      have hid : b.id = u := congrArg Board.id hb
      have hempty : g₀.servers.db.versionsOf b.id = [] := by
        refine List.eq_nil_iff_forall_not_mem.mpr fun v hv => hu.1 ?_
        obtain ⟨hv, hvid⟩ := Database.mem_versionsOf.mp hv
        obtain ⟨r, hr, hrid⟩ := hg₀.inv.schema.version_board v hv
        rw [← hid, ← hvid, ← hrid]
        exact hg₀.inv.board_used r hr
      exact ⟨List.mem_append_right _ (List.mem_map_of_mem
        (List.mem_append_right _ List.mem_cons_self)), hempty⟩

theorem Inserts.historied (h : Inserts b g₀ g₁) (hg₀ : System.Reachable P g₀) :
    b.id ∈ g₁.servers.usedBoards ∧ Historied P b.id g₁.servers := by
  obtain ⟨hused, hempty⟩ := h.versionsOf hg₀
  refine ⟨hused, ?_, fun m _ h0 => ?_⟩
  · rw [hempty]
    rfl
  · rw [hempty]
    exact h0

/-! ### A reader that polls -/

/-- The number of the last version a reader has. -/
def lastSeen (seen : List Version) : ℤ := (seen.getLast?.map Version.versionNumber).getD 0

/-- What `versions::since` answers in a state of the servers. -/
def since (env : Supply) (s : Server) (boardId : Uuid) (after : ℤ) (limit : ℕ) :
    Except Error (List Version) :=
  ((Versions.since boardId after limit).run (serve env) { server := s }).1

/-- A reader of a board, while requests run: it starts with nothing, and each poll asks for the
versions after the last one it has. -/
inductive Polling (P : Policy) (env : Supply) (boardId : Uuid) (g₀ : System faulty) :
    System faulty → List Version → Prop
  | start : Polling P env boardId g₀ g₀ []
  | run {g g' : System faulty} {seen : List Version} (h : Polling P env boardId g₀ g seen)
      (hrun : System.Steps P g g') : Polling P env boardId g₀ g' seen
  | poll {g : System faulty} {seen page : List Version} {limit : ℕ}
      (h : Polling P env boardId g₀ g seen) (hlimit : 1 ≤ limit)
      (hpage : since env g.servers boardId (lastSeen seen) limit = .ok page) :
      Polling P env boardId g₀ g (seen ++ page)

/-- **A poll returns the next versions**, for a reader that has the first ones. -/
theorem GapFree.since {env : Supply} {s : Server} {boardId : Uuid} {seen : List Version}
    (h : GapFree (s.db.versionsOf boardId)) (hseen : seen <+: s.db.versionsOf boardId)
    (limit : ℕ) : since env s boardId (lastSeen seen) limit =
      .ok (((s.db.versionsOf boardId).drop seen.length).take limit) := by
  have hlast : lastSeen seen = (seen.length : ℤ) := by
    rcases List.eq_nil_or_concat' seen with rfl | ⟨init, v, rfl⟩
    · rfl
    · obtain ⟨rest, hrest⟩ := hseen
      have hi : init.length < (s.db.versionsOf boardId).length := by
        rw [← hrest]
        simp
      have hv : (s.db.versionsOf boardId)[init.length] = v := by
        simp [← hrest]
      simp only [lastSeen, List.getLast?_concat, Option.map_some, Option.getD_some,
        List.length_append, List.length_singleton]
      rw [← hv, h.number hi]
      push_cast
      rfl
  have hfilter := h.filter hseen.length_le
  rw [← hlast] at hfilter
  have hrun := @run_sql env (.selectVersionsSince boardId (lastSeen seen) limit)
    { server := s }
  refine (congrArg Prod.fst hrun).trans ?_
  simp only [serveSql, exec, World.view, Session.view_none, h.sorted, hfilter]
  rfl

theorem Polling.steps {env : Supply} {id : Uuid} {seen : List Version}
    (h : Polling P env id g₁ g seen) : System.Steps P g₁ g := by
  induction h with
  | start => exact .refl
  | run _ hrun ih => exact ih.trans hrun
  | poll _ _ _ ih => exact ih

/-- **A reader has the first versions of the history**, each once and in order. -/
theorem Polling.isPrefix {env : Supply} {id : Uuid} {seen : List Version}
    (h : Polling P env id g₁ g seen) (hg₁ : System.Reachable P g₁)
    (hused : id ∈ g₁.servers.usedBoards) (h₁ : Historied P id g₁.servers)
    (hboard : ∃ r ∈ g.servers.db.boards, r.id = id) : seen <+: g.servers.db.versionsOf id := by
  induction h with
  | start => exact List.nil_prefix
  | @run g g' seen hpolling hrun ih =>
    have hg : System.Reachable P g := hg₁.trans hpolling.steps
    have hused' := (hg₁.rely hpolling.steps).board_used _ hused
    have hold := hg.board_before hrun hused' hboard
    have hhist := (history_run hg₁ hpolling.steps hused hold h₁).1
    exact (ih hold).trans (history_run hg hrun hused' hboard hhist).2
  | @poll g seen page limit hpolling _ hpage ih =>
    have hpre := ih hboard
    have hhist := (history_run hg₁ hpolling.steps hused hboard h₁).1
    rw [hhist.gapFree.since hpre] at hpage
    obtain rfl := Except.ok.inj hpage
    obtain ⟨rest, hrest⟩ := hpre
    rw [← hrest, List.drop_left]
    exact (List.prefix_append_right_inj _).mpr (List.take_prefix _ _)

/-- **Gap-free version history.** Take a board that `boards::create` made, any run from there
(other requests interleaved in any way, failing or not), and any continuation of it that keeps
the board. The committed versions are numbered `1, …, n`; what is visible stays, with the same
rows under the same numbers; one step makes the number `n + 1` visible or none; a limit that
every request passed holds; and a reader that polls has the first versions of the history, each
once and in order, and gets the next ones with its next poll. -/
theorem gap_free_history (hg₀ : System.Reachable P g₀) (hcreate : Inserts b g₀ g₁)
    (hrun : System.Steps P g₁ g) (hlater : System.Steps P g g')
    (hboard : ∃ r ∈ g'.servers.db.boards, r.id = b.id) :
    ((g.servers.db.versionsOf b.id).map Version.versionNumber =
      (List.range' 1 (g.servers.db.versionsOf b.id).length).map fun n : ℕ => (n : ℤ)) ∧
    g.servers.db.versionsOf b.id <+: g'.servers.db.versionsOf b.id ∧
    (System.Step P g g' → ∀ v ∈ g'.servers.db.versionsOf b.id,
      v ∈ g.servers.db.versionsOf b.id ∨
        v.versionNumber = ((g.servers.db.versionsOf b.id).length : ℤ) + 1) ∧
    (∀ max, P.maxVersions = some max → 0 ≤ max →
      ((g.servers.db.versionsOf b.id).length : ℤ) ≤ max) ∧
    ∀ env seen, Polling P env b.id g₁ g seen → seen <+: g.servers.db.versionsOf b.id ∧
      ∀ limit, since env g.servers b.id (lastSeen seen) limit =
        .ok (((g.servers.db.versionsOf b.id).drop seen.length).take limit) := by
  have hg₁ : System.Reachable P g₁ := hg₀.tail hcreate.step
  have hg : System.Reachable P g := hg₁.trans hrun
  -- The board starts without versions, and every step keeps its history numbered from 1.
  obtain ⟨hused₁, h₁⟩ := hcreate.historied hg₀
  have hused := (hg₁.rely hrun).board_used _ hused₁
  have hold := hg.board_before hlater hused hboard
  have h := (history_run hg₁ hrun hused₁ hold h₁).1
  refine ⟨h.gapFree, (history_run hg hlater hused hboard h).2, fun hstep v hv => ?_, h.limit,
    fun env seen hpolling => ?_⟩
  · rcases (history_step hg hstep hused hboard h).2 with heq | ⟨w, hnumber, heq⟩
    · exact .inl (heq ▸ hv)
    · rw [heq] at hv
      rcases List.mem_append.mp hv with hv | hv
      · exact .inl hv
      · exact .inr (List.mem_singleton.mp hv ▸ hnumber)
  · have hpre := hpolling.isPrefix hg₁ hused₁ h₁ hold
    exact ⟨hpre, h.gapFree.since hpre⟩

/-- The creation of an ordered board. -/
def orderedBoard : CreateBoard := { slug := "b", name := "B", boardType := "ordered" }

/-- A version with one placement, within a limit of two versions. -/
def limitedVersion : Request :=
  .createVersion { maxVersions := some 2 } "b" { placements := [{ entrySlug := "e" }] }

theorem limitedVersion_respects : limitedVersion.Respects { maxVersions := some 2 } :=
  fun _ hm => hm

/-- A run that creates the board, in one step. -/
theorem exists_inserts (P : Policy) (hnew : (Request.createBoard orderedBoard).Respects P) :
    ∃ (g₀ g₁ : System False) (b : Board), System.Reachable P g₀ ∧ Inserts b g₀ g₁ ∧ b.id = 1 ∧
      g₁.servers = (serve counting (.sql (.insertBoard orderedBoard)) {}).2.server ∧
      ∀ u, g₁.thread u = if u = 0 then some ⟨none, .ret ()⟩ else none := by
  let g₀ : System False :=
    (System.initial False .codePoint).setThread 0
      (some ⟨none, (Boards.create orderedBoard).discard⟩)
  have hg₀ : System.Reachable P g₀ :=
    (System.Reachable.initial _).tail (.call _ 0 _ ⟨.createBoard orderedBoard, hnew, rfl⟩ rfl)
  obtain ⟨b, hb⟩ : ∃ b, (serve counting (.sql (.insertBoard orderedBoard)) {}).1 = .ok b := ⟨_, rfl⟩
  have hid : b.id = 1 := by cases hb; rfl
  obtain ⟨-, L, -, hexec⟩ := (serve_implements P False).exec 0
    (.sql (.insertBoard orderedBoard)) {} (atRest_initial counting False).supplied
    (System.serverInv_empty _) fun _ hmem => absurd hmem List.not_mem_nil
  rw [hb] at hexec
  have hothers : ∀ u, u ≠ 0 → g₀.thread u = none := fun u hu => Function.update_of_ne hu _ _
  refine ⟨g₀, _, b, hg₀, .mk g₀ 0 orderedBoard (fun _ => .ret ()) L _ rfl
    (fun u th hu hth => absurd ((hothers u hu).symm.trans hth) (by simp)) hexec, hid, rfl, ?_⟩
  intro u
  by_cases hu : u = 0
  · subst hu
    rfl
  · rw [if_neg hu]
    exact (Function.update_of_ne hu _ _).trans (hothers u hu)

set_option maxRecDepth 10000 in
/-- A run with two versions before and after a request that the limit refuses. -/
theorem gap_free_history_run : ∃ (g₀ g₁ g g' : System False) (b : Board), Inserts b g₀ g₁ ∧
    System.Steps { maxVersions := some 2 } g₁ g ∧ System.Steps { maxVersions := some 2 } g g' ∧
    (g.servers.db.versionsOf b.id).map Version.versionNumber = [1] ∧
    (g'.servers.db.versionsOf b.id).map Version.versionNumber = [1, 2] ∧
    g.servers.db.versionsOf b.id <+: g'.servers.db.versionsOf b.id ∧
    ∀ max, some 2 = some max → 0 ≤ max → ((g.servers.db.versionsOf b.id).length : ℤ) ≤ max := by
  let P : Policy := { maxVersions := some 2 }
  obtain ⟨g₀, g₁, b, hg₀, hcreate, hid, hservers, hthreads⟩ := exists_inserts P fun _ => trivial
  have hg₁ : System.Reachable P g₁ := hg₀.tail hcreate.step
  have hrest : AtRest counting (serve counting (.sql (.insertBoard orderedBoard)) {}).2 g₁ := by
    have hself : ∀ u th, g₁.thread u = some th → th = ⟨none, .ret ()⟩ := by
      intro u th hu
      rw [hthreads u] at hu
      split at hu
      · exact (Option.some.inj hu).symm
      · cases hu
    obtain ⟨hsupplied, -⟩ := (serve_implements P False).exec 0
      (.sql (.insertBoard orderedBoard)) {} (atRest_initial counting False).supplied
      (System.serverInv_empty _) fun _ hmem => absurd hmem List.not_mem_nil
    refine ⟨hservers, rfl, hsupplied, fun u th hu => ?_, fun u th hu => ?_, 1, fun u hu => ?_⟩
    · rw [hself u th hu]
    · rw [hself u th hu]
      simp
    · rw [hthreads u, if_neg (Nat.ne_of_gt hu)]
  -- The requests that follow.
  obtain ⟨g, hrun, hrest'⟩ := hrest.serveAll
    [.createEntry "b" { slug := "e", name := "E" }, limitedVersion]
    (by simpa [P] using ⟨trivial, limitedVersion_respects⟩) hg₁
  obtain ⟨g', hlater, hrest''⟩ := hrest'.serveAll [limitedVersion, limitedVersion]
    (by simp [P, limitedVersion_respects]) (hg₁.trans hrun)
  have hboard : ∃ r ∈ g'.servers.db.boards, r.id = b.id := by
    rw [hrest''.servers, hid]
    decide
  obtain ⟨-, hpre, -, hlimit, -⟩ := gap_free_history hg₀ hcreate hrun hlater hboard
  refine ⟨g₀, g₁, g, g', b, hcreate, hrun, hlater, ?_, ?_, hpre, hlimit⟩
  · rw [hrest'.servers, hid]
    decide
  · rw [hrest''.servers, hid]
    decide

end Leaderboards
