import Leaderboards.Properties.History
import Leaderboards.Properties.Pagination
import Leaderboards.Transactions.Committing
import Leaderboards.Transactions.Schedule

/-!
# The two version listings

`versions::list` orders by number and `versions::list_paginated` by time of creation. A number is
allocated under the board lock, but the time is that of the beginning of the transaction, before it
waits for the lock. The listings agree as long as the versions of the board are committed in the
order in which their transactions began (`version_listings_agree`); two transactions that overtake
each other make them differ (`version_listings_differ`).
-/

namespace Leaderboards

open Interaction Keyset Ranking

variable {P : Policy} {faulty : Prop}

/-- Whenever a transaction is about to commit a version of the board, it began later than the
transactions of all committed versions of the board. -/
def System.CommitsInOrder (boardId : Uuid) (g : System faulty) : Prop :=
  ∀ t tx k v, g.Publishes t tx k v → v.boardId = boardId →
    ∀ r ∈ g.servers.db.versionsOf boardId, r.createdAt < tx.now

/-- Versions that were created one after the other. -/
def Chronological (vs : List Version) : Prop :=
  vs.Pairwise fun v w => v.createdAt < w.createdAt

/-- A step from a state in which commits are in order keeps the versions chronological. -/
theorem chronological_step {g g' : System faulty} (hg : System.Reachable P g)
    (hstep : System.Step P g g') {id : Uuid} (horder : g.CommitsInOrder id)
    (hused : id ∈ g.servers.usedBoards) (hboard : ∃ r ∈ g'.servers.db.boards, r.id = id)
    (hhist : Historied P id g.servers) (h : Chronological (g.servers.db.versionsOf id)) :
    Chronological (g'.servers.db.versionsOf id) := by
  rcases (history_step hg hstep hused hboard hhist).2 with heq | ⟨v, hnumber, heq⟩
  · rwa [heq]
  · have hmem : v ∈ g'.servers.db.versionsOf id := by
      rw [heq]
      exact List.mem_append_right _ List.mem_cons_self
    obtain ⟨hv, hvid⟩ := Database.mem_versionsOf.mp hmem
    have hnew : v ∉ g.servers.db.versions := by
      intro hold
      -- The number of an old version is at most the length of the history.
      have hmem' : v ∈ g.servers.db.versionsOf id := Database.mem_versionsOf.mpr ⟨hold, hvid⟩
      obtain ⟨i, hi, hvi⟩ := List.mem_iff_getElem.mp hmem'
      have hplace := hhist.gapFree.number hi
      rw [hvi, hnumber] at hplace
      omega
    obtain ⟨t, tx, k, hpublishes, hstamp, -⟩ := hg.commit_of_new hstep hv hnew
    rw [heq, Chronological, List.pairwise_append]
    refine ⟨h, List.pairwise_singleton _ _, fun r hr w hw => ?_⟩
    obtain rfl := List.mem_singleton.mp hw
    rw [hstamp]
    exact horder t tx k w hpublishes hvid r hr

/-- One step, from a state in which commits are in order. -/
def System.OrderedStep (P : Policy) (boardId : Uuid) (g g' : System faulty) : Prop :=
  System.Step P g g' ∧ g.CommitsInOrder boardId

variable {g₀ g₁ g : System faulty} {b : Board} {id : Uuid}

theorem System.steps_of_ordered (hrun : Relation.ReflTransGen (System.OrderedStep P id) g₁ g) :
    System.Steps P g₁ g := hrun.lift _ fun _ _ hstep => hstep.1

/-- A run of such steps keeps the versions chronological. -/
theorem chronological_run (hg₁ : System.Reachable P g₁)
    (hrun : Relation.ReflTransGen (System.OrderedStep P id) g₁ g)
    (hused : id ∈ g₁.servers.usedBoards) (hboard : ∃ r ∈ g.servers.db.boards, r.id = id)
    (hhist : Historied P id g₁.servers) (h : Chronological (g₁.servers.db.versionsOf id)) :
    Chronological (g.servers.db.versionsOf id) := by
  induction hrun with
  | refl => exact h
  | @tail g₂ g₃ hrun hstep ih =>
    have hsteps := System.steps_of_ordered hrun
    have hg₂ : System.Reachable P g₂ := hg₁.trans hsteps
    have hused₂ := (hg₁.rely hsteps).board_used _ hused
    have hboard₂ := hg₂.board_before (.single hstep.1) hused₂ hboard
    have hhist₂ := (history_run hg₁ hsteps hused hboard₂ hhist).1
    exact chronological_step hg₂ hstep.1 hstep.2 hused₂ hboard hhist₂ (ih hboard₂)

/-! ### What the listings answer -/

/-- The listings agree: `versions::list` answers with the committed versions in strictly descending
order, and a client that reads the pages of `versions::list_paginated` receives them in that order,
all of them if it reads to the end. -/
structure ListingsAgree (s : Server) (boardId : Uuid) : Prop where
  agree : ∃ vs : List Version, vs.Perm (s.db.versionsOf boardId) ∧
    vs.Pairwise (fun v w => w.versionNumber < v.versionNumber) ∧
    (∀ env, respond env s (Versions.list boardId) = .ok vs) ∧
    ∀ fmt env xs, (∀ v ∈ vs, fmt.RoundTrips (v.createdAt, v.id)) →
      Follows env (Versions.listPaginated fmt boardId) none xs → (∀ x ∈ xs, x.server = s) →
      receivedRows xs <+: vs ∧ (ReadToEnd xs → receivedRows xs = vs)

/-- The key of `versions::list_paginated`. -/
abbrev newestFirst (v : Version) : OrderDual PageKey :=
  cursorKey OrderDual.toDual (v.createdAt, v.id)

theorem newestFirst_lt {v w : Version} (h : v.createdAt < w.createdAt) :
    newestFirst w < newestFirst v :=
  OrderDual.toDual_lt_toDual.mpr (Prod.Lex.toLex_lt_toLex.mpr (.inl h))

/-- A gap-free chronological history is the same in both orders. -/
theorem listingsAgree_of_chronological {s : Server} {boardId : Uuid} (hs : s.db.Schema)
    (hgap : GapFree (s.db.versionsOf boardId))
    (hchron : Chronological (s.db.versionsOf boardId)) : ListingsAgree s boardId := by
  have hperm := List.reverse_perm (s.db.versionsOf boardId)
  -- Both listings are the history backwards: by number, and by time of creation.
  have hnumbers : (s.db.versionsOf boardId).reverse.Pairwise
      fun v w => w.versionNumber < v.versionNumber := by
    refine List.pairwise_reverse.mpr (List.pairwise_iff_getElem.mpr fun i j hi hj hij => ?_)
    rw [hgap.number hi, hgap.number hj]
    omega
  have htimes : (s.db.versionsOf boardId).reverse.Pairwise
      fun v w => newestFirst v < newestFirst w :=
    List.pairwise_reverse.mpr (hchron.imp fun hlt => newestFirst_lt hlt)
  have hpages := eq_orderBy newestFirst hperm htimes
  refine ⟨(s.db.versionsOf boardId).reverse, hperm, hnumbers, fun env => ?_,
    fun fmt env xs hround hxs hsame => ?_⟩
  · have hlist := eq_orderBy (fun v => -v.versionNumber) hperm
      (hnumbers.imp fun hlt => Int.neg_lt_neg hlt)
    have hrun := @run_sql env (.selectVersions boardId) { server := s }
    refine (congrArg Prod.fst hrun).trans ?_
    simp only [serveSql, exec, World.view, Session.view_none, ← hlist]
    rfl
  · have hstored : ∀ x ∈ xs, Stored fmt (fun db => db.versionsOf boardId)
        (fun v => (v.createdAt, v.id)) x.server := fun x hx => by
      rw [hsame x hx]
      exact ⟨hs, fun v hv => hround v (List.mem_reverse.mpr hv)⟩
    have hanswers : Answers fmt (Versions.listPaginated fmt boardId)
        (fun db => db.versionsOf boardId) (fun v => (v.createdAt, v.id)) OrderDual.toDual :=
      versions_answers boardId
    obtain ⟨fs, hwalk, hreceived, hrows, hlimits, hfinished⟩ :=
      hxs.walk hanswers hstored (c := none) rfl
    have hrows' : ∀ f ∈ fs, f.rows = s.db.versionsOf boardId := fun f hf => by
      have hmem := List.mem_map_of_mem (f := Fetch.rows) hf
      rw [hrows] at hmem
      obtain ⟨x, hx, heq⟩ := List.mem_map.mp hmem
      rw [← heq, hsame x hx]
    have hnodup := hanswers.key_nodup hs
    have hall : following newestFirst (s.db.versionsOf boardId) none =
        (s.db.versionsOf boardId).reverse := by
      rw [hpages, following]
      simp
    obtain ⟨hpre, hend⟩ := hwalk.received_prefix hnodup hrows' hlimits
    rw [hreceived] at hpre hend
    exact ⟨hall ▸ hpre, fun h => (hend (hfinished h)).trans hall⟩

/-- **The two version listings agree** on every board that `boards::create` made, in every run in
which the versions of the board are committed in the order in which their transactions began. -/
theorem version_listings_agree (hg₀ : System.Reachable P g₀) (hcreate : Inserts b g₀ g₁)
    (hrun : Relation.ReflTransGen (System.OrderedStep P b.id) g₁ g) :
    ListingsAgree g.servers b.id := by
  have hg₁ : System.Reachable P g₁ := hg₀.tail hcreate.step
  have hsteps := System.steps_of_ordered hrun
  have hg : System.Reachable P g := hg₁.trans hsteps
  obtain ⟨hused, hhist⟩ := hcreate.historied hg₀
  by_cases hboard : ∃ r ∈ g.servers.db.boards, r.id = b.id
  · have hchron₁ : Chronological (g₁.servers.db.versionsOf b.id) := by
      rw [(hcreate.versionsOf hg₀).2]
      exact List.Pairwise.nil
    exact listingsAgree_of_chronological hg.inv.schema
      (history_run hg₁ hsteps hused hboard hhist).1.gapFree
      (chronological_run hg₁ hrun hused hboard hhist hchron₁)
  · -- A deleted board has no versions.
    have hempty : g.servers.db.versionsOf b.id = [] := by
      refine List.eq_nil_iff_forall_not_mem.mpr fun v hv => hboard ?_
      obtain ⟨hv, hvid⟩ := Database.mem_versionsOf.mp hv
      obtain ⟨r, hr, hrid⟩ := hg.inv.schema.version_board v hv
      exact ⟨r, hr, hrid.trans hvid⟩
    refine listingsAgree_of_chronological hg.inv.schema ?_ ?_
    · rw [hempty]
      rfl
    · rw [hempty]
      exact List.Pairwise.nil

/-! ### Two schedules -/

/-- The clients after the creation of the board. -/
def afterCreation : Clients where
  server := (serve counting (.sql (.insertBoard orderedBoard)) {}).2.server
  threads := [(none, .ret ())]
  tick := 1

theorem exists_afterCreation : ∃ (g₀ g₁ : System False) (b : Board),
    System.Reachable {} g₀ ∧ Inserts b g₀ g₁ ∧ b.id = 1 ∧ afterCreation.Shows g₁ := by
  obtain ⟨g₀, g₁, b, hg₀, hcreate, hid, hservers, hthreads⟩ := exists_inserts {} fun _ => trivial
  refine ⟨g₀, g₁, b, hg₀, hcreate, hid, hservers, fun u => ?_⟩
  rw [hthreads u]
  cases u <;> simp [afterCreation]

/-- Whether the commits of the clients are in order. -/
def Clients.commitsInOrder (boardId : Uuid) (g : Clients) : Bool :=
  g.threads.all fun th =>
    match th with
    | (some tx, .op Cmd.commit _) =>
      tx.writes.all fun w =>
        match w with
        | .addVersion v => !(v.boardId = boardId : Bool) ||
            (g.server.db.versionsOf boardId).all fun r => r.createdAt < tx.now
        | _ => true
    | _ => true

theorem Clients.Shows.commitsInOrder {c : Clients} (hshows : c.Shows g)
    (hcheck : c.commitsInOrder id = true) : g.CommitsInOrder id := by
  rintro t tx k v ⟨ht, hwrites⟩ rfl r hr
  have hthread := List.all_eq_true.mp hcheck _ (hshows.mem ht)
  have hwrite := List.all_eq_true.mp hthread _ hwrites
  simp only [decide_true, Bool.not_true, Bool.false_or, List.all_eq_true, decide_eq_true_eq]
    at hwrite
  rw [hshows.servers] at hr
  exact hwrite r hr

/-- The requests that follow the creation: an entry and two versions. -/
def twoVersions : List Move :=
  [.call (.createEntry "b" { slug := "e", name := "E" }), .turns 1 2, .call limitedVersion,
    .call limitedVersion]

set_option maxRecDepth 10000 in
/-- Two versions, one after the other. -/
theorem version_listings_agree_run : ∃ (g : System False) (id : Uuid),
    (g.servers.db.versionsOf id).map Version.versionNumber = [1, 2] ∧
      ListingsAgree g.servers id := by
  obtain ⟨g₀, g₁, b, hg₀, hcreate, hid, hshows⟩ := exists_afterCreation
  obtain ⟨c, hc⟩ := Option.isSome_iff_exists.mp
    (show (Clients.play counting (fun c _ => c.commitsInOrder 1)
      (twoVersions ++ [.turns 2 9, .turns 3 9]) afterCreation).isSome = true by decide)
  obtain ⟨g, hrun, hshows', -⟩ := Clients.play_run (fun r => r.Respects {}) hc
    (fun _ _ r _ => r.respects_default) hshows
  have hordered : Relation.ReflTransGen (System.OrderedStep {} b.id) g₁ g := by
    refine hrun.lift id fun s s' hstep => ?_
    obtain ⟨hstep, c, _, hc, -, hcheck⟩ := hstep
    exact ⟨hstep, hc.commitsInOrder (hid ▸ hcheck)⟩
  refine ⟨g, b.id, ?_, version_listings_agree hg₀ hcreate hordered⟩
  have hnumbers : ((Clients.play counting (fun c _ => c.commitsInOrder 1)
      (twoVersions ++ [.turns 2 9, .turns 3 9]) afterCreation).map fun c =>
        (c.server.db.versionsOf 1).map Version.versionNumber) = some [1, 2] := by decide
  rw [hc, Option.map_some] at hnumbers
  rw [hshows'.servers, hid]
  exact Option.some.inj hnumbers

/-- A page with the versions 1 and 2 in this order, after which no page follows. -/
def pageAscends : Except Error (PaginatedResponse Version) → Bool
  | .ok page => page.nextCursor.isNone && page.items.map Version.versionNumber = [1, 2]
  | .error _ => false

/-- Such a page is not the beginning of a descending list. -/
theorem not_listingsAgree {s : Server}
    (hpage : pageAscends (respond counting s (Versions.listPaginated strokes id {})) = true) :
    ¬ListingsAgree s id := by
  intro h
  obtain ⟨vs, -, hnumbers, -, hpages⟩ := h.agree
  rcases hresponse : respond counting s (Versions.listPaginated strokes id {}) with e | page
  · rw [hresponse] at hpage
    cases hpage
  · rw [hresponse] at hpage
    simp only [pageAscends, Bool.and_eq_true, Option.isNone_iff_eq_none, decide_eq_true_eq]
      at hpage
    obtain ⟨hnone, hascends⟩ := hpage
    have hfollows : Follows counting (Versions.listPaginated strokes id) none
        [{ server := s, limit := none, response := page }] := .last hresponse hnone
    have hread := (hpages strokes counting _ (fun _ _ => strokes_roundTrips _) hfollows
      (by simp)).1
    rw [receivedRows, List.flatMap_singleton] at hread
    have hdescends : (page.items.map Version.versionNumber).Pairwise (fun m n => n < m) :=
      List.pairwise_map.mpr (hnumbers.sublist hread.sublist)
    rw [hascends] at hdescends
    simp at hdescends

set_option maxRecDepth 10000 in
/-- The transaction that began first takes the board lock last: version 2 is older than version 1,
and the pages have it last. -/
theorem version_listings_differ : ∃ (g₀ g₁ g : System False) (b : Board),
    System.Reachable {} g₀ ∧ Inserts b g₀ g₁ ∧ System.Steps {} g₁ g ∧
      ¬ListingsAgree g.servers b.id := by
  obtain ⟨g₀, g₁, b, hg₀, hcreate, hid, hshows⟩ := exists_afterCreation
  have hplay : (Clients.play counting (fun _ _ => true)
      (twoVersions ++ [.turns 2 2, .turns 3 9, .turns 2 9]) afterCreation).any (fun c =>
        pageAscends (respond counting c.server (Versions.listPaginated strokes 1 {}))) = true := by
    decide
  obtain ⟨c, hc, hpage⟩ := (Option.any_eq_true _ _).mp hplay
  obtain ⟨g, hrun, hshows', -⟩ := Clients.play_run (fun r => r.Respects {}) hc
    (fun _ _ r _ => r.respects_default) hshows
  refine ⟨g₀, g₁, g, b, hg₀, hcreate, hrun.lift id fun _ _ hstep => hstep.1, ?_⟩
  rw [hshows'.servers, hid]
  exact not_listingsAgree hpage

end Leaderboards
