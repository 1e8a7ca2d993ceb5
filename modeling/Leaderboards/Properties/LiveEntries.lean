import Leaderboards.Properties.FreshBoard
import Leaderboards.Transactions.Holding

/-!
# Live scores and entry rows

The live scores of a realtime board are in Redis, its entries in PostgreSQL, and no transaction
spans the two. `realtime::submit` stores the entry row before it adds the score, and no request
puts a score anywhere else (`Transactions/LiveScores.lean`), so a name in a working set has an
entry row for as long as no row is removed under it. `entries::delete` looks for placements only,
and may remove the row of a live name (`live_scores_have_entries_fails`), also of one that a
snapshot has already taken out of the working set. In every run that spares these rows the live
names have entries, and all snapshots find theirs (`live_scores_have_entries`).
-/

namespace Leaderboards

open Interaction Realtime

variable {keyPrefix : String} {faulty : Prop}

/-! ### Runs that spare the rows of live names -/

/-- How far the snapshot in a thread has come. -/
def Phase.of (keyPrefix : String) (t : Tid) (es : List (Event Service Request)) : Phase :=
  (Machine.answersSince t es).foldl (fun p x => p.next keyPrefix x.1 x.2) .start

namespace System

/-- A snapshot of the board is under way and holds the name. -/
def Holds (keyPrefix : String) (es : List (Event Service Request)) (who : Tid → Option Request)
    (g : System faulty) (boardId : Uuid) (name : String) : Prop :=
  ∃ t th caller slug input, who t = some (.snapshot caller slug input) ∧ g.thread t = some th ∧
    (Phase.of keyPrefix t es).Holds g.servers.redis boardId name

/-- A step removes no entry row of a board that stays while its name is live or held by a snapshot,
and it creates no board with a slug under which names are live. -/
structure SparesEntries (keyPrefix : String) (es : List (Event Service Request))
    (who : Tid → Option Request) (g g' : System faulty) : Prop where
  kept : ∀ b ∈ g'.servers.db.boards, ∀ e ∈ g.servers.db.entries, e.boardId = b.id →
    (∀ e' ∈ g'.servers.db.entries, e'.id ≠ e.id) →
      ¬Live keyPrefix g b.slug e.slug ∧ ¬Holds keyPrefix es who g b.id e.slug
  created : ∀ b ∈ g'.servers.db.boards, (∀ b' ∈ g.servers.db.boards, b'.id ≠ b.id) →
    ∀ name, ¬Live keyPrefix g b.slug name

/-- The runs under the key prefix whose steps spare the rows of live and held names, with their
events. -/
abbrev SparingTrace (keyPrefix : String) (g₀ : System faulty) :
    List (Event Service Request) → (Tid → Option Request) → System faulty → Prop :=
  Machine.TraceWhere Request.handler (Request.At keyPrefix) (SparesEntries keyPrefix) g₀

variable {collation : Collation} {g g' : System faulty} {es : List (Event Service Request)}
  {who who' : Tid → Option Request} {x : Event Service Request}

theorem SparingTrace.at (h : SparingTrace keyPrefix (initial faulty collation) es who g) :
    At keyPrefix g := at_initial.run h.trace.run

theorem SparingTrace.moves (h : SparingTrace keyPrefix (initial faulty collation) es who g) :
    Machine.AllUse Cmd.Moves g := by
  refine (Machine.allUse_quiet _ _).run (fun p hp => ?_) h.trace.run
  obtain ⟨r, -, rfl⟩ := hp
  exact r.moves

/-- A board that is not new was there before, with its slug. -/
theorem At.board_before (h : At keyPrefix g) (hstep : StepAt keyPrefix g g') {b : Board}
    (hb : b ∈ g'.servers.db.boards) (hused : b.id ∈ g.servers.usedBoards) :
    ∃ r ∈ g.servers.db.boards, r.id = b.id ∧ r.slug = b.slug := by
  obtain ⟨r, hr, hid, hslug, -⟩ := (h.rely hstep).board_reused b hb hused
  exact ⟨r, hr, hid, hslug⟩

/-- An entry row that a step does not remove stays with its board and slug. -/
theorem At.entry_after (h : At keyPrefix g) (hstep : StepAt keyPrefix g g') {boardId : Uuid}
    {e : Entry} (he : e ∈ g.servers.db.entriesOf boardId)
    (hkept : ¬∀ e' ∈ g'.servers.db.entries, e'.id ≠ e.id) :
    ∃ e' ∈ g'.servers.db.entriesOf boardId, e'.slug = e.slug := by
  have hinv := h.reachable.inv
  obtain ⟨hmem, hboard⟩ := Database.mem_entriesOf.mp he
  push Not at hkept
  obtain ⟨e', he', hid⟩ := hkept
  obtain ⟨r, hr, hrid, hrboard, hrslug⟩ :=
    (h.rely hstep).entry_reused e' he' (hid ▸ hinv.entry_used e hmem)
  obtain rfl : r = e := hinv.schema.entry_inj hr hmem (hrid.trans hid)
  exact ⟨e', Database.mem_entriesOf.mpr ⟨he', hrboard.symm.trans hboard⟩, hrslug.symm⟩

/-! ### Live names -/

/-- Every live name has an entry on the board of its slug. -/
def LiveFound (keyPrefix : String) (g : System faulty) : Prop :=
  ∀ b ∈ g.servers.db.boards, ∀ name, Live keyPrefix g b.slug name →
    ∃ e ∈ g.servers.db.entriesOf b.id, e.slug = name

/-- A name that was live has an entry after the step. -/
theorem LiveFound.of_live (hfound : LiveFound keyPrefix g) (h : At keyPrefix g)
    (hstep : StepAt keyPrefix g g') (hspares : SparesEntries keyPrefix es who g g') {b : Board}
    {name : String} (hb : b ∈ g'.servers.db.boards) (hlive : Live keyPrefix g b.slug name) :
    ∃ e ∈ g'.servers.db.entriesOf b.id, e.slug = name := by
  by_cases hnew : ∀ b' ∈ g.servers.db.boards, b'.id ≠ b.id
  · exact absurd hlive (hspares.created b hb hnew name)
  · push Not at hnew
    obtain ⟨b', hb', hid⟩ := hnew
    obtain ⟨r, hr, hrid, hslug⟩ :=
      h.board_before hstep hb (hid ▸ h.reachable.inv.board_used b' hb')
    obtain ⟨e, he, rfl⟩ := hfound r hr name (hslug ▸ hlive)
    rw [hrid] at he
    have hboard := (Database.mem_entriesOf.mp he)
    exact h.entry_after hstep he fun hremoved =>
      (hspares.kept b hb e hboard.1 hboard.2 hremoved).1 hlive

/-- **One step keeps the invariant.** -/
theorem LiveFound.step (hfound : LiveFound keyPrefix g) (h : At keyPrefix g)
    (hstep : StepAt keyPrefix g g') (hspares : SparesEntries keyPrefix es who g g') :
    LiveFound keyPrefix g' := by
  intro b hb name hlive
  rcases h.live_of_step hstep hlive with hold | ⟨b', hb', hslug, -, -, e, he, hboard, hname⟩
  · exact hfound.of_live h hstep hspares hb hold
  · have hschema := (h.step hstep).reachable.inv.schema
    obtain rfl : b' = b := hschema.board_slug_inj hb' hb hslug
    exact ⟨e, Database.mem_entriesOf.mpr ⟨he, hboard⟩, hname⟩

/-- Every live name has an entry, in every state of the run. -/
theorem SparingTrace.liveFound (h : SparingTrace keyPrefix (initial faulty collation) es who g) :
    LiveFound keyPrefix g := by
  induction h with
  | start => exact fun b _ name hlive => absurd hlive (not_live_initial b.slug name)
  | step h hx hspares ih => exact ih.step (SparingTrace.at h) hx.step hspares

theorem SparingTrace.liveInv (h : SparingTrace keyPrefix (initial faulty collation) es who g) :
    LiveInv keyPrefix g.servers where
  inv := (SparingTrace.at h).reachable.inv
  live b hb _ name hhas := h.liveFound b hb name (.inl hhas)

/-! ### Snapshots under way -/

/-- A board that a transaction has locked stays. -/
theorem LocksBoard.stable {h : Session} {s s' : Server} {id : Uuid} (hl : LocksBoard h s id)
    (hrely : Rely h.locks s s') : LocksBoard h s' id where
  held := hl.held
  row := (hrely.agree.board_key id (hl.held.weaken rfl)).mp hl.row

theorem Stage.Fits.stable {stage : Stage} {h : Session} {s s' : Server} {id : Uuid}
    (hf : stage.Fits h s id) (hrely : Rely h.locks s s') : stage.Fits h s' id := by
  cases stage with
  | chosen => exact hf
  | begun => exact hf
  | locked => exact ⟨hf.1, LocksBoard.stable hf.2 hrely⟩

/-- Names that a snapshot holds have entries after the step of another thread. -/
theorem At.held_after (h : At keyPrefix g) (hstep : StepAt keyPrefix g g')
    (hspares : SparesEntries keyPrefix es who g g') {boardId : Uuid} {name : String}
    (hfound : g.servers.HasEntries boardId (· = name)) (hused : boardId ∈ g.servers.usedBoards)
    (hholds : Holds keyPrefix es who g boardId name) :
    g'.servers.HasEntries boardId (· = name) := by
  rintro ⟨b, hb, rfl⟩ n rfl
  obtain ⟨r, hr, hrid, -⟩ := h.board_before hstep hb hused
  obtain ⟨e, he, rfl⟩ := hfound ⟨r, hr, hrid⟩ n rfl
  obtain ⟨hmem, hboard⟩ := Database.mem_entriesOf.mp he
  exact h.entry_after hstep he fun hremoved =>
    (hspares.kept b hb e hmem hboard hremoved).2 hholds

/-- **What a snapshot knows stays so** in the steps of the others. -/
theorem SparingTrace.knows_others
    (htrace : SparingTrace keyPrefix (initial faulty collation) es who g)
    (hx : Machine.Happens Request.handler (Request.At keyPrefix) who g x who' g')
    (hspares : SparesEntries keyPrefix es who g g') (hinv : LiveInv keyPrefix g'.servers) {t : Tid}
    {th : (server faulty).Thread Error} (hne : x.thread ≠ t) {caller : Caller} {slug : String}
    {input : SnapshotInput} (hwho : who t = some (.snapshot caller slug input))
    (ht : g.thread t = some th)
    (hknows : (Phase.of keyPrefix t es).Knows keyPrefix th.session g.servers) :
    (Phase.of keyPrefix t es).Knows keyPrefix th.session g'.servers := by
  have hat := htrace.at
  have hstep : StepAt keyPrefix g g' := hx.step
  have hrely : Rely th.session.locks g.servers g'.servers := hx.rely hat.reachable.good hne ht
  have hheld : ∀ {p : Phase}, p = Phase.of keyPrefix t es → ∀ boardId name,
      p.Holds g.servers.redis boardId name → Holds keyPrefix es who g boardId name :=
    fun hp boardId name hholds => ⟨t, th, caller, slug, input, hwho, ht, hp ▸ hholds⟩
  -- The names that the snapshot holds are held in the sense of the condition, so their rows stay.
  generalize hp : Phase.of keyPrefix t es = p at hknows ⊢
  cases p with
  | start => exact hknows
  | isolating b => exact ⟨hknows.1, hknows.2.stable hrely⟩
  | done => trivial
  | lookingUp b names =>
    obtain ⟨hopened, hview, hlocks, hfound⟩ : LooksUp b names th.session g.servers := hknows
    refine ⟨hopened, hview, LocksBoard.stable hlocks hrely, fun hrow name hname => ?_⟩
    obtain ⟨r, hr, hid⟩ := hlocks.row
    refine hat.held_after hstep hspares (fun hrow name' hname' => ?_)
      (hid ▸ hat.reachable.inv.board_used r hr) (hheld hp.symm b.id name ⟨rfl, hname⟩) hrow name rfl
    exact hfound hrow name' (hname' ▸ hname)
  | reading stage b key =>
    obtain ⟨hknown, hscores, hfits, hfound⟩ :
        ReadsScores keyPrefix stage b key th.session g.servers :=
      hknows
    have hknown' := hknown.stable hrely
    refine ⟨hknown', hscores, Stage.Fits.stable hfits hrely, fun hrow name hhas => ?_⟩
    obtain ⟨r, hr, hid⟩ := hrow
    obtain ⟨-, hslug, -⟩ := hknown'.same r hr hid
    -- It reads the live scores themselves, or the key that it renamed them to, which nobody else
    -- fills but by renaming live scores.
    rcases hscores with rfl | ⟨snapId, rfl⟩
    · rw [hslug] at hhas
      exact hid ▸ hinv.live r hr ⟨r, hr, rfl⟩ name hhas
    · rcases hat.has_snapKey_of_step htrace.moves hstep hhas with hold | hlive
      · refine hat.held_after hstep hspares (fun hrow name' hname' => ?_) hknown.used
          (hheld hp.symm b.id name ⟨rfl, hold⟩) ⟨r, hr, hid⟩ name rfl
        exact hfound hrow name' (hname' ▸ hold)
      · rw [hslug] at hlive
        exact hid ▸ htrace.liveFound.of_live hat hstep hspares hr hlive

end System

/-! ### All runs -/

/-- **Live scores have an entry row**, in every state of a run that spares the rows of live and held
names: every name in the working set of a board is the slug of an entry of that board. And no
snapshot of the run, whatever happens meanwhile, misses the entry of a score. -/
theorem live_scores_have_entries {collation : Collation} {g : System faulty}
    {es : List (Event Service Request)} {who : Tid → Option Request}
    (hg : System.SparingTrace keyPrefix (System.initial faulty collation) es who g) :
    (∀ b ∈ g.servers.db.boards, ∀ name, g.servers.redis.Has (scoresKey keyPrefix b.slug) name →
      ∃ e ∈ g.servers.db.entriesOf b.id, e.slug = name) ∧
    ∀ t th caller slug input, who t = some (.snapshot caller slug input) → g.thread t = some th →
      ∀ name : String, th.rest ≠
        .fail (.internal s!"entry '{name}' exists in Redis but not in Postgres") := by
  refine ⟨fun b hb name hhas => hg.liveFound b hb name (.inl hhas), ?_⟩
  intro t th caller slug input hwho ht name hrest
  have hkeeps := Outline.outlined (holding keyPrefix faulty) (LiveInv keyPrefix)
    (fun r => ∃ caller slug input, r = .snapshot caller slug input) .start
    (fun x _ => FindsEntries x) (fun h => System.SparingTrace.liveInv h) (fun _ _ => rfl)
    (fun r hr hsnapshot t => ?_) (fun h hx hspares hinv t r th hne hwho hsnapshot ht hknows => ?_)
    hg t _ th hwho ⟨caller, slug, input, rfl⟩ ht
  · obtain ⟨-, hfinds⟩ := hkeeps
    rw [hrest] at hfinds
    exact hfinds name rfl
  · obtain ⟨caller, slug, input, rfl⟩ := hsnapshot
    obtain rfl : caller.keyPrefix = keyPrefix := hr caller rfl
    exact keeps_snapshot caller slug input
  · obtain ⟨caller, slug, input, rfl⟩ := hsnapshot
    exact System.SparingTrace.knows_others h hx hspares hinv hne hwho ht hknows

/-! ### Two histories -/

theorem Phase.holds_reading {redis : Redis} {boardId : Uuid} {name : String} {stage : Stage}
    {b : Board} {key : String} : (Phase.reading stage b key).Holds redis boardId name ↔
      b.id = boardId ∧ name ∈ (redis.members key).map Prod.fst := by
  simp [Phase.Holds, Redis.Has]

instance (redis : Redis) (boardId : Uuid) (name : String) :
    (p : Phase) → Decidable (p.Holds redis boardId name)
  | .reading _ _ _ => decidable_of_iff _ Phase.holds_reading.symm
  | .lookingUp b names => inferInstanceAs (Decidable (b.id = boardId ∧ name ∈ names))
  | .start => isFalse id
  | .isolating _ => isFalse id
  | .done => isFalse id

/-- The thread is a snapshot that has answered. -/
def Clients.snapshotted (t : Tid) (c : Clients) : Bool :=
  match c.who t with
  | some (.snapshot _ _ _) => c.answered t
  | _ => false

/-- The thread has failed with this message. -/
def Clients.failedWith (t : Tid) (message : String) (c : Clients) : Bool :=
  match c.threads[t]? with
  | some (_, .fail (.internal text)) => decide (text = message)
  | _ => false

/-- The name is not in the working set, and no handler is about to write to Redis. -/
def Clients.quietOn (slug name : String) (c : Clients) : Bool :=
  decide (name ∉ (c.server.redis.members (scoresKey "rl" slug)).map Prod.fst) &&
    c.threads.all fun th =>
      match th.2 with
      | .op (.redis _) _ => false
      | _ => true

/-- No snapshot of the board holds the name. -/
def Clients.unheld (boardId : Uuid) (name : String) (c : Clients) : Bool :=
  (List.range c.threads.length).all fun t =>
    !decide ((Phase.of "rl" t c.log).Holds c.server.redis boardId name)

/-- The step between the clients spares the rows of live and held names. -/
def Clients.spares (c c' : Clients) : Bool :=
  (c'.server.db.boards.all fun b => c.server.db.entries.all fun e =>
    !decide (e.boardId = b.id) || c'.server.db.entries.any (fun e' => decide (e'.id = e.id)) ||
      c.quietOn b.slug e.slug && c.unheld b.id e.slug) &&
  c'.server.db.boards.all fun b =>
    c.server.db.boards.any (fun b' => decide (b'.id = b.id)) || c.cleared b.slug

namespace System

variable {g g' : System faulty} {c c' : Clients} {slug name : String} {boardId : Uuid}

theorem snapshotted_of_check {t : Tid} (hshows : c.Shows g) (hcheck : c.snapshotted t = true) :
    ∃ caller slug input, c.who t = some (.snapshot caller slug input) ∧
      g.thread t = some ⟨none, .ret ()⟩ := by
  unfold Clients.snapshotted at hcheck
  split at hcheck
  · rename_i caller slug input hwho
    exact ⟨caller, slug, input, hwho, hshows.answered hcheck⟩
  · cases hcheck

theorem failed_of_check {t : Tid} {message : String} (hshows : c.Shows g)
    (hcheck : c.failedWith t message = true) :
    ∃ session, g.thread t = some ⟨session, .fail (.internal message)⟩ := by
  rw [hshows.thread t]
  unfold Clients.failedWith at hcheck
  split at hcheck
  · rename_i session text hth
    obtain rfl := of_decide_eq_true hcheck
    exact ⟨session, by rw [hth]; rfl⟩
  · cases hcheck

theorem not_live_of_quietOn (hshows : c.Shows g) (hcheck : c.quietOn slug name = true) :
    ¬Live "rl" g slug name := by
  rw [Clients.quietOn, Bool.and_eq_true, decide_eq_true_eq] at hcheck
  obtain ⟨hnot, hnext⟩ := hcheck
  rintro (⟨x, hx⟩ | ⟨t, th, ht, hadd⟩)
  · rw [hshows.servers] at hx
    exact hnot (List.mem_map_of_mem hx)
  · have hthread := List.all_eq_true.mp hnext _ (hshows.mem ht)
    obtain ⟨session, rest⟩ := th
    cases rest with
    | ret a => exact hadd
    | fail e => exact hadd
    | op cmd k =>
      cases cmd with
      | redis rc => cases hthread
      | _ => exact hadd

theorem not_holds_of_unheld (hshows : c.Shows g) (hcheck : c.unheld boardId name = true) :
    ¬Holds "rl" c.log c.who g boardId name := by
  rintro ⟨t, th, caller, slug, input, -, ht, hholds⟩
  have hlen : t < c.threads.length := by
    rw [hshows.thread t, Option.map_eq_some_iff] at ht
    obtain ⟨x, hx, -⟩ := ht
    exact (List.getElem?_eq_some_iff.mp hx).1
  have hphase := List.all_eq_true.mp hcheck t (List.mem_range.mpr hlen)
  rw [hshows.servers] at hholds
  simp [hholds] at hphase

theorem sparesEntries_of_check (hshows : c.Shows g) (hshows' : c'.Shows g')
    (hcheck : c.spares c' = true) : SparesEntries "rl" c.log c.who g g' := by
  rw [Clients.spares, Bool.and_eq_true, List.all_eq_true, List.all_eq_true] at hcheck
  obtain ⟨hkept, hcreated⟩ := hcheck
  rw [← hshows'.servers] at hkept hcreated
  rw [← hshows.servers] at hkept hcreated
  constructor
  · intro b hb e he hboard hremoved
    have hrow := List.all_eq_true.mp (hkept b hb) e he
    have hnone : g'.servers.db.entries.any (fun e' => decide (e'.id = e.id)) = false := by
      simpa using hremoved
    simp only [hboard, decide_true, Bool.not_true, Bool.false_or, hnone, Bool.and_eq_true] at hrow
    exact ⟨not_live_of_quietOn hshows hrow.1, not_holds_of_unheld hshows hrow.2⟩
  · intro b hb hnew
    have hrow := hcreated b hb
    have hnone : g.servers.db.boards.any (fun b' => decide (b'.id = b.id)) = false := by
      simpa using hnew
    rw [hnone, Bool.false_or] at hrow
    exact not_live_of_check hshows hrow

/-- **A schedule whose steps spare these rows** is a run for the theorem. -/
theorem sparingTrace_of_play {g₀ : System faulty}
    (h : c.Logs Clients.spares (Request.At "rl") g₀ g) : SparingTrace "rl" g₀ c.log c.who g := by
  refine Machine.TraceWhere.mono (fun _ _ hchecked => ?_) h
  obtain ⟨c, c', rfl, rfl, hshows, hshows', hcheck⟩ := hchecked
  exact sparesEntries_of_check hshows hshows' hcheck

end System

/-- The request that creates a board whose snapshots clear the scores. -/
def createClearing : Request := .createBoard
  { slug := "b", name := "B", boardType := "scored", accumulative := true, realtime := true
    clearOnSnapshot := true }

/-- A snapshot has renamed the working scores when another score arrives, and an entry without
scores is deleted. -/
def sparingSchedule : List Move :=
  [.call createClearing, .turns 0 9, .call (submitTo "e"), .turns 1 9,
    .call (.createEntry "b" { slug := "g", name := "G" }), .turns 2 9,
    .call (.snapshot {} "b" {}), .turns 3 5, .call (submitTo "f"), .turns 4 9,
    .call (.deleteEntry "b" "g"), .turns 5 9, .turns 3 20]

set_option maxRecDepth 20000 in
/-- **A run in which a row is removed and a score arrives while a snapshot is under way**: the name
that has arrived has its row, and the snapshot has found the others. -/
theorem live_scores_have_entries_run : ∃ (es : List (Event Service Request))
    (who : Tid → Option Request) (g : System False) (th : (server False).Thread Error),
    System.SparingTrace "rl" (System.initial False .codePoint) es who g ∧
      (∃ b ∈ g.servers.db.boards, g.servers.redis.Has (scoresKey "rl" b.slug) "f" ∧
        ∃ e ∈ g.servers.db.entriesOf b.id, e.slug = "f") ∧
      (∀ e ∈ g.servers.db.entries, e.slug ≠ "g") ∧
      (∃ caller slug input, who 3 = some (.snapshot caller slug input)) ∧ g.thread 3 = some th ∧
      ∀ name : String, th.rest ≠
        .fail (.internal s!"entry '{name}' exists in Redis but not in Postgres") := by
  -- The schedule is evaluated, with the condition checked at every step of it.
  obtain ⟨c, hc, hc'⟩ := (Option.any_eq_true _ _).mp
    (show (Clients.play counting Clients.spares sparingSchedule {}).any (fun c =>
      (c.server.db.boards.any fun b =>
        decide ((c.server.redis.members (scoresKey "rl" b.slug)).map Prod.fst = ["f"])) &&
      decide (c.server.db.entries.map Entry.slug = ["e", "f"]) && c.snapshotted 3) = true by decide)
  rw [Bool.and_eq_true, Bool.and_eq_true, decide_eq_true_eq, List.any_eq_true] at hc'
  obtain ⟨⟨⟨b, hb, hlive⟩, hentries⟩, hthread⟩ := hc'
  rw [decide_eq_true_eq] at hlive
  obtain ⟨g, -, hshows, hlogs⟩ := Clients.play_run (Request.At "rl") hc
    (by simp +contextual [sparingSchedule, Move.request?, Request.At, Request.caller?,
      createClearing, submitTo]) (Clients.shows_initial False)
  have htrace : System.SparingTrace "rl" (System.initial False .codePoint) c.log c.who g :=
    System.sparingTrace_of_play (hlogs _ .start)
  obtain ⟨hrows, hsnapshots⟩ := live_scores_have_entries htrace
  rw [← hshows.servers] at hb hlive hentries
  have hhas : g.servers.redis.Has (scoresKey "rl" b.slug) "f" := by
    obtain ⟨⟨name, x⟩, hx, rfl⟩ : ∃ x ∈ g.servers.redis.members (scoresKey "rl" b.slug),
        x.1 = "f" := List.mem_map.mp (hlive ▸ List.mem_singleton_self _)
    exact ⟨x, hx⟩
  obtain ⟨caller, slug, input, hwho, ht⟩ := System.snapshotted_of_check hshows hthread
  refine ⟨c.log, c.who, g, _, htrace, ⟨b, hb, hhas, hrows b hb "f" hhas⟩, fun e he hslug => ?_,
    ⟨caller, slug, input, hwho⟩, ht, hsnapshots 3 _ _ _ _ hwho ht⟩
  have hmem : "g" ∈ g.servers.db.entries.map Entry.slug := hslug ▸ List.mem_map_of_mem he
  rw [hentries] at hmem
  simp at hmem

/-- An entry without placements is deleted although it has a live score. -/
def deletedLive : List Move :=
  [.call createRealtime, .turns 0 9, .call (submitTo "e"), .turns 1 9, .call (submitTo "f"),
    .turns 2 9, .call (.deleteEntry "b" "e"), .turns 3 9, .call (.snapshot {} "b" {}), .turns 4 20]

set_option maxRecDepth 20000 in
/-- **An entry without placements is deleted although it has a live score**; the snapshot then
fails. -/
theorem live_scores_have_entries_fails : ∃ (es : List (Event Service Request))
    (who : Tid → Option Request) (g : System False) (b : Board) (session : Session),
    System.Trace (Request.At "rl") (System.initial False .codePoint) es who g ∧
      b ∈ g.servers.db.boards ∧ b.realtime = true ∧
      g.servers.redis.Has (scoresKey "rl" b.slug) "e" ∧
      (¬∃ e ∈ g.servers.db.entriesOf b.id, e.slug = "e") ∧
      g.thread 4 = some ⟨session,
        .fail (.internal "entry 'e' exists in Redis but not in Postgres")⟩ := by
  -- The schedule of the failing input is evaluated: no condition is checked here.
  obtain ⟨c, hc, hc'⟩ := (Option.any_eq_true _ _).mp
    (show (Clients.play counting (fun _ _ => true) deletedLive {}).any (fun c =>
      (c.server.db.boards.any fun b => b.realtime &&
        decide ((c.server.redis.members (scoresKey "rl" b.slug)).map Prod.fst = ["e", "f"]) &&
        decide ((c.server.db.entriesOf b.id).map Entry.slug = ["f"])) &&
      c.failedWith 4 "entry 'e' exists in Redis but not in Postgres") = true by decide)
  rw [Bool.and_eq_true, List.any_eq_true] at hc'
  obtain ⟨⟨b, hb, hrow⟩, hthread⟩ := hc'
  simp only [Bool.and_eq_true, decide_eq_true_eq] at hrow
  obtain ⟨⟨hrealtime, hlive⟩, hentries⟩ := hrow
  obtain ⟨g, -, hshows, hlogs⟩ := Clients.play_run (Request.At "rl") hc
    (by simp +contextual [deletedLive, Move.request?, Request.At, Request.caller?, createRealtime,
      submitTo]) (Clients.shows_initial False)
  have htrace := Clients.Logs.trace (hlogs _ .start)
  rw [← hshows.servers] at hb hlive hentries
  have hhas : g.servers.redis.Has (scoresKey "rl" b.slug) "e" := by
    obtain ⟨⟨name, x⟩, hx, rfl⟩ : ∃ x ∈ g.servers.redis.members (scoresKey "rl" b.slug),
        x.1 = "e" := List.mem_map.mp (hlive ▸ List.mem_cons_self)
    exact ⟨x, hx⟩
  obtain ⟨session, ht⟩ := System.failed_of_check hshows hthread
  refine ⟨c.log, c.who, g, b, session, htrace, hb, hrealtime, hhas, ?_, ht⟩
  rintro ⟨e, he, hslug⟩
  have hmem : "e" ∈ (g.servers.db.entriesOf b.id).map Entry.slug :=
    hslug ▸ List.mem_map_of_mem he
  rw [hentries] at hmem
  simp at hmem

end Leaderboards
