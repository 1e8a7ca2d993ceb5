import Leaderboards.Transactions.LiveScores
import Leaderboards.Transactions.Schedule
import Leaderboards.Transactions.Snapshot

/-!
# Boards created again under an old slug

The keys of live scores carry the slug of their board, and Redis does not know when the board row
goes. `routes::boards::delete` clears them first, when the row it has read is realtime. What is
not cleared, or is added between the two steps, is found by the next board of that slug
(`recreated_board_fresh_fails`). When every deletion removes the row at a time at which no name is
live under its slug, a new board starts with no live scores and keeps none until a submission
to it (`recreated_board_fresh`), also when submissions that read the old row are still under way.
-/

namespace Leaderboards

open Interaction Realtime

variable {keyPrefix : String} {faulty : Prop} {slug name : String} {env : Supply}

namespace System

variable {collation : Collation} {g g' : System faulty}

/-- A step that removes the row of a board of the slug leaves no live name behind. -/
def RemovesCleared (keyPrefix slug : String) (g g' : System faulty) : Prop :=
  ∀ b ∈ g.servers.db.boards, b.slug = slug → (∀ b' ∈ g'.servers.db.boards, b'.id ≠ b.id) →
    ∀ name, ¬Live keyPrefix g slug name

/-- The runs in which the boards of the slug are removed cleared. -/
abbrev ClearedRun (keyPrefix slug : String) : System faulty → System faulty → Prop :=
  Relation.ReflTransGen fun g g' => StepAt keyPrefix g g' ∧ RemovesCleared keyPrefix slug g g'

/-- The runs without a live submission to the board. -/
abbrev UnsubmittedRun (keyPrefix : String) (boardId : Uuid) :
    System faulty → System faulty → Prop :=
  Relation.ReflTransGen fun g g' => StepAt keyPrefix g g' ∧ ∀ name,
    ¬Submitting keyPrefix g boardId name

theorem ClearedRun.at (h : ClearedRun keyPrefix slug (initial faulty collation) g) :
    At keyPrefix g :=
  at_initial.run (h.lift id fun _ _ hstep => hstep.1)

/-- **One step keeps the invariant**: a live name belongs to a board. -/
theorem board_of_live_step (h : At keyPrefix g) (hstep : StepAt keyPrefix g g')
    (hcleared : RemovesCleared keyPrefix slug g g')
    (hboard : ∀ name, Live keyPrefix g slug name → ∃ b ∈ g.servers.db.boards, b.slug = slug)
    (hlive : Live keyPrefix g' slug name) : ∃ b ∈ g'.servers.db.boards, b.slug = slug := by
  rcases h.live_of_step hstep hlive with hold | ⟨b, hb, hslug, -⟩
  · obtain ⟨b, hb, hslug⟩ := hboard name hold
    have hkept : ∃ b' ∈ g'.servers.db.boards, b'.id = b.id := by
      by_contra hnone
      push Not at hnone
      exact hcleared b hb hslug hnone name hold
    obtain ⟨b', hb', hid⟩ := hkept
    have hkey := ((KnownBoard.of_mem h.reachable.inv hb).stable (h.rely hstep)).same b' hb' hid
    exact ⟨b', hb', hkey.2.1.symm.trans hslug⟩
  · exact ⟨b, hb, hslug⟩

/-- While no board has the slug, no name is live under it. -/
theorem ClearedRun.board_of_live (h : ClearedRun keyPrefix slug (initial faulty collation) g) :
    ∀ name, Live keyPrefix g slug name → ∃ b ∈ g.servers.db.boards, b.slug = slug := by
  induction h with
  | refl => exact fun name hlive => absurd hlive (not_live_initial slug name)
  | tail hrun hstep ih =>
    exact fun name hlive => board_of_live_step (ClearedRun.at hrun) hstep.1 hstep.2 ih hlive

/-- A board starts with no live scores. -/
theorem not_live_of_create (h : At keyPrefix g) (hstep : StepAt keyPrefix g g')
    (hnew : ∀ r ∈ g.servers.db.boards, r.slug ≠ slug) (hdead : ¬Live keyPrefix g slug name) :
    ¬Live keyPrefix g' slug name := by
  intro hlive
  rcases h.live_of_step hstep hlive with hold | ⟨b', hb', hslug, ⟨r, hr, hkey⟩, -⟩
  · exact hdead hold
  · -- A submission to the board would have read its row before.
    exact hnew r hr (hkey.2.1.trans hslug)

/-- A board keeps its slug. -/
theorem UnsubmittedRun.same_slug {b r : Board} {g₁ : System faulty}
    (h : UnsubmittedRun keyPrefix b.id g₁ g) (hat : At keyPrefix g₁)
    (hb : b ∈ g₁.servers.db.boards) (hr : r ∈ g.servers.db.boards) (hid : r.id = b.id) :
    r.slug = b.slug := by
  have hrely := hat.reachable.rely (h.lift id fun _ _ hstep => StepAt.step hstep.1)
  exact (((KnownBoard.of_mem hat.reachable.inv hb).stable hrely).same r hr hid).2.1.symm

/-- A board keeps no live scores without a submission to it. -/
theorem UnsubmittedRun.not_live {b r : Board} {g₁ : System faulty}
    (h : UnsubmittedRun keyPrefix b.id g₁ g) (hat : At keyPrefix g₁)
    (hb : b ∈ g₁.servers.db.boards) (hdead : ∀ name, ¬Live keyPrefix g₁ b.slug name)
    (hr : r ∈ g.servers.db.boards) (hid : r.id = b.id) :
    ∀ name, ¬Live keyPrefix g b.slug name := by
  induction h generalizing r with
  | refl => exact hdead
  | @tail g g' hrun hstep ih =>
    have hrun' : Machine.Run (Deployed keyPrefix) g₁ g := hrun.lift id fun _ _ h => h.1
    have hat' : At keyPrefix g := hat.run hrun'
    have hknown := (KnownBoard.of_mem hat.reachable.inv hb).stable
      (hat.reachable.rely (hrun'.lift id fun _ _ h => StepAt.step h))
    -- The row was there before the step, for its id was used.
    have hrely := hat'.rely hstep.1
    obtain ⟨r₀, hr₀, hkey⟩ := hrely.board_reused r hr (hid ▸ hknown.used)
    intro name hlive
    rcases hat'.live_of_step hstep.1 hlive with hold | ⟨b', hb', hslug, -, hsubmitting, -⟩
    · exact ih hr₀ (hkey.1.trans hid) name hold
    · have hsame := (hknown.stable hrely).same r hr hid
      have heq : b' = r := (hat'.step hstep.1).reachable.inv.schema.board_slug_inj hb' hr
        (hslug.trans hsame.2.1)
      rw [heq, hid] at hsubmitting
      exact hstep.2 name hsubmitting

end System

/-! ### Standings and snapshots without scores -/

theorem zrevrange_of_none {r : Redis} {key : String} (h : r key = none) :
    (execRedis (.zrevrange key) r).1 = .ok [] := by
  rw [execRedis, readZset, h]
  rfl

/-- The standings of a board without live scores are empty. -/
theorem latest_empty {b : Board} {s : Server}
    (hempty : s.redis (scoresKey keyPrefix b.slug) = none) :
    ∃ v, respond env s (Realtime.latest b keyPrefix) = .ok v ∧ v.placements = [] := by
  have hasc : (execRedis (.zrange (scoresKey keyPrefix b.slug)) s.redis).1 = .ok [] := by
    rw [execRedis, readZset, hempty]
  have hdesc := zrevrange_of_none hempty
  have hends : (Realtime.latest b keyPrefix).Ends env
      (fun r _ => ∃ v, r = .ok v ∧ v.placements = []) { server := s } := by
    unfold Realtime.latest
    dsimp only
    split
    · refine ends_redis (fun e _ he => ?_) fun l w hl _ => ?_
      · cases hasc.symm.trans he
      · obtain rfl := Except.ok.inj (hasc.symm.trans hl)
        exact ⟨_, rfl, rfl⟩
    · refine ends_redis (fun e _ he => ?_) fun l w hl _ => ?_
      · cases hdesc.symm.trans he
      · obtain rfl := Except.ok.inj (hdesc.symm.trans hl)
        exact ⟨_, rfl, rfl⟩
  exact hends

/-- The part inside the transaction. -/
private theorem ends_snapshotBody_empty {b : Board} {w : World} {key : String}
    {note : Option String} {metadata : Option Json} {maxVersions : Option ℤ}
    {maxEntries : Option ℕ} (hs : w.session.isSome = true) (hb : w.view.board? b.id = some b)
    (hempty : w.server.redis key = none)
    (hlimit : ∀ max ∈ maxVersions, ((w.view.versionsOf b.id).length : ℤ) < max) :
    (snapshotBody b.id key none note metadata maxVersions maxEntries).Ends env
      (fun r _ => r = .error noScores) w := by
  have hrow : ∀ u now, exec u now (.selectBoardForUpdate b.id) w.view = .ok (b, []) := by
    intro u now
    simp only [exec, hb]
  unfold snapshotBody
  refine ends_statement hs (fun e now w' he _ => ?_) fun now board ws w₁ hexec h₁ => ?_
  · cases (hrow _ _).symm.trans he
  obtain ⟨rfl, rfl⟩ := Prod.mk.inj (Except.ok.inj ((hrow _ _).symm.trans hexec))
  -- The limit on the versions lets it pass.
  have hpass : ∀ f : Unit → Action VersionWithPlacements,
      (∀ w₂, w₂.server = w.server → (f ()).Ends env (fun r _ => r = .error noScores) w₂) →
      (Realtime.checkVersionLimit b.id none maxVersions >>= f).Ends env
        (fun r _ => r = .error noScores) w₁ := by
    intro f hf
    cases maxVersions with
    | none => exact hf w₁ h₁.server
    | some max =>
      unfold Realtime.checkVersionLimit
      rw [bind_assoc]
      refine ends_query rfl h₁.session (fun e now w' he _ => by cases he)
        fun now count w₂ hcount h₂ => ?_
      obtain ⟨rfl, -⟩ := Prod.mk.inj (Except.ok.inj hcount)
      have hview : w₁.view = w.view := h₁.view
      have hlt := hlimit max rfl
      rw [hview, abortIf, if_neg (by omega)]
      exact hf w₂ (h₂.server.trans h₁.server)
  refine hpass _ fun w₂ hserver => ?_
  rw [← hserver] at hempty
  have hread := zrevrange_of_none hempty
  refine ends_redis (fun e w' he => ?_) fun l w₃ hl h₃ => ?_
  · cases hread.symm.trans he
  · obtain rfl := Except.ok.inj (hread.symm.trans hl)
    rfl

/-- A snapshot of a board without live scores reports that, unless the board has as many versions
as it may have. -/
theorem snapshot_empty {b : Board} {s : Server} (hb : s.db.board? b.id = some b)
    (hempty : s.redis (scoresKey keyPrefix b.slug) = none) {note : Option String}
    {metadata : Option Json} {maxVersions : Option ℤ} {maxEntries : Option ℕ}
    (hlimit : ∀ max ∈ maxVersions, ((s.db.versionsOf b.id).length : ℤ) < max) :
    respond env s (Realtime.snapshot b note metadata keyPrefix maxVersions maxEntries) =
      .error noScores := by
  have hends : (Realtime.snapshot b note metadata keyPrefix maxVersions maxEntries).Ends env
      (fun r _ => r = .error noScores) { server := s } := by
    unfold Realtime.snapshot isolate
    dsimp only
    split
    · -- The working key is not there.
      rw [bind_assoc]
      refine ends_newUuid fun snapId w₁ _ hdb₁ _ hredis₁ _ => ?_
      rw [bind_assoc]
      refine ends_redis (fun e w' he => ?_) fun scoresExist w₂ hexist h₂ => ?_
      · cases he
      · rw [hredis₁] at hexist
        obtain rfl : (s.redis (scoresKey keyPrefix b.slug)).isSome = scoresExist :=
          Except.ok.inj hexist
        rw [hempty]
        rfl
    · rw [pure_bind]
      refine Prog.ends_bind (ends_transaction fun w h => ?_)
      refine (ends_snapshotBody_empty h.session ?_ ?_ ?_).mono fun r w₁ hr => ?_
      · rw [h.view]
        exact hb
      · rw [h.redis]
        exact hempty
      · rw [h.view]
        exact hlimit
      · rw [hr]
        exact fun _ _ => rfl
  exact hends

/-! ### A new board of an old slug -/

/-- **A board that is created again starts fresh.** Let the boards of a slug be removed cleared in
a history that ends without a board of the slug. When a step then creates a board of the slug,
and no live submission to this board follows, its standings stay empty and its snapshots report no
scores. Submissions that have read an older row may still be under way at any time. -/
theorem recreated_board_fresh {g₀ g₁ g : System faulty} {b r : Board}
    (hhistory : System.ClearedRun keyPrefix b.slug (System.initial faulty collation) g₀)
    (hdeleted : ∀ r ∈ g₀.servers.db.boards, r.slug ≠ b.slug)
    (hcreate : System.StepAt keyPrefix g₀ g₁) (hb : b ∈ g₁.servers.db.boards)
    (hrun : System.UnsubmittedRun keyPrefix b.id g₁ g)
    (hr : r ∈ g.servers.db.boards) (hid : r.id = b.id) (env : Supply) :
    (∃ v, respond env g.servers (Realtime.latest r keyPrefix) = .ok v ∧ v.placements = []) ∧
    ∀ (note : Option String) (metadata : Option Json) (maxVersions : Option ℤ)
      (maxEntries : Option ℕ),
      (∀ max ∈ maxVersions, ((g.servers.db.versionsOf r.id).length : ℤ) < max) →
      respond env g.servers (Realtime.snapshot r note metadata keyPrefix maxVersions maxEntries) =
        .error noScores := by
  have hat₀ : System.At keyPrefix g₀ := System.ClearedRun.at hhistory
  have hat₁ : System.At keyPrefix g₁ := hat₀.step hcreate
  have hrun' : Machine.Run (Deployed keyPrefix) g₁ g := hrun.lift id fun _ _ h => h.1
  have hat : System.At keyPrefix g := hat₁.run hrun'
  have hdead₀ : ∀ name, ¬System.Live keyPrefix g₀ b.slug name := by
    intro name hlive
    obtain ⟨r, hr, hslug⟩ := System.ClearedRun.board_of_live hhistory name hlive
    exact hdeleted r hr hslug
  have hdead := System.UnsubmittedRun.not_live hrun hat₁ hb
    (fun name => System.not_live_of_create hat₀ hcreate hdeleted (hdead₀ name)) hr hid
  have hslug : r.slug = b.slug := System.UnsubmittedRun.same_slug hrun hat₁ hb hr hid
  have hempty : g.servers.redis (scoresKey keyPrefix r.slug) = none := by
    rw [hslug]
    exact (hat.scores b.slug).eq_none fun name hhas => hdead name (.inl hhas)
  have hrow : g.servers.db.board? r.id = some r := hat.reachable.inv.schema.board?_eq hr
  exact ⟨latest_empty hempty, fun note metadata maxVersions maxEntries =>
    snapshot_empty hrow hempty⟩

/-! ### Two histories -/

/-- Every board is still there afterwards. -/
def Clients.keepsBoards (c c' : Clients) : Bool :=
  c.server.db.boards.all fun b => c'.server.db.boards.any fun b' => decide (b'.id = b.id)

/-- The slug has no working set, and no handler is about to write to Redis. -/
def Clients.cleared (slug : String) (c : Clients) : Bool :=
  (c.server.redis (scoresKey "rl" slug)).isNone && c.threads.all fun th =>
    match th.2 with
    | .op (.redis _) _ => false
    | _ => true

/-- No handler is about to store an entry on the board. -/
def Clients.unsubmitted (boardId : Uuid) (c : Clients) : Bool :=
  c.threads.all fun th =>
    match th.2 with
    | .op (.sql (.upsertEntry id _ _)) _ => !decide (id = boardId)
    | _ => true

namespace System

variable {g g' : System faulty} {c c' : Clients} {boardId : Uuid}

theorem keepsBoards_of_check (hshows : c.Shows g) (hshows' : c'.Shows g')
    (hcheck : c.keepsBoards c' = true) :
    ∀ b ∈ g.servers.db.boards, ∃ b' ∈ g'.servers.db.boards, b'.id = b.id := by
  intro b hb
  rw [hshows.servers] at hb
  obtain ⟨b', hb', hid⟩ := List.any_eq_true.mp (List.all_eq_true.mp hcheck b hb)
  exact ⟨b', hshows'.servers ▸ hb', of_decide_eq_true hid⟩

theorem not_live_of_check (hshows : c.Shows g) (hcheck : c.cleared slug = true) (name : String) :
    ¬Live "rl" g slug name := by
  rw [Clients.cleared, Bool.and_eq_true] at hcheck
  obtain ⟨hnone, hnext⟩ := hcheck
  rintro (⟨x, hx⟩ | ⟨t, th, ht, hadd⟩)
  · rw [hshows.servers, Redis.members, Option.isNone_iff_eq_none.mp hnone] at hx
    cases hx
  · have hthread := List.all_eq_true.mp hnext _ (hshows.mem ht)
    obtain ⟨session, rest⟩ := th
    cases rest with
    | ret a => exact hadd
    | fail e => exact hadd
    | op cmd k =>
      cases cmd with
      | redis rc => cases hthread
      | _ => exact hadd

theorem not_submitting_of_check (hshows : c.Shows g) (hcheck : c.unsubmitted boardId = true)
    (name : String) : ¬Submitting keyPrefix g boardId name := by
  rintro ⟨t, n, k, ht, -⟩
  have hthread := List.all_eq_true.mp hcheck _ (hshows.mem ht)
  simp at hthread

/-- A step that keeps all boards removes no board. -/
theorem removesCleared_of_keeps
    (h : ∀ b ∈ g.servers.db.boards, ∃ b' ∈ g'.servers.db.boards, b'.id = b.id) :
    RemovesCleared keyPrefix slug g g' := by
  intro b hb _ hremoved
  obtain ⟨b', hb', hid⟩ := h b hb
  exact absurd hid (hremoved b' hb')

/-- **A schedule that removes boards only when the slug is cleared** is a history for the
theorem. -/
theorem clearedRun_of_play (hrun : Relation.ReflTransGen (Clients.CheckedStep
      (fun c c' => c.keepsBoards c' || c.cleared slug) (Request.At "rl")) g g') :
    Relation.ReflTransGen (fun g g' => StepAt "rl" g g' ∧ RemovesCleared "rl" slug g g') g g' := by
  refine hrun.lift id fun s s' hstep => ?_
  obtain ⟨hstep, c, c', hc, hc', hcheck⟩ := hstep
  refine ⟨hstep, ?_⟩
  rcases Bool.or_eq_true_iff.mp hcheck with hkeeps | hcleared
  · exact removesCleared_of_keeps (keepsBoards_of_check hc hc' hkeeps)
  · exact fun _ _ _ _ => not_live_of_check hc hcleared

/-- The steps that remove no board, from states in which no handler submits to the board. -/
abbrev PlainStep (boardId : Uuid) : System faulty → System faulty → Prop :=
  Clients.CheckedStep (fun c c' => c.keepsBoards c' && c.unsubmitted boardId) (Request.At "rl")

theorem PlainStep.keepsBoards (h : PlainStep boardId g g') :
    ∀ b ∈ g.servers.db.boards, ∃ b' ∈ g'.servers.db.boards, b'.id = b.id := by
  obtain ⟨-, c, c', hc, hc', hcheck⟩ := h
  exact keepsBoards_of_check hc hc' (Bool.and_eq_true_iff.mp hcheck).1

theorem PlainStep.not_submitting (h : PlainStep boardId g g') (name : String) :
    ¬Submitting "rl" g boardId name := by
  obtain ⟨-, c, _, hc, -, hcheck⟩ := h
  exact not_submitting_of_check hc (Bool.and_eq_true_iff.mp hcheck).2 name

/-- The step of a plain run that creates the board, when no board is there before it. -/
theorem exists_creation (hat : At "rl" g) (hrun : Relation.ReflTransGen (PlainStep boardId) g g')
    (hnone : g.servers.db.boards = [])
    (hsome : g'.servers.db.boards.map (fun r => (r.id, r.slug)) = [(boardId, slug)]) :
    ∃ (g₀ g₁ : System faulty) (b r : Board),
      Relation.ReflTransGen (PlainStep boardId) g g₀ ∧ g₀.servers.db.boards = [] ∧
      StepAt "rl" g₀ g₁ ∧ b ∈ g₁.servers.db.boards ∧ b.id = boardId ∧ b.slug = slug ∧
      UnsubmittedRun "rl" b.id g₁ g' ∧ r ∈ g'.servers.db.boards ∧ r.id = b.id := by
  let created : System faulty → Prop := fun g => g.servers.db.boards ≠ []
  have hnone' : ¬created g := by simp [created, hnone]
  have hsome' : created g' := by
    intro hempty
    rw [hempty] at hsome
    cases hsome
  -- The first step after which a board is there.
  obtain ⟨g₀, g₁, hbefore, hempty, hstep, hcreated, hafter⟩ := exists_step hrun hnone' hsome'
  obtain ⟨b, hb⟩ := List.exists_mem_of_ne_nil _ hcreated
  -- Plain steps remove no board, so the one that was created is the one at the end.
  have hkept : ∃ r ∈ g'.servers.db.boards, r.id = b.id := by
    clear hsome' hsome hrun
    induction hafter with
    | refl => exact ⟨b, hb, rfl⟩
    | tail hrun' hstep ih =>
      obtain ⟨r, hr, hid⟩ := ih
      obtain ⟨r', hr', hid'⟩ := hstep.keepsBoards r hr
      exact ⟨r', hr', hid'.trans hid⟩
  obtain ⟨r, hr, hid⟩ := hkept
  obtain ⟨hidr, hslugr⟩ : r.id = boardId ∧ r.slug = slug := by
    have hmem := List.mem_map_of_mem (f := fun r => (r.id, r.slug)) hr
    rw [hsome, List.mem_singleton, Prod.mk.injEq] at hmem
    exact hmem
  have hidb : b.id = boardId := hid.symm.trans hidr
  have hafter' : UnsubmittedRun "rl" b.id g₁ g' := by
    rw [hidb]
    exact hafter.lift id fun _ _ h => ⟨h.1, h.not_submitting⟩
  have hat₁ : At "rl" g₁ := (hat.run (hbefore.lift id fun _ _ h => h.1)).step hstep.1
  have hslugb : b.slug = slug := (UnsubmittedRun.same_slug hafter' hat₁ hb hr hid).symm.trans hslugr
  exact ⟨g₀, g₁, b, r, hbefore, not_not.mp hempty, hstep.1, hb, hidb, hslugb, hafter', hr, hid⟩

end System

/-- The request that creates a realtime board. -/
def createRealtime : Request := .createBoard
  { slug := "b", name := "B", boardType := "scored", accumulative := true, realtime := true }

/-- A submission to the board. -/
def submitTo (entrySlug : String) : Request := .submit {} "b" ⟨entrySlug, "E", ⟨1⟩⟩

/-- The live board gets a score, and a second submission reads its row. -/
def liveBoard : List Move :=
  [.call createRealtime, .turns 0 9, .call (submitTo "e"), .turns 1 9, .call (submitTo "f"),
    .turns 2 1]

/-- The board is deleted. -/
def deletedBoard : List Move := [.call (.deleteBoard {} "b"), .turns 3 9]

/-- The board is created again, and the second submission goes on. -/
def createdAgain : List Move := [.call createRealtime, .turns 4 9, .turns 2 9]

set_option maxRecDepth 10000 in
/-- **A run in which a live board is deleted and created again**, while a submission that has read
the old row is under way. -/
theorem recreated_board_fresh_run : ∃ (g₁ g : System False) (r : Board),
    System.ClearedRun "rl" "b" (System.initial False .codePoint) g₁ ∧
      System.Live "rl" g₁ "b" "e" ∧ Machine.Run (Deployed "rl") g₁ g ∧
      r ∈ g.servers.db.boards ∧ r.slug = "b" ∧
      (∃ v, respond counting g.servers (Realtime.latest r "rl") = .ok v ∧ v.placements = []) ∧
      respond counting g.servers (Realtime.snapshot r none none "rl" none none) =
        .error noScores := by
  let check : Clients → Clients → Bool := fun c c' => c.keepsBoards c' || c.cleared "b"
  let plain : Clients → Clients → Bool := fun c c' => c.keepsBoards c' && c.unsubmitted 9
  -- The three parts of the schedule, evaluated.
  obtain ⟨c₁, hc₁, hc₁'⟩ := (Option.any_eq_true _ _).mp
    (show (Clients.play counting check liveBoard {}).any (fun c₁ =>
      decide ((c₁.server.redis.members (scoresKey "rl" "b")).map Prod.fst = ["e"]) &&
      (Clients.play counting check deletedBoard c₁).any fun c₂ =>
        c₂.server.db.boards.isEmpty && (Clients.play counting plain createdAgain c₂).any fun c₃ =>
          decide (c₃.server.db.boards.map (fun r => (r.id, r.slug)) = [(9, "b")])) = true by decide)
  rw [Bool.and_eq_true, decide_eq_true_eq, Option.any_eq_true] at hc₁'
  obtain ⟨hlive, c₂, hc₂, hc₂'⟩ := hc₁'
  rw [Bool.and_eq_true, List.isEmpty_iff, Option.any_eq_true] at hc₂'
  obtain ⟨hempty, c₃, hc₃, hrows⟩ := hc₂'
  rw [decide_eq_true_eq] at hrows
  obtain ⟨g₁, hrun₁, hshows₁, -⟩ := Clients.play_run (Request.At "rl") hc₁
    (by simp +contextual [liveBoard, Move.request?, Request.At, Request.caller?, createRealtime,
      submitTo]) (Clients.shows_initial False)
  obtain ⟨g₂, hrun₂, hshows₂, -⟩ := Clients.play_run (Request.At "rl") hc₂
    (by simp +contextual [deletedBoard, Move.request?, Request.At, Request.caller?]) hshows₁
  obtain ⟨g, hrun₃, hshows₃, -⟩ := Clients.play_run (Request.At "rl") hc₃
    (by simp +contextual [createdAgain, Move.request?, Request.At, Request.caller?,
      createRealtime]) hshows₂
  have hcleared₁ : System.ClearedRun "rl" "b" (System.initial False .codePoint) g₁ :=
    System.clearedRun_of_play hrun₁
  have hcleared₂ : System.ClearedRun "rl" "b" (System.initial False .codePoint) g₂ :=
    hcleared₁.trans (System.clearedRun_of_play hrun₂)
  rw [← hshows₂.servers] at hempty
  rw [← hshows₃.servers] at hrows
  obtain ⟨g₀, g', b, r, hbefore, hnone, hcreate, hb, hid, hslug, hafter, hr, hidr⟩ :=
    System.exists_creation hcleared₂.at hrun₃ hempty hrows
  have hhistory : System.ClearedRun "rl" b.slug (System.initial False .codePoint) g₀ := by
    rw [hslug]
    exact hcleared₂.trans (hbefore.lift id fun _ _ h =>
      ⟨h.1, System.removesCleared_of_keeps h.keepsBoards⟩)
  have hdeleted : ∀ r ∈ g₀.servers.db.boards, r.slug ≠ b.slug := by simp [hnone]
  obtain ⟨hlatest, hsnapshot⟩ :=
    recreated_board_fresh hhistory hdeleted hcreate hb hafter hr hidr counting
  have hat' : System.At "rl" g' := hhistory.at.step hcreate
  have hlive' : System.Live "rl" g₁ "b" "e" := by
    have hmem : "e" ∈ (c₁.server.redis.members (scoresKey "rl" "b")).map Prod.fst := by simp [hlive]
    obtain ⟨⟨name, x⟩, hx, rfl⟩ := List.mem_map.mp hmem
    exact .inl ⟨x, hshows₁.servers ▸ hx⟩
  have hrun : Machine.Run (Deployed "rl") g₁ g :=
    (hrun₂.lift id fun _ _ h => h.1).trans (hrun₃.lift id fun _ _ h => h.1)
  have hsame : r.slug = b.slug := System.UnsubmittedRun.same_slug hafter hat' hb hr hidr
  exact ⟨g₁, g, r, hcleared₁, hlive', hrun, hr, hsame.trans hslug, hlatest,
    hsnapshot none none none none (by simp)⟩

/-- The board is no longer realtime when it is deleted. -/
def deletedStatic : List Move :=
  [.call createRealtime, .turns 0 9, .call (submitTo "e"), .turns 1 9,
    .call (.updateBoard "b" { realtime := some false }), .turns 2 9,
    .call (.deleteBoard {} "b"), .turns 3 9]

set_option maxRecDepth 10000 in
/-- A board that is no longer realtime when it is deleted leaves its scores to the next board of
its slug. -/
theorem recreated_board_fresh_fails : ∃ (g₀ g₁ g : System False) (b r : Board),
    System.At "rl" g₀ ∧ (∀ r ∈ g₀.servers.db.boards, r.slug ≠ b.slug) ∧
      System.StepAt "rl" g₀ g₁ ∧ b ∈ g₁.servers.db.boards ∧
      System.UnsubmittedRun "rl" b.id g₁ g ∧ r ∈ g.servers.db.boards ∧ r.id = b.id ∧
      ∃ v, respond counting g.servers (Realtime.latest r "rl") = .ok v ∧ v.placements ≠ [] := by
  let plain : Clients → Clients → Bool := fun c c' => c.keepsBoards c' && c.unsubmitted 11
  -- The history up to the DELETE, and then a creation after which nothing is submitted.
  obtain ⟨c₁, hc₁, hc₁'⟩ := (Option.any_eq_true _ _).mp
    (show (Clients.play counting (fun _ _ => true) deletedStatic {}).any (fun c₁ =>
      c₁.server.db.boards.isEmpty && (Clients.play counting plain createdAgain c₁).any fun c₂ =>
        decide (c₂.server.db.boards.map (fun r => (r.id, r.slug)) = [(11, "b")]) &&
        c₂.server.db.boards.all fun r => (respond counting c₂.server
          (Realtime.latest r "rl")).toOption.any fun v => !v.placements.isEmpty) = true by decide)
  rw [Bool.and_eq_true, List.isEmpty_iff, Option.any_eq_true] at hc₁'
  obtain ⟨hempty, c₂, hc₂, hc₂'⟩ := hc₁'
  rw [Bool.and_eq_true, decide_eq_true_eq] at hc₂'
  obtain ⟨hrows, hall⟩ := hc₂'
  obtain ⟨g₁, hrun₁, hshows₁, -⟩ := Clients.play_run (Request.At "rl") hc₁
    (by simp +contextual [deletedStatic, Move.request?, Request.At, Request.caller?,
      createRealtime, submitTo]) (Clients.shows_initial False)
  obtain ⟨g, hrun₂, hshows₂, -⟩ := Clients.play_run (Request.At "rl") hc₂
    (by simp +contextual [createdAgain, Move.request?, Request.At, Request.caller?,
      createRealtime]) hshows₁
  have hat₁ : System.At "rl" g₁ := System.at_initial.run (hrun₁.lift id fun _ _ h => h.1)
  rw [← hshows₁.servers] at hempty
  rw [← hshows₂.servers] at hrows hall
  obtain ⟨g₀, g', b, r, hbefore, hnone, hcreate, hb, -, -, hafter, hr, hidr⟩ :=
    System.exists_creation hat₁ hrun₂ hempty hrows
  have hat₀ : System.At "rl" g₀ := hat₁.run (hbefore.lift id fun _ _ h => h.1)
  obtain ⟨v, hv, hne⟩ := (Option.any_eq_true _ _).mp (List.all_eq_true.mp hall r hr)
  obtain ⟨v, hok, hne⟩ := Prog.exists_ok (p := fun v => (!v.placements.isEmpty) = true) ⟨v, hv, hne⟩
  exact ⟨g₀, g', g, b, r, hat₀, by simp [hnone], hcreate, hb, hafter, hr, hidr, v, hok,
    by simpa using hne⟩

end Leaderboards
