import Leaderboards.Transactions.Footprint
import Leaderboards.Transactions.Reachable

/-!
# Where live scores come from

A score gets into the working set of a board with the `ZADD` of `realtime::submit`. The request
that sends it has read the row of the board and has just stored the row of the entry, outside of
any transaction (`Backed`). All other requests are quiet. So a step of the servers under one key
prefix leaves no name in a working set, or in the hands of a request that is about to add it, that
was not there before, unless it is the step that stored the entry row (`live_of_step`).
-/

namespace Leaderboards

open Interaction Realtime

variable {keyPrefix : String} {α β : Type}

/-! ### Programs that store an entry before they add its score -/

/-- A command that adds a name to the working scores of a slug. -/
def Cmd.Adds (keyPrefix slug name : String) : Cmd → Prop
  | .redis c => ∃ x, .zadd (scoresKey keyPrefix slug) name x ∈ c.writes
  | _ => False

/-- A program whose next command adds a name to the working scores of a slug. -/
def AboutToAdd (keyPrefix slug name : String) : Action α → Prop
  | .op c _ => Cmd.Adds keyPrefix slug name c
  | _ => False

/-- The command stored the row of the entry on the board. -/
def Cmd.Stores (boardId : Uuid) (name : String) : (c : Cmd) → c.Res → Prop
  | .sql (.upsertEntry id slug _), .ok _ => id = boardId ∧ slug = name
  | _, _ => False

/-- The board row that the command has read. -/
def Cmd.reads : (c : Cmd) → c.Res → List Board
  | .sql (.selectBoardBySlug _), .ok (some b) => [b]
  | _, _ => []

/-- Whether a transaction is open after the command, when `o` says so before. -/
def Cmd.opens (o : Bool) : (c : Cmd) → c.Res → Bool
  | .begin, .ok _ => true
  | .commit, _ => false
  | .rollback, _ => false
  | _, _ => o

/-- A program that adds a score only right after it has stored the entry, outside of a
transaction, on a board that it has read. -/
def Backed (keyPrefix : String) (known : List Board) (o : Bool) : Action α → Prop
  | .ret _ => True
  | .fail _ => True
  | .op c k => (∀ rc : RedisCmd, c = Cmd.redis rc → ∀ w ∈ rc.writes, ∀ slug,
      ¬w.StoresAt (scoresKey keyPrefix slug)) ∧
    ∀ r, (∀ slug name, AboutToAdd keyPrefix slug name (k r) →
        o = false ∧ ∃ b ∈ known, b.slug = slug ∧ Cmd.Stores b.id name c r) ∧
      Backed keyPrefix (if o then known else known ++ Cmd.reads c r) (Cmd.opens o c r) (k r)

theorem not_aboutToAdd_of_quiet {p : Action α} (hp : p.Uses Cmd.Quiet) (slug name : String) :
    ¬AboutToAdd keyPrefix slug name p := by
  cases p with
  | ret a => exact id
  | fail e => exact id
  | op c k =>
    intro hadd
    cases c with
    | redis c =>
      obtain ⟨x, hx⟩ := hadd
      exact (hp.1 _ hx).1 _ _ _ rfl
    | _ => exact hadd

/-- A quiet program is backed, whatever it knows. -/
theorem backed_of_quiet {p : Action α} (hp : p.Uses Cmd.Quiet) (known : List Board) (o : Bool) :
    Backed keyPrefix known o p := by
  induction p generalizing known o with
  | ret a => trivial
  | fail e => trivial
  | op c k ih =>
    refine ⟨?_, fun r => ⟨fun slug name hadd => ?_, ih r (hp.2 r) _ _⟩⟩
    · rintro rc rfl w hw slug
      exact (hp.1 w hw).2.1 keyPrefix slug
    · exact absurd hadd (not_aboutToAdd_of_quiet (hp.2 r) slug name)

/-- What is not about to add anything before a quiet rest still is not with it. -/
private theorem aboutToAdd_of_bind {p : Action α} {f : α → Action β}
    (hf : ∀ a, (f a).Uses Cmd.Quiet) {slug name : String}
    (h : AboutToAdd keyPrefix slug name (p >>= f)) : AboutToAdd keyPrefix slug name p := by
  cases p with
  | ret a => exact absurd h (not_aboutToAdd_of_quiet (hf a) slug name)
  | fail e => exact h
  | op c k => exact h

theorem Backed.bind {p : Action α} {f : α → Action β} {known : List Board} {o : Bool}
    (hp : Backed keyPrefix known o p) (hf : ∀ a, (f a).Uses Cmd.Quiet) :
    Backed keyPrefix known o (p >>= f) := by
  induction p generalizing known o with
  | ret a => exact backed_of_quiet (hf a) known o
  | fail e => trivial
  | op c k ih =>
    exact ⟨hp.1, fun r => ⟨fun slug name hadd => (hp.2 r).1 slug name (aboutToAdd_of_bind hf hadd),
      ih r (hp.2 r).2⟩⟩

private theorem aboutToAdd_of_attempt {p : Action α} {slug name : String}
    (h : AboutToAdd keyPrefix slug name p.attempt) : AboutToAdd keyPrefix slug name p := by
  cases p <;> exact h

theorem Backed.attempt {p : Action α} {known : List Board} {o : Bool}
    (hp : Backed keyPrefix known o p) : Backed keyPrefix known o p.attempt := by
  induction p generalizing known o with
  | ret a => trivial
  | fail e => trivial
  | op c k ih =>
    exact ⟨hp.1, fun r => ⟨fun slug name hadd =>
      (hp.2 r).1 slug name (aboutToAdd_of_attempt hadd), ih r (hp.2 r).2⟩⟩

/-! ### Submissions -/

/-- **`realtime::submit` stores the entry before it adds the score.** -/
theorem backed_submit {board : Board} {known : List Board} (hboard : board ∈ known)
    (input : SubmitScore) :
    Backed keyPrefix known false (Realtime.submit board input keyPrefix) := by
  unfold Realtime.submit Prog.failIf
  split
  · trivial
  · split
    · trivial
    · cases validateSlug input.entrySlug with
      | error e => trivial
      | ok _ =>
        cases validateName input.entryName with
        | error e => trivial
        | ok _ =>
          -- Two commands are left: the upsert of the entry, and then the pipe with its score.
          refine ⟨fun rc hrc => by simp at hrc, fun r => ?_⟩
          cases r with
          | error e => exact ⟨fun _ _ h => h.elim, trivial⟩
          | ok id =>
            refine ⟨fun slug name hadd => ?_, ?_, fun r => ?_⟩
            · obtain ⟨x, hx⟩ := hadd
              simp only [RedisCmd.writes, List.mem_cons, RedisWrite.zadd.injEq, reduceCtorEq,
                List.not_mem_nil, or_false] at hx
              obtain ⟨hkey, rfl, rfl⟩ := hx
              exact ⟨rfl, board, hboard, (scoresKey_injective hkey).symm, rfl, rfl⟩
            · intro rc hrc w hw slug hstore
              obtain rfl := Cmd.redis.inj hrc
              simp only [RedisCmd.writes, List.mem_cons, List.not_mem_nil, or_false] at hw
              rcases hw with rfl | rfl
              · exact hstore
              · exact entriesKey_ne_scoresKey _ _ _ _ hstore
            · cases r with
              | error e => exact ⟨fun _ _ h => h.elim, trivial⟩
              | ok _ => exact ⟨fun _ _ h => h.elim, trivial⟩

/-- A submission does not start with its score. -/
theorem not_aboutToAdd_submit (board : Board) (input : SubmitScore) (slug name : String) :
    ¬AboutToAdd keyPrefix slug name (Realtime.submit board input keyPrefix) := by
  unfold Realtime.submit Prog.failIf
  split
  · exact id
  · split
    · exact id
    · cases validateSlug input.entrySlug with
      | error e => exact id
      | ok _ =>
        cases validateName input.entryName with
        | error e => exact id
        | ok _ => exact id

/-- A program that goes on from the row of a board. -/
theorem backed_selectBoard {slug : String} {k : Except DbError (Option Board) → Action α}
    (hstart : ∀ r s n, ¬AboutToAdd keyPrefix s n (k r))
    (hsome : ∀ b, Backed keyPrefix [b] false (k (.ok (some b))))
    (hnone : Backed keyPrefix [] false (k (.ok none)))
    (herr : ∀ e, Backed keyPrefix [] false (k (.error e))) :
    Backed keyPrefix [] false (Prog.op (S := Service) (.sql (.selectBoardBySlug slug)) k) := by
  refine ⟨fun rc hrc => by simp at hrc, fun r => ⟨fun s n hadd => absurd hadd (hstart r s n), ?_⟩⟩
  cases r with
  | error e => exact herr e
  | ok row =>
    cases row with
    | none => exact hnone
    | some b => exact hsome b

theorem backed_routeSubmit {caller : Caller} (hcaller : caller.keyPrefix = keyPrefix)
    (slug : String) (input : SubmitScore) :
    Backed keyPrefix [] false (Routes.submit caller slug input) := by
  subst hcaller
  -- What follows the board row.
  let rest : Board → Action Unit := fun board =>
    if board.realtime = true then do
      Prog.failIf (¬caller.hasRedis = true) Routes.redisRequired
      Realtime.submit board input caller.keyPrefix
    else do
      let _ ← Scores.submit board input
  have hscores : ∀ board : Board, (do
      let _ ← Scores.submit board input : Action Unit).Uses Cmd.Quiet := fun board =>
    Prog.uses_bind ((plain_submitScore (B := True) board input).mono fun _ => Cmd.PlainIn.quiet)
      fun _ => trivial
  have hstart : ∀ board s n, ¬AboutToAdd caller.keyPrefix s n (rest board) := by
    intro board s n
    simp only [rest]
    split
    · unfold Prog.failIf
      split
      · exact id
      · exact not_aboutToAdd_submit board input s n
    · exact not_aboutToAdd_of_quiet (hscores board) s n
  have hrest : ∀ board, Backed caller.keyPrefix [board] false (rest board) := by
    intro board
    simp only [rest]
    split
    · unfold Prog.failIf
      split
      · trivial
      · exact backed_submit (List.mem_singleton_self board) input
    · exact backed_of_quiet (hscores board) _ _
  refine backed_selectBoard (fun r s n => ?_) hrest trivial fun _ => trivial
  rcases r with e | row
  · exact id
  · rcases row with _ | board
    · exact id
    · exact hstart board s n

theorem backed_submitFrame {caller : Caller} (hcaller : caller.keyPrefix = keyPrefix)
    (slug : String) (payload : Except String SubmitScore) (writeAuthorized : Bool) :
    Backed keyPrefix [] false (Ws.tryProcessScore caller slug payload writeAuthorized) := by
  subst hcaller
  -- A frame starts with the select of the board, so it is not yet about to add a member.
  have hstart : ∀ board input s n,
      ¬AboutToAdd caller.keyPrefix s n (Ws.submitScore caller board input) := by
    intro board input s n
    unfold Ws.submitScore
    split
    · exact id
    · split
      · exact id
      · intro hadd
        have hsubmit := aboutToAdd_of_bind
          (f := fun r => .ret (Except.mapError Ws.coreErrorMessage r)) (fun _ => trivial) hadd
        exact not_aboutToAdd_submit board input s n (aboutToAdd_of_attempt hsubmit)
  have hsubmit : ∀ board input,
      Backed caller.keyPrefix [board] false (Ws.submitScore caller board input) := by
    intro board input
    unfold Ws.submitScore
    split
    · trivial
    · split
      · trivial
      · exact (backed_submit (List.mem_singleton_self board) input).attempt.bind fun _ => trivial
  unfold Ws.tryProcessScore
  split
  · trivial
  · split
    · trivial
    · rename_i input
      refine backed_selectBoard (fun r s n => ?_) (fun board => hsubmit board input) trivial
        fun _ => trivial
      rcases r with e | row
      · exact id
      · rcases row with _ | board
        · exact id
        · exact hstart board input s n

/-! ### Requests under one key prefix -/

/-- Who makes the request. -/
def Request.caller? : Request → Option Caller
  | .deleteBoard caller _ => some caller
  | .createVersion caller .. => some caller
  | .latest caller _ => some caller
  | .submit caller .. => some caller
  | .submitFrame caller .. => some caller
  | .snapshot caller .. => some caller
  | _ => none

/-- The caller of the request uses the key prefix of the deployment. -/
def Request.At (keyPrefix : String) (r : Request) : Prop :=
  ∀ caller ∈ r.caller?, caller.keyPrefix = keyPrefix

/-- **Every request is backed.** -/
theorem Request.backed {r : Request} (hr : r.At keyPrefix) :
    Backed keyPrefix [] false r.handler := by
  cases r with
  | submit caller slug input => exact backed_routeSubmit (hr caller rfl) slug input
  | submitFrame caller slug payload writeAuthorized =>
    exact (backed_submitFrame (hr caller rfl) slug payload writeAuthorized).bind fun _ => trivial
  | _ => exact backed_of_quiet (Request.quiet id) _ _

/-- No request starts with a score. -/
theorem Request.not_aboutToAdd {r : Request} (slug name : String) :
    ¬AboutToAdd keyPrefix slug name r.handler := by
  cases r with
  | submit caller s input => exact id
  | submitFrame caller s payload writeAuthorized =>
    intro hadd
    have hframe := aboutToAdd_of_bind (f := fun _ => .ret ()) (fun _ => trivial) hadd
    unfold Ws.tryProcessScore at hframe
    split at hframe
    · exact hframe
    · split at hframe <;> exact hframe
  | _ => exact not_aboutToAdd_of_quiet (Request.quiet id) slug name

/-- The handlers of the requests under a key prefix. -/
def Deployed (keyPrefix : String) (p : Action Unit) : Prop :=
  ∃ r : Request, r.At keyPrefix ∧ r.handler = p

theorem Deployed.serves {p : Action Unit} (h : Deployed keyPrefix p) : Serves {} p := by
  obtain ⟨r, -, rfl⟩ := h
  exact ⟨r, r.respects_default, rfl⟩

/-! ### Steps -/

variable {faulty : Prop} {collation : Collation} {slug name : String}

/-- Whether a transaction is open after an instruction. -/
private theorem isSome_session {c : Cmd} {s s' : Server} {h h' : Session} {L : List Lock}
    {r : c.Res} (hexec : Exec faulty c s h L r s' h') : h'.isSome = Cmd.opens h.isSome c r := by
  cases hexec <;> rfl

/-- Only a Redis command changes Redis. -/
theorem exec_redis {c : Cmd} {s s' : Server} {h h' : Session} {L : List Lock}
    {r : c.Res} (hexec : Exec faulty c s h L r s' h') : s'.redis = s.redis ∨
      ∃ rc, c = .redis rc ∧ s'.redis = (execRedis rc s.redis).2 := by
  cases hexec with
  | redis => exact .inr ⟨_, rfl, rfl⟩
  | _ => exact .inl rfl

/-- A board row that was read outside of a transaction is known. -/
private theorem known_of_reads {c : Cmd} {s s' : Server} {h' : Session} {L : List Lock}
    {r : c.Res} (hs : ServerInv {} s) (hexec : Exec faulty c s none L r s' h') :
    ∀ b ∈ Cmd.reads c r, KnownBoard s b := by
  intro b hb
  cases c with
  | sql q =>
    cases q with
    | selectBoardBySlug slug =>
      cases hexec with
      | autocommit hu hnow hq =>
        rename_i u now ws row
        cases row with
        | none => cases hb
        | some b' =>
          obtain rfl := List.mem_singleton.mp hb
          have hrow : s.db.boardBySlug? slug = some b := congrArg Prod.fst (Except.ok.inj hq)
          exact KnownBoard.of_mem hs (Database.mem_of_boardBySlug? hrow).1
      | autocommitError => cases hb
      | statementFault => cases hb
    | _ => cases hb
  | _ => cases hb

/-- A stored entry is there after the step, with its board. -/
private theorem stored_of_exec {c : Cmd} {s s' : Server} {h' : Session} {L : List Lock} {r : c.Res}
    {id : Uuid} (hs' : ServerInv {} s') (hexec : Exec faulty c s none L r s' h')
    (hstores : Cmd.Stores id name c r) : (∃ n, c = .sql (.upsertEntry id name n)) ∧
      (∃ b ∈ s'.db.boards, b.id = id) ∧ ∃ e ∈ s'.db.entries, e.boardId = id ∧ e.slug = name := by
  cases c with
  | sql q =>
    cases q with
    | upsertEntry boardId slug n =>
      cases hexec with
      | autocommit hu hnow hq =>
        rename_i u now ws row
        obtain ⟨rfl, rfl⟩ := hstores
        have hentry : ∃ e ∈ (s.db.applyAll ws).entries, e.boardId = boardId ∧ e.slug = slug := by
          rcases execUpsertEntry_ok hq with ⟨e, he, -, rfl⟩ | ⟨e, -, hins, -⟩
          · obtain ⟨hmem, hboard, hslug⟩ := Database.mem_of_entryBySlug? he
            exact ⟨_, Database.mem_setEntry_entries.mpr (.inr ⟨rfl, e, hmem, rfl⟩), hboard, hslug⟩
          · obtain ⟨rfl, -, -, -, rfl⟩ := execInsertEntry_ok hins
            exact ⟨_, List.mem_append_right _ List.mem_cons_self, rfl, rfl⟩
        obtain ⟨e, he, hboard, hslug⟩ := hentry
        obtain ⟨b, hb, hid⟩ := hs'.schema.entry_board e he
        exact ⟨⟨n, rfl⟩, ⟨b, hb, hid.trans hboard⟩, e, he, hboard, hslug⟩
      | autocommitError => exact hstores.elim
      | statementFault => exact hstores.elim
    | _ => exact hstores.elim
  | _ => exact hstores.elim

namespace System

/-- One step under the key prefix. -/
abbrev StepAt (keyPrefix : String) : System faulty → System faulty → Prop :=
  Machine.Step (Deployed keyPrefix)

/-- The members of all sorted sets are distinct, in every reachable state. -/
theorem Reachable.redis_distinct {P : Policy} {g : System faulty} (hg : Reachable P g) :
    g.servers.redis.Distinct := by
  obtain ⟨collation, hrun⟩ := hg
  induction hrun with
  | refl => exact fun _ => List.nodup_nil
  | @tail g g' _ hstep ih =>
    cases hstep with
    | call t p hp ht => exact ih
    | exec t c k hs hs' L r sh' ht hadmits hexec =>
      rcases exec_redis hexec with hsame | ⟨rc, -, hredis⟩
      · change sh'.redis.Distinct
        rw [hsame]
        exact ih
      · change sh'.redis.Distinct
        rw [hredis]
        exact distinct_execRedis ih
    | crash t th hc ht => exact ih

theorem StepAt.step {g g' : System faulty} (h : StepAt keyPrefix g g') : Step {} g g' :=
  h.mono fun _ hp => hp.serves

/-- What is known of the states under a key prefix, whatever the requests: they are reachable,
every handler is backed by the board rows it has read, and the working keys of scores hold scores
only. -/
structure At (keyPrefix : String) (g : System faulty) : Prop where
  reachable : Reachable {} g
  backed : ∀ t th, g.thread t = some th → ∃ known, (∀ b ∈ known, KnownBoard g.servers b) ∧
    Backed keyPrefix known th.session.isSome th.rest
  scores : ∀ slug, g.servers.redis.IsScores (scoresKey keyPrefix slug)

/-- A name is live under a slug: it is in the working set, or about to be added to it. -/
def Live (keyPrefix : String) (g : System faulty) (slug name : String) : Prop :=
  g.servers.redis.Has (scoresKey keyPrefix slug) name ∨
    ∃ t th, g.thread t = some th ∧ AboutToAdd keyPrefix slug name th.rest

/-- A live submission to the board is under way: the next statement stores the row of the entry,
and the one after it may add the score. -/
def Submitting (keyPrefix : String) (g : System faulty) (boardId : Uuid) (name : String) : Prop :=
  ∃ t n k, g.thread t = some ⟨none, Prog.op (S := Service) (.sql (.upsertEntry boardId name n)) k⟩ ∧
    ∃ r slug, AboutToAdd keyPrefix slug name (k r)

theorem at_initial : At keyPrefix (initial faulty collation) where
  reachable := .initial _
  backed := by simp [initial, Machine.quiet]
  scores _ _ h := by cases h

variable {g g' : System faulty}

theorem At.rely (h : At keyPrefix g) (hstep : StepAt keyPrefix g g') :
    Rely [] g.servers g'.servers := h.reachable.rely (.single hstep.step)

/-- The handlers that do not move stay backed. -/
private theorem At.others (h : At keyPrefix g) (hstep : StepAt keyPrefix g g') {t : Tid}
    {th : (server faulty).Thread Error} (ht : g.thread t = some th) :
    ∃ known, (∀ b ∈ known, KnownBoard g'.servers b) ∧
      Backed keyPrefix known th.session.isSome th.rest := by
  obtain ⟨known, hknown, hbacked⟩ := h.backed t th ht
  exact ⟨known, fun b hb => (hknown b hb).stable (h.rely hstep), hbacked⟩

/-- **Every step keeps handlers backed.** -/
theorem At.step (h : At keyPrefix g) (hstep : StepAt keyPrefix g g') : At keyPrefix g' := by
  have hinv := h.reachable.inv
  have hothers : ∀ t th, g.thread t = some th → ∃ known, (∀ b ∈ known, KnownBoard g'.servers b) ∧
      Backed keyPrefix known th.session.isSome th.rest := fun t th ht => h.others hstep ht
  have hrely := h.rely hstep
  refine ⟨h.reachable.tail hstep.step, ?_, ?_⟩
  -- Threads: the one that moves is still backed, and the others know what they knew.
  · cases hstep with
    | call t p hp ht =>
      obtain ⟨r, hr, rfl⟩ := hp
      intro u th hu
      by_cases hut : u = t
      · subst hut
        obtain rfl := Option.some.inj ((g.setThread_self u _).symm.trans hu)
        exact ⟨[], by simp, Request.backed hr⟩
      · exact hothers u th ((g.setThread_of_ne _ hut).symm.trans hu)
    | exec t c k hs hs' L r sh' ht hadmits hexec =>
      intro u th hu
      by_cases hut : u = t
      · subst hut
        obtain rfl := Option.some.inj ((Function.update_self u (some ⟨hs', k r⟩)
          g.thread).symm.trans hu)
        obtain ⟨known, hknown, -, hnext⟩ := h.backed u _ ht
        obtain ⟨-, hbacked⟩ := hnext r
        rw [← isSome_session hexec] at hbacked
        refine ⟨_, fun b hb => ?_, hbacked⟩
        cases hs with
        | some tx => exact (hknown b hb).stable hrely
        | none =>
          rcases List.mem_append.mp hb with hb | hb
          · exact (hknown b hb).stable hrely
          · exact (known_of_reads hinv hexec b hb).stable hrely
      · exact hothers u th ((Function.update_of_ne hut ..).symm.trans hu)
    | crash t th hc ht =>
      intro u th' hu
      by_cases hut : u = t
      · subst hut
        cases (g.setThread_self u _).symm.trans hu
      · exact hothers u th' ((g.setThread_of_ne _ hut).symm.trans hu)
  -- The working sets stay sets of scores, since a handler that is backed writes nothing else.
  · intro slug
    cases hstep with
    | call t p hp ht => exact h.scores slug
    | exec t c k hs hs' L r sh' ht hadmits hexec =>
      rcases exec_redis hexec with hsame | ⟨rc, rfl, hredis⟩
      · change sh'.redis.IsScores _
        rw [hsame]
        exact h.scores slug
      · change sh'.redis.IsScores _
        rw [hredis]
        obtain ⟨known, -, hwrites, -⟩ := h.backed t _ ht
        exact isScores_execRedis (fun w hw => hwrites rc rfl w hw slug) (h.scores slug)
    | crash t th hc ht => exact h.scores slug

/-- Every state of a run under the key prefix. -/
theorem At.run (h : At keyPrefix g) (hrun : Machine.Run (Deployed keyPrefix) g g') :
    At keyPrefix g' := by
  induction hrun with
  | refl => exact h
  | tail _ hstep ih => exact ih.step hstep

theorem not_live_initial (slug name : String) :
    ¬Live keyPrefix (initial faulty collation) slug name := by
  rintro (⟨x, hx⟩ | ⟨t, th, ht, -⟩)
  · cases hx
  · cases ht

/-- **Where a live name comes from**: it was live before the step, or the step stored its entry on
the board of the slug, which was there before. -/
theorem At.live_of_step (h : At keyPrefix g) (hstep : StepAt keyPrefix g g')
    (hlive : Live keyPrefix g' slug name) : Live keyPrefix g slug name ∨
      ∃ b ∈ g'.servers.db.boards, b.slug = slug ∧ (∃ r ∈ g.servers.db.boards, r.SameKey b) ∧
        Submitting keyPrefix g b.id name ∧
        ∃ e ∈ g'.servers.db.entries, e.boardId = b.id ∧ e.slug = name := by
  have hrely := h.rely hstep
  have hinv' := (h.step hstep).reachable.inv
  cases hstep with
  | call t p hp ht =>
    obtain ⟨r, -, rfl⟩ := hp
    rcases hlive with hhas | ⟨u, th, hu, hadd⟩
    · exact .inl (.inl hhas)
    · by_cases hut : u = t
      · subst hut
        obtain rfl := Option.some.inj ((g.setThread_self u _).symm.trans hu)
        exact absurd hadd (Request.not_aboutToAdd slug name)
      · exact .inl (.inr ⟨u, th, (g.setThread_of_ne _ hut).symm.trans hu, hadd⟩)
  | exec t c k hs hs' L r sh' ht hadmits hexec =>
    obtain ⟨known, hknown, hwrites, hnext⟩ := h.backed t _ ht
    rcases hlive with hhas | ⟨u, th, hu, hadd⟩
    · change sh'.redis.Has _ _ at hhas
      rcases exec_redis hexec with hsame | ⟨rc, rfl, hredis⟩
      · rw [hsame] at hhas
        exact .inl (.inl hhas)
      · rw [hredis] at hhas
        rcases has_of_execRedis (fun w hw => hwrites rc rfl w hw slug) hhas with hold | hadd
        · exact .inl (.inl hold)
        · exact .inl (.inr ⟨t, _, ht, hadd⟩)
    · by_cases hut : u = t
      · subst hut
        obtain rfl := Option.some.inj ((Function.update_self u (some ⟨hs', k r⟩)
          g.thread).symm.trans hu)
        -- The program of this handler says that it has just stored the entry.
        obtain ⟨hclosed, b, hb, rfl, hstores⟩ := (hnext r).1 slug name hadd
        have hnone : hs = none :=
          Option.isNone_iff_eq_none.mp (Option.isSome_eq_false_iff.mp hclosed)
        subst hnone
        obtain ⟨⟨n, rfl⟩, ⟨b', hb', hid⟩, hentry⟩ := stored_of_exec hinv' hexec hstores
        have hkey := ((hknown b hb).stable hrely).same b' hb' hid
        have hold := hrely.board_reused b' hb' (hid ▸ (hknown b hb).used)
        refine .inr ⟨b', hb', hkey.2.1.symm, hold, ⟨u, n, k, ?_, r, b.slug, hadd⟩, ?_⟩
        · rw [hid]
          exact ht
        · rw [hid]
          exact hentry
      · exact .inl (.inr ⟨u, th, (Function.update_of_ne hut ..).symm.trans hu, hadd⟩)
  | crash t th hc ht =>
    rcases hlive with hhas | ⟨u, th', hu, hadd⟩
    · exact .inl (.inl hhas)
    · by_cases hut : u = t
      · subst hut
        cases (g.setThread_self u _).symm.trans hu
      · exact .inl (.inr ⟨u, th', (g.setThread_of_ne _ hut).symm.trans hu, hadd⟩)

end System

end Leaderboards
