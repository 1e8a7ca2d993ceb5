import Leaderboards.Library.Trace
import Leaderboards.Transactions.VersionHandlers

/-!
# Reachable states

Every request the service answers keeps the contract (`Request.safe`), so the soundness theorem
of the library applies to all of them at once. `System.Reachable` are the states of the servers
and the handlers that arbitrary interleavings of requests reach from empty servers, and
`System.Steps` relates the ends of any run.

* `System.Reachable.good`: the invariant holds there, and every handler is safe.
* `System.Reachable.step_commits`: a step leaves the committed tables alone or commits legal
  row writes that complete every new version.
-/

namespace Leaderboards

open Interaction

variable {P : Policy} {faulty : Prop} {s s₁ : Server} {t : Tid} {α : Type}

/-! ### Sync -/

theorem safe_syncBoardRow {parsed : ParsedBoard} (hconfig : P.config (Sync.tierConfig parsed)) :
    (contract faulty P).Safe t closed (Sync.syncBoardRow parsed) none s := by
  have hread : (contract faulty P).Safe t closed (Boards.getBySlug parsed.slug) none s := by
    rw [← bind_pure (Boards.getBySlug parsed.slug)]
    exact safe_getBySlug fun _ _ => rfl
  refine safe_then (Contract.safe_attempt (hread.mono fun _ _ _ h => h)) fun r s₁ => ?_
  rcases r with e | existing
  · cases e with
    | notFound msg => exact safe_then (safe_createBoard fun _ => hconfig) fun _ _ => rfl
    | _ => exact rfl
  · dsimp only
    split
    · refine safe_then (safe_updateBoard ?_) fun _ _ => rfl
      simp only [UpdateBoard.Respects, Sync.boardPatch, Sync.patchField]
      split_ifs
      · rcases hconf : Sync.tierConfig parsed with _ | v
        · rwa [hconf] at hconfig
        · rwa [hconf] at hconfig
      · trivial
    · exact rfl

theorem safe_syncEntry {boardId : Uuid} {existing : List Entry} {entry : EntryToml} :
    (contract faulty P).Safe t closed (Sync.syncEntry boardId existing entry) none s := by
  unfold Sync.syncEntry
  split
  · exact safe_then safe_createEntry fun _ _ => rfl
  · split
    · exact safe_then safe_updateEntry fun _ _ => rfl
    · exact rfl

theorem safe_getLatest {boardId : Uuid} :
    (contract faulty P).Safe t closed (Versions.getLatest boardId) none s :=
  safe_select rfl fun _ _ _ _ _ _ _ _ _ _ => safe_okOr (fun _ => rfl) fun _ _ =>
    safe_select rfl fun _ _ _ _ _ _ _ _ _ _ => rfl

theorem safe_syncBoard {parsed : ParsedBoard} {note : Option String}
    (hconfig : P.config (Sync.tierConfig parsed)) (hmax : P.maxVersions = none) :
    (contract faulty P).Safe t closed (Sync.syncBoard parsed note) none s := by
  unfold Sync.syncBoard
  split
  · exact rfl
  · refine safe_then (safe_syncBoardRow hconfig) ?_
    rintro ⟨board, changed⟩ s₁
    dsimp only
    split
    · exact rfl
    · refine safe_select rfl fun _ s₂ _ _ existing _ _ _ _ _ => ?_
      refine safe_then ?_ fun _ s₃ => ?_
      · refine (Contract.safe_each (C := contract faulty P) (I := fun _ h _ => h = none)
          (E := fun _ h _ => h = none) ?_ rfl).mono fun r _ _ hpost => by cases r <;> exact hpost
        rintro entry _ _ s₃ rfl
        exact safe_syncEntry.mono fun r _ _ hpost => by cases r <;> exact hpost
      -- The board, and then each entry, is written by a call of its own; so is the version.
      · have hcreate : ∀ (needed : Bool) s₁, (contract faulty P).Safe t closed
            (if needed = true then
              Sync.createVersion parsed board note (parsed.entries.map Sync.placementOf)
            else pure { slug := parsed.slug, name := board.name, action := .noChange })
            none s₁ := by
          intro needed s₁
          split
          · exact safe_then (safe_createVersion (by simp [hmax])) fun _ _ => rfl
          · exact rfl
        split
        · exact hcreate true s₃
        · refine safe_then ?_ hcreate
          refine safe_then (Contract.safe_attempt (safe_getLatest.mono fun _ _ _ h => h))
            fun r s₄ => ?_
          rcases r with e | latest
          · cases e <;> exact rfl
          · exact rfl

theorem safe_syncDir {parsed : List ParsedBoard} {note : Option String}
    (hconfig : ∀ p ∈ parsed, P.config (Sync.tierConfig p)) (hmax : P.maxVersions = none) :
    (contract faulty P).Safe t closed (Sync.syncDir parsed note) none s := by
  refine (Contract.safe_collect (C := contract faulty P)
    (I := fun _ rest h _ => (∀ p ∈ rest, p ∈ parsed) ∧ h = none) (E := fun _ h _ => h = none) [] ?_
    ⟨fun _ hp => hp, rfl⟩).mono fun r _ _ hpost => by
      cases r with
      | ok a => exact hpost.2
      | error e => exact hpost
  rintro bs p rest _ s₁ ⟨hsub, rfl⟩
  refine Contract.safe_bind (Q := fun _ h _ => h = none) ?_ ?_
  · refine Contract.safe_attempt ?_
    exact (safe_syncBoard (hconfig p (hsub p List.mem_cons_self)) hmax).mono fun _ _ _ h => h
  · rintro r _ s₂ rfl
    cases r <;> exact ⟨fun q hq => hsub q (List.mem_cons_of_mem _ hq), rfl⟩

/-! ### Reads -/

theorem safe_getByNumber {boardId : Uuid} {n : ℤ} :
    (contract faulty P).Safe t closed (Versions.getByNumber boardId n) none s :=
  safe_select rfl fun _ _ _ _ _ _ _ _ _ _ => safe_okOr (fun _ => rfl) fun _ _ =>
    safe_select rfl fun _ _ _ _ _ _ _ _ _ _ => rfl

theorem safe_latest {board : Board} {keyPrefix : String} :
    (contract faulty P).Safe t closed (Realtime.latest board keyPrefix) none s := by
  have hnames : ∀ (members : List (String × F64)) 
      (f : List (Option String) → Action VersionWithPlacements) s₁,
      (∀ names s₂, (contract faulty P).Safe t closed (f names) none s₂) →
      (contract faulty P).Safe t closed (if members = [] then pure [] >>= f
        else Action.redis (.hget (Realtime.entriesKey keyPrefix board.slug)
          (members.map Prod.fst)) "Redis error" >>= f) none s₁ := by
    intro members f s₁ hf
    split
    · exact hf [] s₁
    · exact safe_redisCmd trivial (fun _ _ => rfl) fun _ s₂ names _ _ _ _ => hf names s₂
  unfold Realtime.latest
  dsimp only
  split
  · exact safe_redisCmd trivial (fun _ _ => rfl) fun _ s₁ r _ _ _ _ =>
      hnames r _ s₁ fun _ _ => rfl
  · exact safe_redisCmd trivial (fun _ _ => rfl) fun _ s₁ r _ _ _ _ =>
      hnames r _ s₁ fun _ _ => rfl

/-! ### All requests -/

/-- A caller passes the limit on versions that the policy states. -/
def Caller.Respects (P : Policy) (caller : Caller) : Prop :=
  ∀ m, P.maxVersions = some m → caller.maxVersions = some m

/-- A request stays within the policy. -/
def Request.Respects (P : Policy) : Request → Prop
  | .createBoard input => Boards.validateCreate input = .ok () → P.config input.tierConfig
  | .updateBoard _ input => input.Respects P
  | .createVersion caller .. => caller.Respects P
  | .snapshot caller .. => caller.Respects P
  | .importBoard _ doc => doc.Respects P
  | .createReference _ input => P.reference input
  | .sync parsed _ => (∀ p ∈ parsed, P.config (Sync.tierConfig p)) ∧ P.maxVersions = none
  | _ => True

/-- Without a policy every request respects it. -/
theorem Request.respects_default (r : Request) : r.Respects {} := by
  cases r with
  | updateBoard slug input =>
    simp only [Request.Respects, UpdateBoard.Respects]
    split <;> trivial
  | createBoard => exact fun _ => trivial
  | createVersion => exact fun _ h => nomatch h
  | snapshot => exact fun _ h => nomatch h
  | sync => exact ⟨fun _ _ => trivial, rfl⟩
  | importBoard => exact fun _ _ => ⟨⟨trivial, trivial⟩, fun h => h.elim⟩
  | _ => trivial

theorem safe_redisRequired {c : Prop} [Decidable c] {f : Unit → Action α}
    (hok : (contract faulty P).Safe t closed (f ()) none s) :
    (contract faulty P).Safe t closed (Prog.failIf c Routes.redisRequired >>= f) none s :=
  Contract.safe_failIf (fun _ => rfl) fun _ => hok

theorem safe_submitFrame {caller : Caller} {board : Board} {input : SubmitScore} :
    (contract faulty P).Safe t closed (Ws.submitScore caller board input) none s := by
  have hsubmit : (contract faulty P).Safe t closed
      (Realtime.submit board input caller.keyPrefix) none s := safe_submitRealtime
  unfold Ws.submitScore
  split
  · rfl
  · split
    · rfl
    · exact safe_then (Contract.safe_attempt (hsubmit.mono fun _ _ _ h => h)) fun _ _ => rfl

theorem safe_tryProcessScore {caller : Caller} {slug : String}
    {payload : Except String SubmitScore} {writeAuthorized : Bool} : (contract faulty P).Safe t
      closed (Ws.tryProcessScore caller slug payload writeAuthorized) none s := by
  have hread : (contract faulty P).Safe t closed (Boards.getBySlug slug) none s := by
    rw [← bind_pure (Boards.getBySlug slug)]
    exact safe_getBySlug fun _ _ => rfl
  unfold Ws.tryProcessScore
  split
  · rfl
  · split
    · rfl
    · refine safe_then (Contract.safe_attempt (hread.mono fun _ _ _ h => h)) fun r s₁ => ?_
      rcases r with e | board
      · rfl
      · exact safe_submitFrame

/-- **Every request keeps the contract**, and leaves its connection idle. -/
theorem Request.safe {r : Request} (hr : r.Respects P) :
    (contract faulty P).Safe t closed r.handler none s := by
  cases r with
  | createBoard input => exact safe_discard (safe_createBoard hr)
  | updateBoard slug input =>
    refine safe_discard ?_
    unfold Routes.updateBoard
    split
    · rw [← bind_pure (Boards.getBySlug slug)]
      exact safe_getBySlug fun _ _ => rfl
    · exact safe_updateBoard hr
  | deleteBoard caller slug =>
    refine safe_getBySlug fun b s₁ => ?_
    split
    · refine safe_redis ?_ (fun _ _ _ _ => safe_deleteBoard) fun _ _ _ _ _ _ _ => safe_deleteBoard
      simp [RedisCmd.Finite, RedisWrite.Finite]
    · exact safe_deleteBoard
  | createEntry slug input => exact safe_discard (safe_getBySlug fun _ _ => safe_createEntry)
  | updateEntry slug entrySlug input =>
    exact safe_discard (safe_getBySlug fun _ _ => safe_updateEntry)
  | deleteEntry slug entrySlug => exact safe_getBySlug fun _ _ => safe_deleteEntry
  | createVersion caller slug input =>
    exact safe_discard (Contract.safe_ofExcept (fun _ _ => rfl) fun _ _ =>
      safe_getBySlug fun _ _ => safe_createVersion hr)
  | getVersion slug n => exact safe_discard (safe_getBySlug fun _ _ => safe_getByNumber)
  | latest caller slug =>
    refine safe_discard (safe_getBySlug fun b s₁ => ?_)
    split
    · exact safe_redisRequired safe_latest
    · exact safe_getLatest
  | diff slug m n =>
    exact safe_discard (Contract.safe_failIf (fun _ => rfl) fun _ =>
      Contract.safe_failIf (fun _ => rfl) fun _ => safe_getBySlug fun _ _ =>
      safe_then safe_getByNumber fun _ _ => safe_then safe_getByNumber fun _ _ => rfl)
  | since slug n limit => exact safe_discard (safe_getBySlug fun _ _ => safe_select' rfl)
  | submit caller slug input =>
    refine safe_getBySlug fun b s₁ => ?_
    split
    · exact safe_redisRequired safe_submitRealtime
    · exact safe_then safe_submitScore fun _ _ => rfl
  | submitFrame caller slug payload writeAuthorized => exact safe_discard safe_tryProcessScore
  | snapshot caller slug input =>
    refine safe_discard (safe_getKnownBoard fun b s₁ _ hknown hchecks => ?_)
    split
    · rename_i hrealtime
      exact safe_redisRequired (safe_realtimeSnapshot hknown (hchecks.2.2.2.1 hrealtime).2 hr)
    · exact safe_scoresSnapshot hknown hr
  | exportBoard slug =>
    exact safe_discard (safe_getBySlug fun _ _ => safe_select rfl fun _ _ _ _ _ _ _ _ _ _ =>
      safe_select rfl fun _ _ _ _ _ _ _ _ _ _ => rfl)
  | importBoard hashOrder doc => exact safe_discard (safe_importBoard hr)
  | sync parsed note => exact safe_discard (safe_syncDir hr.1 hr.2)
  | createReference slug input =>
    exact safe_discard (safe_getKnownBoard fun _ _ hs _ _ => safe_createReference hr hs)
  | deleteReference slug referenceId => exact safe_getBySlug fun _ _ => safe_deleteReference
  | createCollection input => exact safe_discard safe_createCollection
  | updateCollection slug input =>
    refine safe_discard ?_
    unfold Routes.updateCollection
    split
    · exact safe_select rfl fun _ _ _ _ _ _ _ _ _ _ => by
        rw [← bind_pure (Action.okOr _ _)]
        exact safe_okOr (fun _ => rfl) fun _ _ => rfl
    · exact safe_updateCollection
  | deleteCollection slug => exact safe_deleteCollection

/-! ### Runs -/

/-- A state of the servers and the running handlers. -/
abbrev System (faulty : Prop) := (server faulty).State Error

/-- The handlers of the requests within a policy. -/
def Serves (P : Policy) (p : Action Unit) : Prop := ∃ r : Request, r.Respects P ∧ r.handler = p

namespace System

/-- One step of any handler, or a new request. -/
abbrev Step (P : Policy) : System faulty → System faulty → Prop := Machine.Step (Serves P)

/-- Any number of steps of any handlers. -/
abbrev Steps (P : Policy) : System faulty → System faulty → Prop := Machine.Run (Serves P)

/-- A run with its events. -/
abbrev Trace (allowed : Request → Prop) (g₀ : System faulty) :
    List (Event Service Request) → (Tid → Option Request) → System faulty → Prop :=
  Machine.Trace Request.handler allowed g₀

/-- Empty servers with a database of any collation, and no handlers. -/
def initial (faulty : Prop) (collation : Collation) : System faulty :=
  Machine.quiet (M := server faulty) { db := { collation } }

/-- A run with its events is a run. -/
theorem Trace.steps {allowed : Request → Prop} {g₀ g : System faulty}
    {es : List (Event Service Request)} {who : Tid → Option Request}
    (h : System.Trace allowed g₀ es who g) (hallowed : ∀ r, allowed r → r.Respects P) :
    Steps P g₀ g := by
  refine h.run.lift id fun _ _ hstep => hstep.mono ?_
  rintro p ⟨r, hr, rfl⟩
  exact ⟨r, hallowed r hr, rfl⟩

/-- The states of all runs, whatever the collation. -/
def Reachable (P : Policy) (g : System faulty) : Prop :=
  ∃ collation, Steps P (initial faulty collation) g

theorem Reachable.initial (collation : Collation) : Reachable P (initial faulty collation) :=
  ⟨collation, .refl⟩

theorem Reachable.trans {g g' : System faulty} (h : Reachable P g) (hrun : Steps P g g') :
    Reachable P g' := h.imp fun _ hbefore => Relation.ReflTransGen.trans hbefore hrun

theorem Reachable.tail {g g' : System faulty} (h : Reachable P g) (hstep : Step P g g') :
    Reachable P g' := h.trans (.single hstep)

/-- The committed state of the servers. -/
def servers (g : System faulty) : Server := g.shared

theorem serverInv_empty (collation : Collation) :
    ServerInv P { db := { collation } } where
  schema := Database.schema_empty collation
  board_used := by simp
  entry_used := by simp
  config := by simp
  references := by simp [ReferencesFollow]
  redis_finite _ _ h := nomatch h

theorem serves_safe (p : Action Unit) (hp : Serves P p) (t : Tid) (s : Server)
    (_ : ServerInv P s) : (contract faulty P).Safe t (fun _ _ _ => True) p none s := by
  obtain ⟨r, hr, rfl⟩ := hp
  exact (Request.safe hr).mono fun _ _ _ _ => trivial

/-- **In every reachable state the invariant holds and every handler is safe.** -/
theorem Reachable.good {g : System faulty} (h : Reachable P g) : (contract faulty P).Good g :=
  h.elim fun collation => Contract.sound serves_safe (Contract.good_quiet
    (serverInv_empty collation))

theorem Reachable.inv {g : System faulty} (h : Reachable P g) : ServerInv P g.servers := h.good.inv

/-- **A step leaves the committed tables alone or commits legal row writes.** -/
theorem Reachable.step_commits {g g' : System faulty} (h : Reachable P g) (hstep : Step P g g') :
    Unchanged g.servers g'.servers ∨ ∃ L, Commits P L g.servers g'.servers := by
  rcases (h.good.step serves_safe hstep).2 with heq | ⟨t, hs, L, hG⟩
  · exact .inl ⟨congrArg Server.db heq, congrArg Server.usedBoards heq,
      congrArg Server.usedEntries heq, fun hfin => (congrArg Server.redis heq) ▸ hfin⟩
  · exact hG.imp id fun hC => ⟨_, hC⟩

/-- What holds across any run: ids are never used twice. -/
theorem Reachable.rely {g g' : System faulty} (h : Reachable P g) (hrun : Steps P g g') :
    Rely [] g.servers g'.servers := by
  refine Contract.sound_rel serves_safe (R := Rely []) (fun sh => Rely.refl [] sh)
    (fun _ _ _ h₁ h₂ => Rely.trans h₁ h₂) (fun t hs L sh sh' hinv hG => ?_) h.good hrun
  exact hG.elim Unchanged.rely fun hC => hC.rely hinv (compatible_nil _)

end System

end Leaderboards
