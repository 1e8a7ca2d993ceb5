import Leaderboards.Routes

/-!
# What requests can do

`Prog.Uses` says which commands a program can issue, whatever the answers. Most requests are
`Plain`: they delete neither boards nor entries, add no live score, and store nothing under a
working key of scores (`Request.plain`). The others are the deletions, which are `Quiet` as far
as the live scores go, and the submissions.
-/

namespace Leaderboards

open Interaction Realtime

/-- A writing command that stores the working scores, if anything, under a temporary key for
scores. -/
def RedisWrite.Moves (w : RedisWrite) : Prop :=
  ∀ keyPrefix slug snapId, w.StoresAt (snapKey (scoresKey keyPrefix slug) snapId) →
    w = .rename (scoresKey keyPrefix slug) (snapKey (scoresKey keyPrefix slug) snapId)

/-- A Redis command that adds no score, stores nothing under a working key of scores, and nothing
but these scores under a temporary one. -/
def RedisCmd.Quiet (c : RedisCmd) : Prop :=
  ∀ w ∈ c.writes, (∀ key name x, w ≠ .zadd key name x) ∧
    (∀ keyPrefix slug, ¬w.StoresAt (scoresKey keyPrefix slug)) ∧ w.Moves

/-- A command that is quiet as far as the live scores go. -/
def Cmd.Quiet : Cmd → Prop
  | .redis c => c.Quiet
  | _ => True

/-- A command that deletes neither boards nor entries; whether it may insert a board, and which
commands it may send to Redis, are parameters. -/
def Cmd.PlainIn (boards : Prop) (redis : RedisCmd → Prop) : Cmd → Prop
  | .redis c => redis c
  | .sql (.insertBoard _) => boards
  | .sql (.deleteBoard _) => False
  | .sql (.deleteEntry _) => False
  | _ => True

/-- A command that is quiet and deletes neither boards nor entries. -/
abbrev Cmd.Plain : Cmd → Prop := Cmd.PlainIn True RedisCmd.Quiet

variable {boards boards' : Prop} {redis redis' : RedisCmd → Prop}

theorem Cmd.PlainIn.mono (hboards : boards → boards') (hredis : ∀ c, redis c → redis' c) {c : Cmd}
    (h : c.PlainIn boards redis) : c.PlainIn boards' redis' := by
  cases c with
  | redis c => exact hredis c h
  | sql q => cases q <;> first | exact h | exact hboards h
  | _ => exact h

theorem Cmd.PlainIn.quiet {c : Cmd} (h : c.PlainIn boards RedisCmd.Quiet) : c.Quiet := by
  cases c with
  | redis c => exact h
  | _ => trivial

/-- A command that inserts no board. -/
def Cmd.NoBoard : Cmd → Prop
  | .sql (.insertBoard _) => False
  | _ => True

theorem Cmd.PlainIn.noBoard {c : Cmd} (h : c.PlainIn False redis) : c.NoBoard := by
  cases c with
  | sql q => cases q <;> first | exact h | trivial
  | _ => trivial

variable {α β : Type} {Q : Cmd → Prop} {B : Prop} {R : RedisCmd → Prop}

/-- A program with these commands only. -/
abbrev Action.Uses (Q : Cmd → Prop) (p : Action α) : Prop := Prog.Uses (S := Service) Q p

/-! ### Instructions -/

theorem uses_trySql {q : Query} (hq : Q (.sql q)) : (Action.trySql q).Uses Q :=
  ⟨hq, fun _ => trivial⟩

theorem uses_sql {q : Query} (hq : Q (.sql q)) : (Action.sql q).Uses Q :=
  ⟨hq, fun r => by cases r <;> trivial⟩

theorem uses_redis {c : RedisCmd} {context : String} (hc : Q (.redis c)) :
    (Action.redis c context).Uses Q :=
  ⟨hc, fun r => by cases r <;> trivial⟩

theorem uses_redisIgnored {c : RedisCmd} (hc : Q (.redis c)) : (Action.redisIgnored c).Uses Q :=
  ⟨hc, fun _ => trivial⟩

theorem uses_okOr (x : Option α) (e : Error) : (Action.okOr x e).Uses Q := by
  cases x <;> trivial

theorem uses_transaction {body : Action α} (hbegin : Q .begin) (hcommit : Q .commit)
    (hrollback : Q .rollback) (hbody : body.Uses Q) : (Action.transaction body).Uses Q := by
  refine ⟨hbegin, fun r => ?_⟩
  cases r with
  | error e => trivial
  | ok _ =>
    refine Prog.uses_bind (Prog.uses_attempt hbody) fun x => ?_
    cases x with
    | error e => exact ⟨hrollback, fun _ => trivial⟩
    | ok a => exact ⟨hcommit, fun r => by cases r <;> trivial⟩

theorem uses_discard {p : Action α} (hp : p.Uses Q) : p.discard.Uses Q :=
  Prog.uses_bind hp fun _ => trivial

theorem plain_transaction {body : Action α} (hbody : body.Uses (Cmd.PlainIn B R)) :
    (Action.transaction body).Uses (Cmd.PlainIn B R) :=
  uses_transaction trivial trivial trivial hbody

/-- A validation does nothing. -/
theorem uses_check {x : Except Error α} {f : α → Action β} (hf : ∀ a, (f a).Uses Q) :
    (Prog.ofExcept x >>= f : Action β).Uses Q :=
  Prog.uses_bind (Prog.uses_ofExcept x) hf

theorem uses_guard {c : Prop} [Decidable c] {e : Error} {f : Unit → Action β}
    (hf : (f ()).Uses Q) : (Prog.failIf c e >>= f : Action β).Uses Q :=
  Prog.uses_bind (Prog.uses_failIf c e) fun _ => hf

theorem uses_row {x : Option α} {e : Error} {f : α → Action β} (hf : ∀ a, (f a).Uses Q) :
    (Action.okOr x e >>= f : Action β).Uses Q :=
  Prog.uses_bind (uses_okOr x e) hf

/-- A statement and what follows it. -/
theorem plain_then {q : Query} {f : q.Row → Action β} (hq : (Cmd.sql q).PlainIn B R)
    (hf : ∀ row, (f row).Uses (Cmd.PlainIn B R)) : (Action.sql q >>= f).Uses (Cmd.PlainIn B R) :=
  Prog.uses_bind (uses_sql hq) hf

/-! ### Boards and entries -/

theorem plain_getBySlug (slug : String) : (Boards.getBySlug slug).Uses (Cmd.PlainIn B R) :=
  plain_then trivial fun _ => uses_okOr _ _

theorem plain_insertBoard (input : CreateBoard) :
    (Boards.insert input).Uses (Cmd.PlainIn True R) := by
  refine Prog.uses_bind (uses_trySql trivial) fun r => ?_
  split <;> trivial

theorem plain_createBoard (input : CreateBoard) :
    (Boards.create input).Uses (Cmd.PlainIn True R) :=
  uses_check fun _ => plain_insertBoard input

theorem plain_updateBoard (slug : String) (input : UpdateBoard) :
    (Boards.update slug input).Uses (Cmd.PlainIn B R) :=
  uses_check fun _ => plain_transaction <| plain_then trivial fun _ => uses_row fun _ =>
    uses_check fun _ => uses_sql trivial

theorem plain_createEntry (boardId : Uuid) (input : CreateEntry) :
    (Entries.create boardId input).Uses (Cmd.PlainIn B R) := by
  refine uses_check fun _ => uses_check fun _ => Prog.uses_bind (uses_trySql trivial) fun r => ?_
  split <;> trivial

theorem plain_updateEntry (boardId : Uuid) (slug : String) (input : UpdateEntry) :
    (Entries.update boardId slug input).Uses (Cmd.PlainIn B R) := by
  have hbody : (Action.transaction do
      let row ← Action.sql (.selectEntryForUpdate boardId slug)
      let entry ← Action.okOr row (.notFound s!"entry '{slug}' not found")
      Action.sql (.updateEntry entry.id (input.name.getD entry.name)
        (input.metadata.apply entry.metadata))).Uses (Cmd.PlainIn B R) :=
    plain_transaction <| plain_then trivial fun _ => uses_row fun _ => uses_sql trivial
  unfold Entries.update
  split
  · exact uses_check fun _ => hbody
  · exact hbody

/-! ### Versions -/

theorem plain_checkVersionLimit (boardId : Uuid) (max : Option ℤ) :
    (Versions.checkVersionLimit boardId max).Uses (Cmd.PlainIn B R) := by
  cases max with
  | none => trivial
  | some max => exact plain_then trivial fun _ => Prog.uses_failIf _ _

theorem plain_insertPlacement (board : Board) (version : Version)
    (entries : List (Uuid × String × String)) (x : CreatePlacement × ℕ) :
    (Versions.insertPlacement board version entries x).Uses (Cmd.PlainIn B R) := by
  unfold Versions.insertPlacement
  split
  · trivial
  · exact plain_then trivial fun _ => trivial

theorem plain_createVersion (board : Board) (input : CreateVersion) (max : Option ℤ) :
    (Versions.create board input max).Uses (Cmd.PlainIn B R) := by
  refine uses_guard <| uses_check fun _ => plain_transaction <| plain_then trivial fun b =>
    Prog.uses_bind (plain_checkVersionLimit _ _) fun _ => uses_check fun _ =>
    plain_then trivial fun _ => plain_then trivial fun _ => plain_then trivial fun _ =>
    uses_check fun _ => Prog.uses_bind (Prog.uses_collect fun x => plain_insertPlacement _ _ _ x)
      fun _ => ?_
  split
  · exact plain_then trivial fun _ => plain_then trivial fun _ => trivial
  · trivial

theorem plain_getByNumber (boardId : Uuid) (n : ℤ) :
    (Versions.getByNumber boardId n).Uses (Cmd.PlainIn B R) :=
  plain_then trivial fun _ => uses_row fun _ => plain_then trivial fun _ => trivial

theorem plain_getLatest (boardId : Uuid) : (Versions.getLatest boardId).Uses (Cmd.PlainIn B R) :=
  plain_then trivial fun _ => uses_row fun _ => plain_then trivial fun _ => trivial

/-! ### Scores -/

theorem plain_submitScore (board : Board) (input : SubmitScore) :
    (Scores.submit board input).Uses (Cmd.PlainIn B R) :=
  uses_guard <| uses_guard <| uses_guard <| uses_check fun _ => uses_check fun _ =>
    plain_transaction <| plain_then trivial fun _ => uses_sql trivial

theorem plain_scoresSnapshot (board : Board) (note : Option String) (metadata : Option Json)
    (maxVersions : Option ℤ) (maxEntries : Option ℕ) :
    (Scores.snapshot board note metadata maxVersions maxEntries).Uses (Cmd.PlainIn B R) := by
  have hlimit : ∀ count : ℕ,
      (Scores.checkEntryLimit count maxEntries).Uses (Cmd.PlainIn B R) := by
    intro count
    cases maxEntries with
    | none => trivial
    | some max => exact Prog.uses_failIf _ _
  exact uses_guard <| uses_guard <| plain_transaction <| plain_then trivial fun b =>
    Prog.uses_bind (plain_checkVersionLimit _ _) fun _ => plain_then trivial fun _ =>
    uses_guard <| Prog.uses_bind (hlimit _) fun _ => plain_then trivial fun _ =>
    plain_then trivial fun _ =>
    Prog.uses_bind (Prog.uses_each fun _ => plain_then trivial fun _ => trivial) fun _ =>
    plain_then trivial fun _ => plain_then trivial fun _ => trivial

/-! ### Live scores -/

theorem quiet_of_writes {c : RedisCmd} (h : c.writes = []) : c.Quiet := by
  rw [RedisCmd.Quiet, h]
  simp

theorem quiet_del (keys : List String) : (RedisCmd.pipe (keys.map .del)).Quiet := by
  intro w hw
  obtain ⟨key, -, rfl⟩ := List.mem_map.mp hw
  exact ⟨fun _ _ _ => by simp, fun _ _ h => h, fun _ _ _ h => h.elim⟩

theorem quiet_rename (keyPrefix slug : String) (snapId : Uuid) :
    (RedisCmd.pipe [.rename (scoresKey keyPrefix slug) (snapKey (scoresKey keyPrefix slug) snapId),
      .rename (entriesKey keyPrefix slug) (snapKey (entriesKey keyPrefix slug) snapId)]).Quiet ∧
    (RedisCmd.rename (scoresKey keyPrefix slug)
      (snapKey (scoresKey keyPrefix slug) snapId)).Quiet := by
  have hrename : ∀ key newKey, newKey = snapKey key snapId →
      (∀ k n x, RedisWrite.rename key newKey ≠ .zadd k n x) ∧
        (∀ p s, ¬(RedisWrite.rename key newKey).StoresAt (scoresKey p s)) ∧
        (RedisWrite.rename key newKey).Moves := by
    rintro key _ rfl
    refine ⟨fun _ _ _ => by simp, fun p s => snapKey_ne_scoresKey key snapId p s, ?_⟩
    intro p s id hstores
    have hnew : snapKey key snapId = snapKey (scoresKey p s) id := hstores
    rw [hnew, snapKey_key hnew]
  constructor
  · intro w hw
    rcases List.mem_cons.mp hw with rfl | hw
    · exact hrename _ _ rfl
    · obtain rfl := List.mem_singleton.mp hw
      exact hrename _ _ rfl
  · intro w hw
    obtain rfl := List.mem_singleton.mp hw
    exact hrename _ _ rfl

/-- The live standings read Redis only. -/
theorem plain_latest (hread : ∀ c : RedisCmd, c.writes = [] → R c) (board : Board)
    (keyPrefix : String) : (Realtime.latest board keyPrefix).Uses (Cmd.PlainIn B R) := by
  have hnames : ∀ (members : List (String × F64))
      (f : List (Option String) → Action VersionWithPlacements),
      (∀ names, (f names).Uses (Cmd.PlainIn B R)) →
      (if members = [] then pure [] >>= f
        else Action.redis (.hget (entriesKey keyPrefix board.slug) (members.map Prod.fst))
          "Redis error" >>= f).Uses (Cmd.PlainIn B R) := by
    intro members f hf
    split
    · exact hf []
    · exact Prog.uses_bind (uses_redis (hread _ rfl)) hf
  unfold Realtime.latest
  dsimp only
  split
  · exact Prog.uses_bind (uses_redis (hread _ rfl)) fun _ => hnames _ _ fun _ => trivial
  · exact Prog.uses_bind (uses_redis (hread _ rfl)) fun _ => hnames _ _ fun _ => trivial

theorem plain_deleteSnapKeys (keys : Option (String × String)) :
    (deleteSnapKeys keys).Uses (Cmd.PlainIn B RedisCmd.Quiet) := by
  rcases keys with _ | ⟨sk, ek⟩
  · trivial
  · exact uses_redisIgnored (quiet_del [sk, ek])

theorem plain_abortIf (c : Prop) [Decidable c] (keys : Option (String × String)) (e : Error) :
    (abortIf c keys e).Uses (Cmd.PlainIn B RedisCmd.Quiet) := by
  unfold abortIf
  split
  · exact Prog.uses_bind (plain_deleteSnapKeys keys) fun _ => trivial
  · trivial

theorem plain_isolate (board : Board) (keyPrefix : String) :
    (isolate board keyPrefix).Uses (Cmd.PlainIn B RedisCmd.Quiet) := by
  unfold isolate
  dsimp only
  split
  · refine Prog.uses_bind (p := Action.newUuid) ⟨trivial, fun _ => trivial⟩ fun snapId =>
      Prog.uses_bind (uses_redis (quiet_of_writes rfl)) fun _ => uses_guard <|
      Prog.uses_bind (uses_redis (quiet_of_writes rfl)) fun _ => ?_
    split
    · exact Prog.uses_bind (uses_redis (quiet_rename _ _ _).1) fun _ => trivial
    · exact Prog.uses_bind (uses_redis (quiet_rename _ _ _).2) fun _ => trivial
  · trivial

theorem plain_realtimeSnapshot (board : Board) (note : Option String) (metadata : Option Json)
    (keyPrefix : String) (maxVersions : Option ℤ) (maxEntries : Option ℕ) :
    (Realtime.snapshot board note metadata keyPrefix maxVersions maxEntries).Uses
      (Cmd.PlainIn B RedisCmd.Quiet) := by
  have hversions : ∀ (boardId : Uuid) (keys : Option (String × String)),
      (Realtime.checkVersionLimit boardId keys maxVersions).Uses
        (Cmd.PlainIn B RedisCmd.Quiet) := by
    intro boardId keys
    cases maxVersions with
    | none => trivial
    | some max => exact plain_then trivial fun _ => plain_abortIf _ _ _
  have hentries : ∀ (count : ℕ) (keys : Option (String × String)),
      (Realtime.checkEntryLimit count keys maxEntries).Uses (Cmd.PlainIn B RedisCmd.Quiet) := by
    intro count keys
    cases maxEntries with
    | none => trivial
    | some max => exact plain_abortIf _ _ _
  have hscore :
      ∀ version entries x, (Realtime.insertScore version entries x).Uses
        (Cmd.PlainIn B RedisCmd.Quiet) := by
    intro version entries x
    unfold Realtime.insertScore
    split
    · trivial
    · exact plain_then trivial fun _ => trivial
  refine Prog.uses_bind (plain_isolate board keyPrefix) fun keys => ?_
  refine Prog.uses_bind (plain_transaction ?_) fun _ =>
    Prog.uses_bind (plain_deleteSnapKeys _) fun _ => trivial
  exact plain_then trivial fun _ => Prog.uses_bind (hversions _ _) fun _ =>
    Prog.uses_bind (uses_redis (quiet_of_writes rfl)) fun _ =>
    Prog.uses_bind (plain_abortIf _ _ _) fun _ => Prog.uses_bind (hentries _ _) fun _ =>
    plain_then trivial fun _ => plain_then trivial fun _ => plain_then trivial fun _ =>
    Prog.uses_bind (Prog.uses_each fun _ => hscore _ _ _) fun _ =>
    plain_then trivial fun _ => plain_then trivial fun _ => trivial

/-! ### Import, sync and references -/

theorem plain_exportBoard (slug : String) : (Export.exportBoard slug).Uses (Cmd.PlainIn B R) :=
  Prog.uses_bind (plain_getBySlug slug) fun _ => plain_then trivial fun _ =>
    plain_then trivial fun _ => trivial

theorem plain_importBoard (hashOrder : Export.HashOrder) (doc : BoardExport) :
    (Export.importBoard hashOrder doc).Uses (Cmd.PlainIn True R) := by
  have hplacement : ∀ versionId ids p,
      (Export.importPlacement versionId ids p).Uses (Cmd.PlainIn True R) := by
    intro versionId ids p
    unfold Export.importPlacement
    split
    · trivial
    · exact plain_then trivial fun _ => trivial
  have hversion : ∀ board ids v,
      (Export.importVersion board ids v).Uses (Cmd.PlainIn True R) := by
    intro board ids v
    refine plain_then trivial fun _ =>
      Prog.uses_bind (Prog.uses_each fun _ => hplacement _ _ _) fun _ => ?_
    split
    · exact uses_sql trivial
    · trivial
  exact uses_check fun _ => plain_transaction <| uses_check fun _ =>
    Prog.uses_bind (plain_insertBoard _) fun _ =>
    Prog.uses_bind (Prog.uses_collect fun _ => uses_check fun _ => uses_check fun _ =>
      plain_then trivial fun _ => trivial) fun _ =>
    Prog.uses_bind (Prog.uses_each fun _ => hversion _ _ _) fun _ => trivial

theorem plain_syncBoardRow (parsed : ParsedBoard) :
    (Sync.syncBoardRow parsed).Uses (Cmd.PlainIn True R) := by
  refine Prog.uses_bind (Prog.uses_attempt (plain_getBySlug _)) fun r => ?_
  split
  · split
    · exact Prog.uses_bind (plain_updateBoard _ _) fun _ => trivial
    · trivial
  · exact Prog.uses_bind (plain_createBoard _) fun _ => trivial
  · trivial

theorem plain_syncBoard (parsed : ParsedBoard) (note : Option String) :
    (Sync.syncBoard parsed note).Uses (Cmd.PlainIn True R) := by
  have hentry : ∀ boardId existing entry,
      (Sync.syncEntry boardId existing entry).Uses (Cmd.PlainIn True R) := by
    intro boardId existing entry
    unfold Sync.syncEntry
    split
    · exact Prog.uses_bind (plain_createEntry _ _) fun _ => trivial
    · split
      · exact Prog.uses_bind (plain_updateEntry _ _ _) fun _ => trivial
      · trivial
  have hneeds : ∀ board placements,
      (Sync.needsVersion board placements).Uses (Cmd.PlainIn True R) := by
    intro board placements
    refine Prog.uses_bind (Prog.uses_attempt (plain_getLatest _)) fun r => ?_
    split <;> trivial
  have hcreate : ∀ board placements,
      (Sync.createVersion parsed board note placements).Uses (Cmd.PlainIn True R) :=
    fun _ _ => Prog.uses_bind (plain_createVersion _ _ _) fun _ => trivial
  have hrest : ∀ board placements (needed : Bool), (if needed = true then
      Sync.createVersion parsed board note placements
      else pure ⟨parsed.slug, board.name, .noChange⟩).Uses (Cmd.PlainIn True R) := by
    intro board placements needed
    split
    · exact hcreate board placements
    · trivial
  unfold Sync.syncBoard
  split
  · trivial
  · refine Prog.uses_bind (plain_syncBoardRow parsed) fun r => ?_
    dsimp only
    split
    · trivial
    · refine Prog.uses_bind (uses_sql trivial) fun existing =>
        Prog.uses_bind (Prog.uses_each fun _ => hentry _ _ _) fun _ => ?_
      split
      · exact hrest _ _ true
      · exact Prog.uses_bind (hneeds _ _) fun needed => hrest _ _ needed

theorem plain_syncDir (parsed : List ParsedBoard) (note : Option String) :
    (Sync.syncDir parsed note).Uses (Cmd.PlainIn True R) := by
  refine Prog.uses_collect fun p =>
    Prog.uses_bind (Prog.uses_attempt (plain_syncBoard p note)) fun r => ?_
  split <;> trivial

theorem plain_createReference (boardId : Uuid) (input : CreateReference) :
    (References.create boardId input).Uses (Cmd.PlainIn B R) := by
  have hpin : (References.resolvePin boardId input.pinnedVersionNumber).Uses (Cmd.PlainIn B R) := by
    unfold References.resolvePin
    split
    · trivial
    · exact plain_then trivial fun _ => uses_row fun _ => trivial
  exact uses_check fun _ => uses_check fun _ => uses_check fun _ =>
    Prog.uses_bind hpin fun _ => uses_sql trivial

theorem plain_updateCollection (slug : String) (input : UpdateCollection) :
    (Collections.update slug input).Uses (Cmd.PlainIn B R) := by
  have hbody : (Action.transaction do
      let row ← Action.sql (.selectCollectionBySlugForUpdate slug)
      let collection ← Action.okOr row (.notFound s!"collection '{slug}' not found")
      Action.sql (.updateCollection collection.id (input.name.getD collection.name)
        (input.metadata.apply collection.metadata))).Uses (Cmd.PlainIn B R) :=
    plain_transaction <| plain_then trivial fun _ => uses_row fun _ => uses_sql trivial
  unfold Collections.update
  split
  · exact uses_check fun _ => hbody
  · exact hbody

/-! ### Requests -/

/-- The request adds live scores. -/
def Request.submits : Request → Prop
  | .submit .. => True
  | .submitFrame .. => True
  | _ => False

/-- The request deletes a board or an entry. -/
def Request.deletes : Request → Prop
  | .deleteBoard .. => True
  | .deleteEntry .. => True
  | _ => False

/-- The request may insert a board. -/
def Request.insertsBoard : Request → Prop
  | .createBoard .. => True
  | .importBoard .. => True
  | .sync .. => True
  | _ => False

/-- A request that neither submits nor deletes is plain. It inserts a board only when that is what
it is for, and the commands that it sends to Redis are reads and those of a snapshot. -/
theorem Request.plainIn {r : Request} (hs : ¬r.submits) (hd : ¬r.deletes)
    (hboards : r.insertsBoard → B) (hread : ∀ c : RedisCmd, c.writes = [] → R c)
    (hsnapshot : ∀ board note metadata keyPrefix maxVersions maxEntries,
      (Realtime.snapshot board note metadata keyPrefix maxVersions maxEntries).Uses
        (Cmd.PlainIn B R)) : r.handler.Uses (Cmd.PlainIn B R) := by
  have hinserts : r.insertsBoard → ∀ c, Cmd.PlainIn True R c → Cmd.PlainIn B R c :=
    fun hr _ => Cmd.PlainIn.mono (fun _ => hboards hr) fun _ => id
  cases r with
  | createBoard input =>
    exact uses_discard ((plain_createBoard input).mono (hinserts trivial))
  | updateBoard slug input =>
    refine uses_discard ?_
    unfold Routes.updateBoard
    split
    · exact plain_getBySlug slug
    · exact plain_updateBoard slug input
  | deleteBoard => exact absurd trivial hd
  | createEntry slug input =>
    exact uses_discard (Prog.uses_bind (plain_getBySlug slug) fun _ => plain_createEntry _ _)
  | updateEntry slug entrySlug input =>
    exact uses_discard (Prog.uses_bind (plain_getBySlug slug) fun _ => plain_updateEntry _ _ _)
  | deleteEntry => exact absurd trivial hd
  | createVersion caller slug input =>
    exact uses_discard (uses_check fun _ => Prog.uses_bind (plain_getBySlug slug) fun _ =>
      plain_createVersion _ _ _)
  | getVersion slug n =>
    exact uses_discard (Prog.uses_bind (plain_getBySlug slug) fun _ => plain_getByNumber _ _)
  | latest caller slug =>
    refine uses_discard (Prog.uses_bind (plain_getBySlug slug) fun b => ?_)
    split
    · exact uses_guard (plain_latest hread _ _)
    · exact plain_getLatest _
  | diff slug m n =>
    exact uses_discard (uses_guard <| uses_guard <| Prog.uses_bind (plain_getBySlug slug) fun _ =>
      Prog.uses_bind (plain_getByNumber _ _) fun _ =>
      Prog.uses_bind (plain_getByNumber _ _) fun _ => trivial)
  | since slug n limit =>
    exact uses_discard (Prog.uses_bind (plain_getBySlug slug) fun _ => uses_sql trivial)
  | submit => exact absurd trivial hs
  | submitFrame => exact absurd trivial hs
  | snapshot caller slug input =>
    refine uses_discard (Prog.uses_bind (plain_getBySlug slug) fun b => ?_)
    split
    · exact uses_guard (hsnapshot _ _ _ _ _ _)
    · exact plain_scoresSnapshot _ _ _ _ _
  | exportBoard slug => exact uses_discard (plain_exportBoard slug)
  | importBoard hashOrder doc =>
    exact uses_discard
      ((plain_importBoard hashOrder doc).mono (hinserts trivial))
  | sync parsed note =>
    exact uses_discard ((plain_syncDir parsed note).mono (hinserts trivial))
  | createReference slug input =>
    exact uses_discard (Prog.uses_bind (plain_getBySlug slug) fun _ => plain_createReference _ _)
  | deleteReference slug referenceId =>
    exact Prog.uses_bind (plain_getBySlug slug) fun _ => plain_then trivial fun _ =>
      Prog.uses_failIf _ _
  | createCollection input =>
    refine uses_discard (uses_check fun _ => uses_check fun _ =>
      Prog.uses_bind (uses_trySql trivial) fun r => ?_)
    split <;> trivial
  | updateCollection slug input =>
    refine uses_discard ?_
    unfold Routes.updateCollection
    split
    · exact plain_then trivial fun _ => uses_okOr _ _
    · exact plain_updateCollection slug input
  | deleteCollection slug => exact plain_then trivial fun _ => Prog.uses_failIf _ _

/-- **A request that neither submits nor deletes is plain.** -/
theorem Request.plain {r : Request} (hs : ¬r.submits) (hd : ¬r.deletes) :
    r.handler.Uses Cmd.Plain :=
  Request.plainIn hs hd (fun _ => trivial) (fun _ => quiet_of_writes) plain_realtimeSnapshot

/-- A deletion uses plain commands, those that delete rows and the one that clears the scores of a
board. -/
theorem Request.uses_of_deletes (hplain : ∀ c : Cmd, c.PlainIn False (fun _ => False) → Q c)
    (hboard : ∀ slug, Q (.sql (.deleteBoard slug))) (hentry : ∀ id, Q (.sql (.deleteEntry id)))
    (hclear : ∀ keyPrefix slug,
      Q (.redis (.pipe [.del (scoresKey keyPrefix slug), .del (entriesKey keyPrefix slug)])))
    {r : Request} (hr : r.deletes) : r.handler.Uses Q := by
  have hread : ∀ slug, (Boards.getBySlug slug).Uses Q := fun slug =>
    (plain_getBySlug slug).mono hplain
  cases r with
  | deleteBoard caller slug =>
    have hdelete : (Boards.delete slug).Uses Q :=
      Prog.uses_bind (uses_sql (hboard _)) fun _ => Prog.uses_failIf _ _
    refine Prog.uses_bind (hread slug) fun b => ?_
    split
    · exact Prog.uses_bind (Prog.uses_attempt (uses_redis (hclear _ _))) fun _ => hdelete
    · exact hdelete
  | deleteEntry slug entrySlug =>
    refine Prog.uses_bind (hread slug) fun _ => uses_transaction (hplain _ trivial)
      (hplain _ trivial) (hplain _ trivial) ?_
    exact Prog.uses_bind (uses_sql (hplain _ trivial)) fun _ => uses_row fun _ =>
      Prog.uses_bind (uses_sql (hplain _ trivial)) fun _ => uses_guard (uses_sql (hentry _))
  | _ => exact hr.elim

/-- **A request that does not submit is quiet.** -/
theorem Request.quiet {r : Request} (hs : ¬r.submits) : r.handler.Uses Cmd.Quiet := by
  by_cases hd : r.deletes
  · refine Request.uses_of_deletes (fun _ hc => ?_) (fun _ => trivial) (fun _ => trivial)
      (fun keyPrefix slug => ?_) hd
    · exact (hc.mono id fun _ => False.elim).quiet
    · exact quiet_del [scoresKey keyPrefix slug, entriesKey keyPrefix slug]
  · exact (Request.plain hs hd).mono fun _ => Cmd.PlainIn.quiet

/-- A submission uses plain commands and the one that adds its score. -/
theorem Request.uses_of_submits (hplain : ∀ c : Cmd, c.PlainIn False (fun _ => False) → Q c)
    (hredis : ∀ keyPrefix slug entrySlug score entryName,
      Q (.redis (.pipe [.zadd (scoresKey keyPrefix slug) entrySlug score,
        .hset (entriesKey keyPrefix slug) entrySlug entryName])))
    {r : Request} (hr : r.submits) : r.handler.Uses Q := by
  have hread : ∀ slug, (Boards.getBySlug slug).Uses Q := fun slug =>
    (plain_getBySlug slug).mono hplain
  have hsubmit : ∀ board input keyPrefix, (Realtime.submit board input keyPrefix).Uses Q :=
    fun board input keyPrefix => uses_guard <| uses_guard <| uses_check fun _ => uses_check fun _ =>
      Prog.uses_bind (uses_sql (hplain _ trivial)) fun _ => uses_redis (hredis _ _ _ _ _)
  cases r with
  | submit caller slug input =>
    refine Prog.uses_bind (hread slug) fun b => ?_
    split
    · exact uses_guard (hsubmit b input caller.keyPrefix)
    · exact Prog.uses_bind ((plain_submitScore b input).mono hplain) fun _ => trivial
  | submitFrame caller slug payload writeAuthorized =>
    -- A frame is a submission after its own checks.
    have hframe : ∀ board input, (Ws.submitScore caller board input).Uses Q := by
      intro board input
      unfold Ws.submitScore
      split
      · trivial
      · split
        · trivial
        · exact Prog.uses_bind (Prog.uses_attempt (hsubmit _ _ _)) fun _ => trivial
    refine uses_discard ?_
    unfold Ws.tryProcessScore
    split
    · trivial
    · split
      · trivial
      · refine Prog.uses_bind (Prog.uses_attempt (hread slug)) fun x => ?_
        cases x with
        | error e => trivial
        | ok board => exact hframe _ _
  | _ => exact hr.elim

/-- **Only the requests that are for it insert a board.** -/
theorem Request.noBoard {r : Request} (hr : ¬r.insertsBoard) : r.handler.Uses Cmd.NoBoard := by
  by_cases hs : r.submits
  · exact Request.uses_of_submits (fun _ => Cmd.PlainIn.noBoard) (fun _ _ _ _ _ => trivial) hs
  by_cases hd : r.deletes
  · exact Request.uses_of_deletes (fun _ => Cmd.PlainIn.noBoard) (fun _ => trivial)
      (fun _ => trivial) (fun _ _ => trivial) hd
  · refine (Request.plainIn hs hd (fun h => absurd h hr) (fun _ => quiet_of_writes) ?_).mono
      fun _ => Cmd.PlainIn.noBoard
    exact plain_realtimeSnapshot

end Leaderboards
