import Leaderboards.Properties.VersionListings
import Leaderboards.Transactions.Reading

/-!
# The order of the periods

A snapshot of a `clear_on_snapshot` board cuts a period when it renames the working keys, and gets
its version number later, under the board lock. `Periods` is what a run shows of this: which
handler made which cut, and which cuts have been committed as which versions. The numbers follow
the order of the cuts exactly when the snapshots commit in the order in which they cut
(**`periods_numbered`**). Nothing in the code sees to that (`periods_misnumbered`).
-/

namespace Leaderboards

open Interaction Ranking

/-! ### What a run shows -/

/-- The command renames a key. -/
def RedisCmd.renames (key : String) : RedisCmd → Bool
  | .rename k _ => k = key
  | .pipe commands => commands.any fun
    | .rename k _ => k = key
    | _ => false
  | _ => false

/-- How far a handler is with a snapshot: the cut that it has made, counted over the run, and the
version that it has inserted, while a transaction is open that deletes no board. -/
structure Progress where
  cut : Option ℕ := none
  tx : Option (Option Version) := none

/-- What a run shows of the periods of a board. -/
structure Periods where
  cuts : ℕ := 0
  progress : Tid → Progress := fun _ => {}
  /-- The cuts that have been committed with their versions, in the order of the commits. -/
  committed : List (ℕ × Version) := []

/-- What an answered instruction means for the periods of a board. -/
inductive Sign
  | cuts
  | begins
  | inserts (v : Version)
  | commits
  | ends
  | nothing

/-- What an instruction means that has been answered, for the board with a key and an id. -/
def sign (key : String) (boardId : Uuid) : (c : Cmd) → c.Res → Sign
  | .redis c, .ok _ => if c.renames key then .cuts else .nothing
  | .begin, .ok _ => .begins
  | .sql (.insertVersion id _ _ _), .ok v => if id = boardId then .inserts v else .nothing
  | .sql (.deleteBoard _), _ => .ends
  | .commit, .ok _ => .commits
  | .commit, .error _ => .ends
  | .rollback, _ => .ends
  | _, _ => .nothing

/-- The transaction that a handler shows, after a sign. -/
def Sign.tx (old : Option (Option Version)) : Sign → Option (Option Version)
  | .cuts => old
  | .begins => some none
  | .inserts v => old.map fun _ => some v
  | .commits => none
  | .ends => none
  | .nothing => old

namespace Periods

/-- Set the progress of a handler. -/
def set (p : Periods) (t : Tid) (x : Progress) : Periods :=
  { p with progress := Function.update p.progress t x }

/-- A handler shows a sign. -/
def note (p : Periods) (t : Tid) : Sign → Periods
  | .cuts => { p.set t { p.progress t with cut := some p.cuts } with cuts := p.cuts + 1 }
  | .commits =>
    match p.progress t with
    | ⟨some k, some (some v)⟩ => { p.set t {} with committed := p.committed ++ [(k, v)] }
    | ⟨cut, _⟩ => p.set t { cut := cut }
  | s => p.set t { p.progress t with tx := s.tx (p.progress t).tx }

/-- The periods after an event. -/
def observe (key : String) (boardId : Uuid) (p : Periods) : Event Service Request → Periods
  | .call t _ => p.set t {}
  | .exec t _ c a => p.note t (sign key boardId c a)
  | .crash t => p.set t {}

end Periods

/-- The periods of a board in a run. -/
def periods (key : String) (boardId : Uuid) (es : List (Event Service Request)) : Periods :=
  es.foldl (Periods.observe key boardId) {}

theorem periods_append (key : String) (boardId : Uuid) (es : List (Event Service Request))
    (e : Event Service Request) :
    periods key boardId (es ++ [e]) = (periods key boardId es).observe key boardId e :=
  List.foldl_concat ..

/-! ### A cut belongs to one handler, and is committed once -/

/-- The cuts of the handlers and the committed cuts are all different. -/
structure Periods.Distinct (p : Periods) : Prop where
  counted : ∀ t k, (p.progress t).cut = some k → k < p.cuts
  own : ∀ t u k, (p.progress t).cut = some k → (p.progress u).cut = some k → t = u
  open_ : ∀ t k, (p.progress t).cut = some k → k ∉ p.committed.map Prod.fst
  committed_counted : ∀ k ∈ p.committed.map Prod.fst, k < p.cuts
  nodup : (p.committed.map Prod.fst).Nodup

namespace Periods

variable {p : Periods} {t : Tid} {x : Progress}

theorem set_progress (u : Tid) :
    (p.set t x).progress u = if u = t then x else p.progress u := by
  by_cases h : u = t
  · subst h
    simp [set]
  · simp [set, h]

/-- A handler may forget its cut, or keep it. -/
theorem Distinct.set (h : p.Distinct) (hx : ∀ k, x.cut = some k → (p.progress t).cut = some k) :
    (p.set t x).Distinct := by
  have hold : ∀ u k, ((p.set t x).progress u).cut = some k → (p.progress u).cut = some k := by
    intro u k hu
    rw [set_progress] at hu
    split at hu
    · rename_i heq
      exact heq ▸ hx k hu
    · exact hu
  exact ⟨fun u k hu => h.counted u k (hold u k hu),
    fun u w k hu hw => h.own u w k (hold u k hu) (hold w k hw),
    fun u k hu => h.open_ u k (hold u k hu), h.committed_counted, h.nodup⟩

theorem Distinct.note (h : p.Distinct) (s : Sign) : (p.note t s).Distinct := by
  cases s with
  | cuts =>
    have hcases : ∀ u k, ((p.note t .cuts).progress u).cut = some k →
        (u = t ∧ k = p.cuts) ∨ (p.progress u).cut = some k := by
      intro u k hu
      change ((p.set t _).progress u).cut = some k at hu
      rw [set_progress] at hu
      split at hu
      · exact .inl ⟨‹_›, (Option.some.inj hu).symm⟩
      · exact .inr hu
    refine ⟨fun u k hu => ?_, fun u w k hu hw => ?_, fun u k hu => ?_, fun k hk => ?_, h.nodup⟩
    · change k < p.cuts + 1
      rcases hcases u k hu with ⟨-, rfl⟩ | hu
      · omega
      · have hlt := h.counted u k hu
        omega
    · rcases hcases u k hu with ⟨rfl, hk⟩ | hu'
      · rcases hcases w k hw with ⟨rfl, -⟩ | hw'
        · rfl
        · have hlt := h.counted w k hw'
          omega
      · rcases hcases w k hw with ⟨rfl, hk⟩ | hw'
        · have hlt := h.counted u k hu'
          omega
        · exact h.own u w k hu' hw'
    · rcases hcases u k hu with ⟨-, rfl⟩ | hu
      · exact fun hk => Nat.lt_irrefl _ (h.committed_counted _ hk)
      · exact h.open_ u k hu
    · exact Nat.lt_succ_of_lt (h.committed_counted k hk)
  | commits =>
    simp only [Periods.note]
    split
    -- A commit closes the period that the thread had open; periods of other threads stay open.
    · rename_i k v hprogress
      have hk : (p.progress t).cut = some k := congrArg Progress.cut hprogress
      have hset : (p.set t {}).Distinct := h.set fun _ hk => nomatch hk
      have hmap : (p.committed ++ [(k, v)]).map Prod.fst = p.committed.map Prod.fst ++ [k] := by
        simp
      refine ⟨hset.counted, hset.own, fun u j hu hmem => ?_, fun j hj => ?_, ?_⟩
      · rw [hmap, List.mem_append, List.mem_singleton] at hmem
        rcases hmem with hmem | rfl
        · exact hset.open_ u j hu hmem
        · change ((p.set t {}).progress u).cut = some j at hu
          rw [set_progress] at hu
          split at hu
          · cases hu
          · exact absurd (h.own u t j hu hk) ‹_›
      · rw [hmap, List.mem_append, List.mem_singleton] at hj
        rcases hj with hj | rfl
        · exact h.committed_counted j hj
        · exact h.counted t j hk
      · rw [hmap, List.nodup_append]
        refine ⟨h.nodup, List.nodup_singleton _, fun a ha b hb => ?_⟩
        rw [List.mem_singleton.mp hb]
        rintro rfl
        exact h.open_ t a hk ha
    · rename_i cut version _ hprogress
      exact h.set fun k hk => by rw [hprogress]; exact hk
  | _ => exact h.set fun _ hk => hk

end Periods

theorem periods_distinct (key : String) (boardId : Uuid) (es : List (Event Service Request)) :
    (periods key boardId es).Distinct := by
  induction es using List.reverseRecOn with
  | nil => exact ⟨fun _ _ h => (nomatch h), fun _ _ _ h => (nomatch h), fun _ _ h => (nomatch h),
      fun _ h => (nomatch h), List.nodup_nil⟩
  | append_singleton es e ih =>
    rw [periods_append]
    cases e with
    | call t r => exact ih.set fun _ h => nomatch h
    | exec t r c a => exact ih.note _
    | crash t => exact ih.set fun _ h => nomatch h

/-! ### The versions of the periods -/

namespace Periods

variable {p : Periods} {t u : Tid} {x : Progress}

theorem note_tx (s : Sign) : ((p.note t s).progress t).tx = s.tx (p.progress t).tx := by
  have hself : ∀ x, (p.set t x).progress t = x := fun x => by rw [set_progress, if_pos rfl]
  cases s with
  | cuts =>
    have hcut := congrArg Progress.tx (hself { p.progress t with cut := some p.cuts })
    exact hcut
  | commits =>
    simp only [note]
    split
    · exact congrArg Progress.tx (hself _)
    · exact congrArg Progress.tx (hself _)
  | _ => exact congrArg Progress.tx (hself _)

theorem note_progress (s : Sign) (hu : u ≠ t) : (p.note t s).progress u = p.progress u := by
  have hother : ∀ x, (p.set t x).progress u = p.progress u := fun x => by
    rw [set_progress, if_neg hu]
  cases s with
  | commits =>
    simp only [note]
    split
    · exact hother _
    · exact hother _
  | _ => exact hother _

/-- A commit adds the period that the handler has cut and inserted; nothing else adds one. -/
theorem note_committed (s : Sign) : (p.note t s).committed = p.committed ∨
    s = .commits ∧ ∃ k v, p.progress t = ⟨some k, some (some v)⟩ ∧
      (p.note t s).committed = p.committed ++ [(k, v)] := by
  cases s with
  | commits =>
    simp only [note]
    split
    · rename_i k v hprogress
      exact .inr ⟨trivial, k, v, hprogress, rfl⟩
    · exact .inl rfl
  | _ => exact .inl rfl

end Periods

variable {P : Policy} {faulty : Prop} {key : String} {id : Uuid} {g₀ g g' : System faulty}
  {es : List (Event Service Request)} {who : Tid → Option Request}

/-- Without the removal of a board, row writes keep all versions. -/
theorem mem_versions_of_keeps {ws : List RowWrite} (hws : ∀ boardId, .removeBoard boardId ∉ ws)
    {db : Database} {v : Version} (hv : v ∈ db.versions ∨ .addVersion v ∈ ws) :
    v ∈ (db.applyAll ws).versions := by
  induction ws generalizing db with
  | nil => exact hv.resolve_right List.not_mem_nil
  | cons w ws ih =>
    refine ih (fun boardId hmem => hws boardId (List.mem_cons_of_mem _ hmem)) ?_
    rcases hv with hv | hv
    · cases w with
      | addVersion r => exact .inl (List.mem_append_left _ hv)
      | removeBoard boardId => exact absurd List.mem_cons_self (hws boardId)
      | _ => exact .inl hv
    · rcases List.mem_cons.mp hv with rfl | hv
      · exact .inl (List.mem_append_right _ List.mem_cons_self)
      · exact .inr hv

/-- The open transaction of a session removes no board, and has inserted the version of the board,
if one is given, which is new; the lock of its id is held. -/
structure Pending (id : Uuid) (x : Option Version) (tx : Tx) (db : Database) : Prop where
  keeps : ∀ boardId, .removeBoard boardId ∉ tx.writes
  board : ∀ v, x = some v → v.boardId = id
  inserted : ∀ v, x = some v → .addVersion v ∈ tx.writes
  new : ∀ v, x = some v → v ∉ db.versions
  lock : ∀ v, x = some v → Held tx.locks (.version v.id) .keyShare

/-- Others cannot insert the same version. -/
theorem Pending.of_rely {x : Option Version} {tx : Tx} {s s' : Server} (h : Pending id x tx s.db)
    (hrely : Rely tx.locks s s') : Pending id x tx s'.db where
  keeps := h.keeps
  board := h.board
  inserted := h.inserted
  new v hv hold := h.new v hv ((hrely.agree.version_row v (h.lock v hv)).mpr hold)
  lock := h.lock

/-- One more statement. -/
theorem Pending.statement {x : Option Version} {tx : Tx} {db : Database} (h : Pending id x tx db)
    {u : Uuid} {q : Query} {row : q.Row} {ws : List RowWrite}
    (hq : exec u tx.now q (db.applyAll tx.writes) = .ok (row, ws)) {y : Option Version}
    (hy : (sign key id (.sql q) (.ok row)).tx (some x) = some y) :
    Pending id y (tx.add ws (q.locks u (db.applyAll tx.writes))) db := by
  have hkept : y = x → (∀ boardId, .removeBoard boardId ∉ ws) →
      Pending id y (tx.add ws (q.locks u (db.applyAll tx.writes))) db := by
    rintro rfl hws
    exact ⟨fun boardId hmem => (List.mem_append.mp hmem).elim (h.keeps boardId) (hws boardId),
      h.board, fun v hv => List.mem_append_left _ (h.inserted v hv), h.new,
      fun v hv => (h.lock v hv).mono fun _ hl => List.mem_append_left _ hl⟩
  have hplain : ¬q.removesRow → ∀ boardId, .removeBoard boardId ∉ ws := fun hremoves boardId hmem =>
    hremoves ((exec_writes hq _ hmem).2 trivial)
  -- Only the insertion of a version of this board changes what is pending.
  cases q with
  | insertVersion boardId n note metadata =>
    by_cases hid : boardId = id
    · obtain ⟨rfl, -, hnew, -, -, hrow⟩ := execInsertVersion_ok hq
      have hu : Version.id row = u := congrArg Version.id hrow
      simp only [sign, hid, if_true, Sign.tx, Option.map_some, Option.some.injEq] at hy
      subst hy
      have hv : ∀ v, some row = some v → v = row := fun v hv => (Option.some.inj hv).symm
      have hkeeps := h.keeps
      refine ⟨fun boardId hmem => ?_, fun v h => ?_, fun v h => ?_, fun v h => ?_, fun v h => ?_⟩
      · rcases List.mem_append.mp hmem with hmem | hmem
        · exact hkeeps boardId hmem
        · simp at hmem
      · rw [hv v h, ← hid]
        exact congrArg Version.boardId hrow
      · rw [hv v h]
        exact List.mem_append_right _ List.mem_cons_self
      · rw [hv v h]
        exact fun hold => hnew row (mem_versions_of_keeps hkeeps (.inl hold)) hu
      · rw [hv v h, hu]
        have hmem : (⟨.version u, .update⟩ : Lock) ∈
            (Query.insertVersion boardId n note metadata).locks u (db.applyAll tx.writes) :=
          List.mem_cons_self
        exact ((held_of_mem hmem).weaken rfl).mono fun _ hl => List.mem_append_right _ hl
    · simp only [sign, hid, if_false] at hy
      exact hkept (Option.some.inj hy).symm (hplain not_false)
  | deleteBoard => cases hy
  | deleteEntry =>
    cases hq
    exact hkept (Option.some.inj hy).symm (by simp)
  | _ => exact hkept (Option.some.inj hy).symm (hplain not_false)

/-- What the run shows of a handler is what its session holds. -/
def Tracks (id : Uuid) (shown : Option (Option Version)) (h : Session) (db : Database) : Prop :=
  ∀ x, shown = some x → ∃ tx, h = some tx ∧ Pending id x tx db

/-- A statement that is not executed leaves the shown transaction, or ends it. -/
theorem tx_of_error {q : Query} {e : DbError} {old : Option (Option Version)}
    {y : Option Version} (hy : (sign key id (.sql q) (.error e)).tx old = some y) :
    old = some y := by
  cases q with
  | deleteBoard => cases hy
  | _ => exact hy

/-- Outside a transaction a statement shows none. -/
theorem tx_of_none {q : Query} {r : (Cmd.sql q).Res} :
    (sign key id (.sql q) r).tx none = none := by
  rcases r with e | row
  · cases q <;> rfl
  · cases q with
    | insertVersion boardId n note metadata =>
      simp only [sign]
      split <;> rfl
    | _ => rfl

/-- **One instruction** of the handler. -/
theorem Tracks.exec {old : Option (Option Version)} {c : Cmd} {s s' : Server} {h h' : Session}
    {L : List Lock} {r : c.Res} (hold : Tracks id old h s.db)
    (hexec : Exec faulty c s h L r s' h') : Tracks id ((sign key id c r).tx old) h' s'.db := by
  intro y hy
  -- BEGIN opens a transaction without a version; its statements are tracked one by one.
  cases hexec with
  | begin =>
    obtain rfl := Option.some.inj hy
    exact ⟨_, rfl, fun _ => List.not_mem_nil, fun _ h => (nomatch h), fun _ h => (nomatch h),
      fun _ h => (nomatch h), fun _ h => (nomatch h)⟩
  | commit => cases hy
  | rollback => cases hy
  | @statement s tx u q row ws hu hq =>
    rcases old with _ | x
    · rw [tx_of_none] at hy
      cases hy
    · obtain ⟨tx', htx, hpending⟩ := hold x rfl
      obtain rfl := Option.some.inj htx
      exact ⟨_, rfl, hpending.statement hq hy⟩
  | statementError => exact hold y (tx_of_error hy)
  | autocommit | autocommitError =>
    rcases old with _ | x
    · rw [tx_of_none] at hy
      cases hy
    · obtain ⟨tx, htx, -⟩ := hold x rfl
      cases htx
  | redis =>
    refine hold y ?_
    rename_i command
    revert hy
    rcases (execRedis command s.redis).1 with e | answer
    · exact fun hy => hy
    · simp only [sign]
      split <;> exact fun hy => hy
  | newUuid => exact hold y hy
  | beginFault => exact hold y hy
  | commitFault => cases hy
  | statementFault => exact hold y (tx_of_error hy)
  | redisFault => exact hold y hy

theorem sign_sql_ne_commits {q : Query} {r : (Cmd.sql q).Res} :
    sign key id (.sql q) r ≠ .commits := by
  intro h
  rcases r with e | row
  · cases q <;> cases h
  · cases q with
    | insertVersion boardId n note metadata =>
      simp only [sign] at h
      split at h <;> cases h
    | _ => cases h

theorem sign_redis_ne_commits {c : RedisCmd} {r : (Cmd.redis c).Res} :
    sign key id (.redis c) r ≠ .commits := by
  intro h
  rcases r with e | answer
  · cases h
  · simp only [sign] at h
    split at h <;> cases h

/-- A successful commit writes what the transaction has. -/
theorem Exec.commits {c : Cmd} {s s' : Server} {tx : Tx} {h' : Session} {L : List Lock}
    {r : c.Res} (hexec : Exec faulty c s (some tx) L r s' h')
    (hsign : sign key id c r = .commits) : s'.db = s.db.applyAll tx.writes := by
  cases hexec with
  | commit => rfl
  | rollback => cases hsign
  | newUuid => cases hsign
  | commitFault => cases hsign
  | redis | redisFault => exact absurd hsign sign_redis_ne_commits
  | statement | statementError | statementFault => exact absurd hsign sign_sql_ne_commits

/-! ### The numbers of the periods -/

/-- Committed periods are versions of the board, as long as it is there, with increasing numbers. -/
structure Numbered (id : Uuid) (committed : List (ℕ × Version)) (s : Server) : Prop where
  board : ∀ x ∈ committed, x.2.boardId = id
  stored : (∃ r ∈ s.db.boards, r.id = id) → ∀ x ∈ committed, x.2 ∈ s.db.versions
  increasing : committed.Pairwise fun x y => x.2.versionNumber < y.2.versionNumber

variable {committed : List (ℕ × Version)}

theorem Numbered.step (h : Numbered id committed g.servers) (hg : System.Reachable P g)
    (hstep : System.Step P g g') (hused : id ∈ g.servers.usedBoards) :
    Numbered id committed g'.servers where
  board := h.board
  stored hboard x hx := by
    have hold := h.stored (hg.board_before (.single hstep) hused hboard) x hx
    exact (hg.step_keeps_version hstep hold (by rwa [h.board x hx])).row
  increasing := h.increasing

/-- A version that becomes visible has a larger number than all others of its board. -/
theorem Numbered.publish (h : Numbered id committed g.servers) (hg : System.Reachable P g)
    (hstep : System.Step P g g') (hused : id ∈ g.servers.usedBoards) {k : ℕ} {v : Version}
    (hid : v.boardId = id) (hnew : v ∉ g.servers.db.versions)
    (hv : v ∈ g'.servers.db.versions) : Numbered id (committed ++ [(k, v)]) g'.servers := by
  have hg' : System.Reachable P g' := hg.tail hstep
  have hboard : ∃ r ∈ g'.servers.db.boards, r.id = id := by
    obtain ⟨r, hr, hrid⟩ := hg'.inv.schema.version_board v hv
    exact ⟨r, hr, hrid.trans hid⟩
  have hold := hg.board_before (.single hstep) hused hboard
  -- A commit gives the next number after the largest one that is committed.
  have hnumber : v.versionNumber = g.servers.db.maxVersionNumber id + 1 := by
    rcases hg.step_commits hstep with hsame | ⟨L, hcommits⟩
    · exact absurd (hsame.1 ▸ hv) hnew
    · have hmem : v ∈ g'.servers.db.versionsOf id := Database.mem_versionsOf.mpr ⟨hv, hid⟩
      rcases hcommits.versions hg.inv hold hboard with heq | ⟨w, hw, ⟨hnumber, -⟩, heq⟩
      · rw [heq] at hmem
        exact absurd (Database.mem_versionsOf.mp hmem).1 hnew
      · rw [heq] at hmem
        rcases List.mem_append.mp hmem with hmem | hmem
        · exact absurd (Database.mem_versionsOf.mp hmem).1 hnew
        · rw [List.mem_singleton.mp hmem, hnumber, hw]
  have hstep' := h.step hg hstep hused
  refine ⟨fun x hx => ?_, fun _ x hx => ?_, List.pairwise_append.mpr ⟨h.increasing,
    List.pairwise_singleton .., fun x hx y hy => ?_⟩⟩
  · rcases List.mem_append.mp hx with hx | hx
    · exact h.board x hx
    · rw [List.mem_singleton.mp hx]
      exact hid
  · rcases List.mem_append.mp hx with hx | hx
    · exact hstep'.stored hboard x hx
    · rw [List.mem_singleton.mp hx]
      exact hv
  · rw [List.mem_singleton.mp hy]
    have hle := Database.le_maxVersionNumber (h.stored hold x hx)
    rw [h.board x hx] at hle
    change x.2.versionNumber < v.versionNumber
    omega

/-! ### Runs -/

/-- What holds of the periods in every state of a run. -/
structure Periods.Tracked (id : Uuid) (p : Periods) (g : System faulty) : Prop where
  used : id ∈ g.servers.usedBoards
  tracks : ∀ t, Tracks id (p.progress t).tx ((g.thread t).bind Machine.Thread.session) g.servers.db
  numbered : Numbered id p.committed g.servers

/-- The contract keeps what the other handlers show. -/
theorem Tracks.of_rely {shown : Option (Option Version)} {h : Session} {s s' : Server}
    (htracks : Tracks id shown h s.db) (hrely : Rely h.locks s s') : Tracks id shown h s'.db := by
  intro x hx
  obtain ⟨tx, rfl, hpending⟩ := htracks x hx
  exact ⟨tx, rfl, hpending.of_rely hrely⟩

theorem Tracks.none {h : Session} {db : Database} : Tracks id none h db := fun _ hx => nomatch hx

/-- **The periods are tracked along every run.** -/
theorem System.Trace.tracked {allowed : Request → Prop} (hallowed : ∀ r, allowed r → r.Respects P)
    (hg₀ : System.Reachable P g₀) (hused : id ∈ g₀.servers.usedBoards)
    (h : System.Trace allowed g₀ es who g) : (periods key id es).Tracked id g := by
  induction h with
  | start =>
    exact ⟨hused, fun t => .none, fun _ h => (nomatch h), fun _ _ h => (nomatch h),
      List.Pairwise.nil⟩
  | @call es who g t r h hr ht ih =>
    rw [periods_append]
    refine ⟨ih.used, fun u => ?_, ih.numbered⟩
    change Tracks id (((periods key id es).set t {}).progress u).tx _ _
    rw [Periods.set_progress]
    by_cases hu : u = t
    · rw [if_pos hu]
      exact .none
    · rw [if_neg hu, g.setThread_of_ne _ hu]
      exact ih.tracks u
  | @crash es who g t th h hc ht ih =>
    rw [periods_append]
    refine ⟨ih.used, fun u => ?_, ih.numbered⟩
    change Tracks id (((periods key id es).set t {}).progress u).tx _ _
    rw [Periods.set_progress]
    by_cases hu : u = t
    · rw [if_pos hu]
      exact .none
    · rw [if_neg hu, g.setThread_of_ne _ hu]
      exact ih.tracks u
  | @exec es who g t c k s s' L a sh' h ht hothers hexec ih =>
    have hg : System.Reachable P g := hg₀.trans (System.Trace.steps h hallowed)
    have hstep : System.Step P g ⟨sh', Function.update g.thread t (some ⟨s', k a⟩)⟩ :=
      .exec g t c k s s' L a sh' ht hothers hexec
    have hself : Tracks id ((periods key id es).progress t).tx s (System.servers g).db := by
      have htracks := ih.tracks t
      rw [ht] at htracks
      exact htracks
    rw [periods_append]
    refine ⟨(hg.rely (.single hstep)).board_used _ ih.used, fun u => ?_, ?_⟩
    · by_cases hu : u = t
      · subst hu
        have hexecuted : Tracks id ((sign key id c a).tx ((periods key id es).progress u).tx) s'
            sh'.db := hself.exec hexec
        change Tracks id (((periods key id es).note u (sign key id c a)).progress u).tx
          ((Function.update g.thread u (some ⟨s', k a⟩) u).bind Machine.Thread.session) sh'.db
        rw [Periods.note_tx, Function.update_self]
        exact hexecuted
      · change Tracks id (((periods key id es).note t (sign key id c a)).progress u).tx
          ((Function.update g.thread t (some ⟨s', k a⟩) u).bind Machine.Thread.session) sh'.db
        rw [Periods.note_progress _ hu, Function.update_of_ne hu]
        have hother := ih.tracks u
        rcases hth : g.thread u with _ | th
        · rw [hth] at hother
          intro x hx
          obtain ⟨tx, htx, -⟩ := hother x hx
          cases htx
        · rw [hth] at hother
          have hguar := (hg.good.exec ht hexec).2
          exact hother.of_rely ((contract faulty P).rely_of_guar t u s th.session L _ _ hu
            hg.good.inv hguar (hothers u th hu hth) (hg.good.beside t u _ th hu ht hth))
    · change Numbered id ((periods key id es).note t (sign key id c a)).committed sh'
      rcases Periods.note_committed (p := periods key id es) (t := t) (sign key id c a) with
        heq | ⟨hsign, k', v, hprogress, heq⟩
      · rw [heq]
        exact ih.numbered.step hg hstep ih.used
      · rw [heq]
        -- The commit of a transaction that has inserted the version.
        obtain ⟨tx, rfl, hpending⟩ := hself (some v) (congrArg Progress.tx hprogress)
        have hv : v ∈ ((System.servers g).db.applyAll tx.writes).versions :=
          mem_versions_of_keeps hpending.keeps (.inr (hpending.inserted v rfl))
        have hdb : sh'.db = (System.servers g).db.applyAll tx.writes := hexec.commits hsign
        exact ih.numbered.publish hg hstep ih.used (hpending.board v rfl) (hpending.new v rfl)
          (hdb ▸ hv)

/-! ### The order of the numbers -/

/-- What `versions::get_latest` answers with is a version with the largest number. -/
theorem getLatest_latest {env : Supply} {s : Server} {r : VersionWithPlacements}
    (h : respond env s (Versions.getLatest id) = .ok r) : r.version ∈ s.db.versionsOf id ∧
      ∀ v ∈ s.db.versionsOf id, v.versionNumber ≤ r.version.versionNumber := by
  obtain ⟨row, hrow, h⟩ := ok_of_respond_sql rfl
    (fun _ => reads_okOr fun _ => reads_sql rfl fun _ => .ret _) h
  obtain rfl := Except.ok.inj hrow
  have hsorted := orderBy_pairwise (fun v : Version => -v.versionNumber) (s.db.versionsOf id)
  have hmem : ∀ v, v ∈ orderBy (fun v : Version => -v.versionNumber) (s.db.versionsOf id) ↔
      v ∈ s.db.versionsOf id := fun v => mem_orderBy _
  rcases hrows : orderBy (fun v : Version => -v.versionNumber) (s.db.versionsOf id) with _ | ⟨x, xs⟩
  · rw [hrows] at h
    cases h
  · rw [hrows] at h hsorted hmem
    obtain ⟨ps, -, h⟩ := ok_of_respond_sql rfl (fun _ => .ret _) h
    cases h
    refine ⟨(hmem x).mp List.mem_cons_self, fun v hv => ?_⟩
    rcases List.mem_cons.mp ((hmem v).mpr hv) with rfl | hv
    · exact le_rfl
    · have hneg := (List.pairwise_cons.mp hsorted).1 v hv
      change v.versionNumber ≤ x.versionNumber
      omega

/-- The periods are numbered in the order in which they were cut; so when the latest version is that
of a period, then of the one that was cut last. -/
structure Periods.InOrder (p : Periods) (id : Uuid) (s : Server) : Prop where
  numbers : ∀ x ∈ p.committed, ∀ y ∈ p.committed,
    x.1 < y.1 → x.2.versionNumber < y.2.versionNumber
  latest : ∀ env r, respond env s (Versions.getLatest id) = .ok r →
    ∀ x ∈ p.committed, x.2 = r.version → ∀ y ∈ p.committed, y.1 ≤ x.1

/-- **The numbers follow the order of the cuts exactly when the snapshots commit in that order**, in
every run, for every board and every key. -/
theorem periods_numbered {allowed : Request → Prop} (hallowed : ∀ r, allowed r → r.Respects P)
    (hg₀ : System.Reachable P g₀) {b : Board} (hb : b ∈ g₀.servers.db.boards)
    (h : System.Trace allowed g₀ es who g) (keyPrefix : String) :
    (periods (Realtime.scoresKey keyPrefix b.slug) b.id es).InOrder b.id g.servers ↔
      (periods (Realtime.scoresKey keyPrefix b.slug) b.id es).committed.Pairwise
        fun x y => x.1 < y.1 := by
  have hg : System.Reachable P g := hg₀.trans (System.Trace.steps h hallowed)
  have htracked : (periods (Realtime.scoresKey keyPrefix b.slug) b.id es).Tracked b.id g :=
    System.Trace.tracked hallowed hg₀ (hg₀.inv.board_used b hb) h
  have hnumbered := htracked.numbered
  have hdistinct := (periods_distinct (Realtime.scoresKey keyPrefix b.slug) b.id es).nodup
  clear htracked
  generalize periods (Realtime.scoresKey keyPrefix b.slug) b.id es = p at hnumbered hdistinct
  have hboth := hnumbered.increasing.and (List.pairwise_map.mp hdistinct)
  constructor
  · rintro ⟨hinOrder, -⟩
    refine hboth.imp_of_mem fun hx hy ⟨hnumber, hne⟩ => ?_
    by_contra hle
    have hlt := hinOrder _ hy _ hx (by omega)
    omega
  · intro hordered
    have hnumbers : ∀ x ∈ p.committed, ∀ y ∈ p.committed,
        x.1 < y.1 → x.2.versionNumber < y.2.versionNumber := by
      -- Both orders are that of the list.
      refine List.Pairwise.forall_of_forall_of_flip (fun x _ hlt => absurd hlt (lt_irrefl _)) ?_ ?_
      · refine hnumbered.increasing.imp ?_
        exact fun hnumber _ => hnumber
      · exact hordered.imp fun hlt hgt => absurd hlt (lt_asymm hgt)
    refine ⟨hnumbers, fun env r hr x hx hxr y hy => ?_⟩
    by_contra hlt
    have hnumber := hnumbers x hx y hy (by omega)
    obtain ⟨hversion, hgreatest⟩ := getLatest_latest hr
    have hboard : ∃ r ∈ g.servers.db.boards, r.id = b.id := by
      obtain ⟨hversion, hid⟩ := Database.mem_versionsOf.mp hversion
      obtain ⟨r, hr, hrid⟩ := hg.inv.schema.version_board _ hversion
      exact ⟨r, hr, hrid.trans hid⟩
    have hle := hgreatest y.2
      (Database.mem_versionsOf.mpr ⟨hnumbered.stored hboard y hy, hnumbered.board y hy⟩)
    rw [hxr] at hnumber
    omega

/-! ### Two schedules -/

/-- A submission or a snapshot. -/
def Request.IsPeriodic : Request → Prop
  | .submit .. => True
  | .snapshot .. => True
  | _ => False

/-- The creation of a board whose snapshots cut periods. -/
def periodCreation : List Move :=
  [.call (.createBoard { slug := "b", name := "B", boardType := "scored", accumulative := true
                         realtime := true, clearOnSnapshot := true }), .turns 0 9]

/-- A score arrives. -/
def scoreArrives (entrySlug : String) : Move :=
  .call (.submit {} "b" { entrySlug := entrySlug, entryName := "E", score := ⟨0⟩ })

/-- Two snapshots, each after a score: the first one makes some of its instructions, then the second
one all of them. -/
def twoSnapshots (head : ℕ) : List Move :=
  [scoreArrives "e", .turns 1 9, .call (.snapshot {} "b" {}), .turns 2 head, scoreArrives "f",
    .turns 3 9, .call (.snapshot {} "b" {}), .turns 4 20, .turns 2 20]

/-- The ordinals of the committed cuts, with their version numbers. -/
def cutNumbers (p : Periods) : List (ℕ × ℤ) := p.committed.map fun x => (x.1, x.2.versionNumber)

/-- The board is there with its setup, and the schedule leads to these cuts with these numbers. -/
def Clients.numbersAre (moves : List Move) (expected : List (ℕ × ℤ)) (c : Clients) : Bool :=
  (c.server.db.boardBySlug? "b").any (fun b => b.id = 1 && b.realtime && b.clearOnSnapshot) &&
    (Clients.play counting (fun _ _ => true) moves c.restart).any fun c =>
      cutNumbers (periods (Realtime.scoresKey "rl" "b") 1 c.log) = expected

/-- A schedule that can be played is the run of a realtime board whose snapshots clear it. -/
theorem exists_periods {head : ℕ} {expected : List (ℕ × ℤ)}
    (hplay : (Clients.play counting (fun _ _ => true) periodCreation {}).any
      (Clients.numbersAre (twoSnapshots head) expected) = true) :
    ∃ (g₀ g : System False) (es : List (Event Service Request)) (who : Tid → Option Request)
      (b : Board), System.Reachable {} g₀ ∧ b ∈ g₀.servers.db.boards ∧ b.realtime = true ∧
      b.clearOnSnapshot = true ∧ System.Trace Request.IsPeriodic g₀ es who g ∧
      cutNumbers (periods (Realtime.scoresKey "rl" b.slug) b.id es) = expected := by
  obtain ⟨c₀, hc₀, hnumbers⟩ := (Option.any_eq_true _ _).mp hplay
  obtain ⟨hboard, hnumbers⟩ := (Bool.and_eq_true_iff ..).mp hnumbers
  obtain ⟨b, hb, hsetup⟩ := (Option.any_eq_true _ _).mp hboard
  simp only [Bool.and_eq_true, decide_eq_true_eq] at hsetup
  obtain ⟨⟨hid, hrealtime⟩, hclear⟩ := hsetup
  obtain ⟨c, hc, hexpected⟩ := (Option.any_eq_true _ _).mp hnumbers
  obtain ⟨hmem, hslug⟩ := Database.mem_of_boardBySlug? hb
  obtain ⟨g₀, hg₀, hshows₀⟩ : ∃ g₀ : System False, System.Reachable {} g₀ ∧ c₀.Shows g₀ :=
    Clients.reachable_play hc₀
  obtain ⟨hshows, hlogs⟩ :
      c₀.restart.Shows g₀ ∧ c₀.restart.Logs (fun _ _ => true) Request.IsPeriodic g₀ g₀ :=
    hshows₀.restart
  obtain ⟨g, -, -, hlogs'⟩ := Clients.play_run Request.IsPeriodic hc (by
    simp [twoSnapshots, scoreArrives, Move.request?, Request.IsPeriodic]) hshows
  refine ⟨g₀, g, c.log, c.who, b, hg₀, ?_, hrealtime, hclear, (hlogs' g₀ hlogs).trace, ?_⟩
  · rw [hshows₀.servers]
    exact hmem
  · rw [hslug, hid]
    exact of_decide_eq_true hexpected

set_option maxRecDepth 10000 in
/-- Two snapshots, one after the other. -/
theorem periods_numbered_run : ∃ (g₀ g : System False) (es : List (Event Service Request))
    (b : Board), b ∈ g₀.servers.db.boards ∧
      cutNumbers (periods (Realtime.scoresKey "rl" b.slug) b.id es) = [(0, 1), (1, 2)] ∧
      (periods (Realtime.scoresKey "rl" b.slug) b.id es).InOrder b.id g.servers := by
  obtain ⟨g₀, g, es, who, b, hg₀, hb, -, -, htrace, hnumbers⟩ :=
    exists_periods (show (Clients.play counting (fun _ _ => true) periodCreation {}).any
      (Clients.numbersAre (twoSnapshots 20) [(0, 1), (1, 2)]) = true by decide +kernel)
  refine ⟨g₀, g, es, b, hb, hnumbers,
    (periods_numbered (fun r _ => r.respects_default) hg₀ hb htrace "rl").mpr ?_⟩
  have hcuts : ((cutNumbers (periods (Realtime.scoresKey "rl" b.slug) b.id es)).map
      Prod.fst).Pairwise (· < ·) := by
    rw [hnumbers]
    decide
  rw [cutNumbers, List.map_map] at hcuts
  exact List.pairwise_map.mp hcuts

set_option maxRecDepth 10000 in
/-- The snapshot that cut the first period takes the board lock last: version 2 is the older
period. -/
theorem periods_misnumbered : ∃ (g₀ g : System False) (es : List (Event Service Request))
    (who : Tid → Option Request) (b : Board), System.Reachable {} g₀ ∧
      b ∈ g₀.servers.db.boards ∧ b.realtime = true ∧ b.clearOnSnapshot = true ∧
      System.Trace Request.IsPeriodic g₀ es who g ∧
      ¬(periods (Realtime.scoresKey "rl" b.slug) b.id es).InOrder b.id g.servers := by
  obtain ⟨g₀, g, es, who, b, hg₀, hb, hrealtime, hclear, htrace, hnumbers⟩ :=
    exists_periods (show (Clients.play counting (fun _ _ => true) periodCreation {}).any
      (Clients.numbersAre (twoSnapshots 5) [(1, 1), (0, 2)]) = true by decide +kernel)
  refine ⟨g₀, g, es, who, b, hg₀, hb, hrealtime, hclear, htrace, fun hinOrder => ?_⟩
  have hmem : ∀ n ∈ [((1 : ℕ), (1 : ℤ)), (0, 2)],
      ∃ x ∈ (periods (Realtime.scoresKey "rl" b.slug) b.id es).committed,
        (x.1, x.2.versionNumber) = n := fun n hn => by
    rw [← hnumbers] at hn
    exact List.mem_map.mp hn
  obtain ⟨x, hx, hxn⟩ := hmem (0, 2) (by simp)
  obtain ⟨y, hy, hyn⟩ := hmem (1, 1) (by simp)
  obtain ⟨hcut, hnumber⟩ := Prod.mk.inj hxn
  obtain ⟨hcut', hnumber'⟩ := Prod.mk.inj hyn
  have hlt := hinOrder.numbers x hx y hy (by omega)
  omega

end Leaderboards
