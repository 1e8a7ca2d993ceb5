import Leaderboards.Library.Monitor
import Leaderboards.Transactions.LiveScores

/-!
# The names that a snapshot holds

A snapshot of a realtime board reads the names of its scores from Redis and later looks up the rows
of their entries. In between it holds the names: under the key that it has renamed the working
scores to, and then as an answer of Redis. `Phase` says how far it has come, by the answers that it
got.

`Phase.Knows` is what holds of the servers and of its connection meanwhile, as long as nobody
removes the row of a name that it holds. **`keeps_snapshot`**: by its own commands a snapshot goes
from each of these assertions to the next, and it finds all rows that it looks up.
-/

namespace Leaderboards

open Interaction Realtime

variable {α β : Type} {keyPrefix : String} {faulty : Prop}

/-! ### Phases -/

/-- Where a snapshot stands that has chosen the key to read. -/
inductive Stage
  /-- Its transaction has not begun. -/
  | chosen
  | begun
  /-- It has locked the row of the board. -/
  | locked
deriving DecidableEq

/-- How far a snapshot has come with the names. -/
inductive Phase
  /-- It has not read the row of its board. -/
  | start
  /-- It has still to rename the working scores. -/
  | isolating (b : Board)
  /-- It has still to read the scores under a key. -/
  | reading (stage : Stage) (b : Board) (key : String)
  /-- It has still to look up the rows of these names. -/
  | lookingUp (b : Board) (names : List String)
  /-- It needs no name any more. -/
  | done

namespace Phase

/-- What a snapshot does on a board. -/
def onBoard (keyPrefix : String) (b : Board) : Phase :=
  if b.realtime = true then
    if b.clearOnSnapshot = true then .isolating b
    else .reading .chosen b (scoresKey keyPrefix b.slug)
  else .done

/-- The phase after an answered instruction. -/
def next (keyPrefix : String) : Phase → (c : Cmd) → c.Res → Phase
  | .start, .sql (.selectBoardBySlug _), .ok (some b) => onBoard keyPrefix b
  | .isolating b, .redis (.rename _ key), .ok _ => .reading .chosen b key
  | .isolating b, .redis (.pipe (.rename _ key :: _)), .ok _ => .reading .chosen b key
  | .reading .chosen b key, .begin, .ok _ => .reading .begun b key
  | .reading .begun b key, .sql (.selectBoardForUpdate _), .ok _ => .reading .locked b key
  | .reading .locked b _, .redis (.zrevrange _), .ok members =>
    .lookingUp b (members.map Prod.fst)
  | .lookingUp _ _, .sql (.selectEntriesBySlug _ _), .ok _ => .done
  | _, .begin, .error _ => .done
  | _, .commit, _ => .done
  | _, .rollback, _ => .done
  | p, _, _ => p

/-- The names that a snapshot of the board with this id holds. -/
def Holds (redis : Redis) (boardId : Uuid) (name : String) : Phase → Prop
  | .reading _ b key => b.id = boardId ∧ redis.Has key name
  | .lookingUp b names => b.id = boardId ∧ name ∈ names
  | _ => False

end Phase

/-! ### Assertions -/

/-- The board with the id, where it is, has entries with these names. -/
def Server.HasEntries (s : Server) (boardId : Uuid) (names : String → Prop) : Prop :=
  (∃ b ∈ s.db.boards, b.id = boardId) → ∀ name, names name →
    ∃ e ∈ s.db.entriesOf boardId, e.slug = name

/-- The transaction has locked the row of the board, which is there. -/
structure LocksBoard (h : Session) (s : Server) (boardId : Uuid) : Prop where
  held : Held h.locks (.board boardId) .update
  row : ∃ b ∈ s.db.boards, b.id = boardId

/-- A key for the scores of a board: the working key, or one of a snapshot. -/
def ScoresOf (keyPrefix slug key : String) : Prop :=
  key = scoresKey keyPrefix slug ∨ ∃ snapId, key = snapKey (scoresKey keyPrefix slug) snapId

/-- What a session has open in a stage: no transaction, or one without writes. -/
def Stage.Fits (h : Session) (s : Server) (boardId : Uuid) : Stage → Prop
  | .chosen => h = none
  | .begun => h ≠ none ∧ ∀ db, h.view db = db
  | .locked => (h ≠ none ∧ ∀ db, h.view db = db) ∧ LocksBoard h s boardId

/-- What holds when a snapshot has chosen the key to read. -/
structure ReadsScores (keyPrefix : String) (stage : Stage) (b : Board) (key : String) (h : Session)
    (s : Server) : Prop where
  known : KnownBoard s b
  scores : ScoresOf keyPrefix b.slug key
  fits : stage.Fits h s b.id
  found : s.HasEntries b.id (s.redis.Has key)

/-- What holds when a snapshot has read the names. -/
structure LooksUp (b : Board) (names : List String) (h : Session) (s : Server) : Prop where
  opened : h ≠ none
  view : ∀ db, (h.view db).entries = db.entries
  locks : LocksBoard h s b.id
  found : s.HasEntries b.id (· ∈ names)

/-- **What holds in each phase.** -/
def Phase.Knows (keyPrefix : String) (h : Session) (s : Server) : Phase → Prop
  | .start => h = none
  | .isolating b => h = none ∧ KnownBoard s b
  | .reading stage b key => ReadsScores keyPrefix stage b key h s
  | .lookingUp b names => LooksUp b names h s
  | .done => True

/-- The working scores of the boards have entries. -/
structure LiveInv (keyPrefix : String) (s : Server) : Prop where
  inv : ServerInv {} s
  live : ∀ b ∈ s.db.boards, s.HasEntries b.id (s.redis.Has (scoresKey keyPrefix b.slug))

/-- The assertions on a snapshot. -/
def holding (keyPrefix : String) (faulty : Prop) : Outline (server faulty) Phase where
  next := Phase.next keyPrefix
  holds p h s := p.Knows keyPrefix h s

/-- The monitor of a snapshot. -/
abbrev watch (keyPrefix : String) (faulty : Prop) (t : Tid) : Monitor Service Phase :=
  (holding keyPrefix faulty).monitor (LiveInv keyPrefix) t

section

variable {s s' : Server} {h h' : Session} {b : Board} {key : String} {stage : Stage}
  {names : List String} {L : List Lock} {id : Uuid} {P Q : String → Prop}

theorem Server.HasEntries.of_db (hs : s.HasEntries id P) (hdb : s'.db = s.db)
    (hnames : ∀ name, Q name → P name) : s'.HasEntries id Q := by
  unfold Server.HasEntries
  rw [hdb]
  exact fun hrow name hname => hs hrow name (hnames name hname)

theorem LocksBoard.of_db (hl : LocksBoard h s id) (hdb : s'.db = s.db)
    (hsub : ∀ l ∈ h.locks, l ∈ h'.locks) : LocksBoard h' s' id :=
  ⟨hl.held.mono hsub, hdb ▸ hl.row⟩

theorem KnownBoard.of_db (hk : KnownBoard s b) (hdb : s'.db = s.db)
    (hused : s'.usedBoards = s.usedBoards) : KnownBoard s' b where
  used := hused ▸ hk.used
  same := hdb ▸ hk.same

theorem Stage.Fits.of_db (hf : stage.Fits h s id) (hdb : s'.db = s.db) : stage.Fits h s' id := by
  cases stage with
  | chosen => exact hf
  | begun => exact hf
  | locked => exact ⟨hf.1, hf.2.of_db hdb fun _ hl => hl⟩

/-- A read in a transaction changes its locks at most. -/
theorem exec_read {q : Query} (hq : q.readOnly = true) {r : Except DbError q.Row} (hh : h ≠ none)
    (hexec : Exec faulty (.sql q) s h L r s' h') : s' = s ∧ h' ≠ none ∧
      (∀ db, h'.view db = h.view db) ∧ ∀ l ∈ h.locks, l ∈ h'.locks := by
  cases hexec with
  | statement hu hexec =>
    obtain rfl := exec_readOnly hq hexec
    refine ⟨rfl, by simp, fun db => ?_, fun l hl => List.mem_append_left _ hl⟩
    simp
  | statementError => exact ⟨rfl, hh, fun _ => rfl, fun _ hl => hl⟩
  | statementFault => exact ⟨rfl, hh, fun _ => rfl, fun _ hl => hl⟩
  | autocommit => exact absurd rfl hh
  | autocommitError => exact absurd rfl hh

/-- A command on Redis leaves the rest alone. -/
theorem exec_onRedis {c : RedisCmd} {r : Except RedisError c.Reply}
    (hexec : Exec faulty (.redis c) s h L r s' h') : h' = h ∧ s'.db = s.db ∧
      s'.usedBoards = s.usedBoards ∧
      ((∃ e, r = .error e ∧ s'.redis = s.redis) ∨
        r = (execRedis c s.redis).1 ∧ s'.redis = (execRedis c s.redis).2) := by
  cases hexec with
  | redis => exact ⟨rfl, rfl, rfl, .inr ⟨rfl, rfl⟩⟩
  | redisFault => exact ⟨rfl, rfl, rfl, .inl ⟨_, rfl, rfl⟩⟩

end

/-! ### Its own instructions -/

section

variable {t : Tid} {b : Board} {key : String} {names : List String} {stage : Stage} {p : Phase}

theorem allows_done (c : Cmd) (hnext : ∀ r, p.next keyPrefix c r = .done) :
    (watch keyPrefix faulty t).allows p c := by
  intro s h L r s' h' hinv hholds hexec
  change Phase.Knows keyPrefix h' s' (p.next keyPrefix c r)
  rw [hnext r]
  trivial

/-- A statement that only reads, in a transaction. -/
theorem allows_read {q : Query} (hq : q.readOnly = true)
    (hp : (∃ stage b key, p = .reading stage b key ∧ stage ≠ .chosen) ∨
      ∃ b names, p = .lookingUp b names)
    (hnext : ∀ r, p.next keyPrefix (.sql q) r = p) :
    (watch keyPrefix faulty t).allows p (.sql q) := by
  intro s h L r s' h' hinv hholds hexec
  change Phase.Knows keyPrefix h' s' (p.next keyPrefix (.sql q) r)
  rw [hnext r]
  rcases hp with ⟨stage, b, key, rfl, hstage⟩ | ⟨b, names, rfl⟩
  · obtain ⟨hknown, hscores, hfits, hfound⟩ : ReadsScores keyPrefix stage b key h s := hholds
    cases stage with
    | chosen => exact absurd rfl hstage
    | begun =>
      obtain ⟨rfl, hsome, hview, -⟩ := exec_read hq hfits.1 hexec
      exact ⟨hknown, hscores, ⟨hsome, fun db => (hview db).trans (hfits.2 db)⟩, hfound⟩
    | locked =>
      obtain ⟨hfits, hlocks⟩ := hfits
      obtain ⟨rfl, hsome, hview, hsub⟩ := exec_read hq hfits.1 hexec
      exact ⟨hknown, hscores, ⟨⟨hsome, fun db => (hview db).trans (hfits.2 db)⟩,
        hlocks.of_db rfl hsub⟩, hfound⟩
  · obtain ⟨hopened, hentries, hlocks, hfound⟩ : LooksUp b names h s := hholds
    obtain ⟨rfl, hsome, hview, hsub⟩ := exec_read hq hopened hexec
    exact ⟨hsome, fun db => (congrArg Database.entries (hview db)).trans (hentries db),
      hlocks.of_db rfl hsub, hfound⟩

/-- A command on Redis that adds no name under the key. -/
theorem allows_redis {c : RedisCmd}
    (hc : ∀ stage b key, p = .reading stage b key → ∀ r name, (execRedis c r).2.Has key name →
      r.Has key name)
    (hp : (∃ stage b key, p = .reading stage b key) ∨ (∃ b names, p = .lookingUp b names) ∨
      ∃ b, p = .isolating b)
    (hnext : ∀ r, p.next keyPrefix (.redis c) r = p) :
    (watch keyPrefix faulty t).allows p (.redis c) := by
  intro s h L r s' h' hinv hholds hexec
  change Phase.Knows keyPrefix h' s' (p.next keyPrefix (.redis c) r)
  rw [hnext r]
  obtain ⟨rfl, hdb, hused, hredis⟩ := exec_onRedis hexec
  rcases hp with ⟨stage, b, key, rfl⟩ | ⟨b, names, rfl⟩ | ⟨b, rfl⟩
  · obtain ⟨hknown, hscores, hfits, hfound⟩ : ReadsScores keyPrefix stage b key h' s := hholds
    refine ⟨hknown.of_db hdb hused, hscores, hfits.of_db hdb, hfound.of_db hdb fun name hname => ?_⟩
    rcases hredis with ⟨e, -, hsame⟩ | ⟨-, hafter⟩
    · rwa [hsame] at hname
    · rw [hafter] at hname
      exact hc stage b key rfl _ name hname
  · obtain ⟨hopened, hentries, hlocks, hfound⟩ : LooksUp b names h' s := hholds
    exact ⟨hopened, hentries, hlocks.of_db hdb fun _ hl => hl, hfound.of_db hdb fun _ h => h⟩
  · exact ⟨hholds.1, hholds.2.of_db hdb hused⟩

theorem allows_selectBoard (slug : String) :
    (watch keyPrefix faulty t).allows .start (.sql (.selectBoardBySlug slug)) := by
  intro s h L r s' h' hinv hholds hexec
  obtain rfl : h = none := hholds
  cases hexec with
  | autocommit hu hnow hq =>
    rename_i u now ws row
    obtain ⟨rfl, rfl⟩ := Prod.mk.inj (Except.ok.inj hq)
    rcases hrow : s.db.boardBySlug? slug with _ | b
    · exact (rfl : (none : Session) = none)
    · obtain ⟨hb, -⟩ := Database.mem_of_boardBySlug? hrow
      have hknown : KnownBoard { s.commit [] with clock := now } b :=
        ⟨List.mem_append_left _ (hinv.inv.board_used b hb), (KnownBoard.of_mem hinv.inv hb).same⟩
      change Phase.Knows keyPrefix none _ (Phase.onBoard keyPrefix b)
      unfold Phase.onBoard
      split
      · split
        · exact ⟨rfl, hknown⟩
        · exact ⟨hknown, .inl rfl, rfl, hinv.live b hb⟩
      · trivial
  | autocommitError => exact (rfl : (none : Session) = none)
  | statementFault => exact (rfl : (none : Session) = none)

theorem allows_newUuid : (watch keyPrefix faulty t).allows (.isolating b) .newUuid := by
  intro s h L r s' h' hinv hholds hexec
  cases hexec with
  | newUuid hu => exact ⟨hholds.1, hholds.2.of_db rfl rfl⟩

/-- The names under the key that the working scores have been renamed to are those of the scores. -/
theorem allows_rename {c : RedisCmd} {snapId : Uuid}
    (hnext : ∀ r, Phase.next keyPrefix (.isolating b) (.redis c) r = match r with
      | .ok _ => .reading .chosen b (snapKey (scoresKey keyPrefix b.slug) snapId)
      | .error _ => .isolating b)
    (hc : ∀ r x, (execRedis c r).1 = .ok x →
      (execRedis c r).2.members (snapKey (scoresKey keyPrefix b.slug) snapId) =
        r.members (scoresKey keyPrefix b.slug)) :
    (watch keyPrefix faulty t).allows (.isolating b) (.redis c) := by
  intro s h L r s' h' hinv hholds hexec
  change Phase.Knows keyPrefix h' s' (Phase.next keyPrefix (.isolating b) (.redis c) r)
  rw [hnext r]
  obtain ⟨rfl, hdb, hused, hredis⟩ := exec_onRedis hexec
  obtain ⟨hnone, hknown⟩ := hholds
  cases r with
  | error e => exact ⟨hnone, hknown.of_db hdb hused⟩
  | ok x =>
    rcases hredis with ⟨e, he, -⟩ | ⟨hok, hafter⟩
    · cases he
    · refine ⟨hknown.of_db hdb hused, .inr ⟨snapId, rfl⟩, hnone, ?_⟩
      unfold Server.HasEntries
      rw [hdb]
      rintro ⟨b', hb', hid⟩ name ⟨y, hy⟩
      rw [hafter, hc _ x hok.symm] at hy
      obtain ⟨-, hslug, -⟩ := hknown.same b' hb' hid
      have hlive := hinv.live b' hb' ⟨b', hb', rfl⟩ name
      rw [← hslug, hid] at hlive
      exact hlive ⟨y, hy⟩

theorem allows_begin : (watch keyPrefix faulty t).allows (.reading .chosen b key) .begin := by
  intro s h L r s' h' hinv hholds hexec
  obtain ⟨hknown, hscores, hfits, hfound⟩ : ReadsScores keyPrefix .chosen b key h s := hholds
  cases hexec with
  | begin hnow =>
    exact ⟨hknown.of_db rfl rfl, hscores, ⟨by simp, fun _ => rfl⟩, hfound.of_db rfl fun _ h => h⟩
  | beginFault => trivial

theorem allows_selectForUpdate : (watch keyPrefix faulty t).allows (.reading .begun b key)
    (.sql (.selectBoardForUpdate b.id)) := by
  intro s h L r s' h' hinv hholds hexec
  have hreads : ReadsScores keyPrefix .begun b key h s := hholds
  obtain ⟨hknown, hscores, ⟨hsome, hview⟩, hfound⟩ := hreads
  cases hexec with
  | statement hu hq =>
    rename_i tx u row ws
    have hdb : s.db.applyAll tx.writes = s.db := hview s.db
    rw [hdb] at hq ⊢
    simp only [exec] at hq
    split at hq
    · rename_i b' hrow
      cases hq
      obtain ⟨hmem, hid⟩ := Database.mem_of_board? hrow
      refine ⟨hknown, hscores, ⟨⟨by simp, fun db => ?_⟩, ⟨?_, _, hmem, hid⟩⟩, hfound⟩
      · simpa using hview db
      · refine held_of_mem (List.mem_append_right _ ?_)
        simp [Query.locks, hrow, hid]
    · cases hq
  | statementError => exact hholds
  | statementFault => exact hholds
  | autocommit => exact absurd rfl hsome
  | autocommitError => exact absurd rfl hsome

theorem allows_zrevrange : (watch keyPrefix faulty t).allows (.reading .locked b key)
    (.redis (.zrevrange key)) := by
  intro s h L r s' h' hinv hholds hexec
  obtain ⟨hknown, hscores, hfits, hfound⟩ : ReadsScores keyPrefix .locked b key h s := hholds
  obtain ⟨rfl, hdb, hused, hredis⟩ := exec_onRedis hexec
  have hsame : s'.redis = s.redis := by
    rcases hredis with ⟨e, -, hsame⟩ | ⟨-, hafter⟩
    · exact hsame
    · exact hafter
  cases r with
  | error e =>
    refine ⟨hknown.of_db hdb hused, hscores, Stage.Fits.of_db hfits hdb, hfound.of_db hdb ?_⟩
    exact fun _ hname => hsame ▸ hname
  | ok members =>
    obtain ⟨⟨hsome, hview⟩, hlocks⟩ := hfits
    refine ⟨hsome, fun db => congrArg Database.entries (hview db), hlocks.of_db hdb fun _ hl => hl,
      hfound.of_db hdb fun name hname => ?_⟩
    rcases hredis with ⟨e, he, -⟩ | ⟨hok, -⟩
    · cases he
    · obtain ⟨x, hx, rfl⟩ := List.mem_map.mp hname
      rw [zrevrange_ok hok.symm, List.mem_reverse, Ranking.mem_orderBy] at hx
      exact ⟨x.2, hx⟩

theorem allows_insertVersion {n : ℤ} {note : Option String} {metadata : Option Json} :
    (watch keyPrefix faulty t).allows (.lookingUp b names)
      (.sql (.insertVersion b.id n note metadata)) := by
  intro s h L r s' h' hinv hholds hexec
  have hlooks : LooksUp b names h s := hholds
  obtain ⟨hsome, hview, hlocks, hfound⟩ := hlooks
  cases hexec with
  | statement hu hq =>
    rename_i tx u row ws
    obtain ⟨rfl, -⟩ := execInsertVersion_ok hq
    refine ⟨by simp, fun db => ?_, hlocks.of_db rfl fun l hl => List.mem_append_left _ hl, hfound⟩
    have hbefore : (db.applyAll tx.writes).entries = db.entries := hview db
    simpa [Database.applyAll_append] using hbefore
  | statementError => exact hholds
  | statementFault => exact hholds
  | autocommit => exact absurd rfl hsome
  | autocommitError => exact absurd rfl hsome

theorem allows_selectEntries : (watch keyPrefix faulty t).allows (.lookingUp b names)
    (.sql (.selectEntriesBySlug b.id names)) := by
  intro s h L r s' h' hinv hholds hexec
  have hopened : h ≠ none := LooksUp.opened hholds
  cases hexec with
  | statement => trivial
  | statementError => exact hholds
  | statementFault => exact hholds
  | autocommit => exact absurd rfl hopened
  | autocommitError => exact absurd rfl hopened

/-- **The rows that a snapshot looks up are there.** -/
theorem expects_selectEntries {rows : List (Uuid × String × String)}
    (h : (watch keyPrefix faulty t).expects (.lookingUp b names)
      (.sql (.selectEntriesBySlug b.id names)) (.ok rows)) :
    ∀ name ∈ names, ∃ e, rows.find? (fun e => e.2.1 = name) = some e := by
  obtain ⟨s, session, L, s', session', hinv, hholds, hexec⟩ := h
  obtain ⟨hsome, hview, hlocks, hfound⟩ : LooksUp b names session s := hholds
  intro name hname
  cases hexec with
  | statement hu hq =>
    rename_i tx u ws
    obtain ⟨rfl, rfl⟩ := Prod.mk.inj (Except.ok.inj hq)
    obtain ⟨e, he, hslug⟩ := hfound hlocks.row name hname
    refine Option.isSome_iff_exists.mp
      (List.find?_isSome.mpr ⟨(e.id, e.slug, e.name), ?_, by simpa using hslug⟩)
    refine List.mem_map.mpr ⟨e, List.mem_filter.mpr ⟨?_, ?_⟩, rfl⟩
    · have hentries : (s.db.applyAll tx.writes).entries = s.db.entries := hview s.db
      rwa [Database.entriesOf, hentries]
    · rw [decide_eq_true_eq, hslug]
      exact hname
  | autocommit => exact absurd rfl hsome

theorem expects_selectForUpdate {row : Board}
    (h : (watch keyPrefix faulty t).expects (.reading .begun b key)
      (.sql (.selectBoardForUpdate b.id)) (.ok row)) : row.id = b.id := by
  obtain ⟨s, session, L, s', session', hinv, hholds, hexec⟩ := h
  have hrow : ∀ {u now db ws}, exec u now (.selectBoardForUpdate b.id) db = .ok (row, ws) →
      row.id = b.id := by
    intro u now db ws hq
    simp only [exec] at hq
    split at hq
    · rename_i b' hb'
      cases hq
      exact (Database.mem_of_board? hb').2
    · cases hq
  cases hexec with
  | statement hu hq => exact hrow hq
  | autocommit hu hnow hq => exact hrow hq

end

/-! ### Its programs -/

/-- The outcome is not the error of a snapshot that misses an entry. -/
def FindsEntries (r : Except Error α) : Prop :=
  ∀ name : String, r ≠ .error (.internal s!"entry '{name}' exists in Redis but not in Postgres")

theorem FindsEntries.ok (a : α) : FindsEntries (.ok a : Except Error α) := by
  intro name
  simp

/-- Every other error. -/
theorem FindsEntries.error {e : Error} (h : ∀ msg, e ≠ .internal msg) :
    FindsEntries (.error e : Except Error α) := by
  intro name heq
  exact h _ (Except.error.inj heq)

/-- From this phase on the program goes through the phases and misses no entry. -/
abbrev FindsFrom (keyPrefix : String) (faulty : Prop) (t : Tid) (p : Phase) (q : Action α) :
    Prop :=
  (watch keyPrefix faulty t).Keeps (fun x _ => FindsEntries x) q p

section

variable {t : Tid} {b : Board} {key : String} {names : List String} {stage : Stage} {p : Phase}

theorem finds_sql {q : Query} {f : q.Row → Action α}
    (hallows : (watch keyPrefix faulty t).allows p (.sql q))
    (hf : ∀ row, (watch keyPrefix faulty t).expects p (.sql q) (.ok row) →
      FindsFrom keyPrefix faulty t (p.next keyPrefix (.sql q) (.ok row)) (f row)) :
    FindsFrom keyPrefix faulty t p (Action.sql q >>= f) := by
  refine ⟨hallows, fun r hr => ?_⟩
  cases r with
  | error e => exact FindsEntries.error (by simp)
  | ok row => exact hf row hr

theorem finds_redis {c : RedisCmd} {context : String} {f : c.Reply → Action α}
    (hallows : (watch keyPrefix faulty t).allows p (.redis c))
    (hf : ∀ reply, FindsFrom keyPrefix faulty t (p.next keyPrefix (.redis c) (.ok reply))
      (f reply)) :
    FindsFrom keyPrefix faulty t p (Action.redis c context >>= f) := by
  refine ⟨hallows, fun r hr => ?_⟩
  cases r with
  | error e => exact FindsEntries.error (by simp)
  | ok reply => exact hf reply

theorem finds_guard {c : Prop} [Decidable c] {e : Error} (he : ∀ msg, e ≠ .internal msg)
    {f : Unit → Action α} (hf : FindsFrom keyPrefix faulty t p (f ())) :
    FindsFrom keyPrefix faulty t p (Prog.failIf c e >>= f) := by
  unfold Prog.failIf
  split
  · exact FindsEntries.error he
  · exact hf

theorem next_commit (p : Phase) (r : Except DbError Unit) :
    p.next keyPrefix .commit r = .done := by
  rcases p with _ | _ | ⟨_ | _ | _, _, _⟩ | _ | _ <;> rfl

theorem next_rollback (p : Phase) (r : Unit) : p.next keyPrefix .rollback r = .done := by
  rcases p with _ | _ | ⟨_ | _ | _, _, _⟩ | _ | _ <;> rfl

/-- After its transaction a program needs no name. -/
theorem finds_transaction {body : Action α} {f : α → Action β}
    (hbegin : (watch keyPrefix faulty t).allows p .begin)
    (hbody : FindsFrom keyPrefix faulty t (p.next keyPrefix .begin (.ok ())) body)
    (hf : ∀ a, FindsFrom keyPrefix faulty t .done (f a)) :
    FindsFrom keyPrefix faulty t p (Action.transaction body >>= f) := by
  refine Monitor.keeps_bind ⟨hbegin, fun r _ => ?_⟩
  cases r with
  | error e => exact FindsEntries.error (by simp)
  | ok _ =>
    refine Monitor.keeps_bind (Monitor.keeps_attempt (hbody.mono fun x p' hx => ?_))
    cases x with
    | error e =>
      exact ⟨allows_done _ (next_rollback p'), fun _ _ name heq =>
        hx name (congrArg Except.error (Except.error.inj heq))⟩
    | ok a =>
      refine ⟨allows_done _ (next_commit p'), fun r _ => ?_⟩
      cases r with
      | error e => exact FindsEntries.error (by simp)
      | ok _ =>
        change (watch keyPrefix faulty t).Keeps _ (f a) (p'.next keyPrefix .commit (.ok ()))
        rw [next_commit]
        exact hf a

/-- The phases in which a snapshot may delete the keys it has renamed the working keys to. -/
def Phase.Deletes (p : Phase) : Prop :=
  (∃ stage b key, p = .reading stage b key) ∨ (∃ b names, p = .lookingUp b names) ∨ p = .done

theorem finds_deleteSnapKeys {keys : Option (String × String)} {f : Unit → Action α}
    (hp : p.Deletes) (hf : FindsFrom keyPrefix faulty t p (f ())) :
    FindsFrom keyPrefix faulty t p (deleteSnapKeys keys >>= f) := by
  rcases keys with _ | ⟨sk, ek⟩
  · exact hf
  · have hnext : ∀ r, p.next keyPrefix (.redis (.pipe [.del sk, .del ek])) r = p := by
      intro r
      rcases hp with ⟨_ | _ | _, b, key, rfl⟩ | ⟨b, names, rfl⟩ | rfl <;> rfl
    have hallows : (watch keyPrefix faulty t).allows p (.redis (.pipe [.del sk, .del ek])) := by
      rcases hp with hreading | hlooking | rfl
      · refine allows_redis (fun _ _ key _ r name hhas => ?_) (.inl hreading) hnext
        refine (has_of_execRedis (fun w hw hstores => ?_) hhas).resolve_right ?_
        · simp only [RedisCmd.writes, List.mem_cons, List.not_mem_nil, or_false] at hw
          rcases hw with rfl | rfl <;> exact hstores
        · simp [RedisCmd.writes]
      · obtain ⟨b, names, rfl⟩ := hlooking
        exact allows_redis (fun _ _ _ h => by cases h) (.inr (.inl ⟨b, names, rfl⟩)) hnext
      · exact allows_done _ fun r => rfl
    refine ⟨hallows, fun r _ => ?_⟩
    change FindsFrom keyPrefix faulty t (p.next keyPrefix (.redis (.pipe [.del sk, .del ek]))
      r) (f ())
    rw [hnext r]
    exact hf

theorem finds_abortIf {c : Prop} [Decidable c] {keys : Option (String × String)} {e : Error}
    (he : ∀ msg, e ≠ .internal msg) {f : Unit → Action α} (hp : p.Deletes)
    (hf : FindsFrom keyPrefix faulty t p (f ())) :
    FindsFrom keyPrefix faulty t p (abortIf c keys e >>= f) := by
  unfold abortIf
  split
  · rw [bind_assoc]
    exact finds_deleteSnapKeys hp (FindsEntries.error he)
  · exact hf

/-- A statement after which a program needs no name, as before. -/
theorem finds_done_sql {q : Query} {f : q.Row → Action α}
    (hf : ∀ row, FindsFrom keyPrefix faulty t .done (f row)) :
    FindsFrom keyPrefix faulty t .done (Action.sql q >>= f) :=
  finds_sql (allows_done _ fun _ => rfl) fun row _ => hf row

/-- The placements of a snapshot are inserted when all rows have been looked up. -/
theorem keeps_inserts {l : List β} {f : β → Action Unit}
    (hf : ∀ x ∈ l, ∃ q : Query, f x = Action.sql q >>= fun _ => pure ())
    {k : Unit → Action α} (hk : FindsFrom keyPrefix faulty t .done (k ())) :
    FindsFrom keyPrefix faulty t .done (Prog.each l f >>= k) := by
  refine Monitor.keeps_bind ((Monitor.keeps_each (I := (· = .done))
    (E := fun e _ => FindsEntries (.error e : Except Error α)) (fun x hx p hp => ?_) rfl).mono
    fun x p hp => ?_)
  · subst hp
    obtain ⟨q, hq⟩ := hf x hx
    rw [hq]
    refine ⟨allows_done _ fun _ => rfl, fun r _ => ?_⟩
    cases r with
    | error e => exact FindsEntries.error (by simp)
    | ok row => exact (rfl : Phase.done = .done)
  · cases x with
    | error e => exact hp
    | ok _ =>
      obtain rfl : p = .done := hp
      exact hk

/-- The accumulated scores are not in Redis. -/
theorem finds_scoresSnapshot (b : Board) (note : Option String) (metadata : Option Json)
    (maxVersions : Option ℤ) (maxEntries : Option ℕ) {f : VersionWithPlacements → Action α}
    (hf : ∀ v, FindsFrom keyPrefix faulty t .done (f v)) : FindsFrom keyPrefix faulty t .done
      (Scores.snapshot b note metadata maxVersions maxEntries >>= f) := by
  have hversions : ∀ {boardId : Uuid} {f : Unit → Action VersionWithPlacements},
      FindsFrom keyPrefix faulty t .done (f ()) → FindsFrom keyPrefix faulty t .done
        (Versions.checkVersionLimit boardId maxVersions >>= f) := by
    intro boardId f hf
    cases maxVersions with
    | none => exact hf
    | some max =>
      simp only [Versions.checkVersionLimit, bind_assoc]
      exact finds_done_sql fun _ => finds_guard (by simp) hf
  have hentries : ∀ {count : ℕ} {f : Unit → Action VersionWithPlacements},
      FindsFrom keyPrefix faulty t .done (f ()) → FindsFrom keyPrefix faulty t .done
        (Scores.checkEntryLimit count maxEntries >>= f) := by
    intro count f hf
    cases maxEntries with
    | none => exact hf
    | some max => exact finds_guard (by simp) hf
  -- It never comes to look up an entry by a name: it joins the rows of the scores.
  have hbody : FindsFrom keyPrefix faulty t .done
      (Scores.snapshotBody b.id note metadata maxVersions maxEntries) := by
    refine finds_done_sql fun board => hversions <| finds_done_sql fun scores =>
      finds_guard (by simp) <| hentries <| finds_done_sql fun n => finds_done_sql fun version =>
      keeps_inserts (fun _ _ => ⟨_, rfl⟩) ?_
    exact finds_done_sql fun _ => finds_done_sql fun _ => FindsEntries.ok _
  unfold Scores.snapshot
  simp only [bind_assoc]
  exact finds_guard (by simp) <| finds_guard (by simp) <|
    finds_transaction (allows_done _ fun r => by cases r <;> rfl) hbody hf

/-- Afterwards the key to read is chosen. -/
theorem finds_isolate (hrealtime : b.realtime = true)
    {f : String × Option (String × String) → Action α}
    (hf : ∀ key keys, FindsFrom keyPrefix faulty t (.reading .chosen b key) (f (key, keys))) :
    FindsFrom keyPrefix faulty t (Phase.onBoard keyPrefix b) (isolate b keyPrefix >>= f) := by
  unfold isolate Phase.onBoard
  dsimp only
  rw [if_pos hrealtime]
  split
  · have hexists : ∀ {key : String} {f : Bool → Action α},
        (∀ x, FindsFrom keyPrefix faulty t (.isolating b) (f x)) →
        FindsFrom keyPrefix faulty t (.isolating b)
          (Action.redis (.existsKey key) "Redis error" >>= f) := fun hf =>
      finds_redis (allows_redis (fun _ _ _ h => by cases h) (.inr (.inr ⟨b, rfl⟩)) fun _ => rfl) hf
    simp only [bind_assoc]
    refine ⟨allows_newUuid, fun snapId _ => hexists fun scoresExist => finds_guard (by simp) <|
      hexists fun ekExists => ?_⟩
    -- The second renaming leaves the scores alone.
    have hne : snapKey (scoresKey keyPrefix b.slug) snapId ≠
        snapKey (entriesKey keyPrefix b.slug) snapId := fun heq =>
      entriesKey_ne_scoresKey _ _ _ _ (snapKey_key heq).symm
    split
    · rw [bind_assoc]
      exact finds_redis (allows_rename (fun r => by cases r <;> rfl) fun _ _ hreply =>
        members_renames (snapKey_ne_entriesKey _ _ _ _) hne hreply) fun _ => hf _ _
    · rw [bind_assoc]
      exact finds_redis (allows_rename (fun r => by cases r <;> rfl) fun _ _ hreply =>
        members_rename hreply) fun _ => hf _ _
  · exact hf _ _

/-- The part inside the transaction. -/
theorem finds_snapshotBody (keys : Option (String × String)) (note : Option String)
    (metadata : Option Json) (maxVersions : Option ℤ) (maxEntries : Option ℕ) :
    FindsFrom keyPrefix faulty t (.reading .begun b key)
      (snapshotBody b.id key keys note metadata maxVersions maxEntries) := by
  have hversions : ∀ {f : Unit → Action VersionWithPlacements},
      FindsFrom keyPrefix faulty t (.reading .locked b key) (f ()) →
      FindsFrom keyPrefix faulty t (.reading .locked b key)
        (Realtime.checkVersionLimit b.id keys maxVersions >>= f) := by
    intro f hf
    cases maxVersions with
    | none => exact hf
    | some max =>
      simp only [Realtime.checkVersionLimit, bind_assoc]
      exact finds_sql (allows_read rfl (.inl ⟨_, _, _, rfl, by simp⟩) fun _ => rfl) fun _ _ =>
        finds_abortIf (by simp) (.inl ⟨_, _, _, rfl⟩) hf
  have hentries : ∀ {p : Phase} {count : ℕ} {f : Unit → Action VersionWithPlacements}, p.Deletes →
      FindsFrom keyPrefix faulty t p (f ()) → FindsFrom keyPrefix faulty t p
        (Realtime.checkEntryLimit count keys maxEntries >>= f) := by
    intro p count f hp hf
    cases maxEntries with
    | none => exact hf
    | some max => exact finds_abortIf (by simp) hp hf
  unfold snapshotBody
  refine finds_sql allows_selectForUpdate fun board hboard => ?_
  rw [expects_selectForUpdate hboard]
  refine hversions <| finds_redis allows_zrevrange fun members => ?_
  refine finds_abortIf (by simp) (.inr (.inl ⟨_, _, rfl⟩)) <|
    hentries (.inr (.inl ⟨_, _, rfl⟩)) <|
    finds_sql (allows_read rfl (.inr ⟨_, _, rfl⟩) fun _ => rfl) fun n _ =>
    finds_sql allows_insertVersion fun version _ =>
    finds_sql allows_selectEntries fun entries hfound =>
    keeps_inserts (fun x hx => ?_) ?_
  -- All names were found, so no lookup of the loop ends with the error.
  · obtain ⟨e, he⟩ := expects_selectEntries hfound x.1 (List.mem_map_of_mem hx)
    unfold Realtime.insertScore
    rw [he]
    exact ⟨_, rfl⟩
  · exact finds_done_sql fun _ => finds_done_sql fun _ => FindsEntries.ok _

/-- **A snapshot goes through the phases and misses no entry.** -/
theorem keeps_snapshot (caller : Caller) (slug : String) (input : SnapshotInput) :
    FindsFrom caller.keyPrefix faulty t .start (Request.snapshot caller slug input).handler := by
  unfold Request.handler Action.discard Routes.snapshot Boards.getBySlug
  simp only [bind_assoc]
  refine finds_sql (allows_selectBoard slug) fun row _ => ?_
  cases row with
  | none => exact FindsEntries.error (by simp)
  | some b =>
    change FindsFrom caller.keyPrefix faulty t (Phase.onBoard caller.keyPrefix b) (ite .. >>= _)
    split
    · rename_i hrealtime
      unfold Realtime.snapshot
      simp only [bind_assoc]
      exact finds_guard (by simp [Routes.redisRequired]) <| finds_isolate hrealtime fun key keys =>
        finds_transaction allows_begin (finds_snapshotBody ..) fun v =>
        finds_deleteSnapKeys (.inr (.inr rfl)) (FindsEntries.ok ())
    · rename_i hrealtime
      unfold Phase.onBoard
      rw [if_neg hrealtime]
      exact finds_scoresSnapshot _ _ _ _ _ fun v => FindsEntries.ok ()

end

/-! ### The instructions of the others -/

/-- An instruction by which names come under a temporary key only with the working scores. -/
def Cmd.Moves : Cmd → Prop
  | .redis c => ∀ w ∈ c.writes, w.Moves ∧ ∀ keyPrefix slug snapId name x,
      w ≠ .zadd (snapKey (scoresKey keyPrefix slug) snapId) name x
  | _ => True

theorem Cmd.Quiet.moves {c : Cmd} (h : c.Quiet) : c.Moves := by
  cases c with
  | redis c => exact fun w hw => ⟨(h w hw).2.2, fun _ _ _ _ _ => (h w hw).1 _ _ _⟩
  | _ => trivial

theorem Request.moves (r : Request) : r.handler.Uses Cmd.Moves := by
  by_cases hr : r.submits
  · refine Request.uses_of_submits (fun c hc => ?_) (fun keyPrefix slug _ _ _ w hw => ?_) hr
    · exact (hc.mono id fun _ => False.elim).quiet.moves
    · simp only [RedisCmd.writes, List.mem_cons, List.not_mem_nil, or_false] at hw
      rcases hw with rfl | rfl
      · refine ⟨fun _ _ _ h => h.elim, fun _ _ _ _ _ heq => ?_⟩
        exact snapKey_ne_scoresKey _ _ _ _ (RedisWrite.zadd.inj heq).1.symm
      · exact ⟨fun _ _ _ h => absurd h.symm (snapKey_ne_entriesKey _ _ _ _), by simp⟩
  · exact (Request.quiet hr).mono fun _ => Cmd.Quiet.moves

namespace System

variable {g g' : System faulty} {slug name : String} {snapId : Uuid}

/-- **The names under a temporary key** were there before or are live names of its slug. -/
theorem At.has_snapKey_of_step (h : At keyPrefix g) (hmoves : Machine.AllUse Cmd.Moves g)
    (hstep : StepAt keyPrefix g g')
    (hhas : g'.servers.redis.Has (snapKey (scoresKey keyPrefix slug) snapId) name) :
    g.servers.redis.Has (snapKey (scoresKey keyPrefix slug) snapId) name ∨
      Live keyPrefix g slug name := by
  cases hstep with
  | call t p hp ht => exact .inl hhas
  | crash t th hc ht => exact .inl hhas
  | exec t c k hs hs' L r sh' ht hadmits hexec =>
    change sh'.redis.Has _ _ at hhas
    rcases exec_redis hexec with hsame | ⟨rc, rfl, hredis⟩
    · rw [hsame] at hhas
      exact .inl hhas
    · rw [hredis, execRedis_snd] at hhas
      obtain ⟨known, -, hwrites, -⟩ := h.backed t _ ht
      have hmoves' : Cmd.Moves (.redis rc) := (hmoves t _ ht).1
      -- What the block has put under either key was there before, or it adds the name.
      have hblock := runPipe_invariant
        (I := fun r => r.Has (snapKey (scoresKey keyPrefix slug) snapId) name ∨
          r.Has (scoresKey keyPrefix slug) name →
            g.servers.redis.Has (snapKey (scoresKey keyPrefix slug) snapId) name ∨
              Live keyPrefix g slug name) (r := g.servers.redis)
        (fun w (hw : w ∈ rc.writes) r₁ r₂ hr₁ happly hr₂ => ?_) (Or.imp id .inl)
      · exact hblock (.inl hhas)
      · rcases hr₂ with hsnap | hworking
        · rcases w.has_of_apply happly hsnap with hold | ⟨x, hadd⟩ | hstores
          · exact hr₁ (.inl hold)
          · exact absurd hadd ((hmoves' w hw).2 _ _ _ _ x)
          · obtain rfl := (hmoves' w hw).1 _ _ _ hstores
            obtain ⟨x, hx⟩ := hsnap
            rw [RedisWrite.members_rename happly] at hx
            exact hr₁ (.inr ⟨x, hx⟩)
        · rcases w.has_of_apply happly hworking with hold | ⟨x, rfl⟩ | hstores
          · exact hr₁ (.inr hold)
          · exact .inr (.inr ⟨t, _, ht, x, hw⟩)
          · exact absurd hstores (hwrites rc rfl w hw slug)

end System

end Leaderboards
