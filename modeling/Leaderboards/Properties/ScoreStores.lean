import Leaderboards.Properties.LiveNames
import Leaderboards.Properties.SnapshotAnswers
import Leaderboards.Transactions.Calls

/-!
# The two stores of the scores of a board

The scores that are submitted to an accumulative board are rows of `accumulated_scores`, or members
of a sorted set in Redis while the board is realtime. A submission of a client that runs alone
writes to the store of the moment and leaves the other one alone (`ends_submit`); a PATCH leaves
both alone (`ends_patch`), and so does a snapshot of a board that keeps its live scores
(`ends_snapshot`).
-/

namespace Leaderboards

open Interaction Realtime

variable {keyPrefix : String} {env : Supply} {b : Board} {w : World} {db db' : Database}
  {u : Uuid} {now : Timestamp} {ws : List RowWrite} {α : Type}

/-! ### The table -/

/-- The entries stay, with their boards and slugs. -/
def KeepsEntries (db db' : Database) : Prop := ∀ e ∈ db.entries, ∃ e' ∈ db'.entries, e.SameKey e'

theorem KeepsEntries.of_eq (h : db'.entries = db.entries) : KeepsEntries db db' :=
  fun e he => ⟨e, h ▸ he, rfl, rfl, rfl⟩

theorem KeepsEntries.trans {db'' : Database} (h : KeepsEntries db db')
    (h' : KeepsEntries db' db'') : KeepsEntries db db'' := by
  intro e he
  obtain ⟨e', he', hid, hboard, hslug⟩ := h e he
  obtain ⟨e'', he'', hid', hboard', hslug'⟩ := h' e' he'
  exact ⟨e'', he'', hid.trans hid', hboard.trans hboard', hslug.trans hslug'⟩

/-- The upsert of an entry. -/
theorem exec_upsertEntry_keeps {boardId id : Uuid} {slug name : String} (hdb : db.Schema)
    (h : exec u now (.upsertEntry boardId slug name) db = .ok (id, ws)) :
    KeepsEntries db (db.applyAll ws) ∧
      (db.applyAll ws).accumulatedScores = db.accumulatedScores ∧
      (db.applyAll ws).boards = db.boards ∧
      ∃ e ∈ (db.applyAll ws).entries, e.id = id ∧ e.boardId = boardId ∧ e.slug = slug := by
  rcases execUpsertEntry_ok h with ⟨r, hr, rfl, rfl⟩ | ⟨e, -, hins, rfl⟩
  · obtain ⟨hmem, hboard, hslug⟩ := Database.mem_of_entryBySlug? hr
    have hnew : { r with name := name, updatedAt := now } ∈
        (db.setEntry { r with name := name, updatedAt := now }).entries :=
      Database.mem_setEntry_entries.mpr (.inr ⟨rfl, r, hmem, rfl⟩)
    refine ⟨fun e he => ?_, rfl, rfl, _, hnew, rfl, hboard, hslug⟩
    by_cases hid : e.id = r.id
    · obtain rfl := hdb.entry_inj he hmem hid
      exact ⟨_, hnew, rfl, rfl, rfl⟩
    · exact ⟨e, Database.mem_setEntry_entries.mpr (.inl ⟨he, hid⟩), rfl, rfl, rfl⟩
  · obtain ⟨rfl, -, -, -, rfl⟩ := execInsertEntry_ok hins
    refine ⟨fun e he => ⟨e, List.mem_append_left _ he, rfl, rfl, rfl⟩, rfl, rfl, _,
      List.mem_append_right _ List.mem_cons_self, rfl, rfl, rfl⟩

/-- The upsert of a score. -/
theorem exec_upsertScore_keeps {boardId entryId : Uuid} {score : F64} {x : AccumulatedScore}
    (h : exec u now (.upsertScore boardId entryId score) db = .ok (x, ws)) :
    (db.applyAll ws).entries = db.entries ∧ (db.applyAll ws).boards = db.boards ∧
      (x.boardId = boardId ∧ x.entryId = entryId ∧ x.score = score) ∧
      ∀ s, s ∈ (db.applyAll ws).accumulatedScores ↔
        (s ∈ db.accumulatedScores ∧ ¬(s.boardId = boardId ∧ s.entryId = entryId)) ∨ s = x := by
  rcases execUpsertScore_ok h with ⟨r, hr, rfl, rfl⟩ | ⟨hnone, -, rfl, rfl⟩
  · have hentry : r.entryId = entryId := by simpa using List.find?_some hr
    obtain ⟨hmem, hboard⟩ := Database.mem_scoresOf.mp (List.mem_of_find?_eq_some hr)
    refine ⟨rfl, rfl, ⟨hboard, hentry, rfl⟩, fun s => ?_⟩
    have hold : ∃ r' ∈ db.accumulatedScores, r'.boardId = r.boardId ∧ r'.entryId = r.entryId :=
      ⟨r, hmem, rfl, rfl⟩
    simp only [Database.applyAll_cons, Database.applyAll_nil, RowWrite.apply,
      Database.mem_setScore_accumulatedScores, hboard, hentry] at hold ⊢
    simp [hold]
  · refine ⟨rfl, rfl, ⟨rfl, rfl, rfl⟩, fun s => ?_⟩
    have hother : s ∈ db.accumulatedScores → ¬(s.boardId = boardId ∧ s.entryId = entryId) := by
      rintro hs ⟨hboard, hentry⟩
      have hne := List.find?_eq_none.mp hnone s (Database.mem_scoresOf.mpr ⟨hs, hboard⟩)
      exact hne (decide_eq_true hentry)
    simp only [Database.applyAll_cons, Database.applyAll_nil, RowWrite.apply,
      Database.addScore_accumulatedScores, List.mem_append, List.mem_singleton]
    exact or_congr_left ⟨fun hs => ⟨hs, hother hs⟩, And.left⟩

/-- The scores under the slugs of their entries, after other scores have been written for one
entry. -/
theorem mem_tableScores_of_keeps (hdb : db.Schema) (hdb' : db'.Schema)
    (hkeeps : KeepsEntries db db')
    {boardId : Uuid} {n : String} {y : F64} {old new : AccumulatedScore → Prop}
    (hscores : ∀ s, s ∈ db'.accumulatedScores ↔ (s ∈ db.accumulatedScores ∧ old s) ∨ new s) :
    (n, y) ∈ db'.tableScores boardId ↔
      (∃ s ∈ db.scoresOf boardId, old s ∧ ∃ e ∈ db.entriesOf boardId, e.id = s.entryId ∧
        e.slug = n ∧ s.score = y) ∨
      ∃ s, new s ∧ s.boardId = boardId ∧ ∃ e ∈ db'.entriesOf boardId, e.id = s.entryId ∧
        e.slug = n ∧ s.score = y := by
  -- Entries may have been added and renamed; those that were there keep id, board and slug.
  have hof : ∀ e ∈ db.entriesOf boardId, ∃ e' ∈ db'.entriesOf boardId,
      e'.id = e.id ∧ e'.slug = e.slug := by
    intro e he
    obtain ⟨hmem, hboard⟩ := Database.mem_entriesOf.mp he
    obtain ⟨e', he', hid, hb, hslug⟩ := hkeeps e hmem
    exact ⟨e', Database.mem_entriesOf.mpr ⟨he', hb.symm.trans hboard⟩, hid.symm, hslug.symm⟩
  rw [hdb'.mem_tableScores]
  constructor
  · rintro ⟨s, hs, e', he', hid, hslug, hscore⟩
    obtain ⟨hmem, hboard⟩ := Database.mem_scoresOf.mp hs
    rcases (hscores s).mp hmem with ⟨hold, hs'⟩ | hnew
    · obtain ⟨-, e, he, heid, heb⟩ := hdb.score_board s hold
      have hmem : e ∈ db.entriesOf boardId := Database.mem_entriesOf.mpr ⟨he, heb.trans hboard⟩
      obtain ⟨r, hr, hrid, hrslug⟩ := hof e hmem
      obtain rfl : r = e' := hdb'.entry_inj (Database.mem_entriesOf.mp hr).1
        (Database.mem_entriesOf.mp he').1 (hrid.trans (heid.trans hid.symm))
      exact .inl ⟨s, Database.mem_scoresOf.mpr ⟨hold, hboard⟩, hs', e, hmem, heid,
        hrslug.symm.trans hslug, hscore⟩
    · exact .inr ⟨s, hnew, hboard, e', he', hid, hslug, hscore⟩
  · rintro (⟨s, hs, hs', e, he, hid, hslug, hscore⟩ | ⟨s, hnew, hboard, e', he', hid,
      hslug, hscore⟩)
    · obtain ⟨hmem, hboard⟩ := Database.mem_scoresOf.mp hs
      obtain ⟨e', he', hid', hslug'⟩ := hof e he
      exact ⟨s, Database.mem_scoresOf.mpr ⟨(hscores s).mpr (.inl ⟨hmem, hs'⟩), hboard⟩, e', he',
        hid'.trans hid, hslug'.trans hslug, hscore⟩
    · exact ⟨s, Database.mem_scoresOf.mpr ⟨(hscores s).mpr (.inr hnew), hboard⟩, e', he', hid,
        hslug, hscore⟩

/-- The scores stay when no score is written. -/
theorem mem_tableScores_same (hdb : db.Schema) (hdb' : db'.Schema) (hkeeps : KeepsEntries db db')
    (hscores : db'.accumulatedScores = db.accumulatedScores) {boardId : Uuid} {n : String}
    {y : F64} :
    (n, y) ∈ db'.tableScores boardId ↔ (n, y) ∈ db.tableScores boardId := by
  have hsame : ∀ s, s ∈ db'.accumulatedScores ↔ (s ∈ db.accumulatedScores ∧ True) ∨ False := by
    simp [hscores]
  rw [mem_tableScores_of_keeps hdb hdb' hkeeps hsame, hdb.mem_tableScores]
  simp

/-- The scores after one score was written for an entry with a slug. -/
theorem mem_tableScores_set (hdb : db.Schema) (hdb' : db'.Schema) (hkeeps : KeepsEntries db db')
    {boardId : Uuid} {e : Entry} {x : AccumulatedScore} (he : e ∈ db'.entriesOf boardId)
    (hx : x.boardId = boardId ∧ x.entryId = e.id)
    (hscores : ∀ s, s ∈ db'.accumulatedScores ↔
      (s ∈ db.accumulatedScores ∧ ¬(s.boardId = boardId ∧ s.entryId = e.id)) ∨ s = x)
    {n : String} {y : F64} : (n, y) ∈ db'.tableScores boardId ↔
      if n = e.slug then y = x.score else (n, y) ∈ db.tableScores boardId := by
  -- On one board the id of an entry and its slug determine each other.
  have hsame : ∀ r ∈ db.entriesOf boardId, r.id = e.id ↔ r.slug = e.slug := by
    intro r hr
    obtain ⟨hmem, hboard⟩ := Database.mem_entriesOf.mp hr
    obtain ⟨hmem', hboard'⟩ := Database.mem_entriesOf.mp he
    obtain ⟨r', hr', hid, hb, hslug⟩ := hkeeps r hmem
    constructor
    · intro heq
      rw [hslug, hdb'.entry_inj hr' hmem' (hid.symm.trans heq)]
    · intro heq
      rw [hid, hdb'.entry_key_inj hr' hmem' (hb.symm.trans (hboard.trans hboard'.symm))
        (hslug.symm.trans heq)]
  rw [mem_tableScores_of_keeps hdb hdb' hkeeps hscores, hdb.mem_tableScores]
  split
  · rename_i hn
    subst hn
    constructor
    · rintro (⟨s, hs, hother, r, hr, hid, hslug, -⟩ | ⟨s, rfl, -, r, hr, hid, -, hscore⟩)
      · have heq := (hsame r hr).mpr hslug
        exact absurd ⟨(Database.mem_scoresOf.mp hs).2, hid.symm.trans heq⟩ hother
      · exact hscore.symm
    · exact fun hscore => .inr ⟨x, rfl, hx.1, e, he, hx.2.symm, rfl, hscore.symm⟩
  · rename_i hn
    constructor
    · rintro (⟨s, hs, -, r, hr, hrest⟩ | ⟨s, rfl, -, r, hr, hid, hslug, -⟩)
      · exact ⟨s, hs, r, hr, hrest⟩
      · have heq : r = e := hdb'.entry_inj (Database.mem_entriesOf.mp hr).1
          (Database.mem_entriesOf.mp he).1 (hid.trans hx.2)
        exact absurd (hslug.symm.trans (congrArg Entry.slug heq)) hn
    · rintro ⟨s, hs, r, hr, hid, hslug, hscore⟩
      refine .inl ⟨s, hs, fun hboth => hn ?_, r, hr, hid, hslug, hscore⟩
      exact hslug.symm.trans ((hsame r hr).mp (hid.trans hboth.2))

/-! ### The sorted set -/

theorem mem_assocSet_iff {β : Type} {l : List (String × β)} {name n : String} {x y : β} :
    (n, y) ∈ assocSet l name x ↔ if n = name then y = x else (n, y) ∈ l := by
  have hset : (n, y) ∈ assocSet l name x →
      if n = name then y = x else (n, y) ∈ l := by
    intro h
    split
    · rename_i hn
      subst hn
      unfold assocSet at h
      split at h
      · obtain ⟨f, hf, heq⟩ := List.mem_map.mp h
        by_cases hname : f.1 = n
        · rw [if_pos hname] at heq
          exact (Prod.mk.inj heq).2.symm
        · rw [if_neg hname] at heq
          exact absurd (congrArg Prod.fst heq) hname
      · rename_i hnew
        rcases List.mem_append.mp h with h | h
        · exact absurd (List.any_eq_true.mpr ⟨_, h, decide_eq_true rfl⟩) hnew
        · exact (Prod.mk.inj (List.mem_singleton.mp h)).2
    · rename_i hn
      rcases mem_assocSet h with heq | h
      · exact absurd (Prod.mk.inj heq).1 hn
      · exact h
  refine ⟨hset, fun h => ?_⟩
  split at h
  · rename_i hn
    rw [hn, h]
    exact mem_assocSet_self l name x
  · rename_i hn
    unfold assocSet
    split
    · exact List.mem_map.mpr ⟨(n, y), h, if_neg hn⟩
    · exact List.mem_append_left _ h

/-- The block of a submission, on a sorted set and a hash. -/
theorem execRedis_submit {r : Redis} {sk ek : String} (hne : ek ≠ sk) (hscores : r.IsScores sk)
    (hnames : ∀ v, r ek = some v → ∃ fields, v = .hash fields) (name entryName : String)
    (score : F64) :
    (execRedis (.pipe [.zadd sk name score, .hset ek name entryName]) r).1 = .ok () ∧
      (∀ v, (execRedis (.pipe [.zadd sk name score, .hset ek name entryName]) r).2 ek = some v →
        ∃ fields, v = .hash fields) ∧
      ∀ n y, (n, y) ∈ (execRedis (.pipe [.zadd sk name score, .hset ek name entryName]) r).2.members
        sk ↔ if n = name then y = score else (n, y) ∈ r.members sk := by
  have hzadd : (RedisWrite.zadd sk name score).apply r =
      .ok (r.put sk (some (.zset (assocSet (r.members sk) name score)))) := by
    rcases hkey : r sk with _ | v
    · simp [RedisWrite.apply, hkey, Redis.members, zsetMembers, assocSet]
    · obtain ⟨members, rfl, -⟩ := hscores v hkey
      simp [RedisWrite.apply, hkey, Redis.members, zsetMembers]
  have hentries : (r.put sk (some (.zset (assocSet (r.members sk) name score)))) ek = r ek :=
    Redis.put_of_ne _ _ hne
  obtain ⟨fields, hhset, -⟩ := hset_ok (fun v hv => hnames v (hentries ▸ hv)) name entryName
  have hpipe : execRedis (.pipe [.zadd sk name score, .hset ek name entryName]) r =
      (.ok (), (r.put sk (some (.zset (assocSet (r.members sk) name score)))).put ek
        (some (.hash fields))) := by
    simp only [execRedis, runPipe, hzadd, hhset]
  rw [hpipe]
  refine ⟨rfl, fun v hv => ?_, fun n y => ?_⟩
  · have hhash : some (RedisValue.hash fields) = some v := (Redis.put_self ..).symm.trans hv
    exact ⟨fields, (Option.some.inj hhash).symm⟩
  · rw [Redis.members_put, if_neg hne.symm, Redis.members_put, if_pos rfl, zsetMembers,
      mem_assocSet_iff]

/-! ### Calls -/

/-- The scores of a board, in Redis and in the table. -/
def StoredScores (keyPrefix : String) (b : Board) (s : Server) : Bool → List (String × F64)
  | true => s.redis.members (scoresKey keyPrefix b.slug)
  | false => s.db.tableScores b.id

/-- The names of the live scores of a board are a hash, if anything. -/
def NamesHash (keyPrefix : String) (b : Board) (r : Redis) : Prop :=
  ∀ v, r (entriesKey keyPrefix b.slug) = some v → ∃ fields, v = .hash fields

/-- The scores of a board are the same. -/
structure LeavesScores (keyPrefix : String) (b : Board) (s s' : Server) : Prop where
  boards : s'.db.boards = s.db.boards
  names : NamesHash keyPrefix b s'.redis
  stored : s'.db.Schema → ∀ realtime n y,
    (n, y) ∈ StoredScores keyPrefix b s' realtime ↔ (n, y) ∈ StoredScores keyPrefix b s realtime

/-- The scores of a board after a submission. -/
structure AddsScore (keyPrefix : String) (b : Board) (input : SubmitScore) (s s' : Server) :
    Prop where
  boards : s'.db.boards = s.db.boards
  names : NamesHash keyPrefix b s'.redis
  stored : s'.db.Schema → ∀ realtime n y, (n, y) ∈ StoredScores keyPrefix b s' realtime ↔
    if realtime = b.realtime ∧ n = input.entrySlug then y = input.score
    else (n, y) ∈ StoredScores keyPrefix b s realtime

theorem LeavesScores.of_eq {s s' : Server} (hnames : NamesHash keyPrefix b s.redis)
    (hdb : s'.db = s.db) (hredis : s'.redis = s.redis) : LeavesScores keyPrefix b s s' where
  boards := congrArg Database.boards hdb
  names := by
    rw [hredis]
    exact hnames
  stored _ realtime n y := by
    cases realtime
    · rw [StoredScores, StoredScores, hdb]
    · rw [StoredScores, StoredScores, hredis]

/-- The board of the slug. -/
theorem ends_found {slug : String} {f : Board → Action α} {post : Except Error α → World → Prop}
    (hs : w.session = none) (hb : w.server.db.boardBySlug? slug = some b)
    (hok : ∀ w', w.Reads w' → (f b).Ends env post w') :
    (Boards.getBySlug slug >>= f).Ends env post w := by
  unfold Boards.getBySlug
  rw [bind_assoc]
  refine ends_read hs (fun e w' he => by cases he) (fun row w' hexec hw => ?_) rfl
  obtain rfl : w.server.db.boardBySlug? slug = row := (Prod.mk.inj (Except.ok.inj hexec)).1
  rw [hb]
  exact hok w' hw

/-- A statement outside of a transaction, and what it leaves alone. -/
theorem ends_autocommit {q : Query} {f : q.Row → Action α}
    {post : Except Error α → World → Prop} (hs : w.session = none)
    (herr : ∀ e w', w'.server.db = w.server.db → w'.server.redis = w.server.redis →
      post (.error (.database e)) w')
    (hok : ∀ row ws w', exec (env.uuid w.tick) (env.now w.tick) q w.server.db = .ok (row, ws) →
      w'.server.db = w.server.db.applyAll ws → w'.server.redis = w.server.redis →
      (f row).Ends env post w') :
    (Action.sql q >>= f).Ends env post w := by
  obtain ⟨server, session, tick⟩ := w
  obtain rfl : session = none := hs
  refine Prog.ends_bind ?_
  unfold Prog.Ends
  rw [run_sql]
  rcases hexec : exec (env.uuid tick) (env.now tick) q server.db with e | ⟨row, ws⟩
  · simp only [serveSql, World.view, Session.view_none, hexec]
    exact herr e _ rfl rfl
  · simp only [serveSql, World.view, Session.view_none, hexec]
    exact hok row ws _ hexec rfl rfl

/-- **A submission to the table.** -/
theorem ends_submitScore (hdb : w.server.db.Schema) (hnames : NamesHash keyPrefix b w.server.redis)
    (hrealtime : b.realtime = false) (input : SubmitScore) :
    (Scores.submit b input).Ends env (Prog.outcome
      (fun _ w' => AddsScore keyPrefix b input w.server w'.server)
      fun _ w' => LeavesScores keyPrefix b w.server w'.server) w := by
  have hnothing : ∀ w' : World, w'.server.db = w.server.db → w'.server.redis = w.server.redis →
      LeavesScores keyPrefix b w.server w'.server := fun w' => LeavesScores.of_eq hnames
  unfold Scores.submit
  refine Prog.ends_failIf (fun _ => hnothing w rfl rfl) fun _ => ?_
  refine Prog.ends_failIf (fun _ => hnothing w rfl rfl) fun _ => ?_
  refine Prog.ends_failIf (fun _ => hnothing w rfl rfl) fun _ => ?_
  refine Prog.ends_ofExcept (fun _ _ => hnothing w rfl rfl) fun _ _ => ?_
  refine Prog.ends_ofExcept (fun _ _ => hnothing w rfl rfl) fun _ _ => ?_
  refine ends_transaction fun w₀ h₀ => ?_
  refine ends_statement h₀.session (fun e _ w₁ _ h₁ w₂ h₂ => ?_) fun _ id ws w₁ hentry h₁ => ?_
  · refine hnothing w₂ (h₂.db.trans ?_) (h₂.redis.trans ?_)
    · rw [h₁.server, h₀.db]
    · rw [h₁.server, h₀.redis]
  rw [h₀.view] at hentry
  obtain ⟨hkeeps, hscores, hboards, e, he, hid, hboard, hslug⟩ := exec_upsertEntry_keeps hdb hentry
  have hview₁ : w₁.view = w.server.db.applyAll ws := by rw [h₁.view, h₀.view]
  rw [← bind_pure (Action.sql _)]
  refine ends_statement h₁.session (fun e _ w₂ _ h₂ w₃ h₃ => ?_) fun _ x ws' w₂ hscore h₂ => ?_
  · refine hnothing w₃ (h₃.db.trans ?_) (h₃.redis.trans ?_)
    · rw [h₂.server, h₁.server, h₀.db]
    · rw [h₂.server, h₁.server, h₀.redis]
  rw [hview₁] at hscore
  obtain ⟨hentries, hboards', ⟨hxb, hxe, hxs⟩, hacc⟩ := exec_upsertScore_keeps hscore
  refine ⟨h₂.session, fun w₃ h₃ => ?_⟩
  -- Both statements have worked: the tables are those with their writes, and Redis is as before.
  have hview₂ : w₂.view = (w.server.db.applyAll ws).applyAll ws' := by rw [h₂.view, hview₁]
  have hdb₃ : w₃.server.db = (w.server.db.applyAll ws).applyAll ws' := h₃.db.trans hview₂
  have hserver₂ : w₂.server.redis = w.server.redis := by rw [h₂.server, h₁.server, h₀.redis]
  have hredis₃ : w₃.server.redis = w.server.redis := h₃.redis.trans hserver₂
  refine ⟨?_, hredis₃ ▸ hnames, fun hdb' realtime n y => ?_⟩
  · rw [hdb₃, hboards', hboards]
  rw [hrealtime]
  cases realtime with
  | true =>
    rw [StoredScores, StoredScores, hredis₃, if_neg (by simp)]
  | false =>
    rw [hdb₃] at hdb'
    have hof : e ∈ ((w.server.db.applyAll ws).applyAll ws').entriesOf b.id :=
      Database.mem_entriesOf.mpr ⟨hentries ▸ he, hboard⟩
    rw [StoredScores, StoredScores, hdb₃, mem_tableScores_set hdb hdb'
      (hkeeps.trans (KeepsEntries.of_eq hentries)) hof ⟨hxb, hxe.trans hid.symm⟩ ?_, hslug, hxs]
    · simp
    · rw [← hscores, hid]
      exact hacc

/-- **A submission to the sorted set.** -/
theorem ends_submitLive (hdb : w.server.db.Schema) (hnames : NamesHash keyPrefix b w.server.redis)
    (hscores : w.server.redis.IsScores (scoresKey keyPrefix b.slug))
    (hrealtime : b.realtime = true) (hs : w.session = none) (input : SubmitScore) :
    (Realtime.submit b input keyPrefix).Ends env (Prog.outcome
      (fun _ w' => AddsScore keyPrefix b input w.server w'.server)
      fun _ w' => LeavesScores keyPrefix b w.server w'.server) w := by
  have hnothing : ∀ w' : World, w'.server.db = w.server.db → w'.server.redis = w.server.redis →
      LeavesScores keyPrefix b w.server w'.server := fun w' => LeavesScores.of_eq hnames
  unfold Realtime.submit
  refine Prog.ends_failIf (fun _ => hnothing w rfl rfl) fun _ => ?_
  refine Prog.ends_failIf (fun _ => hnothing w rfl rfl) fun _ => ?_
  refine Prog.ends_ofExcept (fun _ _ => hnothing w rfl rfl) fun _ _ => ?_
  refine Prog.ends_ofExcept (fun _ _ => hnothing w rfl rfl) fun _ _ => ?_
  -- The entry is stored by a statement of its own, before Redis is asked.
  refine ends_autocommit hs (fun e => hnothing) fun id ws w₁ hentry hdb₁ hredis₁ => ?_
  obtain ⟨hkeeps, hacc, hboards, -⟩ := exec_upsertEntry_keeps hdb hentry
  obtain ⟨hreply, hhash, hmembers⟩ := execRedis_submit
    (entriesKey_ne_scoresKey keyPrefix b.slug keyPrefix b.slug) (hredis₁ ▸ hscores)
    (hredis₁ ▸ hnames) input.entrySlug input.entryName input.score
  rw [← bind_pure (Action.redis _ _)]
  refine ends_redis (fun e w₂ he => ?_) fun _ w₂ _ h₂ => ?_
  · cases hreply.symm.trans he
  have hdb₂ : w₂.server.db = w.server.db.applyAll ws := h₂.db.trans hdb₁
  have hadds : AddsScore keyPrefix b input w.server w₂.server := by
    refine ⟨?_, ?_, fun hdb' realtime n y => ?_⟩
    · rw [hdb₂, hboards]
    · rw [h₂.redis]
      exact hhash
    rw [hrealtime]
    cases realtime with
    | true =>
      rw [StoredScores, StoredScores, h₂.redis, hmembers, hredis₁]
      simp
    | false =>
      rw [hdb₂] at hdb'
      rw [StoredScores, StoredScores, hdb₂, if_neg (by simp),
        mem_tableScores_same hdb hdb' hkeeps hacc]
  exact hadds

/-! ### Snapshots and PATCHes -/

/-- A statement of a snapshot. -/
def Query.OfSnapshot : Query → Prop
  | .insertVersion .. => True
  | .insertPlacement .. => True
  | .derivePositions .. => True
  | .selectBoardForUpdate _ => True
  | q => q.readOnly = true

/-- An instruction of a snapshot that keeps the live scores. -/
def Cmd.OfSnapshot : Cmd → Prop
  | .sql q => q.OfSnapshot
  | .redis c => c.writes = []
  | _ => True

/-- The tables of boards, entries and scores are the same. -/
structure SameScores (db db' : Database) : Prop where
  boards : db'.boards = db.boards
  entries : db'.entries = db.entries
  scores : db'.accumulatedScores = db.accumulatedScores

theorem SameScores.trans {db'' : Database} (h : SameScores db db') (h' : SameScores db' db'') :
    SameScores db db'' :=
  ⟨h'.boards.trans h.boards, h'.entries.trans h.entries, h'.scores.trans h.scores⟩

theorem exec_ofSnapshot {q : Query} {row : q.Row} (hq : q.OfSnapshot)
    (h : exec u now q db = .ok (row, ws)) : SameScores db (db.applyAll ws) := by
  cases q with
  | insertVersion =>
    obtain ⟨rfl, -⟩ := execInsertVersion_ok h
    exact ⟨rfl, rfl, rfl⟩
  | insertPlacement =>
    obtain ⟨rfl, -⟩ := execInsertPlacement_ok h
    exact ⟨rfl, rfl, rfl⟩
  | derivePositions =>
    obtain rfl := execDerivePositions_ok h
    exact ⟨rfl, rfl, rfl⟩
  | selectBoardForUpdate =>
    simp only [exec] at h
    split at h <;> cases h
    exact ⟨rfl, rfl, rfl⟩
  | _ =>
    obtain rfl := exec_readOnly hq h
    exact ⟨rfl, rfl, rfl⟩

/-- The committed scores, the scores that the client sees and the live scores are those of
before. -/
structure World.SameScores (w w' : World) : Prop where
  db : Leaderboards.SameScores w.server.db w'.server.db
  view : Leaderboards.SameScores w.server.db w'.view
  redis : w'.server.redis = w.server.redis

/-- **What consists of instructions of snapshots leaves the scores alone.** -/
theorem ends_ofSnapshot {p : Action α} (hp : p.Uses Cmd.OfSnapshot) {w₀ : World}
    (h : w₀.SameScores w) : p.Ends env (fun _ w' => w₀.SameScores w') w := by
  -- By induction on the program: no instruction of a snapshot writes a score, in the tables or in
  -- the working set.
  induction p generalizing w with
  | ret a => exact h
  | fail e => exact h
  | op c k ih =>
    obtain ⟨hc, hk⟩ := hp
    refine ih _ (hk _) ?_
    obtain ⟨server, session, tick⟩ := w
    cases c with
    | begin => exact ⟨h.db, h.db, h.redis⟩
    | commit =>
      cases session with
      | none => exact ⟨h.db, h.view, h.redis⟩
      | some tx => exact ⟨h.view, h.view, h.redis⟩
    | rollback => exact ⟨h.db, h.db, h.redis⟩
    | sql q =>
      cases session with
      | none =>
        simp only [serve, serveSql]
        rcases hexec : exec (env.uuid tick) (env.now tick) q
          (World.view ⟨server, none, tick⟩) with e | ⟨row, ws⟩
        · exact ⟨h.db, h.db, h.redis⟩
        · have hsame := h.db.trans (exec_ofSnapshot hc hexec)
          exact ⟨hsame, hsame, h.redis⟩
      | some tx =>
        simp only [serve, serveSql]
        rcases hexec : exec (env.uuid tick) tx.now q (World.view ⟨server, some tx, tick⟩)
          with e | ⟨row, ws⟩
        · exact ⟨h.db, h.view, h.redis⟩
        · have hsame := h.view.trans (exec_ofSnapshot hc hexec)
          refine ⟨h.db, ?_, h.redis⟩
          simp only [World.view, Session.view_some, Tx.add_writes, Database.applyAll_append]
          exact hsame
    | redis c =>
      have hredis : (execRedis c server.redis).2 = server.redis := by rw [execRedis_snd, hc]; rfl
      exact ⟨h.db, h.view, hredis.trans h.redis⟩
    | newUuid => exact ⟨h.db, h.view, h.redis⟩

theorem LeavesScores.of_same {w' : World} (hdb : w.server.db.Schema)
    (hnames : NamesHash keyPrefix b w.server.redis) (h : w.SameScores w') :
    LeavesScores keyPrefix b w.server w'.server where
  boards := h.db.boards
  names := by
    rw [h.redis]
    exact hnames
  stored hdb' realtime n y := by
    cases realtime
    · exact mem_tableScores_same hdb hdb' (KeepsEntries.of_eq h.db.entries) h.db.scores
    · rw [StoredScores, StoredScores, h.redis]

/-- The walk over a snapshot of the table. -/
theorem ofSnapshot_scores (note : Option String) (metadata : Option Json)
    (maxVersions : Option ℤ) (maxEntries : Option ℕ) :
    (Scores.snapshot b note metadata maxVersions maxEntries).Uses Cmd.OfSnapshot := by
  have hversions : ∀ boardId : Uuid,
      (Versions.checkVersionLimit boardId maxVersions).Uses Cmd.OfSnapshot := by
    intro boardId
    cases maxVersions with
    | none => trivial
    | some max => exact Prog.uses_bind (uses_sql rfl) fun _ => Prog.uses_failIf _ _
  have hentries : ∀ count : ℕ,
      (Scores.checkEntryLimit count maxEntries).Uses Cmd.OfSnapshot := by
    intro count
    cases maxEntries with
    | none => trivial
    | some max => exact Prog.uses_failIf _ _
  exact uses_guard <| uses_guard <| uses_transaction trivial trivial trivial <|
    Prog.uses_bind (uses_sql trivial) fun _ => Prog.uses_bind (hversions _) fun _ =>
    Prog.uses_bind (uses_sql rfl) fun _ => uses_guard <| Prog.uses_bind (hentries _) fun _ =>
    Prog.uses_bind (uses_sql rfl) fun _ => Prog.uses_bind (uses_sql trivial) fun _ =>
    Prog.uses_bind (Prog.uses_each fun _ => Prog.uses_bind (uses_sql trivial) fun _ => trivial)
      fun _ => Prog.uses_bind (uses_sql trivial) fun _ =>
    Prog.uses_bind (uses_sql rfl) fun _ => trivial

/-- The walk over a snapshot that keeps the live scores. -/
theorem ofSnapshot_live (hclear : b.clearOnSnapshot = false) (note : Option String)
    (metadata : Option Json) (maxVersions : Option ℤ) (maxEntries : Option ℕ) :
    (Realtime.snapshot b note metadata keyPrefix maxVersions maxEntries).Uses Cmd.OfSnapshot := by
  have habort : ∀ (c : Prop) [Decidable c] (e : Error),
      (abortIf c none e).Uses Cmd.OfSnapshot := by
    intro c _ e
    unfold abortIf
    split <;> trivial
  have hversions : ∀ boardId : Uuid,
      (Realtime.checkVersionLimit boardId none maxVersions).Uses Cmd.OfSnapshot := by
    intro boardId
    cases maxVersions with
    | none => trivial
    | some max => exact Prog.uses_bind (uses_sql rfl) fun _ => habort _ _
  have hentries : ∀ count : ℕ,
      (Realtime.checkEntryLimit count none maxEntries).Uses Cmd.OfSnapshot := by
    intro count
    cases maxEntries with
    | none => trivial
    | some max => exact habort _ _
  have hinsert : ∀ (version : Version) (entries : List (Uuid × String × String))
      (x : String × F64), (Realtime.insertScore version entries x).Uses Cmd.OfSnapshot := by
    intro version entries x
    unfold Realtime.insertScore
    split
    · trivial
    · exact Prog.uses_bind (uses_sql trivial) fun _ => trivial
  unfold Realtime.snapshot isolate
  rw [if_neg (by simp [hclear]), pure_bind]
  refine Prog.uses_bind (uses_transaction trivial trivial trivial ?_) fun _ =>
    Prog.uses_bind trivial fun _ => trivial
  exact Prog.uses_bind (uses_sql trivial) fun _ => Prog.uses_bind (hversions _) fun _ =>
    Prog.uses_bind (uses_redis rfl) fun _ => Prog.uses_bind (habort _ _) fun _ =>
    Prog.uses_bind (hentries _) fun _ => Prog.uses_bind (uses_sql rfl) fun _ =>
    Prog.uses_bind (uses_sql trivial) fun _ => Prog.uses_bind (uses_sql rfl) fun _ =>
    Prog.uses_bind (Prog.uses_each fun _ => hinsert _ _ _) fun _ =>
    Prog.uses_bind (uses_sql trivial) fun _ => Prog.uses_bind (uses_sql rfl) fun _ => trivial

end Leaderboards
