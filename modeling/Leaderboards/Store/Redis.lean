import Leaderboards.Data.Models
import Leaderboards.Library.RowNumber
import Mathlib.Data.Prod.Lex
import Mathlib.Data.String.Basic

/-!
# Redis

The keys of a realtime board are a sorted set of scores and a hash of entry names. A Redis
database maps keys to values; a key with an empty collection does not exist. A `MULTI`/`EXEC`
block runs all of its commands at once: a command that fails has no effect of its own, the
others take effect, and the block as a whole answers with an error.
-/

namespace Leaderboards

open Ranking

/-- The value of a key. -/
inductive RedisValue
  | zset (members : List (String × F64))
  | hash (fields : List (String × String))
deriving DecidableEq

/-- The contents of the Redis server. -/
abbrev Redis := String → Option RedisValue

/-- An error reply of the server, or a failure to reach it. -/
inductive RedisError
  | noSuchKey
  | wrongType
  | connection
deriving DecidableEq

/-- How an error is displayed. -/
def RedisError.display : RedisError → String
  | .noSuchKey => "An error was signalled by the server - ResponseError: no such key"
  | .wrongType => "WRONGTYPE: Operation against a key holding the wrong kind of value"
  | .connection => "connection error"

namespace Redis

/-- Store a value, or nothing, under a key. -/
def put (r : Redis) (key : String) (v : Option RedisValue) : Redis :=
  fun k => if k = key then v else r k

@[simp] theorem put_self (r : Redis) (key : String) (v : Option RedisValue) :
    r.put key v key = v := if_pos rfl

theorem put_of_ne (r : Redis) {key k : String} (v : Option RedisValue) (h : k ≠ key) :
    r.put key v k = r k := if_neg h

end Redis

/-- Set the value of a name in an association list, at its place or at the end. -/
def assocSet {β : Type} (l : List (String × β)) (name : String) (x : β) : List (String × β) :=
  if l.any (fun f => f.1 = name) then l.map fun f => if f.1 = name then (name, x) else f
  else l ++ [(name, x)]

/-- The writing commands that the service queues in a pipeline. -/
inductive RedisWrite
  | zadd (key member : String) (score : F64)
  | hset (key field value : String)
  | rename (key newKey : String)
  | del (key : String)
deriving DecidableEq

/-- The reply to a writing command and the contents after it. -/
def RedisWrite.apply : RedisWrite → Redis → Except RedisError Redis
  | .zadd key member score, r =>
    match r key with
    | none => .ok (r.put key (some (.zset [(member, score)])))
    | some (.zset members) => .ok (r.put key (some (.zset (assocSet members member score))))
    | some (.hash _) => .error .wrongType
  | .hset key field value, r =>
    match r key with
    | none => .ok (r.put key (some (.hash [(field, value)])))
    | some (.hash fields) => .ok (r.put key (some (.hash (assocSet fields field value))))
    | some (.zset _) => .error .wrongType
  | .rename key newKey, r =>
    match r key with
    | none => .error .noSuchKey
    | some v => .ok ((r.put key none).put newKey (some v))
  | .del key, r => .ok (r.put key none)

/-- A `MULTI`/`EXEC` block: the first error of its commands, if any, and the contents after
all of them. -/
def runPipe : List RedisWrite → Redis → Except RedisError Unit × Redis
  | [], r => (.ok (), r)
  | w :: ws, r =>
    match w.apply r with
    | .ok r' => runPipe ws r'
    | .error e => (.error e, (runPipe ws r).2)

/-- The commands the service sends. -/
inductive RedisCmd
  | existsKey (key : String)
  /-- `ZRANGE key 0 -1 WITHSCORES`. -/
  | zrange (key : String)
  /-- `ZREVRANGE key 0 -1 WITHSCORES`. -/
  | zrevrange (key : String)
  /-- `HGET` for a single field, `HMGET` for several. -/
  | hget (key : String) (fields : List String)
  | rename (key newKey : String)
  /-- An atomic pipeline of writing commands. -/
  | pipe (commands : List RedisWrite)
deriving DecidableEq

/-- What a command answers when it succeeds. -/
abbrev RedisCmd.Reply : RedisCmd → Type
  | existsKey _ => Bool
  | zrange _ => List (String × F64)
  | zrevrange _ => List (String × F64)
  | hget .. => List (Option String)
  | rename .. => Unit
  | pipe _ => Unit

/-- The order of a sorted set: by score, then by member. -/
def memberKey (m : String × F64) : ℤ ×ₗ String := toLex (m.2.sqlKey, m.1)

/-- The members of a sorted set in ascending order. -/
def readZset (r : Redis) (key : String) : Except RedisError (List (String × F64)) :=
  match r key with
  | none => .ok []
  | some (.zset members) => .ok (orderBy memberKey members)
  | some (.hash _) => .error .wrongType

/-- The values of fields of a hash, as the client reads them into a list. -/
def readHash (r : Redis) (key : String) (fields : List String) :
    Except RedisError (List (Option String)) :=
  match r key with
  | none => .ok (hashReply (fields.map fun _ => none))
  | some (.hash content) =>
    .ok (hashReply (fields.map fun field => (content.find? fun f => f.1 = field).map Prod.snd))
  | some (.zset _) => .error .wrongType
where
  /-- A single field is sent as `HGET`, and the client reads a missing value as an empty list. -/
  hashReply : List (Option String) → List (Option String)
    | [none] => []
    | values => values

/-- The reply to a command and the contents after it. -/
def execRedis : (c : RedisCmd) → Redis → Except RedisError c.Reply × Redis
  | .existsKey key, r => (.ok (r key).isSome, r)
  | .zrange key, r => (readZset r key, r)
  | .zrevrange key, r => ((readZset r key).map List.reverse, r)
  | .hget key fields, r => (readHash r key fields, r)
  | .rename key newKey, r => runPipe [.rename key newKey] r
  | .pipe commands, r => runPipe commands r

/-! ### Finite scores -/

/-- Every stored score is finite. -/
def Redis.Finite (r : Redis) : Prop :=
  ∀ key members, r key = some (.zset members) → ∀ m ∈ members, m.2.isFinite = true

/-- A writing command that stores no score, or a finite one. -/
def RedisWrite.Finite : RedisWrite → Prop
  | .zadd _ _ score => score.isFinite = true
  | _ => True

/-- A command whose writes are finite. -/
def RedisCmd.Finite : RedisCmd → Prop
  | .pipe commands => ∀ w ∈ commands, w.Finite
  | _ => True

theorem mem_assocSet {β : Type} {l : List (String × β)} {name : String} {x : β} {f : String × β}
    (h : f ∈ assocSet l name x) : f = (name, x) ∨ f ∈ l := by
  unfold assocSet at h
  split at h
  · obtain ⟨g, hg, rfl⟩ := List.mem_map.mp h
    by_cases hname : g.1 = name
    · exact .inl (if_pos hname)
    · rw [if_neg hname]
      exact .inr hg
  · rcases List.mem_append.mp h with h | h
    · exact .inr h
    · exact .inl (List.mem_singleton.mp h)

private theorem finite_put {r : Redis} (hr : r.Finite) {key : String} {v : Option RedisValue}
    (hv : ∀ members, v = some (.zset members) → ∀ m ∈ members, m.2.isFinite = true) :
    (r.put key v).Finite := by
  intro k members hk
  by_cases heq : k = key
  · subst heq
    exact hv members (by simpa using hk)
  · rw [Redis.put_of_ne _ _ heq] at hk
    exact hr k members hk

theorem RedisWrite.apply_finite {w : RedisWrite} (hw : w.Finite) {r r' : Redis} (hr : r.Finite)
    (h : w.apply r = .ok r') : r'.Finite := by
  -- Each command stores no score but its own and those that were there.
  cases w with
  | zadd key member score =>
    simp only [RedisWrite.apply] at h
    split at h
    · cases h
      refine finite_put hr fun members hm => ?_
      cases hm
      intro m hm
      obtain rfl := List.mem_singleton.mp hm
      exact hw
    · rename_i members hkey
      cases h
      refine finite_put hr fun members' hm => ?_
      cases hm
      intro m hm
      rcases mem_assocSet hm with rfl | hm
      · exact hw
      · exact hr key members hkey m hm
    · cases h
  | hset key field value =>
    simp only [RedisWrite.apply] at h
    split at h
    · cases h
      exact finite_put hr fun members hm => by cases hm
    · cases h
      exact finite_put hr fun members hm => by cases hm
    · cases h
  | rename key newKey =>
    simp only [RedisWrite.apply] at h
    split at h
    · cases h
    · rename_i v hv
      cases h
      refine finite_put (finite_put hr fun members hm => by cases hm) fun members hm => ?_
      cases hm
      exact hr key members hv
  | del key =>
    cases h
    exact finite_put hr fun members hm => by cases hm

theorem runPipe_finite {ws : List RedisWrite} (hws : ∀ w ∈ ws, w.Finite) {r : Redis}
    (hr : r.Finite) : (runPipe ws r).2.Finite := by
  induction ws generalizing r with
  | nil => exact hr
  | cons w ws ih =>
    have hws' : ∀ w' ∈ ws, w'.Finite := fun w' hw' => hws w' (List.mem_cons_of_mem _ hw')
    simp only [runPipe]
    split
    · exact ih hws' (RedisWrite.apply_finite (hws w List.mem_cons_self) hr ‹_›)
    · exact ih hws' hr

/-- A command with finite writes keeps every stored score finite. -/
theorem execRedis_finite {c : RedisCmd} (hc : c.Finite) {r : Redis} (hr : r.Finite) :
    (execRedis c r).2.Finite := by
  cases c with
  | pipe commands => exact runPipe_finite hc hr
  | rename key newKey => exact runPipe_finite (by simp [RedisWrite.Finite]) hr
  | _ => exact hr

/-- What a sorted set returns is finite. -/
theorem zrevrange_finite {r : Redis} (hr : r.Finite) {key : String} {members : List (String × F64)}
    (h : (execRedis (.zrevrange key) r).1 = .ok members) : ∀ m ∈ members, m.2.isFinite = true := by
  simp only [execRedis, readZset] at h
  split at h
  · cases h
    simp
  · rename_i stored hkey
    cases h
    intro m hm
    refine hr key stored hkey m ?_
    simpa [mem_orderBy] using hm
  · cases h

/-! ### The members of sorted sets -/

/-- The members of a value that may be a sorted set. -/
def zsetMembers : Option RedisValue → List (String × F64)
  | some (.zset members) => members
  | _ => []

/-- The members of the sorted set under a key. -/
def Redis.members (r : Redis) (key : String) : List (String × F64) := zsetMembers (r key)

/-- The name is a member of the sorted set under the key. -/
def Redis.Has (r : Redis) (key name : String) : Prop := ∃ x, (name, x) ∈ r.members key

/-- A key that holds a sorted set, if anything; a sorted set in use is not empty. -/
def Redis.IsScores (r : Redis) (key : String) : Prop :=
  ∀ v, r key = some v → ∃ members, v = .zset members ∧ members ≠ []

/-- A key for scores without members is not there. -/
theorem Redis.IsScores.eq_none {r : Redis} {key : String} (h : r.IsScores key)
    (hempty : ∀ name, ¬r.Has key name) : r key = none := by
  by_contra hne
  obtain ⟨v, hv⟩ := Option.ne_none_iff_exists'.mp hne
  obtain ⟨members, rfl, hmembers⟩ := h v hv
  obtain ⟨x, hx⟩ := List.exists_mem_of_ne_nil _ hmembers
  refine hempty x.1 ⟨x.2, ?_⟩
  rwa [Redis.members, hv]

/-- The writing commands of a command. -/
def RedisCmd.writes : RedisCmd → List RedisWrite
  | .rename key newKey => [.rename key newKey]
  | .pipe commands => commands
  | _ => []

/-- A command other than `ZADD` that stores a value under the key. -/
def RedisWrite.StoresAt (key : String) : RedisWrite → Prop
  | .hset k _ _ => k = key
  | .rename _ newKey => newKey = key
  | _ => False

theorem execRedis_snd (c : RedisCmd) (r : Redis) : (execRedis c r).2 = (runPipe c.writes r).2 := by
  cases c <;> rfl

/-- What holds before a block and is kept by each command that succeeds holds after it. -/
theorem runPipe_invariant {I : Redis → Prop} {ws : List RedisWrite}
    (hI : ∀ w ∈ ws, ∀ r r', I r → w.apply r = .ok r' → I r') {r : Redis} (hr : I r) :
    I (runPipe ws r).2 := by
  induction ws generalizing r with
  | nil => exact hr
  | cons w ws ih =>
    have htail : ∀ w' ∈ ws, ∀ r r', I r → w'.apply r = .ok r' → I r' :=
      fun w' hw' => hI w' (List.mem_cons_of_mem _ hw')
    simp only [runPipe]
    split
    · exact ih htail (hI w List.mem_cons_self _ _ hr ‹_›)
    · exact ih htail hr

theorem Redis.members_put (r : Redis) {key k : String} (v : Option RedisValue) :
    (r.put key v).members k = if k = key then zsetMembers v else r.members k := by
  rw [Redis.members, Redis.put, apply_ite zsetMembers]
  rfl

theorem Redis.has_put_of_ne {r : Redis} {key k name : String} {v : Option RedisValue}
    (h : k ≠ key) : (r.put key v).Has k name ↔ r.Has k name := by
  rw [Redis.Has, Redis.Has, Redis.members_put, if_neg h]

/-- What a sorted set returns are its members, in order. -/
theorem readZset_ok {r : Redis} {key : String} {members : List (String × F64)}
    (h : readZset r key = .ok members) : members = orderBy memberKey (r.members key) := by
  unfold readZset at h
  split at h
  · rename_i hkey
    cases h
    rw [Redis.members, hkey]
    rfl
  · rename_i stored hkey
    cases h
    rw [Redis.members, hkey]
    rfl
  · cases h

theorem zrevrange_ok {r : Redis} {key : String} {members : List (String × F64)}
    (h : (execRedis (.zrevrange key) r).1 = .ok members) :
    members = (orderBy memberKey (r.members key)).reverse := by
  simp only [execRedis] at h
  rcases hread : readZset r key with e | l
  · rw [hread] at h
    cases h
  · rw [hread] at h
    cases h
    rw [readZset_ok hread]

/-- A member of a set was there before, was added, or came with another key. -/
theorem RedisWrite.has_of_apply {w : RedisWrite} {r r' : Redis} (h : w.apply r = .ok r')
    {key name : String} (hhas : r'.Has key name) :
    r.Has key name ∨ (∃ x, w = .zadd key name x) ∨ w.StoresAt key := by
  -- `HSET` and `RENAME` to the key store something at it; elsewhere nothing is added.
  cases w with
  | zadd k member score =>
    by_cases hk : key = k
    · subst hk
      obtain ⟨x, hx⟩ := hhas
      simp only [RedisWrite.apply] at h
      split at h
      · cases h
        rw [Redis.members_put, if_pos rfl] at hx
        obtain ⟨rfl, rfl⟩ := Prod.mk.inj (List.mem_singleton.mp hx)
        exact .inr (.inl ⟨x, rfl⟩)
      · rename_i members hkey
        cases h
        rw [Redis.members_put, if_pos rfl] at hx
        rcases mem_assocSet hx with heq | hx
        · obtain ⟨rfl, rfl⟩ := Prod.mk.inj heq
          exact .inr (.inl ⟨x, rfl⟩)
        · exact .inl ⟨x, by rwa [Redis.members, hkey, zsetMembers]⟩
      · cases h
    · left
      simp only [RedisWrite.apply] at h
      split at h
      · cases h
        exact (Redis.has_put_of_ne hk).mp hhas
      · cases h
        exact (Redis.has_put_of_ne hk).mp hhas
      · cases h
  | hset k field value =>
    by_cases hk : key = k
    · exact .inr (.inr hk.symm)
    · left
      simp only [RedisWrite.apply] at h
      split at h
      · cases h
        exact (Redis.has_put_of_ne hk).mp hhas
      · cases h
        exact (Redis.has_put_of_ne hk).mp hhas
      · cases h
  | rename k newKey =>
    by_cases hk : key = newKey
    · exact .inr (.inr hk.symm)
    · left
      simp only [RedisWrite.apply] at h
      split at h
      · cases h
      · cases h
        have hhas' := (Redis.has_put_of_ne hk).mp hhas
        by_cases hk' : key = k
        · obtain ⟨x, hx⟩ := hhas'
          rw [Redis.members_put, if_pos hk'] at hx
          cases hx
        · exact (Redis.has_put_of_ne hk').mp hhas'
  | del k =>
    left
    cases h
    by_cases hk : key = k
    · obtain ⟨x, hx⟩ := hhas
      rw [Redis.members_put, if_pos hk] at hx
      cases hx
    · exact (Redis.has_put_of_ne hk).mp hhas

/-- A set that is renamed keeps its members. -/
theorem RedisWrite.members_rename {key newKey : String} {r r' : Redis}
    (h : (RedisWrite.rename key newKey).apply r = .ok r') : r'.members newKey = r.members key := by
  simp only [RedisWrite.apply] at h
  split at h
  · cases h
  · rename_i v hv
    cases h
    rw [Redis.members_put, if_pos rfl, Redis.members, hv]

theorem RedisWrite.members_rename_of_ne {key newKey k : String} {r r' : Redis}
    (h : (RedisWrite.rename key newKey).apply r = .ok r') (hk : k ≠ key) (hk' : k ≠ newKey) :
    r'.members k = r.members k := by
  simp only [RedisWrite.apply] at h
  split at h
  · cases h
  · cases h
    rw [Redis.members_put, if_neg hk', Redis.members_put, if_neg hk]

/-- A key of scores stays one, unless another kind of value is stored under it. -/
theorem RedisWrite.isScores_apply {w : RedisWrite} {r r' : Redis} (h : w.apply r = .ok r')
    {key : String} (hr : r.IsScores key) (hw : ¬w.StoresAt key) : r'.IsScores key := by
  -- A key is written with scores, or another key is written.
  have hput : ∀ (r₁ : Redis) (k : String) (v : Option RedisValue), r₁.IsScores key →
      (key = k → ∀ x, v = some x → ∃ members, x = .zset members ∧ members ≠ []) →
      (r₁.put k v).IsScores key := by
    intro r₁ k v hr₁ hv x hx
    by_cases hk : key = k
    · subst hk
      exact hv rfl x (by rwa [Redis.put_self] at hx)
    · rw [Redis.put_of_ne _ _ hk] at hx
      exact hr₁ x hx
  cases w with
  | zadd k member score =>
    simp only [RedisWrite.apply] at h
    split at h
    · cases h
      refine hput _ _ _ hr fun _ x hx => ⟨_, (Option.some.inj hx).symm, by simp⟩
    · cases h
      refine hput _ _ _ hr fun _ x hx => ⟨_, (Option.some.inj hx).symm, ?_⟩
      unfold assocSet
      split
      · rename_i hany
        obtain ⟨f, hf, -⟩ := List.any_eq_true.mp hany
        simpa using List.ne_nil_of_mem hf
      · simp
    · cases h
  | hset k field value =>
    have hk : key ≠ k := fun heq => hw heq.symm
    simp only [RedisWrite.apply] at h
    split at h
    · cases h
      exact hput _ _ _ hr fun heq => absurd heq hk
    · cases h
      exact hput _ _ _ hr fun heq => absurd heq hk
    · cases h
  | rename k newKey =>
    have hk : key ≠ newKey := fun heq => hw heq.symm
    simp only [RedisWrite.apply] at h
    split at h
    · cases h
    · cases h
      exact hput _ _ _ (hput _ _ _ hr fun _ x hx => by cases hx) fun heq => absurd heq hk
  | del k =>
    cases h
    exact hput _ _ _ hr fun _ x hx => by cases hx

/-- A member of a set was there before the command, or the command adds it. -/
theorem has_of_execRedis {c : RedisCmd} {r : Redis} {key name : String}
    (hc : ∀ w ∈ c.writes, ¬w.StoresAt key) (h : (execRedis c r).2.Has key name) :
    r.Has key name ∨ ∃ x, .zadd key name x ∈ c.writes := by
  by_contra hnot
  rw [not_or] at hnot
  obtain ⟨hold, hadd⟩ := hnot
  rw [execRedis_snd] at h
  have hnone : ¬(runPipe c.writes r).2.Has key name := by
    refine runPipe_invariant (I := fun r => ¬r.Has key name) (fun w hw r₁ r₂ hr₁ happly h₂ => ?_)
      hold
    rcases w.has_of_apply happly h₂ with h₁ | ⟨x, rfl⟩ | hstore
    · exact hr₁ h₁
    · exact hadd ⟨x, hw⟩
    · exact hc w hw hstore
  exact hnone h

theorem isScores_execRedis {c : RedisCmd} {r : Redis} {key : String}
    (hc : ∀ w ∈ c.writes, ¬w.StoresAt key) (h : r.IsScores key) :
    (execRedis c r).2.IsScores key := by
  rw [execRedis_snd]
  exact runPipe_invariant (I := fun r => r.IsScores key)
    (fun w hw _ _ hr₁ happly => w.isScores_apply happly hr₁ (hc w hw)) h

/-! ### Distinct members -/

/-- Every sorted set has each of its members once. -/
def Redis.Distinct (r : Redis) : Prop := ∀ key, ((r.members key).map Prod.fst).Nodup

theorem assocSet_nodup {β : Type} {l : List (String × β)} (h : (l.map Prod.fst).Nodup)
    (name : String) (x : β) : ((assocSet l name x).map Prod.fst).Nodup := by
  unfold assocSet
  split
  · have hsame : (l.map fun f => if f.1 = name then (name, x) else f).map Prod.fst =
        l.map Prod.fst := by
      rw [List.map_map]
      refine List.map_congr_left fun f _ => ?_
      by_cases hname : f.1 = name
      · simp [hname]
      · simp [hname]
    rwa [hsame]
  · rename_i hnew
    rw [List.map_append, List.map_singleton, List.nodup_append]
    refine ⟨h, by simp, fun a ha b hb hab => hnew ?_⟩
    obtain ⟨f, hf, rfl⟩ := List.mem_map.mp ha
    obtain rfl := List.mem_singleton.mp hb
    exact List.any_eq_true.mpr ⟨f, hf, by simpa using hab⟩

private theorem distinct_put {r : Redis} (hr : r.Distinct) {key : String} {v : Option RedisValue}
    (hv : ((zsetMembers v).map Prod.fst).Nodup) : (r.put key v).Distinct := by
  intro k
  rw [Redis.members_put]
  split
  · exact hv
  · exact hr k

theorem RedisWrite.distinct_apply {w : RedisWrite} {r r' : Redis} (h : w.apply r = .ok r')
    (hr : r.Distinct) : r'.Distinct := by
  -- `ZADD` replaces the score of a member that is there, and `RENAME` moves a whole set.
  cases w with
  | zadd key member score =>
    simp only [RedisWrite.apply] at h
    split at h
    · cases h
      exact distinct_put hr (by simp [zsetMembers])
    · rename_i members hkey
      cases h
      have hold := hr key
      rw [Redis.members, hkey] at hold
      exact distinct_put hr (assocSet_nodup hold member score)
    · cases h
  | hset key field value =>
    simp only [RedisWrite.apply] at h
    split at h
    · cases h
      exact distinct_put hr (by simp [zsetMembers])
    · cases h
      exact distinct_put hr (by simp [zsetMembers])
    · cases h
  | rename key newKey =>
    simp only [RedisWrite.apply] at h
    split at h
    · cases h
    · rename_i v hv
      cases h
      have hold := hr key
      rw [Redis.members, hv] at hold
      exact distinct_put (distinct_put hr (by simp [zsetMembers])) hold
  | del key =>
    cases h
    exact distinct_put hr (by simp [zsetMembers])

/-- **Every command keeps the members of sorted sets distinct.** -/
theorem distinct_execRedis {c : RedisCmd} {r : Redis} (h : r.Distinct) :
    (execRedis c r).2.Distinct := by
  rw [execRedis_snd]
  exact runPipe_invariant (I := Redis.Distinct) (fun w _ _ _ hr happly =>
    w.distinct_apply happly hr) h

/-- What two renamings that succeed leave under the first new key. -/
theorem members_renames {key newKey key' newKey' : String} {r : Redis} (hkey : newKey ≠ key')
    (hnewKey : newKey ≠ newKey')
    (h : (execRedis (.pipe [.rename key newKey, .rename key' newKey']) r).1 = .ok ()) :
    (execRedis (.pipe [.rename key newKey, .rename key' newKey']) r).2.members newKey =
      r.members key := by
  simp only [execRedis, runPipe] at h ⊢
  rcases h₁ : (RedisWrite.rename key newKey).apply r with e | r₁
  · simp [h₁] at h
  · rcases h₂ : (RedisWrite.rename key' newKey').apply r₁ with e | r₂
    · simp [h₁, h₂] at h
    · simp only [h₂]
      rw [RedisWrite.members_rename_of_ne h₂ hkey hnewKey, RedisWrite.members_rename h₁]

theorem members_rename {key newKey : String} {r : Redis}
    (h : (execRedis (.rename key newKey) r).1 = .ok ()) :
    (execRedis (.rename key newKey) r).2.members newKey = r.members key := by
  simp only [execRedis, runPipe] at h ⊢
  rcases h₁ : (RedisWrite.rename key newKey).apply r with e | r₁
  · simp [h₁] at h
  · exact RedisWrite.members_rename h₁

/-! ### The keys of a command -/

/-- The keys that a writing command names. -/
def RedisWrite.keys : RedisWrite → List String
  | .zadd key _ _ => [key]
  | .hset key _ _ => [key]
  | .rename key newKey => [key, newKey]
  | .del key => [key]

/-- The keys that a command names. -/
def RedisCmd.keys : RedisCmd → List String
  | .existsKey key => [key]
  | .zrange key => [key]
  | .zrevrange key => [key]
  | .hget key _ => [key]
  | .rename key newKey => [key, newKey]
  | .pipe commands => commands.flatMap RedisWrite.keys

/-- Two databases with the same contents under some keys. -/
def Redis.Agree (own : String → Prop) (r r' : Redis) : Prop := ∀ key, own key → r key = r' key

/-- A command that leaves all other keys as they are, and that does on its own keys the same
whatever is under the others. -/
def RedisCmd.Confined (own : String → Prop) (c : RedisCmd) : Prop :=
  (∀ r key, ¬own key → (execRedis c r).2 key = r key) ∧
    ∀ r r', r.Agree own r' → (execRedis c r).1 = (execRedis c r').1 ∧
      Redis.Agree own (execRedis c r).2 (execRedis c r').2

variable {own : String → Prop}

theorem Redis.Agree.put {r r' : Redis} (h : r.Agree own r') (key : String)
    (v : Option RedisValue) : Redis.Agree own (r.put key v) (r'.put key v) := by
  intro k hk
  by_cases heq : k = key
  · rw [heq, Redis.put_self, Redis.put_self]
  · rw [Redis.put_of_ne _ _ heq, Redis.put_of_ne _ _ heq, h k hk]

/-- A writing command changes nothing but its keys. -/
theorem RedisWrite.apply_of_not_mem {w : RedisWrite} {r r' : Redis} (h : w.apply r = .ok r')
    {k : String} (hk : k ∉ w.keys) : r' k = r k := by
  cases w with
  | zadd key member score =>
    have hne : k ≠ key := fun heq => hk (heq ▸ List.mem_singleton_self _)
    simp only [RedisWrite.apply] at h
    split at h <;> cases h <;> exact Redis.put_of_ne _ _ hne
  | hset key field value =>
    have hne : k ≠ key := fun heq => hk (heq ▸ List.mem_singleton_self _)
    simp only [RedisWrite.apply] at h
    split at h <;> cases h <;> exact Redis.put_of_ne _ _ hne
  | rename key newKey =>
    have hne : k ≠ key ∧ k ≠ newKey := by simpa [RedisWrite.keys] using hk
    simp only [RedisWrite.apply] at h
    split at h
    · cases h
    · cases h
      rw [Redis.put_of_ne _ _ hne.2, Redis.put_of_ne _ _ hne.1]
  | del key =>
    have hne : k ≠ key := fun heq => hk (heq ▸ List.mem_singleton_self _)
    cases h
    exact Redis.put_of_ne _ _ hne

/-- The outcomes of a command on two databases: the same error, or contents that agree. -/
def SameOutcome (own : String → Prop) : Except RedisError Redis → Except RedisError Redis → Prop
  | .ok r, .ok r' => r.Agree own r'
  | .error e, .error e' => e = e'
  | _, _ => False

theorem RedisWrite.apply_agree {w : RedisWrite} (hw : ∀ key ∈ w.keys, own key) {r r' : Redis}
    (h : r.Agree own r') : SameOutcome own (w.apply r) (w.apply r') := by
  cases w with
  | zadd key member score =>
    have hkey : r key = r' key := h key (hw key List.mem_cons_self)
    simp only [RedisWrite.apply, ← hkey]
    split
    · exact h.put _ _
    · exact h.put _ _
    · rfl
  | hset key field value =>
    have hkey : r key = r' key := h key (hw key List.mem_cons_self)
    simp only [RedisWrite.apply, ← hkey]
    split
    · exact h.put _ _
    · exact h.put _ _
    · rfl
  | rename key newKey =>
    have hkey : r key = r' key := h key (hw key List.mem_cons_self)
    simp only [RedisWrite.apply, ← hkey]
    split
    · rfl
    · exact (h.put _ _).put _ _
  | del key => exact h.put _ _

theorem runPipe_agree {ws : List RedisWrite} (hws : ∀ w ∈ ws, ∀ key ∈ w.keys, own key)
    {r r' : Redis} (h : r.Agree own r') : (runPipe ws r).1 = (runPipe ws r').1 ∧
      Redis.Agree own (runPipe ws r).2 (runPipe ws r').2 := by
  induction ws generalizing r r' with
  | nil => exact ⟨rfl, h⟩
  | cons w ws ih =>
    have hrest : ∀ w' ∈ ws, ∀ key ∈ w'.keys, own key :=
      fun w' hw' => hws w' (List.mem_cons_of_mem _ hw')
    have hsame := RedisWrite.apply_agree (hws w List.mem_cons_self) h
    simp only [runPipe]
    rcases hr : w.apply r with e | r₁ <;> rcases hr' : w.apply r' with e' | r₁' <;>
      rw [hr, hr'] at hsame
    · exact ⟨congrArg Except.error hsame, (ih hrest h).2⟩
    · exact hsame.elim
    · exact hsame.elim
    · exact ih hrest hsame

/-- **A command only touches the keys that it names.** -/
theorem RedisCmd.confined {c : RedisCmd} (hc : ∀ key ∈ c.keys, own key) : c.Confined own := by
  have hwrites : ∀ w ∈ c.writes, ∀ key ∈ w.keys, own key := by
    intro w hw key hkey
    refine hc key ?_
    cases c with
    | rename key newKey =>
      obtain rfl := List.mem_singleton.mp hw
      exact hkey
    | pipe commands => exact List.mem_flatMap.mpr ⟨w, hw, hkey⟩
    | _ => cases hw
  constructor
  · intro r key hkey
    rw [execRedis_snd]
    refine runPipe_invariant (I := fun r' => r' key = r key) (fun w hw r₁ r₂ hr₁ happly => ?_) rfl
    rw [RedisWrite.apply_of_not_mem happly fun hmem => hkey (hwrites w hw key hmem), hr₁]
  -- What a command answers depends on its own keys only.
  · intro r r' h
    cases c with
    | existsKey key =>
      have hkey : r key = r' key := h key (hc key List.mem_cons_self)
      exact ⟨by rw [execRedis, execRedis, hkey], h⟩
    | zrange key =>
      have hkey : r key = r' key := h key (hc key List.mem_cons_self)
      exact ⟨by rw [execRedis, execRedis, readZset, readZset, hkey], h⟩
    | zrevrange key =>
      have hkey : r key = r' key := h key (hc key List.mem_cons_self)
      exact ⟨by rw [execRedis, execRedis, readZset, readZset, hkey], h⟩
    | hget key fields =>
      have hkey : r key = r' key := h key (hc key List.mem_cons_self)
      exact ⟨by rw [execRedis, execRedis, readHash, readHash, hkey], h⟩
    | rename key newKey => exact runPipe_agree hwrites h
    | pipe commands => exact runPipe_agree hwrites h

end Leaderboards
