import Leaderboards.Transactions.LiveScores
import Leaderboards.Transactions.Schedule
import Leaderboards.Transactions.SnapshotCommands

/-!
# Names of live scores

The working scores of a board are a sorted set, and the names of its entries a hash. A submission
writes both in one block, and a clearing deletes both in one block; a snapshot looks whether each
exists and then renames both in one block, or the scores alone. Another request may change either
key between these commands. Nevertheless every command of the four operations on its own keeps
the names complete, whatever it finds under the keys (`RedisCmd.KeepsNames`): a renaming takes the
scores away, and no command takes the names away and leaves the scores.

**`live_scores_have_names`**: however submissions, snapshots and clearings of boards are
interleaved, every member of a working sorted set is a field of the hash of the same board. The
other requests keep the names complete too (`Request.keepsNames`).
-/

namespace Leaderboards

open Interaction Realtime

/-! ### The two values of a board -/

/-- The fields of a value that may be a hash. -/
def hashFields : Option RedisValue → List (String × String)
  | some (.hash fields) => fields
  | _ => []

/-- The name is a field of the hash under the key. -/
def Redis.HasField (r : Redis) (key name : String) : Prop := ∃ x, (name, x) ∈ hashFields (r key)

/-- What the two working keys of a board hold: a sorted set and a hash, if anything, and every
member of the set is a field of the hash. -/
structure FullyNamed (scores entries : Option RedisValue) : Prop where
  zset : ∀ v, scores = some v → ∃ members, v = .zset members
  hash : ∀ v, entries = some v → ∃ fields, v = .hash fields
  named : ∀ name, (∃ x, (name, x) ∈ zsetMembers scores) → ∃ x, (name, x) ∈ hashFields entries

/-- The names of all live scores are there, whatever the prefix and the slug. -/
def Redis.Named (r : Redis) : Prop :=
  ∀ keyPrefix slug, FullyNamed (r (scoresKey keyPrefix slug)) (r (entriesKey keyPrefix slug))

theorem redis_named_empty : Redis.Named fun _ => none := by
  intro keyPrefix slug
  exact ⟨by simp, by simp, by simp [zsetMembers]⟩

/-- Without scores there is nothing to name. -/
theorem FullyNamed.no_scores {scores entries entries' : Option RedisValue}
    (h : FullyNamed scores entries) (he : entries' = entries ∨ entries' = none) :
    FullyNamed none entries' := by
  refine ⟨by simp, ?_, by simp [zsetMembers]⟩
  rcases he with rfl | rfl
  · exact h.hash
  · simp

/-! ### Commands -/

/-- A command that keeps the names complete. -/
def RedisCmd.KeepsNames (c : RedisCmd) : Prop := ∀ r : Redis, r.Named → (execRedis c r).2.Named

/-- A key that is no working key of any board. -/
def Spare (key : String) : Prop :=
  ∀ keyPrefix slug, key ≠ scoresKey keyPrefix slug ∧ key ≠ entriesKey keyPrefix slug

theorem spare_snapKey (key : String) (snapId : Uuid) : Spare (snapKey key snapId) :=
  fun keyPrefix slug => ⟨snapKey_ne_scoresKey key snapId keyPrefix slug,
    snapKey_ne_entriesKey key snapId keyPrefix slug⟩

/-- Two boards have the same scores key exactly when they have the same entries key. -/
theorem scoresKey_eq_iff {keyPrefix slug keyPrefix' slug' : String} :
    scoresKey keyPrefix slug = scoresKey keyPrefix' slug' ↔
      entriesKey keyPrefix slug = entriesKey keyPrefix' slug' := by
  have hscores : ∀ p s, (scoresKey p s).toList = (p ++ ":board:" ++ s).toList ++ ":scores".toList :=
    fun p s => by simp [scoresKey, toString]
  have hentries : ∀ p s,
      (entriesKey p s).toList = (p ++ ":board:" ++ s).toList ++ ":entries".toList :=
    fun p s => by simp [entriesKey, toString]
  rw [← String.toList_inj, ← String.toList_inj, hscores, hscores, hentries, hentries,
    List.append_left_inj, List.append_left_inj]

theorem keepsNames_of_reads {c : RedisCmd} (hc : c.writes = []) : c.KeepsNames := by
  intro r hr
  rw [execRedis_snd, hc]
  exact hr

/-- A command on spare keys. -/
theorem keepsNames_of_spare {c : RedisCmd} (hkeys : ∀ key ∈ c.keys, Spare key) : c.KeepsNames := by
  intro r hr keyPrefix slug
  have hsame : ∀ key, ¬Spare key → (execRedis c r).2 key = r key := (RedisCmd.confined hkeys).1 r
  rw [hsame _ fun h => (h keyPrefix slug).1 rfl, hsame _ fun h => (h keyPrefix slug).2 rfl]
  exact hr keyPrefix slug

/-- A command on the working keys of one board, and on spare keys besides: only that board has to
be looked at. -/
theorem keepsNames_of_board {c : RedisCmd} (keyPrefix slug : String)
    (hkeys : ∀ key ∈ c.keys,
      key = scoresKey keyPrefix slug ∨ key = entriesKey keyPrefix slug ∨ Spare key)
    (hc : ∀ r : Redis, FullyNamed (r (scoresKey keyPrefix slug)) (r (entriesKey keyPrefix slug)) →
      FullyNamed ((execRedis c r).2 (scoresKey keyPrefix slug))
        ((execRedis c r).2 (entriesKey keyPrefix slug))) : c.KeepsNames := by
  intro r hr keyPrefix' slug'
  by_cases hboard : scoresKey keyPrefix' slug' = scoresKey keyPrefix slug
  · rw [hboard, scoresKey_eq_iff.mp hboard]
    exact hc r (hr keyPrefix slug)
  · -- another board
    have hboard' : entriesKey keyPrefix' slug' ≠ entriesKey keyPrefix slug :=
      mt scoresKey_eq_iff.mpr hboard
    have hconfined : c.Confined (· ∈ c.keys) := RedisCmd.confined fun _ h => h
    have hsame : ∀ key, key ∉ c.keys → (execRedis c r).2 key = r key := hconfined.1 r
    rw [hsame, hsame]
    · exact hr keyPrefix' slug'
    · intro hmem
      rcases hkeys _ hmem with h | h | h
      · exact entriesKey_ne_scoresKey _ _ _ _ h
      · exact hboard' h
      · exact (h keyPrefix' slug').2 rfl
    · intro hmem
      rcases hkeys _ hmem with h | h | h
      · exact hboard h
      · exact entriesKey_ne_scoresKey _ _ _ _ h.symm
      · exact (h keyPrefix' slug').1 rfl

/-! ### Writing a name with its score -/

theorem mem_assocSet_self {β : Type} (l : List (String × β)) (name : String) (x : β) :
    (name, x) ∈ assocSet l name x := by
  unfold assocSet
  split
  · rename_i hany
    obtain ⟨f, hf, hname⟩ := List.any_eq_true.mp hany
    exact List.mem_map.mpr ⟨f, hf, if_pos (of_decide_eq_true hname)⟩
  · exact List.mem_append_right l (List.mem_singleton_self _)

/-- The names that were set stay set. -/
theorem exists_mem_assocSet {β : Type} {l : List (String × β)} {field : String}
    (h : ∃ x, (field, x) ∈ l) (name : String) (x : β) : ∃ y, (field, y) ∈ assocSet l name x := by
  obtain ⟨z, hz⟩ := h
  by_cases hname : field = name
  · subst hname
    exact ⟨x, mem_assocSet_self l field x⟩
  · refine ⟨z, ?_⟩
    unfold assocSet
    split
    · exact List.mem_map.mpr ⟨(field, z), hz, if_neg hname⟩
    · exact List.mem_append_left _ hz

/-- `ZADD` on a sorted set, or on nothing. -/
theorem zadd_ok {r : Redis} {key : String} (h : ∀ v, r key = some v → ∃ members, v = .zset members)
    (name : String) (score : F64) : ∃ members,
      (RedisWrite.zadd key name score).apply r = .ok (r.put key (some (.zset members))) ∧
      ∀ f ∈ members, f = (name, score) ∨ f ∈ zsetMembers (r key) := by
  rcases hkey : r key with _ | v
  · exact ⟨[(name, score)], by simp [RedisWrite.apply, hkey], by simp⟩
  · obtain ⟨members, rfl⟩ := h v hkey
    exact ⟨assocSet members name score, by simp [RedisWrite.apply, hkey],
      fun f hf => mem_assocSet hf⟩

/-- `HSET` on a hash, or on nothing. -/
theorem hset_ok {r : Redis} {key : String} (h : ∀ v, r key = some v → ∃ fields, v = .hash fields)
    (name value : String) : ∃ fields,
      (RedisWrite.hset key name value).apply r = .ok (r.put key (some (.hash fields))) ∧
      (name, value) ∈ fields ∧
      ∀ field, (∃ x, (field, x) ∈ hashFields (r key)) → ∃ x, (field, x) ∈ fields := by
  rcases hkey : r key with _ | v
  · exact ⟨[(name, value)], by simp [RedisWrite.apply, hkey], by simp, by simp [hashFields]⟩
  · obtain ⟨fields, rfl⟩ := h v hkey
    exact ⟨assocSet fields name value, by simp [RedisWrite.apply, hkey],
      mem_assocSet_self fields name value, fun field hfield => exists_mem_assocSet hfield _ _⟩

/-! ### Taking the scores away -/

/-- The contents after a writing command, whether it succeeds or not. -/
def RedisWrite.after (w : RedisWrite) (r : Redis) : Redis :=
  match w.apply r with
  | .ok r' => r'
  | .error _ => r

theorem runPipe_cons_snd (w : RedisWrite) (ws : List RedisWrite) (r : Redis) :
    (runPipe (w :: ws) r).2 = (runPipe ws (w.after r)).2 := by
  rw [runPipe, RedisWrite.after]
  cases w.apply r <;> rfl

theorem RedisWrite.after_of_not_mem {w : RedisWrite} {key : String} (hkey : key ∉ w.keys)
    (r : Redis) : w.after r key = r key := by
  rcases happly : w.apply r with e | r'
  · simp only [RedisWrite.after, happly]
  · simp only [RedisWrite.after, happly]
    exact RedisWrite.apply_of_not_mem happly hkey

/-- After a renaming nothing is under the old key; it fails only if nothing was. -/
theorem RedisWrite.after_rename {key newKey : String} (hne : key ≠ newKey) (r : Redis) :
    (RedisWrite.rename key newKey).after r key = none := by
  rw [RedisWrite.after]
  cases hkey : r key with
  | none => simp [RedisWrite.apply, hkey]
  | some v => simp [RedisWrite.apply, hkey, Redis.put_of_ne _ _ hne]

theorem RedisWrite.after_del (key : String) (r : Redis) :
    (RedisWrite.del key).after r key = none := by
  simp [RedisWrite.after, RedisWrite.apply]

section Board

variable (keyPrefix slug : String)

/-- The block of a submission writes the name together with the score. -/
theorem keepsNames_submit (name entryName : String) (score : F64) :
    (RedisCmd.pipe [.zadd (scoresKey keyPrefix slug) name score,
      .hset (entriesKey keyPrefix slug) name entryName]).KeepsNames := by
  have hne : entriesKey keyPrefix slug ≠ scoresKey keyPrefix slug :=
    entriesKey_ne_scoresKey keyPrefix slug keyPrefix slug
  refine keepsNames_of_board keyPrefix slug ?_ fun r h => ?_
  · intro key hkey
    have hcases : key = scoresKey keyPrefix slug ∨ key = entriesKey keyPrefix slug := by
      simpa [RedisCmd.keys, RedisWrite.keys] using hkey
    rcases hcases with rfl | rfl
    · exact .inl rfl
    · exact .inr (.inl rfl)
  obtain ⟨members, hzadd, hmembers⟩ := zadd_ok h.zset name score
  have hentries : (r.put (scoresKey keyPrefix slug) (some (.zset members)))
      (entriesKey keyPrefix slug) = r (entriesKey keyPrefix slug) := Redis.put_of_ne _ _ hne
  obtain ⟨fields, hhset, hself, hfields⟩ := hset_ok (fun v hv => h.hash v (hentries ▸ hv))
    name entryName
  rw [hentries] at hfields
  simp only [execRedis, runPipe, hzadd, hhset]
  rw [Redis.put_of_ne _ _ hne.symm, Redis.put_self, Redis.put_self]
  refine ⟨fun v hv => ⟨members, (Option.some.inj hv).symm⟩,
    fun v hv => ⟨fields, (Option.some.inj hv).symm⟩, ?_⟩
  rintro other ⟨x, hx⟩
  rcases hmembers _ hx with heq | hold
  · -- the submitted name itself
    obtain ⟨rfl, -⟩ := Prod.mk.inj heq
    exact ⟨entryName, hself⟩
  · exact hfields other (h.named other ⟨x, hold⟩)

/-- A command that takes the scores away, and leaves the names or takes them too. -/
theorem keepsNames_of_removal {c : RedisCmd}
    (hkeys : ∀ key ∈ c.keys,
      key = scoresKey keyPrefix slug ∨ key = entriesKey keyPrefix slug ∨ Spare key)
    (hscores : ∀ r : Redis, (execRedis c r).2 (scoresKey keyPrefix slug) = none)
    (hentries : ∀ r : Redis, (execRedis c r).2 (entriesKey keyPrefix slug) =
      r (entriesKey keyPrefix slug) ∨ (execRedis c r).2 (entriesKey keyPrefix slug) = none) :
    c.KeepsNames := by
  refine keepsNames_of_board keyPrefix slug hkeys fun r h => ?_
  rw [hscores]
  exact h.no_scores (hentries r)

/-- A block of two commands on different keys, each of which empties its own. -/
theorem keepsNames_pair {w w' : RedisWrite}
    (hkeys : ∀ key ∈ w.keys, key = scoresKey keyPrefix slug ∨ Spare key)
    (hkeys' : ∀ key ∈ w'.keys, key = entriesKey keyPrefix slug ∨ Spare key)
    (hw : ∀ r, w.after r (scoresKey keyPrefix slug) = none)
    (hw' : ∀ r, w'.after r (entriesKey keyPrefix slug) = none) :
    (RedisCmd.pipe [w, w']).KeepsNames := by
  have hne : entriesKey keyPrefix slug ≠ scoresKey keyPrefix slug :=
    entriesKey_ne_scoresKey keyPrefix slug keyPrefix slug
  have hscores : scoresKey keyPrefix slug ∉ w'.keys := by
    intro hmem
    rcases hkeys' _ hmem with h | h
    · exact hne h.symm
    · exact (h keyPrefix slug).1 rfl
  refine keepsNames_of_removal keyPrefix slug ?_ (fun r => ?_)
    fun r => .inr ?_
  · intro key hkey
    have hmem : key ∈ w.keys ∨ key ∈ w'.keys := by simpa [RedisCmd.keys] using hkey
    rcases hmem with h | h
    · rcases hkeys key h with h | h
      · exact .inl h
      · exact .inr (.inr h)
    · exact .inr (hkeys' key h)
  · rw [execRedis, runPipe_cons_snd, runPipe_cons_snd]
    exact (RedisWrite.after_of_not_mem hscores _).trans (hw r)
  · rw [execRedis, runPipe_cons_snd, runPipe_cons_snd]
    exact hw' (w.after r)

/-- A snapshot that found both keys renames both. Whatever became of them since, neither is left. -/
theorem keepsNames_renames (snapId : Uuid) :
    (RedisCmd.pipe [.rename (scoresKey keyPrefix slug) (snapKey (scoresKey keyPrefix slug) snapId),
      .rename (entriesKey keyPrefix slug)
        (snapKey (entriesKey keyPrefix slug) snapId)]).KeepsNames := by
  have hsnap : ∀ key, Spare (snapKey key snapId) := fun key => spare_snapKey key snapId
  refine keepsNames_pair keyPrefix slug ?_ ?_ ?_ ?_
  · intro key hkey
    rcases List.mem_pair.mp hkey with rfl | rfl
    · exact .inl rfl
    · exact .inr (hsnap _)
  · intro key hkey
    rcases List.mem_pair.mp hkey with rfl | rfl
    · exact .inl rfl
    · exact .inr (hsnap _)
  · exact RedisWrite.after_rename ((hsnap _) keyPrefix slug).1.symm
  · exact RedisWrite.after_rename ((hsnap _) keyPrefix slug).2.symm

/-- A snapshot that found no names renames the scores alone. -/
theorem keepsNames_rename (snapId : Uuid) :
    (RedisCmd.rename (scoresKey keyPrefix slug)
      (snapKey (scoresKey keyPrefix slug) snapId)).KeepsNames := by
  have hsnap : Spare (snapKey (scoresKey keyPrefix slug) snapId) := spare_snapKey _ snapId
  have hentries : entriesKey keyPrefix slug ∉ (RedisWrite.rename (scoresKey keyPrefix slug)
      (snapKey (scoresKey keyPrefix slug) snapId)).keys := by
    intro hmem
    rcases List.mem_pair.mp hmem with h | h
    · exact entriesKey_ne_scoresKey _ _ _ _ h
    · exact (hsnap keyPrefix slug).2 h.symm
  refine keepsNames_of_removal keyPrefix slug ?_ (fun r => ?_)
    fun r => .inl ?_
  · intro key hkey
    rcases List.mem_pair.mp hkey with rfl | rfl
    · exact .inl rfl
    · exact .inr (.inr hsnap)
  · rw [execRedis, runPipe_cons_snd]
    exact RedisWrite.after_rename (hsnap keyPrefix slug).1.symm r
  · rw [execRedis, runPipe_cons_snd]
    exact RedisWrite.after_of_not_mem hentries r

theorem keepsNames_clear : (RedisCmd.pipe [.del (scoresKey keyPrefix slug),
    .del (entriesKey keyPrefix slug)]).KeepsNames := by
  refine keepsNames_pair keyPrefix slug ?_ ?_ ?_ ?_
  · exact fun key hkey => .inl (List.mem_singleton.mp hkey)
  · exact fun key hkey => .inl (List.mem_singleton.mp hkey)
  · exact RedisWrite.after_del _
  · exact RedisWrite.after_del _

end Board

/-! ### Operations -/

/-- Only the Redis commands matter. -/
def Cmd.KeepsNames : Cmd → Prop
  | .redis c => c.KeepsNames
  | _ => True

variable {α : Type}

/-- A program of commands that keep the names complete. -/
abbrev Action.KeepsNames (p : Action α) : Prop := p.Uses Cmd.KeepsNames

theorem keepsNames_then {β : Type} {q : Query} {f : q.Row → Action β}
    (hf : ∀ row, (f row).KeepsNames) : (Action.sql q >>= f).KeepsNames :=
  Prog.uses_bind (uses_sql trivial) hf

/-- **A submission keeps the names complete.** -/
theorem submit_keepsNames (board : Board) (input : SubmitScore) (keyPrefix : String) :
    (Realtime.submit board input keyPrefix).KeepsNames :=
  uses_guard <| uses_guard <| uses_check fun _ => uses_check fun _ => keepsNames_then fun _ =>
    uses_redis (keepsNames_submit keyPrefix board.slug _ _ _)

/-- **A clearing keeps the names complete.** -/
theorem clear_keepsNames (slug keyPrefix : String) : (Realtime.clear slug keyPrefix).KeepsNames :=
  uses_redis (keepsNames_clear keyPrefix slug)

/-- Each command of a snapshot keeps the names complete. -/
theorem SnapshotCmd.keepsNames {keyPrefix slug : String} {c : Cmd}
    (h : SnapshotCmd keyPrefix slug c) : c.KeepsNames := by
  cases h with
  | scoresExist => exact keepsNames_of_reads rfl
  | entriesExist => exact keepsNames_of_reads rfl
  | readWorking => exact keepsNames_of_reads rfl
  | readSnap snapId => exact keepsNames_of_reads rfl
  | renames snapId => exact keepsNames_renames keyPrefix slug snapId
  | rename snapId => exact keepsNames_rename keyPrefix slug snapId
  | delete snapId =>
    refine keepsNames_of_spare fun key hkey => ?_
    rcases List.mem_pair.mp hkey with rfl | rfl
    · exact spare_snapKey _ snapId
    · exact spare_snapKey _ snapId
  | _ => trivial

/-- **A snapshot keeps the names complete**, whichever way it goes. -/
theorem snapshot_keepsNames (board : Board) (note : Option String) (metadata : Option Json)
    (keyPrefix : String) (maxVersions : Option ℤ) (maxEntries : Option ℕ) :
    (Realtime.snapshot board note metadata keyPrefix maxVersions maxEntries).KeepsNames :=
  (snapshot_uses board note metadata keyPrefix maxVersions maxEntries).mono fun c hc => by
    rcases hc with hc | hc
    · cases c <;> trivial
    · exact hc.keepsNames

/-- **Every request keeps the names complete**, under whatever key prefix. -/
theorem Request.keepsNames (r : Request) : r.handler.Uses Cmd.KeepsNames := by
  have hplain : ∀ {boards : Prop} {redis : RedisCmd → Prop}, (∀ c, redis c → c.KeepsNames) →
      ∀ c, Cmd.PlainIn boards redis c → c.KeepsNames := by
    intro boards redis hredis c hc
    cases c with
    | redis c => exact hredis c hc
    | _ => trivial
  by_cases hs : r.submits
  · exact Request.uses_of_submits (hplain fun _ => False.elim)
      (fun keyPrefix slug _ _ _ => keepsNames_submit keyPrefix slug _ _ _) hs
  by_cases hd : r.deletes
  · exact Request.uses_of_deletes (hplain fun _ => False.elim) (fun _ => trivial)
      (fun _ => trivial) keepsNames_clear hd
  · -- What is left reads Redis, or is a snapshot.
    refine (Request.plainIn (B := True) (R := RedisCmd.KeepsNames) hs hd (fun _ => trivial)
      (fun _ => keepsNames_of_reads) fun board note metadata keyPrefix maxVersions maxEntries =>
        ?_).mono (hplain fun _ => id)
    have hsnapshot := plain_realtimeSnapshot (B := True) board note metadata keyPrefix maxVersions
      maxEntries
    refine (hsnapshot.and (snapshot_keepsNames board note metadata keyPrefix maxVersions
      maxEntries)).mono fun c hc => ?_
    cases c with
    | redis c => exact hc.2
    | sql q => cases q <;> exact hc.1
    | _ => trivial

/-! ### Interleavings -/

/-- A command that writes nothing to Redis. -/
def Cmd.SparesRedis : Cmd → Prop
  | .redis c => c.writes = []
  | _ => True

/-- The operations on live scores, of any boards and under any prefixes, and whatever else the
service does without writing to Redis. -/
inductive LiveCall : Action Unit → Prop
  | submit (board : Board) (input : SubmitScore) (keyPrefix : String) :
      LiveCall (Realtime.submit board input keyPrefix)
  | snapshot (board : Board) (note : Option String) (metadata : Option Json) (keyPrefix : String)
      (maxVersions : Option ℤ) (maxEntries : Option ℕ) :
      LiveCall (Realtime.snapshot board note metadata keyPrefix maxVersions maxEntries).discard
  | clear (boardSlug keyPrefix : String) : LiveCall (Realtime.clear boardSlug keyPrefix)
  | other (p : Action Unit) (hp : p.Uses Cmd.SparesRedis) : LiveCall p

theorem LiveCall.keepsNames {p : Action Unit} (h : LiveCall p) : p.KeepsNames := by
  cases h with
  | submit board input keyPrefix => exact submit_keepsNames board input keyPrefix
  | snapshot board note metadata keyPrefix maxVersions maxEntries =>
    exact uses_discard (snapshot_keepsNames board note metadata keyPrefix maxVersions maxEntries)
  | clear boardSlug keyPrefix => exact clear_keepsNames boardSlug keyPrefix
  | other _ hp =>
    refine hp.mono fun c hc => ?_
    cases c with
    | redis c => exact keepsNames_of_reads hc
    | _ => trivial

variable {faulty : Prop} {g g' : System faulty}

/-- **One step keeps the names complete** if all running programs do. -/
theorem named_step {Serves : Action Unit → Prop} (huse : Machine.AllUse Cmd.KeepsNames g)
    (hstep : Machine.Step Serves g g') (h : g.servers.redis.Named) : g'.servers.redis.Named := by
  cases hstep with
  | call t p hp ht => exact h
  | exec t c k hs hs' L r sh' ht hadmits hexec =>
    change sh'.redis.Named
    rcases exec_redis hexec with hsame | ⟨rc, rfl, hredis⟩
    · rw [hsame]
      exact h
    · rw [hredis]
      exact (huse t _ ht).1 _ h
  | crash t th hc ht => exact h

/-- Every state of a run that starts with the names complete. -/
theorem named_run {Serves : Action Unit → Prop} (hserves : ∀ p, Serves p → p.KeepsNames)
    (huse : Machine.AllUse Cmd.KeepsNames g) (hrun : Machine.Run Serves g g')
    (h : g.servers.redis.Named) : Machine.AllUse Cmd.KeepsNames g' ∧ g'.servers.redis.Named := by
  induction hrun with
  | refl => exact ⟨huse, h⟩
  | tail _ hstep ih => exact ⟨ih.1.step hserves hstep, named_step ih.1 hstep ih.2⟩

/-- All live scores have names, in every reachable state of the service. -/
theorem System.Reachable.redis_named {P : Policy} (hg : System.Reachable P g) :
    g.servers.redis.Named := by
  obtain ⟨collation, hrun⟩ := hg
  refine (named_run ?_ (Machine.allUse_quiet _ _) hrun redis_named_empty).2
  rintro p ⟨r, -, rfl⟩
  exact r.keepsNames

/-- **Every live score has a name.** From any tables and an empty Redis, whatever the interleaving
of submissions, snapshots and clearings: every member of a working sorted set is a field of the
hash of the same board. -/
theorem live_scores_have_names {servers : Server} (hempty : servers.redis = fun _ => none)
    (hrun : Machine.Run LiveCall (Machine.quiet (server faulty) servers) g)
    (keyPrefix slug name : String)
    (hlive : g.servers.redis.Has (scoresKey keyPrefix slug) name) :
    g.servers.redis.HasField (entriesKey keyPrefix slug) name := by
  have hstart : servers.redis.Named := by
    rw [hempty]
    exact redis_named_empty
  obtain ⟨-, hnamed⟩ := named_run (g := Machine.quiet (server faulty) servers)
    (fun _ hp => hp.keepsNames) (Machine.allUse_quiet _ servers) hrun hstart
  exact (hnamed keyPrefix slug).named name hlive

/-- A realtime board. -/
def arcadeBoard : Board where
  id := 1
  slug := "arcade"
  name := "Arcade"
  boardType := "scored"
  sortDirection := "desc"
  tierConfig := none
  metadata := none
  accumulative := false
  realtime := true
  clearOnSnapshot := true
  createdAt := 0
  updatedAt := 0

/-- The servers with the board. -/
def arcadeServers : Server := { db := { boards := [arcadeBoard] }, usedBoards := [1] }

/-- A submission to the board. -/
def arcadeScore (slug : String) : Action Unit := Realtime.submit arcadeBoard ⟨slug, "E", ⟨1⟩⟩ "rl"

/-- A snapshot of the board, which takes the scores away. -/
def arcadeSnapshot : Action Unit :=
  (Realtime.snapshot arcadeBoard none none "rl" none none).discard

/-- Two submissions and a snapshot have been called. -/
def arcadeClients : Clients where
  server := arcadeServers
  threads := [(none, arcadeScore "e"), (none, arcadeSnapshot), (none, arcadeScore "f")]
  tick := 6

/-- The state of the machine after the three calls. -/
def arcadeCalled : System False :=
  (((Machine.quiet (server False) arcadeServers).setThread 0
    (some ⟨none, arcadeScore "e"⟩)).setThread
    1 (some ⟨none, arcadeSnapshot⟩)).setThread 2 (some ⟨none, arcadeScore "f"⟩)

theorem run_arcadeCalled :
    Machine.Run LiveCall (Machine.quiet (server False) arcadeServers) arcadeCalled :=
  .tail (.tail (.single (.call _ 0 _ (.submit ..) rfl)) (.call _ 1 _ (.snapshot ..) rfl))
    (.call _ 2 _ (.submit ..) rfl)

theorem shows_arcadeCalled : arcadeClients.Shows arcadeCalled where
  servers := rfl
  thread
    | 0 => rfl
    | 1 => rfl
    | 2 => rfl
    | _ + 3 => rfl

set_option maxRecDepth 10000 in
/-- A run in which a score arrives when a snapshot has taken the other one away: it has its name,
and the snapshot goes on with the other. -/
theorem live_scores_have_names_run : ∃ g : System False,
    Machine.Run LiveCall (Machine.quiet (server False) arcadeServers) g ∧
    g.thread 1 = some ⟨none, .ret ()⟩ ∧ ¬g.servers.redis.Has (scoresKey "rl" "arcade") "e" ∧
    g.servers.redis.Has (scoresKey "rl" "arcade") "f" ∧
    g.servers.redis.HasField (entriesKey "rl" "arcade") "f" := by
  obtain ⟨c, hc, hc'⟩ := (Option.any_eq_true _ _).mp
    (show (Clients.play counting (fun _ _ => true)
      [.turns 0 9, .turns 1 4, .turns 2 9, .turns 1 20] arcadeClients).any (fun c =>
        c.answered 1 && decide ((c.server.redis.members (scoresKey "rl" "arcade")).map
          Prod.fst = ["f"]))
      = true by decide)
  rw [Bool.and_eq_true, decide_eq_true_eq] at hc'
  obtain ⟨hanswered, hlive⟩ := hc'
  obtain ⟨g, hsteps, hshows, -⟩ :=
    Clients.play_run (fun _ => False) hc (by simp [Move.request?]) shows_arcadeCalled
  have hrun : Machine.Run LiveCall (Machine.quiet (server False) arcadeServers) g :=
    run_arcadeCalled.trans (hsteps.lift id fun _ _ hstep =>
      hstep.1.mono fun _ ⟨_, hnone, _⟩ => hnone.elim)
  rw [← hshows.servers] at hlive
  have hhas : ∀ name, g.servers.redis.Has (scoresKey "rl" "arcade") name ↔ name = "f" := by
    intro name
    rw [← List.mem_singleton, ← hlive, List.mem_map]
    exact ⟨fun ⟨x, hx⟩ => ⟨_, hx, rfl⟩, fun ⟨x, hx, hname⟩ => ⟨x.2, hname ▸ hx⟩⟩
  have hlive := (hhas "f").mpr rfl
  exact ⟨g, hrun, hshows.answered hanswered, by simp [hhas], hlive,
    live_scores_have_names rfl hrun "rl" "arcade" "f" hlive⟩

end Leaderboards
