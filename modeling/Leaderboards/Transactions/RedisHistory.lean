import Leaderboards.Transactions.Reachable

/-!
# The contents of Redis along a trace

Redis is deterministic, so what it holds after a run is what it held before with the commands of
the run replayed (`System.Trace.redis_eq`). A command that could not reach the server has no effect.
-/

namespace Leaderboards

open Interaction

/-- The Redis command of an answered instruction, if it reached the server. -/
def Cmd.sent : (c : Cmd) → c.Res → Option RedisCmd
  | .redis _, .error .connection => none
  | .redis c, _ => some c
  | _, _ => none

/-- The Redis command of an event, with the thread that sent it. -/
def sentIn : Event Service Request → Option (Tid × RedisCmd)
  | .exec t _ c a => (Cmd.sent c a).map fun c => (t, c)
  | _ => none

/-- The Redis commands of a trace. -/
def sent (es : List (Event Service Request)) : List (Tid × RedisCmd) := es.filterMap sentIn

/-- The contents of Redis after some commands. -/
def replay (xs : List (Tid × RedisCmd)) (r : Redis) : Redis :=
  xs.foldl (fun r x => (execRedis x.2 r).2) r

@[simp] theorem replay_nil (r : Redis) : replay [] r = r := rfl

@[simp] theorem replay_cons (x : Tid × RedisCmd) (xs : List (Tid × RedisCmd)) (r : Redis) :
    replay (x :: xs) r = replay xs (execRedis x.2 r).2 := rfl

/-! ### Errors of the server -/

theorem RedisWrite.apply_ne_connection (w : RedisWrite) (r : Redis) :
    w.apply r ≠ .error .connection := by
  cases w <;> simp only [RedisWrite.apply] <;> (try split) <;> simp

theorem runPipe_ne_connection (ws : List RedisWrite) (r : Redis) :
    (runPipe ws r).1 ≠ .error .connection := by
  induction ws generalizing r with
  | nil => exact fun h => by cases h
  | cons w ws ih =>
    simp only [runPipe]
    rcases happly : w.apply r with e | r'
    · rintro h
      have herror : e = .connection := by simpa using h
      exact w.apply_ne_connection r (happly.trans (congrArg Except.error herror))
    · exact ih r'

/-- A server that was reached does not answer that it was not. -/
theorem execRedis_ne_connection (c : RedisCmd) (r : Redis) :
    (execRedis c r).1 ≠ .error .connection := by
  have hzset : ∀ key, readZset r key ≠ .error .connection := by
    intro key
    unfold readZset
    split <;> simp
  cases c with
  | existsKey key => exact fun h => by cases h
  | zrange key => exact hzset key
  | zrevrange key =>
    simp only [execRedis]
    rcases hread : readZset r key with e | members
    · rw [Except.map]
      exact fun h => hzset key (hread.trans (congrArg Except.error (Except.error.inj h)))
    · exact fun h => by cases h
  | hget key fields =>
    simp only [execRedis, readHash]
    split <;> simp
  | rename key newKey => exact runPipe_ne_connection _ r
  | pipe commands => exact runPipe_ne_connection _ r

theorem Cmd.sent_redis {c : RedisCmd} {a : (Cmd.redis c).Res} (h : a ≠ .error .connection) :
    Cmd.sent (.redis c) a = some c := by
  cases a with
  | ok reply => rfl
  | error e =>
    cases e with
    | connection => exact absurd rfl h
    | noSuchKey => rfl
    | wrongType => rfl

theorem Cmd.of_sent {c : Cmd} {a : c.Res} {rc : RedisCmd} (h : Cmd.sent c a = some rc) :
    c = .redis rc := by
  unfold Cmd.sent at h
  split at h
  · cases h
  · rw [Option.some.inj h]
  · cases h

/-! ### Traces -/

variable {faulty : Prop} {allowed : Request → Prop} {g₀ g : System faulty}
  {es : List (Event Service Request)} {who : Tid → Option Request} {t : Tid}

/-- A command that was sent is among the answers of its thread. -/
theorem answered_of_sent {rc : RedisCmd} (h : (t, rc) ∈ sent es) :
    ∃ x ∈ Machine.answersOf (S := Service) t es, x.1 = Cmd.redis rc := by
  obtain ⟨e, he, hsent⟩ := List.mem_filterMap.mp h
  cases e with
  | call u r => cases hsent
  | crash u => cases hsent
  | exec u r c a =>
    obtain ⟨rc', hrc, heq⟩ := Option.map_eq_some_iff.mp hsent
    obtain ⟨rfl, rfl⟩ := Prod.mk.inj heq
    exact ⟨⟨c, a⟩, List.mem_filterMap.mpr ⟨_, he, if_pos rfl⟩, Cmd.of_sent hrc⟩

theorem Exec.redis_after {c : Cmd} {s s' : Server} {h h' : Session} {L : List Lock} {a : c.Res}
    (hexec : Exec faulty c s h L a s' h') :
    s'.redis = ((Cmd.sent c a).map fun rc => (execRedis rc s.redis).2).getD s.redis := by
  cases hexec with
  | redis =>
    rw [Cmd.sent_redis (execRedis_ne_connection _ _)]
    rfl
  | _ => rfl

/-- **What Redis holds is what it held with the commands replayed.** -/
theorem System.Trace.redis_eq (h : System.Trace allowed g₀ es who g) :
    g.servers.redis = replay (sent es) g₀.servers.redis := by
  have hconcat : ∀ (es : List (Event Service Request)) e, replay (sent (es ++ [e]))
      g₀.servers.redis = ((sentIn e).map fun x => (execRedis x.2
        (replay (sent es) g₀.servers.redis)).2).getD
          (replay (sent es) g₀.servers.redis) := by
    intro es e
    rw [sent, List.filterMap_append, ← sent]
    rcases hsent : sentIn e with _ | x
    · rw [List.filterMap_cons_none hsent, List.filterMap_nil, List.append_nil]
      rfl
    · rw [List.filterMap_cons_some hsent, List.filterMap_nil, replay,
        List.foldl_concat]
      rfl
  induction h with
  | start => rfl
  | call t r h hr ht ih =>
    rw [hconcat, ← ih]
    rfl
  | exec t c k s s' L a sh' h ht hothers hexec ih =>
    have hredis : sh'.redis = _ := Exec.redis_after hexec
    rw [hconcat, ← ih]
    refine Eq.trans hredis ?_
    rw [sentIn, Option.map_map]
    rfl
  | crash t th h hc ht ih =>
    rw [hconcat, ← ih]
    rfl

end Leaderboards
