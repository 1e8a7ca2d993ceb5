import Leaderboards.Auth.JwksCache

/-!
# Stale and revoked keys are not used

A lookup reads the instant of the last refresh first and the keys later, and a refresh writes the
keys first and its instant later. So the keys of a lookup are those of the latest key write, which
may be newer than the refresh of which the lookup has seen the instant (`Observed`).
-/

namespace Leaderboards.Auth.Refreshing

open Interaction

variable {Key : Type} {lib : DecodingKeys Key} {url : String}

/-! ### What the calls do -/

/-- The command writes to the cache. -/
def JwksCmd.Writes : JwksCmd → Prop
  | writeKeys _ => True
  | writeLastRefresh _ => True
  | _ => False

/-- What a thread has seen elapse, after a command. -/
def JwksCmd.seen : (c : JwksCmd) → c.Res Key → Option ℕ → Option ℕ
  | elapsed, duration, _ => some duration
  | _, _, seen => seen

/-- The program looks keys up only when it has seen that the cache is not stale, and it writes only
when it cannot fail any more. -/
def Careful : Option ℕ → Prog (Jwks Key) String Unit → Prop
  | _, .ret _ => True
  | _, .fail _ => True
  | seen, .op c k =>
    (∀ kid, c = .lookup kid →
      ∃ elapsed, seen = some elapsed ∧ ¬jwksMaxStaleSecs < elapsed / 1000000000) ∧
    (JwksCmd.Writes c → ∀ r, ¬(k r).MayFail) ∧ ∀ r, Careful (JwksCmd.seen c r seen) (k r)

/-- **Every call is careful.** -/
theorem careful_call {p : Prog (Jwks Key) String Unit} (hp : CacheCall lib url p) :
    Careful none p := by
  cases hp with
  | refresh =>
    refine ⟨fun _ heq => (nomatch heq), fun hwrites => hwrites.elim, fun outcome => ?_⟩
    rcases outcome with e | jwkSet
    · trivial
    · dsimp only [Prog.bind, Prog.ofExcept, Prog.failIf]
      rw [Prog.ret_bind]
      split
      · trivial
      · -- Three commands that always answer, and the program has returned.
        have hnofail :
            ∀ now : ℕ, ¬(run (.writeLastRefresh now) : Prog (Jwks Key) String Unit).MayFail := by
          rintro now ⟨_, h⟩
          exact h
        refine ⟨fun _ heq => (nomatch heq), ?_, fun _ => ⟨fun _ heq => (nomatch heq),
          fun hwrites => hwrites.elim, fun now => ⟨fun _ heq => (nomatch heq), ?_, fun _ =>
            trivial⟩⟩⟩
        · rintro - _ ⟨now, h⟩
          exact hnofail now h
        · exact fun _ _ h => h
  | getKey kid =>
    refine ⟨fun _ heq => (nomatch heq), fun hwrites => hwrites.elim, fun (elapsed : ℕ) => ?_⟩
    dsimp only [Prog.bind, Prog.failIf]
    split
    · trivial
    · rename_i hfresh
      exact ⟨fun _ _ => ⟨elapsed, rfl, hfresh⟩, fun hwrites => hwrites.elim, fun _ => trivial⟩

/-! ### Every interleaving -/

/-- What holds of the cache and of what the threads have seen. -/
structure Observed (lib : DecodingKeys Key) (w : World Key) (session : Tid → Option Observation) :
    Prop where
  keys : ∃ jwkSet rest, w.keyWrites = jwkSet :: rest ∧
    w.cache.keys = inserted (newKeys lib jwkSet)
  last : w.completed.head? = some w.cache.lastRefresh
  seen : ∀ t o, session t = some o →
    o.completed <:+ w.completed ∧ o.completed.head? = some o.lastRefresh

/-- What a thread has seen elapse. -/
def elapsedOf (h : Option Observation) : Option ℕ := h.map fun o => o.instant - o.lastRefresh

section Step

variable {c : JwksCmd} {w w' : World Key} {r : c.Res Key} {h h' : Option Observation}

theorem Exec.elapsedOf (hexec : Exec lib c w h r w' h') :
    elapsedOf h' = c.seen r (elapsedOf h) := by
  cases hexec <;> rfl

/-- Only the two writes change the cache. -/
theorem Exec.cache (hexec : Exec lib c w h r w' h') (hc : ¬c.Writes) : w'.cache = w.cache := by
  cases hexec with
  | writeKeys => exact absurd trivial hc
  | writeLastRefresh => exact absurd trivial hc
  | _ => rfl

/-- **Every command keeps what was observed.** -/
theorem Exec.observed {session : Tid → Option Observation} {t : Tid}
    (hexec : Exec lib c w (session t) r w' h') (hw : Observed lib w session) :
    Observed lib w' (Function.update session t h') := by
  generalize hh : session t = h₀ at hexec
  have hsame : Function.update session t h₀ = session := by
    rw [← hh, Function.update_eq_self]
  cases hexec with
  | fetch =>
    rw [hsame]
    exact hw
  | writeKeys _ _ jwkSet =>
    rw [hsame]
    exact ⟨⟨jwkSet, w.keyWrites, rfl, rfl⟩, hw.last, hw.seen⟩
  | now =>
    rw [hsame]
    exact ⟨hw.keys, hw.last, hw.seen⟩
  | writeLastRefresh _ _ now =>
    rw [hsame]
    refine ⟨hw.keys, rfl, fun u o hu => ?_⟩
    obtain ⟨hsuffix, hhead⟩ := hw.seen u o hu
    exact ⟨hsuffix.trans (List.suffix_cons now w.completed), hhead⟩
  | elapsed _ _ now hnow =>
    refine ⟨hw.keys, hw.last, fun u o hu => ?_⟩
    by_cases hut : u = t
    · rw [hut, Function.update_self] at hu
      obtain rfl := Option.some.inj hu
      exact ⟨List.suffix_rfl, hw.last⟩
    · rw [Function.update_of_ne hut] at hu
      exact hw.seen u o hu
  | lookup =>
    rw [hsame]
    exact hw

end Step

/-- What every step keeps. -/
structure Sound (g : (cacheMachine lib).State String) : Prop where
  observed : Observed lib g.shared g.session
  careful : ∀ t th, g.thread t = some th → Careful (elapsedOf th.session) th.rest

theorem sound_new {w : World Key} (hnew : w.IsNew lib) :
    Sound (Machine.quiet (cacheMachine lib) w) := by
  obtain ⟨jwkSet, now, -, -, hcache, hkeys, hcompleted⟩ := hnew
  refine ⟨⟨⟨jwkSet, [], hkeys, ?_⟩, ?_, fun _ _ h => nomatch h⟩, fun _ _ h => nomatch h⟩
  · change w.cache.keys = _
    rw [hcache]
  · change w.completed.head? = some w.cache.lastRefresh
    rw [hcompleted, hcache]
    rfl

/-- **What one step keeps.** -/
theorem Sound.step {g g' : (cacheMachine lib).State String} (h : Sound g)
    (hstep : Machine.Step (CacheCall lib url) g g') : Sound g' := by
  cases hstep with
  | call t p hp ht =>
    refine ⟨?_, fun u th hu => ?_⟩
    · rw [Machine.State.session_call ht]
      exact h.observed
    · by_cases hut : u = t
      · subst hut
        obtain rfl := Option.some.inj ((g.setThread_self u _).symm.trans hu)
        exact careful_call hp
      · exact h.careful u th ((g.setThread_of_ne _ hut).symm.trans hu)
  | exec t c k hs hs' L r w' ht hothers hexec =>
    have hcommand : Exec lib c g.shared hs r w' hs' := hexec
    have hself : g.session t = hs := Machine.State.session_of_thread ht
    refine ⟨?_, fun u th hu => ?_⟩
    · rw [g.session_exec]
      exact Exec.observed (hself.symm ▸ hcommand) h.observed
    · by_cases hut : u = t
      · subst hut
        obtain rfl := Option.some.inj ((Function.update_self u _ g.thread).symm.trans hu)
        have hrest := (h.careful u _ ht).2.2 r
        rw [← hcommand.elapsedOf] at hrest
        exact hrest
      · exact h.careful u th ((Function.update_of_ne hut ..).symm.trans hu)
  | crash t th hc ht =>
    refine ⟨⟨h.observed.keys, h.observed.last, fun u o hu => ?_⟩, fun u th' hu => ?_⟩
    · rw [g.session_crash] at hu
      by_cases hut : u = t
      · rw [hut, Function.update_self] at hu
        cases hu
      · rw [Function.update_of_ne hut] at hu
        exact h.observed.seen u o hu
    · by_cases hut : u = t
      · subst hut
        cases (g.setThread_self u _).symm.trans hu
      · exact h.careful u th' ((g.setThread_of_ne _ hut).symm.trans hu)

theorem sound_reachable {w : World Key} (hnew : w.IsNew lib)
    {g : (cacheMachine lib).State String}
    (hrun : Machine.Run (CacheCall lib url) (Machine.quiet (cacheMachine lib) w) g) : Sound g := by
  induction hrun with
  | refl => exact sound_new hnew
  | tail _ hstep ih => exact ih.step hstep

/-- The answer is not this key and algorithm of the kid. -/
def JwksCmd.notFound (kid : String) (keyAndAlg : Key × Algorithm) : (c : JwksCmd) → c.Res Key → Prop
  | lookup kid', found => ¬(kid' = kid ∧ found = some keyAndAlg)
  | _, _ => True

/-- `get_key` returns a key only when it has found it in the cache. -/
theorem getKey_returns (kid : String) (keyAndAlg : Key × Algorithm) :
    ¬(getKey kid).ReturnsAmong (JwksCmd.notFound kid keyAndAlg) (some keyAndAlg) := by
  rintro ⟨elapsed, -, h⟩
  dsimp only [Prog.bind, Prog.failIf] at h
  split at h
  · exact h
  · obtain ⟨found, hnot, h⟩ := h
    exact hnot ⟨rfl, h⟩

/-- **Stale and revoked keys are not used.** Whatever the interleaving of refreshes and lookups on
a new cache: `get_key` returns what it finds in the cache, and what a lookup finds there was
published for its kid by the key set of the latest key write, and the thread had seen the instant
of the refresh that was the last one completed, less than 7201 seconds before. No command of a call
that can still fail changes the cache. -/
theorem stale_keys_not_used {w : World Key} (hnew : w.IsNew lib)
    {g : (cacheMachine lib).State String}
    (hrun : Machine.Run (CacheCall lib url) (Machine.quiet (cacheMachine lib) w) g) :
    (∀ kid (keyAndAlg : Key × Algorithm),
      ¬(getKey kid).ReturnsAmong (JwksCmd.notFound kid keyAndAlg) (some keyAndAlg)) ∧
    (∀ t h kid k keyAndAlg w' h', g.thread t = some ⟨h, .op (S := Jwks Key) (.lookup kid) k⟩ →
      Exec lib (.lookup kid) g.shared h (some keyAndAlg) w' h' →
      (∃ jwkSet before, g.shared.keyWrites = jwkSet :: before ∧
        jwkSet.Publishes lib kid keyAndAlg) ∧
      ∃ o, h = some o ∧ o.completed <:+ g.shared.completed ∧
        o.completed.head? = some o.lastRefresh ∧
        o.instant < o.lastRefresh + 7201 * 1000000000) ∧
    ∀ t h c k r w' h', g.thread t = some ⟨h, .op (S := Jwks Key) c k⟩ →
      Exec lib c g.shared h r w' h' → (k r).MayFail → w'.cache = g.shared.cache := by
  have hsound := sound_reachable hnew hrun
  refine ⟨getKey_returns, ?_, ?_⟩
  · intro t h kid k keyAndAlg w' h' ht hexec
    obtain ⟨jwkSet, before, hwrites, hkeys⟩ := hsound.observed.keys
    obtain ⟨elapsed, hseen, hfresh⟩ := (hsound.careful t _ ht).1 kid rfl
    obtain ⟨o, ho, helapsed⟩ := Option.map_eq_some_iff.mp hseen
    obtain ⟨hsuffix, hhead⟩ :=
      hsound.observed.seen t o ((Machine.State.session_of_thread ht).trans ho)
    have hfound : g.shared.cache.keys kid = some keyAndAlg := by
      generalize hanswer : some keyAndAlg = answer at hexec
      cases hexec with
      | lookup => rfl
    rw [hkeys] at hfound
    refine ⟨⟨jwkSet, before, hwrites, publishes_of_inserted hfound⟩, o, ho, hsuffix, hhead, ?_⟩
    unfold jwksMaxStaleSecs at hfresh
    omega
  · intro t h c k r w' h' ht hexec hfails
    refine hexec.cache fun hwrites => ?_
    exact (hsound.careful t _ ht).2.1 hwrites r hfails

/-- A library that takes any key. -/
def anyKey : DecodingKeys Unit where
  fromRsaComponents _ _ := some ()
  fromEcComponents _ _ := some ()
  fromEdComponents _ := some ()

/-- A set with one key. -/
def oneJwk : JwkSet := ⟨[{ kid := some "a", kty := "OKP", x := some "x" }]⟩

/-- A cache with one key, fetched at the start of the clock. -/
def newCache : World Unit where
  cache := ⟨inserted (newKeys anyKey oneJwk), 0⟩
  clock := 0
  keyWrites := [oneJwk]
  completed := [0]

theorem newCache_isNew : newCache.IsNew anyKey := ⟨oneJwk, 0, rfl, Nat.le_refl 0, rfl, rfl, rfl⟩

/-- A lookup two hours after the refresh finds the key. -/
theorem stale_keys_not_used_run : ∃ (g : (cacheMachine anyKey).State String)
    (h : Option Observation) (k : Option (Unit × Algorithm) → Prog (Jwks Unit) String Unit),
    Machine.Run (CacheCall anyKey "") (Machine.quiet (cacheMachine anyKey) newCache) g ∧
      g.thread 0 = some ⟨h, .op (S := Jwks Unit) (.lookup "a") k⟩ ∧
      (∃ jwkSet before, g.shared.keyWrites = jwkSet :: before ∧
        jwkSet.Publishes anyKey "a" ((), .edDsa)) ∧
      ∃ o, h = some o ∧ o.instant < o.lastRefresh + 7201 * 1000000000 := by
  have hlookup : ∃ (g : (cacheMachine anyKey).State String)
      (h : Option Observation) (k : Option (Unit × Algorithm) → Prog (Jwks Unit) String Unit),
      Machine.Run (CacheCall anyKey "") (Machine.quiet (cacheMachine anyKey) newCache) g ∧
        g.thread 0 = some ⟨h, .op (S := Jwks Unit) (.lookup "a") k⟩ ∧
        g.shared = { newCache with clock := 7200000000000 } :=
    ⟨_, _, fun _ => .ret (), (Relation.ReflTransGen.refl.tail (.call _ 0 _ (.getKey "a") rfl)).tail
      (exec_step 0 rfl (.elapsed _ none 7200000000000 (Nat.zero_le _))), rfl, rfl⟩
  obtain ⟨g, h, k, hrun, ht, hshared⟩ := hlookup
  have hexec : Exec anyKey (.lookup "a") g.shared h (some ((), .edDsa)) g.shared h := by
    rw [hshared]
    exact .lookup _ h "a"
  obtain ⟨hpublished, o, ho, -, -, hfresh⟩ :=
    (stale_keys_not_used newCache_isNew hrun).2.1 0 h "a" k ((), .edDsa) _ _ ht hexec
  exact ⟨g, h, k, hrun, ht, hpublished, o, ho, hfresh⟩

end Leaderboards.Auth.Refreshing
