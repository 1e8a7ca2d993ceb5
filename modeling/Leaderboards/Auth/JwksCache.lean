import Leaderboards.Auth.Middleware
import Leaderboards.Library.Interleaving

/-!
# `auth.rs`: the key cache

`JwksCache` keeps its keys and the instant of its last refresh under two locks. `refresh` writes
the one and then the other, and `get_key` reads them the other way round, so each access is a
command of its own here. What a set of keys is parsed with comes from the token library.
-/

namespace Leaderboards.Auth

open Interaction

/-- `JwkEntry`. -/
structure JwkEntry where
  kid : Option String
  kty : String
  alg : Option String := none
  n : Option String := none
  e : Option String := none
  crv : Option String := none
  x : Option String := none
  y : Option String := none
deriving DecidableEq

/-- `JwkSet`. -/
structure JwkSet where
  keys : List JwkEntry
deriving DecidableEq

/-- The constructors of `DecodingKey`. -/
structure DecodingKeys (Key : Type) where
  fromRsaComponents : String → String → Option Key
  fromEcComponents : String → String → Option Key
  fromEdComponents : String → Option Key

variable {Key : Type}

/-- `parse_jwk`. -/
def parseJwk (lib : DecodingKeys Key) (jwk : JwkEntry) : Option (Key × Algorithm) :=
  match jwk.kty with
  | "RSA" => do
    let n ← jwk.n
    let e ← jwk.e
    let key ← lib.fromRsaComponents n e
    let alg ← match jwk.alg with
      | some "RS256" | none => some .rs256
      | some "RS384" => some .rs384
      | some "RS512" => some .rs512
      | some _ => none
    some (key, alg)
  | "EC" => do
    let x ← jwk.x
    let y ← jwk.y
    let key ← lib.fromEcComponents x y
    let alg ← match jwk.crv with
      | some "P-256" => some .es256
      | some "P-384" => some .es384
      | none => match jwk.alg with
        | some "ES256" => some .es256
        | some "ES384" => some .es384
        | _ => none
      | some _ => none
    some (key, alg)
  | "OKP" => do
    let x ← jwk.x
    let key ← lib.fromEdComponents x
    some (key, .edDsa)
  | _ => none

/-- `new_keys`: what `refresh` inserts, in order. -/
def newKeys (lib : DecodingKeys Key) (jwkSet : JwkSet) : List (String × Key × Algorithm) :=
  jwkSet.keys.filterMap fun jwk => do
    let kid ← jwk.kid
    let keyAndAlg ← parseJwk lib jwk
    some (kid, keyAndAlg)

/-- The map after some insertions: the later of two under one kid stays. -/
def inserted {α : Type} (pairs : List (String × α)) (kid : String) : Option α :=
  pairs.reverse.lookup kid

/-- The set has an entry for the kid that gives this key and algorithm. -/
def JwkSet.Publishes (lib : DecodingKeys Key) (jwkSet : JwkSet) (kid : String)
    (keyAndAlg : Key × Algorithm) : Prop :=
  ∃ jwk ∈ jwkSet.keys, jwk.kid = some kid ∧ parseJwk lib jwk = some keyAndAlg

/-- What is in the map was published. -/
theorem publishes_of_inserted {lib : DecodingKeys Key} {jwkSet : JwkSet} {kid : String}
    {keyAndAlg : Key × Algorithm} (h : inserted (newKeys lib jwkSet) kid = some keyAndAlg) :
    jwkSet.Publishes lib kid keyAndAlg := by
  have hmem : (kid, keyAndAlg) ∈ newKeys lib jwkSet := by
    obtain ⟨before, after, hsplit, -⟩ := List.lookup_eq_some_iff.mp h
    rw [← List.mem_reverse, hsplit]
    simp
  obtain ⟨jwk, hjwk, hpair⟩ := List.mem_filterMap.mp hmem
  simp only [Option.bind_eq_bind, Option.bind_eq_some_iff, Option.some.injEq, Prod.mk.injEq]
    at hpair
  obtain ⟨kid', hkid, keyAndAlg', hparse, rfl, rfl⟩ := hpair
  exact ⟨jwk, hjwk, hkid, hparse⟩

namespace Refreshing

/-! ### The functions of the cache -/

/-- What a thread does with the cache, the clock and the key server between two points at which
another may act. -/
inductive JwksCmd
  /-- The request, the check of its status, and the parsing of the answer. -/
  | fetch
  /-- `*self.keys.write().await = new_keys`, with the set that the keys are from. -/
  | writeKeys (jwkSet : JwkSet)
  /-- `Instant::now()`. -/
  | now
  /-- `*self.last_refresh.write().await = …`. -/
  | writeLastRefresh (now : ℕ)
  /-- `self.last_refresh.read().await.elapsed()`. -/
  | elapsed
  /-- `self.keys.read().await.get(kid)`. -/
  | lookup (kid : String)

/-- What a command answers. Instants and durations are in nanoseconds. -/
abbrev JwksCmd.Res (Key : Type) : JwksCmd → Type
  | fetch => Except String JwkSet
  | writeKeys _ => Unit
  | now => ℕ
  | writeLastRefresh _ => Unit
  | elapsed => ℕ
  | lookup _ => Option (Key × Algorithm)

/-- The interface to the cache. -/
def Jwks (Key : Type) : Signature := ⟨JwksCmd, JwksCmd.Res Key⟩

/-- Execute one command. -/
def run (c : JwksCmd) : Prog (Jwks Key) String (c.Res Key) := .op (S := Jwks Key) c .ret

/-- `JwksCache::refresh`. The right side of an assignment is evaluated before its left side, so the
clock is read before the lock of the last refresh is taken. -/
def refresh (lib : DecodingKeys Key) (url : String) : Prog (Jwks Key) String Unit := do
  let resp ← run .fetch
  let jwkSet ← Prog.ofExcept resp
  Prog.failIf ((newKeys lib jwkSet).isEmpty = true)
    ("JWKS refresh returned zero usable keys from " ++ url)
  run (.writeKeys jwkSet)
  let now ← run .now
  run (.writeLastRefresh now)

/-- `JwksCache::get_key`. -/
def getKey (kid : String) : Prog (Jwks Key) String (Option (Key × Algorithm)) := do
  let elapsed ← run .elapsed
  Prog.failIf (jwksMaxStaleSecs < elapsed / 1000000000)
    "JWKS cache is stale — refresh has been failing"
  run (.lookup kid)

/-- What is called on the cache: refreshes, by the background task, and lookups. -/
inductive CacheCall (lib : DecodingKeys Key) (url : String) :
    Prog (Jwks Key) String Unit → Prop
  | refresh : CacheCall lib url (refresh lib url)
  | getKey (kid : String) : CacheCall lib url (getKey kid >>= fun _ => .ret ())

/-! ### Threads on the cache -/

/-- The cache and the clock, and what has happened: the sets of which the keys were written, and
the instants of the refreshes that were completed, the latest first. -/
structure World (Key : Type) where
  cache : JwksCache Key
  clock : ℕ
  keyWrites : List JwkSet
  completed : List ℕ

/-- What a thread has seen of the last refresh: when it was, when the thread looked, and which
refreshes were completed by then. -/
structure Observation where
  lastRefresh : ℕ
  instant : ℕ
  completed : List ℕ

/-- A thread executes a command. A request may end in any way, and the clock never goes back. -/
inductive Exec (lib : DecodingKeys Key) : (c : JwksCmd) → World Key → Option Observation →
    c.Res Key → World Key → Option Observation → Prop
  | fetch (w : World Key) (h : Option Observation) (outcome : Except String JwkSet) :
      Exec lib .fetch w h outcome w h
  | writeKeys (w : World Key) (h : Option Observation) (jwkSet : JwkSet) :
      Exec lib (.writeKeys jwkSet) w h ()
        { w with cache := { w.cache with keys := inserted (newKeys lib jwkSet) },
                 keyWrites := jwkSet :: w.keyWrites } h
  | now (w : World Key) (h : Option Observation) (now : ℕ) (hnow : w.clock ≤ now) :
      Exec lib .now w h now { w with clock := now } h
  | writeLastRefresh (w : World Key) (h : Option Observation) (now : ℕ) :
      Exec lib (.writeLastRefresh now) w h ()
        { w with cache := { w.cache with lastRefresh := now }, completed := now :: w.completed } h
  | elapsed (w : World Key) (h : Option Observation) (now : ℕ) (hnow : w.clock ≤ now) :
      Exec lib .elapsed w h (now - w.cache.lastRefresh) { w with clock := now }
        (some ⟨w.cache.lastRefresh, now, w.completed⟩)
  | lookup (w : World Key) (h : Option Observation) (kid : String) :
      Exec lib (.lookup kid) w h (w.cache.keys kid) w h

/-- The threads share the cache; each may be dropped where it waits. -/
def cacheMachine (lib : DecodingKeys Key) : Machine (Jwks Key) where
  Shared := World Key
  Session := Option Observation
  Claim := Unit
  idle := none
  exec _ c w h _ r w' h' := Exec lib c w h r w' h'
  admits _ _ := True
  crashes := True

/-- No command waits for a thread that does not answer. -/
theorem exec_step {lib : DecodingKeys Key} {requests : Prog (Jwks Key) String Unit → Prop}
    {c : JwksCmd} {r : c.Res Key} {w' : World Key} {h h' : Option Observation}
    {g : (cacheMachine lib).State String} (t : Tid) {k : c.Res Key → Prog (Jwks Key) String Unit}
    (ht : g.thread t = some ⟨h, .op (S := Jwks Key) c k⟩) (hexec : Exec lib c g.shared h r w' h') :
    Machine.Step requests g ⟨w', Function.update g.thread t (some ⟨h', k r⟩)⟩ :=
  .exec g t c k h h' () r w' ht (fun _ _ _ _ => trivial) hexec

/-- A cache that `JwksCache::new` has returned: nobody else has seen it, and its first refresh has
succeeded. -/
def World.IsNew (lib : DecodingKeys Key) (w : World Key) : Prop :=
  ∃ jwkSet now, (newKeys lib jwkSet).isEmpty = false ∧ now ≤ w.clock ∧
    w.cache = ⟨inserted (newKeys lib jwkSet), now⟩ ∧ w.keyWrites = [jwkSet] ∧ w.completed = [now]

end Refreshing

end Leaderboards.Auth
