import Leaderboards.Auth.Middleware

/-!
# What an accepted JWT guarantees

`Trustworthy` is what the configuration asks of the token of a write request. Most of it holds of
every token that `require_auth` lets through. The library compares `iss` and `aud` only when they
are there, and `validate_jwt` does not add them to the required claims; nor does a `nbf` that is
not a number count. So the guarantee holds exactly for the tokens whose claims are `Checkable`
(`jwt_acceptance`).
-/

namespace Leaderboards.Auth

variable {Key : Type}

/-- What a write request is allowed on: a token that is not a read token, signed with a cached key
under the cached algorithm, valid at the time up to the leeway, from the expected issuer, for the
expected audience, and with the required role. -/
structure Trustworthy (lib : Jsonwebtoken Key) (env : String → Option String) (auth : AuthConfig)
    (cache : JwksCache Key) (clock : Clock) (token : Token) : Prop where
  not_read : ∀ t ∈ auth.readTokens, t.resolve env ≠ .ok token
  signed : ∃ header kid key, lib.decodeHeader token = .ok header ∧ header.kid = some kid ∧
    cache.keys kid = some (key, header.alg) ∧ lib.verify token key header.alg = true
  claims : ∃ p, lib.payload token = some p ∧
    (∃ e, p.exp = .parsed e ∧ clock.timestamp ≤ e + 60) ∧
    (p.nbf = .notPresent ∨ ∃ n, p.nbf = .parsed n ∧ n ≤ clock.timestamp + 60) ∧
    (∀ iss, auth.expectedIssuer = some iss → p.iss = .parsed (.single iss)) ∧
    (∀ aud, auth.expectedAudience = some aud → ∃ ps, p.aud = .parsed ps ∧ ps.Has aud) ∧
    ∀ role, auth.requiredRole = some role → ∃ rs, p.roles = some rs ∧ role ∈ rs

/-- The claims that the configuration wants checked are there, with the types of their names. -/
structure Payload.Checkable (p : Payload) (auth : AuthConfig) : Prop where
  nbf : p.nbf ≠ .failedToParse
  iss : auth.expectedIssuer ≠ none → ∃ name, p.iss = .parsed (.single name)
  aud : auth.expectedAudience ≠ none → ∃ ps, p.aud = .parsed ps

/-! ### The mode of a configuration -/

/-- A hash of a token that resolves is among the hashes. -/
theorem mem_readTokenHashes {mac : Mac} {env : String → Option String} {ts : List ConfigValue}
    {hashes : List (List UInt8)} (h : readTokenHashes mac env ts = .ok hashes) {t : ConfigValue}
    (ht : t ∈ ts) {token : Token} (hresolve : t.resolve env = .ok token) :
    mac token ∈ hashes := by
  induction ts generalizing hashes with
  | nil => cases ht
  | cons t' ts ih =>
    simp only [readTokenHashes, Interaction.Prog.except_bind_ok] at h
    obtain ⟨resolved, hresolved, rest, hrest, h⟩ := h
    obtain rfl := Except.ok.inj h
    rcases List.mem_cons.mp ht with rfl | ht
    · obtain rfl : resolved = token := Except.ok.inj (hresolved.symm.trans hresolve)
      exact List.mem_cons_self
    · exact List.mem_cons_of_mem _ (ih hrest ht)

/-- The fields of a JWT mode are those of its configuration. -/
theorem fromConfig_jwt {mac : Mac} {env : String → Option String}
    {fetch : String → Except String (JwksCache Key)} {auth : AuthConfig} {cache : JwksCache Key}
    {role issuer audience : Option String} {hashes : List (List UInt8)} {requireReadAuth : Bool}
    (h : AuthMode.fromConfig mac env fetch (some auth) =
      .ok (.jwt cache role issuer audience hashes requireReadAuth)) :
    role = auth.requiredRole ∧ issuer = auth.expectedIssuer ∧ audience = auth.expectedAudience ∧
      readTokenHashes mac env auth.readTokens = .ok hashes := by
  simp only [AuthMode.fromConfig, Interaction.Prog.except_bind_ok] at h
  obtain ⟨admin, -, hashes', hhashes, h⟩ := h
  split at h
  · cases h
  · obtain ⟨cache', -, h⟩ := Interaction.Prog.except_bind_ok.mp h
    cases h
    exact ⟨rfl, rfl, rfl, hhashes⟩
  · obtain ⟨token, -, h⟩ := Interaction.Prog.except_bind_ok.mp h
    cases h
  · split at h
    · cases h
    · cases h

/-! ### The guarantee -/

/-- **JWT acceptance.** In every JWT mode, whatever the cache and the clocks, the bearer token of a
write request that is let through deserves it exactly when its claims are checkable. -/
theorem jwt_acceptance {lib : Jsonwebtoken Key} (hlib : lib.Documented) {mac : Mac}
    {env : String → Option String} {fetch : String → Except String (JwksCache Key)}
    {auth : AuthConfig} {cache₀ cache : JwksCache Key} {role issuer audience : Option String}
    {hashes : List (List UInt8)} {requireReadAuth : Bool} {clock : Clock} {request : Request}
    (hconfig : AuthMode.fromConfig mac env fetch (some auth) =
      .ok (.jwt cache₀ role issuer audience hashes requireReadAuth))
    (hwrite : request.method.isRead = false)
    (haccept : requireAuth lib mac clock
      (.jwt cache role issuer audience hashes requireReadAuth) request = .ok ()) :
    ∃ token, extractBearer request.authorization = some token ∧
      (Trustworthy lib env auth cache clock token ↔
        ∀ p, lib.payload token = some p → p.Checkable auth) := by
  obtain ⟨rfl, rfl, rfl, hhashes⟩ := fromConfig_jwt hconfig
  obtain ⟨token, htoken, hnot, hvalid⟩ := requireAuth_jwt hwrite haccept
  obtain ⟨header, kid, key, claims, hheader, hkid, hkey, hdecode, hrole⟩ := validateJwt_ok hvalid
  refine ⟨token, htoken, ?_, fun hcheckable => ?_⟩
  · rintro ⟨-, -, p, hp, -, hnbf, hiss, haud, -⟩ p' hp'
    obtain rfl : p = p' := Option.some.inj (hp.symm.trans hp')
    refine ⟨?_, fun hissuer => ?_, fun haudience => ?_⟩
    · rcases hnbf with h | ⟨n, h, -⟩
      · simp [h]
      · simp [h]
    · obtain ⟨iss, hissuer⟩ := Option.ne_none_iff_exists'.mp hissuer
      exact ⟨iss, hiss iss hissuer⟩
    · obtain ⟨aud, haudience⟩ := Option.ne_none_iff_exists'.mp haudience
      obtain ⟨ps, hps, -⟩ := haud aud haudience
      exact ⟨ps, hps⟩
  -- Each clause is a check of the library, or one of `require_auth` itself.
  · obtain ⟨p, hp, rfl⟩ := hlib.claims hdecode
    obtain ⟨hnbf, hissuer, haudience⟩ := hcheckable p hp
    refine ⟨fun t ht hresolve => ?_, ?_, p, hp, ?_, ?_, fun iss hiss => ?_, fun aud haud => ?_,
      fun r hr => ?_⟩
    · -- A read token would have been refused by its hash.
      have hmem := mem_readTokenHashes hhashes ht hresolve
      have hread : isReadToken mac token hashes = true :=
        List.any_eq_true.mpr ⟨mac token, hmem, by simp [verifyToken]⟩
      rw [hread] at hnot
      exact absurd hnot (by decide)
    · obtain ⟨header', hheader', -, hverify⟩ := hlib.signature hdecode
      obtain rfl : header = header' := Except.ok.inj (hheader.symm.trans hheader')
      exact ⟨header, kid, key, hheader, hkid, hkey, hverify⟩
    · obtain ⟨e, he⟩ := hlib.required hdecode hp (by simp [jwtValidation, Validation.new])
      exact ⟨e, he, hlib.exp hdecode hp rfl he⟩
    · rcases hn : p.nbf with n | _ | _
      · exact .inr ⟨n, rfl, hlib.nbf hdecode hp rfl hn⟩
      · exact absurd hn hnbf
      · exact .inl rfl
    · obtain ⟨name, hname⟩ := hissuer (by simp [hiss])
      have hnames : (jwtValidation header.alg auth.expectedIssuer auth.expectedAudience).iss =
          some [iss] := by simp [jwtValidation, hiss]
      have hmem := hlib.iss hdecode hp hnames hname
      rw [hname, List.mem_singleton.mp hmem]
    · obtain ⟨ps, hps⟩ := haudience (by simp [haud])
      have hnames : (jwtValidation header.alg auth.expectedIssuer auth.expectedAudience).aud =
          some [aud] := by simp [jwtValidation, haud]
      obtain ⟨name, hmem, hhas⟩ := hlib.aud hdecode hp (by simp [jwtValidation, haud]) hnames hps
      exact ⟨ps, hps, List.mem_singleton.mp hmem ▸ hhas⟩
    · rw [hr] at hrole
      rcases hroles : p.roles with _ | rs
      · simp [hasRole, hroles] at hrole
      · simp only [hasRole, hroles, Option.any_some, List.any_eq_true, decide_eq_true_eq] at hrole
        obtain ⟨r', hr', rfl⟩ := hrole
        exact ⟨rs, rfl, hr'⟩

/-- A configuration with an issuer. -/
def issuerConfig : AuthConfig where
  jwksUrl := some "u"
  expectedIssuer := some "a"

/-- The cache with one key. -/
def oneKey : JwksCache Unit where
  keys kid := if kid = "k" then some ((), .rs256) else none
  lastRefresh := 0

/-- Two signed tokens, one with the issuer and one without. -/
def issuerLibrary : Jsonwebtoken Unit := .ofTable fun token =>
  if token = "s" then
    some (⟨.rs256, some "k"⟩, { exp := .parsed 100, iss := .parsed (.single "a") }, ())
  else if token = "t" then some (⟨.rs256, some "k"⟩, { exp := .parsed 100 }, ())
  else none

/-- The mode of the configuration. -/
def issuerMode : AuthMode Unit := .jwt oneKey none (some "a") none [] false

/-- A write request with the bearer token of one byte. -/
def postWith (token : UInt8) : Request where
  method := .post
  authorization := some [66, 101, 97, 114, 101, 114, 32, token]

/-- A token that states the expected issuer is trustworthy when it is let through. -/
theorem jwt_acceptance_example : ∃ token,
    extractBearer (postWith 115).authorization = some token ∧
      Trustworthy issuerLibrary (fun _ => none) issuerConfig oneKey ⟨0, 50⟩ token := by
  have hlib : issuerLibrary.Documented := Jsonwebtoken.documented_ofTable _
  have hconfig : AuthMode.fromConfig (fun _ => []) (fun _ => none) (fun _ => .ok oneKey)
      (some issuerConfig) = .ok issuerMode := rfl
  have haccept : requireAuth issuerLibrary (fun _ => []) ⟨0, 50⟩ issuerMode (postWith 115) =
      .ok () := rfl
  obtain ⟨token, htoken, hiff⟩ := jwt_acceptance hlib hconfig rfl haccept
  refine ⟨token, htoken, hiff.mpr fun p hp => ?_⟩
  obtain rfl : "s" = token := Option.some.inj htoken
  obtain rfl : (_ : Payload) = p := Option.some.inj hp
  exact ⟨by decide, fun _ => ⟨"a", rfl⟩, fun h => absurd rfl h⟩

/-- A token without an issuer is let through under a configuration with one. -/
theorem jwt_acceptance_fails :
    AuthMode.fromConfig (fun _ => []) (fun _ => none) (fun _ => .ok oneKey) (some issuerConfig) =
      .ok issuerMode ∧
    requireAuth issuerLibrary (fun _ => []) ⟨0, 50⟩ issuerMode (postWith 116) = .ok () ∧
    ¬∃ token, extractBearer (postWith 116).authorization = some token ∧
      Trustworthy issuerLibrary (fun _ => none) issuerConfig oneKey ⟨0, 50⟩ token := by
  refine ⟨rfl, rfl, ?_⟩
  rintro ⟨token, htoken, htrust⟩
  obtain rfl : "t" = token := Option.some.inj htoken
  obtain ⟨p, hp, -, -, hiss, -⟩ := htrust.claims
  obtain rfl : (_ : Payload) = p := Option.some.inj hp
  exact absurd (hiss "a" rfl) (by decide)

end Leaderboards.Auth
