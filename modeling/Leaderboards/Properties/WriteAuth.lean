import Leaderboards.Properties.JwtAcceptance
import Leaderboards.Ws

/-!
# Who may write

The policy for writes is coded twice, in `require_auth` and in `has_write_auth`. The two agree
except on one kind of token: in JWT mode the middleware refuses a read-only token before it looks
at the JWT, and `has_write_auth` does not look at the read-only tokens
(`one_write_rule`).

A configuration is meant to fail closed. `from_config` looks for settings without a mechanism, but
not for an issuer or an audience (`fails_closed`).
-/

namespace Leaderboards.Auth

open Interaction

variable {Key : Type}

section

variable (lib : Jsonwebtoken Key) (mac : Mac) (clock : Clock) (mode : AuthMode Key)
  (headers : HeaderMap)

/-- The middleware and the WebSocket handler follow one rule for writes with these headers. -/
structure OneWriteRule : Prop where
  agree : ∀ method : Method, method.isRead = false →
    (hasWriteAuth lib mac clock mode headers = true ↔
      requireAuth lib mac clock mode (headers.request method) = .ok ())
  /-- Who may not write over HTTP has no connection that submits. -/
  refused : ∀ method : Method, method.isRead = false →
    requireAuth lib mac clock mode (headers.request method) ≠ .ok () →
    ∀ wsEnabled subscription boardSlug connection,
      (Ws.stream lib mac clock mode wsEnabled subscription boardSlug headers).Returns connection →
      ∀ caller payload, connection.processScore caller payload =
        .ret (.error "unauthorized: score submission requires write access")
  /-- Who may write over HTTP has connections that submit. -/
  admitted : ∀ method : Method, method.isRead = false →
    requireAuth lib mac clock mode (headers.request method) = .ok () →
    ∀ wsEnabled subscription boardSlug connection,
      (Ws.stream lib mac clock mode wsEnabled subscription boardSlug headers).Returns connection →
      ∀ caller payload, connection.processScore caller payload =
        Ws.tryProcessScore caller connection.boardSlug payload true

/-- In JWT mode, the bearer token is one of the read-only tokens and also a JWT that is valid for
writes. -/
def ReadOnlyJwt : Prop :=
  match mode with
  | .jwt jwksCache requiredRole expectedIssuer expectedAudience readTokenHashes _ =>
    ∃ token, extractBearer (headers.get "authorization") = some token ∧
      isReadToken mac token readTokenHashes = true ∧
      validateJwt lib clock token jwksCache requiredRole expectedIssuer expectedAudience = .ok ()
  | _ => False

end

variable {lib : Jsonwebtoken Key} {mac : Mac} {clock : Clock} {mode : AuthMode Key}
  {headers : HeaderMap}

/-- What `has_write_auth` says in JWT mode. -/
theorem hasWriteAuth_jwt {cache : JwksCache Key} {role issuer audience : Option String}
    {hashes : List (List UInt8)} {requireReadAuth : Bool} :
    hasWriteAuth lib mac clock (.jwt cache role issuer audience hashes requireReadAuth) headers =
        true ↔
      ∃ token, extractBearer (headers.get "authorization") = some token ∧
        validateJwt lib clock token cache role issuer audience = .ok () := by
  simp only [hasWriteAuth]
  rcases extractBearer (headers.get "authorization") with _ | token
  · simp
  · rcases hvalid : validateJwt lib clock token cache role issuer audience with e | ⟨⟨⟩⟩
    · simp [hvalid, Except.toOption]
    · simp [hvalid, Except.toOption]

/-- What `require_auth` lets through in JWT mode, for writes. -/
theorem requireAuth_jwt_iff {cache : JwksCache Key} {role issuer audience : Option String}
    {hashes : List (List UInt8)} {requireReadAuth : Bool} {request : Request}
    (hwrite : request.method.isRead = false) :
    requireAuth lib mac clock (.jwt cache role issuer audience hashes requireReadAuth) request =
        .ok () ↔
      ∃ token, extractBearer request.authorization = some token ∧
        isReadToken mac token hashes = false ∧
        validateJwt lib clock token cache role issuer audience = .ok () := by
  refine ⟨requireAuth_jwt hwrite, ?_⟩
  rintro ⟨token, htoken, hread, hvalid⟩
  simp [requireAuth, hwrite, htoken, hread, hvalid, okOr, bind, Except.bind]

/-- What `require_auth` lets through in API token mode, for writes. -/
theorem requireAuth_apiToken_iff {adminTokenHash : List UInt8} {hashes : List (List UInt8)}
    {requireReadAuth : Bool} {request : Request} (hwrite : request.method.isRead = false) :
    requireAuth lib mac clock (.apiToken adminTokenHash hashes requireReadAuth) request = .ok () ↔
      ∃ token, extractBearer request.authorization = some token ∧
        verifyToken mac token adminTokenHash = true := by
  simp only [requireAuth, hwrite, Bool.false_eq_true, false_and, if_false, Prog.except_bind_ok,
    okOr_ok, not_false_eq_true, true_and]
  refine exists_congr fun token => and_congr_right fun _ => ?_
  split
  · simp [*]
  · split
    · simp [*]
    · simp [*]

/-- The two functions agree on a write exactly when the token is no read-only JWT. -/
theorem hasWriteAuth_iff {method : Method} (hwrite : method.isRead = false) :
    (hasWriteAuth lib mac clock mode headers = true ↔
        requireAuth lib mac clock mode (headers.request method) = .ok ()) ↔
      ¬ReadOnlyJwt lib mac clock mode headers := by
  have hrequest : (headers.request method).method.isRead = false := hwrite
  rcases mode with _ | ⟨cache, role, issuer, audience, hashes, requireReadAuth⟩ |
    ⟨adminTokenHash, hashes, requireReadAuth⟩
  · simp [hasWriteAuth, requireAuth, ReadOnlyJwt]
  · rw [hasWriteAuth_jwt, requireAuth_jwt_iff hrequest]
    constructor
    · rintro hiff ⟨token, htoken, hread, hvalid⟩
      obtain ⟨token', htoken', hread', -⟩ := hiff.mp ⟨token, htoken, hvalid⟩
      obtain rfl : token = token' := Option.some.inj (htoken.symm.trans htoken')
      rw [hread] at hread'
      exact absurd hread' (by decide)
    · intro hnot
      constructor
      · rintro ⟨token, htoken, hvalid⟩
        refine ⟨token, htoken, ?_, hvalid⟩
        by_contra hread
        exact hnot ⟨token, htoken, Bool.not_eq_false _ ▸ hread, hvalid⟩
      · rintro ⟨token, htoken, -, hvalid⟩
        exact ⟨token, htoken, hvalid⟩
  · rw [requireAuth_apiToken_iff hrequest]
    simp only [hasWriteAuth, ReadOnlyJwt, not_false_eq_true, iff_true, HeaderMap.request]
    rcases extractBearer (headers.get "authorization") with _ | token
    · simp
    · simp

/-- **One write rule.** For every mode, cache, time and header map, HTTP and WebSocket decide alike
on writes, and connections submit accordingly, exactly when the token is no read-only JWT. -/
theorem one_write_rule : OneWriteRule lib mac clock mode headers ↔
    ¬ReadOnlyJwt lib mac clock mode headers := by
  constructor
  · exact fun hrule => (hasWriteAuth_iff rfl).mp (hrule.agree .post rfl)
  · intro hnot
    refine ⟨fun method hwrite => (hasWriteAuth_iff hwrite).mpr hnot, ?_, ?_⟩
    · intro method hwrite hrefused _ _ _ connection hconnection caller payload
      have hauth := Ws.writeAuthorized_of_stream hconnection
      refine Ws.Connection.processScore_unauthorized ?_ caller payload
      rw [hauth, ← Bool.not_eq_true]
      exact fun hwriteAuth => hrefused (((hasWriteAuth_iff hwrite).mpr hnot).mp hwriteAuth)
    · intro method hwrite haccepted _ _ _ connection hconnection caller payload
      have hauth := Ws.writeAuthorized_of_stream hconnection
      unfold Ws.Connection.processScore
      rw [hauth, ((hasWriteAuth_iff hwrite).mpr hnot).mpr haccepted]

/-- The characters of a token, as a keyed hash. -/
def plainMac : Mac := fun token => token.toList.map fun c => c.toNat.toUInt8

/-- The token of one letter is a JWT under the key, and also configured as a read-only token. -/
def readOnlyConfig : AuthConfig where
  jwksUrl := some "u"
  readTokens := [⟨"t"⟩]

/-- The headers with this token. -/
def bearerHeaders : HeaderMap := ⟨[("authorization", [66, 101, 97, 114, 101, 114, 32, 116])]⟩

/-- A read-only token that is a JWT is refused over HTTP and admitted over WebSocket. -/
theorem one_write_rule_fails : ∃ mode,
    AuthMode.fromConfig plainMac (fun _ => none) (fun _ => .ok oneKey) (some readOnlyConfig) =
      .ok mode ∧
    requireAuth issuerLibrary plainMac ⟨0, 50⟩ mode (bearerHeaders.request .post) =
      .error "read-only tokens cannot perform write operations" ∧
    hasWriteAuth issuerLibrary plainMac ⟨0, 50⟩ mode bearerHeaders = true ∧
    ¬OneWriteRule issuerLibrary plainMac ⟨0, 50⟩ mode bearerHeaders := by
  refine ⟨.jwt oneKey none none none [[116]] false, rfl, rfl, rfl, fun hrule => ?_⟩
  have haccept := (hrule.agree .post rfl).mp rfl
  exact absurd haccept (by decide)

/-! ### Configurations that set something -/

/-- At least one setting is given. -/
def AuthConfig.Given (auth : AuthConfig) : Prop :=
  auth.jwksUrl.isSome ∨ auth.requiredRole.isSome ∨ auth.expectedIssuer.isSome ∨
    auth.expectedAudience.isSome ∨ auth.adminToken.isSome ∨ auth.apiToken.isSome ∨
    auth.readTokens ≠ [] ∨ auth.requireReadAuth = true

/-- A setting other than the issuer and the audience is given. -/
def AuthConfig.Noticed (auth : AuthConfig) : Prop :=
  auth.jwksUrl.isSome ∨ auth.requiredRole.isSome ∨ auth.adminToken.isSome ∨
    auth.apiToken.isSome ∨ auth.readTokens ≠ [] ∨ auth.requireReadAuth = true

/-- The configuration is rejected, or refuses every write without a bearer token. -/
def FailsClosed (lib : Jsonwebtoken Key) (mac : Mac) (env : String → Option String)
    (fetch : String → Except String (JwksCache Key)) (auth : AuthConfig) : Prop :=
  ∀ mode, AuthMode.fromConfig mac env fetch (some auth) = .ok mode →
    ∀ clock (request : Request), request.method.isRead = false →
      extractBearer request.authorization = none →
      requireAuth lib mac clock mode request = .error "missing or invalid Authorization header"

/-- A mode other than `NoAuth` refuses writes without a bearer token. -/
theorem requireAuth_no_bearer {request : Request} (hmode : mode ≠ .noAuth)
    (hwrite : request.method.isRead = false)
    (hbearer : extractBearer request.authorization = none) :
    requireAuth lib mac clock mode request = .error "missing or invalid Authorization header" := by
  rcases mode with _ | ⟨cache, role, issuer, audience, hashes, requireReadAuth⟩ |
    ⟨adminTokenHash, hashes, requireReadAuth⟩
  · exact absurd rfl hmode
  · simp [requireAuth, hwrite, hbearer, okOr, bind, Except.bind]
  · simp [requireAuth, hwrite, hbearer, okOr, bind, Except.bind]

/-- The hashes of no tokens are none, and those of some tokens are some. -/
theorem readTokenHashes_eq_nil {env : String → Option String} {tokens : List ConfigValue}
    {hashes : List (List UInt8)} (h : readTokenHashes mac env tokens = .ok hashes) :
    hashes = [] ↔ tokens = [] := by
  cases tokens with
  | nil =>
    obtain rfl := Except.ok.inj h
    simp
  | cons token tokens =>
    simp only [readTokenHashes, Prog.except_bind_ok] at h
    obtain ⟨resolved, -, rest, -, h⟩ := h
    obtain rfl := Except.ok.inj h
    simp

/-- The admin token, under whichever name, is there when one of the names is. -/
theorem effectiveAdminToken_ok {auth : AuthConfig} {admin : Option ConfigValue}
    (h : effectiveAdminToken auth = .ok admin) :
    admin.isSome = true ↔ auth.adminToken.isSome = true ∨ auth.apiToken.isSome = true := by
  simp only [effectiveAdminToken] at h
  split at h
  · cases h
  · rename_i hadminToken _
    obtain rfl := Except.ok.inj h
    simp [hadminToken]
  · rename_i hapiToken
    obtain rfl := Except.ok.inj h
    simp [hapiToken]
  · rename_i hadminToken hapiToken
    obtain rfl := Except.ok.inj h
    simp [hadminToken, hapiToken]

/-- **The configurations that switch authentication off**: those that give nothing but an issuer
and an audience. -/
theorem fromConfig_noAuth {env : String → Option String}
    {fetch : String → Except String (JwksCache Key)} {auth : AuthConfig} :
    AuthMode.fromConfig mac env fetch (some auth) = .ok .noAuth ↔ ¬auth.Noticed := by
  constructor
  · intro h
    simp only [AuthMode.fromConfig, Prog.except_bind_ok] at h
    obtain ⟨admin, hadmin, hashes, hhashes, h⟩ := h
    have hadmin := effectiveAdminToken_ok hadmin
    have hnil := readTokenHashes_eq_nil hhashes
    unfold AuthConfig.Noticed
    split at h
    · cases h
    · obtain ⟨cache, -, h⟩ := Prog.except_bind_ok.mp h
      cases h
    · obtain ⟨token, -, h⟩ := Prog.except_bind_ok.mp h
      cases h
    · rename_i hurl
      split at h
      · cases h
      · rename_i hrest
        simp_all
  · intro hnot
    obtain ⟨hurl, hrole, hadminToken, hapiToken, htokens, hread⟩ :
        auth.jwksUrl = none ∧ auth.requiredRole = none ∧ auth.adminToken = none ∧
          auth.apiToken = none ∧ auth.readTokens = [] ∧ auth.requireReadAuth = false := by
      simpa [AuthConfig.Noticed] using hnot
    simp [AuthMode.fromConfig, effectiveAdminToken, hurl, hrole, hadminToken, hapiToken, htokens,
      hread, readTokenHashes, bind, Except.bind]

/-- **Fail closed.** A configuration fails closed exactly when it gives some setting other than the
issuer and the audience. -/
theorem fails_closed (lib : Jsonwebtoken Key) (mac : Mac) (env : String → Option String)
    (fetch : String → Except String (JwksCache Key)) (auth : AuthConfig) :
    FailsClosed lib mac env fetch auth ↔ auth.Noticed := by
  constructor
  · intro hclosed
    by_contra hnot
    have hnone := hclosed _ (fromConfig_noAuth.mpr hnot) ⟨0, 0⟩ ⟨.post, none⟩ rfl rfl
    cases hnone
  · intro hnoticed mode hmode clock request hwrite hbearer
    refine requireAuth_no_bearer ?_ hwrite hbearer
    rintro rfl
    exact fromConfig_noAuth.mp hmode hnoticed

/-- An issuer alone is a setting, and switches authentication off. -/
theorem fails_closed_fails :
    AuthConfig.Given { expectedIssuer := some "https://issuer" } ∧
    ¬FailsClosed issuerLibrary plainMac (fun _ => none) (fun _ => .ok oneKey)
      { expectedIssuer := some "https://issuer" } := by
  refine ⟨by simp [AuthConfig.Given], fun hclosed => ?_⟩
  have hnone := hclosed .noAuth rfl ⟨0, 0⟩ ⟨.post, none⟩ rfl rfl
  cases hnone

end Leaderboards.Auth
