import Leaderboards.Auth.Jsonwebtoken
import Leaderboards.Library.Program

/-!
# `auth.rs`

The middleware in front of all routes. Write requests need the admin token or a valid JWT with
the required role; reads are open unless the configuration says otherwise. The keyed hash of API
tokens and the token library come from outside: `mac` is HMAC-SHA256 with the fixed key. A
refused request is answered with status 401 and the given message.
-/

namespace Leaderboards.Auth

/-- The methods of a request. -/
inductive Method
  | get | head | options | post | put | patch | delete
  | other (name : String)
deriving DecidableEq

/-- The methods that read. -/
def Method.isRead (m : Method) : Bool := m = get ∨ m = head ∨ m = options

/-- The bytes of a header value. -/
abbrev HeaderValue := List UInt8

/-- The headers of a request: names in lower case, the values of one name in order. -/
structure HeaderMap where
  entries : List (String × HeaderValue)

/-- `HeaderMap::get`: the first value of a name. -/
def HeaderMap.get (headers : HeaderMap) (name : String) : Option HeaderValue :=
  headers.entries.lookup name

/-- What `require_auth` looks at in a request. -/
structure Request where
  method : Method
  /-- The first `authorization` header. -/
  authorization : Option HeaderValue

/-- A request with these headers. -/
def HeaderMap.request (headers : HeaderMap) (method : Method) : Request where
  method := method
  authorization := headers.get "authorization"

/-- `to_str` of a header value: visible ASCII characters, blanks and tabs only. -/
def HeaderValue.toStr (value : HeaderValue) : Option (List Char) :=
  if value.all fun b => (32 ≤ b ∧ b < 127) ∨ b = 9 then
    some (value.map fun b => Char.ofNat b.toNat)
  else none

/-- `extract_bearer_from_headers`: the scheme counts in any case. -/
def extractBearer (authorization : Option HeaderValue) : Option Token := do
  let value ← authorization.bind HeaderValue.toStr
  if 7 < value.length ∧ (value.take 7).map Char.toLower = "bearer ".toList then
    some (String.ofList (value.drop 7))
  else none

/-! ### The key cache -/

/-- `JWKS_MAX_STALE_SECS`. -/
def jwksMaxStaleSecs : ℕ := 7200

/-- The clocks of the process: the monotonic one, in nanoseconds, and the time of day, in
seconds. -/
structure Clock where
  instant : ℕ
  timestamp : ℕ

/-- `JwksCache`: the key and the algorithm of each kid. -/
structure JwksCache (Key : Type) where
  keys : String → Option (Key × Algorithm)
  lastRefresh : ℕ

/-- `JwksCache::get_key`. -/
def JwksCache.getKey {Key : Type} (cache : JwksCache Key) (clock : Clock) (kid : String) :
    Except String (Option (Key × Algorithm)) :=
  if jwksMaxStaleSecs < (clock.instant - cache.lastRefresh) / 1000000000 then
    .error "JWKS cache is stale — refresh has been failing"
  else .ok (cache.keys kid)

/-! ### Configuration -/

/-- A text of the configuration, or the name of an environment variable. -/
structure ConfigValue where
  text : String
deriving DecidableEq

/-- `ConfigValue::resolve`. -/
def ConfigValue.resolve (env : String → Option String) (v : ConfigValue) : Except String String :=
  if "env:".toList.isPrefixOf v.text.toList then
    let name := String.ofList (v.text.toList.drop 4)
    match env name with
    | some value => .ok value
    | none => .error s!"configuration error: environment variable {name} not set"
  else .ok v.text

/-- `AuthConfig`. -/
structure AuthConfig where
  jwksUrl : Option String := none
  requiredRole : Option String := none
  expectedIssuer : Option String := none
  expectedAudience : Option String := none
  adminToken : Option ConfigValue := none
  apiToken : Option ConfigValue := none
  readTokens : List ConfigValue := []
  requireReadAuth : Bool := false

/-- A keyed hash. -/
abbrev Mac := Token → List UInt8

/-- `AuthMode`. -/
inductive AuthMode (Key : Type)
  | noAuth
  | jwt (jwksCache : JwksCache Key) (requiredRole expectedIssuer expectedAudience : Option String)
      (readTokenHashes : List (List UInt8)) (requireReadAuth : Bool)
  | apiToken (adminTokenHash : List UInt8) (readTokenHashes : List (List UInt8))
      (requireReadAuth : Bool)

/-- The admin token, under its name or its older one. -/
def effectiveAdminToken (auth : AuthConfig) : Except String (Option ConfigValue) :=
  match auth.adminToken, auth.apiToken with
  | some _, some _ => .error
      "auth config: admin_token and api_token are mutually exclusive (api_token is a legacy alias for admin_token)"
  | some t, none => .ok (some t)
  | none, some t => .ok (some t)
  | none, none => .ok none

/-- The hashes of the read tokens. -/
def readTokenHashes (mac : Mac) (env : String → Option String) :
    List ConfigValue → Except String (List (List UInt8))
  | [] => .ok []
  | t :: ts => do
    let resolved ← t.resolve env
    let hashes ← readTokenHashes mac env ts
    .ok (mac resolved :: hashes)

/-- `AuthMode::from_config`; `fetch` is the first refresh of the cache. -/
def AuthMode.fromConfig {Key : Type} (mac : Mac) (env : String → Option String)
    (fetch : String → Except String (JwksCache Key)) :
    Option AuthConfig → Except String (AuthMode Key)
  | none => .ok .noAuth
  | some auth => do
    let admin ← effectiveAdminToken auth
    let hashes ← readTokenHashes mac env auth.readTokens
    match auth.jwksUrl, admin with
    | some _, some _ =>
      .error "auth config: jwks_url and admin_token/api_token are mutually exclusive"
    | some url, none =>
      let cache ← fetch url
      .ok (.jwt cache auth.requiredRole auth.expectedIssuer auth.expectedAudience hashes
        auth.requireReadAuth)
    | none, some tokenVal =>
      let token ← tokenVal.resolve env
      .ok (.apiToken (mac token) hashes auth.requireReadAuth)
    | none, none =>
      if ¬hashes = [] ∨ auth.requireReadAuth = true ∨ auth.requiredRole.isSome then
        .error "auth config: auth fields (read_tokens, require_read_auth, or required_role) set without admin_token or jwks_url — no auth mechanism is configured"
      else .ok .noAuth

/-! ### Checking a request -/

section

variable {Key : Type} (lib : Jsonwebtoken Key) (mac : Mac) (clock : Clock)

/-- `verify_token`. -/
def verifyToken (incoming : Token) (expectedHash : List UInt8) : Bool := mac incoming = expectedHash

/-- `is_read_token`. -/
def isReadToken (incoming : Token) (readTokenHashes : List (List UInt8)) : Bool :=
  readTokenHashes.any (verifyToken mac incoming)

/-- The validation that `validate_jwt` asks the library for. -/
def jwtValidation (expectedAlg : Algorithm) (expectedIssuer expectedAudience : Option String) :
    Validation :=
  { Validation.new expectedAlg with
    validateExp := true
    validateNbf := true
    iss := expectedIssuer.map fun iss => [iss]
    aud := expectedAudience.map fun aud => [aud]
    validateAud := expectedAudience.isSome }

/-- The roles contain the required one, if there is one. -/
def hasRole (roles : Option (List String)) : Option String → Bool
  | none => true
  | some role => roles.any fun rs => rs.any fun r => r = role

/-- `Option::ok_or_else`. -/
def okOr {α : Type} (x : Option α) (message : String) : Except String α :=
  match x with
  | some a => .ok a
  | none => .error message

/-- `Result::map_err` with a text in front. -/
def context {α : Type} (text : String) : Except String α → Except String α
  | .ok a => .ok a
  | .error e => .error (text ++ e)

/-- `validate_jwt`. -/
def validateJwt (token : Token) (jwksCache : JwksCache Key)
    (requiredRole expectedIssuer expectedAudience : Option String) : Except String Unit := do
  let header ← context "invalid JWT: " (lib.decodeHeader token)
  let kid ← okOr header.kid "JWT missing kid header"
  let found ← jwksCache.getKey clock kid
  let key ← okOr found "unknown signing key"
  if header.alg ≠ key.2 then .error "JWT algorithm mismatch"
  else
    let claims ← context "JWT validation failed: "
      (lib.decode token key.1 (jwtValidation key.2 expectedIssuer expectedAudience) clock.timestamp)
    if hasRole claims.roles requiredRole then .ok () else .error "insufficient permissions"

/-- `require_auth`: the request goes on, or is refused with a message. -/
def requireAuth (mode : AuthMode Key) (request : Request) : Except String Unit :=
  let isRead := request.method.isRead
  match mode with
  | .noAuth => .ok ()
  | .apiToken adminTokenHash readTokenHashes requireReadAuth =>
    if isRead ∧ ¬requireReadAuth then .ok ()
    else do
      let token ← okOr (extractBearer request.authorization)
        "missing or invalid Authorization header"
      if verifyToken mac token adminTokenHash then .ok ()
      else if isRead ∧ isReadToken mac token readTokenHashes then .ok ()
      else if ¬isRead ∧ isReadToken mac token readTokenHashes then
        .error "read-only tokens cannot perform write operations"
      else .error (if isRead then "invalid API token" else
        "write operations require an admin token")
  | .jwt jwksCache requiredRole expectedIssuer expectedAudience readTokenHashes requireReadAuth =>
    if isRead ∧ ¬requireReadAuth then .ok ()
    else do
      let token ← okOr (extractBearer request.authorization)
        "missing or invalid Authorization header"
      if isRead ∧ isReadToken mac token readTokenHashes then .ok ()
      else if ¬isRead ∧ isReadToken mac token readTokenHashes then
        .error "read-only tokens cannot perform write operations"
      else
        let roleToCheck := if isRead then none else requiredRole
        validateJwt lib clock token jwksCache roleToCheck expectedIssuer expectedAudience

/-- `has_write_auth`: whether a connection that is upgraded with these headers may write. -/
def hasWriteAuth (mode : AuthMode Key) (headers : HeaderMap) : Bool :=
  match mode with
  | .noAuth => true
  | .apiToken adminTokenHash _ _ =>
    match extractBearer (headers.get "authorization") with
    | none => false
    | some token => verifyToken mac token adminTokenHash
  | .jwt jwksCache requiredRole expectedIssuer expectedAudience _ _ =>
    match extractBearer (headers.get "authorization") with
    | none => false
    | some token =>
      (validateJwt lib clock token jwksCache requiredRole expectedIssuer
        expectedAudience).toOption.isSome

end

/-! ### What a valid token is -/

section

open Interaction.Prog

variable {Key α : Type}

@[simp] theorem okOr_ok {x : Option α} {message : String} {a : α} :
    okOr x message = .ok a ↔ x = some a := by
  cases x <;> simp [okOr]

@[simp] theorem context_ok {text : String} {x : Except String α} {a : α} :
    context text x = .ok a ↔ x = .ok a := by
  cases x <;> simp [context]

theorem JwksCache.getKey_ok {cache : JwksCache Key} {clock : Clock} {kid : String}
    {found : Option (Key × Algorithm)} (h : cache.getKey clock kid = .ok found) :
    cache.keys kid = found := by
  unfold getKey at h
  split at h
  · cases h
  · exact Except.ok.inj h

/-- **What `validate_jwt` accepts**: the key and the algorithm of the kid are in the cache, the
algorithm is the one of the header, the library decodes the token with them, and the roles
contain the required one. -/
theorem validateJwt_ok {lib : Jsonwebtoken Key} {clock : Clock} {token : Token}
    {cache : JwksCache Key} {role issuer audience : Option String}
    (h : validateJwt lib clock token cache role issuer audience = .ok ()) :
    ∃ header kid key claims, lib.decodeHeader token = .ok header ∧ header.kid = some kid ∧
      cache.keys kid = some (key, header.alg) ∧
      lib.decode token key (jwtValidation header.alg issuer audience) clock.timestamp =
        .ok claims ∧ hasRole claims.roles role = true := by
  simp only [validateJwt, except_bind_ok, context_ok, okOr_ok] at h
  obtain ⟨header, hheader, kid, hkid, found, hfound, ⟨key, alg⟩, rfl, h⟩ := h
  split at h
  · cases h
  · rename_i halg
    obtain rfl : header.alg = alg := Decidable.not_not.mp halg
    obtain ⟨claims, hdecode, h⟩ := except_bind_ok.mp h
    split at h
    · rename_i hrole
      exact ⟨header, kid, key, claims, hheader, hkid, JwksCache.getKey_ok hfound,
        context_ok.mp hdecode, hrole⟩
    · cases h

/-- **What `require_auth` lets through in JWT mode**, other than reads: a bearer token that is not
a read token and that `validate_jwt` accepts with the required role. -/
theorem requireAuth_jwt {lib : Jsonwebtoken Key} {mac : Mac} {clock : Clock}
    {cache : JwksCache Key} {role issuer audience : Option String} {hashes : List (List UInt8)}
    {requireReadAuth : Bool} {request : Request} (hread : request.method.isRead = false)
    (h : requireAuth lib mac clock (.jwt cache role issuer audience hashes requireReadAuth)
      request = .ok ()) :
    ∃ token, extractBearer request.authorization = some token ∧
      isReadToken mac token hashes = false ∧
      validateJwt lib clock token cache role issuer audience = .ok () := by
  simp only [requireAuth, hread, Bool.false_eq_true, false_and, if_false, except_bind_ok, okOr_ok,
    not_false_eq_true, true_and] at h
  obtain ⟨token, htoken, h⟩ := h
  split at h
  · cases h
  · rename_i hnot
    exact ⟨token, htoken, Bool.not_eq_true _ ▸ hnot, h⟩

end

end Leaderboards.Auth
