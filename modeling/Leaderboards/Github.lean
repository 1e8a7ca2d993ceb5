import Leaderboards.Auth.Middleware
import Leaderboards.Data.Json

/-!
# `routes/webhooks.rs`: the push webhook

GitHub reports pushes to `POST /webhooks/github`. The request is authenticated by the HMAC of its
body alone; the bearer tokens play no part. What is answered is decided before anything happens:
either a response, or the push that a background task then syncs. HMAC-SHA256 and the JSON parser
come from outside.
-/

namespace Leaderboards.Github

open Auth (HeaderMap HeaderValue ConfigValue)

/-- The value of a hexadecimal digit. -/
def hexValue (c : Char) : Option ℕ :=
  if '0' ≤ c ∧ c ≤ '9' then some (c.toNat - 48)
  else if 'a' ≤ c ∧ c ≤ 'f' then some (c.toNat - 87)
  else if 'A' ≤ c ∧ c ≤ 'F' then some (c.toNat - 55)
  else none

/-- `hex::decode`: digits in either case, two for each byte. -/
def hexDecode : List Char → Option (List UInt8)
  | [] => some []
  | [_] => none
  | high :: low :: rest => do
    let h ← hexValue high
    let l ← hexValue low
    let bytes ← hexDecode rest
    some (UInt8.ofNat (16 * h + l) :: bytes)

/-- The digits of a byte, in lower case. -/
def hexByte (b : UInt8) : List Char :=
  [Nat.digitChar (b.toNat / 16), Nat.digitChar (b.toNat % 16)]

/-- `SyncConfig`. -/
structure SyncConfig where
  repoPath : Option String := none
  webhookSecret : Option ConfigValue := none
  syncBranch : Option String := none

/-- A response with its status and its JSON body. -/
structure Response where
  status : ℕ
  body : Json
deriving DecidableEq

/-- The response `{ "error": message }`. -/
def Response.error (status : ℕ) (message : String) : Response :=
  ⟨status, .obj [("error", .str message)]⟩

/-- The response that says why an event is ignored. -/
def Response.ignored (reason : String) : Response :=
  ⟨200, .obj [("ignored", .bool true), ("reason", .str reason)]⟩

/-- The response to an accepted push. -/
def Response.queued : Response := ⟨202, .obj [("status", .str "sync queued")]⟩

/-- What `run_sync` is called with. -/
structure Push where
  repoPath : String
  branch : String
  note : Option String
deriving DecidableEq

/-- HMAC-SHA256 of some bytes under a key. -/
abbrev Hmac := List UInt8 → List UInt8 → List UInt8

section

variable (hmac : Hmac)

/-- `verify_signature`. -/
def verifySignature (secret : String) (body : List UInt8) (signature : List Char) : Bool :=
  match "sha256=".toList.isPrefixOf signature, hexDecode (signature.drop 7) with
  | true, some expected => expected = hmac secret.toUTF8.toList body
  | _, _ => false

variable (env : String → Option String) (parseJson : List UInt8 → Option Json)

/-- A header that has to be there, as text. -/
def requireHeader (headers : HeaderMap) (name missing invalid : String) :
    Except Response (List Char) :=
  match headers.get name with
  | none => .error (.error 400 missing)
  | some value =>
    match value.toStr with
    | none => .error (.error 400 invalid)
    | some text => .ok text

/-- The webhook secret. -/
def webhookSecret (config : Option SyncConfig) : Except Response String :=
  match config.bind SyncConfig.webhookSecret with
  | none => .error (.error 500 "webhook processing failed")
  | some value =>
    match value.resolve env with
    | .error _ => .error (.error 500 "webhook processing failed")
    | .ok secret => .ok secret

/-- The path of the repository. -/
def repoPath (config : Option SyncConfig) : Except Response String :=
  match config.bind SyncConfig.repoPath with
  | none => .error (.error 500 "webhook processing failed")
  | some path => .ok path

/-- The commit message of a push payload. -/
def commitMessage (payload : Json) : Option String :=
  ((payload.get "head_commit").bind (Json.get "message")).bind Json.asStr

/-- The part of `github` that reads the body of a push event. -/
def readPush (config : Option SyncConfig) (repoPath : String) (body : List UInt8) :
    Except Response Push :=
  match parseJson body with
  | none => .error (.error 400 "invalid JSON payload")
  | some payload =>
    let branch := (config.bind SyncConfig.syncBranch).getD "main"
    match (payload.get "ref").bind Json.asStr with
    | none => .error (.error 400 "missing 'ref' field in push payload")
    | some ref =>
      if ref ≠ "refs/heads/" ++ branch then .error (.ignored "branch mismatch")
      else .ok { repoPath, branch, note := commitMessage payload }

/-- `webhooks::github`: an answer, or a push to sync, which is answered with
`Response.queued`. -/
def github (config : Option SyncConfig) (headers : HeaderMap) (body : List UInt8) :
    Except Response Push := do
  let secret ← webhookSecret env config
  let path ← repoPath config
  let signature ← requireHeader headers "x-hub-signature-256"
    "missing X-Hub-Signature-256 header" "invalid signature header"
  if verifySignature hmac secret body signature = false then
    .error (.error 401 "invalid signature")
  else
    let event ← requireHeader headers "x-github-event"
      "missing X-GitHub-Event header" "invalid X-GitHub-Event header"
    if event = "push".toList then readPush parseJson config path body
    else if event = "ping".toList then .error ⟨200, .obj [("pong", .bool true)]⟩
    else .error (.ignored "event type not handled")

end

end Leaderboards.Github
