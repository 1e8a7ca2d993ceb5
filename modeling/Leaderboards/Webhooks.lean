import Leaderboards.Auth.Middleware
import Leaderboards.Data.Models

/-!
# Outbound webhooks

The webhook section of the configuration with its check at startup (`config.rs`), and the choice of
the webhooks that are told of an event (`outbound_webhooks.rs`). A board filter is a list of
patterns. The loader accepts a star only at the end of a pattern, and the matcher reads only such
stars.
-/

namespace Leaderboards

open Auth (ConfigValue)

/-! ### Characters of a text -/

/-- `str::contains` of a character. -/
def containsChar (s : String) (c : Char) : Bool := c ∈ s.toList

/-- `str::strip_suffix` of a character: the text before it, if the text ends with it. -/
def stripSuffix (s : String) (c : Char) : Option String :=
  if s.toList.getLast? = some c then some (String.ofList s.toList.dropLast) else none

/-- `str::starts_with`. -/
def startsWith (s p : String) : Bool := p.toList.isPrefixOf s.toList

theorem startsWith_iff {s p : String} : startsWith s p = true ↔ p.toList <+: s.toList := by
  rw [startsWith, List.isPrefixOf_iff_prefix]

/-- What is stripped from a text is its last character. -/
theorem stripSuffix_eq_some {s p : String} {c : Char} (h : stripSuffix s c = some p) :
    s.toList = p.toList ++ [c] := by
  rw [stripSuffix] at h
  split at h
  · rename_i hlast
    obtain ⟨l, hl⟩ := List.getLast?_eq_some_iff.mp hlast
    obtain rfl := Option.some.inj h
    simp [hl]
  · simp at h

theorem stripSuffix_eq_none {s : String} {c : Char} (h : stripSuffix s c = none) :
    s.toList.getLast? ≠ some c := by
  intro hlast
  simp [stripSuffix, hlast] at h

/-! ### The configuration -/

/-- `WebhookEvent`. -/
inductive WebhookEvent
  | versionCreated
  | boardCreated
  | boardUpdated
  | boardDeleted
deriving DecidableEq

/-- `WebhookEvent::as_str`. -/
def WebhookEvent.asStr : WebhookEvent → String
  | versionCreated => "version.created"
  | boardCreated => "board.created"
  | boardUpdated => "board.updated"
  | boardDeleted => "board.deleted"

/-- `WebhookConfig`. -/
structure WebhookConfig where
  url : String
  events : List WebhookEvent
  boards : List String := []
  secret : Option ConfigValue := none
deriving DecidableEq

/-- The error for a star at an unsupported place in a pattern of webhook `i`. -/
def unsupportedPattern (i : ℕ) (pattern : String) : Error :=
  .config s!"webhooks[{i}]: board pattern \"{pattern}\" has unsupported '*' placement (only trailing '*' is supported, e.g., \"dc-*\")"

/-- The body of the loops of `validate_webhook_board_patterns`. -/
def validateBoardPattern (i : ℕ) (pattern : String) : Except Error Unit :=
  if pattern = "*" then .ok ()
  else
    match stripSuffix pattern '*' with
    | some stem =>
      if containsChar stem '*' then .error (unsupportedPattern i pattern) else .ok ()
    | none => if containsChar pattern '*' then .error (unsupportedPattern i pattern) else .ok ()

/-- `validate_webhook_board_patterns`, over the webhooks of the configuration. -/
def validateWebhookBoardPatterns (webhooks : List WebhookConfig) : Except Error Unit :=
  webhooks.zipIdx.forM fun (wh, i) => wh.boards.forM (validateBoardPattern i)

/-! ### The filter -/

/-- `glob_match`. -/
def globMatch (pattern value : String) : Bool :=
  if pattern = "*" then true
  else
    match stripSuffix pattern '*' with
    | some stem => startsWith value stem
    | none => pattern = value

/-- `matches_board_filter`. -/
def matchesBoardFilter (patterns : List String) (slug : String) : Bool :=
  if patterns.isEmpty then true else patterns.any fun pattern => globMatch pattern slug

/-! ### Firing -/

/-- `BoardInfo`. -/
structure BoardInfo where
  slug : String
  name : String
deriving DecidableEq

/-- `VersionInfo`. -/
structure VersionInfo where
  versionNumber : ℤ
  note : Option String
deriving DecidableEq

/-- `WebhookPayload`. -/
structure WebhookPayload where
  event : String
  timestamp : String
  board : BoardInfo
  version : Option VersionInfo
deriving DecidableEq

/-- A call of `deliver`: whom it is sent to, the payload, and the resolved secret. -/
structure Delivery where
  url : String
  payload : WebhookPayload
  secret : Option String
deriving DecidableEq

/-- The secret that signs a delivery, if the webhook has one and it can be read. -/
def resolveSecret (env : String → Option String) :
    Option ConfigValue → Except String (Option String)
  | some cv => (cv.resolve env).map some
  | none => .ok none

/-- `fire`: the deliveries that are spawned. A webhook whose secret cannot be read is skipped. -/
def fire (env : String → Option String) (rfc3339 : ℕ → String) (now : ℕ)
    (configs : List WebhookConfig) (event : WebhookEvent) (boardSlug boardName : String)
    (versionInfo : Option VersionInfo) (timestamp : Option ℕ) : List Delivery :=
  let payload : WebhookPayload :=
    { event := event.asStr
      timestamp := rfc3339 (timestamp.getD now)
      board := ⟨boardSlug, boardName⟩
      version := versionInfo }
  configs.filterMap fun config =>
    if ¬event ∈ config.events then none
    else if ¬matchesBoardFilter config.boards boardSlug = true then none
    else
      match resolveSecret env config.secret with
      | .ok secret => some ⟨config.url, payload, secret⟩
      | .error _ => none

end Leaderboards
