import Mathlib.Data.Nat.Notation

/-!
# The token library

`auth.rs` leaves the decoding of tokens to a library, which is a parameter here:
`Jsonwebtoken` is its interface, and `Documented` says what its documentation promises of
`decode`. A claim that is absent, or that does not have the type of its name, is never compared
with anything; only the claims in `requiredSpecClaims` have to be there.

`ofTable` is a library for a given set of tokens, with the checks of `decode` spelled out.
-/

namespace Leaderboards.Auth

/-- A token, as it stands in the header. -/
abbrev Token := String

/-- `Algorithm`. -/
inductive Algorithm
  | hs256 | hs384 | hs512
  | es256 | es384
  | rs256 | rs384 | rs512
  | ps256 | ps384 | ps512
  | edDsa
deriving DecidableEq

/-- The header of a token. -/
structure Header where
  alg : Algorithm
  kid : Option String
deriving DecidableEq

/-- A registered claim of a payload. -/
inductive TryParse (α : Type)
  | parsed (a : α)
  | failedToParse
  | notPresent
deriving DecidableEq

/-- The value of `iss` or `aud`: one name or several. -/
inductive Principals
  | single (name : String)
  | multiple (names : List String)
deriving DecidableEq

/-- The name is among them. -/
def Principals.Has (name : String) : Principals → Prop
  | single n => n = name
  | multiple ns => name ∈ ns

/-- The claims of a token. -/
structure Payload where
  exp : TryParse ℕ := .notPresent
  nbf : TryParse ℕ := .notPresent
  iss : TryParse Principals := .notPresent
  aud : TryParse Principals := .notPresent
  sub : Option String := none
  roles : Option (List String) := none
deriving DecidableEq

/-- The claims that `auth.rs` deserializes. -/
structure Claims where
  sub : Option String
  roles : Option (List String)
deriving DecidableEq

/-- What to check when decoding. -/
structure Validation where
  algorithms : List Algorithm
  requiredSpecClaims : List String
  /-- In seconds. -/
  leeway : ℕ
  validateExp : Bool
  validateNbf : Bool
  validateAud : Bool
  iss : Option (List String)
  aud : Option (List String)
deriving DecidableEq

/-- `Validation::new`. -/
def Validation.new (alg : Algorithm) : Validation where
  algorithms := [alg]
  requiredSpecClaims := ["exp"]
  leeway := 60
  validateExp := true
  validateNbf := false
  validateAud := true
  iss := none
  aud := none

/-- The interface of the library, for a type of keys. -/
structure Jsonwebtoken (Key : Type) where
  /-- `decode_header`. -/
  decodeHeader : Token → Except String Header
  /-- The signature of the token is right for the key and the algorithm. -/
  verify : Token → Key → Algorithm → Bool
  /-- The payload of the token, when it has one. -/
  payload : Token → Option Payload
  /-- `decode::<Claims>`, at a time in seconds. -/
  decode : Token → Key → Validation → ℕ → Except String Claims

/-- What is documented of a successful `decode`. -/
structure Jsonwebtoken.Documented {Key : Type} (lib : Jsonwebtoken Key) : Prop where
  signature : ∀ {token key v now c}, lib.decode token key v now = .ok c →
    ∃ h, lib.decodeHeader token = .ok h ∧ h.alg ∈ v.algorithms ∧ lib.verify token key h.alg = true
  claims : ∀ {token key v now c}, lib.decode token key v now = .ok c →
    ∃ p, lib.payload token = some p ∧ c = ⟨p.sub, p.roles⟩
  required : ∀ {token key v now c p}, lib.decode token key v now = .ok c →
    lib.payload token = some p → "exp" ∈ v.requiredSpecClaims → ∃ e, p.exp = .parsed e
  exp : ∀ {token key v now c p e}, lib.decode token key v now = .ok c →
    lib.payload token = some p → v.validateExp = true → p.exp = .parsed e → now ≤ e + v.leeway
  nbf : ∀ {token key v now c p n}, lib.decode token key v now = .ok c →
    lib.payload token = some p → v.validateNbf = true → p.nbf = .parsed n → n ≤ now + v.leeway
  iss : ∀ {token key v now c p names name}, lib.decode token key v now = .ok c →
    lib.payload token = some p → v.iss = some names → p.iss = .parsed (.single name) →
    name ∈ names
  aud : ∀ {token key v now c p names ps}, lib.decode token key v now = .ok c →
    lib.payload token = some p → v.validateAud = true → v.aud = some names →
    p.aud = .parsed ps → ∃ name ∈ names, ps.Has name

/-! ### A library for given tokens -/

/-- Some of the names are there. -/
def Principals.hasAny (names : List String) : Principals → Bool
  | single n => names.contains n
  | multiple ns => names.any fun n => ns.contains n

theorem Principals.hasAny_iff {names : List String} {ps : Principals} :
    ps.hasAny names = true ↔ ∃ name ∈ names, ps.Has name := by
  cases ps with
  | single n => simp [hasAny, Has]
  | multiple ns => simp [hasAny, Has]

/-- The time of expiry passes the validation. -/
def Payload.expPasses (p : Payload) (v : Validation) (now : ℕ) : Bool :=
  match p.exp with
  | .parsed e => !v.validateExp || decide (now ≤ e + v.leeway)
  | _ => !v.requiredSpecClaims.contains "exp"

/-- The time from which the token is valid passes the validation. -/
def Payload.nbfPasses (p : Payload) (v : Validation) (now : ℕ) : Bool :=
  match p.nbf with
  | .parsed n => !v.validateNbf || decide (n ≤ now + v.leeway)
  | _ => true

/-- The issuer passes the validation. -/
def Payload.issPasses (p : Payload) (v : Validation) : Bool :=
  match p.iss, v.iss with
  | .parsed ps, some names => ps.hasAny names
  | _, _ => true

/-- The audience passes the validation. -/
def Payload.audPasses (p : Payload) (v : Validation) : Bool :=
  match p.aud, v.aud with
  | .parsed ps, some names => !v.validateAud || ps.hasAny names
  | _, _ => true

/-- The registered claims of a payload pass the validation. -/
def Payload.passes (p : Payload) (v : Validation) (now : ℕ) : Bool :=
  p.expPasses v now && p.nbfPasses v now && p.issPasses v && p.audPasses v

/-- A library that knows the tokens of a table, each with its header, its payload and the key it
is signed with. -/
def Jsonwebtoken.ofTable {Key : Type} [DecidableEq Key]
    (table : Token → Option (Header × Payload × Key)) : Jsonwebtoken Key where
  decodeHeader token := match table token with
    | some (h, _) => .ok h
    | none => .error "InvalidToken"
  verify token key alg := (table token).any fun x => x.1.alg = alg ∧ x.2.2 = key
  payload token := (table token).map fun x => x.2.1
  decode token key v now := match table token with
    | some (h, p, k) =>
      if h.alg ∈ v.algorithms ∧ k = key ∧ p.passes v now = true then .ok ⟨p.sub, p.roles⟩
      else .error "InvalidToken"
    | none => .error "InvalidToken"

/-- It decodes a token that is in the table and passes the checks. -/
theorem Jsonwebtoken.ofTable_decode {Key : Type} [DecidableEq Key]
    {table : Token → Option (Header × Payload × Key)} {token : Token} {key : Key} {v : Validation}
    {now : ℕ} {c : Claims} (h : (ofTable table).decode token key v now = .ok c) :
    ∃ hd p, table token = some (hd, p, key) ∧ hd.alg ∈ v.algorithms ∧ p.passes v now = true ∧
      c = ⟨p.sub, p.roles⟩ := by
  simp only [ofTable] at h
  split at h
  · rename_i hd p k htable
    split at h
    · rename_i hchecks
      obtain ⟨halg, rfl, hpass⟩ := hchecks
      exact ⟨hd, p, htable, halg, hpass, (Except.ok.inj h).symm⟩
    · cases h
  · cases h

/-- The library of a table keeps the documentation. -/
theorem Jsonwebtoken.documented_ofTable {Key : Type} [DecidableEq Key]
    (table : Token → Option (Header × Payload × Key)) : (ofTable table).Documented := by
  have hpasses : ∀ {token key v now c p}, (ofTable table).decode token key v now = .ok c →
      (ofTable table).payload token = some p → p.expPasses v now = true ∧
        p.nbfPasses v now = true ∧ p.issPasses v = true ∧ p.audPasses v = true := by
    intro token key v now c p h hp
    obtain ⟨hd, p', htable, -, hpass, -⟩ := ofTable_decode h
    simp only [ofTable, htable, Option.map_some, Option.some.injEq] at hp
    subst hp
    simpa [Payload.passes, and_assoc] using hpass
  constructor
  · intro token key v now c h
    obtain ⟨hd, p, htable, halg, -⟩ := ofTable_decode h
    exact ⟨hd, by simp [ofTable, htable], halg, by simp [ofTable, htable]⟩
  · intro token key v now c h
    obtain ⟨hd, p, htable, -, -, rfl⟩ := ofTable_decode h
    exact ⟨p, by simp [ofTable, htable], rfl⟩
  · intro token key v now c p h hp hrequired
    obtain ⟨hexp, -⟩ := hpasses h hp
    rcases he : p.exp with e | _ | _
    · exact ⟨e, rfl⟩
    · simp [Payload.expPasses, he, hrequired] at hexp
    · simp [Payload.expPasses, he, hrequired] at hexp
  · intro token key v now c p e h hp hvalidate he
    obtain ⟨hexp, -⟩ := hpasses h hp
    simpa [Payload.expPasses, he, hvalidate] using hexp
  · intro token key v now c p n h hp hvalidate hn
    obtain ⟨-, hnbf, -⟩ := hpasses h hp
    simpa [Payload.nbfPasses, hn, hvalidate] using hnbf
  · intro token key v now c p names name h hp hnames hname
    obtain ⟨-, -, hiss, -⟩ := hpasses h hp
    simpa [Payload.issPasses, hname, hnames, Principals.hasAny] using hiss
  · intro token key v now c p names ps h hp hvalidate hnames hps
    obtain ⟨-, -, -, haud⟩ := hpasses h hp
    rw [← Principals.hasAny_iff]
    simpa [Payload.audPasses, hps, hnames, hvalidate] using haud

end Leaderboards.Auth
