import Leaderboards.Data.Models

/-!
# Field validation

The checks of `repo/mod.rs` and `repo/boards.rs` on single fields. They return what the service
returns: the error with its message, or nothing. `slug.len()` and `name.len()` count bytes.
-/

namespace Leaderboards

/-- A byte that a slug may contain. -/
def isSlugChar (c : Char) : Bool :=
  ('a' ≤ c ∧ c ≤ 'z') ∨ ('0' ≤ c ∧ c ≤ '9') ∨ c = '-'

/-- `validate_slug`. -/
def validateSlug (slug : String) : Except Error Unit :=
  if slug.utf8ByteSize = 0 ∨ slug.utf8ByteSize > 128 then
    .error (.validation "slug must be 1-128 characters")
  else if ¬slug.toList.all isSlugChar then
    .error (.validation
      s!"slug '{slug}' must contain only lowercase letters, digits, and hyphens")
  else if slug.toList.head? = some '-' ∨ slug.toList.getLast? = some '-' then
    .error (.validation s!"slug '{slug}' must not start or end with a hyphen")
  else .ok ()

/-- `validate_name`. -/
def validateName (name : String) : Except Error Unit :=
  if name.utf8ByteSize = 0 then .error (.validation "name must not be empty")
  else if name.utf8ByteSize > 256 then
    .error (.validation "name must be 256 characters or fewer")
  else .ok ()

/-- `validate_board_type`. -/
def validateBoardType (boardType : String) : Except Error Unit :=
  if boardType = "ordered" ∨ boardType = "scored" ∨ boardType = "tiered" then .ok ()
  else .error (.validation
    s!"invalid board_type '{boardType}': must be 'ordered', 'scored', or 'tiered'")

/-- `validate_sort_direction`. -/
def validateSortDirection (sortDirection : String) : Except Error Unit :=
  if sortDirection = "asc" ∨ sortDirection = "desc" then .ok ()
  else .error (.validation s!"invalid sort_direction '{sortDirection}': must be 'asc' or 'desc'")

/-! ### Tier configurations -/

/-- The loop of `validate_tier_config` over the tiers from index `i` on. -/
def validateTiers (seenKeys : List String) (i : ℕ) : List Json → Except Error Unit
  | [] => .ok ()
  | tier :: rest =>
    match (tier.get "key").bind Json.asStr with
    | none => .error (.validation s!"tier_config.tiers[{i}] must have a string 'key'")
    | some key =>
      if key ∈ seenKeys then
        .error (.validation s!"tier_config has duplicate tier key '{key}'")
      else
        match (tier.get "position").bind Json.asI64 with
        | none => .error (.validation s!"tier_config.tiers[{i}] must have an integer 'position'")
        | some v =>
          if ¬(-2147483648 ≤ v ∧ v ≤ 2147483647) then
            .error (.validation
              s!"tier_config.tiers[{i}] position {v} is out of 32-bit integer range")
          else validateTiers (key :: seenKeys) (i + 1) rest

/-- `validate_tier_config`. -/
def validateTierConfig : Option Json → Except Error Unit
  | none => .error (.validation "tiered boards must have tier_config with a 'tiers' array")
  | some tc =>
    match (tc.get "tiers").bind Json.asArray with
    | none => .error (.validation "tier_config must have a 'tiers' array")
    | some [] => .error (.validation "tier_config.tiers must not be empty")
    | some (tier :: rest) => validateTiers [] 0 (tier :: rest)

/-- The tier has a key and a position that fits 32 bits. -/
def TierEntry (tier : Json) (key : String) (position : ℤ) : Prop :=
  (tier.get "key").bind Json.asStr = some key ∧
    (tier.get "position").bind Json.asI64 = some position ∧
    -2147483648 ≤ position ∧ position ≤ 2147483647

/-- What the loop of `validate_tier_config` checks: every tier has a new key and a position. -/
theorem validateTiers_ok {seenKeys : List String} {i : ℕ} {tiers : List Json}
    (h : validateTiers seenKeys i tiers = .ok ()) :
    (∀ tier ∈ tiers, ∃ key position, TierEntry tier key position ∧ key ∉ seenKeys) ∧
      tiers.Pairwise fun t t' => (t.get "key").bind Json.asStr ≠ (t'.get "key").bind
        Json.asStr := by
  induction tiers generalizing seenKeys i with
  | nil => simp
  | cons tier rest ih =>
    simp only [validateTiers] at h
    split at h
    · cases h
    · rename_i key hkey
      split at h
      · cases h
      · rename_i hnew
        split at h
        · cases h
        · rename_i v hv
          split at h
          · cases h
          · rename_i hrange
            rw [not_not] at hrange
            -- The rest was checked against this key, too.
            obtain ⟨hall, hpairs⟩ := ih h
            refine ⟨fun t ht => ?_, List.pairwise_cons.mpr ⟨fun t ht heq => ?_, hpairs⟩⟩
            · rcases List.mem_cons.mp ht with rfl | ht
              · exact ⟨key, v, ⟨hkey, hv, hrange⟩, hnew⟩
              · obtain ⟨key', v', hentry, hkey'⟩ := hall t ht
                exact ⟨key', v', hentry, fun hmem => hkey' (List.mem_cons_of_mem _ hmem)⟩
            · obtain ⟨key', v', ⟨hentry, -⟩, hkey'⟩ := hall t ht
              rw [hkey, hentry] at heq
              exact hkey' (Option.some.inj heq ▸ List.mem_cons_self)

/-- An accepted configuration is an array of such tiers. -/
theorem validateTierConfig_ok {tierConfig : Option Json}
    (h : validateTierConfig tierConfig = .ok ()) : ∃ tc tiers, tierConfig = some tc ∧
      tc.get "tiers" = some (.arr tiers) ∧
      (∀ tier ∈ tiers, ∃ key position, TierEntry tier key position) ∧
      tiers.Pairwise fun t t' => (t.get "key").bind Json.asStr ≠ (t'.get "key").bind
        Json.asStr := by
  unfold validateTierConfig at h
  split at h
  · cases h
  · rename_i tc
    split at h
    · cases h
    · cases h
    · rename_i tier rest htiers
      obtain ⟨j, hj, harr⟩ := Option.bind_eq_some_iff.mp htiers
      have hitems : j = .arr (tier :: rest) := by
        cases j <;> simp_all [Json.asArray]
      obtain ⟨hall, hpairs⟩ := validateTiers_ok h
      refine ⟨tc, tier :: rest, rfl, hitems ▸ hj, fun t ht => ?_, hpairs⟩
      obtain ⟨key, v, hentry, -⟩ := hall t ht
      exact ⟨key, v, hentry⟩

end Leaderboards
