import Leaderboards.Webhooks
import Leaderboards.Library.Glob

/-!
# Board filters

The loader accepts the patterns that have no star before their last letter
(`validateBoardPattern_iff`), and on these `globMatch` is glob matching (`globMatch_iff`). On every
other pattern it is not (`globMatch_misreads`): the check at startup is exactly as strict as the
matcher needs.

**`board_filter_iff_glob`**: of a configuration that the loader accepts, every board filter lets
through exactly the slugs that one of its patterns matches, or every slug if it is empty.
-/

namespace Leaderboards

/-- The slug matches the pattern, where a star stands for any text. -/
def Globs (pattern slug : String) : Prop := Glob.Matches '*' pattern.toList slug.toList

/-- The pattern has no star, except perhaps for its last letter. -/
def StarOnlyLast (pattern : String) : Prop := '*' ∉ pattern.toList.dropLast

instance (pattern : String) : Decidable (StarOnlyLast pattern) :=
  inferInstanceAs (Decidable (¬_))

/-! ### The shapes of a pattern -/

theorem starOnlyLast_of_stem {pattern stem : String} (h : stripSuffix pattern '*' = some stem) :
    StarOnlyLast pattern ↔ '*' ∉ stem.toList := by
  have hp := stripSuffix_eq_some h
  rw [StarOnlyLast, hp, List.dropLast_concat]

/-- A text that does not end with a star has a star in the middle if it has one at all. -/
theorem starOnlyLast_of_none {pattern : String} (h : stripSuffix pattern '*' = none) :
    StarOnlyLast pattern ↔ '*' ∉ pattern.toList := by
  have hlast := stripSuffix_eq_none h
  rw [StarOnlyLast]
  rcases List.eq_nil_or_concat pattern.toList with hp | ⟨l, c, hp⟩
  · simp [hp]
  · rw [List.concat_eq_append] at hp
    rw [hp, List.getLast?_append, List.getLast?_singleton] at hlast
    have hc : '*' ≠ c := fun hc => hlast (by rw [hc]; rfl)
    rw [hp, List.dropLast_concat, List.mem_append, List.mem_singleton, or_iff_left hc]

theorem starOnlyLast_star : StarOnlyLast "*" := by decide

/-! ### The check -/

/-- The check of one pattern fails with the error that names it, or returns. -/
theorem validateBoardPattern_eq (i : ℕ) (pattern : String) : validateBoardPattern i pattern =
    if StarOnlyLast pattern then .ok () else .error (unsupportedPattern i pattern) := by
  rw [validateBoardPattern]
  by_cases hstar : pattern = "*"
  · subst hstar
    rw [if_pos rfl, if_pos starOnlyLast_star]
  rw [if_neg hstar]
  cases hs : stripSuffix pattern '*' with
  | some stem =>
    have hiff := starOnlyLast_of_stem hs
    by_cases hmem : '*' ∈ stem.toList
    · simp [hiff, containsChar, hmem]
    · simp [hiff, containsChar, hmem]
  | none =>
    have hiff := starOnlyLast_of_none hs
    by_cases hmem : '*' ∈ pattern.toList
    · simp [hiff, containsChar, hmem]
    · simp [hiff, containsChar, hmem]

theorem validateBoardPattern_iff (i : ℕ) (pattern : String) :
    validateBoardPattern i pattern = .ok () ↔ StarOnlyLast pattern := by
  rw [validateBoardPattern_eq]
  split
  · simp [*]
  · simp [*]

/-- A loop over checks returns when every check does. -/
theorem forM_eq_ok_iff {α ε : Type} {check : α → Except ε Unit} {l : List α} :
    l.forM check = .ok () ↔ ∀ x ∈ l, check x = .ok () := by
  induction l with
  | nil => simp [pure, Except.pure]
  | cons x l ih =>
    rw [List.forall_mem_cons, ← ih, List.forM_eq_forM, List.forM_cons]
    cases hx : check x with
    | error e => simp [bind, Except.bind]
    | ok u => simp [bind, Except.bind]

/-- A loop over checks fails with the error of one of them. -/
theorem exists_of_forM_eq_error {α ε : Type} {check : α → Except ε Unit} {l : List α} {e : ε}
    (h : l.forM check = .error e) : ∃ x ∈ l, check x = .error e := by
  induction l with
  | nil => simp [pure, Except.pure] at h
  | cons x l ih =>
    rw [List.forM_eq_forM, List.forM_cons] at h
    cases hx : check x with
    | error e' =>
      rw [hx] at h
      obtain rfl : e' = e := by simpa [bind, Except.bind] using h
      exact ⟨x, List.mem_cons_self, hx⟩
    | ok u =>
      rw [hx] at h
      obtain ⟨y, hy, hcheck⟩ := ih h
      exact ⟨y, List.mem_cons_of_mem x hy, hcheck⟩

theorem validateWebhookBoardPatterns_iff (webhooks : List WebhookConfig) :
    validateWebhookBoardPatterns webhooks = .ok () ↔
      ∀ wh ∈ webhooks, ∀ pattern ∈ wh.boards, StarOnlyLast pattern := by
  rw [validateWebhookBoardPatterns, forM_eq_ok_iff]
  constructor
  · intro h wh hwh pattern hpattern
    obtain ⟨i, hi⟩ := List.mem_iff_getElem?.mp hwh
    have hboards := h (wh, i) (List.mem_zipIdx_iff_getElem?.mpr hi)
    exact (validateBoardPattern_iff i pattern).mp (forM_eq_ok_iff.mp hboards pattern hpattern)
  · rintro h ⟨wh, i⟩ hx
    have hwh : wh ∈ webhooks := List.fst_mem_of_mem_zipIdx hx
    refine forM_eq_ok_iff.mpr fun pattern hpattern => ?_
    exact (validateBoardPattern_iff i pattern).mpr (h wh hwh pattern hpattern)

/-- The error of the loader names a webhook and one of its patterns that has a star before its
last letter. -/
theorem validateWebhookBoardPatterns_error {webhooks : List WebhookConfig} {e : Error}
    (h : validateWebhookBoardPatterns webhooks = .error e) :
    ∃ i wh pattern, webhooks[i]? = some wh ∧ pattern ∈ wh.boards ∧ ¬StarOnlyLast pattern ∧
      e = unsupportedPattern i pattern := by
  obtain ⟨⟨wh, i⟩, hx, hboards⟩ := exists_of_forM_eq_error h
  obtain ⟨pattern, hpattern, hcheck⟩ := exists_of_forM_eq_error hboards
  rw [validateBoardPattern_eq] at hcheck
  split at hcheck
  · simp at hcheck
  · rename_i hstar
    have he : unsupportedPattern i pattern = e := by simpa using hcheck
    exact ⟨i, wh, pattern, List.mem_zipIdx_iff_getElem?.mp hx, hpattern, hstar, he.symm⟩

/-! ### The matcher -/

/-- On the patterns that the loader accepts the matcher is glob matching. -/
theorem globMatch_iff {pattern : String} (h : StarOnlyLast pattern) (slug : String) :
    globMatch pattern slug = true ↔ Globs pattern slug := by
  rw [globMatch, Globs]
  by_cases hstar : pattern = "*"
  · subst hstar
    rw [if_pos rfl]
    exact iff_of_true rfl (Glob.Matches.lone_star slug.toList)
  rw [if_neg hstar]
  cases hs : stripSuffix pattern '*' with
  | some stem =>
    have hstem := (starOnlyLast_of_stem hs).mp h
    rw [stripSuffix_eq_some hs, Glob.Matches.trailing_iff hstem]
    exact startsWith_iff
  | none =>
    have hliteral := (starOnlyLast_of_none hs).mp h
    rw [Glob.Matches.literal_iff hliteral, decide_eq_true_iff]
    exact String.toList_inj.symm

/-- On a pattern that the loader rejects the matcher is not glob matching: the pattern matches
the text without its stars, and the matcher misses it. -/
theorem globMatch_misreads {pattern : String} (h : ¬StarOnlyLast pattern) :
    ∃ slug, Globs pattern slug ∧ globMatch pattern slug = false := by
  have hfree : '*' ∉ pattern.toList.filter fun c => decide (c ≠ '*') := by simp
  refine ⟨String.ofList (pattern.toList.filter fun c => decide (c ≠ '*')), ?_, ?_⟩
  · rw [Globs, String.toList_ofList]
    exact Glob.Matches.without_stars pattern.toList
  have hstar : pattern ≠ "*" := by
    rintro rfl
    exact h starOnlyLast_star
  rw [globMatch, if_neg hstar]
  cases hs : stripSuffix pattern '*' with
  | some stem =>
    have hstem : '*' ∈ stem.toList := not_not.mp (mt (starOnlyLast_of_stem hs).mpr h)
    rw [Bool.eq_false_iff]
    intro hprefix
    have hle := startsWith_iff.mp hprefix
    rw [String.toList_ofList] at hle
    exact hfree (hle.subset hstem)
  | none =>
    have hmem : '*' ∈ pattern.toList := not_not.mp (mt (starOnlyLast_of_none hs).mpr h)
    refine decide_eq_false fun heq => hfree ?_
    rw [heq, String.toList_ofList] at hmem
    exact hmem

/-- The filter of a webhook whose patterns the loader accepts. -/
theorem matchesBoardFilter_iff {patterns : List String}
    (h : ∀ pattern ∈ patterns, StarOnlyLast pattern) (slug : String) :
    matchesBoardFilter patterns slug = true ↔
      patterns = [] ∨ ∃ pattern ∈ patterns, Globs pattern slug := by
  rw [matchesBoardFilter]
  cases patterns with
  | nil => simp
  | cons p ps =>
    have hglob : ∀ pattern ∈ p :: ps, (globMatch pattern slug = true ↔ Globs pattern slug) :=
      fun pattern hp => globMatch_iff (h pattern hp) slug
    simp only [List.isEmpty_cons, Bool.false_eq_true, if_false, List.any_eq_true, reduceCtorEq,
      false_or]
    exact exists_congr fun pattern => and_congr_right (hglob pattern)

/-! ### The main result -/

/-- The loader accepts a pattern when it has no star except perhaps for its last letter, and a
configuration when it accepts all patterns. The board filters of an accepted configuration let
through the slugs that they match as globs, and an empty filter lets through every slug. -/
theorem board_filter_iff_glob (webhooks : List WebhookConfig) :
    (∀ i pattern, validateBoardPattern i pattern = .ok () ↔ StarOnlyLast pattern) ∧
      (validateWebhookBoardPatterns webhooks = .ok () ↔
        ∀ wh ∈ webhooks, ∀ pattern ∈ wh.boards, StarOnlyLast pattern) ∧
      (validateWebhookBoardPatterns webhooks = .ok () → ∀ wh ∈ webhooks, ∀ slug,
        (matchesBoardFilter wh.boards slug = true ↔
          wh.boards = [] ∨ ∃ pattern ∈ wh.boards, Globs pattern slug)) := by
  refine ⟨validateBoardPattern_iff, validateWebhookBoardPatterns_iff webhooks, ?_⟩
  intro haccepted wh hwh slug
  have hboards := (validateWebhookBoardPatterns_iff webhooks).mp haccepted wh hwh
  exact matchesBoardFilter_iff hboards slug

/-- A webhook for two families of boards. -/
def sportsWebhook : WebhookConfig where
  url := "https://hooks.example.com/sports"
  events := [.versionCreated]
  boards := ["dc-*", "nfl-rankings"]

theorem board_filter_iff_glob_sports :
    matchesBoardFilter ["dc-*", "nfl-rankings"] "dc-pizza" = true ↔
      ["dc-*", "nfl-rankings"] = [] ∨
        ∃ pattern ∈ ["dc-*", "nfl-rankings"], Globs pattern "dc-pizza" :=
  (board_filter_iff_glob [sportsWebhook]).2.2 (by decide) sportsWebhook (by simp) "dc-pizza"

/-! ### Who is told -/

end Leaderboards
