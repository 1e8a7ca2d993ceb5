import Mathlib.Data.List.Basic

/-!
# Glob patterns

A pattern is a word in which one letter, the `star`, stands for any word; every other letter
stands for itself. `Glob.Matches star p w` says that `p` matches `w`.

Two kinds of pattern can be decided without a search: one without stars matches only itself, and
one whose only star is its last letter matches the words that begin with the rest of it
(`Matches.literal_iff`, `Matches.trailing_iff`). Every pattern matches what is left of it without
its stars (`Matches.without_stars`).
-/

namespace Glob

variable {α : Type} {star : α}

/-- The pattern matches the word, from left to right. -/
inductive Matches (star : α) : List α → List α → Prop
  | nil : Matches star [] []
  | letter {c : α} {p w : List α} (hc : c ≠ star) (h : Matches star p w) :
      Matches star (c :: p) (c :: w)
  | any {p w : List α} (s : List α) (h : Matches star p w) : Matches star (star :: p) (s ++ w)

namespace Matches

/-- The empty pattern matches only the empty word. -/
@[simp] theorem nil_iff {w : List α} : Matches star [] w ↔ w = [] := by
  constructor
  · intro h
    generalize hq : ([] : List α) = q at h
    cases h with
    | nil => rfl
    | letter _ _ => simp at hq
    | any _ _ => simp at hq
  · rintro rfl
    exact nil

/-- A letter other than the star matches itself. -/
theorem letter_iff {c : α} {p w : List α} (hc : c ≠ star) :
    Matches star (c :: p) w ↔ ∃ v, w = c :: v ∧ Matches star p v := by
  constructor
  · intro h
    generalize hq : c :: p = q at h
    cases h with
    | nil => simp at hq
    | letter _ h =>
      obtain ⟨rfl, rfl⟩ := List.cons.inj hq
      exact ⟨_, rfl, h⟩
    | any _ _ => exact absurd (List.cons.inj hq).1 hc
  · rintro ⟨v, rfl, h⟩
    exact letter hc h

/-- A literal beginning of a pattern matches itself. -/
theorem literal_append_iff {l p w : List α} (hl : star ∉ l) :
    Matches star (l ++ p) w ↔ ∃ v, w = l ++ v ∧ Matches star p v := by
  induction l generalizing w with
  | nil => simp
  | cons c l ih =>
    have hc : c ≠ star := fun h => hl (h ▸ List.mem_cons_self)
    have hrest : star ∉ l := fun h => hl (List.mem_cons_of_mem c h)
    rw [List.cons_append, letter_iff hc]
    constructor
    · rintro ⟨v, rfl, h⟩
      obtain ⟨u, rfl, hu⟩ := (ih hrest).mp h
      exact ⟨u, rfl, hu⟩
    · rintro ⟨u, rfl, hu⟩
      exact ⟨l ++ u, rfl, (ih hrest).mpr ⟨u, rfl, hu⟩⟩

/-- A pattern without stars matches only itself. -/
theorem literal_iff {l w : List α} (hl : star ∉ l) : Matches star l w ↔ l = w := by
  have h := literal_append_iff (p := []) (w := w) hl
  rw [List.append_nil] at h
  rw [h]
  constructor
  · rintro ⟨v, rfl, hv⟩
    rw [nil_iff.mp hv, List.append_nil]
  · rintro rfl
    exact ⟨[], by simp, nil⟩

/-- A lone star matches every word. -/
theorem lone_star (w : List α) : Matches star [star] w := by
  have h : Matches star [star] (w ++ []) := any w nil
  rwa [List.append_nil] at h

/-- A pattern whose only star is its last letter matches the words that begin with the rest. -/
theorem trailing_iff {l w : List α} (hl : star ∉ l) : Matches star (l ++ [star]) w ↔ l <+: w := by
  rw [literal_append_iff hl]
  constructor
  · rintro ⟨v, rfl, -⟩
    exact List.prefix_append l v
  · rintro ⟨v, rfl⟩
    exact ⟨v, rfl, lone_star v⟩

/-- A pattern matches the word that is left of it without its stars. -/
theorem without_stars [DecidableEq α] (p : List α) :
    Matches star p (p.filter fun c => decide (c ≠ star)) := by
  induction p with
  | nil => exact nil
  | cons c p ih =>
    by_cases hc : c = star
    · -- the star stands for nothing
      subst hc
      have h : Matches c (c :: p) ([] ++ p.filter fun d => decide (d ≠ c)) := any [] ih
      simpa using h
    · rw [List.filter_cons_of_pos (by simpa using hc)]
      exact letter hc ih

end Matches

end Glob
