import Mathlib.Data.List.Basic

/-!
# Delimited text

A text between two delimiters in which a doubled delimiter stands for one delimiter, as in quoted
identifiers and literals. `enclose` writes it, and `read` reads it off the front of a text.

**`read_enclose`**: what is written is read back, whatever letters the text has and whatever
follows, as long as that does not begin with another delimiter.
-/

namespace Delimited

variable {α : Type} [DecidableEq α]

/-- Every delimiter twice. -/
def escape (delimiter : α) (text : List α) : List α :=
  text.flatMap fun c => if c = delimiter then [delimiter, delimiter] else [c]

/-- The text between delimiters. -/
def enclose (delimiter : α) (text : List α) : List α :=
  delimiter :: (escape delimiter text ++ [delimiter])

/-- Read from behind the opening delimiter: the text up to the first delimiter that is not
doubled, and what follows it. -/
def readBody (delimiter : α) : List α → Option (List α × List α)
  | [] => none
  | [c] => if c = delimiter then some ([], []) else none
  | c :: d :: rest =>
    if c = delimiter then
      if d = delimiter then (readBody delimiter rest).map fun x => (delimiter :: x.1, x.2)
      else some ([], d :: rest)
    else (readBody delimiter (d :: rest)).map fun x => (c :: x.1, x.2)

/-- Read a delimited text off the front. -/
def read (delimiter : α) : List α → Option (List α × List α)
  | [] => none
  | c :: rest => if c = delimiter then readBody delimiter rest else none

variable {delimiter : α}

@[simp] theorem escape_nil : escape delimiter [] = [] := rfl

theorem escape_cons_self (text : List α) :
    escape delimiter (delimiter :: text) = delimiter :: delimiter :: escape delimiter text := by
  simp [escape]

theorem escape_cons_of_ne {c : α} (hc : c ≠ delimiter) (text : List α) :
    escape delimiter (c :: text) = c :: escape delimiter text := by
  simp [escape, hc]

/-- A closing delimiter, when no other delimiter follows. -/
theorem readBody_close {rest : List α} (hrest : rest.head? ≠ some delimiter) :
    readBody delimiter (delimiter :: rest) = some ([], rest) := by
  cases rest with
  | nil => simp [readBody]
  | cons d rest =>
    have hd : d ≠ delimiter := fun h => hrest (by rw [h, List.head?_cons])
    simp [readBody, hd]

theorem readBody_doubled (rest : List α) :
    readBody delimiter (delimiter :: delimiter :: rest) =
      (readBody delimiter rest).map fun x => (delimiter :: x.1, x.2) := by
  rw [readBody, if_pos rfl, if_pos rfl]

theorem readBody_letter {c : α} (hc : c ≠ delimiter) (rest : List α) :
    readBody delimiter (c :: rest) =
      (readBody delimiter rest).map fun x => (c :: x.1, x.2) := by
  cases rest with
  | nil => simp [readBody, hc]
  | cons d rest => rw [readBody, if_neg hc]

/-- The escaped text ends at the closing delimiter. By induction on the text: a delimiter in it
was doubled, so that the reader never stops early. -/
theorem readBody_escape (text : List α) {rest : List α} (hrest : rest.head? ≠ some delimiter) :
    readBody delimiter (escape delimiter text ++ delimiter :: rest) = some (text, rest) := by
  induction text with
  | nil => exact readBody_close hrest
  | cons c text ih =>
    by_cases hc : c = delimiter
    · subst hc
      rw [escape_cons_self, List.cons_append, List.cons_append, readBody_doubled, ih]
      rfl
    · rw [escape_cons_of_ne hc, List.cons_append, readBody_letter hc, ih]
      rfl

/-- What is written between delimiters is read back. -/
theorem read_enclose (text : List α) {rest : List α} (hrest : rest.head? ≠ some delimiter) :
    read delimiter (enclose delimiter text ++ rest) = some (text, rest) := by
  rw [enclose, List.cons_append, List.append_assoc, List.singleton_append, read, if_pos rfl]
  exact readBody_escape text hrest

/-- Reading takes at least the closing delimiter. -/
theorem length_readBody {s text rest : List α} (h : readBody delimiter s = some (text, rest)) :
    rest.length < s.length := by
  fun_induction readBody delimiter s generalizing text with
  | case1 => simp at h
  | case2 => simp_all
  | case3 => simp at h
  | case4 rest' ih =>
    -- a doubled delimiter
    obtain ⟨⟨text', rest''⟩, hread, hx⟩ := Option.map_eq_some_iff.mp h
    obtain rfl : rest'' = rest := congrArg Prod.snd hx
    have hlt := ih hread
    simp only [List.length_cons]
    omega
  | case5 => simp_all
  | case6 c d rest' hc ih =>
    -- another letter
    obtain ⟨⟨text', rest''⟩, hread, hx⟩ := Option.map_eq_some_iff.mp h
    obtain rfl : rest'' = rest := congrArg Prod.snd hx
    have hlt := ih hread
    simp only [List.length_cons] at hlt ⊢
    omega

end Delimited
