import Leaderboards.Library.Delimited

/-!
# The tokens of a statement

A statement is read from left to right: blanks separate, a quote opens a delimited identifier
(doubled quotes stand for one quote, the first undoubled quote closes), letters, digits and
underscores make up a word as far as they go, and every other character stands for itself.
Constants, comments and operators of several characters are not told apart: they do not begin in
the statements that the service builds from a name.
-/

namespace Leaderboards

/-- A token of a statement. -/
inductive SqlToken
  | word (text : String)
  | delimited (name : String)
  | symbol (c : Char)
deriving DecidableEq

def isSqlBlank (c : Char) : Bool := c = ' ' ∨ c = '\t' ∨ c = '\n' ∨ c = '\r'

def isWordChar (c : Char) : Bool := c.isAlphanum ∨ c = '_'

/-- The tokens of a text; `none` if a delimited identifier is not closed. -/
def sqlTokens : List Char → Option (List SqlToken)
  | [] => some []
  | c :: rest =>
    if isSqlBlank c then sqlTokens rest
    else if c = '"' then
      match _h : Delimited.readBody '"' rest with
      | some (name, rest') => (sqlTokens rest').map (.delimited (String.ofList name) :: ·)
      | none => none
    else if isWordChar c then
      (sqlTokens (rest.dropWhile isWordChar)).map
        (.word (String.ofList (c :: rest.takeWhile isWordChar)) :: ·)
    else (sqlTokens rest).map (.symbol c :: ·)
termination_by s => s.length
decreasing_by
  · simp
  · have hlt := Delimited.length_readBody _h
    simp only [List.length_cons]
    omega
  · have hle : (rest.dropWhile isWordChar).length ≤ rest.length :=
      (List.dropWhile_sublist isWordChar).length_le
    simp only [List.length_cons]
    omega
  · simp

@[simp] theorem sqlTokens_nil : sqlTokens [] = some [] := by rw [sqlTokens]

/-- Blanks only separate. -/
theorem sqlTokens_blank (s : List Char) : sqlTokens (' ' :: s) = sqlTokens s := by
  rw [sqlTokens, if_pos (by decide)]

/-- A comma is a token. -/
theorem sqlTokens_comma (s : List Char) :
    sqlTokens (',' :: s) = (sqlTokens s).map (.symbol ',' :: ·) := by
  rw [sqlTokens, if_neg (by decide), if_neg (by decide), if_neg (by decide)]

/-- A word ends where no letter, digit or underscore follows. -/
theorem sqlTokens_word {w s : List Char} (hne : w ≠ []) (hword : w.all isWordChar = true)
    (hs : ∀ c ∈ s.head?, isWordChar c = false) :
    sqlTokens (w ++ s) = (sqlTokens s).map (.word (String.ofList w) :: ·) := by
  obtain ⟨c, w, rfl⟩ := List.exists_cons_of_ne_nil hne
  have hw : ∀ d ∈ c :: w, isWordChar d = true := List.all_eq_true.mp hword
  have hc : isWordChar c = true := hw c List.mem_cons_self
  have hrest : ∀ d ∈ w, isWordChar d = true := fun d hd => hw d (List.mem_cons_of_mem c hd)
  have hblank : ¬isSqlBlank c = true := by
    intro hb
    have h : c = ' ' ∨ c = '\t' ∨ c = '\n' ∨ c = '\r' := by simpa [isSqlBlank] using hb
    rcases h with rfl | rfl | rfl | rfl <;> exact absurd hc (by decide)
  have hquote : c ≠ '"' := by
    rintro rfl
    exact absurd hc (by decide)
  have hstop : s.takeWhile isWordChar = [] ∧ s.dropWhile isWordChar = s := by
    cases s with
    | nil => simp
    | cons d s => simp [hs d rfl]
  rw [List.cons_append, sqlTokens, if_neg hblank, if_neg hquote, if_pos hc,
    List.takeWhile_append_of_pos hrest, List.dropWhile_append_of_pos hrest, hstop.1, hstop.2,
    List.append_nil]

/-- A word before a blank. -/
theorem sqlTokens_word_blank {w : String} (s : List Char) (hne : w.toList ≠ [])
    (hw : w.toList.all isWordChar = true) :
    sqlTokens (w.toList ++ ' ' :: s) = (sqlTokens s).map (.word w :: ·) := by
  have hblank : ∀ c ∈ (' ' :: s).head?, isWordChar c = false := by
    intro c hc
    obtain rfl : ' ' = c := by simpa using hc
    decide
  rw [sqlTokens_word hne hw hblank, sqlTokens_blank, String.ofList_toList]

/-- A name between quotes, doubled inside, is one token. -/
theorem sqlTokens_enclose (name : String) {s : List Char} (hs : s.head? ≠ some '"') :
    sqlTokens (Delimited.enclose '"' name.toList ++ s) =
      (sqlTokens s).map (.delimited name :: ·) := by
  have hread : Delimited.readBody '"' (Delimited.escape '"' name.toList ++ '"' :: s) =
      some (name.toList, s) := Delimited.readBody_escape name.toList hs
  have htext : Delimited.enclose '"' name.toList ++ s =
      '"' :: (Delimited.escape '"' name.toList ++ '"' :: s) := by
    simp [Delimited.enclose]
  rw [htext, sqlTokens, if_neg (by decide), if_pos rfl]
  split
  · rename_i name' s' h
    obtain ⟨rfl, rfl⟩ : name' = name.toList ∧ s' = s := by simpa [hread, eq_comm] using h
    rw [String.ofList_toList]
  · rename_i h
    simp [hread] at h

end Leaderboards
