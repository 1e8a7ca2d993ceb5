import Leaderboards.Data.Models

/-!
# The `jsonb` operators behind the tier lookup

The placement queries order by the position that the board's `tier_config` gives to the tier
of a placement:

`SELECT (t.obj->>'position')::int FROM jsonb_array_elements(b.tier_config->'tiers') AS t(obj)
 WHERE t.obj->>'key' = p.tier LIMIT 1`

`tierOrd` is that lateral query for one placement. SQL NULL is `none`; what raises an error in
the database is an `Except` error here. `LIMIT 1` stops at the first match, so only the
position of that element is cast.
-/

namespace Leaderboards

/-- `x -> key` with a text key: NULL unless `x` is an object with that member. -/
def arrow (key : String) (x : Option Json) : Option Json := x.bind (Json.get key)

/-- The text `->>` makes of a member: NULL for null, the characters of a string, and the
output format of `jsonb` for everything else. -/
def Json.text : Json → Option String
  | .null => none
  | .str s => some s
  | j => some j.render

/-- `x ->> key` with a text key. -/
def arrowText (key : String) (x : Json) : Option String := (x.get key).bind Json.text

/-- `isspace` in the C locale. -/
def isSqlSpace (c : Char) : Bool :=
  c = ' ' ∨ c = '\t' ∨ c = '\n' ∨ c = '\r' ∨ c.toNat = 11 ∨ c.toNat = 12

/-- The value of a digit of a literal in base `base`. -/
def digitValue (base : ℕ) (c : Char) : Option ℕ :=
  let d :=
    if '0' ≤ c ∧ c ≤ '9' then c.toNat - '0'.toNat
    else if 'a' ≤ c ∧ c ≤ 'f' then c.toNat - 'a'.toNat + 10
    else if 'A' ≤ c ∧ c ≤ 'F' then c.toNat - 'A'.toNat + 10
    else base
  if d < base then some d else none

/-- Read digits, with single underscores between them, up to the first other character. -/
def scanDigits (base : ℕ) : ℕ → List Char → Option (ℕ × List Char)
  | acc, [] => some (acc, [])
  | acc, c :: cs =>
    match digitValue base c with
    | some d => scanDigits base (acc * base + d) cs
    | none =>
      if c = '_' then
        match cs with
        | next :: _ => if (digitValue base next).isSome then scanDigits base acc cs else none
        | [] => none
      else some (acc, c :: cs)

/-- The unsigned part of an integer literal and what follows it. -/
def scanInteger : List Char → Option (ℕ × List Char)
  | '0' :: x :: c :: cs =>
    if x = 'x' ∨ x = 'X' then scanBased 16 (c :: cs)
    else if x = 'o' ∨ x = 'O' then scanBased 8 (c :: cs)
    else if x = 'b' ∨ x = 'B' then scanBased 2 (c :: cs)
    else scanDigits 10 0 ('0' :: x :: c :: cs)
  | c :: cs => if (digitValue 10 c).isSome then scanDigits 10 0 (c :: cs) else none
  | [] => none
where
  /-- Digits after a base prefix; an underscore may come first. -/
  scanBased (base : ℕ) (cs : List Char) : Option (ℕ × List Char) :=
    match cs with
    | c :: _ => if (digitValue base c).isSome ∨ c = '_' then scanDigits base 0 cs else none
    | [] => none

/-- `text::int`: an integer literal, spaces around it, in the range of 32 bits. -/
def castInt4 (text : String) : Except DbError ℤ :=
  let cs := text.toList.dropWhile isSqlSpace
  let (negative, cs) := match cs with
    | '-' :: rest => (true, rest)
    | '+' :: rest => (false, rest)
    | _ => (false, cs)
  match scanInteger cs with
  | none => .error .invalidTextRepresentation
  | some (n, rest) =>
    if rest.all isSqlSpace then
      let value : ℤ := if negative then -n else n
      if -2147483648 ≤ value ∧ value ≤ 2147483647 then .ok value else .error .outOfRange
    else .error .invalidTextRepresentation

/-- `jsonb_array_elements`: no rows on NULL, an error on anything but an array. -/
def jsonbArrayElements : Option Json → Except DbError (List Json)
  | none => .ok []
  | some (.arr items) => .ok items
  | some _ => .error .notAnArray

/-- `(obj->>'position')::int`. -/
def tierPosition (obj : Json) : Except DbError (Option ℤ) :=
  match arrowText "position" obj with
  | none => .ok none
  | some text => (castInt4 text).map some

/-- The lateral query of the placement reads: the configured position of a tier. -/
def tierOrd (tierConfig : Option Json) (tier : Option String) : Except DbError (Option ℤ) :=
  match jsonbArrayElements (arrow "tiers" tierConfig) with
  | .error e => .error e
  | .ok items =>
    match items.find? fun obj => (arrowText "key" obj).isSome ∧ arrowText "key" obj = tier with
    | none => .ok none
    | some obj => tierPosition obj

/-! ### Casting what was rendered -/

private theorem digitValue_ten {c : Char} (h : c.isDigit = true) :
    digitValue 10 c = some (c.toNat - '0'.toNat) := by
  simp only [Char.isDigit, Bool.and_eq_true, decide_eq_true_eq] at h
  have hlo : '0' ≤ c := h.1
  have hhi : c ≤ '9' := h.2
  have hlt : c.toNat - '0'.toNat < 10 := by
    have hle : c.toNat ≤ '9'.toNat := hhi
    have h9 : '9'.toNat = 57 := rfl
    have h0 : '0'.toNat = 48 := rfl
    omega
  simp only [digitValue, hlo, hhi, and_self, if_true, if_pos hlt]

private theorem scanDigits_digits {cs : List Char} (h : ∀ c ∈ cs, c.isDigit = true) (acc : ℕ) :
    scanDigits 10 acc cs = some (Nat.ofDigitChars 10 cs acc, []) := by
  induction cs generalizing acc with
  | nil => simp [scanDigits]
  | cons c cs ih =>
    rw [scanDigits.eq_def]
    simp only [digitValue_ten (h c List.mem_cons_self), Nat.ofDigitChars_cons]
    rw [ih (fun d hd => h d (List.mem_cons_of_mem c hd)), Nat.mul_comm acc]

/-- A prefix letter is not a digit, so a run of digits is read in base ten. -/
private theorem scanInteger_digits {cs : List Char} (h : ∀ c ∈ cs, c.isDigit = true)
    (hne : cs ≠ []) : scanInteger cs = scanDigits 10 0 cs := by
  have hletter : ∀ x : Char, x.isDigit = true →
      ¬(x = 'x' ∨ x = 'X') ∧ ¬(x = 'o' ∨ x = 'O') ∧ ¬(x = 'b' ∨ x = 'B') := by
    intro x hx
    refine ⟨?_, ?_, ?_⟩ <;> rintro (rfl | rfl) <;> revert hx <;> decide
  unfold scanInteger
  split
  · rename_i x c cs
    obtain ⟨h₁, h₂, h₃⟩ := hletter x (h x (by simp))
    rw [if_neg h₁, if_neg h₂, if_neg h₃]
  · rename_i c cs _
    rw [if_pos (by rw [digitValue_ten (h c List.mem_cons_self)]; rfl)]
  · exact absurd rfl hne

private theorem scanInteger_toDigits (n : ℕ) :
    scanInteger (Nat.toDigits 10 n) = some (n, []) := by
  have hdigits : ∀ c ∈ Nat.toDigits 10 n, c.isDigit = true := fun c hc =>
    Nat.isDigit_of_mem_toDigits (by decide) (by decide) hc
  rw [scanInteger_digits hdigits Nat.toDigits_ne_nil, scanDigits_digits hdigits,
    Nat.ofDigitChars_ten_toDigits]

private theorem dropWhile_isSqlSpace_toDigits (n : ℕ) :
    (Nat.toDigits 10 n).dropWhile isSqlSpace = Nat.toDigits 10 n ∧
      ∀ rest, Nat.toDigits 10 n ≠ '-' :: rest ∧ Nat.toDigits 10 n ≠ '+' :: rest := by
  have hdigits : ∀ c ∈ Nat.toDigits 10 n, c.isDigit = true := fun c hc =>
    Nat.isDigit_of_mem_toDigits (by decide) (by decide) hc
  rcases hds : Nat.toDigits 10 n with _ | ⟨c, cs⟩
  · exact absurd hds Nat.toDigits_ne_nil
  · have hc : c.isDigit = true := hdigits c (by simp [hds])
    refine ⟨?_, fun rest => ⟨?_, ?_⟩⟩
    · have hspace : isSqlSpace c = false := by
        simp only [Char.isDigit, Bool.and_eq_true, decide_eq_true_eq] at hc
        have h48 : 48 ≤ c.toNat := hc.1
        simp only [isSqlSpace, decide_eq_false_iff_not, not_or]
        refine ⟨?_, ?_, ?_, ?_, ?_, ?_⟩ <;>
          first
          | rintro rfl; revert h48; decide
          | omega
      rw [List.dropWhile_cons, hspace]
      simp
    · rintro ⟨rfl, -⟩; revert hc; decide
    · rintro ⟨rfl, -⟩; revert hc; decide

/-- **An integer of 32 bits survives the way through text.** -/
theorem castInt4_toString {n : ℤ} (hlo : -2147483648 ≤ n) (hhi : n ≤ 2147483647) :
    castInt4 (toString n) = .ok n := by
  cases n with
  | ofNat m =>
    obtain ⟨hdrop, hsign⟩ := dropWhile_isSqlSpace_toDigits m
    have htext : (toString (Int.ofNat m)).toList = Nat.toDigits 10 m := by
      simp [toString, Int.repr, Nat.repr]
    have hmatch : (match Nat.toDigits 10 m with
        | '-' :: rest => (true, rest)
        | '+' :: rest => (false, rest)
        | _ => (false, Nat.toDigits 10 m)) = (false, Nat.toDigits 10 m) := by
      split
      · exact absurd ‹_› (hsign _).1
      · exact absurd ‹_› (hsign _).2
      · rfl
    simp only [castInt4, htext, hdrop, hmatch, scanInteger_toDigits]
    simp only [Int.ofNat_eq_natCast] at hlo hhi
    simp [hlo, hhi]
  | negSucc m =>
    have htext : (toString (Int.negSucc m)).toList = '-' :: Nat.toDigits 10 (m + 1) := by
      simp [toString, Int.repr, Nat.repr]
    have hdrop : ('-' :: Nat.toDigits 10 (m + 1)).dropWhile isSqlSpace =
        '-' :: Nat.toDigits 10 (m + 1) := by
      rw [List.dropWhile_cons, show isSqlSpace '-' = false by decide]
      simp
    have hvalue : -((m + 1 : ℕ) : ℤ) = Int.negSucc m := rfl
    simp only [castInt4, htext, hdrop, scanInteger_toDigits]
    simp only [List.all_nil, if_true, hvalue, hlo, hhi, and_self]

end Leaderboards
