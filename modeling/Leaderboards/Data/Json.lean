import Mathlib.Algebra.Ring.Int.Defs
import Mathlib.Data.List.Sort

/-!
# JSON values

`Json` models `serde_json::Value` as it travels through a `jsonb` column. A number is kept as
the decimal it prints as, `mantissa · 10⁻ˢᶜᵃˡᵉ`: an integer has scale `0`, and a float that
serializes as `1.0` is `num 10 1`, which is not an integer to `as_i64`. An object lists its
fields in key order, as the `BTreeMap` behind `serde_json::Map` iterates them.

`Json.render` is the text of a value in the output format of `jsonb`; the `->>` operator
returns it for everything but strings and null.
-/

namespace Leaderboards

/-- A JSON value. -/
inductive Json
  | null
  | bool (b : Bool)
  | num (mantissa : ℤ) (scale : ℕ)
  | str (s : String)
  | arr (items : List Json)
  | obj (fields : List (String × Json))

namespace Json

mutual

/-- Equality of values is decidable. -/
def decEq : (a b : Json) → Decidable (a = b)
  | .null, .null => isTrue rfl
  | .bool a, .bool b => decidable_of_iff (a = b) (by simp)
  | .num a s, .num b t => decidable_of_iff (a = b ∧ s = t) (by simp)
  | .str a, .str b => decidable_of_iff (a = b) (by simp)
  | .arr a, .arr b => match decEqItems a b with
    | isTrue h => isTrue (by rw [h])
    | isFalse h => isFalse (by simpa using h)
  | .obj a, .obj b => match decEqFields a b with
    | isTrue h => isTrue (by rw [h])
    | isFalse h => isFalse (by simpa using h)
  | .null, .bool _ | .null, .num .. | .null, .str _ | .null, .arr _ | .null, .obj _
  | .bool _, .null | .bool _, .num .. | .bool _, .str _ | .bool _, .arr _ | .bool _, .obj _
  | .num .., .null | .num .., .bool _ | .num .., .str _ | .num .., .arr _ | .num .., .obj _
  | .str _, .null | .str _, .bool _ | .str _, .num .. | .str _, .arr _ | .str _, .obj _
  | .arr _, .null | .arr _, .bool _ | .arr _, .num .. | .arr _, .str _ | .arr _, .obj _
  | .obj _, .null | .obj _, .bool _ | .obj _, .num .. | .obj _, .str _ | .obj _, .arr _ =>
    isFalse (by simp)

/-- Equality of array items is decidable. -/
def decEqItems : (a b : List Json) → Decidable (a = b)
  | [], [] => isTrue rfl
  | [], _ :: _ => isFalse (by simp)
  | _ :: _, [] => isFalse (by simp)
  | a :: as, b :: bs => match decEq a b, decEqItems as bs with
    | isTrue h, isTrue hs => isTrue (by rw [h, hs])
    | isFalse h, _ => isFalse (by simp [h])
    | _, isFalse hs => isFalse (by simp [hs])

/-- Equality of object fields is decidable. -/
def decEqFields : (a b : List (String × Json)) → Decidable (a = b)
  | [], [] => isTrue rfl
  | [], _ :: _ => isFalse (by simp)
  | _ :: _, [] => isFalse (by simp)
  | (k, a) :: as, (l, b) :: bs => match decEq a b, decEqFields as bs with
    | isTrue h, isTrue hs => decidable_of_iff (k = l) (by simp [h, hs])
    | isFalse h, _ => isFalse (by simp [h])
    | _, isFalse hs => isFalse (by simp [hs])

end

instance : DecidableEq Json := decEq

/-- An integer as a JSON number. -/
def int (n : ℤ) : Json := .num n 0

/-! ### The accessors of `serde_json::Value` -/

/-- `Value::get` with a string index: the member of an object. -/
def get (key : String) : Json → Option Json
  | .obj fields => (fields.find? fun f => f.1 = key).map Prod.snd
  | _ => none

/-- `Value::as_array`. -/
def asArray : Json → Option (List Json)
  | .arr items => some items
  | _ => none

/-- `Value::as_str`. -/
def asStr : Json → Option String
  | .str s => some s
  | _ => none

/-- `Value::as_i64`: an integer number in the range of `i64`. -/
def asI64 : Json → Option ℤ
  | .num n 0 => if -(2 ^ 63) ≤ n ∧ n < 2 ^ 63 then some n else none
  | _ => none

/-! ### Output format -/

/-- The decimal text of `mantissa · 10⁻ˢᶜᵃˡᵉ`. -/
def renderNum (mantissa : ℤ) : ℕ → String
  | 0 => toString mantissa
  | scale + 1 =>
    let digits := Nat.toDigits 10 mantissa.natAbs
    let padded := List.replicate (scale + 2 - digits.length) '0' ++ digits
    let point := padded.length - (scale + 1)
    (if mantissa < 0 then "-" else "") ++
      String.ofList (padded.take point ++ '.' :: padded.drop point)

/-- One character of a JSON string, escaped. -/
def escapeChar (c : Char) : List Char :=
  if c = '"' then ['\\', '"']
  else if c = '\\' then ['\\', '\\']
  else if c = '\n' then ['\\', 'n']
  else if c = '\r' then ['\\', 'r']
  else if c = '\t' then ['\\', 't']
  else if c.toNat = 8 then ['\\', 'b']
  else if c.toNat = 12 then ['\\', 'f']
  else if c.toNat < 32 then
    ['\\', 'u', '0', '0', Nat.digitChar (c.toNat / 16), Nat.digitChar (c.toNat % 16)]
  else [c]

/-- A JSON string, quoted. -/
def quote (s : String) : String := String.ofList ('"' :: s.toList.flatMap escapeChar ++ ['"'])

/-- The order in which `jsonb` keeps the keys of an object: by byte length, then by bytes. -/
def keyLe (a b : String × String) : Bool :=
  decide (a.1.utf8ByteSize < b.1.utf8ByteSize) ||
    (a.1.utf8ByteSize == b.1.utf8ByteSize && decide (a.1 ≤ b.1))

mutual

/-- The text of a value in the output format of `jsonb`. -/
def render : Json → String
  | .null => "null"
  | .bool b => if b then "true" else "false"
  | .num m s => renderNum m s
  | .str s => quote s
  | .arr items => "[" ++ ", ".intercalate (renderItems items) ++ "]"
  | .obj fields =>
    let sorted := (renderFields fields).insertionSort fun a b => keyLe a b = true
    "\x7b" ++ ", ".intercalate (sorted.map fun f => quote f.1 ++ ": " ++ f.2) ++ "\x7d"

/-- The texts of the items of an array. -/
def renderItems : List Json → List String
  | [] => []
  | a :: as => a.render :: renderItems as

/-- The fields of an object, each value as text. -/
def renderFields : List (String × Json) → List (String × String)
  | [] => []
  | (k, a) :: as => (k, a.render) :: renderFields as

end

end Json

end Leaderboards
