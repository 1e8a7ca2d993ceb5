import Leaderboards.Data.Models

/-!
# `sync/parse.rs`

The parsed form of a board directory. Here a `ParsedBoard` is any value of this type; how it is read
from files is in `Sync/Files.lean`.
-/

namespace Leaderboards

/-- `toml::Value`. A float comes with the JSON value it serializes to, a datetime with its
text. -/
inductive Toml
  | string (s : String)
  | integer (i : ℤ)
  | float (json : Json)
  | boolean (b : Bool)
  | datetime (text : String)
  | array (items : List Toml)
  /-- A table lists its members in key order. -/
  | table (fields : List (String × Toml))

mutual

/-- `toml_to_json`. -/
def tomlToJson : Toml → Json
  | .string s => .str s
  | .integer i => Json.int i
  | .float json => json
  | .boolean b => .bool b
  | .datetime text => .str text
  | .array items => .arr (tomlToJsonItems items)
  | .table fields => .obj (tomlToJsonFields fields)

/-- `toml_to_json` on the items of an array. -/
def tomlToJsonItems : List Toml → List Json
  | [] => []
  | t :: ts => tomlToJson t :: tomlToJsonItems ts

/-- `toml_to_json` on the members of a table. -/
def tomlToJsonFields : List (String × Toml) → List (String × Json)
  | [] => []
  | (k, t) :: ts => (k, tomlToJson t) :: tomlToJsonFields ts

end

/-- A tier of `board.toml`. -/
structure TierToml where
  key : String
  label : Option String

/-- Parsed `board.toml`. -/
structure BoardToml where
  name : String
  boardType : String
  sortDirection : String := "desc"
  accumulative : Bool := false
  tiers : List TierToml := []
  metadata : Option Toml := none

/-- An entry of `rankings.toml`. -/
structure EntryToml where
  slug : String
  name : String
  position : Option ℤ := none
  score : Option F64 := none
  tier : Option String := none
  metadata : Option Toml := none

/-- A fully parsed board directory. -/
structure ParsedBoard where
  slug : String
  board : BoardToml
  entries : List EntryToml := []
  versionMetadata : Option Json := none

end Leaderboards
