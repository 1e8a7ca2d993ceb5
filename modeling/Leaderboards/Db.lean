import Leaderboards.Auth.Middleware
import Leaderboards.Data.Models

/-!
# Connecting to the database

`db.rs`: the statements that name the configured schema. With a schema other than `public`,
`connect` creates it over a connection of its own, and every connection of the pool puts it in
front of the search path. `connect_readonly` only looks whether it exists.
-/

namespace Leaderboards

open Auth (ConfigValue)

/-- `str::replace` of a character by a text. -/
def replaceChar (s : String) (c : Char) (text : String) : String :=
  String.ofList (s.toList.flatMap fun d => if d = c then text.toList else [d])

/-- `quote_identifier`. -/
def quoteIdentifier (name : String) : String :=
  "\"" ++ replaceChar name '"' "\"\"" ++ "\""

/-- The statement of `connect`. -/
def createSchema (schema : String) : String :=
  "CREATE SCHEMA IF NOT EXISTS " ++ quoteIdentifier schema

/-- The statement of `build_pool` on a new connection. -/
def setSearchPath (schema : String) : String :=
  "SET search_path TO " ++ quoteIdentifier schema ++ ", public"

/-- `DatabaseConfig`. -/
structure DatabaseConfig where
  url : ConfigValue
  maxConnections : ℕ
  schema : Option String

/-- The schema that `connect` works with. -/
def DatabaseConfig.schemaName (config : DatabaseConfig) : String := config.schema.getD "public"

/-- A pool: where it connects to, and what it runs on every new connection. -/
structure Pool where
  url : String
  maxConnections : ℕ
  afterConnect : Option String
deriving DecidableEq

/-- `build_pool`. -/
def buildPool (url schema : String) (maxConnections : ℕ) : Pool where
  url := url
  maxConnections := maxConnections
  afterConnect := if schema ≠ "public" then some (setSearchPath schema) else none

/-- What `connect` sets up: the statement that it runs first on a pool of one connection, if any,
and the pool that it returns. -/
structure Connected where
  bootstrap : Option (Pool × String)
  pool : Pool
deriving DecidableEq

/-- `connect`. -/
def connect (env : String → Option String) (config : DatabaseConfig) : Except String Connected := do
  let url ← config.url.resolve env
  let schema := config.schemaName
  return {
    bootstrap := if schema ≠ "public" then some (⟨url, 1, none⟩, createSchema schema) else none
    pool := buildPool url schema config.maxConnections }

/-- `connect_readonly`, against a database with these schemas. The name is a parameter of the
query for the schema, not a part of its text. -/
def connectReadonly (env : String → Option String) (schemata : List String)
    (config : DatabaseConfig) : Except String Pool := do
  let url ← config.url.resolve env
  let schema := config.schemaName
  if schema ≠ "public" ∧ schema ∉ schemata then
    throw (Error.config s!"configured schema '{schema}' does not exist").display
  return buildPool url schema config.maxConnections

/-- The statements with a schema name that a connection setup executes. -/
def Connected.statements (c : Connected) : List String :=
  (c.bootstrap.map Prod.snd).toList ++ c.pool.afterConnect.toList

end Leaderboards
