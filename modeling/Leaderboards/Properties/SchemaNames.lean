import Leaderboards.Db
import Leaderboards.Store.SqlTokens

/-!
# Schema names

**`schema_name_quoted`**: whatever characters a schema name has, its quoted form is read as one
delimited identifier with that name and nothing after it. In the statements of `connect` and
`build_pool` the name is therefore one token, and different names are different tokens.
-/

namespace Leaderboards

/-- A quoted name is the name between quotes, with the quotes in it doubled. -/
theorem toList_quoteIdentifier (name : String) :
    (quoteIdentifier name).toList = Delimited.enclose '"' name.toList := by
  have hdoubled : ("\"\"" : String).toList = ['"', '"'] := by decide
  have hquote : ("\"" : String).toList = ['"'] := by decide
  rw [quoteIdentifier, String.toList_append, String.toList_append, hquote, replaceChar, hdoubled,
    String.toList_ofList]
  rfl

theorem quoteIdentifier_tokens (name : String) {s : List Char} (hs : s.head? ≠ some '"') :
    sqlTokens ((quoteIdentifier name).toList ++ s) =
      (sqlTokens s).map (.delimited name :: ·) := by
  rw [toList_quoteIdentifier]
  exact sqlTokens_enclose name hs

/-- The quoted name at the end of a statement. -/
theorem quoteIdentifier_tokens_end (name : String) :
    sqlTokens (quoteIdentifier name).toList = some [.delimited name] := by
  have h := quoteIdentifier_tokens name (s := []) (by simp)
  rwa [List.append_nil, sqlTokens_nil] at h

theorem createSchema_tokens (schema : String) : sqlTokens (createSchema schema).toList =
    some [.word "CREATE", .word "SCHEMA", .word "IF", .word "NOT", .word "EXISTS",
      .delimited schema] := by
  have htext : (createSchema schema).toList =
      "CREATE".toList ++ ' ' :: ("SCHEMA".toList ++ ' ' :: ("IF".toList ++ ' ' ::
        ("NOT".toList ++ ' ' :: ("EXISTS".toList ++ ' ' :: (quoteIdentifier schema).toList)))) := by
    have happend : (createSchema schema).toList =
        "CREATE SCHEMA IF NOT EXISTS ".toList ++ (quoteIdentifier schema).toList :=
      String.toList_append
    rw [happend]
    simp
  rw [htext, sqlTokens_word_blank _ (by decide) (by decide),
    sqlTokens_word_blank _ (by decide) (by decide), sqlTokens_word_blank _ (by decide) (by decide),
    sqlTokens_word_blank _ (by decide) (by decide), sqlTokens_word_blank _ (by decide) (by decide),
    quoteIdentifier_tokens_end]
  rfl

theorem setSearchPath_tokens (schema : String) : sqlTokens (setSearchPath schema).toList =
    some [.word "SET", .word "search_path", .word "TO", .delimited schema, .symbol ',',
      .word "public"] := by
  have htext : (setSearchPath schema).toList =
      "SET".toList ++ ' ' :: ("search_path".toList ++ ' ' :: ("TO".toList ++ ' ' ::
        ((quoteIdentifier schema).toList ++ ',' :: ' ' :: "public".toList))) := by
    have happend : (setSearchPath schema).toList =
        ("SET search_path TO " ++ quoteIdentifier schema).toList ++ ", public".toList :=
      String.toList_append
    rw [happend, String.toList_append]
    simp
  have hpublic : sqlTokens "public".toList = some [.word "public"] := by
    have h := sqlTokens_word (w := "public".toList) (s := []) (by decide) (by decide) (by simp)
    rwa [List.append_nil, sqlTokens_nil, String.ofList_toList] at h
  rw [htext, sqlTokens_word_blank _ (by decide) (by decide),
    sqlTokens_word_blank _ (by decide) (by decide), sqlTokens_word_blank _ (by decide) (by decide),
    quoteIdentifier_tokens schema (by decide), sqlTokens_comma, sqlTokens_blank, hpublic]
  rfl

/-- Reading a quoted schema name takes all of it and gives the name back, as one token. So the
statements that contain it have exactly one token from the name, and different names have
different tokens. -/
theorem schema_name_quoted (name : String) :
    Delimited.read '"' (quoteIdentifier name).toList = some (name.toList, []) ∧
      sqlTokens (quoteIdentifier name).toList = some [.delimited name] ∧
      sqlTokens (createSchema name).toList =
        some [.word "CREATE", .word "SCHEMA", .word "IF", .word "NOT", .word "EXISTS",
          .delimited name] ∧
      sqlTokens (setSearchPath name).toList =
        some [.word "SET", .word "search_path", .word "TO", .delimited name, .symbol ',',
          .word "public"] ∧
      ∀ other, (sqlTokens (quoteIdentifier other).toList =
        sqlTokens (quoteIdentifier name).toList ↔ other = name) := by
  refine ⟨?_, quoteIdentifier_tokens_end name, createSchema_tokens name,
    setSearchPath_tokens name, fun other => ?_⟩
  · have h : Delimited.read '"' (Delimited.enclose '"' name.toList ++ []) =
        some (name.toList, []) := Delimited.read_enclose name.toList (by simp)
    rwa [List.append_nil, ← toList_quoteIdentifier] at h
  · rw [quoteIdentifier_tokens_end, quoteIdentifier_tokens_end]
    simp

/-! ### The statements of a connection -/

/-- The only statement of a new connection of a pool is the search path. -/
theorem eq_setSearchPath {url schema s : String} {maxConnections : ℕ}
    (h : (buildPool url schema maxConnections).afterConnect = some s) :
    s = setSearchPath schema := by
  by_cases hpublic : schema = "public"
  · simp [buildPool, hpublic] at h
  · simpa [buildPool, hpublic, eq_comm] using h

/-- Every statement that `connect` executes has the schema name as one token. -/
theorem connect_statements {env : String → Option String} {config : DatabaseConfig}
    {c : Connected} (h : connect env config = .ok c) {s : String} (hs : s ∈ c.statements) :
    sqlTokens s.toList = some [.word "CREATE", .word "SCHEMA", .word "IF", .word "NOT",
        .word "EXISTS", .delimited config.schemaName] ∨
      sqlTokens s.toList = some [.word "SET", .word "search_path", .word "TO",
        .delimited config.schemaName, .symbol ',', .word "public"] := by
  rw [connect] at h
  cases hurl : config.url.resolve env with
  | error e => simp [hurl, bind, Except.bind] at h
  | ok url =>
    rw [hurl] at h
    obtain rfl := Except.ok.inj h
    rcases List.mem_append.mp hs with hboot | hafter
    · left
      by_cases hpublic : config.schemaName = "public"
      · simp [hpublic] at hboot
      · obtain rfl : s = createSchema config.schemaName := by simpa [hpublic] using hboot
        exact createSchema_tokens config.schemaName
    · right
      obtain rfl := eq_setSearchPath (Option.mem_toList.mp hafter)
      exact setSearchPath_tokens config.schemaName

/-- A read-only connection creates nothing: the schema exists, and the search path is all that is
executed with its name. -/
theorem connectReadonly_statement {env : String → Option String} {schemata : List String}
    {config : DatabaseConfig} {pool : Pool}
    (h : connectReadonly env schemata config = .ok pool) :
    (config.schemaName = "public" ∨ config.schemaName ∈ schemata) ∧
      ∀ s, pool.afterConnect = some s → sqlTokens s.toList =
        some [.word "SET", .word "search_path", .word "TO", .delimited config.schemaName,
          .symbol ',', .word "public"] := by
  rw [connectReadonly] at h
  cases hurl : config.url.resolve env with
  | error e => simp [hurl, bind, Except.bind] at h
  | ok url =>
    by_cases hmissing : config.schemaName ≠ "public" ∧ config.schemaName ∉ schemata
    · simp [hurl, hmissing, bind, Except.bind, throw, throwThe, MonadExceptOf.throw] at h
    · have hpool : buildPool url config.schemaName config.maxConnections = pool := by
        simpa [hurl, hmissing, bind, Except.bind, pure, Except.pure] using h
      refine ⟨by tauto, fun s hs => ?_⟩
      rw [← hpool] at hs
      obtain rfl := eq_setSearchPath hs
      exact setSearchPath_tokens config.schemaName

end Leaderboards
