import Leaderboards.Library.Extension
import Leaderboards.Repo.CollectionBoards
import Leaderboards.Transactions.Reachable

/-!
# The servers with all statements of the API

`api` extends the machine of `Transactions/Server.lean` by the selects of `Repo/Reads.lean` and by
the statements on `collection_boards`, whose rows follow the rows they refer to. The statements on
`collection_boards` run outside transactions, so each of them takes effect at once.
-/

namespace Leaderboards

open Interaction

variable {faulty : Prop}

/-- The selects of `Repo/Reads.lean` answer from the committed tables. -/
def lookups (faulty : Prop) : (server faulty).Extension Lookups Unit where
  exec l s _ L r _ := L = [] ∧ (r = .ok (l.answer s.db) ∨ faulty ∧ r = .error .connection)
  follow _ _ _ _ := True

/-- The table `collection_boards`, and the ids of all collections ever committed. -/
structure MemberTable where
  rows : List CollectionBoard := []
  usedCollections : List Uuid := []

/-- The table when the others have become those of `db`. -/
def MemberTable.after (m : MemberTable) (db : Database) : MemberTable where
  rows := cascade db m.rows
  usedCollections := m.usedCollections ++ db.collections.map Collection.id

/-- The table follows the others. The id of a new collection comes from `uuidv7()`, so it is not one
that was used before. -/
structure MemberTable.Follows (m : MemberTable) (db db' : Database) (m' : MemberTable) : Prop where
  after : m' = m.after db'
  fresh : ∀ c ∈ db'.collections, c.id ∈ m.usedCollections → ∃ r ∈ db.collections, r.SameKey c

/-- What a statement may answer and leave behind. Outside a transaction it commits by itself: when
the connection is lost, it may have taken effect or not. -/
def MembershipQuery.Outcome (faulty : Prop) (db : Database) (rows : List CollectionBoard)
    (q : MembershipQuery) (r : Except DbError q.Row) (rows' : List CollectionBoard) : Prop :=
  q.run db rows = (r, rows') ∨
    faulty ∧ r = .error .connection ∧ (rows' = rows ∨ rows' = (q.run db rows).2)

/-- The rows are as before, or as after the statement. -/
theorem MembershipQuery.Outcome.rows {faulty : Prop} {db : Database}
    {rows rows' : List CollectionBoard} {q : MembershipQuery} {r : Except DbError q.Row}
    (h : q.Outcome faulty db rows r rows') : rows' = rows ∨ rows' = (q.run db rows).2 := by
  rcases h with hrun | ⟨-, -, hrows⟩
  · exact .inr (congrArg Prod.snd hrun).symm
  · exact hrows

theorem MembershipQuery.run_of_rows {db : Database} {rows rows' : List CollectionBoard}
    {q : MembershipQuery} (h : rows' = (q.run db rows).2) :
    q.run db rows = ((q.run db rows).1, rows') := by
  rw [h]

/-- The statements on `collection_boards`. -/
def memberships (faulty : Prop) :
    ((server faulty).extend (lookups faulty)).Extension Memberships MemberTable where
  exec q s m L r m' := L = q.locks ∧ m'.usedCollections = m.usedCollections ∧
    q.Outcome faulty s.1.db m.rows r m'.rows
  follow s s' m m' := m.Follows s.1.db s'.1.db m'

/-- The machine the handlers of the API run on. -/
abbrev api (faulty : Prop) : Machine ((Service.sum Lookups).sum Memberships) :=
  ((server faulty).extend (lookups faulty)).extend (memberships faulty)

/-- What the handlers of the API share: the servers, and the table `collection_boards`. -/
abbrev Api.Shared := (Server × Unit) × MemberTable

/-- The servers with a table `collection_boards`. -/
def Server.with (s : Server) (m : MemberTable) : Api.Shared := ((s, ()), m)

@[simp] theorem Server.with_servers (s : Server) (m : MemberTable) : (s.with m).1.1 = s := rfl

@[simp] theorem Server.with_table (s : Server) (m : MemberTable) : (s.with m).2 = m := rfl

/-- The rows that are left refer to rows that are there. -/
theorem mem_cascade {db : Database} {rows : List CollectionBoard} {row : CollectionBoard} :
    row ∈ cascade db rows ↔ row ∈ rows ∧ (db.collection? row.collectionId).isSome = true ∧
      (db.board? row.boardId).isSome = true := by
  simp [cascade]

/-- Every row refers to a collection and a board that are there. -/
def Referenced (db : Database) (rows : List CollectionBoard) : Prop :=
  ∀ row ∈ rows, (db.collection? row.collectionId).isSome = true ∧
    (db.board? row.boardId).isSome = true

theorem referenced_cascade (db : Database) (rows : List CollectionBoard) :
    Referenced db (cascade db rows) := fun _ h => (mem_cascade.mp h).2

theorem MemberTable.Follows.referenced {m m' : MemberTable} {db db' : Database}
    (h : m.Follows db db' m') : Referenced db' m'.rows := h.after ▸ referenced_cascade _ _

theorem Referenced.cascade_eq {db : Database} {rows : List CollectionBoard}
    (h : Referenced db rows) : cascade db rows = rows := by
  refine List.filter_eq_self.mpr fun row hrow => ?_
  simpa using h row hrow

/-- What an insertion does. -/
theorem MembershipQuery.run_insert {db : Database} {rows rows' : List CollectionBoard}
    {row : CollectionBoard} {r : Except DbError Unit}
    (h : (MembershipQuery.insert row).run db rows = (r, rows')) :
    (r = .error .uniqueViolation ∧ rows' = rows ∧
      ∃ x ∈ rows, x.HasKey row.collectionId row.boardId) ∨
    (r = .error .foreignKeyViolation ∧ rows' = rows ∧
      ((∀ c ∈ db.collections, c.id ≠ row.collectionId) ∨ ∀ b ∈ db.boards, b.id ≠ row.boardId)) ∨
    r = .ok () ∧ rows' = rows ++ [row] ∧ (∃ c ∈ db.collections, c.id = row.collectionId) ∧
      (∃ b ∈ db.boards, b.id = row.boardId) ∧ ∀ x ∈ rows,
        ¬x.HasKey row.collectionId row.boardId := by
  simp only [MembershipQuery.run] at h
  split at h
  · obtain ⟨rfl, rfl⟩ := Prod.mk.inj h
    exact .inl ⟨rfl, rfl, ‹_›⟩
  · rename_i hnew
    split at h
    · rename_i hnone
      obtain ⟨rfl, rfl⟩ := Prod.mk.inj h
      simp only [Option.isNone_iff_eq_none, Database.collection?_eq_none,
        Database.board?_eq_none] at hnone
      exact .inr (.inl ⟨rfl, rfl, hnone⟩)
    · rename_i hthere
      obtain ⟨rfl, rfl⟩ := Prod.mk.inj h
      simp only [not_or, Option.isNone_iff_eq_none, Database.collection?_eq_none,
        Database.board?_eq_none, not_forall, not_not, exists_prop] at hthere
      exact .inr (.inr ⟨rfl, rfl, hthere.1, hthere.2, fun x hx hkey => hnew ⟨x, hx, hkey⟩⟩)

/-- What a deletion does. -/
theorem MembershipQuery.run_delete {db : Database} {rows rows' : List CollectionBoard}
    {collectionId boardId : Uuid} {r : Except DbError ℕ}
    (h : (MembershipQuery.delete collectionId boardId).run db rows = (r, rows')) :
    (r = .ok 0 ∧ rows' = rows ∧ ∀ x ∈ rows, ¬x.HasKey collectionId boardId) ∨
      ∃ n, r = .ok (n + 1) ∧ rows' = rows.filter (fun x => ¬x.HasKey collectionId boardId) ∧
        ∃ x ∈ rows, x.HasKey collectionId boardId := by
  obtain ⟨rfl, rfl⟩ := Prod.mk.inj h
  rcases hlength : (rows.filter fun x => x.HasKey collectionId boardId).length with _ | n
  · have hnone : ∀ x ∈ rows, ¬x.HasKey collectionId boardId := by
      simpa using List.length_eq_zero_iff.mp hlength
    exact .inl ⟨congrArg Except.ok hlength, List.filter_eq_self.mpr (by simpa using hnone), hnone⟩
  · obtain ⟨x, hx⟩ := List.exists_mem_of_length_eq_add_one hlength
    obtain ⟨hx, hkey⟩ := List.mem_filter.mp hx
    exact .inr ⟨n, congrArg Except.ok hlength, rfl, x, hx, of_decide_eq_true hkey⟩

/-- A statement keeps the references. -/
theorem Referenced.run {db : Database} {rows rows' : List CollectionBoard} (h : Referenced db rows)
    {q : MembershipQuery} {r : Except DbError q.Row} (hrun : q.run db rows = (r, rows')) :
    Referenced db rows' := by
  cases q with
  | insert row =>
    rcases MembershipQuery.run_insert hrun with ⟨-, rfl, -⟩ | ⟨-, rfl, -⟩ |
      ⟨-, rfl, ⟨c, hc, hcid⟩, ⟨b, hb, hbid⟩, -⟩
    · exact h
    · exact h
    · intro r hr
      rcases List.mem_append.mp hr with hr | hr
      · exact h r hr
      · obtain rfl := List.mem_singleton.mp hr
        refine ⟨Option.isSome_iff_ne_none.mpr fun hnone => ?_,
          Option.isSome_iff_ne_none.mpr fun hnone => ?_⟩
        · exact Database.collection?_eq_none.mp hnone c hc hcid
        · exact Database.board?_eq_none.mp hnone b hb hbid
  | delete collectionId boardId =>
    obtain ⟨-, rfl⟩ := Prod.mk.inj hrun
    exact fun r hr => h r (List.mem_of_mem_filter hr)
  | selectBoards collectionId =>
    obtain ⟨-, rfl⟩ := Prod.mk.inj hrun
    exact h

theorem Referenced.outcome {db : Database} {rows rows' : List CollectionBoard}
    (h : Referenced db rows) {q : MembershipQuery} {r : Except DbError q.Row} {faulty : Prop}
    (houtcome : q.Outcome faulty db rows r rows') : Referenced db rows' := by
  rcases houtcome.rows with rfl | hrows
  · exact h
  · exact h.run (MembershipQuery.run_of_rows hrows)

end Leaderboards
