import Leaderboards.Transactions.Api
import Mathlib.Data.Set.Insert

/-!
# The catalog of collections

`Catalog` says what collections are for: boards are in collections, each at most once in each, and
collections and boards go by their slugs. The operations on it are those of the API, executed at one
moment. `Represents` relates it to the tables, where rows refer to rows by ids.
-/

namespace Leaderboards

/-- Why an operation is refused. -/
inductive Refusal
  | notFound
  | conflict
deriving DecidableEq

/-- Collections, boards, and which boards are in which collections with which display order. -/
structure Catalog where
  collections : Set String
  boards : Set String
  members : Set (String × String × ℤ)
  referenced : ∀ c b o, (c, b, o) ∈ members → c ∈ collections ∧ b ∈ boards
  once : ∀ c b o o', (c, b, o) ∈ members → (c, b, o') ∈ members → o = o'

namespace Catalog

variable (K : Catalog) (c b : String) (o : ℤ)

/-- The board is in the collection. -/
def Has : Prop := ∃ o, (c, b, o) ∈ K.members

/-- The collection or the board is missing. -/
def Lacks : Prop := c ∉ K.collections ∨ b ∉ K.boards

/-- The catalog with one more member. -/
def insert (hc : c ∈ K.collections) (hb : b ∈ K.boards) (hnew : ¬K.Has c b) : Catalog where
  collections := K.collections
  boards := K.boards
  members := Insert.insert (c, b, o) K.members
  referenced c' b' o' h := by
    rcases Set.mem_insert_iff.mp h with heq | h
    · obtain ⟨rfl, rfl, rfl⟩ : c' = c ∧ b' = b ∧ o' = o := by simpa using heq
      exact ⟨hc, hb⟩
    · exact K.referenced c' b' o' h
  once c' b' o₁ o₂ h₁ h₂ := by
    rcases Set.mem_insert_iff.mp h₁ with heq₁ | hm₁ <;>
      rcases Set.mem_insert_iff.mp h₂ with heq₂ | hm₂
    · simp_all
    · obtain ⟨rfl, rfl, -⟩ : c' = c ∧ b' = b ∧ o₁ = o := by simpa using heq₁
      exact absurd ⟨o₂, hm₂⟩ hnew
    · obtain ⟨rfl, rfl, -⟩ : c' = c ∧ b' = b ∧ o₂ = o := by simpa using heq₂
      exact absurd ⟨o₁, hm₁⟩ hnew
    · exact K.once c' b' o₁ o₂ hm₁ hm₂

/-- The catalog without a member. -/
def erase : Catalog where
  collections := K.collections
  boards := K.boards
  members := {m ∈ K.members | ¬(m.1 = c ∧ m.2.1 = b)}
  referenced c' b' o' h := K.referenced c' b' o' h.1
  once c' b' o₁ o₂ h₁ h₂ := K.once c' b' o₁ o₂ h₁.1 h₂.1

open scoped Classical in
/-- Put a board into a collection. -/
noncomputable def add : Except Refusal Catalog :=
  if h : c ∈ K.collections ∧ b ∈ K.boards then
    if hnew : ¬K.Has c b then .ok (K.insert c b o h.1 h.2 hnew) else .error .conflict
  else .error .notFound

open scoped Classical in
/-- Take a board out of a collection. -/
noncomputable def remove : Except Refusal Catalog :=
  if K.Has c b then .ok (K.erase c b) else .error .notFound

variable {K c b o}

theorem add_lacks (h : K.Lacks c b) : K.add c b o = .error .notFound := by
  have hlacks : ¬(c ∈ K.collections ∧ b ∈ K.boards) := not_and_or.mpr h
  rw [add, dif_neg hlacks]

theorem add_has (h : K.Has c b) : K.add c b o = .error .conflict := by
  obtain ⟨o', ho⟩ := h
  rw [add, dif_pos (K.referenced c b o' ho), dif_neg (not_not.mpr ⟨o', ho⟩)]

theorem add_new (hc : c ∈ K.collections) (hb : b ∈ K.boards) (hnew : ¬K.Has c b) :
    K.add c b o = .ok (K.insert c b o hc hb hnew) := by
  rw [add, dif_pos ⟨hc, hb⟩, dif_pos hnew]

theorem remove_has (h : K.Has c b) : K.remove c b = .ok (K.erase c b) := if_pos h

theorem remove_not (h : ¬K.Has c b) : K.remove c b = .error .notFound := if_neg h

theorem Lacks.not_has (h : K.Lacks c b) : ¬K.Has c b := by
  rintro ⟨o, ho⟩
  obtain ⟨hc, hb⟩ := K.referenced c b o ho
  exact h.elim (fun hmiss => hmiss hc) fun hmiss => hmiss hb

end Catalog

/-! ### The catalog of the tables -/

/-- A row puts a board into a collection, by their slugs. -/
structure CollectionBoard.Names (row : CollectionBoard) (db : Database) (c b : String) (o : ℤ) :
    Prop where
  collection : ∃ x ∈ db.collections, x.id = row.collectionId ∧ x.slug = c
  board : ∃ y ∈ db.boards, y.id = row.boardId ∧ y.slug = b
  order : row.displayOrder = o

/-- The tables stand for a catalog. -/
structure Represents (sh : Api.Shared) (K : Catalog) : Prop where
  collections : ∀ c, c ∈ K.collections ↔ ∃ x ∈ sh.1.1.db.collections, x.slug = c
  boards : ∀ b, b ∈ K.boards ↔ ∃ y ∈ sh.1.1.db.boards, y.slug = b
  members : ∀ c b o, (c, b, o) ∈ K.members ↔ ∃ row ∈ sh.2.rows, row.Names sh.1.1.db c b o

/-- Tables with the same rows stand for the same catalog. -/
theorem Represents.congr {sh sh' : Api.Shared} {K : Catalog} (h : Represents sh K)
    (hdb : sh'.1.1.db = sh.1.1.db) (hrows : sh'.2.rows = sh.2.rows) : Represents sh' K := by
  constructor
  · rw [hdb]
    exact h.collections
  · rw [hdb]
    exact h.boards
  · rw [hdb, hrows]
    exact h.members

end Leaderboards
