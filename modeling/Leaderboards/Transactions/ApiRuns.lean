import Leaderboards.Transactions.Messages

/-!
# Runs of the API

`Api.Inv` holds of all that the handlers of the API share, in every state that messages lead to
(`Api.Good.step`). One step of a run changes the tables of the servers, and `collection_boards`
follows; or it changes `collection_boards` alone (`Api.Moves`).

What a step does to the rows of boards and collections: a row stays under its slug, or it goes and
its slug is free right after the step, since a removal is the last write of a transaction
(`LegalSeq.board_fate`, `LegalSeq.collection_fate`).
-/

namespace Leaderboards

open Interaction

variable {Key : Type} {app : App Key} {faulty : Prop} {sh sh' : Api.Shared}

/-! ### Rows and slugs -/

section Fate

variable {P : Policy} {s : Server} {L : List Lock} {db : Database} {ws : List RowWrite}

/-- A board is there after legal writes, or nobody has its slug. -/
theorem LegalSeq.board_fate (h : LegalSeq P s L ws db) (hdb : db.Schema) {b : Board}
    (hb : b ∈ db.boards) : (∃ r ∈ (db.applyAll ws).boards, b.SameKey r) ∨
      ∀ r ∈ (db.applyAll ws).boards, r.slug ≠ b.slug := by
  induction ws generalizing db b with
  | nil => exact .inl ⟨b, hb, rfl, rfl, rfl, rfl⟩
  | cons w ws ih =>
    have hschema : (w.apply db).Schema := h.1.schema hdb
    cases w with
    | addBoard x => exact ih h.2.2 hschema (List.mem_append_left _ hb)
    | setBoard x =>
      by_cases hid : b.id = x.id
      · obtain ⟨⟨r, hr, hkey⟩, -⟩ := h.1
        obtain rfl := hdb.board_inj hr hb (hkey.1.trans hid.symm)
        have hx : x ∈ (db.setBoard x).boards :=
          Database.mem_setBoard_boards.mpr (.inr ⟨rfl, r, hr, hid⟩)
        obtain ⟨hrid, hslug, htype, hacc⟩ := hkey
        refine (ih h.2.2 hschema hx).imp ?_ fun hfree r' hr' => hslug ▸ hfree r' hr'
        rintro ⟨r', hr', h₁, h₂, h₃, h₄⟩
        exact ⟨r', hr', hrid.trans h₁, hslug.trans h₂, htype.trans h₃, hacc.trans h₄⟩
      · exact ih h.2.2 hschema (Database.mem_setBoard_boards.mpr (.inl ⟨hb, hid⟩))
    | removeBoard id =>
      obtain rfl := h.2.1 trivial
      by_cases hid : b.id = id
      · refine .inr fun r hr heq => ?_
        obtain ⟨hr, hne⟩ := List.mem_filter.mp hr
        obtain rfl := hdb.board_slug_inj hr hb heq
        simp [hid] at hne
      · exact .inl ⟨b, List.mem_filter.mpr ⟨hb, by simpa using hid⟩, rfl, rfl, rfl, rfl⟩
    | _ => exact ih h.2.2 hschema hb

/-- A collection is there after legal writes, or nobody has its slug. -/
theorem LegalSeq.collection_fate (h : LegalSeq P s L ws db) (hdb : db.Schema) {c : Collection}
    (hc : c ∈ db.collections) : (∃ r ∈ (db.applyAll ws).collections, c.SameKey r) ∨
      ∀ r ∈ (db.applyAll ws).collections, r.slug ≠ c.slug := by
  induction ws generalizing db c with
  | nil => exact .inl ⟨c, hc, rfl, rfl⟩
  | cons w ws ih =>
    have hschema : (w.apply db).Schema := h.1.schema hdb
    cases w with
    | addCollection x => exact ih h.2.2 hschema (List.mem_append_left _ hc)
    | setCollection x =>
      by_cases hid : c.id = x.id
      · obtain ⟨⟨r, hr, hkey⟩, -⟩ := h.1
        obtain rfl := hdb.collection_inj hr hc (hkey.1.trans hid.symm)
        have hx : x ∈ (db.setCollection x).collections :=
          Database.mem_setCollection_collections.mpr (.inr ⟨rfl, r, hr, hid⟩)
        refine (ih h.2.2 hschema hx).imp ?_ fun hfree r' hr' => hkey.2 ▸ hfree r' hr'
        rintro ⟨r', hr', h₁, h₂⟩
        exact ⟨r', hr', hkey.1.trans h₁, hkey.2.trans h₂⟩
      · exact ih h.2.2 hschema (Database.mem_setCollection_collections.mpr (.inl ⟨hc, hid⟩))
    | removeCollection id =>
      obtain rfl := h.2.1 trivial
      by_cases hid : c.id = id
      · refine .inr fun r hr heq => ?_
        obtain ⟨hr, hne⟩ := List.mem_filter.mp hr
        obtain rfl : r = c := List.inj_on_of_nodup_map hdb.collection_slug hr hc heq
        simp [hid] at hne
      · exact .inl ⟨c, List.mem_filter.mpr ⟨hc, by simpa using hid⟩, rfl, rfl⟩
    | _ => exact ih h.2.2 hschema hc

end Fate

/-! ### The invariant -/

/-- What holds of all that the handlers of the API share between any two commands. -/
structure Api.Inv (sh : Api.Shared) : Prop where
  servers : ServerInv {} sh.1.1
  referenced : Referenced sh.1.1.db sh.2.rows
  keys : (sh.2.rows.map fun r => (r.collectionId, r.boardId)).Nodup
  used : ∀ c ∈ sh.1.1.db.collections, c.id ∈ sh.2.usedCollections

/-- What one step of a run does. -/
inductive Api.Moves (sh sh' : Api.Shared) : Prop
  | same (h : sh' = sh)
  | tables (h : Unchanged sh.1.1 sh'.1.1 ∨ ∃ L, Commits {} L sh.1.1 sh'.1.1)
      (hfollow : sh.2.Follows sh.1.1.db sh'.1.1.db sh'.2)
  | rows (q : MembershipQuery) (h : sh'.1 = sh.1)
      (hused : sh'.2.usedCollections = sh.2.usedCollections)
      (hrows : sh'.2.rows = sh.2.rows ∨ sh'.2.rows = (q.run sh.1.1.db sh.2.rows).2)

/-- A statement keeps the keys of `collection_boards` different. -/
theorem MembershipQuery.keys_run {db : Database} {rows rows' : List CollectionBoard}
    (h : (rows.map fun r => (r.collectionId, r.boardId)).Nodup) {q : MembershipQuery}
    {r : Except DbError q.Row} (hrun : q.run db rows = (r, rows')) :
    (rows'.map fun r => (r.collectionId, r.boardId)).Nodup := by
  cases q with
  | insert row =>
    rcases MembershipQuery.run_insert hrun with ⟨-, rfl, -⟩ | ⟨-, rfl, -⟩ | ⟨-, rfl, -, -, hnew⟩
    · exact h
    · exact h
    · rw [List.map_append, List.nodup_append]
      refine ⟨h, List.nodup_singleton _, fun x hx y hy heq => ?_⟩
      obtain ⟨r', hr', rfl⟩ := List.mem_map.mp hx
      obtain rfl := List.mem_singleton.mp hy
      exact hnew r' hr' ⟨(Prod.mk.inj heq).1, (Prod.mk.inj heq).2⟩
  | delete collectionId boardId =>
    obtain ⟨-, rfl⟩ := Prod.mk.inj hrun
    exact h.sublist (List.filter_sublist.map _)
  | selectBoards collectionId =>
    obtain ⟨-, rfl⟩ := Prod.mk.inj hrun
    exact h

/-- **A step keeps the invariant.** -/
theorem Api.Moves.inv (h : Api.Moves sh sh') (hinv : Api.Inv sh) : Api.Inv sh' := by
  cases h with
  | same h => exact h ▸ hinv
  | tables h hfollow =>
    refine ⟨?_, hfollow.referenced, ?_, fun c hc => ?_⟩
    · rcases h with h | ⟨L, h⟩
      · exact h.inv hinv.servers
      · exact h.inv hinv.servers
    · rw [hfollow.after]
      exact hinv.keys.sublist (List.filter_sublist.map _)
    · rw [hfollow.after]
      exact List.mem_append_right _ (List.mem_map_of_mem hc)
  | rows q h hused hrows =>
    refine ⟨h ▸ hinv.servers, ?_, ?_, ?_⟩
    · rw [h]
      rcases hrows with hrows | hrows
      · exact hrows ▸ hinv.referenced
      · exact hinv.referenced.run (MembershipQuery.run_of_rows hrows)
    · rcases hrows with hrows | hrows
      · exact hrows ▸ hinv.keys
      · exact MembershipQuery.keys_run hinv.keys (MembershipQuery.run_of_rows hrows)
    · rw [h, hused]
      exact hinv.used

/-! ### Steps -/

/-- The handlers of all messages. -/
def Api.Serves (app : App Key) (p : Endpoint Unit) : Prop := ∃ m : Message app, m.serve = p

/-- A good state: every handler is safe, and the invariant holds. -/
structure Api.Good (g : (api faulty).State Error) : Prop where
  contract : (Api.contract faulty).Good g
  inv : Api.Inv g.shared

theorem Api.good_quiet (hinv : Api.Inv sh) :
    Api.Good (Machine.quiet (api faulty) sh : (api faulty).State Error) :=
  ⟨Contract.good_quiet hinv.servers, hinv⟩

theorem Api.serves_safe (p : Endpoint Unit) (hp : Api.Serves app p) (t : Tid) (sh : Api.Shared)
    (_ : (Api.contract faulty).Inv sh) :
    (Api.contract faulty).Safe t (fun _ _ _ => True) p none sh := by
  obtain ⟨m, rfl⟩ := hp
  exact (m.safe t sh).mono fun _ _ _ _ => trivial

variable {g g' : (api faulty).State Error}

/-- **What a step of a run does.** -/
theorem Api.Good.moves (hg : Api.Good g) (hstep : Machine.Step (Api.Serves app) g g') :
    Api.Moves g.shared g'.shared := by
  cases hstep with
  | call t p hp ht => exact .same rfl
  | crash t th hc ht => exact .same rfl
  | exec t c k h h' L r sh' ht hothers hexec =>
    obtain ⟨-, hguar⟩ := hg.contract.exec ht hexec
    rcases c with (c | l) | q
    · refine .tables ?_ hexec.2
      rcases hguar with heq | heq | hguar
      · exact .inl ⟨congrArg (fun s => Server.db s.1) heq,
          congrArg (fun s => Server.usedBoards s.1) heq,
          congrArg (fun s => Server.usedEntries s.1) heq,
          fun hfin => (congrArg (fun s => Server.redis s.1) heq) ▸ hfin⟩
      · exact .inl ⟨congrArg Server.db heq, congrArg Server.usedBoards heq,
          congrArg Server.usedEntries heq, fun hfin => (congrArg Server.redis heq) ▸ hfin⟩
      · exact hguar.imp id fun hcommits => ⟨_, hcommits⟩
    · have heq : sh'.1.1 = g.shared.1.1 := hexec.1.2.1
      exact .tables (.inl ⟨congrArg Server.db heq, congrArg Server.usedBoards heq,
        congrArg Server.usedEntries heq, fun hfin => (congrArg Server.redis heq) ▸ hfin⟩) hexec.2
    · obtain ⟨-, heq, -, hused, houtcome⟩ := hexec
      exact .rows q heq hused houtcome.rows

/-- **A step leads from a good state to a good state.** -/
theorem Api.Good.step (hg : Api.Good g) (hstep : Machine.Step (Api.Serves app) g g') :
    Api.Good g' :=
  ⟨(hg.contract.step Api.serves_safe hstep).1, (hg.moves hstep).inv hg.inv⟩

/-- The good states are those of all runs. -/
theorem Api.Good.run (hg : Api.Good g) (hrun : Machine.Run (Api.Serves app) g g') :
    Api.Good g' := by
  induction hrun with
  | refl => exact hg
  | tail _ hstep ih => exact ih.step hstep

/-! ### What becomes of boards and collections -/

/-- A step leaves a board under its slug, or its slug is free. -/
theorem Api.Moves.board_fate (h : Api.Moves sh sh') (hinv : Api.Inv sh) {b : Board}
    (hb : b ∈ sh.1.1.db.boards) : (∃ r ∈ sh'.1.1.db.boards, b.SameKey r) ∨
      ∀ r ∈ sh'.1.1.db.boards, r.slug ≠ b.slug := by
  have hsame : sh'.1.1.db = sh.1.1.db → ∃ r ∈ sh'.1.1.db.boards, b.SameKey r := fun heq =>
    ⟨b, heq ▸ hb, rfl, rfl, rfl, rfl⟩
  cases h with
  | same h => exact .inl (hsame (h ▸ rfl))
  | rows q h => exact .inl (hsame (h ▸ rfl))
  | tables h hfollow =>
    rcases h with h | ⟨L, ws, hlegal, -, hdb, -⟩
    · exact .inl (hsame h.1)
    · exact hdb ▸ hlegal.board_fate hinv.servers.schema hb

/-- A step leaves a collection under its slug, or its slug is free. -/
theorem Api.Moves.collection_fate (h : Api.Moves sh sh') (hinv : Api.Inv sh) {c : Collection}
    (hc : c ∈ sh.1.1.db.collections) : (∃ r ∈ sh'.1.1.db.collections, c.SameKey r) ∨
      ∀ r ∈ sh'.1.1.db.collections, r.slug ≠ c.slug := by
  have hsame : sh'.1.1.db = sh.1.1.db → ∃ r ∈ sh'.1.1.db.collections, c.SameKey r := fun heq =>
    ⟨c, heq ▸ hc, rfl, rfl⟩
  cases h with
  | same h => exact .inl (hsame (h ▸ rfl))
  | rows q h => exact .inl (hsame (h ▸ rfl))
  | tables h hfollow =>
    rcases h with h | ⟨L, ws, hlegal, -, hdb, -⟩
    · exact .inl (hsame h.1)
    · exact hdb ▸ hlegal.collection_fate hinv.servers.schema hc

/-- Ids of boards stay used, and what has a used id was there before. -/
theorem Api.Moves.boards (h : Api.Moves sh sh') (hinv : Api.Inv sh) {id : Uuid}
    (hid : id ∈ sh.1.1.usedBoards) : id ∈ sh'.1.1.usedBoards ∧
      ∀ b ∈ sh'.1.1.db.boards, b.id = id → ∃ r ∈ sh.1.1.db.boards, r.SameKey b := by
  have hrely : Rely [] sh.1.1 sh'.1.1 := by
    cases h with
    | same h => exact h ▸ Rely.refl [] _
    | rows q h => exact h ▸ Rely.refl [] _
    | tables h hfollow =>
      rcases h with h | ⟨L, h⟩
      · exact h.rely
      · exact h.rely hinv.servers (compatible_nil _)
  exact ⟨hrely.board_used id hid, fun b hb heq => hrely.board_reused b hb (heq ▸ hid)⟩

/-- Ids of collections stay used, and what has a used id was there before. -/
theorem Api.Moves.collections (h : Api.Moves sh sh') {id : Uuid}
    (hid : id ∈ sh.2.usedCollections) : id ∈ sh'.2.usedCollections ∧
      ∀ c ∈ sh'.1.1.db.collections, c.id = id → ∃ r ∈ sh.1.1.db.collections, r.SameKey c := by
  cases h with
  | same h => exact ⟨h ▸ hid, fun c hc _ => ⟨c, h ▸ hc, rfl, rfl⟩⟩
  | rows q h hused => exact ⟨hused ▸ hid, fun c hc _ => ⟨c, h ▸ hc, rfl, rfl⟩⟩
  | tables h hfollow =>
    refine ⟨?_, fun c hc heq => hfollow.fresh c hc (heq ▸ hid)⟩
    rw [hfollow.after]
    exact List.mem_append_left _ hid

end Leaderboards
