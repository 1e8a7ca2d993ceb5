import Leaderboards.Library.Keyset
import Leaderboards.Repo.Collections
import Leaderboards.Repo.References
import Leaderboards.Transactions.Running
import Leaderboards.Transactions.Schedule

/-!
# Paginated listings

The five `list_paginated` functions are one keyset pagination, over the boards, collections,
entries, versions or references in scope, ordered by `(created_at, id)` in one direction or the
other (`Answers`). A client starts without a cursor and goes on from the cursor of each response
(`Follows`), while the tables change in any way between its requests. What it receives is then a
`Keyset.Walk`, and the theorems about those give `KeysetPaginated` for all five
(`keyset_pagination`).
-/

namespace Leaderboards

open Interaction Keyset Ranking

variable {α κ : Type} [LinearOrder κ] {fmt : CursorFormat} {env : Supply} {s : Server}
  {list : PaginationParams → Action (PaginatedResponse α)} {rows : Database → List α}
  {stamp : α → Timestamp × Uuid} {order : PageKey → κ}

/-- The key of a time of creation and an id. -/
def cursorKey (order : PageKey → κ) (x : Timestamp × Uuid) : κ := order (pageKey x.1 x.2)

/-- A listing answers with the page of the rows in scope, in the order of their keys, and the
schema keeps their ids apart. -/
structure Answers (fmt : CursorFormat) (list : PaginationParams → Action (PaginatedResponse α))
    (rows : Database → List α) (stamp : α → Timestamp × Uuid) (order : PageKey → κ) : Prop where
  answer : ∀ (env : Supply) (s : Server) (params : PaginationParams),
    respond env s (list params) = (params.decodeCursor fmt).map fun c =>
      .ofRows fmt stamp params.effectiveLimit
        ((following (fun x => cursorKey order (stamp x)) (rows s.db)
          (c.map (cursorKey order))).take (params.effectiveLimit + 1).toNat)
  id_nodup : ∀ db : Database, db.Schema → ((rows db).map fun r => (stamp r).2).Nodup
  injective : Function.Injective order

/-! ### What a client does -/

/-- A request of a client and its response: the state of the servers, and the limit. -/
structure Exchange (α : Type) where
  server : Server
  limit : Option ℤ
  response : PaginatedResponse α

/-- The exchanges of a client that goes on from each `next_cursor`, and may stop at any time. -/
inductive Follows (env : Supply) (list : PaginationParams → Action (PaginatedResponse α)) :
    Option String → List (Exchange α) → Prop
  | stop (cursor : Option String) : Follows env list cursor []
  | last {cursor : Option String} {x : Exchange α}
      (hx : respond env x.server (list ⟨x.limit, cursor⟩) = .ok x.response)
      (hnone : x.response.nextCursor = none) : Follows env list cursor [x]
  | more {cursor : Option String} {x : Exchange α} {xs : List (Exchange α)} {next : String}
      (hx : respond env x.server (list ⟨x.limit, cursor⟩) = .ok x.response)
      (hsome : x.response.nextCursor = some next) (hrest : Follows env list (some next) xs) :
      Follows env list cursor (x :: xs)

/-- The rows that the client receives. -/
def receivedRows (xs : List (Exchange α)) : List α := xs.flatMap fun x => x.response.items

/-- The client has read to the end: its last response has no cursor. -/
def ReadToEnd (xs : List (Exchange α)) : Prop :=
  ∃ x, xs.getLast? = some x ∧ x.response.nextCursor = none

/-- What is known of the tables in a state: they keep to the schema, as all reachable ones do, and
the texts of all stored timestamps and ids round-trip. -/
structure Stored (fmt : CursorFormat) (rows : Database → List α)
    (stamp : α → Timestamp × Uuid) (s : Server) : Prop where
  schema : s.db.Schema
  roundTrips : ∀ r ∈ rows s.db, fmt.RoundTrips (stamp r)

/-- **What keyset pagination promises** of a listing. -/
structure KeysetPaginated (fmt : CursorFormat)
    (list : PaginationParams → Action (PaginatedResponse α)) (rows : Database → List α)
    (stamp : α → Timestamp × Uuid) (order : PageKey → κ) : Prop where
  /-- A page is not longer than the limit, brought between 1 and 200. -/
  size : ∀ env s params response, respond env s (list params) = .ok response →
    (response.items.length : ℤ) ≤ max 1 (min 200 (params.limit.getD 50))
  /-- A page has no cursor exactly when no row in scope is beyond its last row, or, when it is
  empty, beyond the cursor it was asked for. -/
  last_page : ∀ env s params c response, Stored fmt rows stamp s →
    params.decodeCursor fmt = .ok c → respond env s (list params) = .ok response →
    (response.nextCursor = none ↔ ∀ r ∈ rows s.db,
      (∀ x, c = some x → cursorKey order x < cursorKey order (stamp r)) →
        ∃ y, response.items.getLast? = some y ∧
          cursorKey order (stamp r) ≤ cursorKey order (stamp y))
  /-- The first request is answered, and so is every request with a cursor that was handed out,
  whatever the tables are by then. -/
  answered : ∀ env xs cursor, Follows env list none xs →
    (∀ x ∈ xs, Stored fmt rows stamp x.server) →
    (cursor = none ∨ ∃ x ∈ xs, x.response.nextCursor = cursor) →
    ∀ s limit, ∃ response, respond env s (list ⟨limit, cursor⟩) = .ok response
  /-- The rows of a walk come in strict order, no id comes twice, and a client that reads to the
  end receives each row that is there at all of its requests exactly once. -/
  exactly_once : ∀ env xs, Follows env list none xs →
    (∀ x ∈ xs, Stored fmt rows stamp x.server) →
    (∀ x ∈ xs, ∀ y ∈ xs, ∀ r ∈ rows x.server.db, ∀ r' ∈ rows y.server.db,
      (stamp r).2 = (stamp r').2 → stamp r = stamp r') →
    ((receivedRows xs).Pairwise fun r r' => cursorKey order (stamp r) < cursorKey order
      (stamp r')) ∧
      ((receivedRows xs).map fun r => (stamp r).2).Nodup ∧
      (ReadToEnd xs → ∀ id, (∀ x ∈ xs, ∃ r ∈ rows x.server.db, (stamp r).2 = id) →
        ((receivedRows xs).map fun r => (stamp r).2).count id = 1)

/-! ### Responses are pages -/

/-- The response of a listing is a page of the library, with its cursor as text. -/
theorem ofRows_page {limit : ℤ} (hlimit : 1 ≤ limit) {l : List α} {after : Option κ} :
    let key := fun x => cursorKey order (stamp x)
    let p := page key l after limit.toNat
    let r := PaginatedResponse.ofRows fmt stamp limit
      ((following key l after).take (limit + 1).toNat)
    r.items = p.items ∧ (r.nextCursor = none ↔ p.next = none) ∧
      ∀ k, p.next = some k → ∃ x, p.items.getLast? = some x ∧ key x = k ∧
        r.nextCursor = some (encodeCursor fmt (stamp x)) := by
  intro key p r
  have hsucc : (limit + 1).toNat = limit.toNat + 1 := by omega
  have hitems : r.items = p.items := by
    simp only [r, p, PaginatedResponse.ofRows, page, hsucc]
  have hmore : ∀ n : ℕ, limit < (n : ℤ) ↔ limit.toNat < n := by
    intro n
    omega
  -- One row more than the limit is asked for: it tells whether there is a next page.
  have hcursor : r.nextCursor =
      if limit.toNat < ((following key l after).take (limit.toNat + 1)).length then
        p.items.getLast?.map fun x => encodeCursor fmt (stamp x) else none := by
    simp only [r, p, PaginatedResponse.ofRows, page, hsucc, hmore]
  have hnext : p.next =
      if limit.toNat < ((following key l after).take (limit.toNat + 1)).length then
        p.items.getLast?.map key else none := rfl
  rw [hcursor, hnext]
  by_cases hlt : limit.toNat < ((following key l after).take (limit.toNat + 1)).length
  · rw [if_pos hlt, if_pos hlt, Option.map_eq_none_iff, Option.map_eq_none_iff]
    refine ⟨hitems, Iff.rfl, fun k hk => ?_⟩
    obtain ⟨x, hx, hkey⟩ := Option.map_eq_some_iff.mp hk
    exact ⟨x, hx, hkey, by rw [hx, Option.map_some]⟩
  · rw [if_neg hlt, if_neg hlt]
    exact ⟨hitems, by simp, fun k hk => by cases hk⟩

/-- An answer to a request whose cursor is read. -/
theorem Answers.page (h : Answers fmt list rows stamp order) {params : PaginationParams}
    {c : Option (Timestamp × Uuid)} {response : PaginatedResponse α}
    (hc : params.decodeCursor fmt = .ok c) (hr : respond env s (list params) = .ok response) :
    let key := fun x => cursorKey order (stamp x)
    let p := Keyset.page key (rows s.db) (c.map (cursorKey order)) params.effectiveLimit.toNat
    response.items = p.items ∧ (response.nextCursor = none ↔ p.next = none) ∧
      ∀ k, p.next = some k → ∃ x, p.items.getLast? = some x ∧ key x = k ∧
        response.nextCursor = some (encodeCursor fmt (stamp x)) := by
  rw [h.answer env s params, hc] at hr
  obtain rfl := Except.ok.inj hr
  exact ofRows_page params.effectiveLimit_pos

omit [LinearOrder κ] in
theorem cursorKey_injective (horder : Function.Injective order) :
    Function.Injective (cursorKey order) := by
  intro x y hxy
  have hkey : pageKey x.1 x.2 = pageKey y.1 y.2 := horder hxy
  simpa [pageKey, Prod.ext_iff] using hkey

/-- Distinct ids make distinct keys. -/
theorem Answers.key_nodup (h : Answers fmt list rows stamp order) {db : Database}
    (hdb : db.Schema) : ((rows db).map fun r => cursorKey order (stamp r)).Nodup := by
  have hstamps : ((rows db).map stamp).Nodup := by
    refine List.Nodup.of_map Prod.snd ?_
    rw [List.map_map]
    exact h.id_nodup db hdb
  rw [show (fun r => cursorKey order (stamp r)) = cursorKey order ∘ stamp from rfl, ← List.map_map]
  exact hstamps.map (cursorKey_injective h.injective)

/-- **What a client receives is a walk through the keys.** -/
theorem Follows.walk (hlist : Answers fmt list rows stamp order) {cursor : Option String}
    {xs : List (Exchange α)} (h : Follows env list cursor xs)
    (hstored : ∀ x ∈ xs, Stored fmt rows stamp x.server) {c : Option (Timestamp × Uuid)}
    (hc : PaginationParams.decodeCursor fmt ⟨none, cursor⟩ = .ok c) :
    ∃ fs : List (Fetch α κ),
      Walk (fun x => cursorKey order (stamp x)) (c.map (cursorKey order)) fs ∧
        received fs = receivedRows xs ∧ fs.map Fetch.rows = xs.map (fun x => rows x.server.db) ∧
        (∀ f ∈ fs, 1 ≤ f.limit) ∧ (ReadToEnd xs → Finished fs) := by
  induction h generalizing c with
  | stop =>
    refine ⟨[], .stop _, rfl, rfl, by simp, ?_⟩
    rintro ⟨x, hx, -⟩
    cases hx
  | @last cursor x hx hnone =>
    obtain ⟨hitems, hlast, -⟩ := hlist.page (show PaginationParams.decodeCursor fmt
      ⟨x.limit, cursor⟩ = .ok c from hc) hx
    generalize hlimit : (PaginationParams.effectiveLimit ⟨x.limit, cursor⟩).toNat = limit at *
    have hpos := PaginationParams.effectiveLimit_pos ⟨x.limit, cursor⟩
    let f : Fetch α κ := ⟨rows x.server.db, limit,
      Keyset.page (fun x => cursorKey order (stamp x)) (rows x.server.db)
        (c.map (cursorKey order)) limit⟩
    have hfnone : f.page.next = none := hlast.mp hnone
    refine ⟨[f], .last rfl hfnone, ?_, rfl, ?_, fun _ => ⟨f, rfl, hfnone⟩⟩
    · simp only [received, receivedRows, List.flatMap_singleton, hitems, f]
    · simp only [List.mem_singleton, forall_eq, f]
      omega
  | @more cursor x xs next hx hsome hrest ih =>
    obtain ⟨hitems, hlast, hnext⟩ := hlist.page (show PaginationParams.decodeCursor fmt
      ⟨x.limit, cursor⟩ = .ok c from hc) hx
    generalize hlimit : (PaginationParams.effectiveLimit ⟨x.limit, cursor⟩).toNat = limit at *
    have hpos := PaginationParams.effectiveLimit_pos ⟨x.limit, cursor⟩
    let f : Fetch α κ := ⟨rows x.server.db, limit,
      Keyset.page (fun x => cursorKey order (stamp x)) (rows x.server.db)
        (c.map (cursorKey order)) limit⟩
    have hne : f.page.next ≠ none := fun hnone => by
      rw [hlast.mpr hnone] at hsome
      cases hsome
    obtain ⟨k, hk⟩ := Option.ne_none_iff_exists'.mp hne
    -- The cursor is the text of the last row, which is read back.
    obtain ⟨y, hy, hkey, hcursor⟩ := hnext k hk
    have hrow := (mem_page (List.mem_of_getLast? hy)).1
    have htext := (hstored x List.mem_cons_self).roundTrips y hrow
    rw [hsome] at hcursor
    obtain rfl := Option.some.inj hcursor
    obtain ⟨fs, hwalk, hreceived, hrows, hlimits, hfinished⟩ :=
      ih (fun z hz => hstored z (List.mem_cons_of_mem _ hz))
        (decodeCursor_encodeCursor htext none)
    refine ⟨f :: fs, .more rfl hk (hkey ▸ hwalk), ?_, ?_, ?_, ?_⟩
    · rw [received, receivedRows, List.flatMap_cons, List.flatMap_cons, hitems]
      exact congrArg (_ ++ ·) hreceived
    · rw [List.map_cons, List.map_cons, hrows]
    · simp only [List.forall_mem_cons, f]
      exact ⟨by omega, hlimits⟩
    · rintro ⟨z, hz, hznone⟩
      cases xs with
      | nil =>
        obtain rfl : x = z := Option.some.inj hz
        rw [hsome] at hznone
        cases hznone
      | cons x' xs =>
        rw [List.getLast?_cons_cons] at hz
        obtain ⟨g, hg, hgnone⟩ := hfinished ⟨z, hz, hznone⟩
        cases fs with
        | nil => cases hg
        | cons f' fs => exact ⟨g, by rw [List.getLast?_cons_cons]; exact hg, hgnone⟩

/-- A listing that answers could read its cursor. -/
theorem Answers.decode (h : Answers fmt list rows stamp order) {params : PaginationParams}
    {response : PaginatedResponse α} (hr : respond env s (list params) = .ok response) :
    ∃ c, params.decodeCursor fmt = .ok c := by
  rw [h.answer env s params] at hr
  cases hc : params.decodeCursor fmt with
  | error e =>
    rw [hc] at hr
    cases hr
  | ok c => exact ⟨c, rfl⟩

/-- Every exchange of a client is a request and its answer. -/
theorem Follows.answer {cursor : Option String} {xs : List (Exchange α)}
    (h : Follows env list cursor xs) : ∀ x ∈ xs, ∃ cursor,
      respond env x.server (list ⟨x.limit, cursor⟩) = .ok x.response := by
  induction h with
  | stop => simp
  | last hx =>
    simp only [List.mem_singleton, forall_eq]
    exact ⟨_, hx⟩
  | more hx hsome hrest ih => exact List.forall_mem_cons.mpr ⟨⟨_, hx⟩, ih⟩

/-- What a page holds is in scope, and a cursor is the text of one of its rows. -/
theorem Answers.scope (h : Answers fmt list rows stamp order) {params : PaginationParams}
    {response : PaginatedResponse α} (hr : respond env s (list params) = .ok response) :
    (∀ r ∈ response.items, r ∈ rows s.db) ∧ ∀ next, response.nextCursor = some next →
      ∃ r ∈ rows s.db, next = encodeCursor fmt (stamp r) := by
  obtain ⟨c, hc⟩ := h.decode hr
  obtain ⟨hitems, hlast, hnext⟩ := h.page hc hr
  refine ⟨fun r hmem => ?_, fun next hcursor => ?_⟩
  · rw [hitems] at hmem
    exact (mem_page hmem).1
  · have hne := mt hlast.mpr (by rw [hcursor]; simp)
    obtain ⟨k, hk⟩ := Option.ne_none_iff_exists'.mp hne
    obtain ⟨y, hy, -, hy'⟩ := hnext k hk
    rw [hcursor] at hy'
    exact ⟨y, (mem_page (List.mem_of_getLast? hy)).1, Option.some.inj hy'⟩

/-- **A listing that answers with pages keeps the promises of keyset pagination.** -/
theorem Answers.keysetPaginated (h : Answers fmt list rows stamp order) :
    KeysetPaginated fmt list rows stamp order where
  size env s params response hr := by
    obtain ⟨c, hc⟩ := h.decode hr
    obtain ⟨hitems, -⟩ := h.page hc hr
    have hle : response.items.length ≤ params.effectiveLimit.toNat := by
      rw [hitems]
      exact length_page_le
    have hpos := params.effectiveLimit_pos
    change _ ≤ params.effectiveLimit
    omega
  last_page env s params c response hstored hc hr := by
    obtain ⟨hitems, hlast, hnext⟩ := h.page hc hr
    have hpos := params.effectiveLimit_pos
    have hlimit : 1 ≤ params.effectiveLimit.toNat := by omega
    have hbeyond : ∀ r, Beyond (c.map (cursorKey order)) (cursorKey order (stamp r)) ↔
        ∀ x, c = some x → cursorKey order x < cursorKey order (stamp r) := by
      intro r
      cases c with
      | none => simp [Beyond]
      | some x => simp [Beyond]
    rw [hlast, page_next_none_iff (h.key_nodup hstored.schema) hlimit, hitems]
    simp only [hbeyond]
  answered env xs cursor hxs hstored hcursor s limit := by
    have hok : ∀ c, PaginationParams.decodeCursor fmt ⟨limit, cursor⟩ = .ok c →
        ∃ response, respond env s (list ⟨limit, cursor⟩) = .ok response := by
      intro c hc
      exact ⟨_, by rw [h.answer env s _, hc]; rfl⟩
    rcases hcursor with rfl | ⟨x, hx, hnext⟩
    · exact hok none rfl
    · cases cursor with
      | none => exact hok none rfl
      | some next =>
        obtain ⟨_, hr⟩ := hxs.answer x hx
        obtain ⟨y, hy, rfl⟩ := (h.scope hr).2 next hnext
        exact hok _ (decodeCursor_encodeCursor ((hstored x hx).roundTrips y hy) limit)
  exactly_once env xs hxs hstored hstable := by
    obtain ⟨fs, hwalk, hreceived, hrows, hlimits, hfinished⟩ := hxs.walk h hstored (c := none) rfl
    have htable : ∀ f ∈ fs, ∃ x ∈ xs, f.rows = rows x.server.db := by
      intro f hf
      have hmem := List.mem_map_of_mem (f := Fetch.rows) hf
      rw [hrows] at hmem
      obtain ⟨x, hx, heq⟩ := List.mem_map.mp hmem
      exact ⟨x, hx, heq.symm⟩
    have hnodup : ∀ f ∈ fs, (f.rows.map fun r => cursorKey order (stamp r)).Nodup := by
      intro f hf
      obtain ⟨x, hx, heq⟩ := htable f hf
      rw [heq]
      exact h.key_nodup (hstored x hx).schema
    have hscope : ∀ r ∈ receivedRows xs, ∃ x ∈ xs, r ∈ rows x.server.db := by
      intro r hr
      obtain ⟨x, hx, hr⟩ := List.mem_flatMap.mp hr
      obtain ⟨_, hanswer⟩ := hxs.answer x hx
      exact ⟨x, hx, (h.scope hanswer).1 r hr⟩
    have hpair := hwalk.pairwise hnodup
    rw [hreceived] at hpair
    have hids : ((receivedRows xs).map fun r => (stamp r).2).Nodup := by
      refine List.pairwise_map.mpr (hpair.imp_of_mem fun hr hr' hlt hid => ?_)
      obtain ⟨x, hx, hr⟩ := hscope _ hr
      obtain ⟨y, hy, hr'⟩ := hscope _ hr'
      rw [hstable x hx y hy _ hr _ hr' hid] at hlt
      exact lt_irrefl _ hlt
    refine ⟨hpair, hids, fun hend id hid => List.count_eq_one_of_mem hids ?_⟩
    have hlast := hend
    obtain ⟨x, hx, -⟩ := hlast
    have hxmem := List.mem_of_getLast? hx
    obtain ⟨r, hr, rfl⟩ := hid x hxmem
    -- The row has the same key at every request.
    have hkeys : ∀ f ∈ fs, ∃ r' ∈ f.rows,
        cursorKey order (stamp r') = cursorKey order (stamp r) := by
      intro f hf
      obtain ⟨y, hy, heq⟩ := htable f hf
      obtain ⟨r', hr', hid'⟩ := hid y hy
      refine ⟨r', heq ▸ hr', ?_⟩
      rw [hstable y hy x hxmem r' hr' r hr hid']
    obtain ⟨r', hr', hkey⟩ :=
      hwalk.complete hnodup hlimits (hfinished hend) hkeys (beyond_none _)
    rw [hreceived] at hr'
    have hstamp : stamp r' = stamp r := cursorKey_injective h.injective hkey
    rw [← hstamp]
    exact List.mem_map_of_mem (f := fun r => (stamp r).2) hr'

/-! ### The five listings -/

/-- A request of a client with nothing open is one read of the tables. -/
theorem respond_paginate {query : Option (Timestamp × Uuid) → ℕ → Action (List α)}
    (read : Option (Timestamp × Uuid) → ℕ → Database → List α)
    (hquery : ∀ c n (w : World), w.session = none →
      ((query c n).run (serve env) w).1 = .ok (read c n w.server.db)) (params : PaginationParams) :
    respond env s (paginate fmt stamp query params) = (params.decodeCursor fmt).map fun c =>
      .ofRows fmt stamp params.effectiveLimit
        (read c (params.effectiveLimit + 1).toNat s.db) := by
  rw [respond, paginate]
  cases hc : params.decodeCursor fmt with
  | error e => rfl
  | ok c =>
    have hread := hquery c (params.effectiveLimit + 1).toNat { server := s } rfl
    rw [Prog.ofExcept_ok, Prog.ret_bind, Prog.run_bind]
    rcases hrun : (query c (params.effectiveLimit + 1).toNat).run (serve env) { server := s }
      with ⟨r, w⟩
    rw [hrun] at hread
    obtain rfl : r = .ok (read c (params.effectiveLimit + 1).toNat s.db) := hread
    rfl

/-- The ascending order of a page. -/
theorem ascendingPage_eq (rows : List α) (c : Option (Timestamp × Uuid)) (n : ℕ) :
    ascendingPage (fun x => pageKey (stamp x).1 (stamp x).2) rows c n =
      (following (fun x => cursorKey id (stamp x)) rows (c.map (cursorKey id))).take n := by
  rw [ascendingPage, following]
  simp only [Option.all_map]
  rfl

/-- The descending order of a page is the ascending one of the dual keys. -/
theorem descendingPage_eq (rows : List α) (c : Option (Timestamp × Uuid)) (n : ℕ) :
    descendingPage (fun x => pageKey (stamp x).1 (stamp x).2) rows c n =
      (following (fun x => cursorKey OrderDual.toDual (stamp x)) rows
        (c.map (cursorKey OrderDual.toDual))).take n := by
  rw [descendingPage, following]
  simp only [Option.all_map, cursorKey, OrderDual.toDual_lt_toDual]

theorem boards_answers :
    Answers fmt (Boards.listPaginated fmt) Database.boards (fun b => (b.createdAt, b.id))
      OrderDual.toDual where
  answer env s params := by
    rw [Boards.listPaginated, respond_paginate (fun c n db =>
      descendingPage (fun b => pageKey b.createdAt b.id) db.boards c n)]
    · simp only [← descendingPage_eq]
    · rintro c n ⟨server, session, tick⟩ rfl
      rfl
  id_nodup db hdb := hdb.board_id
  injective := OrderDual.toDual.injective

theorem collections_answers :
    Answers fmt (Collections.listPaginated fmt) Database.collections
      (fun c => (c.createdAt, c.id)) OrderDual.toDual where
  answer env s params := by
    rw [Collections.listPaginated, respond_paginate (fun c n db =>
      descendingPage (fun x => pageKey x.createdAt x.id) db.collections c n)]
    · simp only [← descendingPage_eq]
    · rintro c n ⟨server, session, tick⟩ rfl
      rfl
  id_nodup db hdb := hdb.collection_id
  injective := OrderDual.toDual.injective

theorem entries_answers (boardId : Uuid) :
    Answers fmt (Entries.listPaginated fmt boardId) (fun db => db.entriesOf boardId)
      (fun e => (e.createdAt, e.id)) id where
  answer env s params := by
    rw [Entries.listPaginated, respond_paginate (fun c n db =>
      ascendingPage (fun e => pageKey e.createdAt e.id) (db.entriesOf boardId) c n)]
    · simp only [← ascendingPage_eq]
    · rintro c n ⟨server, session, tick⟩ rfl
      rfl
  id_nodup db hdb := hdb.entry_id.sublist (List.filter_sublist.map _)
  injective := Function.injective_id

theorem versions_answers (boardId : Uuid) :
    Answers fmt (Versions.listPaginated fmt boardId) (fun db => db.versionsOf boardId)
      (fun v => (v.createdAt, v.id)) OrderDual.toDual where
  answer env s params := by
    rw [Versions.listPaginated, respond_paginate (fun c n db =>
      descendingPage (fun v => pageKey v.createdAt v.id) (db.versionsOf boardId) c n)]
    · simp only [← descendingPage_eq]
    · rintro c n ⟨server, session, tick⟩ rfl
      rfl
  id_nodup db hdb := hdb.version_id.sublist (List.filter_sublist.map _)
  injective := OrderDual.toDual.injective

theorem references_answers (boardId : Uuid) :
    Answers fmt (References.listPaginated fmt boardId)
      (fun db => (db.referencesOf boardId).map db.withPinned) (fun r =>
        (r.createdAt, r.id)) id where
  answer env s params := by
    rw [References.listPaginated, respond_paginate (fun c n db =>
      (ascendingPage (fun r => pageKey r.createdAt r.id) (db.referencesOf boardId) c n).map
        db.withPinned)]
    · -- The pin that a row is joined with is no part of its key.
      have hread : ∀ c n, (ascendingPage (fun r => pageKey r.createdAt r.id)
          (s.db.referencesOf boardId) c n).map s.db.withPinned =
          (following (fun r : BoardReference => cursorKey id (r.createdAt, r.id))
            ((s.db.referencesOf boardId).map s.db.withPinned) (c.map (cursorKey id))).take n := by
        intro c n
        rw [following_map, ← List.map_take, ← ascendingPage_eq]
        rfl
      simp only [hread]
    · rintro c n ⟨server, session, tick⟩ rfl
      rfl
  id_nodup db hdb := by
    rw [List.map_map]
    exact hdb.reference_id.sublist (List.filter_sublist.map _)
  injective := Function.injective_id

/-- **Keyset pagination is exactly once under concurrent change.** -/
theorem keyset_pagination (fmt : CursorFormat) (boardId : Uuid) :
    KeysetPaginated fmt (Boards.listPaginated fmt) Database.boards (fun b => (b.createdAt, b.id))
      OrderDual.toDual ∧
    KeysetPaginated fmt (Entries.listPaginated fmt boardId) (fun db => db.entriesOf boardId)
      (fun e => (e.createdAt, e.id)) id ∧
    KeysetPaginated fmt (Versions.listPaginated fmt boardId) (fun db => db.versionsOf boardId)
      (fun v => (v.createdAt, v.id)) OrderDual.toDual ∧
    KeysetPaginated fmt (Collections.listPaginated fmt) Database.collections
      (fun c => (c.createdAt, c.id)) OrderDual.toDual ∧
    KeysetPaginated fmt (References.listPaginated fmt boardId)
      (fun db => (db.referencesOf boardId).map db.withPinned) (fun r => (r.createdAt, r.id)) id ∧
    ∀ x limit, fmt.RoundTrips x →
      PaginationParams.decodeCursor fmt ⟨limit, some (encodeCursor fmt x)⟩ = .ok (some x) :=
  ⟨boards_answers.keysetPaginated, (entries_answers boardId).keysetPaginated,
    (versions_answers boardId).keysetPaginated, collections_answers.keysetPaginated,
    (references_answers boardId).keysetPaginated,
    fun _ limit h => decodeCursor_encodeCursor h limit⟩

/-! ### A walk -/

/-- Timestamps and uuids as strokes. -/
def strokes : CursorFormat where
  rfc3339 n := String.ofList (List.replicate n '|')
  parseTimestamp s := some s.length
  uuidText n := String.ofList (List.replicate n '|')
  parseUuid s := some s.length

theorem strokes_roundTrips (x : Timestamp × Uuid) : strokes.RoundTrips x where
  timestamp := by simp [strokes]
  uuid := by simp [strokes]
  comma := by simp +contextual [strokes]

/-- The creation of a board. -/
def createOrdered (slug : String) : Request :=
  .createBoard { slug, name := "B", boardType := "ordered" }

/-- There are three boards. -/
def threeBoards : List Move :=
  [.call (createOrdered "b1"), .turns 0 9, .call (createOrdered "b2"), .turns 1 9,
    .call (createOrdered "b3"), .turns 2 9]

/-- A fourth board comes, and the one that is read next goes. -/
def boardsChange : List Move :=
  [.call (createOrdered "b4"), .turns 3 9, .call (.deleteBoard {} "b2"), .turns 4 9]

/-- A client asks for a page of one board. -/
def askFor (s : Server) (cursor : Option String) : Option (Exchange Board) :=
  (respond counting s (Boards.listPaginated strokes ⟨some 1, cursor⟩)).toOption.map fun response =>
    ⟨s, some 1, response⟩

theorem askFor_eq_some {s : Server} {cursor : Option String} {x : Exchange Board}
    (h : askFor s cursor = some x) : x.server = s ∧
      respond counting x.server (Boards.listPaginated strokes ⟨x.limit, cursor⟩) =
        .ok x.response := by
  obtain ⟨response, hresponse, rfl⟩ := Prog.exists_ok (Option.map_eq_some_iff.mp h)
  exact ⟨rfl, hresponse⟩

/-- The rows of the two exchanges that have the same id have the same time of creation. -/
def sameStamps (x y : Exchange Board) : Bool :=
  x.server.db.boards.all fun r => y.server.db.boards.all fun r' =>
    !decide (r.id = r'.id) || decide (r.createdAt = r'.createdAt)

set_option maxRecDepth 10000 in
/-- A client reads two pages of one board, between which a board is created and one is deleted: it
reads the boards that stay, each once. -/
theorem keyset_pagination_run : ∃ xs : List (Exchange Board),
    Follows counting (Boards.listPaginated strokes) none xs ∧ ReadToEnd xs ∧
      xs.map (fun x => x.server.db.boards.map Board.slug) =
        [["b1", "b2", "b3"], ["b1", "b3", "b4"]] ∧
      (receivedRows xs).map Board.slug = ["b3", "b1"] ∧
      ∀ id, (∀ x ∈ xs, ∃ r ∈ x.server.db.boards, r.id = id) →
        ((receivedRows xs).map Board.id).count id = 1 := by
  -- The two states and both pages are computed, and what the theorem asks of them is checked.
  obtain ⟨c₁, hc₁, hc₁'⟩ := (Option.any_eq_true _ _).mp
    (show (Clients.play counting (fun _ _ => true) threeBoards {}).any (fun c₁ =>
      (Clients.play counting (fun _ _ => true) (threeBoards ++ boardsChange) {}).any fun c₂ =>
      (askFor c₁.server none).any fun x => x.response.nextCursor.any fun cursor =>
      (askFor c₂.server (some cursor)).any fun y => y.response.nextCursor.isNone &&
        [x, y].all (fun z => [x, y].all (sameStamps z)) &&
        decide ([x, y].map (fun x => x.server.db.boards.map Board.slug) =
          [["b1", "b2", "b3"], ["b1", "b3", "b4"]]) &&
        decide ((receivedRows [x, y]).map Board.slug = ["b3", "b1"])) = true by decide)
  obtain ⟨c₂, hc₂, hc₂'⟩ := (Option.any_eq_true _ _).mp hc₁'
  obtain ⟨x, hx, hx'⟩ := (Option.any_eq_true _ _).mp hc₂'
  obtain ⟨cursor, hcursor, hy'⟩ := (Option.any_eq_true _ _).mp hx'
  obtain ⟨y, hy, hchecks⟩ := (Option.any_eq_true _ _).mp hy'
  simp only [Bool.and_eq_true, decide_eq_true_eq, Option.isNone_iff_eq_none, List.all_eq_true]
    at hchecks
  obtain ⟨⟨⟨hnone, hstamps⟩, hslugs⟩, hreceived⟩ := hchecks
  obtain ⟨hxserver, hxanswer⟩ := askFor_eq_some hx
  obtain ⟨hyserver, hyanswer⟩ := askFor_eq_some hy
  obtain ⟨g₁, hg₁, hshows₁⟩ : ∃ g : System False, System.Reachable {} g ∧ c₁.Shows g :=
    Clients.reachable_play hc₁
  obtain ⟨g₂, hg₂, hshows₂⟩ : ∃ g : System False, System.Reachable {} g ∧ c₂.Shows g :=
    Clients.reachable_play hc₂
  have hfollows : Follows counting (Boards.listPaginated strokes) none [x, y] :=
    .more hxanswer hcursor (.last hyanswer hnone)
  have hend : ReadToEnd [x, y] := ⟨y, rfl, hnone⟩
  have hstored : ∀ z ∈ [x, y],
      Stored strokes Database.boards (fun b => (b.createdAt, b.id)) z.server := by
    simp only [List.mem_cons, List.not_mem_nil, or_false, forall_eq_or_imp, forall_eq]
    refine ⟨⟨?_, fun _ _ => strokes_roundTrips _⟩, ⟨?_, fun _ _ => strokes_roundTrips _⟩⟩
    · rw [hxserver, ← hshows₁.servers]
      exact hg₁.inv.schema
    · rw [hyserver, ← hshows₂.servers]
      exact hg₂.inv.schema
  obtain ⟨-, -, honce⟩ := (keyset_pagination strokes 0).1.exactly_once counting [x, y] hfollows
    hstored fun z hz z' hz' r hr r' hr' hid => by
      have hsame := List.all_eq_true.mp (List.all_eq_true.mp (hstamps z hz z' hz') r hr) r' hr'
      simp only [Bool.or_eq_true, Bool.not_eq_true', decide_eq_false_iff_not,
        decide_eq_true_eq] at hsame
      exact Prod.ext (hsame.resolve_left (not_not_intro hid)) hid
  exact ⟨[x, y], hfollows, hend, hslugs, hreceived, honce hend⟩

end Leaderboards
