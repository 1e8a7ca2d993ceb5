import Leaderboards.Library.RowNumber

/-!
# Keyset pagination

A client reads a table page by page, in the order of a key. Each page holds the first rows after
the last key seen, and the query asks for one row more than the page takes, to see whether there
are others. Between two pages the table may change in any way.

`Walk` are the pages of such a client. Whatever happens to the table, the keys it receives are
strictly increasing (`Walk.pairwise`), and a key that is in the table at every request is received
by a client that reads to the end (`Walk.complete`).
-/

namespace Keyset

open Ranking

variable {α κ : Type*} [LinearOrder κ] (key : α → κ)

/-- The key of a row is beyond the last key seen, if there is one. -/
def Beyond (after : Option κ) (k : κ) : Prop := after.all (fun c => c < k) = true

theorem beyond_some {c k : κ} : Beyond (some c) k ↔ c < k := by simp [Beyond]

theorem beyond_none (k : κ) : Beyond none k := rfl

/-- The rows beyond the last key seen, in order. -/
def following (rows : List α) (after : Option κ) : List α :=
  orderBy key (rows.filter fun r => after.all fun c => c < key r)

/-- A page: its rows, and the key to go on from, if there are more. -/
structure Page (α κ : Type*) where
  items : List α
  next : Option κ

/-- The page after a key. -/
def page (rows : List α) (after : Option κ) (limit : ℕ) : Page α κ :=
  let found := (following key rows after).take (limit + 1)
  let items := found.take limit
  ⟨items, if limit < found.length then items.getLast?.map key else none⟩

variable {key} {rows : List α} {after : Option κ} {limit : ℕ}

@[simp] theorem mem_following {r : α} :
    r ∈ following key rows after ↔ r ∈ rows ∧ Beyond after (key r) := by
  rw [following, mem_orderBy, List.mem_filter]
  rfl

theorem following_map {β : Type*} (f : β → α) (rows : List β) :
    following key (rows.map f) after = (following (fun r => key (f r)) rows after).map f := by
  rw [following, following, List.filter_map, orderBy_map]
  rfl

theorem following_pairwise (h : (rows.map key).Nodup) :
    (following key rows after).Pairwise fun r s => key r < key s :=
  orderBy_pairwise_lt key (h.sublist (List.filter_sublist.map _))

/-! ### One page -/

theorem page_items : (page key rows after limit).items = (following key rows after).take limit := by
  rw [page, List.take_take, Nat.min_eq_left (Nat.le_succ limit)]

theorem length_page_le : (page key rows after limit).items.length ≤ limit := by
  rw [page_items, List.length_take]
  exact Nat.min_le_left _ _

theorem mem_page {r : α} (h : r ∈ (page key rows after limit).items) :
    r ∈ rows ∧ Beyond after (key r) := by
  rw [page_items] at h
  exact mem_following.mp (List.mem_of_mem_take h)

theorem page_pairwise (h : (rows.map key).Nodup) :
    (page key rows after limit).items.Pairwise fun r s => key r < key s := by
  rw [page_items]
  exact (following_pairwise h).sublist (List.take_sublist _ _)

/-- There is a next page exactly when the query finds one row more than the page takes. -/
theorem page_next : (page key rows after limit).next =
    if limit < (following key rows after).length then
      ((following key rows after).take limit).getLast?.map key else none := by
  have hlen : limit < ((following key rows after).take (limit + 1)).length ↔
      limit < (following key rows after).length := by
    rw [List.length_take]
    omega
  have hitems : (page key rows after limit).items = (following key rows after).take limit :=
    page_items
  simp only [page] at hitems ⊢
  rw [hitems]
  simp only [hlen]

/-- The key to go on from is the one of the last row of the page. -/
theorem page_next_some {c : κ} (h : (page key rows after limit).next = some c) :
    ∃ x, (page key rows after limit).items.getLast? = some x ∧ key x = c := by
  rw [page_next] at h
  split at h
  · rw [page_items]
    exact Option.map_eq_some_iff.mp h
  · cases h

/-- The rows of a page are at most its last one. -/
theorem le_of_getLast? {l : List α} (h : l.Pairwise fun r s => key r < key s) {x : α}
    (hx : l.getLast? = some x) {r : α} (hr : r ∈ l) : key r ≤ key x := by
  obtain ⟨init, rfl⟩ := List.getLast?_eq_some_iff.mp hx
  rw [List.pairwise_append] at h
  rcases List.mem_append.mp hr with hr | hr
  · exact (h.2.2 r hr x List.mem_cons_self).le
  · rw [List.mem_singleton.mp hr]

/-- **A row beyond the last key seen is on the page or beyond the page.** -/
theorem mem_page_or_beyond (hrows : (rows.map key).Nodup) (hlimit : 1 ≤ limit) {r : α}
    (hr : r ∈ rows) (hafter : Beyond after (key r)) :
    r ∈ (page key rows after limit).items ∨
      ∃ c, (page key rows after limit).next = some c ∧ c < key r := by
  have hmem : r ∈ following key rows after := mem_following.mpr ⟨hr, hafter⟩
  have hpair : (following key rows after).Pairwise fun r s => key r < key s :=
    following_pairwise hrows
  rw [← List.take_append_drop limit (following key rows after), List.mem_append] at hmem
  rcases hmem with hmem | hmem
  · rw [page_items]
    exact .inl hmem
  · right
    have hlen : limit < (following key rows after).length := by
      have hpos := List.length_pos_of_mem hmem
      rw [List.length_drop] at hpos
      omega
    have hne : (following key rows after).take limit ≠ [] := by
      intro hnil
      have hzero := congrArg List.length hnil
      rw [List.length_take, List.length_nil] at hzero
      omega
    refine ⟨key (((following key rows after).take limit).getLast hne), ?_, ?_⟩
    · rw [page_next, if_pos hlen, List.getLast?_eq_some_getLast hne, Option.map_some]
    · rw [← List.take_append_drop limit (following key rows after), List.pairwise_append] at hpair
      exact hpair.2.2 _ (List.getLast_mem hne) r hmem

/-- **A page has no next one exactly when no row of the table is beyond its last row**, or beyond
the last key seen when the page is empty. -/
theorem page_next_none_iff (hrows : (rows.map key).Nodup) (hlimit : 1 ≤ limit) :
    (page key rows after limit).next = none ↔ ∀ r ∈ rows, Beyond after (key r) →
      ∃ x, (page key rows after limit).items.getLast? = some x ∧ key r ≤ key x := by
  constructor
  · intro hnone r hr hafter
    rcases mem_page_or_beyond hrows hlimit hr hafter with hmem | ⟨c, hc, -⟩
    · have hne := List.ne_nil_of_mem hmem
      have hlast := List.getLast?_eq_some_getLast hne
      exact ⟨_, hlast, le_of_getLast? (page_pairwise hrows) hlast hmem⟩
    · rw [hnone] at hc
      cases hc
  · intro hall
    rw [page_next]
    split
    · rename_i hlen
      -- The row after the page contradicts the assumption.
      have hnext := List.getElem_mem hlen
      obtain ⟨hr, hafter⟩ := mem_following.mp hnext
      obtain ⟨x, hx, hle⟩ := hall _ hr hafter
      rw [page_items] at hx
      have hxmem := List.mem_of_getLast? hx
      obtain ⟨i, hi, hxi⟩ := List.mem_iff_getElem.mp hxmem
      have hi' := hi
      rw [List.length_take] at hi'
      rw [List.getElem_take] at hxi
      have hpair : (following key rows after).Pairwise fun r s => key r < key s :=
        following_pairwise hrows
      have hlt := List.pairwise_iff_getElem.mp hpair i limit (by omega) hlen (by omega)
      rw [hxi] at hlt
      exact absurd hle (not_le.mpr hlt)
    · rfl

/-! ### Many pages -/

/-- A request of the client: the table at that time, the size of the page, and the page. -/
structure Fetch (α κ : Type*) where
  rows : List α
  limit : ℕ
  page : Page α κ

/-- The pages of a client that goes on from the key it is given, and may stop at any time. -/
inductive Walk (key : α → κ) : Option κ → List (Fetch α κ) → Prop
  | stop (after : Option κ) : Walk key after []
  | last {after : Option κ} {f : Fetch α κ} (hf : f.page = Keyset.page key f.rows after f.limit)
      (hnone : f.page.next = none) : Walk key after [f]
  | more {after : Option κ} {f : Fetch α κ} {fs : List (Fetch α κ)} {c : κ}
      (hf : f.page = Keyset.page key f.rows after f.limit) (hsome : f.page.next = some c)
      (hrest : Walk key (some c) fs) : Walk key after (f :: fs)

/-- The rows that the client receives. -/
def received (fs : List (Fetch α κ)) : List α := fs.flatMap fun f => f.page.items

/-- The client has read to the end. -/
def Finished (fs : List (Fetch α κ)) : Prop := ∃ f, fs.getLast? = some f ∧ f.page.next = none

variable {fs : List (Fetch α κ)}

/-- All that is received is beyond the key the client starts from. -/
theorem Walk.beyond (h : Walk key after fs) (hrows : ∀ f ∈ fs, (f.rows.map key).Nodup) :
    ∀ r ∈ received fs, Beyond after (key r) := by
  induction h with
  | stop => simp [received]
  | @last after f hf hnone =>
    intro r hr
    rw [received, List.flatMap_singleton, hf] at hr
    exact (mem_page hr).2
  | @more after f fs c hf hsome hrest ih =>
    intro r hr
    rw [received, List.flatMap_cons, List.mem_append] at hr
    rcases hr with hr | hr
    · rw [hf] at hr
      exact (mem_page hr).2
    · have hc := beyond_some.mp (ih (fun g hg => hrows g (List.mem_cons_of_mem _ hg)) r hr)
      rw [hf] at hsome
      obtain ⟨x, hx, rfl⟩ := page_next_some hsome
      have hxafter := (mem_page (List.mem_of_getLast? hx)).2
      cases after with
      | none => exact beyond_none _
      | some d => exact beyond_some.mpr ((beyond_some.mp hxafter).trans hc)

/-- **The keys that the client receives are strictly increasing**, also from page to page. -/
theorem Walk.pairwise (h : Walk key after fs) (hrows : ∀ f ∈ fs, (f.rows.map key).Nodup) :
    (received fs).Pairwise fun r s => key r < key s := by
  induction h with
  | stop => exact List.Pairwise.nil
  | @last after f hf hnone =>
    rw [received, List.flatMap_singleton, hf]
    exact page_pairwise (hrows f List.mem_cons_self)
  | @more after f fs c hf hsome hrest ih =>
    have hrows' : ∀ g ∈ fs, (g.rows.map key).Nodup :=
      fun g hg => hrows g (List.mem_cons_of_mem _ hg)
    have hpage : f.page.items.Pairwise fun r s => key r < key s := by
      rw [hf]
      exact page_pairwise (hrows f List.mem_cons_self)
    rw [received, List.flatMap_cons, List.pairwise_append]
    refine ⟨hpage, ih hrows', fun r hr s hs => ?_⟩
    -- The last key of this page stands between the two rows.
    have hs' : c < key s := beyond_some.mp (hrest.beyond hrows' s hs)
    rw [hf] at hsome
    obtain ⟨x, hx, rfl⟩ := page_next_some hsome
    rw [← hf] at hx
    exact (le_of_getLast? hpage hx hr).trans_lt hs'

/-- **A key that is there at every request is received** by a client that reads to the end. -/
theorem Walk.complete (h : Walk key after fs) (hrows : ∀ f ∈ fs, (f.rows.map key).Nodup)
    (hlimits : ∀ f ∈ fs, 1 ≤ f.limit) (hfinished : Finished fs) {k : κ}
    (hk : ∀ f ∈ fs, ∃ r ∈ f.rows, key r = k) (hafter : Beyond after k) :
    ∃ r ∈ received fs, key r = k := by
  -- A key beyond the cursor is on the page, or beyond the cursor of the next request.
  induction h with
  | stop =>
    obtain ⟨f, hf, -⟩ := hfinished
    cases hf
  | @last after f hf hnone =>
    obtain ⟨r, hr, rfl⟩ := hk f List.mem_cons_self
    rw [hf] at hnone
    rcases mem_page_or_beyond (hrows f List.mem_cons_self) (hlimits f List.mem_cons_self) hr hafter
      with hmem | ⟨c, hc, -⟩
    · rw [received, List.flatMap_singleton, hf]
      exact ⟨r, hmem, rfl⟩
    · rw [hnone] at hc
      cases hc
  | @more after f fs c hf hsome hrest ih =>
    obtain ⟨r, hr, rfl⟩ := hk f List.mem_cons_self
    rw [received, List.flatMap_cons]
    rcases mem_page_or_beyond (hrows f List.mem_cons_self) (hlimits f List.mem_cons_self) hr hafter
      with hmem | ⟨d, hd, hlt⟩
    · refine ⟨r, List.mem_append_left _ ?_, rfl⟩
      rwa [hf]
    · rw [← hf, hsome] at hd
      obtain rfl := Option.some.inj hd
      have hfinished' : Finished fs := by
        obtain ⟨g, hg, hgnone⟩ := hfinished
        cases fs with
        | nil =>
          obtain rfl : f = g := Option.some.inj hg
          rw [hsome] at hgnone
          cases hgnone
        | cons f' fs =>
          rw [List.getLast?_cons_cons] at hg
          exact ⟨g, hg, hgnone⟩
      obtain ⟨x, hx, hkey⟩ := ih (fun g hg => hrows g (List.mem_cons_of_mem _ hg))
        (fun g hg => hlimits g (List.mem_cons_of_mem _ hg)) hfinished'
        (fun g hg => hk g (List.mem_cons_of_mem _ hg)) (beyond_some.mpr hlt)
      exact ⟨x, List.mem_append_right _ hx, hkey⟩

/-! ### A table that does not change -/

/-- After a page come the rows that the page left out. -/
theorem following_next (hrows : (rows.map key).Nodup) {c : κ}
    (hc : (page key rows after limit).next = some c) :
    following key rows (some c) = (following key rows after).drop limit := by
  obtain ⟨x, hx, rfl⟩ := page_next_some hc
  have hpair : (following key rows after).Pairwise fun r s => key r < key s :=
    following_pairwise hrows
  rw [page_items] at hx
  have hxafter := (mem_following.mp (List.mem_of_mem_take (List.mem_of_getLast? hx))).2
  have hsplit := List.take_append_drop limit (following key rows after)
  have hcut := hpair
  rw [← hsplit, List.pairwise_append] at hcut
  have htake := hcut.1
  -- Both lists are strictly increasing, with the same rows.
  have hmem : ∀ r, r ∈ (following key rows after).drop limit ↔
      r ∈ rows.filter fun r => key x < key r := by
    intro r
    rw [List.mem_filter, decide_eq_true_eq]
    constructor
    · intro hr
      exact ⟨(mem_following.mp (List.mem_of_mem_drop hr)).1,
        hcut.2.2 x (List.mem_of_getLast? hx) r hr⟩
    · rintro ⟨hr, hlt⟩
      have hbeyond : Beyond after (key r) := by
        cases after with
        | none => exact beyond_none _
        | some d => exact beyond_some.mpr ((beyond_some.mp hxafter).trans hlt)
      have hfound := mem_following.mpr ⟨hr, hbeyond⟩
      rw [← hsplit, List.mem_append] at hfound
      refine hfound.resolve_left fun hbefore => ?_
      exact absurd hlt (not_lt.mpr (le_of_getLast? htake hx hbefore))
  have hnodup : ∀ l : List α, (l.Pairwise fun r s => key r < key s) → l.Nodup := fun l hl =>
    hl.imp fun hlt heq => absurd (congrArg key heq) hlt.ne
  refine (eq_orderBy key ((List.perm_ext_iff_of_nodup (hnodup _ hcut.2.1) ?_).mpr hmem)
    hcut.2.1).symm
  exact (hrows.of_map _).sublist List.filter_sublist

/-- **A client that reads an unchanging table receives it in order.** -/
theorem Walk.received_prefix (h : Walk key after fs) (hrows : (rows.map key).Nodup)
    (hsame : ∀ f ∈ fs, f.rows = rows) (hlimits : ∀ f ∈ fs, 1 ≤ f.limit) :
    received fs <+: following key rows after ∧
      (Finished fs → received fs = following key rows after) := by
  induction h with
  | stop =>
    refine ⟨List.nil_prefix, ?_⟩
    rintro ⟨f, hf, -⟩
    cases hf
  | @last after f hf hnone =>
    obtain rfl := hsame f List.mem_cons_self
    -- The last page is not full, or there would be a cursor: it is all that is left.
    have hall : received [f] = following key f.rows after := by
      rw [received, List.flatMap_singleton, hf, page_items, List.take_eq_self_iff]
      rw [hf, page_next] at hnone
      by_contra hlt
      rw [if_pos (not_le.mp hlt), Option.map_eq_none_iff, List.getLast?_eq_none_iff,
        List.take_eq_nil_iff] at hnone
      have hlimit := hlimits f List.mem_cons_self
      rcases hnone with hzero | hnil
      · omega
      · simp [hnil] at hlt
    exact ⟨hall ▸ List.prefix_rfl, fun _ => hall⟩
  | @more after f fs c hf hsome hrest ih =>
    obtain rfl := hsame f List.mem_cons_self
    obtain ⟨hpre, hfinal⟩ := ih (fun g hg => hsame g (List.mem_cons_of_mem _ hg))
      fun g hg => hlimits g (List.mem_cons_of_mem _ hg)
    rw [hf] at hsome
    rw [following_next hrows hsome] at hpre hfinal
    -- What follows the cursor is the page, and then what follows the next cursor.
    have hsplit := List.take_append_drop f.limit (following key f.rows after)
    have hreceived : received (f :: fs) =
        (following key f.rows after).take f.limit ++ received fs := by
      rw [received, List.flatMap_cons, hf, page_items]
      rfl
    rw [hreceived]
    constructor
    · conv_rhs => rw [← hsplit]
      exact (List.prefix_append_right_inj _).mpr hpre
    · rintro ⟨g, hg, hgnone⟩
      cases fs with
      | nil =>
        obtain rfl : f = g := Option.some.inj hg
        rw [hf, hsome] at hgnone
        cases hgnone
      | cons f' fs =>
        rw [List.getLast?_cons_cons] at hg
        rw [hfinal ⟨g, hg, hgnone⟩]
        exact hsplit

end Keyset
