import Leaderboards.Transactions.Rules

/-!
# Transactions that create versions

What a handler knows while it writes versions of a board. `EntryOn` is what it knows of an entry
id that it read earlier; it survives the commits of others. `Writing` describes a
transaction that holds the board locked, between two versions; `Filling` the same transaction
while it inserts the placements of one version. The steps are `Writing.insertVersion`,
`Filling.insertPlacement`, and `Filling.derive` or `Filling.close`, after which every pending
version is complete.
-/

namespace Leaderboards

open Ranking

variable {P : Policy} {s s₁ : Server} {tx : Tx} {L : List Lock} {ws : List RowWrite}

/-! ### Rows read earlier -/

/-- An entry id that was read: the row with this id, if there is one, belongs to the board. -/
def KnownEntry (s : Server) (boardId id : Uuid) : Prop :=
  id ∈ s.usedEntries ∧ ∀ e ∈ s.db.entries, e.id = id → e.boardId = boardId

theorem KnownEntry.of_mem (hs : ServerInv P s) {e : Entry} (he : e ∈ s.db.entries) :
    KnownEntry s e.boardId e.id :=
  ⟨hs.entry_used e he, fun r hr hid => by rw [hs.schema.entry_inj hr he hid]⟩

theorem KnownEntry.stable {boardId id : Uuid} (h : KnownEntry s boardId id)
    (hrely : Rely L s s₁) : KnownEntry s₁ boardId id := by
  refine ⟨hrely.entry_used _ h.1, fun e he hid => ?_⟩
  obtain ⟨e', he', hkey⟩ := hrely.entry_reused e he (hid ▸ h.1)
  rw [← hkey.2.1]
  exact h.2 e' he' (hkey.1.trans hid)

/-- A board row that was read: the row with its id, if there is one, has the same key. -/
structure KnownBoard (s : Server) (b : Board) : Prop where
  used : b.id ∈ s.usedBoards
  same : ∀ r ∈ s.db.boards, r.id = b.id → b.SameKey r

theorem KnownBoard.of_mem (hs : ServerInv P s) {b : Board} (hb : b ∈ s.db.boards) :
    KnownBoard s b where
  used := hs.board_used b hb
  same r hr hid := by
    rw [hs.schema.board_inj hr hb hid]
    exact ⟨rfl, rfl, rfl, rfl⟩

theorem KnownBoard.stable {b : Board} (h : KnownBoard s b) (hrely : Rely L s s₁) :
    KnownBoard s₁ b where
  used := hrely.board_used _ h.used
  same r hr hid := by
    obtain ⟨r', hr', h₁, h₂, h₃, h₄⟩ := hrely.board_reused r hr (hid ▸ h.used)
    obtain ⟨k₁, k₂, k₃, k₄⟩ := h.same r' hr' (h₁.trans hid)
    exact ⟨k₁.trans h₁, k₂.trans h₂, k₃.trans h₃, k₄.trans h₄⟩

/-- An entry id that a transaction may place on a board: it is known, or it is the id of a
locked row. -/
def EntryOn (s : Server) (tx : Tx) (boardId id : Uuid) : Prop :=
  KnownEntry s boardId id ∨ (Held tx.locks (.entry id) .keyShare ∧
    ∃ e ∈ (tx.view s).entries, e.id = id ∧ e.boardId = boardId)

/-- The ids of the entry rows a transaction sees can be placed on their boards. -/
theorem EntryOn.of_view (ho : Open P s tx) (hs : ServerInv P s) {e : Entry}
    (he : e ∈ (tx.view s).entries) : EntryOn s tx e.boardId e.id := by
  rcases ho.legal.entry_origin he with ⟨r, hr, hkey⟩ | ⟨-, hL⟩
  · left
    rw [← hkey.1, ← hkey.2.1]
    exact KnownEntry.of_mem hs hr
  · exact .inr ⟨hL.weaken rfl, e, he, rfl, rfl⟩

theorem EntryOn.board {boardId id : Uuid} (h : EntryOn s tx boardId id) (ho : Open P s tx)
    (hs : ServerInv P s) {e : Entry} (he : e ∈ (tx.view s).entries) (hid : e.id = id) :
    e.boardId = boardId := by
  rcases h with ⟨hused, hknown⟩ | ⟨-, e', he', hid', hb⟩
  · rcases ho.legal.entry_origin he with ⟨r, hr, hkey⟩ | ⟨hnew, -⟩
    · rw [← hkey.2.1]
      exact hknown r hr (hkey.1.trans hid)
    · exact absurd (hid ▸ hused) hnew
  · rw [(ho.schema hs).entry_inj he he' (hid.trans hid'.symm), hb]

theorem EntryOn.stable {boardId id : Uuid} (h : EntryOn s tx boardId id)
    (hrely : Rely tx.locks s s₁) (hagree : Agree tx.locks (tx.view s) (tx.view s₁)) :
    EntryOn s₁ tx boardId id := by
  rcases h with h | ⟨hL, e, he, hid, hb⟩
  · exact .inl (h.stable hrely)
  · obtain ⟨e', he', hid', hb', -⟩ := (hagree.entry_key id boardId e.slug hL).mp
      ⟨e, he, hid, hb, rfl⟩
    exact .inr ⟨hL, e', he', hid', hb'⟩

theorem EntryOn.add {boardId id : Uuid} (h : EntryOn s tx boardId id)
    (hws : ∀ e ∈ (tx.view s).entries, e ∈ ((tx.view s).applyAll ws).entries) :
    EntryOn s (tx.add ws L) boardId id := by
  rcases h with h | ⟨hL, e, he, hid, hb⟩
  · exact .inl h
  · refine .inr ⟨hL.mono fun _ hl => List.mem_append_left _ hl, e, ?_, hid, hb⟩
    rw [Tx.view_add]
    exact hws e he

/-! ### A locked board -/

/-- The transaction holds the row of the board locked. -/
structure Locked (s : Server) (tx : Tx) (b : Board) : Prop where
  row : b ∈ (tx.view s).boards
  lock : Held tx.locks (.board b.id) .update

theorem Locked.stable {b : Board} (h : Locked s tx b)
    (hagree : Agree tx.locks (tx.view s) (tx.view s₁)) : Locked s₁ tx b :=
  ⟨(hagree.board_row b (h.lock.weaken rfl)).mp h.row, h.lock⟩

theorem Locked.add {b : Board} (h : Locked s tx b)
    (hws : ((tx.view s).applyAll ws).boards = (tx.view s).boards) : Locked s (tx.add ws L) b where
  row := by
    rw [Tx.view_add, hws]
    exact h.row
  lock := h.lock.mono fun _ hl => List.mem_append_left _ hl

/-! ### Writing versions -/

/-- What a transaction that creates versions works with. -/
structure Draft where
  board : Board
  /-- The ids of the entries to be placed. -/
  entryIds : List Uuid
  /-- The board is inserted by the same transaction. -/
  isNew : Prop

/-- A transaction that creates versions of a board: the pending versions other than `except`
are complete. -/
structure Writing (P : Policy) (D : Draft) (except : Option Uuid) (s : Server) (tx : Tx) :
    Prop where
  inv : ServerInv P s
  is_open : Open P s tx
  locked : Locked s tx D.board
  /-- The lock keeps the committed row. -/
  current : ∀ r ∈ s.db.boards, r.id = D.board.id → r = D.board
  entries : ∀ id ∈ D.entryIds, EntryOn s tx D.board.id id
  pending : D.isNew → D.board.id ∉ s.usedBoards
  done : Done P s tx except

/-- A transaction that is inserting the placements of the version `v`; `data` are the values
so far. -/
structure Filling (P : Policy) (D : Draft) (v : Version) (data : List Versions.Values)
    (s : Server) (tx : Tx) : Prop extends Writing P D (some v.id) s tx where
  version : v ∈ (tx.view s).versions
  version_board : v.boardId = D.board.id
  version_lock : Held tx.locks (.version v.id) .update
  uncommitted : ∀ r ∈ s.db.versions, r.id ≠ v.id
  placements : ((tx.view s).placementsOf v.id).map Placement.values = data

variable {D : Draft} {except : Option Uuid} {v : Version}
  {data : List Versions.Values}

theorem Writing.stable (h : Writing P D except s tx) (hs₁ : ServerInv P s₁)
    (hrely : Rely tx.locks s s₁) : Writing P D except s₁ tx := by
  obtain ⟨ho₁, hagree⟩ := h.is_open.stable h.inv hs₁ hrely
  refine ⟨hs₁, ho₁, h.locked.stable hagree, fun r hr hid => ?_,
    fun id hid => (h.entries id hid).stable hrely hagree,
    fun hnew => hrely.board_fresh _ h.locked.lock (h.pending hnew),
    h.done.stable h.is_open h.inv hs₁ hrely⟩
  have hrow : Held tx.locks (.board r.id) .noKeyUpdate := hid ▸ h.locked.lock.weaken rfl
  exact h.current r ((hrely.agree.board_row r hrow).mpr hr) hid

theorem Filling.stable (h : Filling P D v data s tx) (hs₁ : ServerInv P s₁)
    (hrely : Rely tx.locks s s₁) : Filling P D v data s₁ tx := by
  obtain ⟨-, hagree⟩ := h.is_open.stable h.inv hs₁ hrely
  refine ⟨h.toWriting.stable hs₁ hrely, (hagree.version_row v (h.version_lock.weaken rfl)).mp
    h.version,
    h.version_board, h.version_lock, fun r hr hid => ?_, ?_⟩
  · exact h.uncommitted r
      ((hrely.agree.version_row r (hid ▸ h.version_lock.weaken rfl)).mpr hr) hid
  · rw [hagree.version_placements v.id h.version_lock]
    exact h.placements

/-- A complete version stays complete while its board and its placements are left alone. -/
theorem Complete.congr {committed db db' : Database} {v : Version} (h : Complete P committed db v)
    (hboards : db'.boards = db.boards) (hplacements : db'.placementsOf
      v.id = db.placementsOf v.id) :
    Complete P committed db' v := by
  obtain ⟨b, hb, hid, hcurrent, hcomplete⟩ := h
  exact ⟨b, hboards ▸ hb, hid, hcurrent, hplacements ▸ hcomplete⟩

/-- Writes that remove nothing keep the versions. -/
theorem mem_applyAll_versions {db : Database} (hws : ∀ w ∈ ws, ¬w.removes) {v : Version}
    (hv : v ∈ db.versions) : v ∈ (db.applyAll ws).versions := by
  induction ws generalizing db with
  | nil => exact hv
  | cons w ws ih =>
    refine ih (fun w' hw' => hws w' (List.mem_cons_of_mem _ hw')) ?_
    cases w with
    | addVersion r => exact List.mem_append_left _ hv
    | removeBoard id => exact absurd trivial (hws _ List.mem_cons_self)
    | _ => exact hv

/-- What a statement adds to a transaction that creates versions. -/
private theorem Writing.add {except' : Option Uuid} (h : Writing P D except s tx)
    (hws : ∀ w ∈ ws, ¬w.removes) (hlegal : LegalSeq P s (tx.locks ++ L) ws (tx.view s))
    (hboards : ((tx.view s).applyAll ws).boards = (tx.view s).boards)
    (hentries : ∀ e ∈ (tx.view s).entries, e ∈ ((tx.view s).applyAll ws).entries)
    (hdone : Done P s (tx.add ws L) except') : Writing P D except' s (tx.add ws L) where
  inv := h.inv
  is_open := h.is_open.add hws hlegal
  locked := h.locked.add hboards
  current := h.current
  entries id hid := (h.entries id hid).add hentries
  pending := h.pending
  done := hdone

/-! ### The steps -/

/-- The limit on the versions of a board, as the policy states it. -/
def UnderLimit (P : Policy) (db : Database) (boardId : Uuid) : Prop :=
  ∀ m, P.maxVersions = some m → ((db.versionsOf boardId).length : ℤ) < m

/-- **A new version starts empty.** -/
theorem Writing.insertVersion (h : Writing P D none s tx) {u : Uuid} {n : ℤ}
    {note : Option String} {metadata : Option Json}
    (hexec : exec u tx.now (.insertVersion D.board.id n note metadata) (tx.view s) = .ok (v, ws))
    (hnext : D.isNew ∨ (n = s.db.maxVersionNumber D.board.id + 1 ∧
      UnderLimit P s.db D.board.id)) :
    Filling P D v [] s (tx.add ws
      ((Query.insertVersion D.board.id n note metadata).locks u (tx.view s))) := by
  obtain ⟨rfl, -, hfresh, -, -, hv⟩ := execInsertVersion_ok hexec
  have hid : v.id = u := by rw [hv]
  have hbd : v.boardId = D.board.id := by rw [hv]
  have hnumber : v.versionNumber = n := by rw [hv]
  have hlock : Held (tx.locks ++
      (Query.insertVersion D.board.id n note metadata).locks u (tx.view s)) (.version v.id)
      .update := hid ▸ held_of_mem (List.mem_append_right _ (by simp [Query.locks]))
  -- A version of a board that is new has any number; otherwise it is the next one, below the limit.
  have hlegal : Legal P s (tx.locks ++
      (Query.insertVersion D.board.id n note metadata).locks u (tx.view s)) (.addVersion v)
      (tx.view s) := by
    refine legal_insertVersion hexec ?_
      (h.locked.lock.mono fun _ hl => List.mem_append_left _ hl) (hid ▸ hlock)
    rcases hnext with hnew | ⟨hn, hlimit⟩
    · right
      intro r hr hrid
      exact h.pending hnew (hrid ▸ h.inv.board_used r hr)
    · exact .inl ⟨by rw [hnumber, hbd, hn], by rw [hbd]; exact hlimit⟩
  -- The version itself is not finished yet; the others are as they were.
  have hdone : Done P s (tx.add [.addVersion v]
      ((Query.insertVersion D.board.id n note metadata).locks u (tx.view s))) (some v.id) := by
    intro r hr hnew hne
    rw [Tx.view_add] at hr ⊢
    rcases List.mem_append.mp hr with hr | hr
    · exact (h.done r hr hnew (by simp)).congr rfl rfl
    · obtain rfl := List.mem_singleton.mp hr
      exact absurd rfl hne
  refine ⟨h.add (by simp [RowWrite.removes]) (legalSeq_singleton.mpr hlegal) rfl (fun _ he =>
    he) hdone,
    ?_, hbd, hlock, fun r hr heq => ?_, ?_⟩
  · rw [Tx.view_add]
    exact List.mem_append_right _ (List.mem_singleton.mpr rfl)
  · exact hfresh r (mem_applyAll_versions h.is_open.keeps hr) (heq.trans hid)
  · rw [Tx.view_add, List.map_eq_nil_iff, List.eq_nil_iff_forall_not_mem]
    intro p hp
    obtain ⟨hp, hpv⟩ := Database.mem_placementsOf.mp hp
    obtain ⟨r, hr, -, -, hrid, -⟩ := (h.is_open.schema h.inv).placement_board p hp
    exact hfresh r hr (hrid.trans (hpv.trans hid))

theorem placementsOf_addPlacement {db : Database} {p : Placement} {id : Uuid} :
    (db.addPlacement p).placementsOf id =
      db.placementsOf id ++ (if p.versionId = id then [p] else []) := by
  simp only [Database.placementsOf, Database.addPlacement_placements, List.filter_append,
    List.filter_cons, List.filter_nil, decide_eq_true_eq]

/-- **A placement is appended to the version.** -/
theorem Filling.insertPlacement (h : Filling P D v data s tx) {u entryId : Uuid}
    {position : Option ℤ} {score : Option F64} {tier : Option String} {metadata : Option Json}
    {p : Placement} (hentry : entryId ∈ D.entryIds)
    (hexec : exec u tx.now (.insertPlacement v.id entryId position score tier metadata)
      (tx.view s) = .ok (p, ws)) :
    Filling P D v (data ++ [⟨position, score, tier⟩]) s (tx.add ws
      ((Query.insertPlacement v.id entryId position score tier metadata).locks u (tx.view s))) := by
  obtain ⟨rfl, -, -, -, -, hp⟩ := execInsertPlacement_ok hexec
  have hpv : p.versionId = v.id := by rw [hp]
  have hlegal : Legal P s (tx.locks ++
      (Query.insertPlacement v.id entryId position score tier metadata).locks u (tx.view s))
      (.addPlacement p) (tx.view s) := by
    refine legal_insertPlacement hexec h.version rfl (fun e he hid => ?_) h.uncommitted
      (h.version_lock.mono fun _ hl => List.mem_append_left _ hl)
      fun l hl => List.mem_append_right _ hl
    rw [h.version_board]
    exact (h.entries entryId hentry).board h.is_open h.inv he hid
  -- The other versions keep their placements; this one is not finished yet.
  have hdone : Done P s (tx.add [.addPlacement p]
      ((Query.insertPlacement v.id entryId position score tier metadata).locks u (tx.view s)))
      (some v.id) := by
    intro r hr hnew hne
    rw [Tx.view_add] at hr ⊢
    refine (h.done r hr hnew hne).congr rfl ?_
    rw [Database.applyAll_cons, Database.applyAll_nil, RowWrite.apply, placementsOf_addPlacement,
      if_neg fun heq => hne (by rw [← heq, hpv]), List.append_nil]
  refine ⟨h.toWriting.add (by simp [RowWrite.removes]) (legalSeq_singleton.mpr hlegal) rfl
    (fun _ he => he) hdone, ?_, h.version_board, h.version_lock.mono fun _ hl =>
      List.mem_append_left _ hl,
    h.uncommitted, ?_⟩
  · rw [Tx.view_add]
    exact h.version
  · rw [Tx.view_add, Database.applyAll_cons, Database.applyAll_nil, RowWrite.apply,
      placementsOf_addPlacement, if_pos hpv, List.map_append, h.placements, hp]
    rfl

/-- A version whose placements fit the board ends the work on it. -/
theorem Filling.close (h : Filling P D v data s tx)
    (hcomplete : CompleteFor P D.board ((tx.view s).placementsOf v.id)) :
    Writing P D none s tx where
  inv := h.inv
  is_open := h.is_open
  locked := h.locked
  current := h.current
  entries := h.entries
  pending := h.pending
  done r hr hnew _ := by
    by_cases hid : r.id = v.id
    · have hrv := (h.is_open.schema h.inv).version_inj hr h.version hid
      rw [hrv]
      exact ⟨D.board, h.locked.row, h.version_board.symm, h.current, hcomplete⟩
    · exact h.done r hr hnew (by simpa using hid)

/-- **`derive_scored_positions` completes a version of a scored board.** -/
theorem Filling.derive (h : Filling P D v data s tx) {u : Uuid} {x : Unit}
    (hscored : D.board.boardType = "scored") (hne : data ≠ [])
    (hfin : ∀ d ∈ data, ∃ x, d.score = some x ∧ x.isFinite = true)
    (hexec : exec u tx.now (.derivePositions v.id (D.board.sortDirection = "asc")) (tx.view s) =
      .ok (x, ws)) :
    Writing P D none s (tx.add ws
      ((Query.derivePositions v.id (D.board.sortDirection = "asc")).locks u (tx.view s))) := by
  have hfits : ((tx.view s).placementsOf v.id).length ≤ 2147483647 := by
    simp only [exec, execDerivePositions] at hexec
    split at hexec
    · assumption
    · cases hexec
  obtain rfl := execDerivePositions_ok hexec
  have hschema := h.is_open.schema h.inv
  have hlegal : Legal P s (tx.locks ++
      (Query.derivePositions v.id (D.board.sortDirection = "asc")).locks u (tx.view s))
      (.setPositions (rankedPositions (tx.view s) v.id (D.board.sortDirection = "asc")))
      (tx.view s) :=
    legal_derivePositions h.uncommitted (h.version_lock.mono fun _ hl => List.mem_append_left _ hl)
  have hplacements : ((tx.view s).placementsOf v.id).map Placement.values = data := h.placements
  have hranked : ∀ p ∈ (tx.view s).placementsOf v.id,
      ∃ x, p.score = some x ∧ x.isFinite = true := fun p hp =>
    hfin p.values (hplacements ▸ List.mem_map_of_mem hp)
  have hne' : (tx.view s).placementsOf v.id ≠ [] := by
    intro hnil
    rw [hnil] at hplacements
    exact hne hplacements.symm
  have hdone : Done P s (tx.add
      [.setPositions (rankedPositions (tx.view s) v.id (D.board.sortDirection = "asc"))]
      ((Query.derivePositions v.id (D.board.sortDirection = "asc")).locks u (tx.view s))) none := by
    intro r hr hnew _
    rw [Tx.view_add] at hr ⊢
    -- The ranked version is finished by this write, and the other versions keep their placements.
    by_cases hid : r.id = v.id
    · have hrv := hschema.version_inj hr h.version hid
      refine ⟨D.board, h.locked.row, by rw [hrv, h.version_board], h.current, ?_⟩
      rw [Database.applyAll_cons, Database.applyAll_nil, RowWrite.apply, hid,
        hschema.placementsOf_derive]
      exact ⟨valid_ranked hne' hscored hranked, fun _ => scoredRanked_ranked hranked,
        fun _ => by rwa [List.length_map], fun _ ht => absurd (ht.symm.trans hscored) (by decide)⟩
    · exact (h.done r hr hnew (by simpa using hid)).congr rfl
        (hschema.placementsOf_derive_of_ne _ hid)
  exact h.toWriting.add (by simp [RowWrite.removes]) (legalSeq_singleton.mpr hlegal)
    rfl (fun _ he => he)
    hdone

/-! ### A new board -/

theorem Writing.withEntries (h : Writing P D except s tx) {ids : List Uuid}
    (hids : ∀ id ∈ ids, EntryOn s tx D.board.id id) :
    Writing P { D with entryIds := ids } except s tx :=
  { h with entries := hids, locked := h.locked, current := h.current, pending := h.pending
           done := h.done }

/-- A transaction that starts by inserting a board. -/
theorem Writing.insertBoard {now : Timestamp} {u : Uuid} {input : CreateBoard} {b : Board}
    (hs : ServerInv P s) (hu : s.Fresh u) (hconfig : P.AllowsNew input)
    (hexec : exec u now (.insertBoard input) s.db = .ok (b, ws)) :
    Writing P ⟨b, [], True⟩ none s
      (Tx.add ⟨[], [], now⟩ ws ((Query.insertBoard input).locks u s.db)) := by
  have hlegal := legal_insertBoard (P := P) hexec hu hconfig fun _ hl => hl
  obtain ⟨rfl, -, -, -, hb⟩ := execInsertBoard_ok hexec
  refine ⟨hs, (Open.begin P s now).add (by simp [RowWrite.removes])
    (legalSeq_singleton.mpr hlegal), ⟨?_, hlegal.2.2.2.2.2.1⟩,
    fun r hr hid => absurd (hid ▸ hs.board_used r hr) hlegal.1, by simp, fun _ => hlegal.1, ?_⟩
  · rw [Tx.view_add]
    exact List.mem_append_right _ (List.mem_singleton.mpr rfl)
  · refine done_of_versions ?_
    rw [Tx.view_add]
    rfl

/-- An entry of the new board. -/
theorem Writing.insertEntry (h : Writing P D none s tx) {u : Uuid} {slug name : String}
    {metadata : Option Json} {e : Entry} (hu : s.Fresh u)
    (hexec : exec u tx.now (.insertEntry D.board.id slug name metadata) (tx.view s) =
      .ok (e, ws)) :
    Writing P { D with entryIds := D.entryIds ++ [e.id] } none s
      (tx.add ws ((Query.insertEntry D.board.id slug name metadata).locks u (tx.view s))) := by
  have hlegal := legal_insertEntry (P := P) (L := tx.locks ++
    (Query.insertEntry D.board.id slug name metadata).locks u (tx.view s)) hexec hu
    fun l hl => List.mem_append_right _ hl
  obtain ⟨rfl, -, -, -, he⟩ := execInsertEntry_ok hexec
  have hdone : Done P s (tx.add [.addEntry e]
      ((Query.insertEntry D.board.id slug name metadata).locks u (tx.view s))) none := by
    intro r hr hnew hne
    rw [Tx.view_add] at hr ⊢
    exact (h.done r hr hnew hne).congr rfl rfl
  have hadd : Writing P D none s (tx.add [.addEntry e]
      ((Query.insertEntry D.board.id slug name metadata).locks u (tx.view s))) :=
    h.add (by simp [RowWrite.removes]) (legalSeq_singleton.mpr hlegal) rfl
      (fun r hr => List.mem_append_left _ hr) hdone
  refine hadd.withEntries fun id hid => ?_
  rcases List.mem_append.mp hid with hid | hid
  · exact hadd.entries id hid
  · obtain rfl := List.mem_singleton.mp hid
    refine .inr ⟨hlegal.2.2.2.2.2.1.weaken rfl, e, ?_, rfl, by rw [he]⟩
    rw [Tx.view_add]
    exact List.mem_append_right _ (List.mem_singleton.mpr rfl)

end Leaderboards
