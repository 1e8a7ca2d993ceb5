import Leaderboards.Transactions.Handlers

/-!
# Version creation keeps the contract

The three transactions that create one version, and the import, which creates a board with all
of its versions. They share their shape: lock the board, check the limit, take the next number,
insert the version, insert its placements in a loop, and rank them. Each phase has one rule
below; the handlers are assembled from them.
-/

namespace Leaderboards

open Interaction

variable {P : Policy} {faulty : Prop} {s s₁ : Server} {tx : Tx} {t : Tid} {α β : Type}
  {D : Draft} {m : BoardExportMeta} {v : Version} {except : Option Uuid}
    {data : List Versions.Values}

/-! ### The phases -/

/-- A transaction that starts by locking the board with an id. -/
theorem safe_lockBoard {id : Uuid} {now : Timestamp} {f : Board → Action α} (hs : ServerInv P s)
    (hok : ∀ s₁ tx b, b.id = id → tx.writes = [] → Rely [] s s₁ →
      Writing P ⟨b, [], False⟩ none s₁ tx →
      (contract faulty P).Safe t (commits P) (f b) (some tx) s₁) :
    (contract faulty P).Safe t (commits P) (Action.sql (.selectBoardForUpdate id) >>= f)
      (some ⟨[], [], now⟩) s := by
  refine safe_statement (Open.begin P s now) hs (fun _ _ => trivial)
    fun s₁ u b ws hs₁ ho₁ hrely _ _ hexec => ?_
  rcases hb : Database.board? (Tx.view ⟨[], [], now⟩ s₁) id with _ | r
  · simp only [exec, hb] at hexec
    cases hexec
  · simp only [exec, hb] at hexec
    cases hexec
    have hlocks : (Query.selectBoardForUpdate id).locks u (Tx.view ⟨[], [], now⟩ s₁) =
        [⟨.board b.id, .update⟩] := by simp [Query.locks, hb]
    rw [hlocks]
    obtain ⟨hmem, hid⟩ := Database.mem_of_board? hb
    exact hok s₁ _ b hid rfl hrely
      { inv := hs₁, is_open := ho₁.add (by simp) trivial
        locked := ⟨hmem, held_of_mem (by simp)⟩
        current := fun r hr hrid => hs₁.schema.board_inj hr hmem hrid, entries := by simp
        pending := fun h => h.elim, done := done_of_versions rfl }

/-- A reading statement between two versions. -/
theorem Writing.query {post : Contract.Post (server faulty) Error α} {q : Query}
    {f : q.Row → Action α} (h : Writing P D except s tx) (hq : q.readOnly = true)
    (herr : ∀ e h s, post (.error e) h s)
    (hok : ∀ s₁ u row, Writing P D except s₁ tx → Rely tx.locks s s₁ →
      exec u tx.now q (tx.view s₁) = .ok (row, []) →
      (contract faulty P).Safe t post (f row) (some tx) s₁) :
    (contract faulty P).Safe t post (Action.sql q >>= f) (some tx) s :=
  safe_query hq h.is_open h.inv (fun _ _ => herr _ _ _)
    fun s₁ u row hs₁ _ hrely _ hexec => hok s₁ u row (h.stable hs₁ hrely) hrely hexec

/-- A reading statement while a version is being filled. -/
theorem Filling.query {post : Contract.Post (server faulty) Error α} {q : Query}
    {f : q.Row → Action α} (h : Filling P D v data s tx) (hq : q.readOnly = true)
    (herr : ∀ e h s, post (.error e) h s)
    (hok : ∀ s₁ u row, Filling P D v data s₁ tx →
      exec u tx.now q (tx.view s₁) = .ok (row, []) →
      (contract faulty P).Safe t post (f row) (some tx) s₁) :
    (contract faulty P).Safe t post (Action.sql q >>= f) (some tx) s :=
  safe_query hq h.is_open h.inv (fun _ _ => herr _ _ _)
    fun s₁ u row hs₁ _ hrely _ hexec => hok s₁ u row (h.stable hs₁ hrely) hexec

/-- The versions of a locked board stay the same. -/
theorem Writing.versionsOf (h : Writing P D except s tx) (hs₁ : ServerInv P s₁)
    (hrely : Rely tx.locks s s₁) :
    (tx.view s₁).versionsOf D.board.id = (tx.view s).versionsOf D.board.id :=
  (h.is_open.stable h.inv hs₁ hrely).2.versions _ h.locked.lock

/-- The limit check: past it the board has room for one more version. -/
theorem Writing.checkVersionLimit (h : Writing P D none s tx) {maxVersions : Option ℤ}
    (hmax : ∀ m, P.maxVersions = some m → maxVersions = some m) {f : Unit → Action α}
    (hok : ∀ s₁, Writing P D none s₁ tx → Rely tx.locks s s₁ →
      UnderLimit P (tx.view s₁) D.board.id →
      (contract faulty P).Safe t (commits P) (f ()) (some tx) s₁) :
    (contract faulty P).Safe t (commits P)
      (Versions.checkVersionLimit D.board.id maxVersions >>= f) (some tx) s := by
  cases hm : maxVersions with
  | none =>
    refine hok s h (Rely.refl _ _) fun m hP => ?_
    rw [hm] at hmax
    cases hmax m hP
  | some max =>
    simp only [Versions.checkVersionLimit, bind_assoc]
    refine h.query rfl (fun _ _ _ => trivial)
      fun s₁ u n h₁ hrely hexec => ?_
    cases hexec
    refine Contract.safe_failIf (fun _ => trivial) fun hlimit => hok s₁ h₁ hrely fun m hP => ?_
    obtain rfl : max = m := by simpa [hm] using hmax m hP
    omega

/-- A number that the next version of the board may take. -/
def IsNext (P : Policy) (D : Draft) (s : Server) (tx : Tx) (n : ℤ) : Prop :=
  n = (tx.view s).maxVersionNumber D.board.id + 1 ∧ UnderLimit P (tx.view s) D.board.id

/-- `MAX(version_number) + 1`, under the board lock. -/
theorem Writing.nextNumber (h : Writing P D none s tx)
    (hlimit : UnderLimit P (tx.view s) D.board.id) {f : ℤ → Action α}
    (hok : ∀ s₁ n, Writing P D none s₁ tx → IsNext P D s₁ tx n →
      (contract faulty P).Safe t (commits P) (f n) (some tx) s₁) :
    (contract faulty P).Safe t (commits P) (Action.sql (.nextVersionNumber D.board.id) >>= f)
      (some tx) s := by
  refine h.query rfl (fun _ _ _ => trivial) fun s₁ u n h₁ hrely hexec => hok s₁ n h₁ ⟨?_, ?_⟩
  · simp only [exec] at hexec
    split at hexec
    · cases hexec
      rfl
    · cases hexec
  · rw [UnderLimit, h.versionsOf h₁.inv hrely]
    exact hlimit

/-- The version row with the number taken under the same lock. The transaction has written
nothing so far, so the number comes from the committed versions. -/
theorem Writing.newVersion (h : Writing P D none s tx) (hw : tx.writes = []) {n : ℤ}
    (hn : IsNext P D s tx n)
    {note : Option String} {metadata : Option Json} {f : Version → Action α}
    (hok : ∀ s₁ tx₁ v, Filling P D v [] s₁ tx₁ →
      (contract faulty P).Safe t (commits P) (f v) (some tx₁) s₁) :
    (contract faulty P).Safe t (commits P)
      (Action.sql (.insertVersion D.board.id n note metadata) >>= f) (some tx) s := by
  refine safe_statement h.is_open h.inv (fun _ _ => trivial)
    fun s₁ _ v _ hs₁ _ hrely _ _ hexec => ?_
  refine hok s₁ _ v ((h.stable hs₁ hrely).insertVersion hexec (.inr ?_))
  have hview : ∀ s : Server, tx.view s = s.db := fun s => by rw [Tx.view, hw, Database.applyAll_nil]
  have hversions := h.versionsOf hs₁ hrely
  rw [hview] at hversions
  rw [Database.maxVersionNumber, UnderLimit, hversions]
  exact hn

/-- The entries a version may place become known. -/
theorem Filling.withEntries (h : Filling P D v data s tx) {ids : List Uuid}
    (hids : ∀ id ∈ ids, EntryOn s tx D.board.id id) :
    Filling P { D with entryIds := ids } v data s tx :=
  { h with entries := hids, locked := h.locked, current := h.current, pending := h.pending
           done := h.done }

/-- The rows of `… WHERE board_id = $1 AND slug = ANY($2)` are entries of the board. -/
theorem Filling.selectEntries {post : Contract.Post (server faulty) Error α}
    {slugs : List String} {f : List (Uuid × String × String) → Action α}
    (h : Filling P D v data s tx) (herr : ∀ e h s, post (.error e) h s)
    (hok : ∀ s₁ (entries : List (Uuid × String × String)),
      Filling P { D with entryIds := entries.map Prod.fst } v data s₁ tx →
      (contract faulty P).Safe t post (f entries) (some tx) s₁) :
    (contract faulty P).Safe t post
      (Action.sql (.selectEntriesBySlug D.board.id slugs) >>= f) (some tx) s := by
  refine h.query rfl herr fun s₁ u entries h₁ hexec => hok s₁ entries (h₁.withEntries ?_)
  cases hexec
  intro id hid
  simp only [List.mem_map, List.mem_filter, Database.mem_entriesOf] at hid
  obtain ⟨_, ⟨e, ⟨⟨he, heb⟩, -⟩, rfl⟩, rfl⟩ := hid
  exact heb ▸ EntryOn.of_view h₁.is_open h₁.inv he

/-- One placement. -/
theorem Filling.statement {post : Contract.Post (server faulty) Error α} {entryId : Uuid}
    {position : Option ℤ} {score : Option F64} {tier : Option String} {metadata : Option Json}
    {f : Placement → Action α} (h : Filling P D v data s tx) (hentry : entryId ∈ D.entryIds)
    (herr : ∀ e h s, post (.error e) h s)
    (hok : ∀ s₁ tx₁ p, Filling P D v (data ++ [⟨position, score, tier⟩]) s₁ tx₁ →
      (contract faulty P).Safe t post (f p) (some tx₁) s₁) :
    (contract faulty P).Safe t post
      (Action.sql (.insertPlacement v.id entryId position score tier metadata) >>= f)
      (some tx) s :=
  safe_statement h.is_open h.inv (fun _ _ => herr _ _ _)
    fun s₁ _ p _ hs₁ _ hrely _ _ hexec =>
      hok s₁ _ p ((h.stable hs₁ hrely).insertPlacement hentry hexec)

/-- What is known inside the loop over the placements. -/
def filled (P : Policy) (D : Draft) (v : Version) (data : List Versions.Values)
    (h : Session) (s : Server) : Prop :=
  ∃ tx, h = some tx ∧ Filling P D v data s tx

/-- What is known when the elements `rest` of the list `l` are still to be placed. -/
private def Remaining (P : Policy) (D : Draft) (v : Version) (f : α → Versions.Values)
    (l rest : List α) (h : Session) (s : Server) : Prop :=
  (∀ a ∈ rest, a ∈ l) ∧ ∃ data, data ++ rest.map f = l.map f ∧ filled P D v data h s

private theorem Remaining.all {f : α → Versions.Values} {l : List α} {h : Session}
    (hrem : Remaining P D v f l [] h s) : filled P D v (l.map f) h s := by
  obtain ⟨-, data, hdata, hfill⟩ := hrem
  rw [List.map_nil, List.append_nil] at hdata
  exact hdata ▸ hfill

/-- One pass. -/
private theorem Remaining.step {f : α → Versions.Values} {g : α → Action β} {l rest : List α}
    {a : α} {h : Session} (hg : ∀ a ∈ l, ∀ data s tx, Filling P D v data s tx →
      (contract faulty P).Safe t
        (Contract.outcome (fun _ => filled P D v (data ++ [f a])) fun _ _ _ => True) (g a)
        (some tx) s) (hrem : Remaining P D v f l (a :: rest) h s) :
    (contract faulty P).Safe t
      (Contract.outcome (fun _ => Remaining P D v f l rest) fun _ _ _ => True) (g a) h s := by
  obtain ⟨hsub, data, hdata, tx, rfl, hfill⟩ := hrem
  refine (hg a (hsub a List.mem_cons_self) data s tx hfill).mono ?_
  rintro (e | b) h₁ s₁ hpost
  · trivial
  · refine ⟨fun a' ha' => hsub a' (List.mem_cons_of_mem _ ha'), data ++ [f a], ?_, hpost⟩
    rw [← hdata, List.map_cons, List.append_assoc]
    rfl

/-- The loop over the placements, when each pass inserts one. -/
theorem Filling.each {f : α → Versions.Values} {g : α → Action Unit} {l : List α}
    (h : Filling P D v [] s tx)
    (hg : ∀ a ∈ l, ∀ data s tx, Filling P D v data s tx → (contract faulty P).Safe t
      (Contract.outcome (fun _ => filled P D v (data ++ [f a])) fun _ _ _ => True) (g a)
      (some tx) s) :
    (contract faulty P).Safe t
      (Contract.outcome (fun _ => filled P D v (l.map f)) fun _ _ _ => True)
      (Prog.each l g) (some tx) s := by
  refine (Contract.safe_each (I := Remaining P D v f l) (fun _ _ _ _ => Remaining.step hg)
    ⟨fun _ ha => ha, [], rfl, tx, rfl, h⟩).mono ?_
  rintro (e | u) h₁ s₁ hpost
  · trivial
  · exact hpost.all

/-- The same for a loop that keeps the inserted rows. -/
theorem Filling.collect {f : α → Versions.Values} {g : α → Action β} {l : List α}
    (h : Filling P D v [] s tx)
    (hg : ∀ a ∈ l, ∀ data s tx, Filling P D v data s tx → (contract faulty P).Safe t
      (Contract.outcome (fun _ => filled P D v (data ++ [f a])) fun _ _ _ => True) (g a)
      (some tx) s) :
    (contract faulty P).Safe t
      (Contract.outcome (fun _ => filled P D v (l.map f)) fun _ _ _ => True)
      (Prog.collect l g) (some tx) s := by
  refine (Contract.safe_collect (I := fun _ => Remaining P D v f l) []
    (fun _ _ _ _ _ => Remaining.step hg) ⟨fun _ ha => ha, [], rfl, tx, rfl, h⟩).mono ?_
  rintro (e | bs) h₁ s₁ hpost
  · trivial
  · exact hpost.all

/-- The ranking of a version of a scored board. -/
theorem Filling.rank {post : Contract.Post (server faulty) Error α} {f : Unit → Action α}
    (h : Filling P D v data s tx) (hscored : D.board.boardType = "scored") (hne : data ≠ [])
    (hfin : ∀ d ∈ data, ∃ x, d.score = some x ∧ x.isFinite = true)
    (herr : ∀ e h s, post (.error e) h s)
    (hok : ∀ s₁ tx₁, Writing P D none s₁ tx₁ →
      (contract faulty P).Safe t post (f ()) (some tx₁) s₁) :
    (contract faulty P).Safe t post
      (Versions.deriveScoredPositions v.id D.board.sortDirection >>= f) (some tx) s :=
  safe_statement h.is_open h.inv (fun _ _ => herr _ _ _)
    fun s₁ _ _ _ hs₁ _ hrely _ _ hexec =>
      hok s₁ _ ((h.stable hs₁ hrely).derive hscored hne hfin hexec)

/-- A transaction whose versions are all complete may commit. -/
theorem Writing.mayCommit (h : Writing P D none s tx) {a : α} :
    (commits P : Contract.Post (server faulty) Error α) (.ok a) (some tx) s :=
  ⟨tx, rfl, h.is_open.committable h.inv h.done⟩

/-- On a board that is not scored, placements that follow its rules complete a version. -/
theorem Filling.close' (h : Filling P D v data s tx)
    (hvalid : Versions.Valid D.board.boardType D.board.tierConfig data)
    (hscored : D.board.boardType ≠ "scored")
    (hexplicit : P.explicitOrder → D.board.boardType = "ordered" →
      ∀ x ∈ data, x.position ≠ none) : Writing P D none s tx := by
  refine h.close ⟨by rwa [h.placements], fun ht => absurd ht hscored, fun ht => absurd ht hscored,
    fun hP ht p hp => ?_⟩
  exact hexplicit hP ht p.values (h.placements ▸ List.mem_map_of_mem hp)

/-! ### `versions::create` -/

/-- The values in the row of a placement. -/
def storedValues (b : Board) (x : CreatePlacement × ℕ) : Versions.Values :=
  ⟨Versions.storedPosition b x.1 x.2, x.1.score, x.1.tier⟩

/-- **What is stored follows the rules when the request does**: on an ordered board the positions
that were resolved and compared are the ones in the rows. -/
theorem Versions.Valid.stored {b : Board} {ps : List CreatePlacement}
    (h : Versions.Valid b.boardType b.tierConfig (ps.map Versions.valuesOf)) :
    Versions.Valid b.boardType b.tierConfig (ps.zipIdx.map (storedValues b)) := by
  obtain ⟨hne, hpos, hord, hscored, htiered⟩ := h
  simp only [List.forall_mem_map] at hpos hscored htiered
  have hmem : ∀ x ∈ ps.zipIdx, x.1 ∈ ps := fun x hx => by
    rw [← List.zipIdx_map_fst 0 ps]
    exact List.mem_map_of_mem hx
  refine ⟨by simpa using hne, ?_, fun ht => ?_, fun ht => ?_, fun ht => ?_⟩
  · simp only [List.forall_mem_map, storedValues, Versions.storedPosition]
    intro x hx n hn
    split at hn
    · cases hn
      exact Versions.one_le_resolvedPosition (hpos x.1 (hmem x hx))
    · exact hpos x.1 (hmem x hx) n hn
  -- A position that is stored is the one that was resolved, so resolving again changes nothing.
  · have hresolved : ((ps.zipIdx.map (storedValues b)).zipIdx.map
        fun y => y.1.position.getD ((y.2 : ℤ) + 1)) =
        ((ps.map Versions.valuesOf).zipIdx.map fun y => y.1.position.getD ((y.2 : ℤ) + 1)) := by
      have hfst : (fun y : (CreatePlacement × ℕ) × ℕ =>
          ((storedValues b) y.1).position.getD ((y.2 : ℤ) + 1)) =
          (fun x : CreatePlacement × ℕ => Versions.resolvedPosition x.1 x.2) ∘ Prod.fst := by
        funext y
        simp [storedValues, Versions.storedPosition, ht]
      rw [List.zipIdx_map, List.zipIdx_map, List.map_map, List.map_map]
      change List.map (fun y : (CreatePlacement × ℕ) × ℕ =>
        ((storedValues b) y.1).position.getD ((y.2 : ℤ) + 1)) _ = _
      rw [hfst, ← List.map_map, List.zipIdx_map_fst]
      rfl
    rw [hresolved]
    exact hord ht
  · simp only [List.forall_mem_map]
    exact fun x hx => hscored ht x.1 (hmem x hx)
  · simp only [List.forall_mem_map]
    exact fun x hx => htiered ht x.1 (hmem x hx)

private theorem Filling.insertCreated {b : Board} {entries : List (Uuid × String × String)}
    (h : Filling P D v data s tx) (hentries : ∀ e ∈ entries, e.1 ∈ D.entryIds)
    (x : CreatePlacement × ℕ) : (contract faulty P).Safe t
      (Contract.outcome (fun _ => filled P D v (data ++ [storedValues b x])) fun _ _ _ => True)
      (Versions.insertPlacement b v entries x) (some tx) s := by
  unfold Versions.insertPlacement
  cases hfind : entries.find? fun e => e.2.1 = x.1.entrySlug with
  | none => trivial
  | some e =>
    exact h.statement (hentries e (List.mem_of_find?_eq_some hfind)) (fun _ _ _ => trivial)
      fun s₁ tx₁ p h₁ => ⟨tx₁, rfl, h₁⟩

theorem safe_createVersion {board : Board} {input : CreateVersion} {maxVersions : Option ℤ}
    (hmax : ∀ m, P.maxVersions = some m → maxVersions = some m) :
    (contract faulty P).Safe t closed (Versions.create board input maxVersions) none s := by
  refine Contract.safe_failIf (fun _ => rfl) fun _ => Contract.safe_ofExcept (fun _ _ => rfl)
    fun _ _ => safe_transaction fun s₁ now hs₁ _ => ?_
  refine safe_lockBoard hs₁ fun s₂ tx b _ hw _ h => ?_
  refine h.checkVersionLimit hmax fun s₃ h _ hlimit => ?_
  refine Contract.safe_ofExcept (fun _ _ => trivial) fun _ hvalid => ?_
  refine h.nextNumber hlimit fun s₄ n h hn => h.newVersion hw hn fun s₅ tx v h => ?_
  refine h.selectEntries (fun _ _ _ => trivial) fun s₆ entries h => ?_
  refine Contract.safe_ofExcept (fun _ _ => trivial) fun _ _ => ?_
  refine Contract.safe_bind (h.collect (f := storedValues b) fun x _ _ _ _ h =>
    h.insertCreated (fun e he => List.mem_map_of_mem he) x) ?_
  rintro ps _ s₇ ⟨tx, rfl, h⟩
  have hstored := (Versions.validatePlacements_iff.mp hvalid).2.stored
  by_cases hscored : b.boardType = "scored"
  · rw [if_pos hscored]
    refine h.rank hscored hstored.nonempty (hstored.scored hscored) (fun _ _ _ => trivial)
      fun s₈ tx h => ?_
    exact h.query rfl (fun _ _ _ => trivial) fun s₉ u derived h _ _ => h.mayCommit
  · rw [if_neg hscored]
    refine (h.close' hstored hscored fun _ ht => ?_).mayCommit
    simp only [List.forall_mem_map, storedValues, Versions.storedPosition, if_pos ht]
    exact fun _ _ => Option.some_ne_none _

/-! ### The snapshots -/

/-- The values in the row of a snapshot score. -/
def snapshotValues (x : F64) : Versions.Values := ⟨none, some x, none⟩

/-- The row that a transaction locked has the type of the row the handler read. -/
theorem KnownBoard.boardType_eq {board b : Board} (hknown : KnownBoard s board) {L : List Lock}
    (hrely : Rely L s s₁) (hid : b.id = board.id) (hw : tx.writes = [])
    (hlocked : Locked s₁ tx b) : b.boardType = board.boardType := by
  have hmem : b ∈ s₁.db.boards := by
    have hrow := hlocked.row
    rwa [Tx.view, hw] at hrow
  obtain ⟨-, -, htype, -⟩ := (hknown.stable hrely).same b hmem hid
  exact htype.symm

/-- The last phase of a snapshot. -/
private theorem Filling.finishSnapshot {scores : List F64}
    (h : Filling P D v (scores.map snapshotValues) s tx)
    (hscored : D.board.boardType = "scored") (hne : scores ≠ [])
    (hfin : ∀ x ∈ scores, x.isFinite = true) : (contract faulty P).Safe t (commits P) (do
      Versions.deriveScoredPositions v.id D.board.sortDirection
      let placements ← Action.sql (.selectSnapshotPlacements v.id)
      return (⟨v, placements⟩ : VersionWithPlacements)) (some tx) s := by
  refine h.rank hscored (by simpa using hne) ?_ (fun _ _ _ => trivial) fun s₁ tx h => ?_
  · simp only [List.forall_mem_map]
    exact fun x hx => ⟨x, rfl, hfin x hx⟩
  · exact h.query rfl (fun _ _ _ => trivial) fun s₂ u placements h _ _ => h.mayCommit

/-- The rows of `SELECT … FROM accumulated_scores` can be placed, with finite scores. -/
private theorem selectScores_ok {u : Uuid} {ws : List RowWrite}
    {scores : List (Uuid × F64 × String × String)} (h : Writing P D except s tx)
    (hexec : exec u tx.now (.selectScores D.board.id) (tx.view s) = .ok (scores, ws)) :
    ∀ x ∈ scores, x.2.1.isFinite = true ∧ EntryOn s tx D.board.id x.1 := by
  cases hexec
  intro x hx
  simp only [List.mem_filterMap, Database.mem_scoresOf, Option.map_eq_some_iff] at hx
  obtain ⟨r, ⟨hr, hrb⟩, e, he, rfl⟩ := hx
  obtain ⟨hmem, hid⟩ := Database.mem_of_entryById? he
  have hschema := h.is_open.schema h.inv
  obtain ⟨hfin, e', he', hid', hboard⟩ := hschema.score_board r hr
  have heq : e = e' := hschema.entry_inj hmem he' (hid.trans hid'.symm)
  refine ⟨hfin, ?_⟩
  have hon := EntryOn.of_view h.is_open h.inv hmem
  rwa [hid, heq, hboard, hrb] at hon

theorem safe_scoresSnapshot {board : Board} {note : Option String} {metadata : Option Json}
    {maxVersions : Option ℤ} {maxEntries : Option ℕ}
    (hknown : KnownBoard s board)
    (hmax : ∀ m, P.maxVersions = some m → maxVersions = some m) :
    (contract faulty P).Safe t closed
      (Scores.snapshot board note metadata maxVersions maxEntries) none s := by
  refine Contract.safe_failIf (fun _ => rfl) fun _ => Contract.safe_failIf (fun _ => rfl)
    fun htype => safe_transaction fun s₁ now hs₁ hrely₁ => ?_
  refine safe_lockBoard hs₁ fun s₂ tx b hid hw hrely₂ h => ?_
  -- The type was checked on the row that was found; boards keep their type.
  have hscored : b.boardType = "scored" :=
    ((hknown.stable hrely₁).boardType_eq hrely₂ hid hw h.locked).trans (not_not.mp htype)
  refine h.checkVersionLimit hmax fun s₃ h _ hlimit => ?_
  refine h.query rfl (fun _ _ _ => trivial) fun s₄ u scores h₄ hrely hexec => ?_
  -- The scores are read by a statement of this transaction, and are finite since their column is.
  have hscores := selectScores_ok h₄ hexec
  have hlimit₄ : UnderLimit P (tx.view s₄) b.id := by
    rw [UnderLimit, h.versionsOf h₄.inv hrely]
    exact hlimit
  refine Contract.safe_failIf (fun _ => trivial) fun hne => ?_
  have h₄' : Writing P ⟨b, scores.map Prod.fst, False⟩ none s₄ tx := h₄.withEntries fun id hid => by
    obtain ⟨x, hx, rfl⟩ := List.mem_map.mp hid
    exact (hscores x hx).2
  -- What follows the check of the number of entries, which is there only with a limit.
  have hrest : (contract faulty P).Safe t (commits P) (do
      let nextNumber ← Action.sql (.nextVersionNumber b.id)
      let version ← Action.sql (.insertVersion b.id nextNumber note metadata)
      Prog.each scores (Scores.insertScore version)
      Versions.deriveScoredPositions version.id b.sortDirection
      let placements ← Action.sql (.selectSnapshotPlacements version.id)
      return (⟨version, placements⟩ : VersionWithPlacements)) (some tx) s₄ := by
    refine h₄'.nextNumber hlimit₄ fun s₅ n h hn => h.newVersion hw hn fun s₆ tx v h => ?_
    refine Contract.safe_bind (Filling.each (f := fun x => snapshotValues x.2.1) h
      fun x hx data s tx h => ?_) ?_
    · exact h.statement (List.mem_map_of_mem hx) (fun _ _ _ => trivial)
        fun s₁ tx₁ p h₁ => ⟨tx₁, rfl, h₁⟩
    · rintro _ _ s₇ ⟨tx, rfl, h⟩
      have hfill : Filling P ⟨b, scores.map Prod.fst, False⟩ v
          ((scores.map fun x => x.2.1).map snapshotValues) s₇ tx := by rwa [List.map_map]
      refine hfill.finishSnapshot hscored (by simpa using hne) ?_
      simp only [List.forall_mem_map]
      exact fun x hx => (hscores x hx).1
  unfold Scores.checkEntryLimit
  cases maxEntries with
  | none => exact hrest
  | some max => exact Contract.safe_failIf (fun _ => trivial) fun _ => hrest

/-- A Redis command of a handler. -/
theorem safe_redisCmd {post : Contract.Post (server faulty) Error α} {c : RedisCmd}
    {context : String} {f : c.Reply → Action α} {h : Session} (hc : c.Finite)
    (herr : ∀ e s, post (.error e) h s)
    (hok : ∀ s₁ s₂ r, ServerInv P s₁ → ServerInv P s₂ → Rely h.locks s s₂ →
      (execRedis c s₁.redis).1 = .ok r → (contract faulty P).Safe t post (f r) h s₂) :
    (contract faulty P).Safe t post (Action.redis c context >>= f) h s :=
  safe_redis hc (fun _ _ _ _ => herr _ _) hok

theorem safe_deleteSnapKeys {post : Contract.Post (server faulty) Error α}
    {snapKeys : Option (String × String)} {f : Unit → Action α} {h : Session}
    (hok : ∀ s₁, (contract faulty P).Safe t post (f ()) h s₁) :
    (contract faulty P).Safe t post (Realtime.deleteSnapKeys snapKeys >>= f) h s := by
  cases snapKeys with
  | none => exact hok s
  | some keys =>
    refine safe_redis ?_ (fun _ _ _ _ => hok _) fun _ _ _ _ _ _ _ => hok _
    simp [RedisCmd.Finite, RedisWrite.Finite]

/-- An early exit of `realtime::snapshot`. -/
theorem safe_abortIf {c : Prop} [Decidable c] {snapKeys : Option (String × String)} {e : Error}
    {f : Unit → Action α} {h : Session}
    (hok : ¬c → (contract faulty P).Safe t (commits P) (f ()) h s) :
    (contract faulty P).Safe t (commits P) (Realtime.abortIf c snapKeys e >>= f) h s := by
  unfold Realtime.abortIf
  by_cases hc : c
  · rw [if_pos hc, bind_assoc]
    exact safe_deleteSnapKeys fun _ => trivial
  · rw [if_neg hc]
    exact hok hc

theorem Writing.checkRealtimeLimit (h : Writing P D none s tx) {maxVersions : Option ℤ}
    {snapKeys : Option (String × String)}
    (hmax : ∀ m, P.maxVersions = some m → maxVersions = some m) {f : Unit → Action α}
    (hok : ∀ s₁, Writing P D none s₁ tx → UnderLimit P (tx.view s₁) D.board.id →
      (contract faulty P).Safe t (commits P) (f ()) (some tx) s₁) :
    (contract faulty P).Safe t (commits P)
      (Realtime.checkVersionLimit D.board.id snapKeys maxVersions >>= f) (some tx) s := by
  cases hm : maxVersions with
  | none =>
    refine hok s h fun m hP => ?_
    rw [hm] at hmax
    cases hmax m hP
  | some max =>
    simp only [Realtime.checkVersionLimit, bind_assoc]
    refine h.query rfl (fun _ _ _ => trivial) fun s₁ u n h₁ hrely hexec => ?_
    cases hexec
    refine safe_abortIf fun hlimit => hok s₁ h₁ fun m hP => ?_
    obtain rfl : max = m := by simpa [hm] using hmax m hP
    omega

/-- The renaming runs on an idle connection. -/
theorem safe_isolate {board : Board} {keyPrefix : String} (hknown : KnownBoard s board) :
    (contract faulty P).Safe t
      (Contract.outcome (fun _ h s => h = none ∧ KnownBoard s board) fun _ h _ => h = none)
      (Realtime.isolate board keyPrefix) none s := by
  unfold Realtime.isolate
  by_cases hclear : board.clearOnSnapshot = true
  · rw [if_pos hclear]
    refine safe_newUuid fun s₁ snapId _ hrely => ?_
    have h₁ := hknown.stable hrely
    refine safe_redisCmd trivial (fun _ _ => rfl) fun _ s₂ _ _ _ hrely₂ _ => ?_
    have h₂ := h₁.stable hrely₂
    refine Contract.safe_failIf (fun _ => rfl) fun _ => ?_
    refine safe_redisCmd trivial (fun _ _ => rfl) fun _ s₃ ekExists _ _ hrely₃ _ => ?_
    have h₃ := h₂.stable hrely₃
    by_cases hek : ekExists = true
    · rw [if_pos hek]
      refine safe_redisCmd ?_ (fun _ _ => rfl) fun _ _ _ _ _ hrely₄ _ => ⟨rfl, h₃.stable hrely₄⟩
      simp [RedisCmd.Finite, RedisWrite.Finite]
    · rw [if_neg hek]
      exact safe_redisCmd trivial (fun _ _ => rfl)
        fun _ _ _ _ _ hrely₄ _ => ⟨rfl, h₃.stable hrely₄⟩
  · rw [if_neg hclear]
    exact ⟨rfl, hknown⟩

theorem safe_realtimeSnapshot {board : Board} {note : Option String} {metadata : Option Json}
    {keyPrefix : String} {maxVersions : Option ℤ} {maxEntries : Option ℕ}
    (hknown : KnownBoard s board) (htype : board.boardType = "scored")
    (hmax : ∀ m, P.maxVersions = some m → maxVersions = some m) :
    (contract faulty P).Safe t closed
      (Realtime.snapshot board note metadata keyPrefix maxVersions maxEntries) none s := by
  refine Contract.safe_bind ((safe_isolate hknown).mono fun r _ _ hpost => by
    cases r <;> exact hpost) ?_
  rintro ⟨readSk, snapKeys⟩ _ s₁ ⟨rfl, hknown₁⟩
  refine safe_then (safe_transaction fun s₂ now hs₂ hrely₂ => ?_) fun result s₃ =>
    safe_deleteSnapKeys fun _ => rfl
  refine safe_lockBoard hs₂ fun s₃ tx b hid hw hrely₃ h => ?_
  have hscored : b.boardType = "scored" :=
    ((hknown₁.stable hrely₂).boardType_eq hrely₃ hid hw h.locked).trans htype
  refine h.checkRealtimeLimit hmax fun s₄ h hlimit => ?_
  refine safe_redisCmd trivial (fun _ _ => trivial) fun s₅ s₆ members hs₅ hs₆ hrely hread => ?_
  -- Redis answers with what it holds when it is asked, and that is finite.
  have hfin := zrevrange_finite hs₅.redis_finite hread
  have h₆ := h.stable hs₆ hrely
  have hlimit₆ : UnderLimit P (tx.view s₆) b.id := by
    rw [UnderLimit, h.versionsOf hs₆ hrely]
    exact hlimit
  refine safe_abortIf fun hne => ?_
  -- What follows the check of the number of entries, which is there only with a limit.
  have hrest : (contract faulty P).Safe t (commits P) (do
      let nextNumber ← Action.sql (.nextVersionNumber b.id)
      let version ← Action.sql (.insertVersion b.id nextNumber note metadata)
      let entries ← Action.sql (.selectEntriesBySlug b.id (members.map Prod.fst))
      Prog.each members (Realtime.insertScore version entries)
      Versions.deriveScoredPositions version.id b.sortDirection
      let placements ← Action.sql (.selectSnapshotPlacements version.id)
      return (⟨version, placements⟩ : VersionWithPlacements)) (some tx) s₆ := by
    refine h₆.nextNumber hlimit₆ fun s₇ n h hn => h.newVersion hw hn fun s₈ tx v h => ?_
    refine h.selectEntries (fun _ _ _ => trivial) fun s₉ entries h => ?_
    refine Contract.safe_bind (h.each (f := fun m => snapshotValues m.2)
      fun m _ data s tx h => ?_) ?_
    · unfold Realtime.insertScore
      cases hfind : entries.find? fun e => e.2.1 = m.1 with
      | none => trivial
      | some e =>
        exact h.statement (List.mem_map_of_mem (List.mem_of_find?_eq_some hfind))
          (fun _ _ _ => trivial) fun s₁ tx₁ p h₁ => ⟨tx₁, rfl, h₁⟩
    · rintro _ _ s₁₀ ⟨tx, rfl, h⟩
      have hfill : Filling P ⟨b, entries.map Prod.fst, False⟩ v
          ((members.map Prod.snd).map snapshotValues) s₁₀ tx := by rwa [List.map_map]
      refine hfill.finishSnapshot hscored (by simpa using hne) ?_
      simp only [List.forall_mem_map]
      exact hfin
  unfold Realtime.checkEntryLimit
  cases maxEntries with
  | none => exact hrest
  | some max => exact safe_abortIf fun _ => hrest

/-! ### `import_board` -/

theorem validateVersions_ok {m : BoardExportMeta} {versions : List VersionExport}
    (h : Export.validateVersions m versions = .ok ()) : ∀ v ∈ versions,
      Versions.validatePlacements (Export.tempBoard m)
        (v.placements.map Export.toCreatePlacement) = .ok () := by
  induction versions with
  | nil => simp
  | cons v vs ih =>
    simp only [Export.validateVersions, Prog.except_bind_ok] at h
    obtain ⟨⟨⟩, hv, hvs⟩ := h
    rintro w (_ | ⟨_, hw⟩)
    · exact hv
    · exact ih hvs w hw

/-- The values in the row of an imported placement. -/
def importedValues (p : PlacementExport) : Versions.Values := ⟨p.position, p.score, p.tier⟩

/-- One version of the document. -/
private theorem Writing.importVersion {entryIds : List (String × Uuid)} {version : VersionExport}
    (h : Writing P ⟨D.board, entryIds.map Prod.snd, True⟩ none s tx)
    (hvalid : Versions.validatePlacements (Export.tempBoard m)
      (version.placements.map Export.toCreatePlacement) = .ok ())
    (htype : D.board.boardType = m.boardType) (htiers : D.board.tierConfig = m.tierConfig)
    (hexplicit : P.explicitOrder → m.boardType = "ordered" →
      ∀ p ∈ version.placements, p.position ≠ none) :
    (contract faulty P).Safe t (Contract.outcome (fun _ h s => ∃ tx, h = some tx ∧
        Writing P ⟨D.board, entryIds.map Prod.snd, True⟩ none s tx) fun _ _ _ => True)
      (Export.importVersion D.board entryIds version) (some tx) s := by
  have hrules : Versions.Valid D.board.boardType D.board.tierConfig
      (version.placements.map importedValues) := by
    have h := (Versions.validatePlacements_iff.mp hvalid).2
    rw [List.map_map] at h
    rw [htype, htiers]
    exact h
  refine safe_statement h.is_open h.inv (fun _ _ => trivial)
    fun s₁ _ v _ hs₁ _ hrely _ _ hexec => ?_
  have hfill := (h.stable hs₁ hrely).insertVersion hexec (.inl trivial)
  refine Contract.safe_bind (hfill.each (f := importedValues) fun p _ data s tx h => ?_) ?_
  · unfold Export.importPlacement
    cases hfind : entryIds.find? fun e => e.1 = p.entrySlug with
    | none => trivial
    | some e =>
      exact h.statement (List.mem_map_of_mem (List.mem_of_find?_eq_some hfind))
        (fun _ _ _ => trivial) fun s₁ tx₁ p h₁ => ⟨tx₁, rfl, h₁⟩
  · rintro _ _ s₂ ⟨tx₂, rfl, h₂⟩
    by_cases hscored : D.board.boardType = "scored"
    · rw [if_pos hscored, ← bind_pure (Versions.deriveScoredPositions _ _)]
      exact h₂.rank hscored hrules.nonempty (hrules.scored hscored) (fun _ _ _ => trivial)
        fun s₃ tx₃ h₃ => ⟨tx₃, rfl, h₃⟩
    · rw [if_neg hscored]
      refine ⟨tx₂, rfl, h₂.close' hrules hscored fun hP ht => ?_⟩
      simp only [List.forall_mem_map]
      exact hexplicit hP (htype.symm.trans ht)

/-- What the policy asks of a document that passes the checks of `import_board`. -/
def BoardExport.Respects (P : Policy) (doc : BoardExport) : Prop :=
  Export.validateVersions doc.board doc.versions = .ok () →
    Export.validateImport (Export.createBoardOf doc.board) = .ok () →
    P.AllowsNew (Export.createBoardOf doc.board) ∧
      (P.explicitOrder → doc.board.boardType = "ordered" →
        ∀ v ∈ doc.versions, ∀ p ∈ v.placements, p.position ≠ none)

theorem safe_importBoard {hashOrder : Export.HashOrder} {doc : BoardExport}
    (hdoc : doc.Respects P) :
    (contract faulty P).Safe t closed (Export.importBoard hashOrder doc) none s := by
  refine Contract.safe_ofExcept (fun _ _ => rfl) fun _ hvalid =>
    safe_transaction fun s₁ now hs₁ _ => ?_
  refine Contract.safe_ofExcept (fun _ _ => trivial) fun _ hfields => ?_
  obtain ⟨hconfig, hexplicit⟩ := hdoc hvalid hfields
  refine safe_tryStatement (Open.begin P s₁ now) hs₁ (fun e s₂ => ?_)
    fun s₂ u b ws hs₂ _ _ _ hu hexec => ?_
  · cases e <;> trivial
  have h₂ : Writing P ⟨b, [], True⟩ none s₂ (Tx.add ⟨[], [], now⟩ ws
      ((Query.insertBoard (Export.createBoardOf doc.board)).locks u s₂.db)) :=
    Writing.insertBoard hs₂ hu hconfig hexec
  have htype : b.boardType = doc.board.boardType ∧ b.tierConfig = doc.board.tierConfig := by
    obtain ⟨-, -, -, -, rfl⟩ := execInsertBoard_ok hexec
    exact ⟨rfl, rfl⟩
  change (contract faulty P).Safe t (commits P) (Prog.collect _ (Export.importEntry b.id)
    >>= _) _ s₂
  -- First the entries: after each one the transaction has those that `entryIds` lists.
  refine Contract.safe_bind (Q := fun entryIds h s => ∃ tx, h = some tx ∧
    Writing P ⟨b, entryIds.map Prod.snd, True⟩ none s tx) ?_ ?_
  · refine (Contract.safe_collect (C := contract faulty P) (I := fun entryIds _ h s =>
      ∃ tx, h = some tx ∧ Writing P ⟨b, entryIds.map Prod.snd, True⟩ none s tx)
      (E := fun _ _ _ => True) [] ?_
      ⟨_, rfl, h₂⟩).mono fun r _ _ hpost => by cases r <;> exact hpost
    rintro entryIds ⟨slug, name⟩ rest _ s₃ ⟨tx₃, rfl, h₃⟩
    refine Contract.safe_ofExcept (fun _ _ => trivial) fun _ _ =>
      Contract.safe_ofExcept (fun _ _ => trivial) fun _ _ => ?_
    refine safe_statement h₃.is_open h₃.inv (fun _ _ => trivial)
      fun s₄ u' e ws' hs₄ _ hrely _ hu' hexec' => ?_
    refine ⟨_, rfl, ?_⟩
    rw [List.map_append]
    exact (h₃.stable hs₄ hrely).insertEntry hu' hexec'
  · rintro entryIds _ s₃ ⟨tx₃, rfl, h₃⟩
    -- Then the versions, each of which is complete when the next one is inserted.
    refine Contract.safe_bind (Q := fun _ h s => ∃ tx, h = some tx ∧
      Writing P ⟨b, entryIds.map Prod.snd, True⟩ none s tx) ?_ ?_
    · refine (Contract.safe_each (C := contract faulty P) (I := fun rest h s =>
        (∀ v ∈ rest, v ∈ doc.versions) ∧
        ∃ tx, h = some tx ∧ Writing P ⟨b, entryIds.map Prod.snd, True⟩ none s tx)
        (E := fun _ _ _ => True) ?_ ⟨fun v hv => ?_, tx₃, rfl, h₃⟩).mono ?_
      · rintro v rest _ s₄ ⟨hsub, tx₄, rfl, h₄⟩
        have hv := validateVersions_ok hvalid v (hsub v List.mem_cons_self)
        refine (h₄.importVersion (D := ⟨b, [], True⟩) hv htype.1 htype.2 fun hP ht =>
          hexplicit hP ht v (hsub v List.mem_cons_self)).mono ?_
        rintro (e | _) h₅ s₅ hpost
        · trivial
        · exact ⟨fun w hw => hsub w (List.mem_cons_of_mem _ hw), hpost⟩
      · exact (Ranking.mem_orderBy _).mp hv
      · rintro (e | _) h₅ s₅ hpost
        · trivial
        · exact hpost.2
    · rintro _ _ s₄ ⟨tx₄, rfl, h₄⟩
      exact h₄.mayCommit

end Leaderboards
