import Leaderboards.Routes
import Leaderboards.Transactions.Drafting
import Mathlib.Data.List.Dedup

/-!
# Boards, entries and submissions keep the contract

One lemma for each handler that changes board, entry or score rows: started on an idle
connection it is safe under the contract, and whatever happens it leaves the connection idle.
The lemmas about statements come first; the handlers then follow their own text.
-/

namespace Leaderboards

open Interaction

variable {P : Policy} {faulty : Prop} {s s₁ : Server} {tx : Tx} {t : Tid} {α β : Type}
  {L : List Lock} {ws : List RowWrite}

/-! ### Sequencing on an idle connection -/

/-- A part that leaves the connection idle, and a rest that is safe from anywhere. -/
theorem safe_then {p : Action α} {f : α → Action β}
    (hp : (contract faulty P).Safe t closed p none s)
    (hf : ∀ a s₁, (contract faulty P).Safe t closed (f a) none s₁) :
    (contract faulty P).Safe t closed (p >>= f) none s := by
  refine Contract.safe_bind (Q := fun _ h _ => h = none) (hp.mono ?_) ?_
  · rintro (e | a) h s₁ hclosed <;> exact hclosed
  · rintro a h s₁ rfl
    exact hf a s₁

theorem safe_discard {p : Action α} (hp : (contract faulty P).Safe t closed p none s) :
    (contract faulty P).Safe t closed p.discard none s :=
  safe_then hp fun _ _ => rfl

/-- An optional validation. -/
theorem safe_okOr {post : Contract.Post (server faulty) Error β} {x : Option α} {e : Error}
    {f : α → Action β} {h : Session} (hnone : x = none → post (.error e) h s)
    (hsome : ∀ a, x = some a → (contract faulty P).Safe t post (f a) h s) :
    (contract faulty P).Safe t post (Action.okOr x e >>= f) h s := by
  cases x with
  | none => exact hnone rfl
  | some a => exact hsome a rfl

/-- A read on an idle connection whose errors end the handler. -/
theorem safe_select {q : Query} {f : q.Row → Action α} (hq : q.readOnly = true)
    (hok : ∀ s₁ s₂ u now row, ServerInv P s₁ → ServerInv P s₂ → s₂.db = s₁.db → Rely [] s s₂ →
      exec u now q s₁.db = .ok (row, []) →
      (contract faulty P).Safe t closed (f row) none s₂) :
    (contract faulty P).Safe t closed (Action.sql q >>= f) none s :=
  safe_read hq (fun _ _ => rfl) fun s₁ s₂ u now row hs₁ hs₂ hrely hdb hexec =>
    hok s₁ s₂ u now row hs₁ hs₂ hdb hrely hexec

/-- A read on an idle connection, when nothing of the answer matters. -/
theorem safe_select' {q : Query} (hq : q.readOnly = true) :
    (contract faulty P).Safe t closed (Action.sql q) none s := by
  rw [← bind_pure (Action.sql q)]
  exact safe_select hq fun _ _ _ _ _ _ _ _ _ _ => rfl

/-- A handler that starts from the row of the board with a slug. -/
theorem safe_getKnownBoard {slug : String} {f : Board → Action α}
    (hok : ∀ b s₁, ServerInv P s₁ → KnownBoard s₁ b → b.checks →
      (contract faulty P).Safe t closed (f b) none s₁) :
    (contract faulty P).Safe t closed (Boards.getBySlug slug >>= f) none s := by
  unfold Boards.getBySlug
  rw [bind_assoc]
  refine safe_select rfl fun s₁ s₂ _ _ _ hs₁ hs₂ hdb _ hexec => safe_okOr (fun _ => rfl)
    fun b hb => ?_
  cases hexec
  have hmem : b ∈ s₂.db.boards := hdb ▸ (Database.mem_of_boardBySlug? hb).1
  exact hok b s₂ hs₂ (KnownBoard.of_mem hs₂ hmem) (hs₂.schema.board_checks b hmem)

/-- The same when nothing of the row matters. -/
theorem safe_getBySlug {slug : String} {f : Board → Action α}
    (hok : ∀ b s₁, (contract faulty P).Safe t closed (f b) none s₁) :
    (contract faulty P).Safe t closed (Boards.getBySlug slug >>= f) none s :=
  safe_getKnownBoard fun b s₁ _ _ _ => hok b s₁

/-! ### Statements on boards and entries -/

/-- The row write neither adds a version nor removes rows. -/
def RowWrite.keepsVersions : RowWrite → Prop
  | .addVersion _ => False
  | .removeBoard _ => False
  | .removeEntry _ => False
  | .removeReference _ => False
  | .removeCollection _ => False
  | _ => True

theorem RowWrite.keepsVersions.not_removes {w : RowWrite} (h : w.keepsVersions) : ¬w.removes := by
  cases w <;> first | exact id | exact h.elim

theorem applyAll_versions {db : Database} (h : ∀ w ∈ ws, w.keepsVersions) :
    (db.applyAll ws).versions = db.versions := by
  induction ws generalizing db with
  | nil => rfl
  | cons w ws ih =>
    rw [Database.applyAll_cons, ih fun w' hw' => h w' (List.mem_cons_of_mem _ hw')]
    have hw := h w List.mem_cons_self
    cases w <;> first | rfl | exact hw.elim

theorem sealed_of_versions {db : Database} (h : (db.applyAll ws).versions = db.versions) :
    Sealed P db ws := fun _ hv hnew => absurd (h ▸ hv) hnew

/-- A transaction that adds no version may commit. -/
theorem Open.committable' (ho : Open P s tx) (hs : ServerInv P s)
    (hversions : (tx.view s).versions = s.db.versions) : Committable P s tx :=
  ho.committable hs (done_of_versions hversions)

/-- The row write of `INSERT … ON CONFLICT DO UPDATE` on entries is legal, and afterwards the
entry may be placed on the board. -/
theorem legal_upsertEntry {db : Database} {u now : ℕ} {boardId id : Uuid} {slug name : String}
    (h : exec u now (.upsertEntry boardId slug name) db = .ok (id, ws)) (hu : s.Fresh u)
    (hL : ∀ l ∈ (Query.upsertEntry boardId slug name).locks u db, l ∈ L) :
    LegalSeq P s L ws db ∧ (∀ w ∈ ws, w.keepsVersions) ∧
      Held L (.entry id) .keyShare ∧
      ∃ e ∈ (db.applyAll ws).entries, e.id = id ∧ e.boardId = boardId := by
  rcases execUpsertEntry_ok h with ⟨e, he, rfl, rfl⟩ | ⟨e, hnone, hins, rfl⟩
  · obtain ⟨hmem, hboard, -⟩ := Database.mem_of_entryBySlug? he
    have hheld : Held L (.entry e.id) .noKeyUpdate :=
      held_of_mem (hL _ (by simp [Query.locks, he]))
    refine ⟨legalSeq_singleton.mpr (legal_setEntry hmem ⟨rfl, rfl, rfl⟩ hheld),
      by simp [RowWrite.keepsVersions], hheld.weaken rfl, { e with name := name, updatedAt := now },
      ?_, rfl, hboard⟩
    exact Database.mem_setEntry_entries.mpr (.inr ⟨rfl, e, hmem, rfl⟩)
  · have hlocks : ∀ l ∈ entryInsertLocks u boardId slug, l ∈ L := fun l hl =>
      hL l (by simpa [Query.locks, hnone] using hl)
    have hlegal := legal_insertEntry (P := P) hins hu hlocks
    obtain ⟨rfl, -, -, -, rfl⟩ := execInsertEntry_ok hins
    exact ⟨legalSeq_singleton.mpr hlegal, by simp [RowWrite.keepsVersions],
      hlegal.2.2.2.2.2.1.weaken rfl, _, List.mem_append_right _ (List.mem_singleton.mpr rfl), rfl,
      rfl⟩

/-- The insertion of a board row, on an idle connection. -/
theorem safe_insertBoard {input : CreateBoard} (hconfig : P.AllowsNew input) :
    (contract faulty P).Safe t closed (Boards.insert input) none s := by
  refine safe_autocommit (fun e s₁ => ?_) fun s₁ u now row ws hs₁ _ hu hexec => ⟨⟨?_, ?_⟩, ?_⟩
  · cases e <;> exact rfl
  · have hlegal := legal_insertBoard (P := P) hexec hu hconfig fun _ hl => hl
    obtain ⟨rfl, -⟩ := execInsertBoard_ok hexec
    exact legalSeq_singleton.mpr hlegal
  · obtain ⟨rfl, -⟩ := execInsertBoard_ok hexec
    exact sealed_of_versions rfl
  · exact fun s₂ _ _ _ => rfl

/-! ### Boards -/

theorem safe_createBoard {input : CreateBoard}
    (hconfig : Boards.validateCreate input = .ok () → P.config input.tierConfig) :
    (contract faulty P).Safe t closed (Boards.create input) none s :=
  Contract.safe_ofExcept (fun _ _ => rfl) fun _ hvalid =>
    safe_insertBoard ⟨hconfig hvalid, P.setup_create input hvalid⟩

/-- A transaction that starts by locking the board with a slug. -/
theorem safe_lockBoardBySlug {slug : String} {now : Timestamp} {f : Option Board → Action α}
    (hs : ServerInv P s)
    (hnone : ∀ s₁ tx, (contract faulty P).Safe t (commits P) (f none) (some tx) s₁)
    (hsome : ∀ s₁ tx b, ServerInv P s₁ → Open P s₁ tx → tx.writes = [] → Locked s₁ tx b →
      (contract faulty P).Safe t (commits P) (f (some b)) (some tx) s₁) :
    (contract faulty P).Safe t (commits P)
      (Action.sql (.selectBoardBySlugForUpdate slug) >>= f) (some ⟨[], [], now⟩) s := by
  refine safe_statement (Open.begin P s now) hs (fun _ _ => trivial)
    fun s₁ u row ws hs₁ ho₁ _ _ _ hexec => ?_
  cases hexec
  rcases hb : Database.boardBySlug? (Tx.view ⟨[], [], now⟩ s₁) slug with _ | b
  · exact hnone s₁ _
  · have hlocks : (Query.selectBoardBySlugForUpdate slug).locks u (Tx.view ⟨[], [], now⟩ s₁) =
        [⟨.board b.id, .update⟩] := by simp [Query.locks, hb]
    rw [hlocks]
    exact hsome s₁ _ b hs₁ (ho₁.add (by simp) trivial) rfl
      ⟨(Database.mem_of_boardBySlug? hb).1, held_of_mem (by simp)⟩

/-- What a PATCH stores as tier configuration. -/
def UpdateBoard.Respects (P : Policy) (input : UpdateBoard) : Prop :=
  match input.tierConfig with
  | .absent => True
  | .null => P.config none
  | .value v => P.config (some v)

theorem safe_updateBoard {slug : String} {input : UpdateBoard} (hinput : input.Respects P) :
    (contract faulty P).Safe t closed (Boards.update slug input) none s := by
  refine Contract.safe_ofExcept (fun _ _ => rfl) fun _ _ => safe_transaction fun s₁ now hs₁ _ => ?_
  refine safe_lockBoardBySlug hs₁ (fun _ _ => trivial) fun s₂ tx b hs₂ ho₂ hw hb => ?_
  refine safe_okOr (fun _ => trivial) ?_
  rintro _ ⟨⟩
  refine Contract.safe_ofExcept (fun _ _ => trivial) fun _ hvalid => ?_
  rw [← bind_pure (Action.sql _)]
  refine safe_statement ho₂ hs₂ (fun _ _ => trivial)
    fun s₃ u row ws hs₃ ho₃ hrely hagree hu hexec => ?_
  have hb₃ := hb.stable hagree
  have hallows := ho₃.ready hs₃ b hb₃.row
  -- The row is locked, so the one that is updated has the setup that was validated.
  have hsetup : ∀ r, (tx.view s₃).board? b.id = some r → P.setup r.boardType
      (input.sortDirection.getD b.sortDirection) (input.tierConfig.apply b.tierConfig) := by
    intro r hr
    obtain ⟨hmem, hid⟩ := Database.mem_of_board? hr
    rw [(ho₃.schema hs₃).board_inj hmem hb₃.row hid]
    exact P.setup_update b input hallows.2 hvalid
  have hconfig : P.config (input.tierConfig.apply b.tierConfig) := by
    unfold UpdateBoard.Respects at hinput
    unfold Nullable.apply
    split
    · exact hallows.1
    · rename_i heq
      rwa [heq] at hinput
    · rename_i heq
      rwa [heq] at hinput
  have hlegal := legal_updateBoard (P := P) (s := s₃)
    (L := tx.locks ++ (Boards.updateQuery b input).locks u (tx.view s₃)) hexec hconfig hsetup
    ((hb.lock.weaken rfl).mono fun _ hl => List.mem_append_left _ hl)
  obtain ⟨rfl, -⟩ := execUpdateBoard_ok hexec
  refine ⟨_, rfl, (ho₃.add (by simp [RowWrite.removes])
    (legalSeq_singleton.mpr hlegal)).committable'
    hs₃ ?_⟩
  rw [Tx.view_add, Tx.view, hw]
  rfl

theorem safe_deleteBoard {slug : String} :
    (contract faulty P).Safe t closed (Boards.delete slug) none s := by
  refine safe_autocommit (fun _ _ => rfl) fun s₁ u now row ws hs₁ _ hu hexec =>
    ⟨?_, fun s₂ _ _ _ => ?_⟩
  · rcases execDeleteBoard_ok hexec with rfl | ⟨b, hb, rfl⟩
    · exact ⟨trivial, sealed_of_versions rfl⟩
    · refine ⟨legalSeq_singleton.mpr ⟨held_of_mem ?_, fun e he heb => held_of_mem ?_,
        fun v hv hvb => held_of_mem ?_⟩, fun v hv hnew => absurd (List.mem_of_mem_filter hv) hnew⟩
      · simp [Query.locks, hb]
      · simp only [Query.locks, hb, List.mem_cons, List.mem_append, List.mem_map]
        exact .inr (.inl (.inl (.inl (.inl ⟨e, Database.mem_entriesOf.mpr ⟨he, heb⟩, rfl⟩))))
      · simp only [Query.locks, hb, List.mem_cons, List.mem_append, List.mem_map]
        exact .inr (.inl (.inl (.inl (.inr ⟨v, Database.mem_versionsOf.mpr ⟨hv, hvb⟩, rfl⟩))))
  · change (contract faulty P).Safe t closed (Prog.failIf (row = 0) _) none s₂
    unfold Prog.failIf
    split <;> exact rfl

/-! ### Entries -/

theorem safe_createEntry {boardId : Uuid} {input : CreateEntry} :
    (contract faulty P).Safe t closed (Entries.create boardId input) none s := by
  refine Contract.safe_ofExcept (fun _ _ => rfl) fun _ _ =>
    Contract.safe_ofExcept (fun _ _ => rfl) fun _ _ => ?_
  refine safe_autocommit (fun e s₁ => ?_) fun s₁ u now row ws hs₁ _ hu hexec => ⟨⟨?_, ?_⟩, ?_⟩
  · cases e <;> exact rfl
  · have hlegal := legal_insertEntry (P := P) hexec hu fun _ hl => hl
    obtain ⟨rfl, -⟩ := execInsertEntry_ok hexec
    exact legalSeq_singleton.mpr hlegal
  · obtain ⟨rfl, -⟩ := execInsertEntry_ok hexec
    exact sealed_of_versions rfl
  · exact fun s₂ _ _ _ => rfl

/-- A transaction that starts by locking an entry. -/
theorem safe_lockEntry {boardId : Uuid} {slug : String} {now : Timestamp}
    {f : Option Entry → Action α} (hs : ServerInv P s)
    (hnone : ∀ s₁ tx, (contract faulty P).Safe t (commits P) (f none) (some tx) s₁)
    (hsome : ∀ s₁ tx e, ServerInv P s₁ → Open P s₁ tx → tx.writes = [] → e ∈ s₁.db.entries →
      Held tx.locks (.entry e.id) .update →
      (contract faulty P).Safe t (commits P) (f (some e)) (some tx) s₁) :
    (contract faulty P).Safe t (commits P)
      (Action.sql (.selectEntryForUpdate boardId slug) >>= f) (some ⟨[], [], now⟩) s := by
  refine safe_statement (Open.begin P s now) hs (fun _ _ => trivial)
    fun s₁ u row ws hs₁ ho₁ _ _ _ hexec => ?_
  cases hexec
  rcases he : Database.entryBySlug? (Tx.view ⟨[], [], now⟩ s₁) boardId slug with _ | e
  · exact hnone s₁ _
  · have hlocks : (Query.selectEntryForUpdate boardId slug).locks u (Tx.view ⟨[], [], now⟩ s₁) =
        [⟨.entry e.id, .update⟩] := by simp [Query.locks, he]
    rw [hlocks]
    exact hsome s₁ _ e hs₁ (ho₁.add (by simp) trivial) rfl (Database.mem_of_entryBySlug? he).1
      (held_of_mem (by simp))

theorem safe_updateEntry {boardId : Uuid} {slug : String} {input : UpdateEntry} :
    (contract faulty P).Safe t closed (Entries.update boardId slug input) none s := by
  have hbody : (contract faulty P).Safe t closed (Action.transaction do
      let row ← Action.sql (.selectEntryForUpdate boardId slug)
      let entry ← Action.okOr row (.notFound s!"entry '{slug}' not found")
      Action.sql (.updateEntry entry.id (input.name.getD entry.name)
        (input.metadata.apply entry.metadata))) none s := by
    refine safe_transaction fun s₁ now hs₁ _ => ?_
    refine safe_lockEntry hs₁ (fun _ _ => trivial) fun s₂ tx e hs₂ ho₂ hw he hL => ?_
    refine safe_okOr (fun _ => trivial) ?_
    rintro _ ⟨⟩
    rw [← bind_pure (Action.sql _)]
    refine safe_statement ho₂ hs₂ (fun _ _ => trivial)
      fun s₃ u row ws hs₃ ho₃ _ _ _ hexec => ?_
    obtain ⟨rfl, r, hr, rfl⟩ := execUpdateEntry_ok hexec
    obtain ⟨hmem, hid⟩ := Database.mem_of_entryById? hr
    have hheld : Held (tx.locks ++ (Query.updateEntry e.id (input.name.getD e.name)
        (input.metadata.apply e.metadata)).locks u (tx.view s₃)) (.entry r.id) .noKeyUpdate := by
      rw [hid]
      exact (hL.weaken rfl).mono fun _ hl => List.mem_append_left _ hl
    have hlegal := legal_setEntry (P := P) (s := s₃)
      (e := { r with name := input.name.getD e.name, metadata := input.metadata.apply e.metadata
                     updatedAt := tx.now }) hmem ⟨rfl, rfl, rfl⟩ hheld
    refine ⟨_, rfl, (ho₃.add (by simp [RowWrite.removes])
      (legalSeq_singleton.mpr hlegal)).committable' hs₃ ?_⟩
    rw [Tx.view_add, Tx.view, hw]
    rfl
  unfold Entries.update
  split
  · exact Contract.safe_ofExcept (fun _ _ => rfl) fun _ _ => hbody
  · exact hbody

/-- **An entry is deleted only when no version places it**, and its row lock keeps it that way
until the commit. -/
theorem safe_deleteEntry {boardId : Uuid} {slug : String} :
    (contract faulty P).Safe t closed (Entries.delete boardId slug) none s := by
  refine safe_transaction fun s₁ now hs₁ _ => ?_
  refine safe_lockEntry hs₁ (fun _ _ => trivial) fun s₂ tx e hs₂ ho₂ hw he hL => ?_
  refine safe_okOr (fun _ => trivial) ?_
  rintro _ ⟨⟩
  refine safe_query rfl ho₂ hs₂ (fun _ _ => trivial) fun s₃ u n hs₃ ho₃ _ _ hexec => ?_
  cases hexec
  refine Contract.safe_failIf (fun _ => trivial) fun hcount => ?_
  have hunplaced : ∀ p ∈ s₃.db.placements, p.entryId ≠ e.id := by
    have hview : tx.view s₃ = s₃.db := by rw [Tx.view, hw]; rfl
    rw [hview] at hcount
    simp only [Nat.not_lt, Nat.le_zero_eq, List.length_eq_zero_iff] at hcount
    intro p hp hid
    have hmem : p.versionId ∈
        ((s₃.db.placementsOfEntry e.id).map Placement.versionId).dedup :=
      List.mem_dedup.mpr (List.mem_map_of_mem (Database.mem_placementsOfEntry.mpr ⟨hp, hid⟩))
    rw [hcount] at hmem
    exact List.not_mem_nil hmem
  rw [← bind_pure (Action.sql _)]
  refine safe_statement ho₃ hs₃ (fun _ _ => trivial)
    fun s₄ u row ws hs₄ ho₄ hrely _ _ hexec => ?_
  cases hexec
  have hadd : (tx.add [.removeEntry e.id] ((Query.deleteEntry e.id).locks u (tx.view s₄))).writes =
      [.removeEntry e.id] := by rw [Tx.add_writes, hw]; rfl
  exact ⟨_, rfl, committable_removeEntry hadd ⟨hrely.agree.entry_unplaced e.id hL hunplaced,
    hL.mono fun _ hl => List.mem_append_left _ hl⟩⟩

/-! ### Submissions -/

/-- `INSERT … ON CONFLICT DO UPDATE` on entries, on an idle connection. -/
theorem safe_upsertEntry {boardId : Uuid} {slug name : String} {f : Uuid → Action α}
    (hok : ∀ id s₁, (contract faulty P).Safe t closed (f id) none s₁) :
    (contract faulty P).Safe t closed (Action.sql (.upsertEntry boardId slug name) >>= f)
      none s := by
  refine safe_autocommit (fun _ _ => rfl)
    fun s₁ u now id ws _ _ hu hexec => ⟨?_, fun s₂ _ _ _ => hok id s₂⟩
  obtain ⟨hlegal, hkeeps, -⟩ := legal_upsertEntry (P := P) hexec hu fun _ hl => hl
  exact ⟨hlegal, sealed_of_versions (applyAll_versions hkeeps)⟩

theorem isFinite_of_not {x : F64} (h : ¬(x.isNan || x.isInfinite) = true) : x.isFinite = true := by
  simpa [F64.isFinite] using h

theorem safe_submitScore {board : Board} {input : SubmitScore} :
    (contract faulty P).Safe t closed (Scores.submit board input) none s := by
  refine Contract.safe_failIf (fun _ => rfl) fun _ => Contract.safe_failIf (fun _ => rfl)
    fun _ => Contract.safe_failIf (fun _ => rfl) fun hfin =>
    Contract.safe_ofExcept (fun _ _ => rfl) fun _ _ => Contract.safe_ofExcept (fun _ _ => rfl)
    fun _ _ => safe_transaction fun s₁ now hs₁ _ => ?_
  refine safe_statement (Open.begin P s₁ now) hs₁ (fun _ _ => trivial)
    fun s₂ u id ws hs₂ ho₂ _ _ hu hexec => ?_
  obtain ⟨hlegal, hkeeps, hL, hentry⟩ := legal_upsertEntry (P := P) hexec hu fun _ hl => hl
  generalize hlocks : (Query.upsertEntry board.id input.entrySlug input.entryName).locks u
    (Tx.view ⟨[], [], now⟩ s₂) = L at hlegal hL
  have ho : Open P s₂ (Tx.add ⟨[], [], now⟩ ws L) :=
    ho₂.add (fun w hw => (hkeeps w hw).not_removes) hlegal
  -- The upsert locks its entry, so the entry is still there for the score.
  have hon : EntryOn s₂ (Tx.add ⟨[], [], now⟩ ws L) board.id id := by
    refine .inr ⟨hL, ?_⟩
    rw [Tx.view_add]
    exact hentry
  rw [← bind_pure (Action.sql _)]
  refine safe_statement ho hs₂ (fun _ _ => trivial)
    fun s₃ u' x ws' hs₃ ho₃ hrely hagree hu' hexec' => ?_
  have hon₃ := hon.stable hrely hagree
  obtain ⟨w, rfl, hw, hv, hlegal'⟩ := legal_upsertScore (P := P) (s := s₃) hexec'
    (isFinite_of_not hfin) (fun e he hid => hon₃.board ho₃ hs₃ he hid)
    (Held.mono hL fun l hl => List.mem_append_left _ hl) fun l hl => List.mem_append_right _ hl
  refine ⟨_, rfl, (ho₃.add (by simpa using hw) (legalSeq_singleton.mpr hlegal')).committable' hs₃
    ?_⟩
  refine applyAll_versions fun w' hw' => ?_
  rcases List.mem_append.mp hw' with hw' | hw'
  · exact hkeeps w' hw'
  · obtain rfl := List.mem_singleton.mp hw'
    -- Neither statement inserts a version or removes a row.
    cases w' with
    | addVersion v => exact absurd rfl (hv v)
    | removeBoard id => exact hw trivial
    | removeEntry id => exact hw trivial
    | removeReference id => exact hw trivial
    | removeCollection id => exact hw trivial
    | _ => trivial

theorem safe_submitRealtime {board : Board} {input : SubmitScore} {keyPrefix : String} :
    (contract faulty P).Safe t closed (Realtime.submit board input keyPrefix) none s := by
  refine Contract.safe_failIf (fun _ => rfl) fun _ => Contract.safe_failIf (fun _ => rfl)
    fun hfin => Contract.safe_ofExcept (fun _ _ => rfl) fun _ _ =>
    Contract.safe_ofExcept (fun _ _ => rfl) fun _ _ => safe_upsertEntry fun id s₁ => ?_
  refine safe_redis ?_ (fun _ _ _ _ => rfl) fun _ _ _ _ _ _ _ => rfl
  simpa [RedisCmd.Finite, RedisWrite.Finite] using isFinite_of_not hfin

/-! ### References -/

/-- `pin` is the id of the version with the number on the board, if a number is given. -/
def PinsOwn (s : Server) (boardId : Uuid) (number : Option ℤ) (pin : Option Uuid) : Prop :=
  pin.isSome = number.isSome ∧ ∀ id, pin = some id → ∃ v ∈ s.db.versions, v.id = id ∧
    v.boardId = boardId ∧ number = some v.versionNumber

theorem safe_resolvePin {boardId : Uuid} {pin : Option ℤ} {f : Option Uuid → Action α}
    (hok : ∀ s₁ id, ServerInv P s₁ → PinsOwn s₁ boardId pin id →
      (contract faulty P).Safe t closed (f id) none s₁)
    (hs : ServerInv P s) :
    (contract faulty P).Safe t closed (References.resolvePin boardId pin >>= f) none s := by
  cases pin with
  | none => exact hok s none hs (by simp [PinsOwn])
  | some num =>
    simp only [References.resolvePin, bind_assoc]
    refine safe_select rfl fun s₁ s₂ _ _ _ _ hs₂ hdb _ hexec => safe_okOr (fun _ => rfl)
      fun v hv => hok s₂ (some v.id) hs₂ ⟨rfl, ?_⟩
    cases hexec
    have hmem := List.mem_of_find?_eq_some hv
    rw [Database.mem_versionsOf, ← hdb] at hmem
    have hnumber : v.versionNumber = num := by simpa using List.find?_some hv
    rintro id ⟨⟩
    exact ⟨v, hmem.1, rfl, hmem.2, by rw [hnumber]⟩

/-- **A version that was found stays the same row while the board of the reference exists**, so
the insertion pins a version of its own board. -/
theorem safe_createReference {boardId : Uuid} {input : CreateReference}
    (hinput : P.reference input) (hs : ServerInv P s) :
    (contract faulty P).Safe t closed (References.create boardId input) none s := by
  refine Contract.safe_ofExcept (fun _ _ => rfl) fun _ _ => Contract.safe_ofExcept
    (fun _ _ => rfl) fun _ _ => Contract.safe_ofExcept (fun _ _ => rfl) fun _ _ => ?_
  refine safe_resolvePin (fun s₁ pin hs₁ hpin => ?_) hs
  refine safe_autocommit (fun _ _ => rfl) fun s₂ u now row ws hs₂ hrely _ hexec =>
    ⟨?_, fun _ _ _ _ => rfl⟩
  have hown : ∀ id, pin = some id → ∀ v ∈ s₂.db.versions, v.id = id →
      v.boardId = boardId ∧ input.pinnedVersionNumber = some v.versionNumber := by
    intro id hid v hv hvid
    obtain ⟨v', hv', hvid', hvb', hnumber⟩ := hpin.2 id hid
    obtain ⟨-, -, -, -, hboard, -⟩ := execInsertReference_ok hexec
    obtain ⟨b, hb, hbid⟩ := hs₁.schema.version_board v' hv'
    have hused : v'.boardId ∈ s₁.usedBoards := hbid ▸ hs₁.board_used b hb
    have hkept := hrely.version_kept v' hv' hused (by rwa [hvb'])
    rw [hs₂.schema.version_inj hv hkept (hvid.trans hvid'.symm)]
    exact ⟨hvb', hnumber⟩
  obtain ⟨r, rfl, hlegal⟩ :=
    legal_insertReference (P := P) (s := s₂) hinput hexec hpin.1 hown fun _ hl => hl
  exact ⟨legalSeq_singleton.mpr hlegal, sealed_of_versions rfl⟩

theorem safe_deleteReference {boardId referenceId : Uuid} :
    (contract faulty P).Safe t closed (References.delete boardId referenceId) none s := by
  refine safe_autocommit (fun _ _ => rfl) fun s₁ u now row ws hs₁ _ _ hexec =>
    ⟨?_, fun s₂ _ _ _ => ?_⟩
  · rcases execDeleteReference_ok hexec with rfl | rfl
    · exact ⟨trivial, sealed_of_versions rfl⟩
    · exact ⟨legalSeq_singleton.mpr (held_of_mem (by simp [Query.locks])), sealed_of_versions rfl⟩
  · change (contract faulty P).Safe t closed (Prog.failIf (row = 0) _) none s₂
    unfold Prog.failIf
    split <;> exact rfl

/-! ### Collections -/

theorem safe_createCollection {input : CreateCollection} :
    (contract faulty P).Safe t closed (Collections.create input) none s := by
  refine Contract.safe_ofExcept (fun _ _ => rfl) fun _ _ =>
    Contract.safe_ofExcept (fun _ _ => rfl) fun _ _ => ?_
  refine safe_autocommit (fun e s₁ => ?_) fun s₁ u now row ws hs₁ _ _ hexec => ⟨⟨?_, ?_⟩, ?_⟩
  · cases e <;> exact rfl
  · have hlegal := legal_insertCollection (P := P) (s := s₁) hexec fun _ hl => hl
    obtain ⟨rfl, -⟩ := execInsertCollection_ok hexec
    exact legalSeq_singleton.mpr hlegal
  · obtain ⟨rfl, -⟩ := execInsertCollection_ok hexec
    exact sealed_of_versions rfl
  · exact fun s₂ _ _ _ => rfl

theorem safe_updateCollection {slug : String} {input : UpdateCollection} :
    (contract faulty P).Safe t closed (Collections.update slug input) none s := by
  have hbody : (contract faulty P).Safe t closed (Action.transaction do
      let row ← Action.sql (.selectCollectionBySlugForUpdate slug)
      let collection ← Action.okOr row (.notFound s!"collection '{slug}' not found")
      Action.sql (.updateCollection collection.id (input.name.getD collection.name)
        (input.metadata.apply collection.metadata))) none s := by
    refine safe_transaction fun s₁ now hs₁ _ => ?_
    refine safe_statement (Open.begin P s₁ now) hs₁ (fun _ _ => trivial)
      fun s₂ u row ws hs₂ ho₂ _ _ _ hexec => ?_
    cases hexec
    refine safe_okOr (fun _ => trivial) fun c hc => ?_
    -- `FOR UPDATE` locks the row that it found.
    have hlocks : (Query.selectCollectionBySlugForUpdate slug).locks u
        (Tx.view ⟨[], [], now⟩ s₂) = [⟨.collection c.id, .update⟩] := by
      simp [Query.locks, show Database.collectionBySlug? (Tx.view ⟨[], [], now⟩ s₂) slug = some c
        from hc]
    rw [hlocks]
    rw [← bind_pure (Action.sql _)]
    refine safe_statement (ho₂.add (by simp) trivial) hs₂ (fun _ _ => trivial)
      fun s₃ u' row' ws' hs₃ ho₃ _ _ _ hexec' => ?_
    have hlegal := legal_updateCollection (P := P) (s := s₃)
      (L := [⟨.collection c.id, .update⟩, ⟨.collection c.id, .noKeyUpdate⟩]) hexec'
      (held_of_mem (by simp))
    obtain ⟨rfl, -⟩ := execUpdateCollection_ok hexec'
    refine ⟨_, rfl, (ho₃.add (by simp [RowWrite.removes])
      (legalSeq_singleton.mpr hlegal)).committable' hs₃ ?_⟩
    rw [Tx.view_add]
    rfl
  unfold Collections.update
  split
  · exact Contract.safe_ofExcept (fun _ _ => rfl) fun _ _ => hbody
  · exact hbody

theorem safe_deleteCollection {slug : String} :
    (contract faulty P).Safe t closed (Collections.delete slug) none s := by
  refine safe_autocommit (fun _ _ => rfl) fun s₁ u now row ws hs₁ _ _ hexec =>
    ⟨?_, fun s₂ _ _ _ => ?_⟩
  · rcases execDeleteCollection_ok hexec with rfl | ⟨c, hc, rfl⟩
    · exact ⟨trivial, sealed_of_versions rfl⟩
    · exact ⟨legalSeq_singleton.mpr (held_of_mem (by simp [Query.locks, hc])),
        sealed_of_versions rfl⟩
  · change (contract faulty P).Safe t closed (Prog.failIf (row = 0) _) none s₂
    unfold Prog.failIf
    split <;> exact rfl

end Leaderboards
