import Leaderboards.Library.Monitor
import Leaderboards.Transactions.Footprint
import Leaderboards.Transactions.Reachable

/-!
# What a PATCH does

`Request.patch` is the effect of a successful PATCH on the tables: the fields that are present
replace those of one row. The three update functions read the row, merge in memory and write all
columns back. They hold the row lock from the read to the commit, so what they merged with is still
the committed row when they commit: **`meets_patch`**. A PATCH that succeeds has committed once, and
one that is refused never (**`keeps_patch`**).
-/

namespace Leaderboards

open Interaction

/-! ### The effect of a PATCH -/

/-- A board row after a PATCH. -/
def UpdateBoard.patch (input : UpdateBoard) (now : Timestamp) (b : Board) : Board :=
  { b with
    name := input.name.getD b.name
    sortDirection := input.sortDirection.getD b.sortDirection
    tierConfig := input.tierConfig.apply b.tierConfig
    metadata := input.metadata.apply b.metadata
    realtime := input.realtime.getD b.realtime
    clearOnSnapshot := input.clearOnSnapshot.getD b.clearOnSnapshot
    updatedAt := now }

/-- An entry row after a PATCH. -/
def UpdateEntry.patch (input : UpdateEntry) (now : Timestamp) (e : Entry) : Entry :=
  { e with
    name := input.name.getD e.name
    metadata := input.metadata.apply e.metadata
    updatedAt := now }

/-- A collection row after a PATCH. -/
def UpdateCollection.patch (input : UpdateCollection) (now : Timestamp) (c : Collection) :
    Collection :=
  { c with
    name := input.name.getD c.name
    metadata := input.metadata.apply c.metadata
    updatedAt := now }

/-- Change the rows with a property. -/
def patchRows {ρ : Type} (p : ρ → Prop) [DecidablePred p] (f : ρ → ρ) (rows : List ρ) : List ρ :=
  rows.map fun r => if p r then f r else r

/-- The entry is the one that the slugs name. -/
def Database.Names (db : Database) (boardSlug entrySlug : String) (e : Entry) : Prop :=
  (db.boardBySlug? boardSlug).map Board.id = some e.boardId ∧ e.slug = entrySlug

instance (db : Database) (boardSlug entrySlug : String) :
    DecidablePred (db.Names boardSlug entrySlug) := fun e => by
  unfold Database.Names
  infer_instance

/-- **The effect of a PATCH on the tables.** Other requests are no PATCHes. -/
def Request.patch (now : Timestamp) : Request → Database → Database
  | .updateBoard slug input, db =>
    { db with boards := patchRows (fun b => b.slug = slug) (input.patch now) db.boards }
  | .updateEntry slug entrySlug input, db =>
    { db with entries := patchRows (db.Names slug entrySlug) (input.patch now) db.entries }
  | .updateCollection slug input, db =>
    { db with
      collections := patchRows (fun c => c.slug = slug) (input.patch now) db.collections }
  | _, db => db

/-- The request is a PATCH of a board, an entry or a collection. -/
def Request.IsPatch : Request → Prop
  | .updateBoard .. => True
  | .updateEntry .. => True
  | .updateCollection .. => True
  | _ => False

/-- Replacing one row by its key is changing the rows with a property that only it has. -/
theorem replace_eq_patchRows {ρ κ : Type} [DecidableEq κ] {rows : List ρ} {key : ρ → κ} {b : ρ}
    {f : ρ → ρ} {p : ρ → Prop} [DecidablePred p] (hkey : ∀ r ∈ rows, key r = key b → r = b)
    (hp : ∀ r ∈ rows, p r ↔ r = b) :
    (rows.map fun r => if key r = key b then f b else r) = patchRows p f rows := by
  refine List.map_congr_left fun r hr => ?_
  by_cases heq : r = b
  · rw [if_pos (congrArg key heq), if_pos ((hp r hr).mpr heq), heq]
  · rw [if_neg fun h => heq (hkey r hr h), if_neg fun h => heq ((hp r hr).mp h)]

/-! ### PATCH handlers -/

/-- What a PATCH finds when it executes an instruction: outside its transaction it only reads, and
when it commits, its row writes have the effect of the PATCH on the committed tables. -/
def Applies (r : Request) : Cmd → Session → Server → Prop
  | .commit, h, s => ∀ tx, h = some tx → s.db.applyAll tx.writes = r.patch tx.now s.db
  | .sql q, h, _ => h = none → q.readOnly = true
  | _, _, _ => True

variable {P : Policy} {faulty : Prop} {s s₁ : Server} {tx : Tx} {t : Tid} {α : Type}
  {r : Request}

/-- The end of a transaction, when its row writes have the effect of the PATCH. -/
theorem meets_commit {a : α} (h : ∀ s₁, ServerInv P s₁ → Rely tx.locks s s₁ →
      s₁.db.applyAll tx.writes = r.patch tx.now s₁.db) :
    (contract faulty P).Meets t (Applies r) (Action.endTransaction (.ok a)).discard
      (some tx) s := by
  refine fun s₁ hrely hinv => ⟨fun tx' htx => ?_, fun L res s₂ h₂ _ => ?_⟩
  · obtain rfl := Option.some.inj htx
    exact h s₁ hinv hrely
  · cases res <;> trivial

/-- The end of a transaction that failed. -/
theorem meets_rollback {e : Error} : (contract faulty P).Meets t (Applies r)
    (Action.endTransaction (α := α) (.error e)).discard (some tx) s :=
  fun _ _ _ => ⟨trivial, fun _ _ _ _ _ => trivial⟩

/-- A statement of a transaction. -/
theorem meets_statement {q : Query} {k : Except DbError q.Row → Action α}
    (herr : ∀ e s₁, (contract faulty P).Meets t (Applies r) (k (.error e)) (some tx) s₁)
    (hok : ∀ s₁ u row ws, ServerInv P s₁ → Rely tx.locks s s₁ →
      exec u tx.now q (s₁.db.applyAll tx.writes) = .ok (row, ws) →
      (contract faulty P).Meets t (Applies r) (k (.ok row))
        (some (tx.add ws (q.locks u (s₁.db.applyAll tx.writes)))) s₁) :
    (contract faulty P).Meets t (Applies r) (Prog.op (S := Service) (.sql q) k) (some tx) s := by
  refine fun s₁ hrely hinv => ⟨fun hnone => (by cases hnone), fun L res s₂ h₂ hexec => ?_⟩
  cases hexec with
  | statement hu hq => exact hok s₁ _ _ _ hinv hrely hq
  | statementError hu hq => exact herr _ _
  | statementFault hf => exact herr _ _

/-- The `UPDATE` of a transaction, and its end. -/
theorem meets_update {q : Query} (h : ∀ s₁ u row ws, ServerInv P s₁ → Rely tx.locks s s₁ →
      exec u tx.now q (s₁.db.applyAll tx.writes) = .ok (row, ws) →
      ∀ s₂, ServerInv P s₂ → Rely tx.locks s₁ s₂ →
        s₂.db.applyAll (tx.writes ++ ws) = r.patch tx.now s₂.db) :
    (contract faulty P).Meets t (Applies r)
      (Action.discard ((Action.sql q).attempt >>= Action.endTransaction)) (some tx) s := by
  refine meets_statement (fun _ _ => meets_rollback) fun s₁ u row ws hinv hrely hexec => ?_
  exact meets_commit fun s₂ hinv₂ hrely₂ => h s₁ u row ws hinv hrely hexec s₂ hinv₂
    (hrely₂.anti fun l hl => List.mem_append_left _ hl)

/-- The beginning of a transaction. -/
theorem meets_begin {body : Action α} (h : ∀ s₁ now, ServerInv P s₁ → Rely [] s s₁ →
      (contract faulty P).Meets t (Applies r)
        (Action.discard (body.attempt >>= Action.endTransaction)) (some ⟨[], [], now⟩) s₁) :
    (contract faulty P).Meets t (Applies r) (Action.transaction body).discard none s := by
  refine fun s₁ hrely hinv => ⟨trivial, fun L res s₂ h₂ hexec => ?_⟩
  cases hexec with
  | begin hnow =>
    rename_i now
    have hsame : Unchanged s₁ { s₁ with clock := now } := ⟨rfl, rfl, rfl, id⟩
    exact h _ _ (hsame.inv hinv) (hrely.trans hsame.rely)
  | beginFault hf => trivial

/-- A transaction that locks a row and then fails or updates it. -/
theorem meets_lockedUpdate {q : Query} {f : q.Row → Action α}
    (hq : ∀ {u now db row ws}, exec u now q db = .ok (row, ws) → ws = [])
    (h : ∀ s₁ u now row, ServerInv P s₁ → Rely [] s s₁ → exec u now q s₁.db = .ok (row, []) →
      (contract faulty P).Meets t (Applies r)
        (Action.discard ((f row).attempt >>= Action.endTransaction))
        (some ⟨[], q.locks u s₁.db, now⟩) s₁) :
    (contract faulty P).Meets t (Applies r)
      (Action.transaction (Action.sql q >>= f)).discard none s := by
  refine meets_begin fun s₁ now _ hrely₁ => ?_
  refine meets_statement (fun _ _ => meets_rollback) fun s₂ u row ws hinv₂ hrely₂ hexec => ?_
  obtain rfl := hq hexec
  exact h s₂ u now row hinv₂ (hrely₁.trans hrely₂) hexec

theorem meets_updateBoard {slug : String} {input : UpdateBoard} :
    (contract faulty P).Meets t (Applies (.updateBoard slug input))
      (Boards.update slug input).discard none s := by
  unfold Boards.update
  rcases Boards.validateUpdateFields input with e | _
  · trivial
  refine meets_lockedUpdate (fun h => by cases h; rfl) fun s₁ u now row hinv₁ _ hexec => ?_
  cases hexec
  rcases hrow : s₁.db.boardBySlug? slug with _ | b
  · exact meets_rollback
  change (contract faulty P).Meets t _ (Action.discard
    ((Prog.ofExcept (Boards.validateUpdate b input) >>= fun _ =>
      Action.sql (Boards.updateQuery b input)).attempt >>= Action.endTransaction)) _ _
  rcases Boards.validateUpdate b input with e | _
  · exact meets_rollback
  -- The lock keeps the row that was read until the commit.
  obtain ⟨hb, hslug⟩ := Database.mem_of_boardBySlug? hrow
  have hheld : Held ((Query.selectBoardBySlugForUpdate slug).locks u s₁.db) (.board b.id)
      .noKeyUpdate := (held_of_mem (m := .update) (by simp [Query.locks, hrow])).weaken rfl
  refine meets_update fun s₂ u₂ row ws hinv₂ hrely₂ hexec s₃ hinv₃ hrely₃ => ?_
  have hb₂ : b ∈ s₂.db.boards := (hrely₂.agree.board_row b hheld).mp hb
  have hb₃ : b ∈ s₃.db.boards := (hrely₃.agree.board_row b hheld).mp hb₂
  obtain ⟨rfl, -, r, hr, rfl⟩ := execUpdateBoard_ok hexec
  obtain rfl : b = r := Option.some.inj ((hinv₂.schema.board?_eq hb₂).symm.trans hr)
  have hrows := replace_eq_patchRows (f := input.patch now) (p := fun r : Board => r.slug = slug)
    (fun r hr hid => hinv₃.schema.board_inj hr hb₃ hid)
    (fun r hr => ⟨fun h => hinv₃.schema.board_slug_inj hr hb₃ (h.trans hslug.symm),
      fun h => h ▸ hslug⟩)
  exact congrArg (fun rows => { s₃.db with boards := rows }) hrows

/-- The board that a handler has read keeps its slug for as long as it has entries. -/
theorem ServerInv.names_board (hs : ServerInv P s) {b : Board} (hb : b ∈ s.db.boards)
    (hs₁ : ServerInv P s₁) (hrely : Rely [] s s₁) {e : Entry} (he : e ∈ s₁.db.entries)
    (hboard : e.boardId = b.id) :
    (s₁.db.boardBySlug? b.slug).map Board.id = some e.boardId := by
  obtain ⟨b', hb', hid⟩ := hs₁.schema.entry_board e he
  obtain ⟨r, hr, hkey⟩ := hrely.board_reused b' hb' (by
    rw [hid, hboard]
    exact hs.board_used b hb)
  obtain rfl := hs.schema.board_inj hr hb (hkey.1.trans (hid.trans hboard))
  rw [hkey.2.1, hs₁.schema.boardBySlug?_eq hb', Option.map_some, hid]

theorem meets_updateEntry {boardSlug slug : String} {b : Board} {input : UpdateEntry}
    (hs : ServerInv P s) (hb : b ∈ s.db.boards) (hslug : b.slug = boardSlug) :
    (contract faulty P).Meets t (Applies (.updateEntry boardSlug slug input))
      (Entries.update b.id slug input).discard none s := by
  have hbody : (contract faulty P).Meets t (Applies (.updateEntry boardSlug slug input))
      (Action.transaction do
        let row ← Action.sql (.selectEntryForUpdate b.id slug)
        let entry ← Action.okOr row (.notFound s!"entry '{slug}' not found")
        Action.sql (.updateEntry entry.id (input.name.getD entry.name)
          (input.metadata.apply entry.metadata))).discard none s := by
    refine meets_lockedUpdate (fun h => by cases h; rfl) fun s₁ u now row hinv₁ hrely₁ hexec => ?_
    cases hexec
    rcases hrow : s₁.db.entryBySlug? b.id slug with _ | e
    · exact meets_rollback
    obtain ⟨he, heb, heslug⟩ := Database.mem_of_entryBySlug? hrow
    -- `FOR UPDATE` keeps the row until the transaction ends, so the update finds it as it was read.
    have hheld : Held ((Query.selectEntryForUpdate b.id slug).locks u s₁.db) (.entry e.id)
        .noKeyUpdate := (held_of_mem (m := .update) (by simp [Query.locks, hrow])).weaken rfl
    refine meets_update fun s₂ u₂ row ws hinv₂ hrely₂ hexec s₃ hinv₃ hrely₃ => ?_
    have he₂ : e ∈ s₂.db.entries := (hrely₂.agree.entry_row e hheld).mp he
    have he₃ : e ∈ s₃.db.entries := (hrely₃.agree.entry_row e hheld).mp he₂
    obtain ⟨rfl, r, hr, rfl⟩ := execUpdateEntry_ok hexec
    obtain rfl : e = r := Option.some.inj ((hinv₂.schema.entryById?_eq he₂).symm.trans hr)
    have hrely : Rely [] s s₃ := hrely₁.trans
      ((hrely₂.trans hrely₃).anti fun _ hl => absurd hl List.not_mem_nil)
    have hboard := hslug ▸ hs.names_board hb hinv₃ hrely he₃ heb
    -- The entry is the only row that the request names at the commit.
    have hrows := replace_eq_patchRows (f := input.patch now) (p := s₃.db.Names boardSlug slug)
      (fun r hr hid => hinv₃.schema.entry_inj hr he₃ hid)
      (fun r hr => ⟨fun hnames => hinv₃.schema.entry_key_inj hr he₃
          (Option.some.inj (hnames.1.symm.trans hboard)) (hnames.2.trans heslug.symm),
        fun h => h ▸ ⟨hboard, heslug⟩⟩)
    exact congrArg (fun rows => { s₃.db with entries := rows }) hrows
  unfold Entries.update
  split
  · rename_i name _
    rcases validateName name with e | _
    · trivial
    · exact hbody
  · exact hbody

theorem meets_updateCollection {slug : String} {input : UpdateCollection} :
    (contract faulty P).Meets t (Applies (.updateCollection slug input))
      (Collections.update slug input).discard none s := by
  have hbody : (contract faulty P).Meets t (Applies (.updateCollection slug input))
      (Action.transaction do
        let row ← Action.sql (.selectCollectionBySlugForUpdate slug)
        let collection ← Action.okOr row (.notFound s!"collection '{slug}' not found")
        Action.sql (.updateCollection collection.id (input.name.getD collection.name)
          (input.metadata.apply collection.metadata))).discard none s := by
    refine meets_lockedUpdate (fun h => by cases h; rfl) fun s₁ u now row hinv₁ _ hexec => ?_
    cases hexec
    rcases hrow : s₁.db.collectionBySlug? slug with _ | c
    · exact meets_rollback
    obtain ⟨hc, hslug⟩ := Database.mem_of_collectionBySlug? hrow
    -- The row is locked from the select on, so it is the same one at the commit.
    have hheld : Held ((Query.selectCollectionBySlugForUpdate slug).locks u s₁.db)
        (.collection c.id) .noKeyUpdate :=
      (held_of_mem (m := .update) (by simp [Query.locks, hrow])).weaken rfl
    refine meets_update fun s₂ u₂ row ws hinv₂ hrely₂ hexec s₃ hinv₃ hrely₃ => ?_
    have hc₂ : c ∈ s₂.db.collections := (hrely₂.agree.collection_row c hheld).mp hc
    have hc₃ : c ∈ s₃.db.collections := (hrely₃.agree.collection_row c hheld).mp hc₂
    obtain ⟨rfl, r, hr, rfl⟩ := execUpdateCollection_ok hexec
    obtain ⟨hr, hid⟩ := Database.mem_of_collection? hr
    obtain rfl := hinv₂.schema.collection_inj hr hc₂ hid
    have hrows := replace_eq_patchRows (f := input.patch now)
      (p := fun r : Collection => r.slug = slug)
      (fun r hr hid => hinv₃.schema.collection_inj hr hc₃ hid)
      (fun r hr => ⟨fun h => List.inj_on_of_nodup_map hinv₃.schema.collection_slug hr hc₃
        (h.trans hslug.symm), fun h => h ▸ hslug⟩)
    exact congrArg (fun rows => { s₃.db with collections := rows }) hrows
  unfold Collections.update
  split
  · rename_i name _
    rcases validateName name with e | _
    · trivial
    · exact hbody
  · exact hbody

/-- A read on an idle connection. -/
theorem meets_read {q : Query} {k : Except DbError q.Row → Action α} (hq : q.readOnly = true)
    (herr : ∀ e s₁, (contract faulty P).Meets t (Applies r) (k (.error e)) none s₁)
    (hok : ∀ (s₁ s₂ : Server) u now row, ServerInv P s₂ → s₂.db = s₁.db →
      exec u now q s₁.db = .ok (row, []) →
      (contract faulty P).Meets t (Applies r) (k (.ok row)) none s₂) :
    (contract faulty P).Meets t (Applies r) (Prog.op (S := Service) (.sql q) k) none s := by
  refine fun s₁ _ hinv => ⟨fun _ => hq, fun L res s₂ h₂ hexec => ?_⟩
  cases hexec with
  | autocommit hu hnow hexec =>
    rename_i u now ws row
    obtain rfl := exec_readOnly hq hexec
    have hcommit : Commits P [] s₁ { Server.commit s₁ [] with clock := now } :=
      ⟨[], trivial, fun v hv hnew => absurd hv hnew, rfl, rfl, rfl, rfl⟩
    exact hok s₁ _ u now row (hcommit.inv hinv) rfl hexec
  | autocommitError hu hnow hexec => exact herr _ _
  | statementFault hf => exact herr _ _

/-- **Every PATCH applies itself.** -/
theorem meets_patch (hr : r.IsPatch) :
    (contract faulty P).Meets t (Applies r) r.handler none s := by
  cases r with
  | updateBoard slug input =>
    simp only [Request.handler, Routes.updateBoard]
    split
    · refine meets_read rfl (fun _ _ => trivial) fun s₁ s₂ _ _ row _ _ _ => ?_
      cases row <;> trivial
    · exact meets_updateBoard
  | updateEntry slug entrySlug input =>
    refine meets_read rfl (fun _ _ => trivial) fun s₁ s₂ _ _ row hinv hdb hexec => ?_
    cases hexec
    rcases hrow : s₁.db.boardBySlug? slug with _ | b
    · trivial
    · obtain ⟨hb, hslug⟩ := Database.mem_of_boardBySlug? hrow
      exact meets_updateEntry hinv (hdb ▸ hb) hslug
  | updateCollection slug input =>
    simp only [Request.handler, Routes.updateCollection]
    split
    · refine meets_read rfl (fun _ _ => trivial) fun s₁ s₂ _ _ row _ _ _ => ?_
      cases row <;> trivial
    · exact meets_updateCollection
  | _ => exact hr.elim

/-! ### The commits of a PATCH -/

/-- Whether the answer to an instruction is that of a successful commit. -/
def committed : (c : Cmd) → c.Res → Bool
  | .commit, .ok _ => true
  | _, _ => false

/-- Counts the transactions that a handler commits. -/
def commitCount : Monitor Service ℕ where
  allows _ _ := True
  expects _ _ _ := True
  next n c r := n + (committed c r).toNat

/-- The number of commits among some answered instructions. -/
def commitsAmong (done : List (Machine.Answered Service)) : ℕ :=
  done.countP fun x => committed x.1 x.2

theorem commitCount_after (n : ℕ) (done : List (Machine.Answered Service)) :
    commitCount.after n done = n + commitsAmong done := by
  induction done generalizing n with
  | nil => rfl
  | cons x done ih =>
    have hcons : commitCount.after n (x :: done) =
        commitCount.after (n + (committed x.1 x.2).toNat) done := rfl
    rw [hcons, ih, commitsAmong, commitsAmong, List.countP_cons, add_assoc, add_comm (Bool.toNat _)]
    cases committed x.1 x.2 <;> rfl

theorem commitCount_expected (n : ℕ) (done : List (Machine.Answered Service)) :
    commitCount.Expected n done := by
  induction done generalizing n with
  | nil => trivial
  | cons x done ih => exact ⟨trivial, ih _⟩

/-- An instruction that commits nothing. -/
def Cmd.Uncommitted (c : Cmd) : Prop := ∀ r, committed c r = false

/-- Instructions that commit nothing are not counted. -/
theorem keeps_uncommitted {β : Type} {p : Action β} {post : Except Error β → ℕ → Prop} {n : ℕ}
    (hp : p.Uses Cmd.Uncommitted) (h : ∀ x, post x n) : commitCount.Keeps post p n := by
  induction p with
  | ret a => exact h _
  | fail e => exact h _
  | op c k ih =>
    refine ⟨trivial, fun r _ => ?_⟩
    have hsame : commitCount.next n c r = n := by simp [commitCount, hp.1 r]
    rw [hsame]
    exact ih r (hp.2 r)

/-- The outcome of a handler that commits as often as stated when it succeeds, and never when it
refuses. A handler that has lost its connection may have committed or not. -/
def CommitsWhenOk {β : Type} (k : ℕ) (x : Except Error β) (n : ℕ) : Prop :=
  match x with
  | .ok _ => n = k
  | .error e => (∀ d, e ≠ .database d) → n = 0

theorem keeps_discard {k : ℕ} {p : Action α} (hp : commitCount.Keeps (CommitsWhenOk k) p 0) :
    commitCount.Keeps (CommitsWhenOk k) p.discard 0 := by
  refine Monitor.keeps_bind (hp.mono fun x n hx => ?_)
  cases x <;> exact hx

/-- **A transaction that succeeds has committed once.** -/
theorem keeps_transaction {body : Action α} (hbody : body.Uses Cmd.Uncommitted) :
    commitCount.Keeps (CommitsWhenOk 1) (Action.transaction body) 0 := by
  refine ⟨trivial, fun r _ => ?_⟩
  cases r with
  | error e => exact fun h => absurd rfl (h e)
  | ok _ =>
    refine Monitor.keeps_bind (keeps_uncommitted (Prog.uses_attempt hbody) fun x => ?_)
    rcases x with e | x
    · exact fun _ => rfl
    · rcases x with e | a
      · exact ⟨trivial, fun _ _ _ => rfl⟩
      · refine ⟨trivial, fun r _ => ?_⟩
        cases r with
        | error e => exact fun h => absurd rfl (h e)
        | ok _ => exact (rfl : (0 : ℕ) + 1 = 1)

theorem uncommitted_sql (q : Query) : (Cmd.sql q).Uncommitted := fun _ => rfl

/-- A read commits nothing. -/
theorem keeps_row {q : Query} {f : q.Row → Option α} {e : Error} :
    commitCount.Keeps (CommitsWhenOk 0) (Action.sql q >>= fun row => Action.okOr (f row) e) 0 := by
  refine keeps_uncommitted (Prog.uses_bind (uses_sql (uncommitted_sql q)) fun _ =>
    uses_okOr _ _) fun x => ?_
  cases x with
  | error e => exact fun _ => rfl
  | ok a => exact rfl

/-- A validation, and then a program. -/
theorem keeps_checked {β : Type} {k : ℕ} {x : Except Error β} {f : β → Action α}
    (hf : ∀ b, commitCount.Keeps (CommitsWhenOk k) (f b) 0) :
    commitCount.Keeps (CommitsWhenOk k) (Prog.ofExcept x >>= f) 0 := by
  cases x with
  | error e => exact fun _ => rfl
  | ok b => exact hf b

/-- A transaction that locks a row, checks it and updates it. -/
theorem uncommitted_lockedUpdate {β : Type} {q : Query} {f : q.Row → Option β} {e : Error}
    {g : β → Action α} (hg : ∀ b, (g b).Uses Cmd.Uncommitted) :
    (Action.sql q >>= fun row => Action.okOr (f row) e >>= g).Uses Cmd.Uncommitted :=
  Prog.uses_bind (uses_sql (uncommitted_sql q)) fun _ => uses_row hg

theorem keeps_updateEntry (boardId : Uuid) (slug : String) (input : UpdateEntry) :
    commitCount.Keeps (CommitsWhenOk 1) (Entries.update boardId slug input) 0 := by
  unfold Entries.update
  split
  · exact keeps_checked fun _ => keeps_transaction <| uncommitted_lockedUpdate fun _ =>
      uses_sql (uncommitted_sql _)
  · exact keeps_transaction <| uncommitted_lockedUpdate fun _ => uses_sql (uncommitted_sql _)

theorem keeps_updateCollection (slug : String) (input : UpdateCollection) :
    commitCount.Keeps (CommitsWhenOk 1) (Collections.update slug input) 0 := by
  unfold Collections.update
  split
  · exact keeps_checked fun _ => keeps_transaction <| uncommitted_lockedUpdate fun _ =>
      uses_sql (uncommitted_sql _)
  · exact keeps_transaction <| uncommitted_lockedUpdate fun _ => uses_sql (uncommitted_sql _)

/-- The PATCH changes a row when it succeeds: a PATCH of a board or a collection without fields only
reads. -/
def Request.changes : Request → Bool
  | .updateBoard _ input => !decide (input = {})
  | .updateEntry .. => true
  | .updateCollection _ input => !decide (input = {})
  | _ => false

/-- **A PATCH that succeeds has committed exactly once**, or never when it only reads. -/
theorem keeps_patch (hr : r.IsPatch) :
    commitCount.Keeps (CommitsWhenOk r.changes.toNat) r.handler 0 := by
  cases r with
  | updateBoard slug input =>
    refine keeps_discard ?_
    unfold Routes.updateBoard
    by_cases hempty : input = {}
    · simp only [Request.changes, hempty, decide_true, Bool.not_true, Bool.toNat_false, if_true]
      exact keeps_row
    · simp only [Request.changes, hempty, decide_false, Bool.not_false, Bool.toNat_true, if_false]
      exact keeps_checked fun _ => keeps_transaction <| uncommitted_lockedUpdate fun _ =>
        uses_check fun _ => uses_sql (uncommitted_sql _)
  | updateEntry slug entrySlug input =>
    refine keeps_discard ?_
    refine Monitor.keeps_bind (keeps_uncommitted (Prog.uses_bind
      (uses_sql (uncommitted_sql _)) fun _ => uses_okOr _ _) fun x => ?_)
    rcases x with e | board
    · exact fun _ => rfl
    · exact keeps_updateEntry board.id entrySlug input
  | updateCollection slug input =>
    refine keeps_discard ?_
    unfold Routes.updateCollection
    by_cases hempty : input = {}
    · simp only [Request.changes, hempty, decide_true, Bool.not_true, Bool.toNat_false, if_true]
      exact keeps_row
    · simp only [Request.changes, hempty, decide_false, Bool.not_false, Bool.toNat_true, if_false]
      exact keeps_updateCollection slug input
  | _ => exact hr.elim

end Leaderboards
