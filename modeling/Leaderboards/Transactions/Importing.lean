import Leaderboards.Transactions.Committing
import Leaderboards.Transactions.Footprint
import Leaderboards.Transactions.SingleClient

/-!
# The version numbers of a new board

What a transaction writes is up to its own statements, whatever the others do. `numbering` is a
contract that assumes nothing of the others and says one thing: where a commit adds a board, the
numbers of the versions that come with it have a given property. Only `import_board` adds a board
together with versions, and the numbers are those of the document (`importBoard_idle`), so in
every run whose imports have the property, every new board has it
(`System.Reachable.numbers_of_new`).
-/

namespace Leaderboards

open Interaction

variable {faulty : Prop} {Q : List ℤ → Prop} {t : Tid} {s s' : Server} {tx : Tx}
  {ws : List RowWrite} {α β : Type}

/-! ### Row writes -/

/-- The numbers of the versions that row writes add to a board. -/
def addedNumbers (id : Uuid) (ws : List RowWrite) : List ℤ :=
  ws.filterMap fun
    | .addVersion v => if v.boardId = id then some v.versionNumber else none
    | _ => none

theorem addedNumbers_append (id : Uuid) (ws ws' : List RowWrite) :
    addedNumbers id (ws ++ ws') = addedNumbers id ws ++ addedNumbers id ws' :=
  List.filterMap_append

/-- Row writes that add a board remove nothing, and the numbers of its versions are allowed. -/
def NumbersNew (Q : List ℤ → Prop) (ws : List RowWrite) : Prop :=
  ∀ b, .addBoard b ∈ ws → (∀ w ∈ ws, ¬w.removes) ∧ Q (addedNumbers b.id ws)

/-- Row writes that remove nothing add their versions to those of a board. -/
theorem numbers_applyAll (hws : ∀ w ∈ ws, ¬w.removes) (db : Database) (id : Uuid) :
    ((db.applyAll ws).versionsOf id).map Version.versionNumber =
      (db.versionsOf id).map Version.versionNumber ++ addedNumbers id ws := by
  induction ws generalizing db with
  | nil => simp [addedNumbers]
  | cons w ws ih =>
    have hone : (((w.apply db).versionsOf id).map Version.versionNumber) =
        (db.versionsOf id).map Version.versionNumber ++ addedNumbers id [w] := by
      cases w with
      | addVersion v =>
        by_cases hid : v.boardId = id
        · simp [RowWrite.apply, Database.versionsOf, addedNumbers, hid]
        · simp [RowWrite.apply, Database.versionsOf, addedNumbers, hid]
      | removeBoard => exact absurd trivial (hws _ List.mem_cons_self)
      | _ => exact (List.append_nil _).symm
    rw [Database.applyAll_cons, ih fun w' hw' => hws w' (List.mem_cons_of_mem _ hw'), hone,
      List.append_assoc, ← addedNumbers_append]
    rfl

/-- The writes of a statement outside a transaction add a board without versions, if any. -/
theorem numbersNew_exec (hQ : Q []) {u : Uuid} {now : Timestamp} {q : Query} {db : Database}
    {row : q.Row} (h : exec u now q db = .ok (row, ws)) : NumbersNew Q ws := by
  intro b hb
  obtain ⟨-, rfl, -⟩ := exec_writtenBy h _ hb
  exact ⟨by simp [RowWrite.removes], hQ⟩

/-- The pending row writes of a session add no board. -/
def NoNewBoard (h : Session) : Prop := ∀ tx, h = some tx → ∀ b, .addBoard b ∉ tx.writes

theorem noNewBoard_none : NoNewBoard none := by
  intro tx htx
  cases htx

/-! ### The contract -/

/-- A step commits nothing, or row writes with allowed numbers. -/
def CommitsNumbers (Q : List ℤ → Prop) (s s' : Server) : Prop :=
  s'.db = s.db ∨ ∃ ws, s'.db = s.db.applyAll ws ∧ NumbersNew Q ws

/-- The contract that assumes nothing of the others. -/
def numbering (faulty : Prop) (Q : List ℤ → Prop) : Contract (server faulty) where
  Inv _ := True
  Pre _ _ _ _ := True
  Guar _ _ _ s s' := CommitsNumbers Q s s'
  Rely _ _ _ _ := True
  Beside _ _ := True
  rely_refl _ _ _ := trivial
  rely_trans _ _ _ _ _ _ _ := trivial
  inv_of_guar _ _ _ _ _ _ _ := trivial
  rely_of_guar _ _ _ _ _ _ _ _ _ _ _ _ := trivial
  beside_symm _ _ _ := trivial
  beside_idle _ := trivial
  beside_exec _ _ _ _ _ _ _ _ _ _ _ _ := trivial

/-- What an instruction owes: only a commit needs a condition. -/
theorem Exec.commitsNumbers (hQ : Q []) {c : Cmd} {h h' : Session} {L : List Lock} {r : c.Res}
    (hexec : Exec faulty c s h L r s' h')
    (hcommit : c = .commit → ∀ tx, h = some tx → NumbersNew Q tx.writes) :
    CommitsNumbers Q s s' := by
  cases hexec with
  | commit => exact .inr ⟨_, rfl, hcommit rfl _ rfl⟩
  | autocommit hu hnow hq => exact .inr ⟨_, rfl, numbersNew_exec hQ hq⟩
  | _ => exact .inl rfl

/-- A command that inserts no board leaves a session without one. -/
theorem Exec.noNewBoard {c : Cmd} {h h' : Session} {L : List Lock} {r : c.Res}
    (hexec : Exec faulty c s h L r s' h') (hc : c.NoBoard) (hh : NoNewBoard h) :
    NoNewBoard h' := by
  cases hexec with
  | begin =>
    rintro tx htx b hb
    obtain rfl := Option.some.inj htx
    cases hb
  | statement hu hq =>
    rintro tx' htx b hb
    obtain rfl := Option.some.inj htx
    rcases List.mem_append.mp hb with hb | hb
    · exact hh _ rfl b hb
    · obtain ⟨-, -, ⟨input, rfl, -⟩⟩ := exec_writtenBy hq _ hb
      exact hc
  | statementError | redis | newUuid | statementFault | redisFault => exact hh
  | _ => exact noNewBoard_none

/-- **A program that inserts no board** keeps the contract. -/
theorem safe_of_noBoard (hQ : Q []) {p : Action α} (hp : p.Uses Cmd.NoBoard) {h : Session}
    (hh : NoNewBoard h) :
    (numbering faulty Q).Safe t (fun _ h _ => NoNewBoard h) p h s := by
  induction p generalizing h s with
  | ret a => exact hh
  | fail e => exact hh
  | op c k ih =>
    intro s₁ _ _
    refine ⟨trivial, fun L r s₂ h₂ hexec => ⟨?_, ih r (hp.2 r) (hexec.noNewBoard hp.1 hh)⟩⟩
    refine hexec.commitsNumbers hQ fun _ tx htx b hb => ?_
    exact absurd hb (hh tx htx b)

/-! ### Programs outside a transaction -/

/-- A program that keeps the contract and leaves its connection idle. -/
def Idles (faulty : Prop) (Q : List ℤ → Prop) (p : Action α) : Prop :=
  ∀ t s, (numbering faulty Q).Safe t (fun _ h _ => h = none) p none s

namespace Idles

theorem ret (a : α) : Idles faulty Q (.ret a) := fun _ _ => rfl

theorem fail (e : Error) : Idles faulty Q (.fail e : Action α) := fun _ _ => rfl

theorem bind {p : Action α} {f : α → Action β} (hp : Idles faulty Q p)
    (hf : ∀ a, Idles faulty Q (f a)) : Idles faulty Q (p >>= f) := by
  intro t s
  refine Contract.safe_bind (Q := fun _ h _ => h = none) ((hp t s).mono fun r _ _ hpost => ?_) ?_
  · cases r <;> exact hpost
  · rintro a _ s₁ rfl
    exact hf a t s₁

theorem attempt {p : Action α} (hp : Idles faulty Q p) : Idles faulty Q p.attempt :=
  fun t s => Contract.safe_attempt (hp t s)

theorem check {x : Except Error α} {f : α → Action β} (hf : ∀ a, x = .ok a → Idles faulty Q (f a)) :
    Idles faulty Q (Prog.ofExcept x >>= f) :=
  fun t s => Contract.safe_ofExcept (fun _ _ => rfl) fun a ha => hf a ha t s

theorem okOr (x : Option α) (e : Error) : Idles faulty Q (Action.okOr x e) := by
  cases x with
  | none => exact fail e
  | some a => exact ret a

theorem each {l : List α} {f : α → Action Unit} (hf : ∀ a, Idles faulty Q (f a)) :
    Idles faulty Q (Prog.each l f) := by
  induction l with
  | nil => exact ret ()
  | cons a l ih => exact (hf a).bind fun _ => ih

theorem collect {l : List α} {f : α → Action β} (hf : ∀ a, Idles faulty Q (f a)) :
    Idles faulty Q (Prog.collect l f) := by
  induction l with
  | nil => exact ret []
  | cons a l ih => exact (hf a).bind fun _ => ih.bind fun _ => ret _

/-- A statement in autocommit mode, of any kind. -/
theorem statement (hQ : Q []) {q : Query} {k : Except DbError q.Row → Action α}
    (hk : ∀ r, Idles faulty Q (k r)) : Idles faulty Q (Prog.op (S := Service) (.sql q) k) := by
  intro t s s₁ _ _
  refine ⟨trivial, fun L r s₂ h₂ hexec => ⟨hexec.commitsNumbers hQ nofun, ?_⟩⟩
  have hidle : h₂ = none := by
    cases hexec <;> rfl
  rw [hidle]
  exact hk r t s₂

theorem sql (hQ : Q []) (q : Query) : Idles faulty Q (Action.sql q) := by
  refine statement hQ fun r => ?_
  cases r with
  | error e => exact fail _
  | ok row => exact ret row

/-- **The rule of transactions.** -/
theorem transaction (hQ : Q []) {body : Action α}
    (hbody : ∀ t now s, (numbering faulty Q).Safe t (fun r h _ => ∀ a tx, r = .ok a → h = some tx →
      NumbersNew Q tx.writes) body (some ⟨[], [], now⟩) s) :
    Idles faulty Q (Action.transaction body) := by
  intro t s s₁ _ _
  refine ⟨trivial, fun L r s₂ h₂ hexec => ⟨hexec.commitsNumbers hQ nofun, ?_⟩⟩
  cases hexec with
  | beginFault => rfl
  | begin hnow =>
    refine Contract.safe_bind (Contract.safe_attempt (hbody t _ _)) ?_
    rintro (e | a) h s₃ hpost s₄ _ _
    · refine ⟨trivial, fun L r s₅ h₅ hexec => ⟨hexec.commitsNumbers hQ nofun, ?_⟩⟩
      cases hexec
      rfl
    · refine ⟨trivial, fun L r s₅ h₅ hexec =>
        ⟨hexec.commitsNumbers hQ fun _ tx htx => hpost a tx rfl htx, ?_⟩⟩
      cases hexec <;> rfl

/-- A transaction that inserts no board. -/
theorem transaction_of_noBoard (hQ : Q []) {body : Action α} (hbody : body.Uses Cmd.NoBoard) :
    Idles faulty Q (Action.transaction body) := by
  refine transaction hQ fun t now s => ?_
  have hempty : NoNewBoard (some ⟨[], [], now⟩) := by
    rintro tx htx b hb
    obtain rfl := Option.some.inj htx
    cases hb
  refine (safe_of_noBoard hQ hbody hempty).mono fun r h s₁ hpost a tx _ htx b hb => ?_
  exact absurd hb (hpost tx htx b)

end Idles

/-! ### The requests that insert a board -/

/-- The transaction in a program that inserts no board has no insertion in its body. -/
theorem uses_of_bind {R : Cmd → Prop} {p : Action α} {f : α → Action β} (h : (p >>= f).Uses R) :
    p.Uses R := by
  induction p with
  | ret a => trivial
  | fail e => trivial
  | op c k ih => exact ⟨h.1, fun r => ih r (h.2 r)⟩

theorem uses_of_attempt {R : Cmd → Prop} {p : Action α} (h : p.attempt.Uses R) : p.Uses R := by
  induction p with
  | ret a => trivial
  | fail e => trivial
  | op c k ih => exact ⟨h.1, fun r => ih r (h.2 r)⟩

theorem uses_of_transaction {R : Cmd → Prop} {body : Action α}
    (h : (Action.transaction body).Uses R) : body.Uses R :=
  uses_of_attempt (uses_of_bind (h.2 (.ok ())))

section Sync

variable (hQ : Q [])

include hQ

theorem idles_getBySlug (slug : String) : Idles faulty Q (Boards.getBySlug slug) :=
  (Idles.sql hQ _).bind fun _ => .okOr _ _

theorem idles_createBoard (input : CreateBoard) : Idles faulty Q (Boards.create input) := by
  refine .check fun _ _ => Idles.bind (.statement hQ fun r => .ret r) fun r => ?_
  split
  · exact .ret _
  · exact .fail _
  · exact .fail _

theorem idles_updateBoard (slug : String) (input : UpdateBoard) :
    Idles faulty Q (Boards.update slug input) := by
  have huses := (plain_updateBoard (B := False) (R := RedisCmd.Quiet) slug input).mono
    fun _ => Cmd.PlainIn.noBoard
  refine .check fun _ hcheck => ?_
  rw [Boards.update, hcheck] at huses
  exact .transaction_of_noBoard hQ (uses_of_transaction huses)

theorem idles_syncBoardRow (parsed : ParsedBoard) :
    Idles faulty Q (Sync.syncBoardRow parsed) := by
  refine (idles_getBySlug hQ _).attempt.bind fun r => ?_
  split
  · split
    · exact (idles_updateBoard hQ _ _).bind fun _ => .ret _
    · exact .ret _
  · exact (idles_createBoard hQ _).bind fun _ => .ret _
  · exact .fail _

theorem idles_createEntry (boardId : Uuid) (input : CreateEntry) :
    Idles faulty Q (Entries.create boardId input) := by
  refine .check fun _ _ => .check fun _ _ => Idles.bind (.statement hQ fun r => .ret r) fun r => ?_
  split
  · exact .ret _
  · exact .fail _
  · exact .fail _

theorem idles_updateEntry (boardId : Uuid) (slug : String) (input : UpdateEntry) :
    Idles faulty Q (Entries.update boardId slug input) := by
  have hbody : Idles faulty Q (Action.transaction do
      let row ← Action.sql (.selectEntryForUpdate boardId slug)
      let entry ← Action.okOr row (.notFound s!"entry '{slug}' not found")
      Action.sql (.updateEntry entry.id (input.name.getD entry.name)
        (input.metadata.apply entry.metadata))) :=
    .transaction_of_noBoard hQ <| Prog.uses_bind (uses_sql trivial) fun _ => uses_row fun _ =>
      uses_sql trivial
  unfold Entries.update
  split
  · exact .check fun _ _ => hbody
  · exact hbody

theorem idles_createVersion (board : Board) (input : CreateVersion) (max : Option ℤ) :
    Idles faulty Q (Versions.create board input max) := by
  have huses := (plain_createVersion (B := False) (R := RedisCmd.Quiet) board input max).mono
    fun _ => Cmd.PlainIn.noBoard
  unfold Versions.create at huses ⊢
  unfold Prog.failIf at huses ⊢
  split
  · exact .fail _
  · rename_i hacc
    rw [if_neg hacc] at huses
    refine .check fun _ hvalid => ?_
    rw [hvalid] at huses
    exact .transaction_of_noBoard hQ (uses_of_transaction huses)

theorem idles_syncEntry (boardId : Uuid) (existing : List Entry) (entry : EntryToml) :
    Idles faulty Q (Sync.syncEntry boardId existing entry) := by
  unfold Sync.syncEntry
  split
  · exact (idles_createEntry hQ _ _).bind fun _ => .ret _
  · split
    · exact (idles_updateEntry hQ _ _ _).bind fun _ => .ret _
    · exact .ret ()

theorem idles_syncBoard (parsed : ParsedBoard) (note : Option String) :
    Idles faulty Q (Sync.syncBoard parsed note) := by
  -- The change detector reads, and at most one version is created at the end.
  have hneeds : ∀ board placements, Idles faulty Q (Sync.needsVersion board placements) := by
    intro board placements
    have hlatest : Idles faulty Q (Versions.getLatest board.id) :=
      (Idles.sql hQ _).bind fun _ => (Idles.okOr _ _).bind fun _ =>
        (Idles.sql hQ _).bind fun _ => .ret _
    refine hlatest.attempt.bind fun r => ?_
    split
    · exact .ret _
    · exact .ret _
    · exact .fail _
  have hrest : ∀ board placements (needed : Bool), Idles faulty Q (if needed = true then
      Sync.createVersion parsed board note placements
      else pure ⟨parsed.slug, board.name, .noChange⟩) := by
    intro board placements needed
    split
    · exact (idles_createVersion hQ _ _ _).bind fun _ => .ret _
    · exact .ret _
  unfold Sync.syncBoard
  split
  · exact .ret _
  · refine (idles_syncBoardRow hQ parsed).bind fun r => ?_
    dsimp only
    split
    · exact .ret _
    · refine (Idles.sql hQ _).bind fun existing =>
        (Idles.each fun _ => idles_syncEntry hQ _ _ _).bind fun _ => ?_
      split
      · exact hrest _ _ true
      · exact (hneeds _ _).bind fun needed => hrest _ _ needed

theorem idles_syncDir (parsed : List ParsedBoard) (note : Option String) :
    Idles faulty Q (Sync.syncDir parsed note) := by
  refine .collect fun p => (idles_syncBoard hQ p note).attempt.bind fun r => ?_
  split
  · exact .ret _
  · exact .ret _

end Sync

/-! ### The import -/

/-- The pending row writes insert the board `b` with versions of these numbers, and nothing
else that matters. -/
structure Drafts (b : Board) (numbers : List ℤ) (tx : Tx) : Prop where
  board : ∀ r, .addBoard r ∈ tx.writes → r = b
  keeps : ∀ w ∈ tx.writes, ¬w.removes
  numbers : addedNumbers b.id tx.writes = numbers

variable {b : Board} {ns : List ℤ}

theorem Drafts.add (h : Drafts b ns tx) {L : List Lock} (hboard : ∀ r, .addBoard r ∉ ws)
    (hkeeps : ∀ w ∈ ws, ¬w.removes) :
    Drafts b (ns ++ addedNumbers b.id ws) (tx.add ws L) where
  board r hr := by
    rcases List.mem_append.mp hr with hr | hr
    · exact h.board r hr
    · exact absurd hr (hboard r)
  keeps w hw := by
    rcases List.mem_append.mp hw with hw | hw
    · exact h.keeps w hw
    · exact hkeeps w hw
  numbers := by
    rw [Tx.add_writes, addedNumbers_append, h.numbers]

/-- The insertion of an entry, of a placement, or of positions. -/
theorem Drafts.fill (h : Drafts b ns tx) {L : List Lock} (hws : ∀ w ∈ ws, w.keepsVersions)
    (hboard : ∀ r, .addBoard r ∉ ws) : Drafts b ns (tx.add ws L) := by
  have hnone : addedNumbers b.id ws = [] := by
    refine List.filterMap_eq_nil_iff.mpr fun w hw => ?_
    have hkeeps := hws w hw
    cases w with
    | addVersion v => exact hkeeps.elim
    | _ => rfl
  have hadd := h.add (L := L) hboard fun w hw => (hws w hw).not_removes
  rwa [hnone, List.append_nil] at hadd

/-- A statement inside the transaction. -/
theorem safe_draft {q : Query} {f : q.Row → Action α}
    {post : Contract.Post (server faulty) Error α} (hQ : Q [])
    (herr : ∀ e s, post (.error e) (some tx) s)
    (hok : ∀ u db row ws L s, exec u tx.now q db = .ok (row, ws) →
      (numbering faulty Q).Safe t post (f row) (some (tx.add ws L)) s) :
    (numbering faulty Q).Safe t post (Action.sql q >>= f) (some tx) s := by
  intro s₁ _ _
  refine ⟨trivial, fun L r s₂ h₂ hexec => ⟨hexec.commitsNumbers hQ nofun, ?_⟩⟩
  cases hexec with
  | statement hu hq => exact hok _ _ _ _ _ _ hq
  | statementError hu hq => exact herr _ _
  | statementFault hf => exact herr _ _

/-- The session carries the draft. -/
def Drafting (b : Board) (numbers : List ℤ) (h : Session) : Prop :=
  ∃ tx, h = some tx ∧ Drafts b numbers tx

/-- What `import_board` does to the draft, whatever fails. -/
abbrev drafting (faulty : Prop) (b : Board) (numbers : List ℤ) :
    Contract.Post (server faulty) Error α :=
  Contract.outcome (fun _ h _ => Drafting b numbers h) fun _ _ _ => True

theorem safe_importEntry (hQ : Q []) (x : String × String) {h : Session} (hh : Drafting b ns h) :
    (numbering faulty Q).Safe t (drafting faulty b ns) (Export.importEntry b.id x) h s := by
  obtain ⟨tx, rfl, hdraft⟩ := hh
  refine Contract.safe_ofExcept (fun _ _ => trivial) fun _ _ =>
    Contract.safe_ofExcept (fun _ _ => trivial) fun _ _ =>
    safe_draft hQ (fun _ _ => trivial) fun u db row ws L s₁ hexec => ⟨_, rfl, ?_⟩
  obtain ⟨rfl, -⟩ := execInsertEntry_ok hexec
  exact hdraft.fill (by simp [RowWrite.keepsVersions]) (by simp)

theorem safe_importPlacement (hQ : Q []) (versionId : Uuid) (entryIds : List (String × Uuid))
    (p : PlacementExport) {h : Session} (hh : Drafting b ns h) :
    (numbering faulty Q).Safe t (drafting faulty b ns)
      (Export.importPlacement versionId entryIds p) h s := by
  obtain ⟨tx, rfl, hdraft⟩ := hh
  unfold Export.importPlacement
  split
  · trivial
  · refine safe_draft hQ (fun _ _ => trivial) fun u db row ws L s₁ hexec => ⟨_, rfl, ?_⟩
    obtain ⟨rfl, -⟩ := execInsertPlacement_ok hexec
    exact hdraft.fill (by simp [RowWrite.keepsVersions]) (by simp)

/-- One version of the document adds its number. -/
theorem safe_importVersion (hQ : Q []) (entryIds : List (String × Uuid)) (v : VersionExport)
    {h : Session} (hh : Drafting b ns h) :
    (numbering faulty Q).Safe t (drafting faulty b (ns ++ [v.versionNumber]))
      (Export.importVersion b entryIds v) h s := by
  obtain ⟨tx, rfl, hdraft⟩ := hh
  refine safe_draft hQ (fun _ _ => trivial) fun u db row ws L s₁ hexec => ?_
  obtain ⟨rfl, -, -, -, -, hrow⟩ := execInsertVersion_ok hexec
  have hadd : Drafting b (ns ++ [v.versionNumber]) (some (tx.add [.addVersion row] L)) := by
    have hadd : Drafts b (ns ++ addedNumbers b.id [.addVersion row])
        (tx.add [.addVersion row] L) :=
      hdraft.add (by simp) (by simp [RowWrite.removes])
    have hnumbers : addedNumbers b.id [.addVersion row] = [v.versionNumber] := by
      simp [addedNumbers, hrow]
    rw [hnumbers] at hadd
    exact ⟨_, rfl, hadd⟩
  refine Contract.safe_bind (Q := fun _ h _ => Drafting b (ns ++ [v.versionNumber]) h) ?_ ?_
  · exact (Contract.safe_each (C := numbering faulty Q)
      (I := fun _ h _ => Drafting b (ns ++ [v.versionNumber]) h) (E := fun _ _ _ => True)
      (fun p _ _ _ hh => safe_importPlacement hQ _ _ p hh) hadd).mono fun r _ _ hpost => by
        cases r <;> exact hpost
  · rintro - h s₂ ⟨tx₂, rfl, hdraft₂⟩
    split
    · rw [Versions.deriveScoredPositions, ← bind_pure (Action.sql _)]
      refine safe_draft hQ (fun _ _ => trivial) fun u db row ws L s₁ hexec => ⟨_, rfl, ?_⟩
      obtain rfl := execDerivePositions_ok hexec
      exact hdraft₂.fill (by simp [RowWrite.keepsVersions]) (by simp)
    · exact ⟨tx₂, rfl, hdraft₂⟩

/-- The insertion of the board at the start of the transaction. -/
theorem safe_insertDraft (hQ : Q []) {input : CreateBoard} {now : Timestamp}
    {f : Board → Action α} {post : Contract.Post (server faulty) Error α}
    (herr : ∀ e h s, post (.error e) h s)
    (hok : ∀ b h s, Drafting b [] h → (numbering faulty Q).Safe t post (f b) h s) :
    (numbering faulty Q).Safe t post (Boards.insert input >>= f) (some ⟨[], [], now⟩) s := by
  intro s₁ _ _
  refine ⟨trivial, fun L r s₂ h₂ hexec => ⟨hexec.commitsNumbers hQ nofun, ?_⟩⟩
  cases hexec with
  | statement hu hq =>
    refine hok _ _ _ ⟨_, rfl, ?_⟩
    obtain ⟨rfl, -⟩ := execInsertBoard_ok hq
    exact ⟨by simp [Tx.add], by simp [Tx.add, RowWrite.removes], rfl⟩
  | statementError hu hq =>
    rename_i e
    cases e <;> exact herr _ _ _
  | statementFault hf => exact herr _ _ _

/-- **`import_board`** commits the board with the numbers of the document. -/
theorem idles_importBoard (hQ : Q []) (hashOrder : Export.HashOrder) (doc : BoardExport)
    (hdoc : Export.validateVersions doc.board doc.versions = .ok () →
      Export.validateImport (Export.createBoardOf doc.board) = .ok () →
      Q ((Export.sortByNumber doc.versions).map VersionExport.versionNumber)) :
    Idles faulty Q (Export.importBoard hashOrder doc) := by
  refine .check fun _ hvalid => .transaction hQ fun t now s => ?_
  refine Contract.safe_ofExcept (fun _ _ => nofun) fun _ hfields => ?_
  refine safe_insertDraft hQ (fun _ _ _ => nofun) fun b h s₁ hdraft => ?_
  refine Contract.safe_bind (Q := fun _ h _ => Drafting b [] h) ?_ ?_
  · exact (Contract.safe_collect (C := numbering faulty Q) (I := fun _ _ h _ => Drafting b [] h)
      (E := fun _ _ _ => True) [] (fun _ x _ _ _ hh => safe_importEntry hQ x hh) hdraft).mono
        fun r _ _ hpost => by
          cases r with
          | ok ids => exact hpost
          | error e => nofun
  · rintro entryIds h₁ s₂ hdraft
    -- The numbers so far are those of the versions that are done.
    refine Contract.safe_bind (Q := fun _ h _ => Drafting b
      ((Export.sortByNumber doc.versions).map VersionExport.versionNumber) h) ?_ ?_
    · refine (Contract.safe_each (C := numbering faulty Q) (I := fun rest h _ => ∃ done,
        Export.sortByNumber doc.versions = done ++ rest ∧
          Drafting b (done.map VersionExport.versionNumber) h) (E := fun _ _ _ => True) ?_
        ⟨[], rfl, hdraft⟩).mono ?_
      · rintro v rest h s₃ ⟨done, hsplit, hdraft⟩
        refine (safe_importVersion hQ entryIds v hdraft).mono fun r h₃ s₄ hpost => ?_
        cases r with
        | error e => trivial
        | ok _ =>
          refine ⟨done ++ [v], by rw [hsplit, List.append_assoc]; rfl, ?_⟩
          rw [List.map_append]
          exact hpost
      · rintro (e | _) h₃ s₃ hpost
        · nofun
        · obtain ⟨done, hsplit, hdraft⟩ := hpost
          rw [List.append_nil] at hsplit
          rwa [hsplit]
    · rintro - h₂ s₃ ⟨tx, rfl, hdraft⟩ a tx' - htx r hr
      obtain rfl := Option.some.inj htx
      obtain rfl := hdraft.board r hr
      rw [hdraft.numbers]
      exact ⟨hdraft.keeps, hdoc hvalid hfields⟩

/-! ### Runs -/

/-- The version numbers of an accepted document have the property. -/
def Request.Numbers (Q : List ℤ → Prop) : Request → Prop
  | .importBoard _ doc => Export.validateVersions doc.board doc.versions = .ok () →
      Export.validateImport (Export.createBoardOf doc.board) = .ok () →
      Q ((Export.sortByNumber doc.versions).map VersionExport.versionNumber)
  | _ => True

/-- **Every request keeps the contract.** -/
theorem Request.numbering {r : Request} (hQ : Q []) (hr : r.Numbers Q) :
    (numbering faulty Q).Safe t (fun _ _ _ => True) r.handler none s := by
  have hidle : ∀ {p : Action Unit}, Idles faulty Q p →
      (Leaderboards.numbering faulty Q).Safe t (fun _ _ _ => True) p none s := fun hp =>
    (hp t s).mono fun _ _ _ _ => trivial
  have hdiscard : ∀ {α : Type} {p : Action α}, Idles faulty Q p → Idles faulty Q p.discard :=
    fun hp => hp.bind fun _ => .ret _
  by_cases hboard : r.insertsBoard
  · cases r with
    | createBoard input => exact hidle (hdiscard (idles_createBoard hQ input))
    | importBoard hashOrder doc => exact hidle (hdiscard (idles_importBoard hQ hashOrder doc hr))
    | sync parsed note => exact hidle (hdiscard (idles_syncDir hQ parsed note))
    | _ => exact hboard.elim
  · exact (safe_of_noBoard hQ (Request.noBoard hboard) noNewBoard_none).mono fun _ _ _ _ => trivial

/-- The handlers of the requests whose documents have the property. -/
def ServesNumbers (Q : List ℤ → Prop) (p : Action Unit) : Prop :=
  ∃ r : Request, r.Numbers Q ∧ r.handler = p

variable {collation : Collation} {g g' : System faulty}

theorem reachable_of_numbers (hrun : Machine.Run (ServesNumbers Q)
    (System.initial faulty collation) g) :
    System.Reachable {} g := by
  refine ⟨collation, hrun.lift id fun _ _ hstep => hstep.mono ?_⟩
  rintro p ⟨r, -, rfl⟩
  exact ⟨r, r.respects_default, rfl⟩

/-- **A board that a step adds** has versions with allowed numbers. -/
theorem numbers_of_new (hQ : Q [])
    (hrun : Machine.Run (ServesNumbers Q) (System.initial faulty collation) g)
    (hstep : Machine.Step (ServesNumbers Q) g g') {b : Board}
    (hb : b ∈ g'.servers.db.boards) (hnew : ∀ r ∈ g.servers.db.boards, r.id ≠ b.id) :
    Q ((g'.servers.db.versionsOf b.id).map Version.versionNumber) := by
  have hsafe : ∀ p, ServesNumbers Q p → ∀ t s, (numbering faulty Q).Inv s →
      (numbering faulty Q).Safe t (fun _ _ _ => True) p none s := by
    rintro p ⟨r, hr, rfl⟩ t s -
    exact r.numbering hQ hr
  have hgood : (numbering faulty Q).Good g :=
    Contract.sound hsafe (Contract.good_quiet trivial) hrun
  have hempty : g.servers.db.versionsOf b.id = [] := by
    refine List.eq_nil_iff_forall_not_mem.mpr fun v hv => ?_
    obtain ⟨hv, hid⟩ := Database.mem_versionsOf.mp hv
    obtain ⟨r, hr, hrid⟩ := (reachable_of_numbers hrun).inv.schema.version_board v hv
    exact hnew r hr (hrid.trans hid)
  have hcommits : CommitsNumbers Q g.servers g'.servers := by
    rcases (hgood.step hsafe hstep).2 with heq | ⟨t, h, L, hG⟩
    · exact .inl (congrArg Server.db heq)
    · exact hG
  rcases hcommits with hsame | ⟨ws, hdb, hnumbers⟩
  · exact absurd rfl (hnew b (hsame ▸ hb))
  · rw [hdb] at hb ⊢
    rcases applyAll_boards hb with ⟨x, hx, hid⟩ | ⟨r, hr, hid⟩
    · obtain ⟨hkeeps, hadded⟩ := hnumbers x hx
      rw [numbers_applyAll hkeeps, hempty, ← hid]
      exact hadded
    · exact absurd hid (hnew r hr)

end Leaderboards
