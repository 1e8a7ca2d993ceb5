import Leaderboards.Contents.Model
import Leaderboards.Transactions.Footprint
import Leaderboards.Transactions.Patching
import Leaderboards.Transactions.Running

/-!
# The repository calls of a client that runs alone

One rule for each repository function that writes boards or entries: with which error the call
stops, and which row writes it has committed when it returns. A call that stops early has
committed nothing, and neither has one that only reads (`ends_readOnly`) or whose transaction
fails (`ends_abandoned`).
-/

namespace Leaderboards

open Interaction

variable {env : Supply} {α β : Type} {w : World} {post : Except Error α → World → Prop}

/-- The world after a call that began outside of a transaction and committed some row writes. -/
structure World.Saves (w w' : World) (ws : List RowWrite) : Prop where
  session : w'.session = none
  db : w'.server.db = w.server.db.applyAll ws
  tick : w.tick ≤ w'.tick

theorem World.Saves.of_reads {w' : World} (h : w.Reads w') : w.Saves w' [] where
  session := h.session'
  db := h.db
  tick := by
    have htick := h.tick
    omega

theorem World.Saves.trans {w₁ w₂ : World} {ws ws' : List RowWrite} (h : w.Saves w₁ ws)
    (h' : w₁.Saves w₂ ws') : w.Saves w₂ (ws ++ ws') where
  session := h'.session
  db := by rw [h'.db, h.db, Database.applyAll_append]
  tick := h.tick.trans h'.tick

/-! ### Statements outside of a transaction -/

/-- A statement outside of a transaction whose failure is looked at by the caller. -/
theorem ends_trySave {q : Query} {f : Except DbError q.Row → Action α} (hs : w.session = none)
    (herr : ∀ e w', exec (env.uuid w.tick) (env.now w.tick) q w.server.db = .error e →
      w.Saves w' [] → (f (.error e)).Ends env post w')
    (hok : ∀ row ws w', exec (env.uuid w.tick) (env.now w.tick) q w.server.db = .ok (row, ws) →
      w.Saves w' ws → w'.tick = w.tick + 1 → (f (.ok row)).Ends env post w') :
    (Action.trySql q >>= f).Ends env post w := by
  obtain ⟨server, session, tick⟩ := w
  obtain rfl : session = none := hs
  have hrun : (Action.trySql q >>= f).Ends env post ⟨server, none, tick⟩ ↔
      (f (serveSql env q ⟨server, none, tick⟩).1).Ends env post
        (serveSql env q ⟨server, none, tick⟩).2 := Iff.rfl
  rw [hrun]
  rcases hexec : exec (env.uuid tick) (env.now tick) q server.db with e | ⟨row, ws⟩
  · simp only [serveSql, World.view, Session.view_none, hexec]
    exact herr e _ hexec ⟨rfl, rfl, Nat.le_succ _⟩
  · simp only [serveSql, World.view, Session.view_none, hexec]
    exact hok row ws _ hexec ⟨rfl, rfl, Nat.le_succ _⟩ rfl

/-- A read outside of a transaction saves nothing. -/
theorem ends_readSave {q : Query} {f : q.Row → Action α} (hs : w.session = none)
    (hq : q.readOnly = true)
    (herr : ∀ e w', exec (env.uuid w.tick) (env.now w.tick) q w.server.db = .error e →
      w.Saves w' [] → post (.error (.database e)) w')
    (hok : ∀ row w', exec (env.uuid w.tick) (env.now w.tick) q w.server.db = .ok (row, []) →
      w.Saves w' [] → (f row).Ends env post w') :
    (Action.sql q >>= f).Ends env post w := by
  change (Action.trySql q >>= fun r => (match r with
    | .ok row => .ret row
    | .error e => .fail (.database e) : Action q.Row) >>= f).Ends env post w
  refine ends_trySave hs (fun e w' he hw => herr e w' he hw) fun row ws w' hexec hw _ => ?_
  obtain rfl := exec_readOnly hq hexec
  exact hok row w' hexec hw

/-! ### Calls that commit nothing -/

/-- The instruction is a statement that only reads. -/
def Cmd.ReadOnly (c : Cmd) : Prop := ∃ q : Query, c = .sql q ∧ q.readOnly = true

/-- The instruction is a statement. -/
def Cmd.IsSql (c : Cmd) : Prop := ∃ q : Query, c = .sql q

/-- A program that only reads leaves the tables as they are. -/
theorem ends_readOnly {p : Action α} (hp : p.Uses Cmd.ReadOnly) (hs : w.session = none) :
    p.Ends env (fun _ w' => w.Saves w' []) w := by
  induction p generalizing w with
  | ret a => exact ⟨hs, rfl, le_rfl⟩
  | fail e => exact ⟨hs, rfl, le_rfl⟩
  | op c k ih =>
    obtain ⟨⟨q, rfl, hq⟩, hk⟩ := hp
    change (Action.trySql q >>= k).Ends env _ w
    refine ends_trySave hs (fun e w₁ _ h₁ => ?_) fun row ws w₁ hexec h₁ _ => ?_
    · exact (ih _ (hk _) h₁.session).mono fun _ w₂ h₂ => h₁.trans h₂
    · obtain rfl := exec_readOnly hq hexec
      exact (ih _ (hk _) h₁.session).mono fun _ w₂ h₂ => h₁.trans h₂

/-- Statements inside a transaction leave the servers as they are. -/
theorem ends_pending {p : Action α} (hp : p.Uses Cmd.IsSql) (hs : w.session.isSome = true) :
    p.Ends env (fun _ w' => w'.session.isSome = true ∧ w'.server = w.server ∧
      w.tick ≤ w'.tick) w := by
  induction p generalizing w with
  | ret a => exact ⟨hs, rfl, le_rfl⟩
  | fail e => exact ⟨hs, rfl, le_rfl⟩
  | op c k ih =>
    obtain ⟨⟨q, rfl⟩, hk⟩ := hp
    have hnext : ∀ (r : Except DbError q.Row) (ws : List RowWrite) (w₁ : World),
        w.Writes w₁ ws → Prog.Ends (serve env) (fun _ w' => w'.session.isSome = true ∧
          w'.server = w.server ∧ w.tick ≤ w'.tick) (k r) w₁ := by
      intro r ws w₁ h₁
      refine (ih r (hk r) h₁.session).mono fun _ w₂ h₂ => ?_
      have htick := h₁.tick
      exact ⟨h₂.1, h₂.2.1.trans h₁.server, by omega⟩
    change (Action.trySql q >>= k).Ends env _ w
    exact ends_tryStatement hs (fun e _ w₁ _ h₁ => hnext _ _ w₁ h₁)
      fun _ row ws w₁ _ h₁ => hnext _ _ w₁ h₁

/-- **A transaction** saves the row writes of its statements when it returns, and nothing when it
fails. -/
theorem ends_save {body : Action α} (hsql : body.Uses Cmd.IsSql)
    (hbody : ∀ w₀, w.Begins w₀ → body.Ends env (Prog.outcome
      (fun a w₁ => ∃ ws, w₁.view = w.server.db.applyAll ws ∧
        ∀ w₂, w.Saves w₂ ws → w₁.tick ≤ w₂.tick → post (.ok a) w₂)
      fun e _ => ∀ w₂, w.Saves w₂ [] → post (.error e) w₂) w₀) :
    (Action.transaction body).Ends env post w := by
  refine ends_transaction fun w₀ h₀ => ?_
  -- Inside the transaction only statements are executed, so nothing is committed before the end.
  have hpending : body.Ends env (fun _ w' => w'.session.isSome = true ∧
      w'.server = w₀.server ∧ w₀.tick ≤ w'.tick) w₀ := ends_pending hsql h₀.session
  obtain ⟨hsession, hserver, htick⟩ := hpending
  have hpost := hbody w₀ h₀
  have htick₀ := h₀.tick
  unfold Action.Ends Prog.Ends at hpost ⊢
  generalize body.run (serve env) w₀ = result at hsession hserver htick hpost ⊢
  obtain ⟨r, w₁⟩ := result
  cases r with
  | ok a =>
    obtain ⟨ws, hview, hpost⟩ := hpost
    refine ⟨hsession, fun w₂ h₂ => ?_⟩
    have htick₁ : w₀.tick ≤ w₁.tick := htick
    have htick₂ := h₂.tick
    exact hpost w₂ ⟨h₂.session, h₂.db.trans hview, by omega⟩ (by omega)
  | error e =>
    intro w₂ h₂
    have htick₁ : w₀.tick ≤ w₁.tick := htick
    have htick₂ := h₂.tick
    refine hpost w₂ ⟨h₂.session, ?_, by omega⟩
    have hdb : w₁.server.db = w₀.server.db := congrArg Server.db hserver
    rw [h₂.db, hdb, h₀.db]
    rfl

/-! ### Boards -/

/-- `boards::get_by_slug`. -/
theorem ends_getBySlug {slug : String} {post : Except Error Board → World → Prop}
    (hs : w.session = none)
    (hmissing : w.server.db.boardBySlug? slug = none → ∀ w', w.Saves w' [] →
      post (.error (.notFound s!"board '{slug}' not found")) w')
    (hfound : ∀ b, w.server.db.boardBySlug? slug = some b → ∀ w', w.Saves w' [] →
      post (.ok b) w') :
    (Boards.getBySlug slug).Ends env post w := by
  unfold Boards.getBySlug
  refine ends_read hs (fun e w' he => nomatch he) (fun row w' hexec hw => ?_) rfl
  obtain rfl : w.server.db.boardBySlug? slug = row :=
    (Prod.mk.inj (Except.ok.inj hexec)).1
  rcases hrow : w.server.db.boardBySlug? slug with _ | b
  · exact hmissing hrow w' (.of_reads hw)
  · exact hfound b hrow w' (.of_reads hw)

theorem validateBoardType_iff {boardType : String} : validateBoardType boardType = .ok () ↔
    boardType = "ordered" ∨ boardType = "scored" ∨ boardType = "tiered" := by
  unfold validateBoardType
  split <;> simp_all

theorem validateSortDirection_iff {sortDirection : String} :
    validateSortDirection sortDirection = .ok () ↔
      sortDirection = "asc" ∨ sortDirection = "desc" := by
  unfold validateSortDirection
  split <;> simp_all

/-- What the validation of a new board accepts passes the constraints of the table. -/
theorem Boards.checks_of_validateCreate {input : CreateBoard} {u : Uuid} {now : Timestamp}
    (h : Boards.validateCreate input = .ok ()) : (input.row u now).checks := by
  simp only [Boards.validateCreate, Prog.except_bind_ok] at h
  obtain ⟨⟨⟩, -, ⟨⟩, -, ⟨⟩, htype, ⟨⟩, hdirection, hrest⟩ := h
  have hflags : Boards.validateFlags input = .ok () := by
    split at hrest <;> simp only [Prog.except_bind_ok] at hrest
    · obtain ⟨-, -, ⟨⟩, hflags, -⟩ := hrest
      exact hflags
    · obtain ⟨⟨⟩, hflags, -⟩ := hrest
      exact hflags
  simp only [Boards.validateFlags] at hflags
  refine ⟨validateBoardType_iff.mp htype, validateSortDirection_iff.mp hdirection, ?_⟩
  simp only [CreateBoard.row]
  grind

/-- `boards::create` under a slug that no board has. -/
theorem ends_createBoard {input : CreateBoard} {post : Except Error Board → World → Prop}
    (hs : w.session = none) (hid : ∀ b ∈ w.server.db.boards, b.id ≠ env.uuid w.tick)
    (hslug : w.server.db.boardBySlug? input.slug = none)
    (hrefused : ∀ e, Boards.validateCreate input = .error e → post (.error e) w)
    (hcreated : ∀ b, Boards.validateCreate input = .ok () →
      b = input.row (env.uuid w.tick) (env.now w.tick) → ∀ w', w.Saves w' [.addBoard b] →
      w'.tick = w.tick + 1 → post (.ok b) w') :
    (Boards.create input).Ends env post w := by
  unfold Boards.create
  refine Prog.ends_ofExcept hrefused fun _ hvalid => ?_
  have hexec : exec (env.uuid w.tick) (env.now w.tick) (.insertBoard input) w.server.db =
      .ok (input.row (env.uuid w.tick) (env.now w.tick),
        [.addBoard (input.row (env.uuid w.tick) (env.now w.tick))]) := by
    have hchecks : (input.row (env.uuid w.tick) (env.now w.tick)).checks :=
      Boards.checks_of_validateCreate hvalid
    have hnone : w.server.db.board? (env.uuid w.tick) = none := Database.board?_eq_none.mpr hid
    have hnew : ¬((w.server.db.board? (env.uuid w.tick)).isSome = true ∨
        (w.server.db.boardBySlug? input.slug).isSome = true) := by simp [hnone, hslug]
    exact (if_neg (not_not.mpr hchecks)).trans (if_neg hnew)
  unfold Boards.insert
  refine ends_trySave hs (fun e w' he _ => ?_) fun row ws w' hok hw htick => ?_
  · cases hexec.symm.trans he
  · obtain ⟨rfl, rfl⟩ := Prod.mk.inj (Except.ok.inj (hexec.symm.trans hok))
    exact hcreated _ hvalid rfl w' hw htick

/-- The last checks of the validation of a PATCH. -/
theorem Boards.flags_of_validateUpdate {b : Board} {input : UpdateBoard}
    (h : Boards.validateUpdate b input = .ok ()) :
    (input.realtime.getD b.realtime = true → b.accumulative = true ∧ b.boardType = "scored") ∧
      (input.clearOnSnapshot.getD b.clearOnSnapshot = true →
        input.realtime.getD b.realtime = true) := by
  -- Whatever the type of the board is, the last two checks are made.
  have htail : (do
      if input.realtime.getD b.realtime = true ∧
          ¬(b.accumulative = true ∧ b.boardType = "scored") then
        .error (.validation "realtime boards must be accumulative and scored")
      if input.clearOnSnapshot.getD b.clearOnSnapshot = true ∧
          ¬input.realtime.getD b.realtime = true then
        .error (.validation "clear_on_snapshot requires realtime to be true") :
      Except Error Unit) = .ok () := by
    simp only [Boards.validateUpdate] at h
    split at h
    · cases h
    · split at h
      · split at h
        · obtain ⟨_, -, hrest⟩ := Prog.except_bind_ok.mp h
          exact hrest
        · cases h
        · exact h
      · exact h
  by_cases hrealtime : input.realtime.getD b.realtime = true ∧
      ¬(b.accumulative = true ∧ b.boardType = "scored")
  · rw [if_pos hrealtime] at htail
    cases htail
  · rw [if_neg hrealtime] at htail
    by_cases hclear : input.clearOnSnapshot.getD b.clearOnSnapshot = true ∧
        ¬input.realtime.getD b.realtime = true
    · rw [if_pos hclear] at htail
      cases htail
    · grind

/-- What the validation of a PATCH accepts passes the constraints of the table. -/
theorem Boards.checks_of_validateUpdate {b : Board} {input : UpdateBoard} {now : Timestamp}
    (hchecks : b.checks) (hfields : Boards.validateUpdateFields input = .ok ())
    (hvalid : Boards.validateUpdate b input = .ok ()) : (input.patch now b).checks := by
  obtain ⟨htype, hdirection, haccumulative, -, -⟩ := hchecks
  refine ⟨htype, ?_, haccumulative, ?_⟩
  · simp only [UpdateBoard.patch]
    rcases hsd : input.sortDirection with _ | sd
    · exact hdirection
    · have hsd' : validateSortDirection sd = .ok () := by
        simp only [Boards.validateUpdateFields, hsd] at hfields
        grind [Prog.except_bind_ok]
      exact validateSortDirection_iff.mp hsd'
  · obtain ⟨hrealtime, hclear⟩ := Boards.flags_of_validateUpdate hvalid
    exact ⟨hrealtime, hclear⟩

/-- `boards::update` of a board. -/
theorem ends_updateBoard {slug : String} {input : UpdateBoard} {b : Board}
    {post : Except Error Board → World → Prop} (hs : w.session = none)
    (hslug : w.server.db.boardBySlug? slug = some b) (hid : w.server.db.board? b.id = some b)
    (hchecks : b.checks)
    (hrefused : ∀ e, (Boards.validateUpdateFields input = .error e ∨
        Boards.validateUpdateFields input = .ok () ∧ Boards.validateUpdate b input = .error e) →
      ∀ w', w.Saves w' [] → post (.error e) w')
    (hupdated : ∀ now, Boards.validateUpdateFields input = .ok () →
      Boards.validateUpdate b input = .ok () →
      ∀ w', w.Saves w' [.setBoard (input.patch now b)] → post (.ok (input.patch now b)) w') :
    (Boards.update slug input).Ends env post w := by
  unfold Boards.update
  refine Prog.ends_ofExcept (fun e he => hrefused e (.inl he) w ⟨hs, rfl, le_rfl⟩)
    fun _ hfields => ?_
  refine ends_save ?_ fun w₀ h₀ => ?_
  · exact Prog.uses_bind (uses_sql ⟨_, rfl⟩) fun _ => uses_row fun _ => uses_check fun _ =>
      uses_sql ⟨_, rfl⟩
  -- The row is read again under a lock, and is the one that was found: the client is alone.
  have hrow :
      ∀ u now, exec u now (.selectBoardBySlugForUpdate slug) w₀.view = .ok (some b, []) := by
    intro u now
    rw [h₀.view, ← hslug]
    rfl
  refine ends_statement h₀.session (fun e now w' he _ => ?_) fun now row ws w₁ hexec h₁ => ?_
  · cases (hrow _ _).symm.trans he
  obtain ⟨rfl, rfl⟩ := Prod.mk.inj (Except.ok.inj ((hrow _ _).symm.trans hexec))
  change (Prog.ofExcept (Boards.validateUpdate b input) >>= fun _ =>
    Action.sql (Boards.updateQuery b input) : Action Board).Ends env _ w₁
  refine Prog.ends_ofExcept (fun e he => hrefused e (.inr ⟨hfields, he⟩)) fun _ hvalid => ?_
  have hview : w₁.view = w.server.db := h₁.view.trans h₀.view
  -- Validation is all that the CHECK constraints ask for.
  have hwrite : ∀ u now, exec u now (Boards.updateQuery b input) w₁.view =
      .ok (input.patch now b, [.setBoard (input.patch now b)]) := by
    intro u now
    have hpassed : (input.patch now b).checks :=
      Boards.checks_of_validateUpdate hchecks hfields hvalid
    rw [hview]
    simp only [Boards.updateQuery, exec, execUpdateBoard, hid]
    exact if_pos hpassed
  rw [← bind_pure (Action.sql _)]
  refine ends_statement h₁.session (fun e now w' he _ => ?_) fun now row ws w₂ hexec h₂ => ?_
  · cases (hwrite _ _).symm.trans he
  · obtain ⟨rfl, rfl⟩ := Prod.mk.inj (Except.ok.inj ((hwrite _ _).symm.trans hexec))
    refine ⟨_, h₂.view.trans (congrArg (Database.applyAll · _) hview), fun w₃ h₃ _ => ?_⟩
    exact hupdated now hfields hvalid w₃ h₃

/-! ### Entries -/

/-- The error of a failed insertion of an entry. -/
def Entries.insertError (slug : String) : DbError → Error
  | .uniqueViolation => .conflict s!"entry with slug '{slug}' already exists on this board"
  | e => .database e

/-- `entries::create`. -/
theorem ends_createEntry {boardId : Uuid} {input : CreateEntry}
    {post : Except Error Entry → World → Prop} (hs : w.session = none)
    (hrefused : ∀ e, (validateSlug input.slug = .error e ∨
      validateSlug input.slug = .ok () ∧ validateName input.name = .error e) → post (.error e) w)
    (hfailed : ∀ e, validateSlug input.slug = .ok () → validateName input.name = .ok () →
      execInsertEntry (env.uuid w.tick) (env.now w.tick) w.server.db boardId input.slug input.name
        input.metadata = .error e →
      ∀ w', w.Saves w' [] → post (.error (Entries.insertError input.slug e)) w')
    (hcreated : ∀ e, validateSlug input.slug = .ok () → validateName input.name = .ok () →
      execInsertEntry (env.uuid w.tick) (env.now w.tick) w.server.db boardId input.slug input.name
        input.metadata = .ok (e, [.addEntry e]) →
      ∀ w', w.Saves w' [.addEntry e] → w'.tick = w.tick + 1 → post (.ok e) w') :
    (Entries.create boardId input).Ends env post w := by
  unfold Entries.create
  refine Prog.ends_ofExcept (fun e he => hrefused e (.inl he)) fun _ hslug => ?_
  refine Prog.ends_ofExcept (fun e he => hrefused e (.inr ⟨hslug, he⟩)) fun _ hname => ?_
  refine ends_trySave hs (fun e w' he hw => ?_) fun row ws w' hok hw htick => ?_
  · have hpost := hfailed e hslug hname he w' hw
    cases e <;> exact hpost
  · obtain ⟨rfl, -⟩ := execInsertEntry_ok hok
    exact hcreated row hslug hname hok w' hw htick

/-- `entries::update`. -/
theorem ends_updateEntry {boardId : Uuid} {slug : String} {input : UpdateEntry}
    {post : Except Error Entry → World → Prop}
    (hids : (w.server.db.entries.map Entry.id).Nodup)
    (hrefused : ∀ name e, input.name = some name → validateName name = .error e →
      post (.error e) w)
    (hmissing : (∀ name, input.name = some name → validateName name = .ok ()) →
      w.server.db.entryBySlug? boardId slug = none → ∀ w', w.Saves w' [] →
      post (.error (.notFound s!"entry '{slug}' not found")) w')
    (hupdated : ∀ e now, (∀ name, input.name = some name → validateName name = .ok ()) →
      w.server.db.entryBySlug? boardId slug = some e →
      ∀ w', w.Saves w' [.setEntry (input.patch now e)] → post (.ok (input.patch now e)) w') :
    (Entries.update boardId slug input).Ends env post w := by
  -- The transaction, which runs when there is no name or a valid one.
  have htransaction : (∀ name, input.name = some name → validateName name = .ok ()) →
      (Action.transaction (do
        let row ← Action.sql (.selectEntryForUpdate boardId slug)
        let entry ← Action.okOr row (.notFound s!"entry '{slug}' not found")
        Action.sql (.updateEntry entry.id (input.name.getD entry.name)
          (input.metadata.apply entry.metadata)))).Ends env post w := by
    intro hname
    refine ends_save ?_ fun w₀ h₀ => ?_
    · exact Prog.uses_bind (uses_sql ⟨_, rfl⟩) fun _ => uses_row fun _ => uses_sql ⟨_, rfl⟩
    refine ends_statement h₀.session (fun e now w' he _ => nomatch he)
      fun now row ws w₁ hexec h₁ => ?_
    obtain ⟨rfl, rfl⟩ := Prod.mk.inj (Except.ok.inj hexec)
    rw [h₀.view]
    rcases hrow : w.server.db.entryBySlug? boardId slug with _ | e
    · exact hmissing hname hrow
    have hview : w₁.view = w.server.db := h₁.view.trans h₀.view
    have hmem : e ∈ w.server.db.entries := (Database.mem_of_entryBySlug? hrow).1
    -- The update finds the row by its id: ids are unique.
    have hr : w.server.db.entryById? e.id = some e := by
      rcases hfind : w.server.db.entryById? e.id with _ | r
      · exact absurd rfl (Database.entryById?_eq_none.mp hfind e hmem)
      · obtain ⟨hmemr, hid⟩ := Database.mem_of_entryById? hfind
        rw [List.inj_on_of_nodup_map hids hmemr hmem hid]
    change (Action.sql (.updateEntry e.id (input.name.getD e.name)
      (input.metadata.apply e.metadata)) : Action Entry).Ends env _ w₁
    rw [← bind_pure (Action.sql _)]
    refine ends_statement h₁.session (fun err now w' he _ => ?_) fun now row ws w₂ hexec h₂ => ?_
    · simp only [exec, execUpdateEntry, hview, hr] at he
      cases he
    · simp only [exec, execUpdateEntry, hview, hr] at hexec
      obtain ⟨rfl, rfl⟩ := Prod.mk.inj (Except.ok.inj hexec)
      refine ⟨_, h₂.view.trans (congrArg (Database.applyAll · _) hview), fun w₃ h₃ _ => ?_⟩
      exact hupdated e now hname hrow w₃ h₃
  obtain ⟨_ | name, metadata⟩ := input
  · exact htransaction (by simp)
  · refine Prog.ends_ofExcept (fun e he => hrefused name e rfl he) fun _ hvalid => ?_
    exact htransaction (by simp [hvalid])

end Leaderboards
