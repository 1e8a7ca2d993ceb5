import Leaderboards.Transactions.Positions
import Leaderboards.Transactions.Stability

/-!
# The contract of the handlers

The contract that every request handler keeps, as an instance of the rely-guarantee library:
the committed tables satisfy the schema; a step of a handler either leaves them alone or
commits legal row writes after which each new version is complete; and a transaction relies on
`Rely` for the locks it holds.
-/

namespace Leaderboards

open Interaction

/-! ### Complete versions -/

/-- A version is complete: its placements fit the row of its board, and the board has that row in
the committed tables too, unless it is new. -/
def Complete (P : Policy) (committed db : Database) (v : Version) : Prop :=
  ∃ b ∈ db.boards, b.id = v.boardId ∧ (∀ r ∈ committed.boards, r.id = b.id → r = b) ∧
    CompleteFor P b (db.placementsOf v.id)

/-- Every version that row writes add is complete once they are committed. -/
def Sealed (P : Policy) (db : Database) (ws : List RowWrite) : Prop :=
  ∀ v ∈ (db.applyAll ws).versions, v ∉ db.versions → Complete P db (db.applyAll ws) v

/-! ### The contract -/

/-- Every reference is what some request of the run asks for. -/
def ReferencesFollow (P : Policy) (db : Database) : Prop :=
  ∀ r ∈ db.references, ∃ input, P.reference input ∧ r.Follows input db.versions

/-- What holds of the servers between any two instructions. -/
structure ServerInv (P : Policy) (s : Server) : Prop where
  schema : s.db.Schema
  board_used : ∀ b ∈ s.db.boards, b.id ∈ s.usedBoards
  entry_used : ∀ e ∈ s.db.entries, e.id ∈ s.usedEntries
  config : ∀ b ∈ s.db.boards, P.config b.tierConfig ∧ P.Allows b
  references : ReferencesFollow P s.db
  redis_finite : s.redis.Finite

/-- The committed tables change by legal row writes that leave new versions complete. -/
def Commits (P : Policy) (L : List Lock) (s s' : Server) : Prop :=
  ∃ ws, LegalSeq P s L ws s.db ∧ Sealed P s.db ws ∧ s'.db = s.db.applyAll ws ∧
    s'.usedBoards = (s.commit ws).usedBoards ∧ s'.usedEntries = (s.commit ws).usedEntries ∧
    s'.redis = s.redis

/-- The committed tables do not change, and Redis keeps to finite scores. -/
def Unchanged (s s' : Server) : Prop :=
  s'.db = s.db ∧ s'.usedBoards = s.usedBoards ∧ s'.usedEntries = s.usedEntries ∧
    (s.redis.Finite → s'.redis.Finite)

section Commit

variable {P : Policy} {s s' : Server} {L L' : List Lock} {db : Database} {ws : List RowWrite}

/-- Where the boards after legal writes come from. -/
theorem LegalSeq.board_origin (h : LegalSeq P s L ws db) {b : Board}
    (hb : b ∈ (db.applyAll ws).boards) :
    (∃ r ∈ db.boards, r.SameKey b) ∨ (b.id ∉ s.usedBoards ∧ Held L (.board b.id) .update) := by
  induction ws generalizing db with
  | nil => exact .inl ⟨b, hb, rfl, rfl, rfl, rfl⟩
  | cons w ws ih =>
    rcases ih h.2.2 hb with ⟨r, hr, hid, hs, ht, ha⟩ | hnew
    · cases w with
      | addBoard x =>
        rcases List.mem_append.mp hr with hr | hr
        · exact .inl ⟨r, hr, hid, hs, ht, ha⟩
        · obtain rfl := List.mem_singleton.mp hr
          exact .inr ⟨hid ▸ h.1.1, hid ▸ h.1.2.2.2.2.2.1⟩
      | setBoard x =>
        rcases Database.mem_setBoard_boards.mp hr with ⟨hr, -⟩ | ⟨rfl, -⟩
        · exact .inl ⟨r, hr, hid, hs, ht, ha⟩
        · obtain ⟨⟨r', hr', hid', hs', ht', ha'⟩, -⟩ := h.1
          exact .inl ⟨r', hr', hid'.trans hid, hs'.trans hs, ht'.trans ht, ha'.trans ha⟩
      | removeBoard id => exact .inl ⟨r, List.mem_of_mem_filter hr, hid, hs, ht, ha⟩
      | _ => exact .inl ⟨r, hr, hid, hs, ht, ha⟩
    · exact .inr hnew

/-- Where the entries after legal writes come from. -/
theorem LegalSeq.entry_origin (h : LegalSeq P s L ws db) {e : Entry}
    (he : e ∈ (db.applyAll ws).entries) :
    (∃ r ∈ db.entries, r.SameKey e) ∨ (e.id ∉ s.usedEntries ∧ Held L (.entry e.id) .update) := by
  induction ws generalizing db with
  | nil => exact .inl ⟨e, he, rfl, rfl, rfl⟩
  | cons w ws ih =>
    rcases ih h.2.2 he with ⟨r, hr, hid, hb, hs⟩ | hnew
    · cases w with
      | addEntry x =>
        rcases List.mem_append.mp hr with hr | hr
        · exact .inl ⟨r, hr, hid, hb, hs⟩
        · obtain rfl := List.mem_singleton.mp hr
          exact .inr ⟨hid ▸ h.1.1, hid ▸ h.1.2.2.2.2.2.1⟩
      | setEntry x =>
        rcases Database.mem_setEntry_entries.mp hr with ⟨hr, -⟩ | ⟨rfl, -⟩
        · exact .inl ⟨r, hr, hid, hb, hs⟩
        · obtain ⟨⟨r', hr', hid', hb', hs'⟩, -⟩ := h.1
          exact .inl ⟨r', hr', hid'.trans hid, hb'.trans hb, hs'.trans hs⟩
      | removeEntry id => exact .inl ⟨r, List.mem_of_mem_filter hr, hid, hb, hs⟩
      | removeBoard id => exact .inl ⟨r, List.mem_of_mem_filter hr, hid, hb, hs⟩
      | _ => exact .inl ⟨r, hr, hid, hb, hs⟩
    · exact .inr hnew

/-- Where the versions after legal writes come from. -/
theorem LegalSeq.version_origin (h : LegalSeq P s L ws db) {v : Version}
    (hv : v ∈ (db.applyAll ws).versions) :
    v ∈ db.versions ∨ (Held L (.version v.id) .update ∧ Held L (.board v.boardId) .update) := by
  induction ws generalizing db with
  | nil => exact .inl hv
  | cons w ws ih =>
    rcases ih h.2.2 hv with hv | hnew
    · cases w with
      | addVersion x =>
        rcases List.mem_append.mp hv with hv | hv
        · exact .inl hv
        · obtain rfl := List.mem_singleton.mp hv
          exact .inr ⟨h.1.2.2.2.2.2.2, h.1.2.2.2.2.2.1⟩
      | removeBoard id => exact .inl (List.mem_of_mem_filter hv)
      | _ => exact .inl hv
    · exact .inr hnew

/-- A version stays when its board is there after legal writes: a removal is the last write. -/
theorem LegalSeq.version_kept (h : LegalSeq P s L ws db) {v : Version} (hv : v ∈ db.versions)
    (hboard : ∃ b ∈ (db.applyAll ws).boards, b.id = v.boardId) :
    v ∈ (db.applyAll ws).versions := by
  induction ws generalizing db with
  | nil => exact hv
  | cons w ws ih =>
    refine ih h.2.2 ?_ hboard
    cases w with
    | addVersion x => exact List.mem_append_left _ hv
    | removeBoard id =>
      rw [h.2.1 trivial] at hboard
      obtain ⟨b, hb, hid⟩ := hboard
      have hne := (List.mem_filter.mp hb).2
      exact List.mem_filter.mpr ⟨hv, by simpa [hid] using hne⟩
    | _ => exact hv

/-- A removed board takes the references to its own versions along, so no other pin is lost. -/
private theorem unpin_eq {id : Uuid} {r : ReferenceRow} {input : CreateReference}
    (hdb : db.Schema) (h : r.Follows input db.versions) (hboard : r.boardId ≠ id) :
    db.unpin id r = r := by
  rw [Database.unpin, if_neg]
  intro howned
  rcases hpin : r.pinnedVersionId with _ | pin
  · simp [hpin] at howned
  · rw [hpin, Option.any_some, Database.ownsVersion_iff] at howned
    obtain ⟨v, hv, hvid, hvb⟩ := howned
    obtain ⟨v', hv', hvid', hvb', -⟩ := h.pin pin hpin
    have hvv : v = v' := hdb.version_inj hv hv' (hvid.trans hvid'.symm)
    exact hboard (hvb'.symm.trans (hvv ▸ hvb))

/-- References still follow the requests after legal writes. -/
theorem LegalSeq.references (h : LegalSeq P s L ws db) (hdb : db.Schema)
    (hrefs : ReferencesFollow P db) : ReferencesFollow P (db.applyAll ws) := by
  induction ws generalizing db with
  | nil => exact hrefs
  | cons w ws ih =>
    refine ih h.2.2 (h.1.schema hdb) ?_
    cases w with
    | addVersion v =>
      intro r hr
      obtain ⟨input, hinput, hfollows⟩ := hrefs r hr
      exact ⟨input, hinput, hfollows.mono fun v hv _ => List.mem_append_left _ hv⟩
    | addReference x =>
      intro r hr
      rcases List.mem_append.mp hr with hr | hr
      · exact hrefs r hr
      · obtain rfl := List.mem_singleton.mp hr
        exact h.1.2.2.1
    | removeReference id => exact fun r hr => hrefs r (List.mem_of_mem_filter hr)
    | removeBoard id =>
      intro r hr
      obtain ⟨x, hx, rfl⟩ := List.mem_map.mp hr
      obtain ⟨hx, hboard⟩ := List.mem_filter.mp hx
      rw [decide_eq_true_eq] at hboard
      obtain ⟨input, hinput, hfollows⟩ := hrefs x hx
      rw [unpin_eq hdb hfollows hboard]
      refine ⟨input, hinput, hfollows.mono fun v hv hvb => List.mem_filter.mpr ⟨hv, ?_⟩⟩
      rwa [decide_eq_true_eq, hvb]
    | _ => exact hrefs

/-- The setups after legal writes are those the policy allows. -/
theorem LegalSeq.config (h : LegalSeq P s L ws db)
    (hdb : ∀ b ∈ db.boards, P.config b.tierConfig ∧ P.Allows b) :
    ∀ b ∈ (db.applyAll ws).boards, P.config b.tierConfig ∧ P.Allows b := by
  induction ws generalizing db with
  | nil => exact hdb
  | cons w ws ih =>
    refine ih h.2.2 fun b hb => ?_
    cases w with
    | addBoard x =>
      rcases List.mem_append.mp hb with hb | hb
      · exact hdb b hb
      · obtain rfl := List.mem_singleton.mp hb
        exact h.1.2.2.2.2.1
    | setBoard x =>
      rcases Database.mem_setBoard_boards.mp hb with ⟨hb, -⟩ | ⟨rfl, -⟩
      · exact hdb b hb
      · exact h.1.2.2.1
    | removeBoard id => exact hdb b (List.mem_of_mem_filter hb)
    | _ => exact hdb b hb

/-- **A commit keeps the invariant.** -/
theorem Commits.inv (h : Commits P L s s') (hs : ServerInv P s) : ServerInv P s' := by
  obtain ⟨ws, hlegal, -, hdb, hboards, hentries, hredis⟩ := h
  refine ⟨hdb ▸ hlegal.schema hs.schema, fun b hb => ?_, fun e he => ?_,
    hdb ▸ hlegal.config hs.config, hdb ▸ hlegal.references hs.schema hs.references,
    hredis ▸ hs.redis_finite⟩
  · rw [hboards]
    exact List.mem_append_right _ (List.mem_map_of_mem (hdb ▸ hb))
  · rw [hentries]
    exact List.mem_append_right _ (List.mem_map_of_mem (hdb ▸ he))

/-- **A commit of another transaction is within the rely.** -/
theorem Commits.rely (h : Commits P L' s s') (hs : ServerInv P s) (hc : Compatible L' L) :
    Rely L s s' := by
  obtain ⟨ws, hlegal, -, hdb, hboards, hentries, -⟩ := h
  constructor
  · exact hdb ▸ hlegal.agree hc hs.schema
  · exact fun id hid => hboards ▸ List.mem_append_left _ hid
  · exact fun id hid => hentries ▸ List.mem_append_left _ hid
  · intro id hL hid hid'
    rcases List.mem_append.mp (hboards ▸ hid') with h | h
    · exact hid h
    · obtain ⟨b, hb, rfl⟩ := List.mem_map.mp h
      rcases hlegal.board_origin hb with ⟨r, hr, hkey⟩ | ⟨-, hheld⟩
      · exact hid (hkey.1 ▸ hs.board_used r hr)
      · exact hc.not_held hheld hL rfl
  · intro id hL hid hid'
    rcases List.mem_append.mp (hentries ▸ hid') with h | h
    · exact hid h
    · obtain ⟨e, he, rfl⟩ := List.mem_map.mp h
      rcases hlegal.entry_origin he with ⟨r, hr, hkey⟩ | ⟨-, hheld⟩
      · exact hid (hkey.1 ▸ hs.entry_used r hr)
      · exact hc.not_held hheld hL rfl
  · intro b hb hid
    exact (hlegal.board_origin (hdb ▸ hb)).resolve_right fun h => h.1 hid
  · intro e he hid
    exact (hlegal.entry_origin (hdb ▸ he)).resolve_right fun h => h.1 hid
  · intro v hv _ hboard
    rw [hdb] at hboard ⊢
    exact hlegal.version_kept hv hboard

theorem Unchanged.rely (h : Unchanged s s') : Rely L s s' where
  agree := h.1 ▸ Agree.refl L s.db
  board_used _ hid := h.2.1 ▸ hid
  entry_used _ hid := h.2.2.1 ▸ hid
  board_fresh _ _ hid := h.2.1 ▸ hid
  entry_fresh _ _ hid := h.2.2.1 ▸ hid
  board_reused b hb _ := ⟨b, h.1 ▸ hb, rfl, rfl, rfl, rfl⟩
  entry_reused e he _ := ⟨e, h.1 ▸ he, rfl, rfl, rfl⟩
  version_kept _ hv _ _ := h.1 ▸ hv

theorem Unchanged.inv (h : Unchanged s s') (hs : ServerInv P s) : ServerInv P s' where
  schema := h.1 ▸ hs.schema
  board_used b hb := h.2.1 ▸ hs.board_used b (h.1 ▸ hb)
  entry_used e he := h.2.2.1 ▸ hs.entry_used e (h.1 ▸ he)
  config b hb := hs.config b (h.1 ▸ hb)
  references := h.1 ▸ hs.references
  redis_finite := h.2.2.2 hs.redis_finite

end Commit

variable {faulty : Prop}

/-- An instruction leaves the locks of a session alone or adds the ones it claimed. -/
private theorem exec_locks {c : Cmd} {s s' : Server} {h h' : Session} {L : List Lock} {r : c.Res}
    (hexec : Exec faulty c s h L r s' h') {l : Lock} (hl : l ∈ h'.locks) : l ∈ h.locks ++ L := by
  cases hexec <;> simp_all [Session.locks]

variable (P : Policy) (faulty)

/-- What an instruction owes the other handlers. -/
def Guarantee (h : Session) (L : List Lock) (s s' : Server) : Prop :=
  Unchanged s s' ∨ Commits P (h.locks ++ L) s s'

/-- What holds when an instruction is executed: transactions do not nest, and a statement sees
only tier configurations that the policy allows. -/
def Ready (c : Cmd) (h : Session) (s : Server) : Prop :=
  match c with
  | .begin => h = none
  | .commit => h ≠ none
  | .sql _ => ∀ b ∈ (h.view s.db).boards, P.config b.tierConfig ∧ P.Allows b
  | _ => True

/-- **The contract of the handlers.** -/
@[simps] def contract : Contract (server faulty) where
  Inv := ServerInv P
  Pre _ := Ready P
  Guar _ := Guarantee P
  Rely _ h := Rely h.locks
  Beside h h' := Compatible h.locks h'.locks
  rely_refl _ h := Rely.refl h.locks
  rely_trans _ _ _ _ _ := Rely.trans
  inv_of_guar _ _ _ _ _ hs hg := hg.elim (fun h => h.inv hs) fun h => h.inv hs
  rely_of_guar _ _ _ _ _ _ _ _ hs hg hadmits hbeside :=
    hg.elim Unchanged.rely fun h => h.rely hs (compatible_append.mpr ⟨hbeside, hadmits⟩)
  beside_symm _ _ := Compatible.symm
  beside_idle _ := nil_compatible _
  beside_exec _ _ _ _ _ _ _ _ _ hexec hadmits hbeside := fun l hl =>
    (compatible_append.mpr ⟨hbeside, hadmits⟩) l (exec_locks hexec hl)

end Leaderboards
