import Leaderboards.Transactions.Statements

/-!
# Rules for handlers

The rules of the program logic for the instructions of the service. Inside a transaction the
handler knows `Open`: its pending writes are legal. Each rule hands the continuation a later
state of the servers, in which that is still so, together with what the instruction did.

A transaction may end once it is `Committable`: its writes are legal and leave every new version
complete, whatever the others commit before it does.
-/

namespace Leaderboards

open Interaction

variable {P : Policy} {faulty : Prop} {s s₁ : Server} {tx : Tx} {L : List Lock} {α β : Type}

/-- The tables as an open transaction sees them. -/
def Tx.view (tx : Tx) (s : Server) : Database := s.db.applyAll tx.writes

/-- What a handler knows of its open transaction: the pending writes are legal, and none of them
removes rows. -/
structure Open (P : Policy) (s : Server) (tx : Tx) : Prop where
  legal : LegalSeq P s tx.locks tx.writes s.db
  keeps : ∀ w ∈ tx.writes, ¬w.removes

theorem Open.begin (P : Policy) (s : Server) (now : Timestamp) : Open P s ⟨[], [], now⟩ :=
  ⟨trivial, by simp⟩

theorem Open.schema (h : Open P s tx) (hs : ServerInv P s) : (tx.view s).Schema :=
  h.legal.schema hs.schema

theorem Open.ready (h : Open P s tx) (hs : ServerInv P s) :
    ∀ b ∈ (tx.view s).boards, P.config b.tierConfig ∧ P.Allows b :=
  h.legal.config hs.config

/-- **An open transaction survives the commits of others.** -/
theorem Open.stable (h : Open P s tx) (hs : ServerInv P s) (hs₁ : ServerInv P s₁)
    (hrely : Rely tx.locks s s₁) :
    Open P s₁ tx ∧ Agree tx.locks (tx.view s) (tx.view s₁) := by
  have hremove : ∀ w ∈ tx.writes, ∀ id, w ≠ .removeBoard id := by
    rintro w hw id rfl
    exact h.keeps _ hw trivial
  obtain ⟨hlegal, hagree⟩ := h.legal.stable hrely.agree hrely hs.schema hs₁.schema hremove
  exact ⟨⟨hlegal, h.keeps⟩, hagree h.keeps⟩

/-- A statement adds legal writes to the pending ones. -/
theorem Open.add (h : Open P s tx) {ws : List RowWrite} (hws : ∀ w ∈ ws, ¬w.removes)
    (hlegal : LegalSeq P s (tx.locks ++ L) ws (tx.view s)) : Open P s (tx.add ws L) where
  legal := (h.legal.mono fun _ hl => List.mem_append_left _ hl).append h.keeps hlegal
  keeps w hw := (List.mem_append.mp hw).elim (h.keeps w) (hws w)

@[simp] theorem Tx.view_add (tx : Tx) (ws : List RowWrite) (L : List Lock) (s : Server) :
    (tx.add ws L).view s = (tx.view s).applyAll ws :=
  Database.applyAll_append s.db tx.writes ws

/-! ### Ending a transaction -/

/-- The pending versions other than `except` are complete. -/
def Done (P : Policy) (s : Server) (tx : Tx) (except : Option Uuid) : Prop :=
  ∀ v ∈ (tx.view s).versions, v ∉ s.db.versions → some v.id ≠ except →
    Complete P s.db (tx.view s) v

/-- A complete version stays complete under the lock on its board. -/
theorem Complete.stable {committed committed' db db' : Database} {v : Version}
    (h : Complete P committed db v) (hcommitted : Agree L committed committed')
    (hagree : Agree L db db') (hL : Held L (.version v.id) .update)
    (hL' : Held L (.board v.boardId) .update) : Complete P committed' db' v := by
  obtain ⟨b, hb, hbid, hcurrent, hcomplete⟩ := h
  have hrow : Held L (.board b.id) .noKeyUpdate := hbid ▸ hL'.weaken rfl
  refine ⟨b, (hagree.board_row b hrow).mp hb, hbid, fun r hr hid => ?_, ?_⟩
  · exact hcurrent r ((hcommitted.board_row r (hid ▸ hrow)).mpr hr) hid
  · rw [hagree.version_placements v.id hL]
    exact hcomplete

theorem Done.stable {except : Option Uuid} (h : Done P s tx except) (ho : Open P s tx)
    (hs : ServerInv P s) (hs₁ : ServerInv P s₁) (hrely : Rely tx.locks s s₁) :
    Done P s₁ tx except := by
  obtain ⟨ho₁, hagree⟩ := ho.stable hs hs₁ hrely
  intro v hv hnew hne
  rcases ho₁.legal.version_origin hv with hold | ⟨hL, hL'⟩
  · exact absurd hold hnew
  · have hv' := (hagree.version_row v (hL.weaken rfl)).mpr hv
    have hnew' : v ∉ s.db.versions := fun hmem =>
      hnew ((hrely.agree.version_row v (hL.weaken rfl)).mp hmem)
    exact (h v hv' hnew' hne).stable hrely.agree hagree hL hL'

/-- A transaction may commit, whatever the others commit first. -/
def Committable (P : Policy) (s : Server) (tx : Tx) : Prop :=
  ∀ s₁, Rely tx.locks s s₁ → ServerInv P s₁ →
    LegalSeq P s₁ tx.locks tx.writes s₁.db ∧ Sealed P s₁.db tx.writes

theorem Open.committable (h : Open P s tx) (hs : ServerInv P s) (hdone : Done P s tx none) :
    Committable P s tx := fun s₁ hrely hs₁ =>
  ⟨(h.stable hs hs₁ hrely).1.legal, fun v hv hnew =>
    hdone.stable h hs hs₁ hrely v hv hnew (by simp)⟩

/-- Without pending versions there is nothing to complete. -/
theorem done_of_versions {except : Option Uuid} (h : (tx.view s).versions = s.db.versions) :
    Done P s tx except := fun _ hv hnew => absurd (h ▸ hv) hnew

theorem committable_removeEntry {id : Uuid} (hw : tx.writes = [.removeEntry id])
    (hlegal : Legal P s tx.locks (.removeEntry id) s.db) : Committable P s tx := by
  intro s₁ hrely hs₁
  rw [hw]
  refine ⟨legalSeq_singleton.mpr (hlegal.stable hrely.agree hrely (by simp)), fun v hv hnew => ?_⟩
  exact absurd hv hnew

/-! ### Instructions outside a transaction -/

/-- The condition that every outcome leaves the session closed. -/
def closed : Contract.Post (server faulty) Error α := fun _ h _ => h = none

/-- A statement in autocommit mode. Its row writes have to be legal under the locks it takes. -/
theorem safe_autocommit {t : Tid} {post : Contract.Post (server faulty) Error α} {q : Query}
    {k : Except DbError q.Row → Action α}
    (herr : ∀ e s₁, (contract faulty P).Safe t post (k (.error e)) none s₁)
    (hok : ∀ s₁ u now row ws, ServerInv P s₁ → Rely [] s s₁ → s₁.Fresh u →
      exec u now q s₁.db = .ok (row, ws) →
      (LegalSeq P s₁ (q.locks u s₁.db) ws s₁.db ∧ Sealed P s₁.db ws) ∧
        ∀ s₂, ServerInv P s₂ → s₂.db = s₁.db.applyAll ws → Rely [] s₁ s₂ →
          (contract faulty P).Safe t post (k (.ok row)) none s₂) :
    (contract faulty P).Safe t post (Prog.op (S := Service) (.sql q) k) none s := by
  intro s₁ hrely hinv
  refine ⟨hinv.config, fun L r s₂ h₂ hexec => ?_⟩
  cases hexec with
  | autocommit hu hnow hq =>
    rename_i u now ws row
    obtain ⟨⟨hlegal, hsealed⟩, hrest⟩ := hok s₁ u now row ws hinv hrely hu hq
    have hcommit : Commits P (q.locks u s₁.db) s₁ { Server.commit s₁ ws with clock := now } :=
      ⟨ws, hlegal, hsealed, rfl, rfl, rfl, rfl⟩
    exact ⟨.inr hcommit, hrest _ (hcommit.inv hinv) rfl (hcommit.rely hinv (compatible_nil _))⟩
  | autocommitError hu hnow hq => exact ⟨.inl ⟨rfl, rfl, rfl, id⟩, herr _ _⟩
  | statementFault hf => exact ⟨.inl ⟨rfl, rfl, rfl, id⟩, herr _ _⟩

/-- A read in autocommit mode. -/
theorem safe_read {t : Tid} {post : Contract.Post (server faulty) Error α} {q : Query}
    {k : Except DbError q.Row → Action α}
    (hq : q.readOnly = true)
    (herr : ∀ e s₁, (contract faulty P).Safe t post (k (.error e)) none s₁)
    (hok : ∀ s₁ s₂ u now row, ServerInv P s₁ → ServerInv P s₂ → Rely [] s s₂ → s₂.db = s₁.db →
      exec u now q s₁.db = .ok (row, []) →
      (contract faulty P).Safe t post (k (.ok row)) none s₂) :
    (contract faulty P).Safe t post (Prog.op (S := Service) (.sql q) k) none s := by
  refine safe_autocommit herr fun s₁ u now row ws hs₁ hrely hu hexec => ?_
  obtain rfl := exec_readOnly hq hexec
  exact ⟨⟨trivial, fun v hv hnew => absurd hv hnew⟩, fun s₂ hs₂ hdb hrely₂ =>
    hok s₁ s₂ u now row hs₁ hs₂ (hrely.trans hrely₂) hdb hexec⟩

/-- A Redis command changes nothing that a transaction depends on. -/
theorem safe_redis {t : Tid} {post : Contract.Post (server faulty) Error α} {c : RedisCmd}
    {k : Except RedisError c.Reply → Action α} {h : Session} (hc : c.Finite)
    (herr : ∀ e s₁, ServerInv P s₁ → Rely h.locks s s₁ →
      (contract faulty P).Safe t post (k (.error e)) h s₁)
    (hok : ∀ s₁ s₂ r, ServerInv P s₁ → ServerInv P s₂ → Rely h.locks s s₂ →
      (execRedis c s₁.redis).1 = .ok r → (contract faulty P).Safe t post (k (.ok r)) h s₂) :
    (contract faulty P).Safe t post (Prog.op (S := Service) (.redis c) k) h s := by
  intro s₁ hrely hinv
  refine ⟨trivial, fun L r s₂ h₂ hexec => ?_⟩
  cases hexec with
  | redis =>
    have hsame : Unchanged s₁ { s₁ with redis := (execRedis c s₁.redis).2 } :=
      ⟨rfl, rfl, rfl, execRedis_finite hc⟩
    refine ⟨.inl hsame, ?_⟩
    rcases hr : (execRedis c (Server.redis s₁)).1 with e | r
    · exact herr e _ (hsame.inv hinv) (hrely.trans hsame.rely)
    · exact hok s₁ _ r hinv (hsame.inv hinv) (hrely.trans hsame.rely) hr
  | redisFault hf => exact ⟨.inl ⟨rfl, rfl, rfl, id⟩, herr _ _ hinv hrely⟩

theorem safe_newUuid {t : Tid} {post : Contract.Post (server faulty) Error α}
    {k : Uuid → Action α} {h : Session}
    (hok : ∀ s₁ u, ServerInv P s₁ → Rely h.locks s s₁ →
      (contract faulty P).Safe t post (k u) h s₁) :
    (contract faulty P).Safe t post (Prog.op (S := Service) .newUuid k) h s := by
  intro s₁ hrely hinv
  refine ⟨trivial, fun L r s₂ h₂ hexec => ?_⟩
  cases hexec with
  | newUuid hu =>
    have hsame : ∀ u : Uuid, Unchanged s₁ { s₁ with snapIds := Server.snapIds s₁ ++ [u] } :=
      fun _ => ⟨rfl, rfl, rfl, id⟩
    exact ⟨.inl (hsame r), hok _ _ ((hsame r).inv hinv) (hrely.trans (hsame r).rely)⟩

/-! ### Instructions inside a transaction -/

/-- A statement inside a transaction whose failure is looked at by the caller. -/
theorem safe_tryStatement {t : Tid} {post : Contract.Post (server faulty) Error α} {q : Query}
    {k : Except DbError q.Row → Action α} (ho : Open P s tx) (hs : ServerInv P s)
    (herr : ∀ e s₁, (contract faulty P).Safe t post (k (.error e)) (some tx) s₁)
    (hok : ∀ s₁ u row ws, ServerInv P s₁ → Open P s₁ tx → Rely tx.locks s s₁ →
      Agree tx.locks (tx.view s) (tx.view s₁) → s₁.Fresh u →
      exec u tx.now q (tx.view s₁) = .ok (row, ws) →
      (contract faulty P).Safe t post (k (.ok row))
        (some (tx.add ws (q.locks u (tx.view s₁)))) s₁) :
    (contract faulty P).Safe t post (Prog.op (S := Service) (.sql q) k) (some tx) s := by
  intro s₁ hrely hinv
  obtain ⟨ho₁, hagree⟩ := ho.stable hs hinv hrely
  refine ⟨ho₁.ready hinv, fun L r s₂ h₂ hexec => ?_⟩
  cases hexec with
  | statement hu hq => exact ⟨.inl ⟨rfl, rfl, rfl, id⟩, hok _ _ _ _ hinv ho₁ hrely hagree hu hq⟩
  | statementError hu hq => exact ⟨.inl ⟨rfl, rfl, rfl, id⟩, herr _ _⟩
  | statementFault hf => exact ⟨.inl ⟨rfl, rfl, rfl, id⟩, herr _ _⟩

/-- A statement inside a transaction. -/
theorem safe_statement {t : Tid} {post : Contract.Post (server faulty) Error α} {q : Query}
    {f : q.Row → Action α} (ho : Open P s tx) (hs : ServerInv P s)
    (herr : ∀ e s₁, post (.error e) (some tx) s₁)
    (hok : ∀ s₁ u row ws, ServerInv P s₁ → Open P s₁ tx → Rely tx.locks s s₁ →
      Agree tx.locks (tx.view s) (tx.view s₁) → s₁.Fresh u →
      exec u tx.now q (tx.view s₁) = .ok (row, ws) →
      (contract faulty P).Safe t post (f row) (some (tx.add ws (q.locks u (tx.view s₁)))) s₁) :
    (contract faulty P).Safe t post (Action.sql q >>= f) (some tx) s :=
  safe_tryStatement ho hs (fun _ _ => herr _ _) hok

/-- A reading statement inside a transaction. -/
theorem safe_query {t : Tid} {post : Contract.Post (server faulty) Error α} {q : Query}
    {f : q.Row → Action α} (hq : q.readOnly = true) (ho : Open P s tx) (hs : ServerInv P s)
    (herr : ∀ e s₁, post (.error e) (some tx) s₁)
    (hok : ∀ s₁ u row, ServerInv P s₁ → Open P s₁ tx → Rely tx.locks s s₁ →
      Agree tx.locks (tx.view s) (tx.view s₁) → exec u tx.now q (tx.view s₁) = .ok (row, []) →
      (contract faulty P).Safe t post (f row) (some tx) s₁) :
    (contract faulty P).Safe t post (Action.sql q >>= f) (some tx) s := by
  refine safe_statement ho hs herr fun s₁ u row ws hs₁ ho₁ hrely hagree _ hexec => ?_
  obtain rfl := exec_readOnly hq hexec
  rw [locks_readOnly hq, show tx.add [] [] = tx by simp [Tx.add]]
  exact hok s₁ u row hs₁ ho₁ hrely hagree hexec

/-- What the body of a transaction has to establish to commit. -/
def commits (P : Policy) : Contract.Post (server faulty) Error α :=
  Contract.outcome (fun _ h s => ∃ tx, h = some tx ∧ Committable P s tx) fun _ _ _ => True

/-- **The rule of transactions.** Whatever happens, the session is closed afterwards. -/
theorem safe_transaction {t : Tid} {body : Action α} (hbody : ∀ s₁ now, ServerInv P s₁ →
      Rely [] s s₁ → (contract faulty P).Safe t (commits P) body (some ⟨[], [], now⟩) s₁) :
    (contract faulty P).Safe t closed (Action.transaction body) none s := by
  intro s₁ hrely hinv
  refine ⟨rfl, fun L r s₂ h₂ hexec => ?_⟩
  cases hexec with
  | begin hnow =>
    rename_i now
    have hsame : Unchanged s₁ { s₁ with clock := now } := ⟨rfl, rfl, rfl, id⟩
    refine ⟨.inl hsame, ?_⟩
    refine Contract.safe_bind (Q := fun x h s => commits P x h s) ?_ ?_
    · exact Contract.safe_attempt (hbody _ _ (hsame.inv hinv) (hrely.trans hsame.rely))
    · rintro (e | a) h s₃ hpost
      · intro s₄ hrely₄ hinv₄
        refine ⟨trivial, fun L r s₅ h₅ hexec => ?_⟩
        cases hexec with
        | rollback => exact ⟨.inl ⟨rfl, rfl, rfl, id⟩, rfl⟩
      · obtain ⟨tx, rfl, hcommit⟩ := hpost
        intro s₄ hrely₄ hinv₄
        obtain ⟨hlegal, hsealed⟩ := hcommit s₄ hrely₄ hinv₄
        refine ⟨Option.some_ne_none tx, fun L r s₅ h₅ hexec => ?_⟩
        cases hexec with
        | commit =>
          refine ⟨.inr ⟨tx.writes, ?_, hsealed, rfl, rfl, rfl, rfl⟩, rfl⟩
          exact hlegal.mono fun l hl => List.mem_append_left _ hl
        | commitFault hf => exact ⟨.inl ⟨rfl, rfl, rfl, id⟩, rfl⟩
  | beginFault hf => exact ⟨.inl ⟨rfl, rfl, rfl, id⟩, rfl⟩

end Leaderboards
