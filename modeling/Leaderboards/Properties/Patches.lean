import Leaderboards.Transactions.Patching
import Leaderboards.Transactions.Schedule
import Mathlib.Data.List.ReduceOption

/-!
# No lost PATCH

Any number of PATCHes of boards, entries and collections run at once. Afterwards the tables are
what the successful PATCHes make of them one after another, in the order of their commits
(`System.Trace.patched`). So each row is the fold of the PATCHes of the row, and each of its
columns has the value of the last successful PATCH that has the field. What has been acknowledged
is among them: a call that answers a PATCH with success has committed it, once
(**`no_lost_patch`**).
-/

namespace Leaderboards

open Interaction

variable {faulty : Prop} {g₀ g : System faulty} {who : Tid → Option Request}
  {es : List (Event Service Request)}

/-! ### The tables -/

/-- The request whose transaction an event commits. -/
def committedRequest : Event Service Request → Option Request
  | .exec _ r c a => if committed c a then r else none
  | _ => none

/-- The requests whose transactions have been committed, in the order of the commits. -/
def committedRequests (es : List (Event Service Request)) : List Request :=
  es.filterMap committedRequest

theorem committedRequests_append (e : Event Service Request) :
    committedRequests (es ++ [e]) = committedRequests es ++ (committedRequest e).toList := by
  simp [committedRequests, List.filterMap_append, List.filterMap_cons]
  cases committedRequest e <;> rfl

/-- The tables after some PATCHes, one after another. -/
def patchAll (ps : List (Request × Timestamp)) (db : Database) : Database :=
  ps.foldl (fun db p => p.1.patch p.2 db) db

theorem patchAll_concat (ps : List (Request × Timestamp)) (p : Request × Timestamp)
    (db : Database) : patchAll (ps ++ [p]) db = p.1.patch p.2 (patchAll ps db) :=
  List.foldl_concat ..

/-- **The tables after concurrent PATCHes** are those after the successful ones, applied one after
another in the order of their commits. -/
theorem System.Trace.patched (hg₀ : System.Reachable {} g₀) (hdone : g₀.Done)
    (h : System.Trace Request.IsPatch g₀ es who g) :
    ∃ ps : List (Request × Timestamp), ps.map Prod.fst = committedRequests es ∧
      g.servers.db = patchAll ps g₀.servers.db := by
  have hsafe : ∀ r : Request, r.IsPatch → ∀ t s, (contract faulty {}).Inv s →
      (contract faulty {}).Safe t (fun _ _ _ => True) r.handler none s := fun r _ t s _ =>
    (Request.safe r.respects_default).mono fun _ _ _ _ => trivial
  have hmeets : ∀ r : Request, r.IsPatch → ∀ t s, (contract faulty {}).Inv s →
      (contract faulty {}).Meets t (Applies r) r.handler none s := fun r hr t s _ => meets_patch hr
  induction h with
  | start => exact ⟨[], rfl, rfl⟩
  | @call es who g t r h hr ht ih =>
    obtain ⟨ps, hps, hdb⟩ := ih
    refine ⟨ps, ?_, hdb⟩
    rw [committedRequests_append, hps]
    exact (List.append_nil _).symm
  | @exec es who g t c k s s' L a sh' h ht hothers hexec ih =>
    obtain ⟨ps, hps, hdb⟩ := ih
    obtain ⟨r, hr, hwho⟩ := h.called hdone ht
    have happlies : Applies r c s (System.servers g) := h.meets_exec hsafe hmeets hg₀.good hwho ht
    -- Anything but a COMMIT leaves the tables alone: a PATCH writes inside its transaction only.
    have hsame : committed c a = false → Server.db sh' = (System.servers g).db →
        ∃ ps : List (Request × Timestamp),
          ps.map Prod.fst = committedRequests (es ++ [.exec t (who t) c a]) ∧
            Server.db sh' = patchAll ps g₀.servers.db := by
      intro hnot hsame
      refine ⟨ps, ?_, hsame.trans hdb⟩
      rw [committedRequests_append, committedRequest, hnot, hps]
      simp
    cases hexec with
    | commit =>
      rename_i tx
      refine ⟨ps ++ [(r, tx.now)], ?_, ?_⟩
      · rw [committedRequests_append, List.map_append, hps, hwho]
        rfl
      · rw [patchAll_concat, ← hdb]
        exact happlies tx rfl
    | autocommit hu hnow hq =>
      obtain rfl := exec_readOnly (happlies rfl) hq
      exact hsame rfl rfl
    | _ => exact hsame rfl rfl
  | @crash es who g t th h hc ht ih =>
    obtain ⟨ps, hps, hdb⟩ := ih
    refine ⟨ps, ?_, hdb⟩
    rw [committedRequests_append, hps]
    exact (List.append_nil _).symm

/-! ### The calls -/

/-- The requests whose transactions a thread has committed since its last call. -/
def committedSince (t : Tid) (es : List (Event Service Request)) : List Request :=
  es.foldl (fun rs e =>
    match e with
    | .call u _ => if u = t then [] else rs
    | .exec u r c a => if u = t then rs ++ (committedRequest (.exec u r c a)).toList else rs
    | .crash _ => rs) []

theorem committedSince_sublist (t : Tid) (es : List (Event Service Request)) :
    (committedSince t es).Sublist (committedRequests es) := by
  induction es using List.reverseRecOn with
  | nil => exact .slnil
  | append_singleton es e ih =>
    rw [committedRequests_append]
    have hkept : (committedSince t es).Sublist
        (committedRequests es ++ (committedRequest e).toList) :=
      ih.trans (List.sublist_append_left _ _)
    cases e with
    | call u r =>
      by_cases hut : u = t
      · simp [committedSince, hut]
      · simpa [committedSince, hut] using hkept
    | exec u r c a =>
      by_cases hut : u = t
      · have hboth := ih.append (List.Sublist.refl (committedRequest (.exec u r c a)).toList)
        simpa [committedSince, hut] using hboth
      · simpa [committedSince, hut] using hkept
    | crash u => simpa [committedSince] using hkept

/-- The commits of a thread since its last call are those of its request. -/
theorem System.Trace.committedSince_eq {allowed : Request → Prop} {t : Tid} {r : Request}
    (h : System.Trace allowed g₀ es who g) (hwho : who t = some r) :
    committedSince t es = List.replicate (commitsAmong (Machine.answersSince t es)) r := by
  induction h with
  | start => cases hwho
  | @call es who g u r' h hr hu ih =>
    by_cases hut : u = t
    · subst hut
      rw [Machine.answersSince_call_self]
      simp [committedSince, commitsAmong]
    · rw [Function.update_of_ne (Ne.symm hut)] at hwho
      rw [Machine.answersSince_call_of_ne _ _ hut, ← ih hwho]
      simp [committedSince, hut]
  | @exec es who g u c k s s' L a sh' h hu hothers hexec ih =>
    by_cases hut : u = t
    · subst hut
      rw [Machine.answersSince_exec_self, commitsAmong, List.countP_append, List.replicate_add,
        ← commitsAmong, ← ih hwho, hwho]
      simp only [committedSince, List.foldl_append, List.foldl_cons, List.foldl_nil, if_true,
        committedRequest]
      cases hc : committed c a <;> simp [hc]
    · rw [Machine.answersSince_exec_of_ne _ _ _ _ hut, ← ih hwho]
      simp [committedSince, hut]
  | @crash es who g u th h hc hu ih =>
    rw [Machine.answersSince_crash, ← ih hwho]
    simp [committedSince]

/-- What the answer to a PATCH says of its commits: with success it has been committed exactly once,
unless it only reads; refused, never. -/
structure AnsweredPatch (r : Request) (rs : List Request) (rest : Action Unit) : Prop where
  ok : rest = .ret () → rs = if r.changes = true then [r] else []
  refused : ∀ e, rest = .fail e → (∀ d, e ≠ .database d) → rs = []

/-- **Every answer to a PATCH is true.** -/
theorem System.Trace.answeredPatch (h : System.Trace Request.IsPatch g₀ es who g) {t : Tid}
    {r : Request} {th : (server faulty).Thread Error} (hwho : who t = some r)
    (ht : g.thread t = some th) : AnsweredPatch r (committedSince t es) th.rest := by
  obtain ⟨hr, hanswers⟩ := h.answers_since hwho ht
  have hkeeps := (keeps_patch hr).answers hanswers (commitCount_expected _ _)
  rw [commitCount_after, zero_add] at hkeeps
  rw [h.committedSince_eq hwho]
  constructor
  · intro hrest
    rw [hrest] at hkeeps
    have hcount : commitsAmong (Machine.answersSince t es) = r.changes.toNat := hkeeps
    rw [hcount]
    cases r.changes <;> rfl
  · intro e hrest he
    rw [hrest] at hkeeps
    have hcount : commitsAmong (Machine.answersSince t es) = 0 := hkeeps he
    rw [hcount]
    rfl

/-! ### The rows -/

/-- The PATCH of the board with a slug. -/
def Request.boardPatch? (slug : String) : Request → Option UpdateBoard
  | .updateBoard slug' input => if slug' = slug then some input else none
  | _ => none

/-- The PATCH of the entry that slugs with a property name. -/
def Request.entryPatch? (names : String → String → Bool) : Request → Option UpdateEntry
  | .updateEntry slug entrySlug input => if names slug entrySlug then some input else none
  | _ => none

/-- The PATCH of the collection with a slug. -/
def Request.collectionPatch? (slug : String) : Request → Option UpdateCollection
  | .updateCollection slug' input => if slug' = slug then some input else none
  | _ => none

variable {ρ ι : Type} {patch : ι → Timestamp → ρ → ρ}

/-- A row after some PATCHes, one after another. -/
def patchRow (patch : ι → Timestamp → ρ → ρ) (ps : List (ι × Timestamp)) (x : ρ) : ρ :=
  ps.foldl (fun x p => patch p.1 p.2 x) x

/-- The PATCHes of one row. -/
def onRow (f : Request → Option ι) (ps : List (Request × Timestamp)) : List (ι × Timestamp) :=
  ps.filterMap fun p => (f p.1).map fun i => (i, p.2)

theorem onRow_map (f : Request → Option ι) (ps : List (Request × Timestamp)) :
    (onRow f ps).map Prod.fst = (ps.map Prod.fst).filterMap f := by
  rw [onRow, List.map_filterMap, List.filterMap_map]
  congr 1
  funext p
  cases hp : f p.1 <;> simp [hp]

/-- One more PATCH, of this row or of another one. -/
theorem patchRow_onRow_cons (f : Request → Option ι) (p : Request × Timestamp)
    (ps : List (Request × Timestamp)) (x : ρ) :
    patchRow patch (onRow f (p :: ps)) x =
      patchRow patch (onRow f ps) (((f p.1).map fun i => patch i p.2 x).getD x) := by
  cases hp : f p.1 <;> simp [onRow, patchRow, hp]

theorem patchAll_boards (ps : List (Request × Timestamp)) (db : Database) :
    (patchAll ps db).boards = db.boards.map fun b =>
      patchRow UpdateBoard.patch (onRow (Request.boardPatch? b.slug) ps) b := by
  induction ps generalizing db with
  | nil => exact (List.map_id' _).symm
  | cons p ps ih =>
    obtain ⟨r, now⟩ := p
    have hstep : (r.patch now db).boards = db.boards.map fun b =>
        ((r.boardPatch? b.slug).map fun i => i.patch now b).getD b := by
      cases r with
      | updateBoard slug input =>
        refine List.map_congr_left fun b _ => ?_
        by_cases h : b.slug = slug
        · simp [Request.boardPatch?, h]
        · simp [Request.boardPatch?, h, Ne.symm h]
      | _ => exact (List.map_id' _).symm
    have hrest : patchAll ((r, now) :: ps) db = patchAll ps (r.patch now db) := rfl
    rw [hrest, ih, hstep, List.map_map]
    refine List.map_congr_left fun b _ => ?_
    rw [patchRow_onRow_cons, Function.comp_apply]
    cases r.boardPatch? b.slug <;> rfl

theorem patchAll_collections (ps : List (Request × Timestamp)) (db : Database) :
    (patchAll ps db).collections = db.collections.map fun c =>
      patchRow UpdateCollection.patch (onRow (Request.collectionPatch? c.slug) ps) c := by
  induction ps generalizing db with
  | nil => exact (List.map_id' _).symm
  | cons p ps ih =>
    obtain ⟨r, now⟩ := p
    have hstep : (r.patch now db).collections = db.collections.map fun c =>
        ((r.collectionPatch? c.slug).map fun i => i.patch now c).getD c := by
      cases r with
      | updateCollection slug input =>
        refine List.map_congr_left fun c _ => ?_
        by_cases h : c.slug = slug
        · simp [Request.collectionPatch?, h]
        · simp [Request.collectionPatch?, h, Ne.symm h]
      | _ => exact (List.map_id' _).symm
    have hrest : patchAll ((r, now) :: ps) db = patchAll ps (r.patch now db) := rfl
    rw [hrest, ih, hstep, List.map_map]
    refine List.map_congr_left fun c _ => ?_
    rw [patchRow_onRow_cons, Function.comp_apply]
    cases r.collectionPatch? c.slug <;> rfl

/-- No PATCH moves a slug to another board. -/
theorem patch_boardId (r : Request) (now : Timestamp) (db : Database) (slug : String) :
    ((r.patch now db).boardBySlug? slug).map Board.id = (db.boardBySlug? slug).map Board.id := by
  cases r with
  | updateBoard slug' input =>
    have hslug : ((fun b : Board => decide (b.slug = slug)) ∘
        fun b => if b.slug = slug' then input.patch now b else b) =
          fun b => decide (b.slug = slug) := by
      funext b
      rw [Function.comp_apply]
      split <;> rfl
    simp only [Request.patch, Database.boardBySlug?, patchRows, List.find?_map, hslug,
      Option.map_map]
    congr 1
    funext b
    rw [Function.comp_apply]
    split <;> rfl
  | _ => rfl

theorem patchAll_entries (ps : List (Request × Timestamp)) (db : Database) :
    (patchAll ps db).entries = db.entries.map fun e => patchRow UpdateEntry.patch
      (onRow (Request.entryPatch? fun slug entrySlug => db.Names slug entrySlug e) ps) e := by
  induction ps generalizing db with
  | nil => exact (List.map_id' _).symm
  | cons p ps ih =>
    obtain ⟨r, now⟩ := p
    have hstep : (r.patch now db).entries = db.entries.map fun e =>
        ((r.entryPatch? fun slug entrySlug => db.Names slug entrySlug e).map
          fun i => i.patch now e).getD e := by
      cases r with
      | updateEntry slug entrySlug input =>
        refine List.map_congr_left fun e _ => ?_
        by_cases h : db.Names slug entrySlug e
        · simp [Request.entryPatch?, h]
        · simp [Request.entryPatch?, h]
      | _ => exact (List.map_id' _).symm
    have hrest : patchAll ((r, now) :: ps) db = patchAll ps (r.patch now db) := rfl
    rw [hrest, ih, hstep, List.map_map]
    refine List.map_congr_left fun e _ => ?_
    have hnames : ∀ e', e'.boardId = e.boardId → e'.slug = e.slug →
        (fun slug entrySlug => decide ((r.patch now db).Names slug entrySlug e')) =
          fun slug entrySlug => decide (db.Names slug entrySlug e) := by
      intro e' hboard hslug
      funext slug entrySlug
      rw [decide_eq_decide, Database.Names, Database.Names, patch_boardId, hboard, hslug]
    rw [patchRow_onRow_cons, Function.comp_apply, hnames]
    · cases r.entryPatch? (fun slug entrySlug => db.Names slug entrySlug e) <;> rfl
    · cases r.entryPatch? (fun slug entrySlug => db.Names slug entrySlug e) <;> rfl

/-! ### The columns -/

/-- The last of some values that is present, or else the old value. -/
def lastSet {α : Type} (vs : List (Option α)) (old : α) : α :=
  vs.reduceOption.getLast?.getD old

theorem lastSet_cons {α : Type} (v : Option α) (vs : List (Option α)) (old : α) :
    lastSet (v :: vs) old = lastSet vs (v.getD old) := by
  cases v with
  | none => rfl
  | some a =>
    rw [lastSet, lastSet, List.reduceOption_cons_of_some]
    rcases List.eq_nil_or_concat' vs.reduceOption with h | ⟨init, x, h⟩
    · simp [h]
    · simp [h, List.getLast?_cons]

/-- What a field of a PATCH sets a nullable column to, if it is present. -/
def Nullable.set? {α : Type} : Nullable α → Option (Option α)
  | .absent => none
  | .null => some none
  | .value v => some (some v)

theorem Nullable.apply_eq {α : Type} (n : Nullable α) (old : Option α) :
    n.apply old = n.set?.getD old := by
  cases n <;> rfl

/-- **A column after some PATCHes** has the last value that a PATCH sets it to. -/
theorem patchRow_column {κ : Type} (column : ρ → κ) (field : ι → Option κ)
    (hfield : ∀ i now x, column (patch i now x) = (field i).getD (column x))
    (ps : List (ι × Timestamp)) (x : ρ) :
    column (patchRow patch ps x) = lastSet ((ps.map Prod.fst).map field) (column x) := by
  induction ps generalizing x with
  | nil => rfl
  | cons p ps ih =>
    have hrest : patchRow patch (p :: ps) x = patchRow patch ps (patch p.1 p.2 x) := rfl
    rw [hrest, ih, hfield, List.map_cons, List.map_cons, lastSet_cons]

variable (patch) in
/-- A column that no PATCH sets. -/
theorem patchRow_fixed {κ : Type} (column : ρ → κ)
    (hfixed : ∀ i now x, column (patch i now x) = column x) (ps : List (ι × Timestamp)) (x : ρ) :
    column (patchRow patch ps x) = column x := by
  induction ps generalizing x with
  | nil => rfl
  | cons p ps ih => exact (ih _).trans (hfixed ..)

/-- A board row before and after some PATCHes: they have been applied one after another, so each
column has the last value that a PATCH gives it, and what no PATCH can set is as before. -/
structure PatchedBoard (inputs : List UpdateBoard) (b b' : Board) : Prop where
  applied : ∃ ps, ps.map Prod.fst = inputs ∧ b' = patchRow UpdateBoard.patch ps b
  key : b.SameKey b'
  createdAt : b'.createdAt = b.createdAt
  name : b'.name = lastSet (inputs.map UpdateBoard.name) b.name
  sortDirection : b'.sortDirection = lastSet (inputs.map UpdateBoard.sortDirection) b.sortDirection
  tierConfig : b'.tierConfig = lastSet (inputs.map fun i => i.tierConfig.set?) b.tierConfig
  metadata : b'.metadata = lastSet (inputs.map fun i => i.metadata.set?) b.metadata
  realtime : b'.realtime = lastSet (inputs.map UpdateBoard.realtime) b.realtime
  clearOnSnapshot :
    b'.clearOnSnapshot = lastSet (inputs.map UpdateBoard.clearOnSnapshot) b.clearOnSnapshot

/-- The same for an entry row. -/
structure PatchedEntry (inputs : List UpdateEntry) (e e' : Entry) : Prop where
  applied : ∃ ps, ps.map Prod.fst = inputs ∧ e' = patchRow UpdateEntry.patch ps e
  key : e.SameKey e'
  createdAt : e'.createdAt = e.createdAt
  name : e'.name = lastSet (inputs.map UpdateEntry.name) e.name
  metadata : e'.metadata = lastSet (inputs.map fun i => i.metadata.set?) e.metadata

/-- The same for a collection row. -/
structure PatchedCollection (inputs : List UpdateCollection) (c c' : Collection) : Prop where
  applied : ∃ ps, ps.map Prod.fst = inputs ∧ c' = patchRow UpdateCollection.patch ps c
  id : c'.id = c.id
  slug : c'.slug = c.slug
  createdAt : c'.createdAt = c.createdAt
  name : c'.name = lastSet (inputs.map UpdateCollection.name) c.name
  metadata : c'.metadata = lastSet (inputs.map fun i => i.metadata.set?) c.metadata

theorem patchedBoard (ps : List (UpdateBoard × Timestamp)) (b : Board) :
    PatchedBoard (ps.map Prod.fst) b (patchRow UpdateBoard.patch ps b) where
  applied := ⟨ps, rfl, rfl⟩
  key := ⟨(patchRow_fixed UpdateBoard.patch Board.id (fun _ _ _ => rfl) ps b).symm,
    (patchRow_fixed UpdateBoard.patch Board.slug (fun _ _ _ => rfl) ps b).symm,
    (patchRow_fixed UpdateBoard.patch Board.boardType (fun _ _ _ => rfl) ps b).symm,
    (patchRow_fixed UpdateBoard.patch Board.accumulative (fun _ _ _ => rfl) ps b).symm⟩
  createdAt := patchRow_fixed UpdateBoard.patch Board.createdAt (fun _ _ _ => rfl) ps b
  name := patchRow_column Board.name _ (fun _ _ _ => rfl) ps b
  sortDirection := patchRow_column Board.sortDirection _ (fun _ _ _ => rfl) ps b
  tierConfig := patchRow_column Board.tierConfig _ (fun i _ _ => i.tierConfig.apply_eq _) ps b
  metadata := patchRow_column Board.metadata _ (fun i _ _ => i.metadata.apply_eq _) ps b
  realtime := patchRow_column Board.realtime _ (fun _ _ _ => rfl) ps b
  clearOnSnapshot := patchRow_column Board.clearOnSnapshot _ (fun _ _ _ => rfl) ps b

theorem patchedEntry (ps : List (UpdateEntry × Timestamp)) (e : Entry) :
    PatchedEntry (ps.map Prod.fst) e (patchRow UpdateEntry.patch ps e) where
  applied := ⟨ps, rfl, rfl⟩
  key := ⟨(patchRow_fixed UpdateEntry.patch Entry.id (fun _ _ _ => rfl) ps e).symm,
    (patchRow_fixed UpdateEntry.patch Entry.boardId (fun _ _ _ => rfl) ps e).symm,
    (patchRow_fixed UpdateEntry.patch Entry.slug (fun _ _ _ => rfl) ps e).symm⟩
  createdAt := patchRow_fixed UpdateEntry.patch Entry.createdAt (fun _ _ _ => rfl) ps e
  name := patchRow_column Entry.name _ (fun _ _ _ => rfl) ps e
  metadata := patchRow_column Entry.metadata _ (fun i _ _ => i.metadata.apply_eq _) ps e

theorem patchedCollection (ps : List (UpdateCollection × Timestamp)) (c : Collection) :
    PatchedCollection (ps.map Prod.fst) c (patchRow UpdateCollection.patch ps c) where
  applied := ⟨ps, rfl, rfl⟩
  id := patchRow_fixed UpdateCollection.patch Collection.id (fun _ _ _ => rfl) ps c
  slug := patchRow_fixed UpdateCollection.patch Collection.slug (fun _ _ _ => rfl) ps c
  createdAt := patchRow_fixed UpdateCollection.patch Collection.createdAt (fun _ _ _ => rfl) ps c
  name := patchRow_column Collection.name _ (fun _ _ _ => rfl) ps c
  metadata := patchRow_column Collection.metadata _ (fun i _ _ => i.metadata.apply_eq _) ps c

/-- The successful PATCHes of one row, in the order of their commits. -/
def patchesOf {ι : Type} (f : Request → Option ι) (es : List (Event Service Request)) : List ι :=
  (committedRequests es).filterMap f

/-- **No PATCH is lost.** Any number of PATCHes run from a state in which nothing else is left to
do, interleaved in any way. The tables are those after the successful PATCHes, applied in the order
of their commits, so a rejected PATCH changes nothing; each row is the one from before with its
successful PATCHes applied, those of disjoint fields all included; and a call that answers with
success has committed its PATCH exactly once. -/
theorem no_lost_patch (hg₀ : System.Reachable {} g₀) (hdone : g₀.Done)
    (h : System.Trace Request.IsPatch g₀ es who g) :
    (∃ ps : List (Request × Timestamp), ps.map Prod.fst = committedRequests es ∧
      g.servers.db = patchAll ps g₀.servers.db) ∧
    (∀ b ∈ g₀.servers.db.boards, ∃ b' ∈ g.servers.db.boards,
      PatchedBoard (patchesOf (Request.boardPatch? b.slug) es) b b') ∧
    (∀ e ∈ g₀.servers.db.entries, ∀ b ∈ g₀.servers.db.boards, b.id = e.boardId →
      ∃ e' ∈ g.servers.db.entries, PatchedEntry
        (patchesOf (Request.entryPatch? fun slug entrySlug => slug = b.slug ∧
          entrySlug = e.slug) es)
          e e') ∧
    (∀ c ∈ g₀.servers.db.collections, ∃ c' ∈ g.servers.db.collections,
      PatchedCollection (patchesOf (Request.collectionPatch? c.slug) es) c c') ∧
    ∀ t r th, who t = some r → g.thread t = some th →
      (committedSince t es).Sublist (committedRequests es) ∧
        AnsweredPatch r (committedSince t es) th.rest := by
  obtain ⟨ps, hps, hdb⟩ := System.Trace.patched hg₀ hdone h
  have hon : ∀ {ι : Type} (f : Request → Option ι), (onRow f ps).map Prod.fst = patchesOf f es :=
    fun f => by rw [onRow_map, hps, patchesOf]
  refine ⟨⟨ps, hps, hdb⟩, fun b hb => ?_, fun e he b hb hid => ?_, fun c hc => ?_,
    fun t r th hwho ht => ⟨committedSince_sublist t es, h.answeredPatch hwho ht⟩⟩
  · refine ⟨_, ?_, hon _ ▸ patchedBoard (onRow (Request.boardPatch? b.slug) ps) b⟩
    rw [hdb, patchAll_boards]
    exact List.mem_map_of_mem hb
  -- Which entry a PATCH names is decided by the tables of the beginning: slugs do not change.
  · have hslug := hg₀.inv.schema.boardBySlug?_eq hb
    have hnames : (fun slug entrySlug => decide (g₀.servers.db.Names slug entrySlug e)) =
        fun slug entrySlug => decide (slug = b.slug ∧ entrySlug = e.slug) := by
      funext slug entrySlug
      rw [decide_eq_decide, Database.Names]
      refine and_congr ⟨fun h => ?_, fun h => ?_⟩ eq_comm
      · obtain ⟨b', hb', hid'⟩ := Option.map_eq_some_iff.mp h
        obtain ⟨hmem, rfl⟩ := Database.mem_of_boardBySlug? hb'
        rw [hg₀.inv.schema.board_inj hmem hb (hid'.trans hid.symm)]
      · rw [h, hslug, Option.map_some, hid]
    refine ⟨_, ?_, hon _ ▸ patchedEntry (onRow (Request.entryPatch? fun slug entrySlug =>
      slug = b.slug ∧ entrySlug = e.slug) ps) e⟩
    rw [hdb, patchAll_entries]
    exact List.mem_map.mpr ⟨e, he, by rw [hnames]⟩
  · refine ⟨_, ?_, hon _ ▸ patchedCollection (onRow (Request.collectionPatch? c.slug) ps) c⟩
    rw [hdb, patchAll_collections]
    exact List.mem_map_of_mem hc

/-- The creation of a board with an entry, and of a collection. -/
def creations : List Move :=
  [.call (.createBoard { slug := "b", name := "B", boardType := "ordered" }), .turns 0 9,
    .call (.createEntry "b" { slug := "e", name := "E" }), .turns 1 9,
    .call (.createCollection { slug := "c", name := "C" }), .turns 2 9]

/-- Two PATCHes of disjoint fields on each row: the second one to begin is the first one to
commit. -/
def overlappingPatches : List Move :=
  [.call (.updateBoard "b" { name := some "N" }), .turns 3 1,
    .call (.updateEntry "b" "e" { name := some "N" }), .turns 4 2,
    .call (.updateCollection "c" { name := some "N" }), .turns 5 1,
    .call (.updateBoard "b" { metadata := .value (.str "m") }), .turns 6 9,
    .call (.updateEntry "b" "e" { metadata := .value (.str "m") }), .turns 7 9,
    .call (.updateCollection "c" { metadata := .value (.str "m") }), .turns 8 9,
    .turns 3 9, .turns 4 9, .turns 5 9]

/-- The rows that the PATCHes are for. -/
def patchedRows (c : Clients) : Bool :=
  (c.server.db.boardBySlug? "b").any (fun b => (c.server.db.entryBySlug? b.id "e").isSome) &&
    (c.server.db.collectionBySlug? "c").isSome

/-- Both PATCHes of each row have been committed, and the first one has been answered with
success. -/
def allCommitted (c : Clients) : Bool :=
  decide (patchesOf (Request.boardPatch? "b") c.log =
      [{ metadata := .value (.str "m") }, { name := some "N" }] ∧
    patchesOf (Request.entryPatch? fun slug entrySlug => slug = "b" ∧ entrySlug = "e") c.log =
      [{ metadata := .value (.str "m") }, { name := some "N" }] ∧
    patchesOf (Request.collectionPatch? "c") c.log =
      [{ metadata := .value (.str "m") }, { name := some "N" }]) &&
    ((c.who 3).any Request.changes && (c.threads[3]?).any fun th =>
      match th.2 with
      | .ret _ => true
      | _ => false)

set_option maxRecDepth 20000 in
/-- Overlapping PATCHes of a board, an entry and a collection, all of which take effect. -/
theorem no_lost_patch_run : ∃ (g₀ g : System False) (es : List (Event Service Request))
    (who : Tid → Option Request) (b b' : Board) (e e' : Entry) (c c' : Collection),
    b ∈ g₀.servers.db.boards ∧ b' ∈ g.servers.db.boards ∧
    e ∈ g₀.servers.db.entries ∧ e' ∈ g.servers.db.entries ∧
    c ∈ g₀.servers.db.collections ∧ c' ∈ g.servers.db.collections ∧
    PatchedBoard [{ metadata := .value (.str "m") }, { name := some "N" }] b b' ∧
    PatchedEntry [{ metadata := .value (.str "m") }, { name := some "N" }] e e' ∧
    PatchedCollection [{ metadata := .value (.str "m") }, { name := some "N" }] c c' ∧
    ∃ r, who 3 = some r ∧ committedSince 3 es = [r] := by
  -- The schedules are evaluated; the theorem is then applied to the trace that they show.
  obtain ⟨c₀, hc₀, hplay⟩ := (Option.any_eq_true _ _).mp
    (show (Clients.play counting (fun _ _ => true) creations {}).any (fun c =>
      c.done && (patchedRows c &&
        (Clients.play counting (fun _ _ => true) overlappingPatches c.restart).any allCommitted)) =
          true by decide)
  simp only [Bool.and_eq_true] at hplay
  obtain ⟨hdone, hrows, hplay⟩ := hplay
  obtain ⟨c, hc, hcommitted⟩ := (Option.any_eq_true _ _).mp hplay
  simp only [patchedRows, Bool.and_eq_true, Option.any_eq_true] at hrows
  obtain ⟨⟨b, hb, he⟩, hcollection⟩ := hrows
  obtain ⟨e, he⟩ := Option.isSome_iff_exists.mp he
  obtain ⟨collection, hcollection⟩ := Option.isSome_iff_exists.mp hcollection
  simp only [allCommitted, Bool.and_eq_true, decide_eq_true_eq, Option.any_eq_true] at hcommitted
  obtain ⟨⟨hboard, hentry, hcoll⟩, ⟨r, hr, hchanges⟩, ⟨th, hth, hret⟩⟩ := hcommitted
  obtain ⟨hbmem, hbslug⟩ := Database.mem_of_boardBySlug? hb
  obtain ⟨hemem, heboard, heslug⟩ := Database.mem_of_entryBySlug? he
  obtain ⟨hcmem, hcslug⟩ := Database.mem_of_collectionBySlug? hcollection
  obtain ⟨g₀, hg₀, hshows₀⟩ : ∃ g₀ : System False, System.Reachable {} g₀ ∧ c₀.Shows g₀ :=
    Clients.reachable_play hc₀
  obtain ⟨hshows, hlogs⟩ :
      c₀.restart.Shows g₀ ∧ c₀.restart.Logs (fun _ _ => true) Request.IsPatch g₀ g₀ :=
    hshows₀.restart
  obtain ⟨g, -, hshows', hlogs'⟩ := Clients.play_run Request.IsPatch hc (by
    simp [overlappingPatches, Move.request?, Request.IsPatch]) hshows
  obtain ⟨-, hboards, hentries, hcollections, hanswers⟩ :=
    no_lost_patch hg₀ (hshows₀.done hdone) ((hlogs' g₀ hlogs).trace)
  rw [← hshows₀.servers] at hbmem hemem hcmem
  obtain ⟨b', hb', hpatchedBoard⟩ := hboards b hbmem
  obtain ⟨e', he', hpatchedEntry⟩ := hentries e hemem b hbmem heboard.symm
  obtain ⟨c', hc', hpatchedCollection⟩ := hcollections collection hcmem
  simp only [hbslug, heslug, hcslug] at hpatchedBoard hpatchedEntry hpatchedCollection
  rw [hboard] at hpatchedBoard
  rw [hentry] at hpatchedEntry
  rw [hcoll] at hpatchedCollection
  have hthread : g.thread 3 = some ⟨th.1, th.2⟩ := by
    rw [hshows'.thread 3, hth]
    rfl
  have hok : th.2 = .ret () := by
    cases hrest : th.2 with
    | ret u => rfl
    | fail e => simp [hrest] at hret
    | op cmd k => simp [hrest] at hret
  have hanswer := (hanswers 3 r _ hr hthread).2.ok hok
  rw [if_pos hchanges] at hanswer
  exact ⟨g₀, g, c.log, c.who, b, b', e, e', collection, c', hbmem, hb', hemem, he', hcmem, hc',
    hpatchedBoard, hpatchedEntry, hpatchedCollection, r, hr, hanswer⟩

end Leaderboards
