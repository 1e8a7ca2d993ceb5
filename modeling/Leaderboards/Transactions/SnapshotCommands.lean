import Leaderboards.Repo.Realtime
import Leaderboards.Transactions.Footprint

/-!
# The Redis commands of a snapshot

Whatever the answers, `realtime::snapshot` sends Redis only these commands: it looks at the working
keys, renames both or the scores alone to fresh keys, reads the scores, and deletes the fresh keys
(`snapshot_uses`). After the commit of its transaction it does not fail any more
(`snapshot_settled`).
-/

namespace Leaderboards

open Interaction Realtime

/-- The commands of a snapshot of the board with a slug, apart from those that begin and end its
transaction. -/
inductive SnapshotCmd (keyPrefix slug : String) : Cmd → Prop
  | newUuid : SnapshotCmd keyPrefix slug .newUuid
  | sql (q : Query) : SnapshotCmd keyPrefix slug (.sql q)
  | scoresExist : SnapshotCmd keyPrefix slug (.redis (.existsKey (scoresKey keyPrefix slug)))
  | entriesExist : SnapshotCmd keyPrefix slug (.redis (.existsKey (entriesKey keyPrefix slug)))
  | renames (snapId : Uuid) : SnapshotCmd keyPrefix slug (.redis
      (.pipe [.rename (scoresKey keyPrefix slug) (snapKey (scoresKey keyPrefix slug) snapId),
        .rename (entriesKey keyPrefix slug) (snapKey (entriesKey keyPrefix slug) snapId)]))
  | rename (snapId : Uuid) : SnapshotCmd keyPrefix slug (.redis
      (.rename (scoresKey keyPrefix slug) (snapKey (scoresKey keyPrefix slug) snapId)))
  | readWorking : SnapshotCmd keyPrefix slug (.redis (.zrevrange (scoresKey keyPrefix slug)))
  | readSnap (snapId : Uuid) : SnapshotCmd keyPrefix slug (.redis
      (.zrevrange (snapKey (scoresKey keyPrefix slug) snapId)))
  | delete (snapId : Uuid) : SnapshotCmd keyPrefix slug (.redis
      (.pipe [.del (snapKey (scoresKey keyPrefix slug) snapId),
        .del (snapKey (entriesKey keyPrefix slug) snapId)]))

variable {keyPrefix slug : String} {snapKeys : Option (String × String)}

/-- The temporary keys of a snapshot of the board, if there are any. -/
def SnapKeys (keyPrefix slug : String) (snapKeys : Option (String × String)) : Prop :=
  ∀ keys ∈ snapKeys, ∃ snapId, keys = (snapKey (scoresKey keyPrefix slug) snapId,
    snapKey (entriesKey keyPrefix slug) snapId)

theorem deleteSnapKeys_uses (hkeys : SnapKeys keyPrefix slug snapKeys) :
    (deleteSnapKeys snapKeys).Uses (SnapshotCmd keyPrefix slug) := by
  rcases snapKeys with _ | keys
  · trivial
  · obtain ⟨snapId, rfl⟩ := hkeys keys rfl
    exact uses_redisIgnored (.delete snapId)

theorem abortIf_uses (hkeys : SnapKeys keyPrefix slug snapKeys) (c : Prop) [Decidable c]
    (e : Error) : (abortIf c snapKeys e).Uses (SnapshotCmd keyPrefix slug) := by
  unfold abortIf
  split
  · exact Prog.uses_bind (deleteSnapKeys_uses hkeys) fun _ => trivial
  · trivial

theorem isolate_uses (board : Board) :
    (isolate board keyPrefix).Uses (SnapshotCmd keyPrefix board.slug) := by
  unfold isolate
  dsimp only
  split
  · refine Prog.uses_bind (p := Action.newUuid) ⟨.newUuid, fun _ => trivial⟩ fun snapId =>
      Prog.uses_bind (uses_redis .scoresExist) fun _ => uses_guard <|
      Prog.uses_bind (uses_redis .entriesExist) fun _ => ?_
    split
    · exact Prog.uses_bind (uses_redis (.renames snapId)) fun _ => trivial
    · exact Prog.uses_bind (uses_redis (.rename snapId)) fun _ => trivial
  · trivial

/-- What the head of a snapshot returns. -/
theorem isolate_keys {board : Board} {x : String × Option (String × String)}
    (h : (isolate board keyPrefix).Returns x) : SnapKeys keyPrefix board.slug x.2 ∧
      SnapshotCmd keyPrefix board.slug (.redis (.zrevrange x.1)) := by
  rcases isolate_returns h with rfl | ⟨snapId, rfl⟩
  · exact ⟨by rintro keys ⟨⟩, .readWorking⟩
  · refine ⟨fun keys hmem => ⟨snapId, ?_⟩, .readSnap snapId⟩
    exact (Option.mem_some.mp hmem).symm

theorem snapshotBody_uses {readSk : String} (hkeys : SnapKeys keyPrefix slug snapKeys)
    (hread : SnapshotCmd keyPrefix slug (.redis (.zrevrange readSk))) (boardId : Uuid)
    (note : Option String) (metadata : Option Json) (maxVersions : Option ℤ)
    (maxEntries : Option ℕ) :
    (snapshotBody boardId readSk snapKeys note metadata maxVersions maxEntries).Uses
      (SnapshotCmd keyPrefix slug) := by
  -- Statements are allowed whatever they are; the commands of Redis have to be looked at.
  have hsql : ∀ {α : Type} {q : Query} {f : q.Row → Action α},
      (∀ row, (f row).Uses (SnapshotCmd keyPrefix slug)) →
      (Action.sql q >>= f).Uses (SnapshotCmd keyPrefix slug) :=
    fun hf => Prog.uses_bind (uses_sql (.sql _)) hf
  have hversions : ∀ boardId : Uuid, (checkVersionLimit boardId snapKeys maxVersions).Uses
      (SnapshotCmd keyPrefix slug) := by
    intro boardId
    cases maxVersions with
    | none => trivial
    | some max => exact hsql fun _ => abortIf_uses hkeys _ _
  have hentries : ∀ count : ℕ, (checkEntryLimit count snapKeys maxEntries).Uses
      (SnapshotCmd keyPrefix slug) := by
    intro count
    cases maxEntries with
    | none => trivial
    | some max => exact abortIf_uses hkeys _ _
  have hscore : ∀ (version : Version) (entries : List (Uuid × String × String)) (x : String × F64),
      (insertScore version entries x).Uses (SnapshotCmd keyPrefix slug) := by
    intro version entries x
    unfold insertScore
    split
    · trivial
    · exact hsql fun _ => trivial
  exact hsql fun _ => Prog.uses_bind (hversions _) fun _ =>
    Prog.uses_bind (uses_redis hread) fun _ =>
    Prog.uses_bind (abortIf_uses hkeys _ _) fun _ => Prog.uses_bind (hentries _) fun _ =>
    hsql fun _ => hsql fun _ => hsql fun _ =>
    Prog.uses_bind (Prog.uses_each fun _ => hscore _ _ _) fun _ => hsql fun _ =>
      hsql fun _ => trivial

/-- A command that begins or ends a transaction. -/
def Cmd.Delimits : Cmd → Prop
  | .begin => True
  | .commit => True
  | .rollback => True
  | _ => False

/-- **The commands of `realtime::snapshot`.** -/
theorem snapshot_uses (board : Board) (note : Option String) (metadata : Option Json)
    (keyPrefix : String) (maxVersions : Option ℤ) (maxEntries : Option ℕ) :
    (Realtime.snapshot board note metadata keyPrefix maxVersions maxEntries).Uses
      fun c => c.Delimits ∨ SnapshotCmd keyPrefix board.slug c := by
  refine Prog.uses_bind_of_returns ((isolate_uses board).mono fun _ hc => .inr hc) fun x hx => ?_
  obtain ⟨hkeys, hread⟩ := isolate_keys hx
  have hbody := snapshotBody_uses hkeys hread board.id note metadata maxVersions maxEntries
  exact Prog.uses_bind (uses_transaction (.inl trivial) (.inl trivial) (.inl trivial)
      (hbody.mono fun _ hc => .inr hc)) fun _ =>
    Prog.uses_bind ((deleteSnapKeys_uses hkeys).mono fun _ hc => .inr hc) fun _ => trivial

/-! ### After the commit -/

/-- A transaction has been committed. -/
def Cmd.Committed : (c : Cmd) → c.Res → Prop
  | .commit, .ok _ => True
  | _, _ => False

theorem SnapshotCmd.not_committed {c : Cmd} (h : SnapshotCmd keyPrefix slug c) (r : c.Res) :
    ¬c.Committed r := by
  cases h <;> exact id

/-- A transaction settles what follows it, if that does not fail. -/
theorem transaction_settled {α β : Type} {body : Action α} {f : α → Action β}
    (hbody : body.Uses fun c => ∀ r, ¬c.Committed r) (hf : ∀ a, ¬(f a).MayFail)
    (hf' : ∀ a, (f a).SettledBy Cmd.Committed) :
    (Action.transaction body >>= f).SettledBy Cmd.Committed := by
  intro r
  refine ⟨fun hbegin => absurd hbegin id, ?_⟩
  cases r with
  | error e => trivial
  | ok _ =>
    have hassoc := bind_assoc body.attempt Action.endTransaction f
    change Prog.SettledBy (S := Service) Cmd.Committed
      ((body.attempt >>= Action.endTransaction) >>= f)
    rw [hassoc]
    refine (Prog.uses_attempt hbody).settled_bind fun x => ?_
    cases x with
    | error e => exact fun _ => ⟨fun hrollback => absurd hrollback id, trivial⟩
    | ok a =>
      intro r
      cases r with
      | error e => exact ⟨fun hfailed => absurd hfailed id, trivial⟩
      | ok _ => exact ⟨fun _ => hf a, hf' a⟩

/-- **A snapshot that has committed does not fail.** -/
theorem snapshot_settled (board : Board) (note : Option String) (metadata : Option Json)
    (keyPrefix : String) (maxVersions : Option ℤ) (maxEntries : Option ℕ) :
    (Realtime.snapshot board note metadata keyPrefix maxVersions maxEntries).SettledBy
      Cmd.Committed := by
  have hplain : ∀ {α : Type} {p : Action α}, p.Uses (SnapshotCmd keyPrefix board.slug) →
      p.Uses fun c => ∀ r, ¬c.Committed r :=
    fun hp => hp.mono fun _ hc => hc.not_committed
  refine (hplain (isolate_uses board)).settled_bind_of_returns fun x hx => ?_
  obtain ⟨hkeys, hread⟩ := isolate_keys hx
  refine transaction_settled (hplain (snapshotBody_uses hkeys hread _ _ _ _ _))
    (fun result => ?_) fun result => ?_
  · rcases x.2 with _ | keys
    · exact id
    · rintro ⟨_, hfail⟩
      exact hfail
  · exact (hplain (deleteSnapKeys_uses hkeys)).settled_bind fun _ => trivial

end Leaderboards
