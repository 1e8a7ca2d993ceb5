import Leaderboards.Transactions.Reachable

/-!
# How a version becomes visible

Only an `INSERT INTO versions` adds a version, and only a transaction that holds the board lock can
commit one. So a version becomes visible in the commit of a transaction that has it among its row
writes, and its time of creation is the instant at which that transaction began
(`System.Reachable.commit_of_new`).
-/

namespace Leaderboards

open Interaction

variable {P : Policy} {faulty : Prop} {ws : List RowWrite} {v : Version}

/-- A version after row writes was there before, or they add it. -/
theorem mem_versions_applyAll {db : Database} (hv : v ∈ (db.applyAll ws).versions) :
    v ∈ db.versions ∨ .addVersion v ∈ ws := by
  induction ws generalizing db with
  | nil => exact .inl hv
  | cons w ws ih =>
    rcases ih hv with hv | hmem
    · cases w with
      | addVersion r =>
        rcases List.mem_append.mp hv with hv | hv
        · exact .inl hv
        · obtain rfl := List.mem_singleton.mp hv
          exact .inr List.mem_cons_self
      | removeBoard id => exact .inl (List.mem_of_mem_filter hv)
      | _ => exact .inl hv
    · exact .inr (List.mem_cons_of_mem _ hmem)

/-- The statement that adds a version, and the time that it stamps on it. -/
theorem exec_addVersion {u : Uuid} {now : Timestamp} {q : Query} {db : Database} {row : q.Row}
    (h : exec u now q db = .ok (row, ws)) (hv : .addVersion v ∈ ws) :
    (∃ boardId n note metadata, q = .insertVersion boardId n note metadata) ∧
      v.createdAt = now := by
  obtain ⟨-, hnow, note, metadata, hq⟩ := exec_writtenBy h _ hv
  exact ⟨⟨_, _, note, metadata, hq⟩, hnow⟩

/-- Outside a transaction a statement cannot add a version: it does not hold the board lock. -/
theorem no_autocommit_version {u : Uuid} {now : Timestamp} {q : Query} {s s' : Server}
    {row : q.Row} (hguar : Guarantee P none (q.locks u s.db) s s')
    (hq : exec u now q s.db = .ok (row, ws)) (hdb : s'.db = s.db.applyAll ws)
    (hmem : .addVersion v ∈ ws) : False := by
  obtain ⟨⟨boardId, n, note, metadata, rfl⟩, -⟩ := exec_addVersion hq hmem
  obtain ⟨rfl, -, hid, -, -, rfl⟩ := execInsertVersion_ok hq
  have hv := List.mem_singleton.mp hmem
  injection hv with hv
  have hnew : v ∉ s.db.versions := fun hold => hid v hold (hv ▸ rfl)
  have hafter : v ∈ s'.db.versions := by
    rw [hdb, hv]
    exact List.mem_append_right _ List.mem_cons_self
  rcases hguar with hsame | ⟨ws', hlegal, -, hdb', -⟩
  · exact hnew (hsame.1 ▸ hafter)
  · have horigin := hlegal.version_origin (hdb' ▸ hafter)
    obtain ⟨l, hl, hresource, hmode⟩ := (horigin.resolve_left hnew).2
    simp only [Session.locks_none, Query.locks, List.nil_append, List.mem_cons,
      List.not_mem_nil, or_false] at hl
    rcases hl with rfl | rfl
    · cases hresource
    · cases hmode

/-- The pending versions of a transaction carry the instant of its beginning. -/
def Stamped (h : Session) : Prop :=
  ∀ tx, h = some tx → ∀ v, .addVersion v ∈ tx.writes → v.createdAt = tx.now

theorem Exec.stamped {c : Cmd} {s s' : Server} {h h' : Session} {L : List Lock} {r : c.Res}
    (hexec : Exec faulty c s h L r s' h') (hh : Stamped h) : Stamped h' := by
  cases hexec with
  | begin =>
    intro tx htx v hv
    obtain rfl := Option.some.inj htx
    cases hv
  | statement hu hq =>
    intro tx' htx v hv
    obtain rfl := Option.some.inj htx
    rcases List.mem_append.mp hv with hv | hv
    · exact hh _ rfl v hv
    · exact (exec_addVersion hq hv).2
  | statementError => exact hh
  | redis => exact hh
  | newUuid => exact hh
  | statementFault => exact hh
  | redisFault => exact hh
  | _ =>
    intro _ htx
    cases htx

namespace System

/-- In every reachable state, pending versions carry the instant of their transaction. -/
theorem Reachable.stamped {g : System faulty} (hg : Reachable P g) {t : Tid}
    {th : (server faulty).Thread Error} (ht : g.thread t = some th) : Stamped th.session :=
  hg.elim fun _ hrun => Machine.Run.session_invariant (M := server faulty) (I := Stamped)
    (fun _ htx => nomatch htx) (fun _ _ _ _ _ _ _ _ hexec => Exec.stamped hexec) hrun
    (fun _ _ ht => nomatch ht) t th ht

/-- A transaction that is about to commit a version. -/
structure Publishes (g : System faulty) (t : Tid) (tx : Tx) (k : Except DbError Unit → Action Unit)
    (v : Version) : Prop where
  thread : g.thread t = some ⟨some tx, Prog.op (S := Service) .commit k⟩
  writes : .addVersion v ∈ tx.writes

/-- **A version becomes visible in the commit of its transaction**, which stamped it. -/
theorem Reachable.commit_of_new {g g' : System faulty} (hg : Reachable P g) (hstep : Step P g g')
    (hv : v ∈ g'.servers.db.versions) (hnew : v ∉ g.servers.db.versions) :
    ∃ t tx k, g.Publishes t tx k v ∧ v.createdAt = tx.now ∧
      g' = ⟨g.servers.commit tx.writes, Function.update g.thread t (some ⟨none, k (.ok ())⟩)⟩ := by
  cases hstep with
  | call t p hp ht => exact absurd hv hnew
  | crash t th hc ht => exact absurd hv hnew
  | exec t c k h h' L r sh' ht hothers hexec =>
    have hguar := (hg.good.exec ht hexec).2
    have hstamped := hg.stamped ht
    cases hexec with
    | commit =>
      rename_i tx
      have hmem := (mem_versions_applyAll hv).resolve_left hnew
      exact ⟨t, tx, k, ⟨ht, hmem⟩, hstamped tx rfl v hmem, rfl⟩
    | autocommit hu hnow hq =>
      have hmem := (mem_versions_applyAll hv).resolve_left hnew
      exact (no_autocommit_version hguar hq rfl hmem).elim
    | _ => exact absurd hv hnew

end System

end Leaderboards
