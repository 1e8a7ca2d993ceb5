import Leaderboards.Properties.CreateResponse
import Leaderboards.Properties.History
import Leaderboards.Transactions.Importing

/-!
# The next version number

`SELECT COALESCE(MAX(version_number), 0) + 1` is an addition of 32-bit integers. The versions that
the service itself creates are numbered one after the other, so on their own the largest number is
the number of versions, but `import_board` takes any positive numbers. How far the largest number
is ahead of the number of versions never changes afterwards (`leavesRoom_step`). So the addition
does not overflow on a board below the limit when the accepted documents leave room for the limit
(`next_number_fits`).
-/

namespace Leaderboards

open Interaction

variable {faulty : Prop} {limit : ℤ}

/-- With these version numbers a board can get `limit` versions in all. -/
def LeavesRoom (limit : ℤ) (numbers : List ℤ) : Prop :=
  ∀ n ∈ numbers, n - numbers.length + limit ≤ 2147483647

/-- The numbers of the versions of a board. -/
def Database.numbersOf (db : Database) (boardId : Uuid) : List ℤ :=
  (db.versionsOf boardId).map Version.versionNumber

/-- The largest number is the number of a version, or there is no version. -/
theorem maxVersionNumber_cases (db : Database) (boardId : Uuid) :
    (db.maxVersionNumber boardId = 0 ∧ db.numbersOf boardId = []) ∨
      db.maxVersionNumber boardId ∈ db.numbersOf boardId := by
  have hmax : db.maxVersionNumber boardId = (db.numbersOf boardId).max?.getD 0 := rfl
  rcases hnumbers : (db.numbersOf boardId).max? with _ | m
  · rw [hmax, hnumbers]
    exact .inl ⟨rfl, List.max?_eq_none_iff.mp hnumbers⟩
  · rw [hmax, hnumbers]
    exact .inr (List.max?_eq_some_iff.mp hnumbers).1

/-- **Below the limit the next number fits.** -/
theorem LeavesRoom.next_le {db : Database} {boardId : Uuid}
    (h : LeavesRoom limit (db.numbersOf boardId))
    (hcount : ((db.versionsOf boardId).length : ℤ) < limit) :
    db.maxVersionNumber boardId + 1 ≤ 2147483647 := by
  have hlength : (db.numbersOf boardId).length = (db.versionsOf boardId).length :=
    List.length_map ..
  rcases maxVersionNumber_cases db boardId with ⟨hmax, -⟩ | hmem
  · omega
  · have hroom := h _ hmem
    omega

/-- The next number leaves as much room as before. -/
theorem LeavesRoom.append {db : Database} {boardId : Uuid} (hlimit : limit ≤ 2147483647)
    (h : LeavesRoom limit (db.numbersOf boardId)) :
    LeavesRoom limit (db.numbersOf boardId ++ [db.maxVersionNumber boardId + 1]) := by
  intro n hn
  rw [List.length_append, List.length_singleton]
  push_cast
  rcases List.mem_append.mp hn with hn | hn
  · have hroom := h n hn
    omega
  · obtain rfl := List.mem_singleton.mp hn
    rcases maxVersionNumber_cases db boardId with ⟨hmax, hnumbers⟩ | hmem
    · rw [hmax, hnumbers, List.length_nil]
      push_cast
      omega
    · have hroom := h _ hmem
      omega

/-- All boards have room for the limit. -/
def AllLeaveRoom (limit : ℤ) (db : Database) : Prop :=
  ∀ b ∈ db.boards, LeavesRoom limit (db.numbersOf b.id)

variable {collation : Collation} {g g' : System faulty}

/-- **One step** keeps the room of every board: a board that was there gets the next number or
none, and a new one has the numbers of an accepted document. -/
theorem leavesRoom_step (hlimit : limit ≤ 2147483647)
    (hrun : Machine.Run (ServesNumbers (LeavesRoom limit)) (System.initial faulty collation) g)
    (hstep : Machine.Step (ServesNumbers (LeavesRoom limit)) g g')
    (h : AllLeaveRoom limit g.servers.db) : AllLeaveRoom limit g'.servers.db := by
  intro b hb
  by_cases hold : ∃ r ∈ g.servers.db.boards, r.id = b.id
  · obtain ⟨r, hr, hid⟩ := hold
    have hroom : LeavesRoom limit (g.servers.db.numbersOf b.id) := hid ▸ h r hr
    have hg := reachable_of_numbers hrun
    have hserves : System.Step {} g g' := by
      refine hstep.mono ?_
      rintro p ⟨r, -, rfl⟩
      exact ⟨r, r.respects_default, rfl⟩
    rcases hg.step_commits hserves with hsame | ⟨L, hcommits⟩
    · rw [hsame.1]
      exact hroom
    · rcases hcommits.versions hg.inv ⟨r, hr, hid⟩ ⟨b, hb, rfl⟩ with heq | ⟨v, hv, hnext, heq⟩
      · rw [Database.numbersOf, heq]
        exact hroom
      · have happend := hroom.append hlimit
        rw [← hv, ← hnext.1, hv] at happend
        rw [Database.numbersOf, heq, List.map_append]
        exact happend
  · exact numbers_of_new nofun hrun hstep hb fun r hr hid => hold ⟨r, hr, hid⟩

/-- **The next version number fits below the limit.** In every run whose accepted import documents
leave room for the limit (their largest number is at most `2147483647 - limit` ahead of their
number of versions), in every state: on every board with fewer versions than the limit the query
for the next version number answers with a number of 32 bits. -/
theorem next_number_fits (hlimit : limit ≤ 2147483647)
    (hrun : Machine.Run (ServesNumbers (LeavesRoom limit)) (System.initial faulty collation) g)
    {b : Board}
    (hb : b ∈ g.servers.db.boards)
    (hcount : ((g.servers.db.versionsOf b.id).length : ℤ) < limit) :
    g.servers.db.maxVersionNumber b.id + 1 ≤ 2147483647 ∧
      (Query.nextVersionNumber b.id).answer g.servers.db =
        .ok (g.servers.db.maxVersionNumber b.id + 1) := by
  have hall : AllLeaveRoom limit g.servers.db := by
    clear hcount hb
    induction hrun with
    | refl => nofun
    | tail hrun hstep ih => exact leavesRoom_step hlimit hrun hstep ih
  have hfits := (hall b hb).next_le hcount
  refine ⟨hfits, ?_⟩
  simp only [Query.answer, exec, hfits, if_true]
  rfl

/-- A document of an ordered board whose only version has this number. -/
def numberedDocument (n : ℤ) : BoardExport :=
  { orderedDocument [] with
    versions := [{ versionNumber := n, note := none, metadata := none
                   placements := [{ entrySlug := "e", entryName := "e", position := some 1
                                    score := none, tier := none, metadata := none }] }] }

set_option maxRecDepth 10000 in
/-- A run with an imported version `7` and two created ones, under a limit of a thousand. -/
theorem next_number_fits_run : ∃ (g : System False) (b : Board),
    System.Reachable {} g ∧ b ∈ g.servers.db.boards ∧
      g.servers.db.numbersOf b.id = [7, 8, 9] ∧
      (Query.nextVersionNumber b.id).answer g.servers.db = .ok 10 := by
  have hroom : LeavesRoom 1000 [7] := by simp [LeavesRoom]
  have hserves : ∀ r ∈ [Request.importBoard inOrder (numberedDocument 7),
      .createVersion { maxVersions := some 1000 } "o" { placements := [{ entrySlug := "e" }] },
      .createVersion { maxVersions := some 1000 } "o" { placements := [{ entrySlug := "e" }] }],
      ServesNumbers (LeavesRoom 1000) r.handler := by
    have hnumbers : ∀ r : Request, r.Numbers (LeavesRoom 1000) →
        ServesNumbers (LeavesRoom 1000) r.handler := fun r hr => ⟨r, hr, rfl⟩
    simp only [List.forall_mem_cons]
    exact ⟨hnumbers _ fun _ _ => hroom, hnumbers _ trivial, hnumbers _ trivial, by simp⟩
  obtain ⟨g, hrun, hrest⟩ := run_serveAll counting False _ hserves
  have hrow : ∃ b ∈ g.servers.db.boards, g.servers.db.numbersOf b.id = [7, 8, 9] := by
    rw [hrest.servers]
    decide
  obtain ⟨b, hb, hnumbers⟩ := hrow
  have hlength : ((g.servers.db.versionsOf b.id).length : ℤ) < 1000 := by
    have hlength := congrArg List.length hnumbers
    rw [Database.numbersOf, List.length_map] at hlength
    rw [hlength]
    decide
  have hmax : g.servers.db.maxVersionNumber b.id = 9 := by
    have hmax : g.servers.db.maxVersionNumber b.id = (g.servers.db.numbersOf b.id).max?.getD 0 :=
      rfl
    rw [hmax, hnumbers]
    rfl
  obtain ⟨-, hanswer⟩ := next_number_fits (by decide) hrun hb hlength
  rw [hmax] at hanswer
  exact ⟨g, b, reachable_of_numbers hrun, hb, hnumbers, hanswer⟩

set_option maxRecDepth 10000 in
/-- An imported version `2147483647` on a board with one version: the next creation is refused by
the database, far below the limit. -/
theorem next_number_fits_fail : ∃ (g : System False) (b : Board),
    System.Reachable {} g ∧ b ∈ g.servers.db.boards ∧
      (g.servers.db.versionsOf b.id).length = 1 ∧
      ¬g.servers.db.maxVersionNumber b.id + 1 ≤ 2147483647 ∧
      ((Versions.create b { placements := [{ entrySlug := "e" }] } (some 1000)).run
        (serve (countingFrom 100)) { server := g.servers }).1 =
          .error (.database .outOfRange) := by
  obtain ⟨g, hg, hrest⟩ := reachable_serveAll (P := {}) counting False
    [.importBoard inOrder (numberedDocument 2147483647)] fun r _ => r.respects_default
  refine ⟨g, ?_⟩
  rw [hrest.servers]
  exact ⟨_, hg, List.mem_cons_self, rfl, by decide, rfl⟩

end Leaderboards
