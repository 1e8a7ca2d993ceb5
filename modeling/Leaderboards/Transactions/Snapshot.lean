import Leaderboards.Repo.Realtime
import Leaderboards.Transactions.Running
import Leaderboards.Transactions.Statements

/-!
# What a snapshot does when it runs alone

The transaction of `realtime::snapshot` reads the board row, the limits and the live scores, and
then writes the version (`writeSnapshot`). All of its failures before the writing are reported
as errors other than internal ones (`ends_snapshotBody`).
-/

namespace Leaderboards

open Interaction Realtime

variable {env : Supply} {w : World} {α : Type}

/-- The error of a snapshot without live scores. -/
def noScores : Error := .validation "no scores in Redis to snapshot"

/-- The error of a snapshot without accumulated scores. -/
def noAccumulated : Error := .validation "no accumulated scores to snapshot"

/-- A snapshot was refused for lack of scores. -/
def Error.LacksScores (e : Error) : Prop := e = noScores ∨ e = noAccumulated

/-- The part of `realtime::snapshot` that writes the version. -/
def writeSnapshot (board : Board) (members : List (String × F64)) (note : Option String)
    (metadata : Option Json) : Action VersionWithPlacements := do
  let nextNumber ← Action.sql (.nextVersionNumber board.id)
  let version ← Action.sql (.insertVersion board.id nextNumber note metadata)
  let entries ← Action.sql (.selectEntriesBySlug board.id (members.map Prod.fst))
  Prog.each members (insertScore version entries)
  Versions.deriveScoredPositions version.id board.sortDirection
  let placements ← Action.sql (.selectSnapshotPlacements version.id)
  return ⟨version, placements⟩

theorem ends_abortIf {c : Prop} [Decidable c] {keys : Option (String × String)} {e : Error}
    {f : Unit → Action α} {post : Except Error α → World → Prop}
    (herr : c → ∀ w', post (.error e) w') (hok : ¬c → (f ()).Ends env post w) :
    (abortIf c keys e >>= f).Ends env post w := by
  unfold abortIf
  split
  · rename_i hc
    rcases keys with _ | ⟨sk, ek⟩
    · exact herr hc w
    · exact herr hc _
  · exact hok ‹_›

/-- The other checks have messages that start with another letter. -/
theorem Error.not_lacksScores {msg : String} (h : msg.toList.head? ≠ some 'n') :
    ¬(Error.validation msg).LacksScores := by
  rintro (heq | heq) <;>
    exact h ((congrArg (fun t => t.toList.head?) (Error.validation.inj heq)).trans rfl)

theorem Error.database_not_lacksScores (e : DbError) : ¬(Error.database e).LacksScores := by
  rintro (heq | heq) <;> cases heq

/-- The world in which the transaction of a snapshot starts to write: nothing has changed. -/
structure World.Continues (w w' : World) : Prop where
  session : w'.session.isSome = true
  redis : w'.server.redis = w.server.redis
  view : w'.view = w.view

/-- **The transaction of a snapshot**: it fails with an error that is not an internal one, and for
lack of scores only when there are none, or goes on to write the live scores that it has read. -/
theorem ends_snapshotBody {boardId : Uuid} {readSk : String} {keys : Option (String × String)}
    {note : Option String} {metadata : Option Json} {maxVersions : Option ℤ}
    {maxEntries : Option ℕ} {post : Except Error VersionWithPlacements → World → Prop}
    (hs : w.session.isSome = true)
    (herr : ∀ e w', (∀ msg, e ≠ .internal msg) →
      (e.LacksScores → (execRedis (.zrevrange readSk) w.server.redis).1 = .ok []) →
      post (.error e) w')
    (hok : ∀ board members w', w.view.board? boardId = some board →
      (execRedis (.zrevrange readSk) w.server.redis).1 = .ok members → w.Continues w' →
      (writeSnapshot board members note metadata).Ends env post w') :
    (snapshotBody boardId readSk keys note metadata maxVersions maxEntries).Ends env post w := by
  have hdb : ∀ e w', post (.error (.database e)) w' := fun e w' =>
    herr _ w' (by simp) fun hlacks => absurd hlacks (Error.database_not_lacksScores e)
  have hrefused : ∀ msg w', msg.toList.head? ≠ some 'n' → post (.error (.validation msg)) w' :=
    fun msg w' hmsg => herr _ w' (by simp) fun hlacks => absurd hlacks (Error.not_lacksScores hmsg)
  refine ends_statement hs (fun e _ w' _ _ => hdb e w') fun now board ws w₁ hexec h₁ => ?_
  have hrow : w.view.board? boardId = some board ∧ ws = [] := by
    simp only [exec] at hexec
    split at hexec
    · obtain ⟨rfl, rfl⟩ := Prod.mk.inj (Except.ok.inj hexec)
      exact ⟨‹_›, rfl⟩
    · cases hexec
  obtain ⟨hboard, rfl⟩ := hrow
  -- The limit on the versions.
  have hlimit : ∀ f : Unit → Action VersionWithPlacements,
      (∀ w₂, w.Continues w₂ → (f ()).Ends env post w₂) →
      (Realtime.checkVersionLimit board.id keys maxVersions >>= f).Ends env post w₁ := by
    intro f hf
    cases maxVersions with
    | none => exact hf w₁ ⟨h₁.session, congrArg Server.redis h₁.server, h₁.view⟩
    | some max =>
      unfold Realtime.checkVersionLimit
      rw [bind_assoc]
      refine ends_query rfl h₁.session (fun e _ w' _ _ => hdb e w') fun _ count w₂ _ h₂ => ?_
      refine ends_abortIf (fun _ w' => hrefused _ w' ?_) fun _ => ?_
      · simp [toString, String.toList_append]
      · exact hf w₂ ⟨h₂.session, congrArg Server.redis (h₂.server.trans h₁.server),
          h₂.view.trans h₁.view⟩
  refine hlimit _ fun w₂ h₂ => ?_
  refine ends_redis (fun e w' _ => herr _ w' (by simp) fun hlacks => ?_)
    fun members w₃ hreply h₃ => ?_
  · rcases hlacks with heq | heq <;> cases heq
  have hcontinues : w.Continues w₃ :=
    ⟨h₃.session ▸ h₂.session, h₃.redis.trans h₂.redis, h₃.view.trans h₂.view⟩
  rw [h₂.redis] at hreply
  refine ends_abortIf (fun hnil w' => herr _ w' (by simp) fun _ => hnil ▸ hreply) fun _ => ?_
  cases maxEntries with
  | none => exact hok board members w₃ hboard hreply hcontinues
  | some max =>
    refine ends_abortIf (fun _ w' => hrefused _ w' ?_) fun _ => ?_
    · simp [toString, String.toList_append]
    · exact hok board members w₃ hboard hreply hcontinues

end Leaderboards
