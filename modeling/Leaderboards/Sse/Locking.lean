import Leaderboards.Sse

/-!
# The event bus, lock by lock

`publish_score` holds the read lock of the channel map from its look at the map to the end of its
block. In between it reads the clock, takes the lock of the last-event table for a moment, sends,
and counts the receivers, and other publishers do the same under their read locks. Here each of
these is a command of its own. What a thread holds under the read lock is its session, so the
blocks under the write lock wait for the threads that have one.
-/

namespace Leaderboards.Sse.Locking

open Interaction

/-- What a publisher holds together with the read lock of `channels`. -/
structure Reading where
  board : String
  /-- The sender that it has found for the board. -/
  tx : Sender
  /-- The instant that it has entered for the event that it is about to send. -/
  noted : Option ℕ := none
deriving DecidableEq

/-- What a thread does between two points at which another may act. -/
inductive LockCmd
  | fetchAdd
  | fetchSub
  /-- `channels.read()` and `channels.get`; without a sender the lock is released again. -/
  | lookup (boardSlug : String)
  /-- `Instant::now()`. -/
  | now
  /-- The block under `last_score_event.write()`. -/
  | note (now : ℕ)
  | send (event : BoardEvent)
  | receiverCount
  /-- The read lock is released. -/
  | unlock
  | subscribe (boardSlug : String)
  | prune (boardSlug : String)
  | drop (rx : Receiver)

/-- What a command answers. -/
abbrev LockCmd.Res : LockCmd → Type
  | fetchAdd => ℕ
  | fetchSub => Unit
  | lookup _ => Bool
  | now => ℕ
  -- Whether the event is to be sent.
  | note _ => Bool
  | send _ => Unit
  | receiverCount => ℕ
  | unlock => Unit
  -- Nothing when the block panics.
  | subscribe _ => Option Receiver
  | prune _ => Unit
  | drop _ => Unit

/-- The interface of a thread to the bus and its locks. -/
def Locks : Signature := ⟨LockCmd, LockCmd.Res⟩

/-- Execute one command. -/
def run (c : LockCmd) : Prog Locks Failure c.Res := .op (S := Locks) c .ret

/-! ### The functions of the bus -/

/-- `EventBus::subscribe`. -/
def subscribe (limits : Limits) (boardSlug : String) : Prog Locks Failure Receiver := do
  let prev ← run .fetchAdd
  if limits.maxConnections ≤ prev then
    run .fetchSub
    .fail (.error (.serviceUnavailable "streaming connection limit reached"))
  else
    match ← run (.subscribe boardSlug) with
    | some rx => return rx
    | none => .fail .panic

/-- `EventBus::prune_channel`. -/
def pruneChannel (boardSlug : String) : Prog Locks Failure Unit := run (.prune boardSlug)

/-- The end of the two publishing functions: `send`, and then the look at the receivers. -/
def deliver (boardSlug : String) (event : BoardEvent) : Prog Locks Failure Unit := do
  run (.send event)
  let receiverCount ← run .receiverCount
  run .unlock
  if receiverCount = 0 then pruneChannel boardSlug

/-- `EventBus::publish_version`. -/
def publishVersion (boardSlug : String) (versionNumber : ℤ) (note : Option String) :
    Prog Locks Failure Unit := do
  let found ← run (.lookup boardSlug)
  if found then deliver boardSlug (.versionCreated versionNumber note)

/-- `EventBus::publish_score`: whether the event was not debounced. -/
def publishScore (limits : Limits) (boardSlug entrySlug entryName : String) (score : F64) :
    Prog Locks Failure Bool := do
  let found ← run (.lookup boardSlug)
  if ¬found then return true
  if limits.debounceMs > 0 then
    let now ← run .now
    let sends ← run (.note now)
    if ¬sends then
      run .unlock
      return false
  deliver boardSlug (.scoreUpdated entrySlug entryName score)
  return true

/-- The answer is not that of a debounce check that holds an event back. -/
def LockCmd.passes : (c : LockCmd) → c.Res → Prop
  | .note _, sends => sends = true
  | _, _ => True

/-- `publish_score` returns false only when the debounce check has held its event back. -/
theorem publishScore_returns_false (limits : Limits) (boardSlug entrySlug entryName : String)
    (score : F64) : ¬(publishScore limits boardSlug entrySlug entryName score).ReturnsAmong
      LockCmd.passes false := by
  have hdelivered : ¬(deliver boardSlug (.scoreUpdated entrySlug entryName score) >>= fun _ =>
      pure true : Prog Locks Failure Bool).ReturnsAmong LockCmd.passes false := by
    intro h
    obtain ⟨_, h⟩ := h.of_bind
    cases h
  rintro ⟨found, -, h⟩
  cases found with
  | false => cases h
  | true =>
    dsimp only [Prog.bind] at h
    rw [if_neg (by simp)] at h
    split at h
    · obtain ⟨now, -, sends, hsends, h⟩ := h
      cases hsends
      exact hdelivered h
    · exact hdelivered h

/-- A client: it subscribes, and some time later its receiver is dropped, and then its guard. -/
def client (limits : Limits) (boardSlug : String) : Prog Locks Failure Unit := do
  let rx ← subscribe limits boardSlug
  run (.drop rx)
  run .fetchSub

/-- What is called on the bus. -/
inductive Call (limits : Limits) : Prog Locks Failure Unit → Prop
  | client (boardSlug : String) : Call limits (client limits boardSlug)
  | publishVersion (boardSlug : String) (versionNumber : ℤ) (note : Option String) :
      Call limits (publishVersion boardSlug versionNumber note)
  | publishScore (boardSlug entrySlug entryName : String) (score : F64) :
      Call limits (publishScore limits boardSlug entrySlug entryName score >>= fun _ => .ret ())

/-! ### Threads on the bus -/

/-- An event on a channel, and the instant that its publisher had entered for it. -/
structure Sent where
  event : BoardEvent
  instant : Option ℕ

/-- What the debounce check said to a publisher, which `publish_score` returns. -/
structure Decision where
  board : String
  now : ℕ
  accepted : Bool
deriving DecidableEq

/-- The bus and the clock, and what has happened: what was sent on each channel, and what the
debounce check decided, the latest decision first. -/
structure World where
  bus : EventBus := {}
  clock : ℕ := 0
  log : Sender → List Sent := fun _ => []
  decisions : List Decision := []

namespace World

/-- The check lets an event through and enters its instant. -/
def accept (limits : Limits) (w : World) (boardSlug : String) (now : ℕ) : World :=
  { w with bus := w.bus.noteScore limits boardSlug now,
           decisions := ⟨boardSlug, now, true⟩ :: w.decisions }

/-- The check holds an event back. -/
def refuse (w : World) (boardSlug : String) (now : ℕ) : World :=
  { w with decisions := ⟨boardSlug, now, false⟩ :: w.decisions }

/-- The publisher sends. -/
def send (w : World) (reading : Reading) (event : BoardEvent) : World :=
  { w with bus := w.bus.send reading.tx event,
           log := Function.update w.log reading.tx
             (w.log reading.tx ++ [⟨event, reading.noted⟩]) }

end World

/-- Whether a block needs the write lock of `channels`. -/
inductive Access
  | shared
  | exclusive
deriving DecidableEq

/-- A thread executes a command. The clock never goes back. -/
inductive Exec (limits : Limits) : (c : LockCmd) → World → Option Reading → Access → c.Res →
    World → Option Reading → Prop
  | fetchAdd (w : World) (h : Option Reading) :
      Exec limits .fetchAdd w h .shared w.bus.activeConnections
        { w with bus := { w.bus with activeConnections := w.bus.activeConnections + 1 } } h
  | fetchSub (w : World) (h : Option Reading) : Exec limits .fetchSub w h .shared ()
      { w with bus := { w.bus with activeConnections := w.bus.activeConnections - 1 } } h
  | found (w : World) (boardSlug : String) (tx : Sender)
      (htx : w.bus.channels boardSlug = some tx) :
      Exec limits (.lookup boardSlug) w none .shared true w (some { board := boardSlug, tx := tx })
  | notFound (w : World) (boardSlug : String) (htx : w.bus.channels boardSlug = none) :
      Exec limits (.lookup boardSlug) w none .shared false w none
  | now (w : World) (h : Option Reading) (now : ℕ) (hnow : w.clock ≤ now) :
      Exec limits .now w h .shared now { w with clock := now } h
  | noted (w : World) (reading : Reading) (now : ℕ)
      (hnow : w.bus.isDebounced limits reading.board now = false) :
      Exec limits (.note now) w (some reading) .shared true (w.accept limits reading.board now)
        (some { reading with noted := some now })
  | debounced (w : World) (reading : Reading) (now : ℕ)
      (hnow : w.bus.isDebounced limits reading.board now = true) :
      Exec limits (.note now) w (some reading) .shared false (w.refuse reading.board now)
        (some reading)
  | send (w : World) (reading : Reading) (event : BoardEvent) :
      Exec limits (.send event) w (some reading) .shared () (w.send reading event)
        (some { reading with noted := none })
  | receiverCount (w : World) (reading : Reading) :
      Exec limits .receiverCount w (some reading) .shared (w.bus.receiverCount reading.tx) w
        (some reading)
  | unlock (w : World) (reading : Reading) :
      Exec limits .unlock w (some reading) .shared () w none
  | subscribe (w : World) (boardSlug : String) (htx : w.bus.HasChannel limits boardSlug) :
      Exec limits (.subscribe boardSlug) w none .exclusive (some (w.bus.subscribe boardSlug).1)
        { w with bus := (w.bus.subscribe boardSlug).2 } none
  | subscribePanics (w : World) (boardSlug : String) (htx : ¬w.bus.HasChannel limits boardSlug) :
      Exec limits (.subscribe boardSlug) w none .exclusive none w none
  | prune (w : World) (boardSlug : String) :
      Exec limits (.prune boardSlug) w none .exclusive ()
        { w with bus := w.bus.prune boardSlug } none
  | drop (w : World) (h : Option Reading) (rx : Receiver) (hrx : rx ∈ w.bus.receivers) :
      Exec limits (.drop rx) w h .shared () { w with bus := w.bus.drop fun rx' => rx' = rx } h

/-- The threads share the bus; a write lock waits until nobody else holds a read lock. -/
def machine (limits : Limits) : Machine Locks where
  Shared := World
  Session := Option Reading
  Claim := Access
  idle := none
  exec _ c w h access r w' h' := Exec limits c w h access r w' h'
  admits access h := access = .exclusive → h = none
  crashes := False

/-- A command runs when nobody else holds a read lock, or it needs no write lock. -/
theorem exec_step {limits : Limits} {requests : Prog Locks Failure Unit → Prop} {c : LockCmd}
    {r : c.Res} {w' : World} {h h' : Option Reading} {access : Access}
    {g : (machine limits).State Failure} (t : Tid) {k : c.Res → Prog Locks Failure Unit}
    (ht : g.thread t = some ⟨h, .op (S := Locks) c k⟩)
    (hexec : Exec limits c g.shared h access r w' h')
    (hothers : access = .exclusive → ∀ u, u ≠ t → g.thread u = none) :
    Machine.Step requests g ⟨w', Function.update g.thread t (some ⟨h', k r⟩)⟩ :=
  .exec g t c k h h' access r w' ht
    (fun u _ hu hthread haccess => nomatch (hothers haccess u hu).symm.trans hthread) hexec

end Leaderboards.Sse.Locking
