import Leaderboards.Data.Models
import Leaderboards.Library.Interleaving

/-!
# `sse.rs`: the event bus

The bus keeps one broadcast channel a board, made for its first subscriber and removed when a
publisher finds it without receivers. Each block that holds a lock of the channel map is one
command, so the threads interleave at the locks. A receiver can be dropped at any time, also by a
thread that runs while a publisher holds the read lock.

A channel is `tokio::sync::broadcast`: everyone who subscribed to it sees what is sent after that.
How many events the channel holds for a slow receiver is left out, but not that making a channel
panics when this number is out of range. The panic also poisons the lock of the map, so that later
publishers panic where they find no channel here.
-/

namespace Leaderboards.Sse

open Interaction

/-- `BoardEvent`. -/
inductive BoardEvent
  | versionCreated (versionNumber : ℤ) (note : Option String)
  | scoreUpdated (entrySlug entryName : String) (score : F64)
deriving DecidableEq

/-- How a task on the bus ends early: with an error that it answers, or by a panic. -/
inductive Failure
  | error (e : Error)
  | panic
deriving DecidableEq

/-- A `broadcast::Sender`; the channels are numbered in the order in which they are made. -/
abbrev Sender := ℕ

/-- A `broadcast::Receiver` that `subscribe` gave out. -/
structure Receiver where
  id : ℕ
  /-- The slug that was subscribed to. -/
  board : String
  channel : Sender
  /-- How much had been sent on the channel before. -/
  position : ℕ
deriving DecidableEq

/-- The fields of `EventBus` that never change. -/
structure Limits where
  maxConnections : ℕ := 1000
  debounceMs : ℕ := 0
  broadcastBuffer : ℕ := 256

/-- `usize::MAX`, on machines of 64 bits. -/
def usizeMax : ℕ := 2 ^ 64 - 1

/-- The capacities with which `broadcast::channel` does not panic. -/
def Limits.BufferOk (limits : Limits) : Prop :=
  0 < limits.broadcastBuffer ∧ limits.broadcastBuffer ≤ usizeMax / 2

instance (limits : Limits) : Decidable limits.BufferOk := inferInstanceAs (Decidable (_ ∧ _))

/-- `EventBus`, and the channels that its senders and receivers share. -/
structure EventBus where
  channels : String → Option Sender := fun _ => none
  activeConnections : ℕ := 0
  /-- Instants are in nanoseconds. -/
  lastScoreEvent : String → Option ℕ := fun _ => none
  /-- The number of channels made so far. -/
  made : ℕ := 0
  /-- What was sent on a channel, in order. -/
  sent : Sender → List BoardEvent := fun _ => []
  /-- The receivers that have not been dropped. -/
  receivers : List Receiver := []
  /-- The number of receivers given out so far. -/
  subscribed : ℕ := 0

namespace EventBus

/-- `broadcast::channel`, entered for a board. -/
def insertChannel (bus : EventBus) (boardSlug : String) : EventBus :=
  { bus with channels := Function.update bus.channels boardSlug (some bus.made),
             made := bus.made + 1 }

/-- `Sender::subscribe`. -/
def attach (bus : EventBus) (boardSlug : String) (tx : Sender) : Receiver × EventBus :=
  let rx := { id := bus.subscribed, board := boardSlug, channel := tx,
              position := (bus.sent tx).length }
  (rx, { bus with receivers := rx :: bus.receivers, subscribed := bus.subscribed + 1 })

/-- `Sender::send`. -/
def send (bus : EventBus) (tx : Sender) (event : BoardEvent) : EventBus :=
  { bus with sent := Function.update bus.sent tx (bus.sent tx ++ [event]) }

/-- `Sender::receiver_count`. -/
def receiverCount (bus : EventBus) (tx : Sender) : ℕ :=
  bus.receivers.countP fun rx => rx.channel = tx

/-- Some receivers are dropped. -/
def drop (bus : EventBus) (gone : Receiver → Bool) : EventBus :=
  { bus with receivers := bus.receivers.filter fun rx => !gone rx }

/-- Whether `subscribe` gets a channel for a board: there is one, or one can be made. -/
def HasChannel (limits : Limits) (bus : EventBus) (boardSlug : String) : Prop :=
  limits.BufferOk ∨ ∃ tx, bus.channels boardSlug = some tx

/-- The block of `subscribe` under the write lock. -/
def subscribe (bus : EventBus) (boardSlug : String) : Receiver × EventBus :=
  match bus.channels boardSlug with
  | some tx => bus.attach boardSlug tx
  | none => (bus.insertChannel boardSlug).attach boardSlug bus.made

/-- Whether a board has a channel without receivers. -/
def isStale (bus : EventBus) (boardSlug : String) : Bool :=
  match bus.channels boardSlug with
  | some tx => bus.receiverCount tx = 0
  | none => false

/-- The `send` of `publish_version`, if the board has a channel. -/
def sendTo (bus : EventBus) (boardSlug : String) (event : BoardEvent) : EventBus :=
  match bus.channels boardSlug with
  | some tx => bus.send tx event
  | none => bus

/-- The debounce check of `publish_score`. -/
def isDebounced (limits : Limits) (bus : EventBus) (boardSlug : String) (now : ℕ) : Bool :=
  limits.debounceMs > 0 ∧ (bus.channels boardSlug).isSome ∧
    (bus.lastScoreEvent boardSlug).any fun last =>
      (now - last) / 1000000 < limits.debounceMs

/-- Note the time of a score event. -/
def noteScore (limits : Limits) (bus : EventBus) (boardSlug : String) (now : ℕ) : EventBus :=
  if limits.debounceMs > 0 ∧ (bus.channels boardSlug).isSome then
    { bus with lastScoreEvent := Function.update bus.lastScoreEvent boardSlug (some now) }
  else bus

/-- The block of `prune_channel`: the count is read again under the write lock. -/
def prune (bus : EventBus) (boardSlug : String) : EventBus :=
  if bus.isStale boardSlug then
    { bus with channels := Function.update bus.channels boardSlug none,
               lastScoreEvent := Function.update bus.lastScoreEvent boardSlug none }
  else bus

section

variable (limits : Limits) (bus : EventBus) (boardSlug : String) (event : BoardEvent) (now : ℕ)
  (gone : Receiver → Bool)

@[simp] theorem drop_sent : (bus.drop gone).sent = bus.sent := rfl

@[simp] theorem drop_channels : (bus.drop gone).channels = bus.channels := rfl

@[simp] theorem drop_made : (bus.drop gone).made = bus.made := rfl

@[simp] theorem drop_subscribed : (bus.drop gone).subscribed = bus.subscribed := rfl

theorem mem_drop {rx : Receiver} :
    rx ∈ (bus.drop gone).receivers ↔ rx ∈ bus.receivers ∧ gone rx = false := by
  simp [drop]

@[simp] theorem sendTo_channels : (bus.sendTo boardSlug event).channels = bus.channels := by
  unfold sendTo
  split <;> rfl

@[simp] theorem sendTo_made : (bus.sendTo boardSlug event).made = bus.made := by
  unfold sendTo
  split <;> rfl

@[simp] theorem sendTo_receivers : (bus.sendTo boardSlug event).receivers = bus.receivers := by
  unfold sendTo
  split <;> rfl

@[simp] theorem sendTo_subscribed : (bus.sendTo boardSlug event).subscribed = bus.subscribed := by
  unfold sendTo
  split <;> rfl

theorem sendTo_none (h : bus.channels boardSlug = none) : bus.sendTo boardSlug event = bus := by
  simp [sendTo, h]

theorem sendTo_some {tx : Sender} (h : bus.channels boardSlug = some tx) :
    bus.sendTo boardSlug event = bus.send tx event := by
  simp [sendTo, h]

/-- Noting the time of a score event changes nothing else. -/
theorem noteScore_eq : bus.noteScore limits boardSlug now =
    { bus with lastScoreEvent := (bus.noteScore limits boardSlug now).lastScoreEvent } := by
  unfold noteScore
  split <;> rfl

end

end EventBus

/-! ### The functions of the bus -/

/-- The blocks that run under a lock, and the atomic operations. -/
inductive BusCmd
  | fetchAdd
  | fetchSub
  | subscribe (boardSlug : String)
  | publishVersion (boardSlug : String) (event : BoardEvent)
  | publishScore (boardSlug : String) (event : BoardEvent)
  | prune (boardSlug : String)
  | drop (rx : Receiver)

/-- What a block answers. -/
abbrev BusCmd.Res : BusCmd → Type
  | fetchAdd => ℕ
  | fetchSub => Unit
  -- Nothing when the block panics.
  | subscribe _ => Option Receiver
  -- `should_prune`, for a score after the value of an early `return`.
  | publishVersion _ _ => Bool
  | publishScore _ _ => Except Bool Bool
  | prune _ => Unit
  | drop _ => Unit

/-- The interface to the bus. -/
def Bus : Signature := ⟨BusCmd, BusCmd.Res⟩

/-- `EventBus::subscribe`. -/
def subscribe (limits : Limits) (boardSlug : String) : Prog Bus Failure Receiver :=
  .op (S := Bus) .fetchAdd fun (prev : ℕ) =>
    if limits.maxConnections ≤ prev then
      .op (S := Bus) .fetchSub fun _ =>
        .fail (.error (.serviceUnavailable "streaming connection limit reached"))
    else .op (S := Bus) (.subscribe boardSlug) fun
      | some rx => .ret rx
      | none => .fail .panic

/-- `EventBus::prune_channel`. -/
def pruneChannel (boardSlug : String) : Prog Bus Failure Unit :=
  .op (S := Bus) (.prune boardSlug) fun _ => .ret ()

/-- `EventBus::publish_version`. -/
def publishVersion (boardSlug : String) (versionNumber : ℤ) (note : Option String) :
    Prog Bus Failure Unit :=
  .op (S := Bus) (.publishVersion boardSlug (.versionCreated versionNumber note))
    fun (shouldPrune : Bool) => if shouldPrune then pruneChannel boardSlug else .ret ()

/-- `EventBus::publish_score`: whether the event was not debounced. -/
def publishScore (boardSlug entrySlug entryName : String) (score : F64) : Prog Bus Failure Bool :=
  .op (S := Bus) (.publishScore boardSlug (.scoreUpdated entrySlug entryName score)) fun
    | .error early => .ret early
    | .ok shouldPrune => do
      if shouldPrune = true then pruneChannel boardSlug
      return true

/-- The end of a stream: the receiver goes, and then its guard. -/
def disconnect (rx : Receiver) : Prog Bus Failure Unit :=
  .op (S := Bus) (.drop rx) fun _ => .op (S := Bus) .fetchSub fun _ => .ret ()

/-- What is called on the bus. -/
inductive Call (limits : Limits) : Prog Bus Failure Unit → Prop
  | subscribe (boardSlug : String) :
      Call limits (subscribe limits boardSlug >>= fun _ => .ret ())
  | publishVersion (boardSlug : String) (versionNumber : ℤ) (note : Option String) :
      Call limits (publishVersion boardSlug versionNumber note)
  | publishScore (boardSlug entrySlug entryName : String) (score : F64) :
      Call limits (publishScore boardSlug entrySlug entryName score >>= fun _ => .ret ())
  | disconnect (rx : Receiver) : Call limits (disconnect rx)

/-! ### Threads on the bus -/

/-- The bus, together with what has happened on it: the events that publishers wanted sent, with
their boards, and how many of them there were when a receiver subscribed. -/
structure World where
  bus : EventBus := {}
  published : List (String × BoardEvent) := []
  since : ℕ → ℕ := fun _ => 0

/-- A publisher adds an event. -/
def World.publish (w : World) (boardSlug : String) (event : BoardEvent) (bus : EventBus) : World :=
  { w with bus := bus, published := w.published ++ [(boardSlug, event)] }

/-- A thread executes a block. Receivers of any threads can be dropped while a publisher holds its
lock, and `now` is the instant at which the block reads the clock. -/
inductive Exec (limits : Limits) : (c : BusCmd) → World → c.Res → World → Prop
  | fetchAdd (w : World) : Exec limits .fetchAdd w w.bus.activeConnections
      { w with bus := { w.bus with activeConnections := w.bus.activeConnections + 1 } }
  | fetchSub (w : World) : Exec limits .fetchSub w ()
      { w with bus := { w.bus with activeConnections := w.bus.activeConnections - 1 } }
  | subscribe (w : World) (boardSlug : String) (htx : w.bus.HasChannel limits boardSlug) :
      Exec limits (.subscribe boardSlug) w (some (w.bus.subscribe boardSlug).1)
        { w with bus := (w.bus.subscribe boardSlug).2,
                 since := Function.update w.since w.bus.subscribed w.published.length }
  | subscribePanics (w : World) (boardSlug : String) (htx : ¬w.bus.HasChannel limits boardSlug) :
      Exec limits (.subscribe boardSlug) w none w
  | publishVersion (w : World) (boardSlug : String) (event : BoardEvent)
      (gone : Receiver → Bool) :
      Exec limits (.publishVersion boardSlug event) w
        (((w.bus.sendTo boardSlug event).drop gone).isStale boardSlug)
        (w.publish boardSlug event ((w.bus.sendTo boardSlug event).drop gone))
  | publishScore (w : World) (boardSlug : String) (event : BoardEvent) (now : ℕ)
      (gone : Receiver → Bool) (tx : Sender) (htx : w.bus.channels boardSlug = some tx)
      (hnow : w.bus.isDebounced limits boardSlug now = false) :
      Exec limits (.publishScore boardSlug event) w
        (.ok ((((w.bus.noteScore limits boardSlug now).sendTo boardSlug event).drop gone).isStale
          boardSlug))
        (w.publish boardSlug event
          (((w.bus.noteScore limits boardSlug now).sendTo boardSlug event).drop gone))
  | noSubscribers (w : World) (boardSlug : String) (event : BoardEvent)
      (htx : w.bus.channels boardSlug = none) :
      Exec limits (.publishScore boardSlug event) w (.error true) (w.publish boardSlug event w.bus)
  | debounced (w : World) (boardSlug : String) (event : BoardEvent) (now : ℕ)
      (hnow : w.bus.isDebounced limits boardSlug now = true) :
      Exec limits (.publishScore boardSlug event) w (.error false) w
  | prune (w : World) (boardSlug : String) :
      Exec limits (.prune boardSlug) w () { w with bus := w.bus.prune boardSlug }
  | drop (w : World) (rx : Receiver) (hrx : rx ∈ w.bus.receivers) :
      Exec limits (.drop rx) w () { w with bus := w.bus.drop fun rx' => rx' = rx }

/-- The threads share the bus and keep nothing of their own between two blocks. -/
def machine (limits : Limits) : Machine Bus where
  Shared := World
  Session := Unit
  Claim := Unit
  idle := ()
  exec _ c w _ _ r w' _ := Exec limits c w r w'
  admits _ _ := True
  crashes := False

/-- No block waits. -/
theorem exec_step {limits : Limits} {requests : Prog Bus Failure Unit → Prop} {c : BusCmd}
    {r : c.Res} {w' : World} {g : (machine limits).State Failure} (t : Tid)
    {k : c.Res → Prog Bus Failure Unit} (ht : g.thread t = some ⟨(), .op (S := Bus) c k⟩)
    (hexec : Exec limits c g.shared r w') :
    Machine.Step requests g ⟨w', Function.update g.thread t (some ⟨(), k r⟩)⟩ :=
  .exec g t c k () () () r w' ht (fun _ _ _ _ => trivial) hexec

end Leaderboards.Sse
