import Leaderboards.Sse

/-!
# The channels that are registered

A receiver hangs on the channel that is registered for its board: a channel is removed from the map
under the write lock only when it has no receivers (`Registry.prune`). A new channel is one that no
board has had.
-/

namespace Leaderboards.Sse.EventBus

/-- Every live receiver is attached to the registered sender of its board. -/
structure Registry (bus : EventBus) : Prop where
  registered : ∀ rx ∈ bus.receivers, bus.channels rx.board = some rx.channel
  made : ∀ b tx, bus.channels b = some tx → tx < bus.made
  one_board : ∀ b b' tx, bus.channels b = some tx → bus.channels b' = some tx → b = b'

namespace Registry

variable {bus bus' : EventBus}

theorem initial : Registry {} where
  registered := by simp
  made := by simp
  one_board := by simp

/-- A block that registers nothing and keeps the senders that have receivers. -/
theorem of_kept (h : bus.Registry) (hreceivers : ∀ rx ∈ bus'.receivers, rx ∈ bus.receivers)
    (hchannels : ∀ b tx, bus'.channels b = some tx → bus.channels b = some tx)
    (hkept : ∀ rx ∈ bus'.receivers, bus'.channels rx.board = bus.channels rx.board)
    (hmade : bus'.made = bus.made) : bus'.Registry where
  registered rx hrx := by
    rw [hkept rx hrx]
    exact h.registered rx (hreceivers rx hrx)
  made b tx htx := hmade ▸ h.made b tx (hchannels b tx htx)
  one_board b b' tx hb hb' := h.one_board b b' tx (hchannels b tx hb) (hchannels b' tx hb')

/-- A new channel has no receivers and no board but its own. -/
theorem insertChannel (h : bus.Registry) {boardSlug : String}
    (htx : bus.channels boardSlug = none) : (bus.insertChannel boardSlug).Registry := by
  have hother : ∀ rx ∈ bus.receivers, rx.board ≠ boardSlug := by
    rintro rx hrx rfl
    cases htx.symm.trans (h.registered rx hrx)
  refine ⟨fun rx hrx => ?_, fun b tx hb => ?_, fun b b' tx hb hb' => ?_⟩
  · exact (Function.update_of_ne (hother rx hrx) ..).trans (h.registered rx hrx)
  · simp only [EventBus.insertChannel] at hb ⊢
    by_cases hslug : b = boardSlug
    · subst hslug
      rw [Function.update_self] at hb
      obtain rfl := Option.some.inj hb
      exact Nat.lt_succ_self _
    · exact Nat.lt_succ_of_lt (h.made b tx ((Function.update_of_ne hslug ..).symm.trans hb))
  · simp only [EventBus.insertChannel] at hb hb'
    -- The new sender is not registered yet, so it cannot be the sender of another board.
    have hnew : ∀ b, bus.channels b ≠ some bus.made := fun b heq =>
      absurd (h.made b _ heq) (lt_irrefl _)
    by_cases hslug : b = boardSlug
    · by_cases hslug' : b' = boardSlug
      · rw [hslug, hslug']
      · rw [hslug, Function.update_self] at hb
        rw [Function.update_of_ne hslug', ← hb] at hb'
        exact absurd hb' (hnew b')
    · rw [Function.update_of_ne hslug] at hb
      by_cases hslug' : b' = boardSlug
      · rw [hslug', Function.update_self, ← hb] at hb'
        exact absurd hb'.symm (hnew b)
      · rw [Function.update_of_ne hslug'] at hb'
        exact h.one_board b b' tx hb hb'

/-- A new receiver is attached to the channel that is registered for its board. -/
theorem attach (h : bus.Registry) {boardSlug : String} {tx : Sender}
    (htx : bus.channels boardSlug = some tx) : (bus.attach boardSlug tx).2.Registry := by
  refine ⟨fun rx hrx => ?_, h.made, h.one_board⟩
  rcases List.mem_cons.mp hrx with rfl | hrx
  · exact htx
  · exact h.registered rx hrx

theorem subscribe (h : bus.Registry) (boardSlug : String) :
    (bus.subscribe boardSlug).2.Registry := by
  unfold EventBus.subscribe
  rcases htx : bus.channels boardSlug with _ | tx
  · exact (h.insertChannel htx).attach (Function.update_self ..)
  · exact h.attach htx

/-- A channel that is removed has no receivers, as its count is read under the lock. -/
theorem prune (h : bus.Registry) (boardSlug : String) : (bus.prune boardSlug).Registry := by
  unfold EventBus.prune
  split
  case isFalse => exact h
  case isTrue hstale =>
    have hother : ∀ rx ∈ bus.receivers, rx.board ≠ boardSlug := by
      rintro rx hrx rfl
      simp only [EventBus.isStale, h.registered rx hrx, EventBus.receiverCount,
        List.countP_eq_zero, decide_eq_true_eq] at hstale
      exact hstale rx hrx rfl
    refine h.of_kept (fun _ hrx => hrx) (fun b tx hb => ?_)
      (fun rx hrx => Function.update_of_ne (hother rx hrx) ..) rfl
    by_cases hslug : b = boardSlug
    · subst hslug
      simp at hb
    · exact (Function.update_of_ne hslug ..).symm.trans hb

/-- Receivers may be dropped at any time. -/
theorem drop (h : bus.Registry) (gone : Receiver → Bool) : (bus.drop gone).Registry :=
  h.of_kept (fun _ hrx => ((mem_drop bus gone).mp hrx).1) (fun _ _ hb => hb) (fun _ _ => rfl) rfl

end Registry

end Leaderboards.Sse.EventBus
