import Leaderboards.Library.Counting
import Leaderboards.Sse

/-!
# The streaming connection limit

`subscribe` takes a slot with `fetch_add` before it knows that there is one, and gives it back
when the limit was reached, so the counter can be above the limit. What it counts are the guards
and the slots that are still to be given back (`Accounted`); a guard is counted from the
`fetch_add` that found room to the `fetch_sub` of its drop. Any threads that leave the counter
alone may run next to the connections.

The counter is a natural number: every slot belongs to a call or to a guard in memory, so there are
fewer than there are values of a `usize`.

The guard is made after the receiver. A `broadcast_buffer` that `broadcast::channel` does not take
makes `subscribe` panic in between, and the slot is lost (`connection_limit_iff`).
-/

namespace Leaderboards.Sse

open Interaction

/-- `ConnectionGuard::drop`. -/
def dropGuard : Prog Bus Failure Unit := .op (S := Bus) .fetchSub fun _ => .ret ()

/-- A client of the bus: it subscribes, and when it got a guard, it drops it some time later. -/
def connection (limits : Limits) (boardSlug : String) : Prog Bus Failure Unit :=
  subscribe limits boardSlug >>= fun _ => dropGuard

/-- The command is an operation on the connection counter. -/
def BusCmd.Counts : BusCmd → Prop
  | fetchAdd => True
  | fetchSub => True
  | _ => False

/-- The connections, and anything that leaves the counter alone: publishers, dropped receivers. -/
inductive Client (limits : Limits) : Prog Bus Failure Unit → Prop
  | connection (boardSlug : String) : Client limits (connection limits boardSlug)
  | other (p : Prog Bus Failure Unit) (hp : p.Uses fun c => ¬BusCmd.Counts c) : Client limits p

/-! ### The stages of a connection -/

/-- `subscribe` has taken a slot and makes the receiver. -/
def attaching (boardSlug : String) : Prog Bus Failure Unit :=
  .op (S := Bus) (.subscribe boardSlug) fun
    | some _ => dropGuard
    | none => .fail .panic

/-- `subscribe` was over the limit and gives the slot back. -/
def undo : Prog Bus Failure Unit :=
  .op (S := Bus) .fetchSub fun _ =>
    .fail (.error (.serviceUnavailable "streaming connection limit reached"))

/-- Before a thread there is the drop of its guard, perhaps after the rest of `subscribe`. -/
def HoldsGuard (p : Prog Bus Failure Unit) : Prop :=
  p = dropGuard ∨ ∃ boardSlug, p = attaching boardSlug

/-- Where a thread is. -/
inductive Stage (limits : Limits) : Prog Bus Failure Unit → Prop
  | start (boardSlug : String) : Stage limits (connection limits boardSlug)
  | attaching (boardSlug : String) : Stage limits (attaching boardSlug)
  | overLimit : Stage limits undo
  | guarded : Stage limits dropGuard
  | other (p : Prog Bus Failure Unit) (hp : p.Uses fun c => ¬BusCmd.Counts c) : Stage limits p

variable {limits : Limits}

theorem connection_eq (boardSlug : String) : connection limits boardSlug =
    .op (S := Bus) .fetchAdd fun (prev : ℕ) =>
      if limits.maxConnections ≤ prev then undo else attaching boardSlug := by
  refine congrArg (Prog.op (S := Bus) BusCmd.fetchAdd) (funext fun (prev : ℕ) => ?_)
  by_cases hprev : limits.maxConnections ≤ prev
  · simp only [if_pos hprev]
    rfl
  · simp only [if_neg hprev]
    refine congrArg (Prog.op (S := Bus) (BusCmd.subscribe boardSlug)) (funext fun rx => ?_)
    cases rx <;> rfl

/-- The drop of a guard is not the end of a `subscribe` over the limit. -/
theorem not_holdsGuard_undo : ¬HoldsGuard undo := by
  rintro (h | ⟨boardSlug, h⟩)
  · have hrest := congrFun (eq_of_heq (Prog.op.inj h).2) ()
    cases hrest
  · cases (Prog.op.inj h).1

theorem not_holdsGuard_connection (boardSlug : String) :
    ¬HoldsGuard (connection limits boardSlug) := by
  rw [connection_eq]
  rintro (h | ⟨boardSlug', h⟩) <;> cases (Prog.op.inj h).1

theorem connection_ne_undo (boardSlug : String) : connection limits boardSlug ≠ undo := by
  rw [connection_eq]
  intro h
  cases (Prog.op.inj h).1

/-- A thread that leaves the counter alone holds no slot. -/
theorem not_slot_of_uses {p : Prog Bus Failure Unit} (hp : p.Uses fun c => ¬BusCmd.Counts c) :
    ¬HoldsGuard p ∧ p ≠ undo := by
  refine ⟨?_, ?_⟩
  · rintro (rfl | ⟨boardSlug, rfl⟩)
    · exact hp.1 trivial
    · exact (hp.2 (some ⟨0, "", 0, 0⟩)).1 trivial
  · rintro rfl
    exact hp.1 trivial

/-! ### The invariant -/

/-- The live guards. -/
def liveGuards (g : (machine limits).State Failure) : Set Tid := g.among HoldsGuard

/-- The reservations over the limit that are not yet undone. -/
def reservations (g : (machine limits).State Failure) : Set Tid := g.among fun p => p = undo

/-- The counter counts the guards and the reservations, and the guards keep to the limit. -/
structure Accounted (g : (machine limits).State Failure) : Prop where
  stage : ∀ t th, g.thread t = some th → Stage limits th.rest
  counter : (g.shared.bus.activeConnections : ℕ∞) =
    (liveGuards g).encard + (reservations g).encard
  limit : (liveGuards g).encard ≤ limits.maxConnections

/-- A counted slot can be given back. -/
theorem counter_pred {n : ℕ} {slots : ℕ∞} (h : (n : ℕ∞) = slots + 1) :
    ((n - 1 : ℕ) : ℕ∞) = slots := by
  cases slots with
  | top => simp at h
  | coe m =>
    have hn : n = m + 1 := by exact_mod_cast h
    rw [hn, Nat.add_sub_cancel]

/-- A block that is no operation on the counter leaves it alone. -/
theorem Exec.counter {c : BusCmd} {w w' : World} {r : c.Res} (hexec : Exec limits c w r w')
    (hc : ¬c.Counts) : w'.bus.activeConnections = w.bus.activeConnections := by
  cases hexec with
  | fetchAdd => exact absurd trivial hc
  | fetchSub => exact absurd trivial hc
  | subscribe _ boardSlug =>
    simp only [EventBus.subscribe]
    split <;> rfl
  | subscribePanics => rfl
  | publishVersion _ boardSlug event gone =>
    simp only [World.publish, EventBus.drop, EventBus.sendTo]
    split <;> rfl
  | publishScore _ boardSlug event now gone tx htx hnow =>
    simp only [World.publish, EventBus.drop, EventBus.sendTo]
    rw [EventBus.noteScore_eq]
    split <;> rfl
  | noSubscribers => rfl
  | debounced => rfl
  | prune _ boardSlug =>
    simp only [EventBus.prune]
    split <;> rfl
  | drop => rfl

/-! ### Every step -/

section Step

variable {g g' : (machine limits).State Failure} {t : Tid} {th' : (machine limits).Thread Failure}

/-- The thread is as far from the counter as before. -/
theorem Accounted.quiet (h : Accounted g) (hreplaces : Machine.Replaces g g' t th')
    (hcounter : g'.shared.bus.activeConnections = g.shared.bus.activeConnections)
    (hstage : Stage limits th'.rest) (hguards : t ∈ liveGuards g ↔ HoldsGuard th'.rest)
    (hreservations : t ∈ reservations g ↔ th'.rest = undo) : Accounted g' := by
  have hguards' : liveGuards g' = liveGuards g := hreplaces.stays hguards
  have hreservations' : reservations g' = reservations g := hreplaces.stays hreservations
  refine ⟨hreplaces.forall_rest h.stage hstage, ?_, ?_⟩
  · rw [hcounter, hguards', hreservations', h.counter]
  · rw [hguards']
    exact h.limit

/-- `fetch_add` finds room: the thread holds a guard from now on. -/
theorem Accounted.granted (h : Accounted g) (hreplaces : Machine.Replaces g g' t th')
    (hcounter : g'.shared.bus.activeConnections = g.shared.bus.activeConnections + 1)
    (hbefore : t ∉ liveGuards g ∧ t ∉ reservations g) {boardSlug : String}
    (hafter : th'.rest = attaching boardSlug)
    (hroom : g.shared.bus.activeConnections < limits.maxConnections) : Accounted g' := by
  have hguards : (liveGuards g').encard = (liveGuards g).encard + 1 :=
    hreplaces.enters hbefore.1 (.inr ⟨boardSlug, hafter⟩)
  have hnot : th'.rest ≠ undo := by
    rw [hafter]
    intro heq
    cases (Prog.op.inj heq).1
  have hreservations : reservations g' = reservations g :=
    hreplaces.stays (iff_of_false hbefore.2 hnot)
  refine ⟨hreplaces.forall_rest h.stage (hafter ▸ .attaching boardSlug), ?_, ?_⟩
  · rw [hcounter, hguards, hreservations, Nat.cast_add, h.counter, Nat.cast_one, add_right_comm]
  · -- The counter is at least the number of guards.
    have hle : (liveGuards g).encard ≤ g.shared.bus.activeConnections := by
      rw [h.counter]
      exact le_self_add
    rw [hguards]
    exact (add_le_add_left hle 1).trans (by exact_mod_cast hroom)

/-- `fetch_add` is over the limit. -/
theorem Accounted.refused (h : Accounted g) (hreplaces : Machine.Replaces g g' t th')
    (hcounter : g'.shared.bus.activeConnections = g.shared.bus.activeConnections + 1)
    (hbefore : t ∉ liveGuards g ∧ t ∉ reservations g) (hafter : th'.rest = undo) :
    Accounted g' := by
  have hguards : liveGuards g' = liveGuards g :=
    hreplaces.stays (iff_of_false hbefore.1 (hafter ▸ not_holdsGuard_undo))
  have hreservations : (reservations g').encard = (reservations g).encard + 1 :=
    hreplaces.enters hbefore.2 hafter
  refine ⟨hreplaces.forall_rest h.stage (hafter ▸ .overLimit), ?_, ?_⟩
  · rw [hcounter, hguards, hreservations, Nat.cast_add, h.counter, Nat.cast_one, add_assoc]
  · rw [hguards]
    exact h.limit

/-- The end of a thread: it has given its slot back. -/
theorem not_slot_of_end {p : Prog Bus Failure Unit} (hp : p = .ret () ∨ ∃ e, p = .fail e) :
    ¬HoldsGuard p ∧ p ≠ undo := by
  rcases hp with rfl | ⟨e, rfl⟩
  · exact not_slot_of_uses trivial
  · exact not_slot_of_uses trivial

/-- A guard is dropped. -/
theorem Accounted.released (h : Accounted g) (hreplaces : Machine.Replaces g g' t th')
    (hcounter : g'.shared.bus.activeConnections = g.shared.bus.activeConnections - 1)
    (hguard : t ∈ liveGuards g) (hnot : t ∉ reservations g) (hafter : th'.rest = .ret ()) :
    Accounted g' := by
  obtain ⟨hnoGuard, hnoUndo⟩ := not_slot_of_end (.inl hafter)
  have hguards : (liveGuards g).encard = (liveGuards g').encard + 1 :=
    hreplaces.leaves hguard hnoGuard
  have hreservations : reservations g' = reservations g :=
    hreplaces.stays (iff_of_false hnot hnoUndo)
  have hcount := h.counter
  rw [hguards, ← hreservations, add_right_comm] at hcount
  refine ⟨hreplaces.forall_rest h.stage (hafter ▸ .other _ trivial), ?_, ?_⟩
  · rw [hcounter, counter_pred hcount]
  · have hlimit := h.limit
    rw [hguards] at hlimit
    exact le_self_add.trans hlimit

/-- A reservation over the limit is undone. -/
theorem Accounted.undone (h : Accounted g) (hreplaces : Machine.Replaces g g' t th')
    (hcounter : g'.shared.bus.activeConnections = g.shared.bus.activeConnections - 1)
    (hreservation : t ∈ reservations g) (hnot : t ∉ liveGuards g) {e : Failure}
    (hafter : th'.rest = .fail e) : Accounted g' := by
  obtain ⟨hnoGuard, hnoUndo⟩ := not_slot_of_end (.inr ⟨e, hafter⟩)
  have hguards : liveGuards g' = liveGuards g := hreplaces.stays (iff_of_false hnot hnoGuard)
  have hreservations : (reservations g).encard = (reservations g').encard + 1 :=
    hreplaces.leaves hreservation hnoUndo
  have hcount := h.counter
  rw [hreservations, ← hguards, ← add_assoc] at hcount
  refine ⟨hreplaces.forall_rest h.stage (hafter ▸ .other _ trivial), ?_, ?_⟩
  · rw [hcounter, counter_pred hcount]
  · rw [hguards]
    exact h.limit

/-- While a guard is live there is room for one. -/
theorem Accounted.maxConnections_ne_zero (h : Accounted g) (ht : t ∈ liveGuards g) :
    limits.maxConnections ≠ 0 := by
  intro hzero
  have hlimit := h.limit
  rw [hzero] at hlimit
  exact absurd (Set.encard_pos.mpr ⟨t, ht⟩) (not_lt_of_ge hlimit)

/-- **What one step preserves**, when every channel can be made. -/
theorem Accounted.step (hok : limits.BufferOk ∨ limits.maxConnections = 0) (h : Accounted g)
    (hstep : Machine.Step (Client limits) g g') : Accounted g' := by
  cases hstep with
  | call t p hp ht =>
    have hreplaces : Machine.Replaces g (g.setThread t (some ⟨(), p⟩)) t ⟨(), p⟩ := rfl
    have hnone : t ∉ liveGuards g ∧ t ∉ reservations g :=
      ⟨Machine.notMem_among ht, Machine.notMem_among ht⟩
    cases hp with
    | connection boardSlug =>
      exact h.quiet hreplaces rfl (.start boardSlug)
        (iff_of_false hnone.1 (not_holdsGuard_connection boardSlug))
        (iff_of_false hnone.2 (connection_ne_undo boardSlug))
    | other _ hp =>
      exact h.quiet hreplaces rfl (.other p hp)
        (iff_of_false hnone.1 (not_slot_of_uses hp).1)
          (iff_of_false hnone.2 (not_slot_of_uses hp).2)
  | exec t c k hs hs' L r w' ht hothers hexec =>
    have hguard : t ∈ liveGuards g ↔ HoldsGuard (.op c k) := Machine.mem_among ht
    have hreservation : t ∈ reservations g ↔ Prog.op c k = undo := Machine.mem_among ht
    have hreplaces : Machine.Replaces g
      (⟨w', Function.update g.thread t (some ⟨hs', k r⟩)⟩ : (machine limits).State Failure) t
      ⟨hs', k r⟩ := rfl
    have hstage : Stage limits (.op c k) := h.stage t _ ht
    -- The stage of the thread says which command is its next one, and what it is about to hold.
    generalize hp : Prog.op c k = p at hguard hreservation hstage
    cases hstage with
    | start boardSlug =>
      have hneither : t ∉ liveGuards g ∧ t ∉ reservations g :=
        ⟨fun ht => not_holdsGuard_connection boardSlug (hguard.mp ht),
          fun ht => connection_ne_undo boardSlug (hreservation.mp ht)⟩
      rw [connection_eq] at hp
      obtain ⟨rfl, hk⟩ := Prog.op.inj hp
      obtain rfl := eq_of_heq hk
      have hadd : Exec limits .fetchAdd g.shared r w' := hexec
      cases hadd with
      | fetchAdd =>
        by_cases hroom : limits.maxConnections ≤ g.shared.bus.activeConnections
        -- There is no room: the thread only holds the slot that it gives back next.
        · exact h.refused hreplaces rfl hneither (if_pos hroom)
        · exact h.granted hreplaces rfl hneither (if_neg hroom) (Nat.lt_of_not_le hroom)
    | attaching boardSlug =>
      obtain ⟨rfl, hk⟩ := Prog.op.inj hp
      obtain rfl := eq_of_heq hk
      have hattach : Exec limits (.subscribe boardSlug) g.shared r w' := hexec
      have hlive : t ∈ liveGuards g := hguard.mpr (.inr ⟨boardSlug, rfl⟩)
      -- The thread has got a slot, so the limit is not 0 and the channel can be made.
      have hbuffer : limits.BufferOk := hok.resolve_right (h.maxConnections_ne_zero hlive)
      have hcounter := hattach.counter id
      cases hattach with
      | subscribePanics _ _ htx => exact absurd (.inl hbuffer) htx
      | subscribe =>
        exact h.quiet hreplaces hcounter .guarded (iff_of_true hlive (.inl rfl))
          (iff_of_false (fun ht => nomatch (Prog.op.inj (hreservation.mp ht)).1)
            fun heq => not_holdsGuard_undo (.inl heq.symm))
    | overLimit =>
      obtain ⟨rfl, hk⟩ := Prog.op.inj hp
      obtain rfl := eq_of_heq hk
      have hsub : Exec limits .fetchSub g.shared r w' := hexec
      cases hsub with
      | fetchSub =>
        exact h.undone hreplaces rfl (hreservation.mpr rfl)
          (fun ht => not_holdsGuard_undo (hguard.mp ht)) rfl
    | guarded =>
      obtain ⟨rfl, hk⟩ := Prog.op.inj hp
      obtain rfl := eq_of_heq hk
      have hsub : Exec limits .fetchSub g.shared r w' := hexec
      cases hsub with
      | fetchSub =>
        exact h.released hreplaces rfl (hguard.mpr (.inl rfl))
          (fun ht => not_holdsGuard_undo (.inl (hreservation.mp ht).symm)) rfl
    | other _ huses =>
      subst hp
      have hblock : Exec limits c g.shared r w' := hexec
      exact h.quiet hreplaces (hblock.counter huses.1) (.other _ (huses.2 r))
        (iff_of_false (fun ht => (not_slot_of_uses huses).1 (hguard.mp ht))
          (not_slot_of_uses (huses.2 r)).1)
        (iff_of_false (fun ht => (not_slot_of_uses huses).2 (hreservation.mp ht))
          (not_slot_of_uses (huses.2 r)).2)
  | crash t th hc ht => exact hc.elim

end Step

/-- The bus with one thread, which has still to run `p`. -/
def alone (w : World) (p : Prog Bus Failure Unit) : (machine limits).State Failure :=
  ⟨w, Function.update (fun _ => none) 0 (some ⟨(), p⟩)⟩

end Leaderboards.Sse
