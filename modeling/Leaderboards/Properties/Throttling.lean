import Leaderboards.Sse.Locking
import Leaderboards.Sse.Registry

/-!
# Score events are throttled

A publisher that passes the debounce check enters its instant in the last-event table and sends the
event later, and others may pass the check in between. `Throttled` is what the interleaving keeps:
the instants that were sent on a channel, or are still to be sent on it, are pairwise far enough
apart, and none is later than the one in the table. The table loses an instant only together with
its channel, under the write lock, when nobody is between check and `send`.
-/

namespace Leaderboards.Sse.Locking

open Interaction

variable {limits : Limits}

/-- Two instants, in nanoseconds, are at least `debounce_ms` apart. -/
def Apart (limits : Limits) (m n : ℕ) : Prop :=
  m + limits.debounceMs * 1000000 ≤ n ∨ n + limits.debounceMs * 1000000 ≤ m

/-- The instants of two events are apart. -/
def Sent.Apart (limits : Limits) (s s' : Sent) : Prop :=
  ∀ m n, s.instant = some m → s'.instant = some n → Locking.Apart limits m n

/-- The latest instant in the table for a board is at least `n`. -/
def Latest (bus : EventBus) (boardSlug : String) (n : ℕ) : Prop :=
  ∃ last, bus.lastScoreEvent boardSlug = some last ∧ n ≤ last

/-- An event that is held back has an accepted one of its board to blame. -/
def Decision.Justified (limits : Limits) (d : Decision) (before : List Decision) : Prop :=
  d.accepted = false → ∃ a ∈ before, a.board = d.board ∧ a.accepted = true ∧
    (d.now < a.now ∨ a.now ≤ d.now ∧ d.now < a.now + limits.debounceMs * 1000000)

/-- What holds of the bus and of what the threads hold, in every interleaving. -/
structure Throttled (limits : Limits) (w : World) (held : Tid → Option Reading) : Prop where
  registry : w.bus.Registry
  fresh : ∀ tx, w.bus.made ≤ tx → w.log tx = []
  found : ∀ t rd, held t = some rd → w.bus.channels rd.board = some rd.tx
  sent : ∀ tx, (w.log tx).Pairwise (Sent.Apart limits)
  unsent : ∀ t rd n, held t = some rd → rd.noted = some n →
    ∀ s ∈ w.log rd.tx, ∀ m, s.instant = some m → Apart limits m n
  others : ∀ t u rd rd' m n, t ≠ u → held t = some rd → held u = some rd' → rd.tx = rd'.tx →
    rd.noted = some m → rd'.noted = some n → Apart limits m n
  latest : ∀ b tx, w.bus.channels b = some tx → ∀ s ∈ w.log tx, ∀ n, s.instant = some n →
    Latest w.bus b n
  latest_unsent : ∀ t rd n, held t = some rd → rd.noted = some n → Latest w.bus rd.board n
  entered : ∀ b n, w.bus.lastScoreEvent b = some n → ⟨b, n, true⟩ ∈ w.decisions
  justified : ∀ d before, (d :: before) <:+ w.decisions → d.Justified limits before

theorem throttled_initial : Throttled limits {} fun _ => none where
  registry := .initial
  fresh _ _ := rfl
  found _ _ h := nomatch h
  sent _ := .nil
  unsent _ _ _ h := nomatch h
  others _ _ _ _ _ _ _ h := nomatch h
  latest _ _ h := nomatch h
  latest_unsent _ _ _ h := nomatch h
  entered _ _ h := nomatch h
  justified d before h := absurd (List.suffix_nil.mp h) (List.cons_ne_nil d before)

/-! ### The debounce check -/

/-- The check lets through what is far enough after the latest instant. -/
theorem isDebounced_false {bus : EventBus} {boardSlug : String} {now last : ℕ}
    (hd : 0 < limits.debounceMs) (htx : (bus.channels boardSlug).isSome = true)
    (h : bus.isDebounced limits boardSlug now = false)
    (hlast : bus.lastScoreEvent boardSlug = some last) :
    last + limits.debounceMs * 1000000 ≤ now := by
  have hcheck : ¬(now - last) / 1000000 < limits.debounceMs := by
    simpa [EventBus.isDebounced, hd, htx, hlast] using h
  omega

/-- The check holds back what is before the latest instant or not far enough after it. -/
theorem isDebounced_true {bus : EventBus} {boardSlug : String} {now : ℕ}
    (h : bus.isDebounced limits boardSlug now = true) :
    ∃ last, bus.lastScoreEvent boardSlug = some last ∧
      (now < last ∨ last ≤ now ∧ now < last + limits.debounceMs * 1000000) := by
  simp only [EventBus.isDebounced, decide_eq_true_eq] at h
  obtain ⟨hd, -, hlast⟩ := h
  obtain ⟨last, hsome, hcheck⟩ := (Option.any_eq_true _ _).mp hlast
  refine ⟨last, hsome, ?_⟩
  have hlt : (now - last) / 1000000 < limits.debounceMs := by simpa using hcheck
  omega

/-! ### Every block -/

/-- What a thread holds after another one has taken a step. -/
theorem held_update {held : Tid → Option Reading} {t u : Tid} {h' : Option Reading} {rd : Reading}
    (h : Function.update held t h' u = some rd) :
    u = t ∧ h' = some rd ∨ u ≠ t ∧ held u = some rd := by
  by_cases hu : u = t
  · subst hu
    rw [Function.update_self] at h
    exact .inl ⟨rfl, h⟩
  · rw [Function.update_of_ne hu] at h
    exact .inr ⟨hu, h⟩

namespace Throttled

variable {w w' : World} {held : Tid → Option Reading} {t : Tid}

/-- A block that touches neither the channels nor the table nor the log. -/
theorem of_same (h : Throttled limits w held) (hregistry : w'.bus.Registry)
    (hchannels : w'.bus.channels = w.bus.channels) (hmade : w'.bus.made = w.bus.made)
    (hlast : w'.bus.lastScoreEvent = w.bus.lastScoreEvent) (hlog : w'.log = w.log)
    (hdecisions : w'.decisions = w.decisions) : Throttled limits w' held where
  registry := hregistry
  fresh := by rw [hmade, hlog]; exact h.fresh
  found := by rw [hchannels]; exact h.found
  sent := by rw [hlog]; exact h.sent
  unsent := by rw [hlog]; exact h.unsent
  others := h.others
  latest := by
    unfold Latest
    rw [hchannels, hlog, hlast]
    exact h.latest
  latest_unsent := by
    unfold Latest
    rw [hlast]
    exact h.latest_unsent
  entered := by rw [hlast, hdecisions]; exact h.entered
  justified := by rw [hdecisions]; exact h.justified

/-- A thread takes the read lock, or releases it. -/
theorem hold (h : Throttled limits w held) {h' : Option Reading}
    (hfound : ∀ rd, h' = some rd → w.bus.channels rd.board = some rd.tx ∧ rd.noted = none) :
    Throttled limits w (Function.update held t h') where
  registry := h.registry
  fresh := h.fresh
  found u rd hu := by
    rcases held_update hu with ⟨-, hrd⟩ | ⟨-, hu⟩
    · exact (hfound rd hrd).1
    · exact h.found u rd hu
  sent := h.sent
  unsent u rd n hu hn := by
    rcases held_update hu with ⟨-, hrd⟩ | ⟨-, hu⟩
    · cases (hfound rd hrd).2.symm.trans hn
    · exact h.unsent u rd n hu hn
  others u v rd rd' m n huv hu hv htx hm hn := by
    rcases held_update hu with ⟨-, hrd⟩ | ⟨-, hu⟩
    · cases (hfound rd hrd).2.symm.trans hm
    · rcases held_update hv with ⟨-, hrd'⟩ | ⟨-, hv⟩
      · cases (hfound rd' hrd').2.symm.trans hn
      · exact h.others u v rd rd' m n huv hu hv htx hm hn
  latest := h.latest
  latest_unsent u rd n hu hn := by
    rcases held_update hu with ⟨-, hrd⟩ | ⟨-, hu⟩
    · cases (hfound rd hrd).2.symm.trans hn
    · exact h.latest_unsent u rd n hu hn
  entered := h.entered
  justified := h.justified

/-- Two boards of which the publishers have found the same sender are one board. -/
theorem same_board (h : Throttled limits w held) {rd : Reading} (ht : held t = some rd)
    {boardSlug : String} (htx : w.bus.channels boardSlug = some rd.tx) : boardSlug = rd.board :=
  h.registry.one_board boardSlug rd.board rd.tx htx (h.found t rd ht)

/-- **The check holds an event back**: the latest instant, which was accepted, is to blame. -/
theorem refuse (h : Throttled limits w held) {boardSlug : String} {now : ℕ}
    (hnow : w.bus.isDebounced limits boardSlug now = true) :
    Throttled limits (w.refuse boardSlug now) held := by
  refine ⟨h.registry, h.fresh, h.found, h.sent, h.unsent, h.others, h.latest, h.latest_unsent,
    fun b n hb => List.mem_cons_of_mem _ (h.entered b n hb), fun d before hsuffix => ?_⟩
  rcases List.suffix_cons_iff.mp hsuffix with heq | hsuffix
  · obtain ⟨rfl, rfl⟩ := List.cons.inj heq
    intro _
    obtain ⟨last, hlast, hclose⟩ := isDebounced_true hnow
    exact ⟨_, h.entered boardSlug last hlast, rfl, rfl, hclose⟩
  · exact h.justified d before hsuffix

/-- **The check lets an event through**: its instant is far enough after all that were sent or are
still to be sent. -/
theorem accept (hd : 0 < limits.debounceMs) (h : Throttled limits w held) {rd : Reading} {now : ℕ}
    (ht : held t = some rd) (hnow : w.bus.isDebounced limits rd.board now = false) :
    Throttled limits (w.accept limits rd.board now)
      (Function.update held t (some { rd with noted := some now })) := by
  have htx := h.found t rd ht
  have hsome : (w.bus.channels rd.board).isSome = true := by rw [htx]; rfl
  have hbus : w.bus.noteScore limits rd.board now = { w.bus with
      lastScoreEvent := Function.update w.bus.lastScoreEvent rd.board (some now) } :=
    if_pos ⟨hd, hsome⟩
  have hlast : ∀ n, Latest w.bus rd.board n → n + limits.debounceMs * 1000000 ≤ now := by
    rintro n ⟨last, hlast, hle⟩
    have hfar := isDebounced_false hd hsome hnow hlast
    omega
  have hmono : ∀ b n, Latest w.bus b n → Latest (w.accept limits rd.board now).bus b n := by
    intro b n hb
    unfold Latest World.accept
    rw [hbus]
    by_cases hslug : b = rd.board
    · subst hslug
      have hfar := hlast n hb
      exact ⟨now, Function.update_self .., by omega⟩
    · obtain ⟨last, hlast, hle⟩ := hb
      exact ⟨last, (Function.update_of_ne hslug ..).trans hlast, hle⟩
  have hregistry : (w.accept limits rd.board now).bus.Registry := by
    unfold World.accept
    rw [hbus]
    exact ⟨h.registry.registered, h.registry.made, h.registry.one_board⟩
  have hchannels : (w.accept limits rd.board now).bus.channels = w.bus.channels := by
    unfold World.accept
    rw [hbus]
  have hmade : (w.accept limits rd.board now).bus.made = w.bus.made := by
    unfold World.accept
    rw [hbus]
  -- The instants that are still to be sent on the channel are those of the board.
  have hothers : ∀ u rd' n, held u = some rd' → rd'.tx = rd.tx → rd'.noted = some n →
      n + limits.debounceMs * 1000000 ≤ now := by
    intro u rd' n hu htx' hn
    have hboard := h.same_board ht ((h.found u rd' hu).trans (congrArg some htx'))
    exact hlast n (hboard ▸ h.latest_unsent u rd' n hu hn)
  refine ⟨hregistry, by rw [hmade]; exact h.fresh, ?_, h.sent, ?_, ?_, ?_, ?_, ?_, ?_⟩
  · intro u rd' hu
    rw [hchannels]
    rcases held_update hu with ⟨-, hrd⟩ | ⟨-, hu⟩
    · obtain rfl := Option.some.inj hrd
      exact htx
    · exact h.found u rd' hu
  · intro u rd' n hu hn s hs m hm
    rcases held_update hu with ⟨-, hrd⟩ | ⟨-, hu⟩
    · obtain rfl := Option.some.inj hrd
      obtain rfl := Option.some.inj hn
      exact .inl (hlast m (h.latest rd.board rd.tx htx s hs m hm))
    · exact h.unsent u rd' n hu hn s hs m hm
  · intro u v rd₁ rd₂ m n huv hu hv hsame hm hn
    rcases held_update hu with ⟨rfl, hrd₁⟩ | ⟨-, hu⟩
    · obtain rfl := Option.some.inj hrd₁
      obtain rfl := Option.some.inj hm
      rcases held_update hv with ⟨hvt, -⟩ | ⟨-, hv⟩
      · exact absurd hvt.symm huv
      · exact .inr (hothers v rd₂ n hv hsame.symm hn)
    · rcases held_update hv with ⟨-, hrd₂⟩ | ⟨-, hv⟩
      · obtain rfl := Option.some.inj hrd₂
        obtain rfl := Option.some.inj hn
        exact .inl (hothers u rd₁ m hu hsame hm)
      · exact h.others u v rd₁ rd₂ m n huv hu hv hsame hm hn
  · intro b tx hb s hs n hn
    rw [hchannels] at hb
    exact hmono b n (h.latest b tx hb s hs n hn)
  · intro u rd' n hu hn
    rcases held_update hu with ⟨-, hrd⟩ | ⟨-, hu⟩
    · obtain rfl := Option.some.inj hrd
      obtain rfl := Option.some.inj hn
      unfold Latest World.accept
      rw [hbus]
      exact ⟨now, Function.update_self .., le_rfl⟩
    · exact hmono _ n (h.latest_unsent u rd' n hu hn)
  · intro b n hb
    change (w.bus.noteScore limits rd.board now).lastScoreEvent b = some n at hb
    rw [hbus] at hb
    change Function.update w.bus.lastScoreEvent rd.board (some now) b = some n at hb
    by_cases hslug : b = rd.board
    · rw [hslug, Function.update_self] at hb
      obtain rfl := Option.some.inj hb
      rw [hslug]
      exact List.mem_cons_self
    · rw [Function.update_of_ne hslug] at hb
      exact List.mem_cons_of_mem _ (h.entered b n hb)
  · intro d before hsuffix
    rcases List.suffix_cons_iff.mp hsuffix with heq | hsuffix
    · obtain ⟨rfl, rfl⟩ := List.cons.inj heq
      intro haccepted
      cases haccepted
    · exact h.justified d before hsuffix

/-- **The publisher sends**: what was still to be sent on the channel has now been sent. -/
theorem send (h : Throttled limits w held) {rd : Reading} (ht : held t = some rd)
    (event : BoardEvent) : Throttled limits (w.send rd event)
      (Function.update held t (some { rd with noted := none })) := by
  have htx := h.found t rd ht
  have hlog : ∀ tx, tx ≠ rd.tx → (w.send rd event).log tx = w.log tx := fun tx hne =>
    Function.update_of_ne hne ..
  have hself : (w.send rd event).log rd.tx = w.log rd.tx ++ [⟨event, rd.noted⟩] :=
    Function.update_self ..
  -- An event on a channel was there before, or is the one that is sent.
  have hmem : ∀ tx s, s ∈ (w.send rd event).log tx →
      s ∈ w.log tx ∨ tx = rd.tx ∧ s.instant = rd.noted := by
    intro tx s hs
    by_cases hne : tx = rd.tx
    · rw [hne, hself, List.mem_append, List.mem_singleton] at hs
      rcases hs with hs | rfl
      · exact .inl (hne ▸ hs)
      · exact .inr ⟨hne, rfl⟩
    · rw [hlog tx hne] at hs
      exact .inl hs
  refine ⟨⟨h.registry.registered, h.registry.made, h.registry.one_board⟩, fun tx hnew => ?_, ?_,
    fun tx => ?_, ?_, ?_, ?_, ?_, h.entered, h.justified⟩
  · have hmade := h.registry.made rd.board rd.tx htx
    have hle : w.bus.made ≤ tx := hnew
    rw [hlog tx (hmade.trans_le hle).ne']
    exact h.fresh tx hle
  · intro u rd' hu
    rcases held_update hu with ⟨-, hrd⟩ | ⟨-, hu⟩
    · obtain rfl := Option.some.inj hrd
      exact htx
    · exact h.found u rd' hu
  · by_cases hne : tx = rd.tx
    · rw [hne, hself, List.pairwise_append]
      refine ⟨h.sent rd.tx, List.pairwise_singleton _ _, fun s hs s' hs' m n hm hn => ?_⟩
      obtain rfl := List.mem_singleton.mp hs'
      exact h.unsent t rd n ht hn s hs m hm
    · rw [hlog tx hne]
      exact h.sent tx
  · intro u rd' n hu hn s hs m hm
    rcases held_update hu with ⟨-, hrd⟩ | ⟨hut, hu⟩
    · obtain rfl := Option.some.inj hrd
      cases hn
    · rcases hmem _ s hs with hs | ⟨hsame, hinstant⟩
      · exact h.unsent u rd' n hu hn s hs m hm
      · exact h.others t u rd rd' m n hut.symm ht hu hsame.symm (hinstant ▸ hm) hn
  · intro u v rd₁ rd₂ m n huv hu hv hsame hm hn
    rcases held_update hu with ⟨-, hrd₁⟩ | ⟨-, hu⟩
    · obtain rfl := Option.some.inj hrd₁
      cases hm
    · rcases held_update hv with ⟨-, hrd₂⟩ | ⟨-, hv⟩
      · obtain rfl := Option.some.inj hrd₂
        cases hn
      · exact h.others u v rd₁ rd₂ m n huv hu hv hsame hm hn
  · intro b tx hb s hs n hn
    rcases hmem tx s hs with hs | ⟨rfl, hinstant⟩
    · exact h.latest b tx hb s hs n hn
    · have hboard := h.same_board ht hb
      exact hboard ▸ h.latest_unsent t rd n ht (hinstant ▸ hn)
  · intro u rd' n hu hn
    rcases held_update hu with ⟨-, hrd⟩ | ⟨-, hu⟩
    · obtain rfl := Option.some.inj hrd
      cases hn
    · exact h.latest_unsent u rd' n hu hn

/-- **A receiver is given out** while nobody reads; a new channel has an empty log. -/
theorem subscribe (h : Throttled limits w held) (hnone : ∀ u, held u = none)
    (boardSlug : String) :
    Throttled limits { w with bus := (w.bus.subscribe boardSlug).2 } held := by
  have habsurd : ∀ u rd, held u = some rd → False := fun u rd hu => nomatch (hnone u).symm.trans hu
  have hregistry := h.registry.subscribe boardSlug
  have hlast : (w.bus.subscribe boardSlug).2.lastScoreEvent = w.bus.lastScoreEvent := by
    unfold EventBus.subscribe
    split <;> rfl
  have hmade : w.bus.made ≤ (w.bus.subscribe boardSlug).2.made := by
    unfold EventBus.subscribe
    split
    · exact le_rfl
    · exact Nat.le_succ _
  -- A channel that is made now has a number that no event was sent to.
  have hchannels : ∀ b tx, (w.bus.subscribe boardSlug).2.channels b = some tx →
      w.bus.channels b = some tx ∨ w.bus.made ≤ tx := by
    intro b tx hb
    unfold EventBus.subscribe at hb
    split at hb
    · exact .inl hb
    · change Function.update w.bus.channels boardSlug (some w.bus.made) b = some tx at hb
      by_cases hslug : b = boardSlug
      · rw [hslug, Function.update_self] at hb
        exact .inr (Option.some.inj hb).le
      · rw [Function.update_of_ne hslug] at hb
        exact .inl hb
  refine ⟨hregistry, fun tx hnew => h.fresh tx (hmade.trans hnew),
    fun u rd hu => (habsurd u rd hu).elim, h.sent, fun u rd _ hu => (habsurd u rd hu).elim,
    fun u _ rd _ _ _ _ hu => (habsurd u rd hu).elim, fun b tx hb s hs n hn => ?_,
    fun u rd _ hu => (habsurd u rd hu).elim, fun b n hb => ?_, h.justified⟩
  · unfold Latest
    rw [hlast]
    rcases hchannels b tx hb with hold | hnew
    · exact h.latest b tx hold s hs n hn
    · rw [h.fresh tx hnew] at hs
      cases hs
  · exact h.entered b n (hlast ▸ hb)

/-- **A channel is removed with its instant**, while nobody reads. -/
theorem prune (h : Throttled limits w held) (hnone : ∀ u, held u = none) (boardSlug : String) :
    Throttled limits { w with bus := w.bus.prune boardSlug } held := by
  have habsurd : ∀ u rd, held u = some rd → False := fun u rd hu => nomatch (hnone u).symm.trans hu
  have hregistry := h.registry.prune boardSlug
  have hmade : (w.bus.prune boardSlug).made = w.bus.made := by
    unfold EventBus.prune
    split <;> rfl
  -- A channel that stays is the channel of another board, or nothing was removed.
  have hchannels : ∀ b tx, (w.bus.prune boardSlug).channels b = some tx →
      w.bus.channels b = some tx ∧
        (w.bus.prune boardSlug).lastScoreEvent b = w.bus.lastScoreEvent b := by
    intro b tx hb
    unfold EventBus.prune at hb ⊢
    split at hb
    · rename_i hstale
      rw [if_pos hstale]
      by_cases hslug : b = boardSlug
      · subst hslug
        cases (Function.update_self ..).symm.trans hb
      · exact ⟨(Function.update_of_ne hslug ..).symm.trans hb, Function.update_of_ne hslug ..⟩
    · rename_i hlive
      rw [if_neg hlive]
      exact ⟨hb, rfl⟩
  have hlast : ∀ b n, (w.bus.prune boardSlug).lastScoreEvent b = some n →
      w.bus.lastScoreEvent b = some n := by
    intro b n hb
    unfold EventBus.prune at hb
    split at hb
    · by_cases hslug : b = boardSlug
      · subst hslug
        cases (Function.update_self ..).symm.trans hb
      · exact (Function.update_of_ne hslug ..).symm.trans hb
    · exact hb
  refine ⟨hregistry, fun tx hnew => h.fresh tx (hmade ▸ hnew),
    fun u rd hu => (habsurd u rd hu).elim, h.sent, fun u rd _ hu => (habsurd u rd hu).elim,
    fun u _ rd _ _ _ _ hu => (habsurd u rd hu).elim, fun b tx hb s hs n hn => ?_,
    fun u rd _ hu => (habsurd u rd hu).elim, fun b n hb => h.entered b n (hlast b n hb),
    h.justified⟩
  obtain ⟨hold, hkept⟩ := hchannels b tx hb
  unfold Latest
  rw [hkept]
  exact h.latest b tx hold s hs n hn

end Throttled

/-- **Every command keeps the throttling.** -/
theorem Exec.throttled (hd : 0 < limits.debounceMs) {c : LockCmd} {w w' : World}
    {held : Tid → Option Reading} {t : Tid} {access : Access} {r : c.Res} {h' : Option Reading}
    (hexec : Exec limits c w (held t) access r w' h') (h : Throttled limits w held)
    (hothers : access = .exclusive → ∀ u, u ≠ t → held u = none) :
    Throttled limits w' (Function.update held t h') := by
  have hnone : access = .exclusive → held t = none → ∀ u, held u = none := by
    intro haccess ht u
    by_cases hu : u = t
    · rw [hu, ht]
    · exact hothers haccess u hu
  -- Which reading the thread holds decides what a command may do; other threads hold theirs on.
  generalize hh : held t = h₀ at hexec
  have hsame : h₀ = h' → Function.update held t h' = held := by
    rintro rfl
    rw [← hh, Function.update_eq_self]
  cases hexec with
  | fetchAdd =>
    rw [hsame rfl]
    exact h.of_same ⟨h.registry.registered, h.registry.made, h.registry.one_board⟩
      rfl rfl rfl rfl rfl
  | fetchSub =>
    rw [hsame rfl]
    exact h.of_same ⟨h.registry.registered, h.registry.made, h.registry.one_board⟩
      rfl rfl rfl rfl rfl
  | found _ boardSlug tx htx =>
    refine h.hold fun rd hrd => ?_
    obtain rfl := Option.some.inj hrd
    exact ⟨htx, rfl⟩
  | notFound =>
    rw [hsame rfl]
    exact h
  | now =>
    rw [hsame rfl]
    exact h.of_same h.registry rfl rfl rfl rfl rfl
  | noted _ rd now hnow => exact h.accept hd hh hnow
  | debounced _ rd now hnow =>
    rw [hsame rfl]
    exact h.refuse hnow
  | send _ rd event => exact h.send hh event
  | receiverCount =>
    rw [hsame rfl]
    exact h
  | unlock => exact h.hold fun _ hrd => nomatch hrd
  | subscribe _ boardSlug =>
    rw [hsame rfl]
    exact h.subscribe (hnone rfl hh) boardSlug
  | subscribePanics =>
    rw [hsame rfl]
    exact h
  | prune _ boardSlug =>
    rw [hsame rfl]
    exact h.prune (hnone rfl hh) boardSlug
  | drop _ _ rx hrx =>
    rw [hsame rfl]
    exact h.of_same (h.registry.drop _) rfl rfl rfl rfl rfl

/-! ### Score events have instants -/

/-- Whether a thread has entered an instant after a command, if it had (or had not) before. -/
def LockCmd.notes : (c : LockCmd) → c.Res → Bool → Bool
  | .note _, sends, noted => noted || sends
  | .lookup _, _, _ => false
  | .send _, _, _ => false
  | .unlock, _, _ => false
  | _, _, noted => noted

/-- The program sends score events only with an instant entered. -/
def Stamped : Bool → Prog Locks Failure Unit → Prop
  | _, .ret _ => True
  | _, .fail _ => True
  | noted, .op c k => (∀ entrySlug entryName score,
      c = .send (.scoreUpdated entrySlug entryName score) → noted = true) ∧
      ∀ r, Stamped (c.notes r noted) (k r)

/-- Whether an instant is entered under the lock of a thread. -/
def hasNoted (h : Option Reading) : Bool := h.any fun rd => rd.noted.isSome

theorem Exec.hasNoted {c : LockCmd} {w w' : World} {h h' : Option Reading} {access : Access}
    {r : c.Res} (hexec : Exec limits c w h access r w' h') :
    hasNoted h' = c.notes r (hasNoted h) := by
  cases hexec with
  | noted => exact (Bool.or_true _).symm
  | debounced => exact (Bool.or_false _).symm
  | _ => rfl

theorem stamped_deliver (boardSlug : String) (event : BoardEvent) {noted : Bool}
    (h : ∀ entrySlug entryName score, event = .scoreUpdated entrySlug entryName score →
      noted = true) : Stamped noted (deliver boardSlug event) := by
  have hprune : ∀ noted, Stamped noted (pruneChannel boardSlug) := fun _ =>
    ⟨fun _ _ _ heq => (nomatch heq), fun _ => trivial⟩
  refine ⟨fun a b c heq => h a b c (LockCmd.send.inj heq), fun _ =>
    ⟨fun _ _ _ heq => (nomatch heq), fun (receiverCount : ℕ) =>
      ⟨fun _ _ _ heq => (nomatch heq), fun _ => ?_⟩⟩⟩
  change Stamped false (if receiverCount = 0 then pruneChannel boardSlug else .ret ())
  split
  · exact hprune _
  · trivial

/-- **Every call stamps its score events.** -/
theorem stamped_call (hd : 0 < limits.debounceMs) {p : Prog Locks Failure Unit}
    (hp : Call limits p) : Stamped false p := by
  have hother : ∀ {c : LockCmd}, (∀ event, c ≠ .send event) → ∀ entrySlug entryName score,
      c = .send (.scoreUpdated entrySlug entryName score) → false = true := fun hc _ _ _ heq =>
    absurd heq (hc _)
  cases hp with
  | client boardSlug =>
    refine ⟨hother (by simp), fun (prev : ℕ) => ?_⟩
    dsimp only [Prog.bind]
    split
    · exact ⟨hother (by simp), fun _ => trivial⟩
    · refine ⟨hother (by simp), fun (rx? : Option Receiver) => ?_⟩
      cases rx? with
      | none => trivial
      | some rx => exact ⟨hother (by simp), fun _ => ⟨hother (by simp), fun _ => trivial⟩⟩
  | publishVersion boardSlug versionNumber note =>
    refine ⟨hother (by simp), fun (found : Bool) => ?_⟩
    cases found with
    | false => trivial
    | true => exact stamped_deliver boardSlug _ (by simp)
  | publishScore boardSlug entrySlug entryName score =>
    refine ⟨hother (by simp), fun (found : Bool) => ?_⟩
    cases found with
    | false => trivial
    | true =>
      have hdeliver : ((deliver boardSlug (.scoreUpdated entrySlug entryName score) >>= fun _ =>
          pure true) >>= fun _ => .ret () : Prog Locks Failure Unit) =
          deliver boardSlug (.scoreUpdated entrySlug entryName score) :=
        (Prog.bind_assoc ..).trans (Prog.bind_ret _)
      dsimp only [Prog.bind]
      rw [if_neg (by simp), if_pos hd]
      refine ⟨hother (by simp), fun now => ⟨hother (by simp), fun (sends : Bool) => ?_⟩⟩
      cases sends with
      | false => exact ⟨hother (by simp), fun _ => trivial⟩
      | true =>
        have hstamped := stamped_deliver boardSlug (.scoreUpdated entrySlug entryName score)
          fun _ _ _ _ => rfl
        rw [← hdeliver] at hstamped
        exact hstamped

/-! ### Every interleaving -/

/-- The event is a `score.updated` event. -/
def Sent.IsScore (s : Sent) : Prop :=
  ∃ entrySlug entryName score, s.event = .scoreUpdated entrySlug entryName score

/-- What every step keeps. -/
structure Kept (g : (machine limits).State Failure) : Prop where
  throttled : Throttled limits g.shared g.session
  stamped : ∀ t th, g.thread t = some th → Stamped (hasNoted th.session) th.rest
  timed : ∀ tx, ∀ s ∈ g.shared.log tx, s.IsScore → ∃ n, s.instant = some n

theorem kept_initial : Kept (Machine.quiet (machine limits) {}) where
  throttled := throttled_initial
  stamped _ _ ht := nomatch ht
  timed _ _ hs := nomatch hs

/-- A command logs a score event only with an instant. -/
theorem Exec.timed {c : LockCmd} {w w' : World} {h h' : Option Reading} {access : Access}
    {r : c.Res} (hexec : Exec limits c w h access r w' h')
    (hstamped : ∀ entrySlug entryName score,
      c = .send (.scoreUpdated entrySlug entryName score) → Locking.hasNoted h = true)
    (htimed : ∀ tx, ∀ s ∈ w.log tx, s.IsScore → ∃ n, s.instant = some n) :
    ∀ tx, ∀ s ∈ w'.log tx, s.IsScore → ∃ n, s.instant = some n := by
  cases hexec with
  | send _ rd event =>
    intro tx s hs hscore
    by_cases htx : tx = rd.tx
    · subst htx
      change s ∈ Function.update w.log rd.tx _ rd.tx at hs
      rw [Function.update_self, List.mem_append, List.mem_singleton] at hs
      rcases hs with hs | rfl
      · exact htimed rd.tx s hs hscore
      · obtain ⟨entrySlug, entryName, score, hevent⟩ := hscore
        exact Option.isSome_iff_exists.mp
          (hstamped entrySlug entryName score (congrArg LockCmd.send hevent))
    · change s ∈ Function.update w.log rd.tx _ tx at hs
      rw [Function.update_of_ne htx] at hs
      exact htimed tx s hs hscore
  | _ => exact htimed

/-- **What one step keeps.** -/
theorem Kept.step (hd : 0 < limits.debounceMs) {g g' : (machine limits).State Failure} (h : Kept g)
    (hstep : Machine.Step (Call limits) g g') : Kept g' := by
  cases hstep with
  | call t p hp ht =>
    refine ⟨?_, fun u th hu => ?_, h.timed⟩
    · rw [Machine.State.session_call ht]
      exact h.throttled
    · by_cases hut : u = t
      · subst hut
        obtain rfl := Option.some.inj ((g.setThread_self u _).symm.trans hu)
        exact stamped_call hd hp
      · exact h.stamped u th ((g.setThread_of_ne _ hut).symm.trans hu)
  | exec t c k hs hs' access r w' ht hothers hexec =>
    have hblock : Exec limits c g.shared hs access r w' hs' := hexec
    have hself : g.session t = hs := Machine.State.session_of_thread ht
    obtain ⟨hscore, hrest⟩ := h.stamped t _ ht
    refine ⟨?_, fun u th hu => ?_, hblock.timed hscore h.timed⟩
    · rw [g.session_exec]
      -- The write lock is held alone: a thread with a reading would hold the lock, too.
      refine Exec.throttled hd (hself.symm ▸ hblock) h.throttled fun haccess u hu => ?_
      rcases hthread : g.thread u with _ | th
      · exact Machine.State.session_of_none hthread
      · exact (Machine.State.session_of_thread hthread).trans (hothers u th hu hthread haccess)
    · by_cases hut : u = t
      · subst hut
        obtain rfl := Option.some.inj ((Function.update_self u _ g.thread).symm.trans hu)
        change Stamped (hasNoted hs') (k r)
        rw [hblock.hasNoted]
        exact hrest r
      · exact h.stamped u th ((Function.update_of_ne hut ..).symm.trans hu)
  | crash t th hc ht => exact hc.elim

theorem kept_reachable (hd : 0 < limits.debounceMs) {g : (machine limits).State Failure}
    (hrun : Machine.Run (Call limits) (Machine.quiet (machine limits) {}) g) : Kept g := by
  induction hrun with
  | refl => exact kept_initial
  | tail _ hstep ih => exact ih.step hd hstep

/-- **Score events are throttled for every subscriber.** In every state that any interleaving
reaches, a live receiver is on the channel that is registered for its board, and any two
`score.updated` events that were sent on the channel have instants at least `debounce_ms` apart.
And `publish_score` returns false only when the debounce check has held its event back, and
whatever the check has held back, it had accepted an event of the same board with an instant that
is later or less than `debounce_ms` earlier. -/
theorem score_events_throttled (hd : 0 < limits.debounceMs) {g : (machine limits).State Failure}
    (hrun : Machine.Run (Call limits) (Machine.quiet (machine limits) {}) g) :
    (∀ rx ∈ g.shared.bus.receivers, g.shared.bus.channels rx.board = some rx.channel ∧
      (g.shared.log rx.channel).Pairwise fun s s' => s.IsScore → s'.IsScore →
        ∃ m n, s.instant = some m ∧ s'.instant = some n ∧ Apart limits m n) ∧
    (∀ boardSlug entrySlug entryName score,
      ¬(publishScore limits boardSlug entrySlug entryName score).ReturnsAmong
        LockCmd.passes false) ∧
    ∀ d before, (d :: before) <:+ g.shared.decisions → d.Justified limits before := by
  have h := kept_reachable hd hrun
  refine ⟨fun rx hrx => ⟨h.throttled.registry.registered rx hrx, ?_⟩,
    publishScore_returns_false limits, h.throttled.justified⟩
  have hmem := h.timed rx.channel
  refine (h.throttled.sent rx.channel).imp_of_mem fun {s s'} hs hs' hapart hscore hscore' => ?_
  obtain ⟨m, hm⟩ := hmem s hs hscore
  obtain ⟨n, hn⟩ := hmem s' hs' hscore'
  exact ⟨m, n, hm, hn, hapart m n hm hn⟩

/-- A second score comes too early and is held back. -/
theorem score_events_throttled_run : ∃ g : (machine { debounceMs := 1 }).State Failure,
    Machine.Run (Call { debounceMs := 1 }) (Machine.quiet (machine { debounceMs := 1 }) {}) g ∧
      (∃ rx ∈ g.shared.bus.receivers, g.shared.bus.channels "b" = some rx.channel) ∧
      ∃ d before, g.shared.decisions = d :: before ∧ d.accepted = false ∧
        d.Justified { debounceMs := 1 } before := by
  -- A client takes a receiver; then two scores come at the times 0 and 1.
  have hsubscribed : ∃ g : (machine { debounceMs := 1 }).State Failure,
      Machine.Run (Call { debounceMs := 1 }) (Machine.quiet (machine { debounceMs := 1 }) {}) g ∧
        g.thread 1 = none ∧ g.thread 2 = none ∧
        g.shared = { bus := (({ activeConnections := 1 } : EventBus).subscribe "b").2 } := by
    refine ⟨_, ((Relation.ReflTransGen.refl.tail (.call _ 0 _ (.client "b") rfl)).tail
      (exec_step 0 rfl (.fetchAdd _ _) nofun)).tail
      (exec_step 0 rfl (.subscribe _ "b" (.inl (by decide))) fun _ u hu => ?_), rfl, rfl, rfl⟩
    exact (Function.update_of_ne hu ..).trans (Function.update_of_ne hu ..)
  obtain ⟨g, hrun, h₁, h₂, hshared⟩ := hsubscribed
  obtain ⟨w, threads⟩ := g
  obtain rfl : w = _ := hshared
  have hscored : ∃ g : (machine { debounceMs := 1 }).State Failure,
      Machine.Run (Call { debounceMs := 1 }) (Machine.quiet (machine { debounceMs := 1 }) {}) g ∧
        g.shared.bus.receivers = [⟨0, "b", 0, 0⟩] ∧
        g.shared.decisions = [⟨"b", 1, false⟩, ⟨"b", 0, true⟩] :=
    ⟨_, (((((((hrun.tail (.call _ 1 _ (.publishScore "b" "e" "E" ⟨1⟩) h₁)).tail
      (exec_step 1 rfl (.found _ "b" 0 rfl) nofun)).tail
      (exec_step 1 rfl (.now _ _ 0 le_rfl) nofun)).tail
      (exec_step 1 rfl (.noted _ _ 0 rfl) nofun)).tail
      (.call _ 2 _ (.publishScore "b" "e" "E" ⟨2⟩) h₂)).tail
      (exec_step 2 rfl (.found _ "b" 0 rfl) nofun)).tail
      (exec_step 2 rfl (.now _ _ 1 (Nat.zero_le 1)) nofun)).tail
      (exec_step 2 rfl (.debounced _ _ 1 rfl) nofun), rfl, rfl⟩
  obtain ⟨g, hrun', hreceivers, hdecisions⟩ := hscored
  obtain ⟨hreceived, -, hjustified⟩ := score_events_throttled Nat.one_pos hrun'
  have hrx : (⟨0, "b", 0, 0⟩ : Receiver) ∈ g.shared.bus.receivers := by
    rw [hreceivers]
    exact List.mem_cons_self
  exact ⟨g, hrun', ⟨_, hrx, (hreceived _ hrx).1⟩, _, _, hdecisions, rfl,
    hjustified _ _ (hdecisions ▸ List.suffix_rfl)⟩

end Leaderboards.Sse.Locking
