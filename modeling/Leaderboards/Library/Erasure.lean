import Leaderboards.Library.Trace

/-!
# Runs without their onlookers

Some requests only look: what they do to the shared state makes no difference to anybody else.
`Onlooking` says so of commands, through a relation `Ahead` between the shared state and one in
which some of these commands were not executed.

**`Trace.erase`**: a run is still a run when the onlookers among its requests are erased from it.
The other requests execute the same commands in the same order, and get the same answers.
-/

namespace Interaction

variable {S : Signature} {ε R : Type}

namespace Event

/-- The request that an event belongs to. -/
def request : Event S R → Option R
  | .call _ r => some r
  | .exec _ r _ _ => r
  | .crash _ => none

end Event

namespace Machine

variable {M : Machine S}

/-- The events of the requests that are kept. -/
def eventsOf (keep : R → Bool) (es : List (Event S R)) : List (Event S R) :=
  es.filter fun e => e.request.any keep

/-- Commands that make no difference to others. -/
structure Onlooking (M : Machine S) where
  /-- The commands that only look. -/
  Looks : S.Cmd → Prop
  /-- The sessions in which they do. -/
  Calm : M.Session → Prop
  /-- The first state has been looked at more often than the second. -/
  Ahead : M.Shared → M.Shared → Prop
  idle : Calm M.idle
  look : ∀ {t c sh h L r sh' h' sh₀}, Looks c → Calm h → M.exec t c sh h L r sh' h' →
    Ahead sh sh₀ → Calm h' ∧ Ahead sh' sh₀
  follow : ∀ {t c sh h L r sh' h' sh₀}, M.exec t c sh h L r sh' h' → Ahead sh sh₀ →
    ∃ sh₀', M.exec t c sh₀ h L r sh₀' h' ∧ Ahead sh' sh₀'

namespace Onlooking

variable (O : M.Onlooking) (keep : R → Bool)

/-- How a thread of a run is found in the run without the onlookers: there, or not at all. -/
def Follows (th : M.Thread ε) (r : R) (who₀ : Option R) : Option (M.Thread ε) → Prop
  | some th₀ => th₀ = th ∧ keep r = true ∧ who₀ = some r
  | none => keep r = false ∧ O.Calm th.session ∧ th.rest.Uses O.Looks

/-- A state of a run beside the state of the run without the onlookers. -/
structure Erases (who who₀ : Tid → Option R) (g g₀ : M.State ε) : Prop where
  shared : O.Ahead g.shared g₀.shared
  some : ∀ t th, g.thread t = some th →
    ∃ r, who t = some r ∧ O.Follows keep th r (who₀ t) (g₀.thread t)
  none : ∀ t, g.thread t = none → g₀.thread t = none

variable {O keep} {who who₀ : Tid → Option R} {g g₀ : M.State ε}

/-- The threads of the run without the onlookers are threads of the run. -/
theorem Erases.thread (h : O.Erases keep who who₀ g g₀) {t : Tid} {th : M.Thread ε}
    (ht : g₀.thread t = Option.some th) : g.thread t = Option.some th := by
  rcases hg : g.thread t with _ | th'
  · rw [h.none t hg] at ht
    cases ht
  · obtain ⟨r, -, hfollows⟩ := h.some t th' hg
    rw [ht] at hfollows
    rw [hfollows.1]

/-- A thread is replaced, in both runs. -/
theorem Erases.update (h : O.Erases keep who who₀ g g₀) (t : Tid) (th : M.Thread ε)
    (r r₀ : Option R)
    (th₀ : Option (M.Thread ε)) {sh sh₀ : M.Shared} (hshared : O.Ahead sh sh₀)
    (hself : ∃ r', r = Option.some r' ∧ O.Follows keep th r' r₀ th₀) :
    O.Erases keep (Function.update who t r) (Function.update who₀ t r₀)
      ⟨sh, Function.update g.thread t (Option.some th)⟩ ⟨sh₀, Function.update g₀.thread t th₀⟩ where
  shared := hshared
  some u thu hu := by
    by_cases hut : u = t
    · subst hut
      simp only [Function.update_self] at hu ⊢
      obtain rfl := Option.some.inj hu
      exact hself
    · simp only [Function.update_of_ne hut] at hu ⊢
      exact h.some u thu hu
  none u hu := by
    by_cases hut : u = t
    · subst hut
      simp only [Function.update_self] at hu
      cases hu
    · simp only [Function.update_of_ne hut] at hu ⊢
      exact h.none u hu

/-- A thread disappears, in both runs. -/
theorem Erases.remove (h : O.Erases keep who who₀ g g₀) (t : Tid) :
    O.Erases keep who who₀ (g.setThread t Option.none) (g₀.setThread t Option.none) where
  shared := h.shared
  some u thu hu := by
    have hut : u ≠ t := by
      rintro rfl
      cases (g.setThread_self u _).symm.trans hu
    rw [g₀.setThread_of_ne _ hut]
    exact h.some u thu ((g.setThread_of_ne _ hut).symm.trans hu)
  none u hu := by
    by_cases hut : u = t
    · subst hut
      exact g₀.setThread_self u _
    · rw [g₀.setThread_of_ne _ hut]
      exact h.none u ((g.setThread_of_ne _ hut).symm.trans hu)

end Onlooking

open Onlooking

variable {handler : R → Prog S ε Unit} {allowed : R → Prop} {keep : R → Bool} {sh : M.Shared}
  {es : List (Event S R)} {who : Tid → Option R} {g : M.State ε}

theorem eventsOf_concat (es : List (Event S R)) (e : Event S R) : eventsOf keep (es ++ [e]) =
    eventsOf keep es ++ if e.request.any keep = true then [e] else [] := by
  unfold eventsOf
  rw [List.filter_append]
  split <;> simp_all

/-- **A run is still a run without its onlookers**: the requests that are kept execute the same
commands with the same answers, and the commands of the others only looked. -/
theorem Trace.erase (O : M.Onlooking) (hself : O.Ahead sh sh)
    (hlooks : ∀ r, allowed r → keep r = false → (handler r).Uses O.Looks)
    (h : Trace handler allowed (quiet M sh) es who g) :
    (∃ es₀ who₀ g₀, Trace handler (fun r => allowed r ∧ keep r = true) (quiet M sh) es₀ who₀ g₀ ∧
      eventsOf keep es₀ = eventsOf keep es ∧ O.Erases keep who who₀ g g₀) ∧
    ∀ t r c a, .exec t (some r) c a ∈ es → keep r = false → O.Looks c := by
  induction h with
  | start =>
    refine ⟨⟨[], _, _, .start, rfl, hself, fun t th ht => ?_, fun t _ => rfl⟩, fun t r c a he => ?_⟩
    · cases ht
    · cases he
  | @call es who g t r h hr ht ih =>
    obtain ⟨⟨es₀, who₀, g₀, h₀, hevents, herases⟩, hcommands⟩ := ih
    refine ⟨?_, fun u r' c a he => ?_⟩
    · by_cases hkeep : keep r = true
      · refine ⟨_, _, _, .call t r h₀ ⟨hr, hkeep⟩ (herases.none t ht), ?_, ?_⟩
        · rw [eventsOf_concat, eventsOf_concat, hevents]
        · exact herases.update t _ _ _ _ herases.shared ⟨r, rfl, rfl, hkeep, rfl⟩
      · have hkeep : keep r = false := Bool.not_eq_true _ ▸ hkeep
        refine ⟨es₀, who₀, g₀, h₀, ?_, ?_⟩
        · simp [eventsOf_concat, hevents, Event.request, hkeep]
        · have hself := herases.update t ⟨M.idle, handler r⟩ (some r) (who₀ t) none
            herases.shared ⟨r, rfl, hkeep, O.idle, hlooks r hr hkeep⟩
          rw [← herases.none t ht, Function.update_eq_self, Function.update_eq_self] at hself
          exact hself
    · rcases List.mem_append.mp he with he | he
      · exact hcommands u r' c a he
      · cases List.mem_singleton.mp he
  | @exec es who g t c k s s' L a sh' h ht hothers hexec ih =>
    obtain ⟨⟨es₀, who₀, g₀, h₀, hevents, herases⟩, hcommands⟩ := ih
    obtain ⟨r, hwho, hfollows⟩ := herases.some t _ ht
    rcases hthread : g₀.thread t with _ | th₀
    · -- An onlooker executes a command: the other run stands still.
      rw [hthread] at hfollows
      obtain ⟨hkeep, hcalm, huses⟩ := hfollows
      obtain ⟨hcalm', hahead⟩ := O.look huses.1 hcalm hexec herases.shared
      refine ⟨⟨es₀, who₀, g₀, h₀, ?_, ?_⟩, fun u r' c' a' he hr' => ?_⟩
      · simp [eventsOf_concat, hevents, Event.request, hwho, hkeep]
      · have hself := herases.update t ⟨s', k a⟩ (who t) (who₀ t) none hahead
          ⟨r, hwho, hkeep, hcalm', huses.2 a⟩
        rw [Function.update_eq_self, Function.update_eq_self, ← hthread,
          Function.update_eq_self] at hself
        exact hself
      · rcases List.mem_append.mp he with he | he
        · exact hcommands u r' c' a' he hr'
        · obtain ⟨rfl, -, rfl, -⟩ := Event.exec.inj (List.mem_singleton.mp he)
          exact huses.1
    · -- Another request executes a command: it executes the same one in the other run.
      rw [hthread] at hfollows
      obtain ⟨rfl, hkeep, hwho₀⟩ := hfollows
      obtain ⟨sh₀, hexec₀, hahead⟩ := O.follow hexec herases.shared
      refine ⟨⟨_, _, _, .exec t c k s s' L a sh₀ h₀ hthread
        (fun u thu hut hu => hothers u thu hut (herases.thread hu)) hexec₀, ?_, ?_⟩,
        fun u r' c' a' he hr' => ?_⟩
      · rw [eventsOf_concat, eventsOf_concat, hevents, hwho, hwho₀]
      · have hself := herases.update t ⟨s', k a⟩ (who t) (who₀ t) (some ⟨s', k a⟩)
          hahead ⟨r, hwho, rfl, hkeep, hwho₀⟩
        rw [Function.update_eq_self, Function.update_eq_self] at hself
        exact hself
      · rcases List.mem_append.mp he with he | he
        · exact hcommands u r' c' a' he hr'
        · obtain ⟨rfl, hr, -, -⟩ := Event.exec.inj (List.mem_singleton.mp he)
          obtain rfl := Option.some.inj (hr.trans hwho)
          rw [hkeep] at hr'
          cases hr'
  | @crash es who g t th h hc ht ih =>
    obtain ⟨⟨es₀, who₀, g₀, h₀, hevents, herases⟩, hcommands⟩ := ih
    refine ⟨?_, fun u r' c a he => ?_⟩
    · rcases hthread : g₀.thread t with _ | th₀
      · refine ⟨es₀, who₀, g₀, h₀, ?_, ?_⟩
        · simp [eventsOf_concat, hevents, Event.request]
        · have hsame : g₀.setThread t none = g₀ := by
            unfold State.setThread
            rw [← hthread, Function.update_eq_self]
          exact hsame ▸ herases.remove t
      · refine ⟨_, _, _, .crash t th₀ h₀ hc hthread, ?_, herases.remove t⟩
        rw [eventsOf_concat, eventsOf_concat, hevents]
    · rcases List.mem_append.mp he with he | he
      · exact hcommands u r' c a he
      · cases List.mem_singleton.mp he

end Machine

end Interaction
