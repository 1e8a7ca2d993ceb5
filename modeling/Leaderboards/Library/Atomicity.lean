import Leaderboards.Library.Reader
import Leaderboards.Library.Trace

/-!
# Calls that take effect at one moment

A thread executes a program beside other threads (`Acts`, `Others`). What the shared state stands
for is a relation `rep` to the states of an abstract object. The program is `Atomic` when it does to
the abstract object what one operation would do, at one moment between its call and its end, and
leaves it alone before and afterwards.

**`Course.executes`**: the course of a thread is an execution of its program in the sense of
`Library/Reader.lean`.
-/

namespace Interaction

variable {S : Signature} {ε α A : Type}

namespace Machine

open Relation

variable {M : Machine S} (requests : Prog S ε Unit → Prop) (t : Tid)

/-- The thread executes a command. -/
def Acts (c : S.Cmd) (g : M.State ε) (r : S.Res c) (g' : M.State ε) : Prop :=
  ∃ k s s' L sh', g.thread t = some ⟨s, .op c k⟩ ∧
    (∀ u th, u ≠ t → g.thread u = some th → M.admits L th.session) ∧
    M.exec t c g.shared s L r sh' s' ∧
    g' = ⟨sh', Function.update g.thread t (some ⟨s', k r⟩)⟩

/-- Another thread takes a step. -/
def Others (g g' : M.State ε) : Prop := Step requests g g' ∧ g'.thread t = g.thread t

/-- A step in which the thread does nothing to the abstract object. -/
def Silent (rep : M.Shared → A → Prop) (g g' : M.State ε) : Prop :=
  Others requests t g g' ∨ ∃ c r, Acts t c g r g' ∧ ∀ a, rep g.shared a → rep g'.shared a

/-- Between two states the thread has done what an operation on the abstract object does, at one
moment. -/
def Atomic (rep : M.Shared → A → Prop) (effect : A → A → Prop) (g₀ g : M.State ε) : Prop :=
  ∃ g₁ g₂ a a', ReflTransGen (Silent requests t rep) g₀ g₁ ∧
    (g₂ = g₁ ∨ ∃ c r, Acts t c g₁ r g₂) ∧ rep g₁.shared a ∧ rep g₂.shared a' ∧ effect a a' ∧
    ReflTransGen (Silent requests t rep) g₂ g

variable {requests t} {rep : M.Shared → A → Prop} {effect : A → A → Prop} {g₀ g g' : M.State ε}

theorem Acts.step {c : S.Cmd} {r : S.Res c} (h : Acts t c g r g') : Step requests g g' := by
  obtain ⟨k, s, s', L, sh', ht, hothers, hexec, rfl⟩ := h
  exact .exec g t c k s s' L r sh' ht hothers hexec

theorem Silent.step (h : Silent requests t rep g g') : Step requests g g' := by
  rcases h with h | ⟨c, r, h, -⟩
  · exact h.1
  · exact h.step

theorem silent_of_others (h : ReflTransGen (Others requests t) g g') :
    ReflTransGen (Silent requests t rep) g g' := h.lift id fun _ _ => .inl

theorem run_of_silent (h : ReflTransGen (Silent requests t rep) g g') : Run requests g g' :=
  h.lift id fun _ _ h => h.step

/-- A call without an effect, at a moment when the operation has none. -/
theorem atomic_of_moment {g₁ : M.State ε} {a : A}
    (hbefore : ReflTransGen (Silent requests t rep) g₀ g₁) (ha : rep g₁.shared a)
    (heffect : effect a a)
    (hafter : ReflTransGen (Silent requests t rep) g₁ g) : Atomic requests t rep effect g₀ g :=
  ⟨g₁, g₁, a, a, hbefore, .inl rfl, ha, ha, heffect, hafter⟩

/-- A call that takes effect with one of its commands. -/
theorem atomic_of_acts {g₁ g₂ : M.State ε} {a a' : A} {c : S.Cmd} {r : S.Res c}
    (hbefore : ReflTransGen (Silent requests t rep) g₀ g₁) (hacts : Acts t c g₁ r g₂)
    (ha : rep g₁.shared a) (ha' : rep g₂.shared a') (heffect : effect a a')
    (hafter : ReflTransGen (Silent requests t rep) g₂ g) : Atomic requests t rep effect g₀ g :=
  ⟨g₁, g₂, a, a', hbefore, .inr ⟨c, r, hacts⟩, ha, ha', heffect, hafter⟩

/-- Where the course of a thread starts. -/
theorem Course.first {f : α → Prog S ε Unit} {p rest : Prog S ε α} {done : List (Answered S)}
    {s : M.Session} (h : Course requests (fun _ _ _ _ => True) t f p g₀ done s rest g) :
    g₀.thread t = some ⟨M.idle, p >>= f⟩ := by
  induction h with
  | start ht => exact ht
  | other h hstep ht hcond ih => exact ih
  | own h hothers hexec ih => exact ih

/-- **The course of a thread is an execution of its program.** -/
theorem Course.executes {f : α → Prog S ε Unit} {p rest : Prog S ε α} {done : List (Answered S)}
    {s : M.Session} {x : Except ε α}
    (h : Course requests (fun _ _ _ _ => True) t f p g₀ done s rest g)
    (hrest : rest.Executes (Acts t) (Others requests t) g x g') :
    p.Executes (Acts t) (Others requests t) g₀ x g' := by
  induction h with
  | start ht => exact hrest
  | other h hstep ht hcond ih => exact ih (hrest.head (.single ⟨hstep, ht⟩))
  | @own done s s' c k g L a sh' h hothers hexec ih =>
    have hacts : Acts t c g a ⟨sh', Function.update g.thread t (some ⟨s', k a >>= f⟩)⟩ :=
      ⟨_, s, s', L, sh', h.thread, hothers, hexec, rfl⟩
    exact ih (.op .refl hacts hrest)

end Machine

end Interaction
