import Leaderboards.Library.Interleaving
import Mathlib.Data.Set.Card

/-!
# Counting threads

`State.among` is the set of the threads of which the rest of the program is of a kind. A step
replaces one thread, so it adds the thread to such a set, takes it out, or leaves the set as it is.
The sizes are extended natural numbers, so nothing has to be said about how many threads there are.
-/

namespace Interaction.Machine

variable {S : Signature} {ε : Type} {M : Machine S}

/-- The threads that have a program of a kind before them. -/
def State.among (g : M.State ε) (kind : Prog S ε Unit → Prop) : Set Tid :=
  {t | ∃ th, g.thread t = some th ∧ kind th.rest}

/-- `g'` is `g` with another thread under the name `t`. -/
def Replaces (g g' : M.State ε) (t : Tid) (th : M.Thread ε) : Prop :=
  g'.thread = Function.update g.thread t (some th)

variable {g g' : M.State ε} {t : Tid} {th th' : M.Thread ε} {kind : Prog S ε Unit → Prop}

theorem mem_among (ht : g.thread t = some th) : t ∈ g.among kind ↔ kind th.rest := by
  constructor
  · rintro ⟨th', ht', hkind⟩
    obtain rfl := Option.some.inj (ht.symm.trans ht')
    exact hkind
  · exact fun hkind => ⟨th, ht, hkind⟩

theorem notMem_among (ht : g.thread t = none) : t ∉ g.among kind := by
  rintro ⟨th, ht', -⟩
  cases ht.symm.trans ht'

namespace Replaces

theorem thread_self (h : Replaces g g' t th) : g'.thread t = some th := by
  rw [h, Function.update_self]

/-- What holds before every thread, and before the new one. -/
theorem forall_rest (h : Replaces g g' t th) {holds : Prog S ε Unit → Prop}
    (hall : ∀ u th, g.thread u = some th → holds th.rest) (hth : holds th.rest) :
    ∀ u th, g'.thread u = some th → holds th.rest := by
  intro u th₁ hu
  by_cases hut : u = t
  · subst hut
    obtain rfl := Option.some.inj (h.thread_self.symm.trans hu)
    exact hth
  · rw [h, Function.update_of_ne hut] at hu
    exact hall u th₁ hu

theorem mem_of_ne (h : Replaces g g' t th) {u : Tid} (hu : u ≠ t) :
    u ∈ g'.among kind ↔ u ∈ g.among kind := by
  have hthread : g'.thread u = g.thread u := by rw [h, Function.update_of_ne hu]
  change (∃ th, g'.thread u = some th ∧ _) ↔ ∃ th, g.thread u = some th ∧ _
  rw [hthread]

/-- The thread comes to be of the kind. -/
theorem enters (h : Replaces g g' t th) (hbefore : t ∉ g.among kind) (hafter : kind th.rest) :
    (g'.among kind).encard = (g.among kind).encard + 1 := by
  have hset : g'.among kind = insert t (g.among kind) := by
    ext u
    by_cases hu : u = t
    · subst hu
      simp [mem_among h.thread_self, hafter]
    · simp [h.mem_of_ne hu, hu]
  rw [hset, Set.encard_insert_of_notMem hbefore]

/-- The thread ceases to be of the kind. -/
theorem leaves (h : Replaces g g' t th) (hbefore : t ∈ g.among kind) (hafter : ¬kind th.rest) :
    (g.among kind).encard = (g'.among kind).encard + 1 := by
  have hset : g'.among kind = g.among kind \ {t} := by
    ext u
    by_cases hu : u = t
    · subst hu
      simp [mem_among h.thread_self, hafter]
    · simp [h.mem_of_ne hu, hu]
  rw [hset, Set.encard_sdiff_singleton_add_one hbefore]

/-- The thread is of the kind before and after, or never. -/
theorem stays (h : Replaces g g' t th) (hsame : t ∈ g.among kind ↔ kind th.rest) :
    g'.among kind = g.among kind := by
  ext u
  by_cases hu : u = t
  · subst hu
    rw [mem_among h.thread_self, hsame]
  · exact h.mem_of_ne hu

end Replaces

end Interaction.Machine
