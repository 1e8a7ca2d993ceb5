import Mathlib.Logic.Relation

/-!
# Ids and names

Rows have an id and a name. No id is used twice, but a name is free again once its row has been
removed, and a new row may get it. Who reads the id of a row and uses it later may find the row
gone, and another row under its name.

**`Naming.fate`**: a row that somebody has found is there, under its name; or its id is gone, and
there was a moment in between at which nobody had the name.
-/

namespace Interaction

/-- A table of rows with ids and names, in the states of a system. -/
structure Naming (σ ι ν : Type) where
  Step : σ → σ → Prop
  Inv : σ → Prop
  Has : σ → ι → ν → Prop
  Used : σ → ι → Prop
  inv : ∀ {s s'}, Inv s → Step s s' → Inv s'
  unique : ∀ {s i n m}, Inv s → Has s i n → Has s i m → n = m
  used : ∀ {s i n}, Inv s → Has s i n → Used s i
  stays_used : ∀ {s s' i}, Inv s → Step s s' → Used s i → Used s' i
  reused : ∀ {s s' i n}, Inv s → Step s s' → Used s i → Has s' i n → Has s i n
  removed : ∀ {s s' i n}, Inv s → Step s s' → Has s i n → Has s' i n ∨ ∀ j, ¬Has s' j n

namespace Naming

open Relation

variable {σ ι ν : Type} {N : Naming σ ι ν} {s s' : σ} {i : ι} {n : ν}

theorem inv_run (hinv : N.Inv s) (hrun : ReflTransGen N.Step s s') : N.Inv s' := by
  induction hrun with
  | refl => exact hinv
  | tail _ hstep ih => exact N.inv ih hstep

theorem used_run (hinv : N.Inv s) (hused : N.Used s i) (hrun : ReflTransGen N.Step s s') :
    N.Used s' i := by
  induction hrun with
  | refl => exact hused
  | tail hrun hstep ih => exact N.stays_used (inv_run hinv hrun) hstep ih

/-- **What has become of a row.** -/
theorem fate (hinv : N.Inv s) (h : N.Has s i n) (hrun : ReflTransGen N.Step s s') :
    N.Has s' i n ∨ (∀ m, ¬N.Has s' i m) ∧
      ∃ s₁, ReflTransGen N.Step s s₁ ∧ ReflTransGen N.Step s₁ s' ∧ ∀ j, ¬N.Has s₁ j n := by
  induction hrun with
  | refl => exact .inl h
  | @tail s₁ s₂ hrun hstep ih =>
    have hinv₁ : N.Inv s₁ := inv_run hinv hrun
    have hused : N.Used s₁ i := used_run hinv (N.used hinv h) hrun
    rcases ih with hhas | ⟨hgone, s₀, hbefore, hafter, hfree⟩
    · rcases N.removed hinv₁ hstep hhas with hstays | hfree
      · exact .inl hstays
      · refine .inr ⟨fun m hm => ?_, s₂, hrun.tail hstep, .refl, hfree⟩
        have heq : n = m := N.unique hinv₁ hhas (N.reused hinv₁ hstep hused hm)
        exact hfree i (heq ▸ hm)
    · -- The row was removed before, and its id does not come back.
      exact .inr ⟨fun m hm => hgone m (N.reused hinv₁ hstep hused hm), s₀, hbefore,
        hafter.tail hstep, hfree⟩

end Naming

end Interaction
