import Leaderboards.Library.Atomicity

/-!
# Two machines side by side

The threads of `Machine.both` execute the commands of two machines that share nothing. A session and
a claim of one of them are nothing to the other.

* `Contract.right`: what the threads of the second machine owe each other they still owe each other.
* **`Contract.Good.guar_of_others`**: what a step of the others comes to, for a thread of a good
  state.
-/

namespace Interaction

open Relation

variable {S T : Signature} {ε α : Type}

namespace Prog

/-- A program of the second interface, as one of two. -/
def inr : Prog T ε α → Prog (S.sum T) ε α
  | ret a => ret a
  | fail e => fail e
  | op c k => op (S := S.sum T) (.inr c) fun r => (k r).inr

/-- A program of the second interface is executed with its commands. -/
theorem Executes.of_inr {σ : Type} {exec : (c : (S.sum T).Cmd) → σ → (S.sum T).Res c → σ → Prop}
    {step : σ → σ → Prop} {p : Prog T ε α} {s s' : σ} {x : Except ε α}
    (h : (p.inr (S := S)).Executes exec step s x s') :
    p.Executes (fun c => exec (.inr c)) step s x s' := by
  induction p generalizing s with
  | ret a =>
    obtain ⟨rfl, hrun⟩ := executes_ret.mp h
    exact .ret hrun
  | fail e =>
    obtain ⟨rfl, hrun⟩ := executes_fail.mp h
    exact .fail hrun
  | op c k ih =>
    obtain ⟨s₁, r, s₂, hrun, hexec, h⟩ := executes_op.mp h
    exact .op hrun hexec (ih r h)

/-- A program is not what is left of it after its first command. -/
theorem rest_ne {c : S.Cmd} {k : S.Res c → Prog S ε α} (r : S.Res c) : k r ≠ op c k := by
  suffices h : ∀ p : Prog S ε α, ∀ c k (r : S.Res c), p = op c k → k r ≠ p from
    fun heq => h _ c k r rfl heq
  intro p
  induction p with
  | ret a =>
    intro c k r heq
    cases heq
  | fail e =>
    intro c k r heq
    cases heq
  | op c k ih =>
    intro c' k' r heq hrest
    cases heq
    exact ih r c k r hrest rfl

end Prog

namespace Machine

/-- The threads execute the commands of two machines. -/
def both (M : Machine S) (N : Machine T) : Machine (S.sum T) where
  Shared := M.Shared × N.Shared
  Session := M.Session × N.Session
  Claim := M.Claim ⊕ N.Claim
  idle := (M.idle, N.idle)
  exec t
    | .inl c => fun sh h L r sh' h' =>
      (∃ K, L = .inl K ∧ M.exec t c sh.1 h.1 K r sh'.1 h'.1) ∧ sh'.2 = sh.2 ∧ h'.2 = h.2
    | .inr c => fun sh h L r sh' h' =>
      (∃ K, L = .inr K ∧ N.exec t c sh.2 h.2 K r sh'.2 h'.2) ∧ sh'.1 = sh.1 ∧ h'.1 = h.1
  admits L h := L.elim (M.admits · h.1) (N.admits · h.2)
  crashes := M.crashes ∧ N.crashes

end Machine

namespace Contract

variable {M : Machine S} {N : Machine T}

/-- The contract of the second machine. -/
def right (M : Machine S) (C : Contract N) : Contract (M.both N) where
  Inv sh := C.Inv sh.2
  Pre t c h sh := match c with
    | .inl _ => True
    | .inr c => C.Pre t c h.2 sh.2
  Guar t h L sh sh' := sh'.2 = sh.2 ∨ ∃ K, L = .inr K ∧ C.Guar t h.2 K sh.2 sh'.2
  Rely t h sh sh' := C.Rely t h.2 sh.2 sh'.2
  Beside h h' := C.Beside h.2 h'.2
  rely_refl t h sh := C.rely_refl t h.2 sh.2
  rely_trans t h sh sh' sh'' := C.rely_trans t h.2 sh.2 sh'.2 sh''.2
  inv_of_guar t h L sh sh' hinv hguar := by
    rcases hguar with heq | ⟨K, rfl, hguar⟩
    · rwa [heq]
    · exact C.inv_of_guar t h.2 K _ _ hinv hguar
  rely_of_guar t u h hu L sh sh' hut hinv hguar hadmits hbeside := by
    rcases hguar with heq | ⟨K, rfl, hguar⟩
    · rw [heq]
      exact C.rely_refl u hu.2 _
    · exact C.rely_of_guar t u h.2 hu.2 K _ _ hut hinv hguar hadmits hbeside
  beside_symm h h' := C.beside_symm h.2 h'.2
  beside_idle h := C.beside_idle h.2
  beside_exec t c sh h L r sh' h' hu hexec hadmits hbeside := by
    cases c with
    | inl c => exact hexec.2.2 ▸ hbeside
    | inr c =>
      obtain ⟨⟨K, rfl, hexec⟩, -, -⟩ := hexec
      exact C.beside_exec t c _ h.2 K r _ h'.2 hu.2 hexec hadmits hbeside

/-- A program of the first machine does nothing to the second one. -/
theorem safe_left {C : Contract N} {t : Tid} {p : Prog S ε α} {h : (M.both N).Session}
    {sh : (M.both N).Shared} :
    (C.right M).Safe t (fun _ _ _ => True) (p.inl (T := T)) h sh := by
  induction p generalizing h sh with
  | ret a => trivial
  | fail e => trivial
  | op c k ih => exact fun sh₁ _ _ => ⟨trivial, fun L r sh₂ h₂ hexec => ⟨.inl hexec.2.1, ih r⟩⟩

end Contract

/-! ### A thread beside the others -/

namespace Contract

variable {M : Machine S} {C : Contract M} {requests : Prog S ε Unit → Prop} {t : Tid}
  {g g' : M.State ε}

/-- **A step of the others** changes nothing that is shared, or is a command of a thread whose
session goes together with the thread's. -/
theorem Good.guar_of_others (hg : C.Good g) {th : M.Thread ε} (ht : g.thread t = some th)
    (hstep : Machine.Others requests t g g') : g'.shared = g.shared ∨
      ∃ u h L, u ≠ t ∧ C.Beside h th.session ∧ M.admits L th.session ∧
        C.Guar u h L g.shared g'.shared := by
  obtain ⟨hstep, hsame⟩ := hstep
  cases hstep with
  | call u p hp hu => exact .inl rfl
  | crash u th' hc hu => exact .inl rfl
  | exec u c k h h' L r sh' hu hadmits hexec =>
    obtain ⟨-, hguar⟩ := hg.exec hu hexec
    by_cases htu : t = u
    · subst htu
      have heq : (⟨h', k r⟩ : M.Thread ε) = ⟨h, .op c k⟩ := by
        exact Option.some.inj (((Function.update_self t _ g.thread).symm.trans hsame).trans hu)
      exact absurd (congrArg Machine.Thread.rest heq) (Prog.rest_ne r)
    · exact .inr ⟨u, h, L, Ne.symm htu, hg.beside u t _ th htu hu ht, hadmits t th htu ht, hguar⟩

end Contract

end Interaction
