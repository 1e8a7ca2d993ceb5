import Leaderboards.Library.Reader
import Leaderboards.Library.Trace
import Mathlib.Tactic.Simps.Basic

/-!
# Machines with more commands

An `Extension` adds the commands of a second interface to a machine, with a state of their own
beside the shared one. They leave the shared state and the session of their thread as they are, and
their state follows what the old commands do to the shared one, as rows follow a foreign key that
cascades.

* `Contract.extend`: what the threads of the old machine owe each other they still owe each other.
* `Contract.safe_inl`: a program of the old machine is as safe as it was.
-/

namespace Interaction

variable {S T : Signature} {ε α β X : Type}

namespace Machine

/-- The commands of an interface on a state beside the shared one. -/
structure Extension (M : Machine S) (T : Signature) (X : Type) where
  /-- The claim, the answer and the next state of a command. -/
  exec : (c : T.Cmd) → M.Shared → X → M.Claim → T.Res c → X → Prop
  /-- How the state follows a change of the shared one. -/
  follow : M.Shared → M.Shared → X → X → Prop

/-- The machine with both kinds of commands. -/
@[simps Shared Session Claim idle admits crashes]
def extend (M : Machine S) (E : M.Extension T X) : Machine (S.sum T) where
  Shared := M.Shared × X
  Session := M.Session
  Claim := M.Claim
  idle := M.idle
  exec t
    | .inl c => fun sh h L r sh' h' =>
      M.exec t c sh.1 h L r sh'.1 h' ∧ E.follow sh.1 sh'.1 sh.2 sh'.2
    | .inr c => fun sh h L r sh' h' => h' = h ∧ sh'.1 = sh.1 ∧ E.exec c sh.1 sh.2 L r sh'.2
  admits := M.admits
  crashes := M.crashes

variable {M : Machine S} {E : M.Extension T X} {t : Tid} {sh sh' : M.Shared} {x x' : X}
  {h h' : M.Session} {L : M.Claim}

end Machine

namespace Contract

variable {M : Machine S} {E : M.Extension T X} {C : Contract M} {t : Tid} {h : M.Session}
  {sh : (M.extend E).Shared}

variable (C E) in
/-- The contract of the old machine, between threads that also execute the new commands. -/
@[simps]
def extend : Contract (M.extend E) where
  Inv sh := C.Inv sh.1
  Pre t c h sh := match c with
    | .inl c => C.Pre t c h sh.1
    | .inr _ => True
  Guar t h L sh sh' := sh'.1 = sh.1 ∨ C.Guar t h L sh.1 sh'.1
  Rely t h sh sh' := C.Rely t h sh.1 sh'.1
  Beside := C.Beside
  rely_refl t h sh := C.rely_refl t h sh.1
  rely_trans t h sh sh' sh'' := C.rely_trans t h sh.1 sh'.1 sh''.1
  inv_of_guar t h L sh sh' hinv hguar := by
    rcases hguar with heq | hguar
    · rwa [heq]
    · exact C.inv_of_guar t h L _ _ hinv hguar
  rely_of_guar t u h hu L sh sh' hut hinv hguar hadmits hbeside := by
    rcases hguar with heq | hguar
    · rw [heq]
      exact C.rely_refl u hu _
    · exact C.rely_of_guar t u h hu L _ _ hut hinv hguar hadmits hbeside
  beside_symm := C.beside_symm
  beside_idle := C.beside_idle
  beside_exec t c sh h L r sh' h' hu hexec hadmits hbeside := by
    cases c with
    | inl c => exact C.beside_exec t c _ h L r _ h' hu hexec.1 hadmits hbeside
    | inr c =>
      obtain ⟨rfl, -, -⟩ := hexec
      exact hbeside

/-- **A program of the old machine is as safe as it was.** -/
theorem safe_inl {post : Post M ε α} {p : Prog S ε α} (hp : C.Safe t post p h sh.1) :
    (C.extend E).Safe t (fun r h sh => post r h sh.1) (p.inl (T := T)) h sh := by
  induction p generalizing h sh with
  | ret a => exact hp
  | fail e => exact hp
  | op c k ih =>
    intro sh₁ hrely hinv
    obtain ⟨hpre, hout⟩ := hp sh₁.1 hrely hinv
    refine ⟨hpre, fun L r sh₂ h₂ hexec => ?_⟩
    obtain ⟨hguar, hsafe⟩ := hout L r sh₂.1 h₂ hexec.1
    exact ⟨.inr hguar, ih r hsafe⟩

/-- A new command changes nothing that the old contract speaks of. -/
theorem safe_inr {post : Post (M.extend E) ε α} {c : T.Cmd} {k : T.Res c → Prog (S.sum T) ε α}
    (hk : ∀ r sh, (C.extend E).Safe t post (k r) h sh) :
    (C.extend E).Safe t post (.op (S := S.sum T) (.inr c) k) h sh := by
  refine fun sh₁ _ _ => ⟨trivial, fun L r sh₂ h₂ hexec => ?_⟩
  obtain ⟨rfl, hsh, -⟩ := hexec
  exact ⟨.inl hsh, hk r sh₂⟩

end Contract

end Interaction
