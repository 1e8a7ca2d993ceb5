import Leaderboards.Library.Program
import Mathlib.Logic.Relation

/-!
# Programs in a running system

A program is executed beside other programs, which take steps before each of its commands and after
the last one. `Executes` relates the states at its two ends to its outcome. The commands of a reader
look at the state and leave it as it is: what a reader `Observes`.
-/

namespace Interaction

/-- The commands of two interfaces. -/
def Signature.sum (S T : Signature) : Signature := ⟨S.Cmd ⊕ T.Cmd, Sum.elim S.Res T.Res⟩

namespace Prog

variable {S T : Signature} {ε α β σ : Type}

/-- A program of one interface, as one of two. -/
def inl : Prog S ε α → Prog (S.sum T) ε α
  | ret a => ret a
  | fail e => fail e
  | op c k => op (S := S.sum T) (.inl c) fun r => (k r).inl

@[simp] theorem inl_ret (a : α) : (ret a : Prog S ε α).inl (T := T) = ret a := rfl

@[simp] theorem inl_fail (e : ε) : (fail e : Prog S ε α).inl (T := T) = fail e := rfl

@[simp] theorem inl_op (c : S.Cmd) (k : S.Res c → Prog S ε α) :
    (op c k).inl (T := T) = op (S := S.sum T) (.inl c) fun r => (k r).inl := rfl

theorem inl_bind (p : Prog S ε α) (f : α → Prog S ε β) :
    (p >>= f).inl (T := T) = p.inl >>= fun a => (f a).inl := by
  induction p with
  | ret a => rfl
  | fail e => rfl
  | op c k ih => exact congrArg (op (S := S.sum T) (.inl c)) (funext ih)

/-- A program takes a system from one state to another and has an outcome. The system takes steps of
its own before each command and after the last one. -/
inductive Executes (exec : (c : S.Cmd) → σ → S.Res c → σ → Prop) (step : σ → σ → Prop) :
    Prog S ε α → σ → Except ε α → σ → Prop
  | ret {a : α} {s s' : σ} (hrun : Relation.ReflTransGen step s s') :
      Executes exec step (ret a) s (.ok a) s'
  | fail {e : ε} {s s' : σ} (hrun : Relation.ReflTransGen step s s') :
      Executes exec step (fail e) s (.error e) s'
  | op {c : S.Cmd} {k : S.Res c → Prog S ε α} {s s₁ s₂ s' : σ} {r : S.Res c} {x : Except ε α}
      (hrun : Relation.ReflTransGen step s s₁) (hexec : exec c s₁ r s₂)
      (h : Executes exec step (k r) s₂ x s') : Executes exec step (op c k) s x s'

variable {exec : (c : S.Cmd) → σ → S.Res c → σ → Prop} {look : (c : S.Cmd) → σ → S.Res c → Prop}
  {step : σ → σ → Prop} {s s₁ s' : σ} {p : Prog S ε α} {x : Except ε α}

theorem executes_op {c : S.Cmd} {k : S.Res c → Prog S ε α} :
    (op c k).Executes exec step s x s' ↔ ∃ s₁ r s₂, Relation.ReflTransGen step s s₁ ∧
      exec c s₁ r s₂ ∧ (k r).Executes exec step s₂ x s' := by
  constructor
  · rintro (_ | _ | ⟨hrun, hexec, h⟩)
    exact ⟨_, _, _, hrun, hexec, h⟩
  · rintro ⟨s₁, r, s₂, hrun, hexec, h⟩
    exact .op hrun hexec h

theorem executes_ret {a : α} : (ret a : Prog S ε α).Executes exec step s x s' ↔
    x = .ok a ∧ Relation.ReflTransGen step s s' := by
  constructor
  · rintro (hrun | _ | _)
    exact ⟨rfl, hrun⟩
  · rintro ⟨rfl, hrun⟩
    exact .ret hrun

theorem executes_fail {e : ε} : (fail e : Prog S ε α).Executes exec step s x s' ↔
    x = .error e ∧ Relation.ReflTransGen step s s' := by
  constructor
  · rintro (_ | hrun | _)
    exact ⟨rfl, hrun⟩
  · rintro ⟨rfl, hrun⟩
    exact .fail hrun

/-- Steps before the first command. -/
theorem Executes.head (hrun : Relation.ReflTransGen step s s₁) (h : p.Executes exec step s₁ x s') :
    p.Executes exec step s x s' := by
  cases h with
  | ret hrun' => exact .ret (hrun.trans hrun')
  | fail hrun' => exact .fail (hrun.trans hrun')
  | op hrun' hexec h => exact .op (hrun.trans hrun') hexec h

/-- A sequence is executed in its parts. -/
theorem Executes.of_bind {f : α → Prog S ε β} {y : Except ε β}
    (h : (p >>= f).Executes exec step s y s') :
    (∃ e, y = .error e ∧ p.Executes exec step s (.error e) s') ∨
      ∃ a s₁, p.Executes exec step s (.ok a) s₁ ∧ (f a).Executes exec step s₁ y s' := by
  induction p generalizing s with
  | ret a => exact .inr ⟨a, s, .ret .refl, h⟩
  | fail e =>
    obtain ⟨rfl, hrun⟩ := executes_fail.mp h
    exact .inl ⟨e, rfl, .fail hrun⟩
  | op c k ih =>
    obtain ⟨s₁, r, s₂, hrun, hexec, h⟩ := executes_op.mp h
    rcases ih r h with ⟨e, rfl, herror⟩ | ⟨a, s₃, hok, hrest⟩
    · exact .inl ⟨e, rfl, .op hrun hexec herror⟩
    · exact .inr ⟨a, s₃, .op hrun hexec hok, hrest⟩

/-- A program whose outcome is a value is executed as it is. -/
theorem Executes.of_attempt {y : Except ε (Except ε α)} (h : p.attempt.Executes exec step s y s') :
    ∃ x, y = .ok x ∧ p.Executes exec step s x s' := by
  induction p generalizing s with
  | ret a =>
    obtain ⟨rfl, hrun⟩ := executes_ret.mp h
    exact ⟨_, rfl, .ret hrun⟩
  | fail e =>
    obtain ⟨rfl, hrun⟩ := executes_ret.mp h
    exact ⟨_, rfl, .fail hrun⟩
  | op c k ih =>
    obtain ⟨s₁, r, s₂, hrun, hexec, h⟩ := executes_op.mp h
    obtain ⟨x, rfl, hx⟩ := ih r h
    exact ⟨x, rfl, .op hrun hexec hx⟩

/-- A program of one interface is executed with its commands. -/
theorem Executes.of_inl {exec : (c : (S.sum T).Cmd) → σ → (S.sum T).Res c → σ → Prop}
    (h : (p.inl (T := T)).Executes exec step s x s') :
    p.Executes (fun c => exec (.inl c)) step s x s' := by
  induction p generalizing s with
  | ret a =>
    obtain ⟨rfl, hrun⟩ := executes_ret.mp h
    exact .ret hrun
  | fail e =>
    obtain ⟨rfl, hrun⟩ := executes_fail.mp h
    exact .fail hrun
  | op c k ih =>
    obtain ⟨s₁, r, s₂, hrun, hexec, h⟩ := executes_op.mp h
    exact .op hrun hexec (ih r h)

/-! ### Outcomes under given answers -/

/-- A program may have an outcome when its commands are answered like this. -/
def Yields (answers : (c : S.Cmd) → S.Res c → Prop) (x : Except ε α) : Prog S ε α → Prop
  | ret a => x = .ok a
  | fail e => x = .error e
  | op c k => ∃ r, answers c r ∧ (k r).Yields answers x

variable {answers : (c : S.Cmd) → S.Res c → Prop}

@[simp] theorem yields_ret {a : α} : (ret a : Prog S ε α).Yields answers x ↔ x = .ok a := Iff.rfl

@[simp] theorem yields_fail {e : ε} :
    (fail e : Prog S ε α).Yields answers x ↔ x = .error e := Iff.rfl

@[simp] theorem yields_op {c : S.Cmd} {k : S.Res c → Prog S ε α} :
    (op c k).Yields answers x ↔ ∃ r, answers c r ∧ (k r).Yields answers x := Iff.rfl

theorem yields_bind {f : α → Prog S ε β} {y : Except ε β} :
    (p >>= f).Yields answers y ↔ (∃ e, y = .error e ∧ p.Yields answers (.error e)) ∨
      ∃ a, p.Yields answers (.ok a) ∧ (f a).Yields answers y := by
  induction p with
  | ret a => simp
  | fail e => simp
  | op c k ih =>
    simp only [op_bind, yields_op, ih]
    constructor
    · rintro ⟨r, hr, ⟨e, rfl, h⟩ | ⟨a, ha, h⟩⟩
      · exact .inl ⟨e, rfl, r, hr, h⟩
      · exact .inr ⟨a, ⟨r, hr, ha⟩, h⟩
    · rintro (⟨e, rfl, r, hr, h⟩ | ⟨a, ⟨r, hr, ha⟩, h⟩)
      · exact ⟨r, hr, .inl ⟨e, rfl, h⟩⟩
      · exact ⟨r, hr, .inr ⟨a, ha, h⟩⟩

theorem yields_attempt {y : Except ε (Except ε α)} :
    p.attempt.Yields answers y ↔ ∃ x, y = .ok x ∧ p.Yields answers x := by
  induction p with
  | ret a => simp
  | fail e => simp
  | op c k ih =>
    simp only [attempt_op, yields_op, ih]
    constructor
    · rintro ⟨r, hr, x, rfl, h⟩
      exact ⟨x, rfl, r, hr, h⟩
    · rintro ⟨x, rfl, r, hr, h⟩
      exact ⟨r, hr, x, rfl, h⟩

/-- A loop of which each round has one outcome. -/
theorem yields_collect {l : List α} {f : α → Prog S ε β} {φ : α → β}
    (hf : ∀ a ∈ l, ∀ x, (f a).Yields answers x → x = .ok (φ a)) {y : Except ε (List β)}
    (h : (collect l f).Yields answers y) : y = .ok (l.map φ) := by
  induction l generalizing y with
  | nil => exact h
  | cons a l ih =>
    have hrest : ∀ x, (collect l f).Yields answers x → x = .ok (l.map φ) := fun x hx =>
      ih (fun b hb => hf b (List.mem_cons_of_mem a hb)) hx
    rcases yields_bind.mp h with ⟨e, -, he⟩ | ⟨b, hb, h⟩
    · exact absurd (hf a List.mem_cons_self _ he) (by simp)
    · have hhead : Except.ok b = .ok (φ a) := hf a List.mem_cons_self _ hb
      obtain rfl := Except.ok.inj hhead
      rcases yields_bind.mp h with ⟨e, -, he⟩ | ⟨bs, hbs, h⟩
      · exact absurd (hrest _ he) (by simp)
      · obtain rfl := Except.ok.inj (hrest _ hbs)
        exact h

/-- **A program whose commands are answered alike all along** has an outcome under these answers. -/
theorem Executes.yields {J : σ → Prop} (hstep : ∀ s s', J s → step s s' → J s')
    (hexec : ∀ c s r s', J s → exec c s r s' → answers c r ∧ J s')
    (h : p.Executes exec step s x s') (hs : J s) : p.Yields answers x ∧ J s' := by
  have hsteps : ∀ {s s'}, Relation.ReflTransGen step s s' → J s → J s' := by
    intro s s' hrun hs
    induction hrun with
    | refl => exact hs
    | tail _ hlast ih => exact hstep _ _ ih hlast
  induction h with
  | ret hrun => exact ⟨rfl, hsteps hrun hs⟩
  | fail hrun => exact ⟨rfl, hsteps hrun hs⟩
  | op hrun hop h ih =>
    obtain ⟨hanswer, hs₂⟩ := hexec _ _ _ _ (hsteps hrun hs) hop
    obtain ⟨hyields, hs'⟩ := ih hs₂
    exact ⟨⟨_, hanswer, hyields⟩, hs'⟩

/-- A program that only looks at the system. -/
abbrev Observes (look : (c : S.Cmd) → σ → S.Res c → Prop) (step : σ → σ → Prop) :
    Prog S ε α → σ → Except ε α → σ → Prop :=
  Executes (fun c s r s' => look c s r ∧ s' = s) step

theorem observes_op {c : S.Cmd} {k : S.Res c → Prog S ε α} :
    (op c k).Observes look step s x s' ↔ ∃ s₁ r, Relation.ReflTransGen step s s₁ ∧ look c s₁ r ∧
      (k r).Observes look step s₁ x s' := by
  refine executes_op.trans ⟨?_, ?_⟩
  · rintro ⟨s₁, r, s₂, hrun, ⟨hlook, heq⟩, h⟩
    exact ⟨s₁, r, hrun, hlook, heq ▸ h⟩
  · rintro ⟨s₁, r, hrun, hlook, h⟩
    exact ⟨s₁, r, s₁, hrun, ⟨hlook, rfl⟩, h⟩

/-- A reader is followed by the system only. -/
theorem Observes.run (h : p.Observes look step s x s') : Relation.ReflTransGen step s s' := by
  induction h with
  | ret hrun => exact hrun
  | fail hrun => exact hrun
  | op hrun hlook h ih =>
    obtain ⟨-, rfl⟩ := hlook
    exact hrun.trans ih

end Prog

end Interaction
