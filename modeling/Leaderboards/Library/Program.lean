import Mathlib.Logic.Basic

/-!
# Programs over an instruction signature

A `Signature` lists the commands of an interface together with the type of the answer to
each. `Prog S ε α` is a program that issues commands of `S` one at a time, may stop with an
error of type `ε`, and otherwise returns a value of type `α`. The tree keeps every possible
answer, so one program text serves every meaning that is given to it later:

* `Prog.run` interprets it against a state-passing handler, for a single client;
* `Library/Interleaving.lean` interleaves the commands of many programs.

The monad is the obvious one. `attempt` turns a failure into a value, which is what a caller
that inspects a `Result` does. `each` and `collect` are the two loops over a list.
-/

namespace Interaction

/-- An instruction signature: the commands of an interface and the answer type of each. -/
structure Signature where
  /-- The commands. -/
  Cmd : Type
  /-- The type of the answer to a command. -/
  Res : Cmd → Type

/-- A program over the signature `S`: it returns, fails, or issues a command and continues
from the answer. -/
inductive Prog (S : Signature) (ε α : Type) : Type
  | ret (a : α)
  | fail (e : ε)
  | op (c : S.Cmd) (k : S.Res c → Prog S ε α)

namespace Prog

variable {S : Signature} {ε α β γ σ : Type}

/-- Run the first program and continue with its value; a failure stops the whole. -/
def bind : Prog S ε α → (α → Prog S ε β) → Prog S ε β
  | ret a, f => f a
  | fail e, _ => fail e
  | op c k, f => op c fun r => (k r).bind f

instance : Monad (Prog S ε) where
  pure := ret
  bind := bind

@[simp] theorem pure_eq (a : α) : (pure a : Prog S ε α) = ret a := rfl

@[simp] theorem ret_bind (a : α) (f : α → Prog S ε β) : (ret a >>= f) = f a := rfl

@[simp] theorem fail_bind (e : ε) (f : α → Prog S ε β) : (fail e >>= f) = fail e := rfl

@[simp] theorem op_bind (c : S.Cmd) (k : S.Res c → Prog S ε α) (f : α → Prog S ε β) :
    (op c k >>= f) = op c fun r => k r >>= f := rfl

theorem bind_ret (p : Prog S ε α) : (p >>= ret) = p := by
  induction p with
  | ret a => rfl
  | fail e => rfl
  | op c k ih => exact congrArg (op c) (funext ih)

theorem bind_assoc (p : Prog S ε α) (f : α → Prog S ε β) (g : β → Prog S ε γ) :
    ((p >>= f) >>= g) = p >>= fun a => f a >>= g := by
  induction p with
  | ret a => rfl
  | fail e => rfl
  | op c k ih => exact congrArg (op c) (funext ih)

instance : LawfulMonad (Prog S ε) :=
  LawfulMonad.mk' _ (fun p => bind_ret p) (fun _ _ => rfl) bind_assoc

/-- Issue one command and return its answer. -/
def perform (c : S.Cmd) : Prog S ε (S.Res c) := op c ret

/-- A computation that only validates, as a program. -/
def ofExcept : Except ε α → Prog S ε α
  | .ok a => ret a
  | .error e => fail e

@[simp] theorem ofExcept_ok (a : α) : (ofExcept (.ok a) : Prog S ε α) = ret a := rfl

@[simp] theorem ofExcept_error (e : ε) : (ofExcept (.error e) : Prog S ε α) = fail e := rfl

/-- Stop with `e` when the condition holds. -/
def failIf (c : Prop) [Decidable c] (e : ε) : Prog S ε Unit := if c then fail e else ret ()

/-- Turn the outcome of a program into a value: the caller goes on either way. -/
def attempt : Prog S ε α → Prog S ε (Except ε α)
  | ret a => ret (.ok a)
  | fail e => ret (.error e)
  | op c k => op c fun r => (k r).attempt

@[simp] theorem attempt_ret (a : α) : (ret a : Prog S ε α).attempt = ret (.ok a) := rfl

@[simp] theorem attempt_fail (e : ε) : (fail e : Prog S ε α).attempt = ret (.error e) := rfl

@[simp] theorem attempt_op (c : S.Cmd) (k : S.Res c → Prog S ε α) :
    (op c k).attempt = op c fun r => (k r).attempt := rfl

/-- Run a program for every element of a list, in order. -/
def each : List α → (α → Prog S ε Unit) → Prog S ε Unit
  | [], _ => ret ()
  | a :: l, f => f a >>= fun _ => each l f

/-- A loop over programs that do nothing does nothing. -/
theorem each_eq_ret {l : List α} {f : α → Prog S ε Unit} (h : ∀ a ∈ l, f a = ret ()) :
    each l f = ret () := by
  induction l with
  | nil => rfl
  | cons a l ih =>
    rw [each, h a List.mem_cons_self]
    exact ih fun b hb => h b (List.mem_cons_of_mem a hb)

/-- Run a program for every element of a list, in order, and keep the values. -/
def collect : List α → (α → Prog S ε β) → Prog S ε (List β)
  | [], _ => ret []
  | a :: l, f => f a >>= fun b => collect l f >>= fun bs => ret (b :: bs)

/-- A result of which its option has a property. -/
theorem exists_ok {ε α : Type} {x : Except ε α} {p : α → Prop} (h : ∃ a ∈ x.toOption, p a) :
    ∃ a, x = .ok a ∧ p a := by
  obtain ⟨a, ha, hp⟩ := h
  cases x with
  | error e => cases ha
  | ok a' =>
    obtain rfl := Option.some.inj ha
    exact ⟨_, rfl, hp⟩

/-- A chain of validations passes when its first part does and the rest does from there. -/
theorem except_bind_ok {x : Except ε α} {f : α → Except ε β} {b : β} :
    (x >>= f) = .ok b ↔ ∃ a, x = .ok a ∧ f a = .ok b := by
  cases x with
  | ok a =>
    constructor
    · exact fun h => ⟨a, rfl, h⟩
    · rintro ⟨a', ha, h⟩
      cases ha
      exact h
  | error e =>
    constructor
    · intro h
      cases h
    · rintro ⟨a', ha, -⟩
      cases ha

/-! ### The commands of a program -/

/-- Every command that the program can issue, whatever the answers, is one of `Q`. -/
def Uses (Q : S.Cmd → Prop) : Prog S ε α → Prop
  | ret _ => True
  | fail _ => True
  | op c k => Q c ∧ ∀ r, (k r).Uses Q

variable {Q : S.Cmd → Prop}

@[simp] theorem uses_ret (a : α) : (ret a : Prog S ε α).Uses Q := trivial

@[simp] theorem uses_fail (e : ε) : (fail e : Prog S ε α).Uses Q := trivial

theorem uses_op {c : S.Cmd} {k : S.Res c → Prog S ε α} :
    (op c k).Uses Q ↔ Q c ∧ ∀ r, (k r).Uses Q := Iff.rfl

theorem uses_bind {p : Prog S ε α} {f : α → Prog S ε β} (hp : p.Uses Q)
    (hf : ∀ a, (f a).Uses Q) : (p >>= f).Uses Q := by
  induction p with
  | ret a => exact hf a
  | fail e => trivial
  | op c k ih => exact ⟨hp.1, fun r => ih r (hp.2 r)⟩

theorem uses_attempt {p : Prog S ε α} (hp : p.Uses Q) : p.attempt.Uses Q := by
  induction p with
  | ret a => trivial
  | fail e => trivial
  | op c k ih => exact ⟨hp.1, fun r => ih r (hp.2 r)⟩

theorem uses_ofExcept (x : Except ε α) : (ofExcept x : Prog S ε α).Uses Q := by
  cases x <;> trivial

theorem uses_failIf (c : Prop) [Decidable c] (e : ε) :
    (failIf c e : Prog S ε Unit).Uses Q := by
  unfold failIf
  split <;> trivial

theorem uses_each {l : List α} {f : α → Prog S ε Unit} (hf : ∀ a, (f a).Uses Q) :
    (each l f).Uses Q := by
  induction l with
  | nil => trivial
  | cons a l ih => exact uses_bind (hf a) fun _ => ih

theorem uses_collect {l : List α} {f : α → Prog S ε β} (hf : ∀ a, (f a).Uses Q) :
    (collect l f).Uses Q := by
  induction l with
  | nil => trivial
  | cons a l ih => exact uses_bind (hf a) fun _ => uses_bind ih fun _ => trivial

theorem Uses.mono {Q' : S.Cmd → Prop} (h : ∀ c, Q c → Q' c) {p : Prog S ε α} (hp : p.Uses Q) :
    p.Uses Q' := by
  induction p with
  | ret a => trivial
  | fail e => trivial
  | op c k ih => exact ⟨h c hp.1, fun r => ih r (hp.2 r)⟩

theorem Uses.and {Q' : S.Cmd → Prop} {p : Prog S ε α} (hp : p.Uses Q) (hp' : p.Uses Q') :
    p.Uses fun c => Q c ∧ Q' c := by
  induction p with
  | ret a => trivial
  | fail e => trivial
  | op c k ih => exact ⟨⟨hp.1, hp'.1⟩, fun r => ih r (hp.2 r) (hp'.2 r)⟩

/-! ### The values of a program -/

/-- The program can return this value, for some answers. -/
def Returns (a : α) : Prog S ε α → Prop
  | ret b => b = a
  | fail _ => False
  | op _ k => ∃ r, (k r).Returns a

/-- The program can fail, for some answers. -/
def MayFail : Prog S ε α → Prop
  | ret _ => False
  | fail _ => True
  | op _ k => ∃ r, (k r).MayFail

/-- Once an answer is of a kind, the program does not fail any more. -/
def SettledBy (kind : (c : S.Cmd) → S.Res c → Prop) : Prog S ε α → Prop
  | ret _ => True
  | fail _ => True
  | op c k => ∀ r, (kind c r → ¬(k r).MayFail) ∧ (k r).SettledBy kind

/-- The program can return this value although every answer is of a kind. -/
def ReturnsAmong (kind : (c : S.Cmd) → S.Res c → Prop) (a : α) : Prog S ε α → Prop
  | ret b => b = a
  | fail _ => False
  | op c k => ∃ r, kind c r ∧ (k r).ReturnsAmong kind a

theorem ReturnsAmong.of_bind {kind : (c : S.Cmd) → S.Res c → Prop} {p : Prog S ε α}
    {f : α → Prog S ε β} {b : β} (h : (p >>= f).ReturnsAmong kind b) :
    ∃ a, (f a).ReturnsAmong kind b := by
  induction p with
  | ret a => exact ⟨a, h⟩
  | fail e => exact h.elim
  | op c k ih =>
    obtain ⟨r, -, h⟩ := h
    exact ih r h

theorem returns_bind {p : Prog S ε α} {f : α → Prog S ε β} {b : β} :
    (p >>= f).Returns b ↔ ∃ a, p.Returns a ∧ (f a).Returns b := by
  induction p with
  | ret a =>
    constructor
    · exact fun h => ⟨a, rfl, h⟩
    · rintro ⟨a', rfl, h⟩
      exact h
  | fail e =>
    constructor
    · exact False.elim
    · rintro ⟨a, h, -⟩
      exact h
  | op c k ih =>
    constructor
    · rintro ⟨r, h⟩
      obtain ⟨a, ha, hb⟩ := (ih r).mp h
      exact ⟨a, ⟨r, ha⟩, hb⟩
    · rintro ⟨a, ⟨r, ha⟩, hb⟩
      exact ⟨r, (ih r).mpr ⟨a, ha, hb⟩⟩

/-- A sequence issues such commands if its first part does, and its second part does from every
value that the first can return. -/
theorem uses_bind_of_returns {p : Prog S ε α} {f : α → Prog S ε β} (hp : p.Uses Q)
    (hf : ∀ a, p.Returns a → (f a).Uses Q) : (p >>= f).Uses Q := by
  induction p with
  | ret a => exact hf a rfl
  | fail e => trivial
  | op c k ih => exact ⟨hp.1, fun r => ih r (hp.2 r) fun a ha => hf a ⟨r, ha⟩⟩

theorem Uses.settled_bind_of_returns {kind : (c : S.Cmd) → S.Res c → Prop} {p : Prog S ε α}
    {f : α → Prog S ε β} (hp : p.Uses fun c => ∀ r, ¬kind c r)
    (hf : ∀ a, p.Returns a → (f a).SettledBy kind) : (p >>= f).SettledBy kind := by
  induction p with
  | ret a => exact hf a rfl
  | fail e => trivial
  | op c k ih =>
    exact fun r => ⟨fun hkind => absurd hkind (hp.1 r), ih r (hp.2 r) fun a ha => hf a ⟨r, ha⟩⟩

theorem Uses.settled_bind {kind : (c : S.Cmd) → S.Res c → Prop} {p : Prog S ε α}
    {f : α → Prog S ε β} (hp : p.Uses fun c => ∀ r, ¬kind c r) (hf : ∀ a, (f a).SettledBy kind) :
    (p >>= f).SettledBy kind := hp.settled_bind_of_returns fun a _ => hf a

/-! ### Running against a handler -/

/-- The handler of a single client: the answer to a command and the next state. -/
def Handler (S : Signature) (σ : Type) := (c : S.Cmd) → σ → S.Res c × σ

/-- Run a program from a state, answering each command with the handler. -/
def run (h : Handler S σ) : Prog S ε α → σ → Except ε α × σ
  | ret a, s => (.ok a, s)
  | fail e, s => (.error e, s)
  | op c k, s => (k (h c s).1).run h (h c s).2

variable (h : Handler S σ)

@[simp] theorem run_ret (a : α) (s : σ) : (ret a : Prog S ε α).run h s = (.ok a, s) := rfl

@[simp] theorem run_fail (e : ε) (s : σ) :
    (fail e : Prog S ε α).run h s = (.error e, s) := rfl

@[simp] theorem run_op (c : S.Cmd) (k : S.Res c → Prog S ε α) (s : σ) :
    (op c k).run h s = (k (h c s).1).run h (h c s).2 := rfl

/-- A sequence runs its first part, and the rest from there when that part returned. -/
theorem run_bind (p : Prog S ε α) (f : α → Prog S ε β) (s : σ) :
    (p >>= f).run h s = match p.run h s with
      | (.ok a, s') => (f a).run h s'
      | (.error e, s') => (.error e, s') := by
  induction p generalizing s with
  | ret a => rfl
  | fail e => rfl
  | op c k ih => exact ih (h c s).1 (h c s).2

theorem run_attempt (p : Prog S ε α) (s : σ) :
    p.attempt.run h s = (.ok (p.run h s).1, (p.run h s).2) := by
  induction p generalizing s with
  | ret a => rfl
  | fail e => rfl
  | op c k ih => exact ih (h c s).1 (h c s).2

@[simp] theorem run_perform (c : S.Cmd) (s : σ) :
    (perform c : Prog S ε (S.Res c)).run h s = (.ok (h c s).1, (h c s).2) := rfl

/-! ### What a run ends in -/

/-- The outcome of a program and the state it ends in meet a condition. -/
def Ends (post : Except ε α → σ → Prop) (p : Prog S ε α) (s : σ) : Prop :=
  post (p.run h s).1 (p.run h s).2

/-- The condition that asks `Q` of a value and `E` of an error. -/
def outcome (Q : α → σ → Prop) (E : ε → σ → Prop) : Except ε α → σ → Prop
  | .ok a => Q a
  | .error e => E e

@[simp] theorem outcome_ok {Q : α → σ → Prop} {E : ε → σ → Prop} {a : α} {s : σ} :
    outcome Q E (.ok a) s ↔ Q a s := Iff.rfl

@[simp] theorem outcome_error {Q : α → σ → Prop} {E : ε → σ → Prop} {e : ε} {s : σ} :
    outcome Q E (.error e) s ↔ E e s := Iff.rfl

variable {h} {post : Except ε β → σ → Prop} {s : σ}

theorem Ends.mono {post' : Except ε β → σ → Prop} (hpost : ∀ r s, post r s → post' r s)
    {p : Prog S ε β} (hp : p.Ends h post s) : p.Ends h post' s := hpost _ _ hp

theorem Ends.and {post' : Except ε β → σ → Prop} {p : Prog S ε β} (hp : p.Ends h post s)
    (hp' : p.Ends h post' s) : p.Ends h (fun r s => post r s ∧ post' r s) s := ⟨hp, hp'⟩

theorem ends_bind {p : Prog S ε α} {f : α → Prog S ε β}
    (hp : p.Ends h (outcome (fun a s' => (f a).Ends h post s') fun e => post (.error e)) s) :
    (p >>= f).Ends h post s := by
  unfold Ends at hp ⊢
  rw [run_bind]
  rcases hrun : p.run h s with ⟨e | a, s'⟩ <;> rwa [hrun] at hp

theorem ends_attempt {p : Prog S ε α} {post : Except ε (Except ε α) → σ → Prop}
    (hp : p.Ends h (fun r => post (.ok r)) s) : p.attempt.Ends h post s := by
  unfold Ends at hp ⊢
  rw [run_attempt]
  exact hp

theorem ends_ofExcept {x : Except ε α} {f : α → Prog S ε β}
    (herr : ∀ e, x = .error e → post (.error e) s) (hok : ∀ a, x = .ok a → (f a).Ends h post s) :
    (ofExcept x >>= f).Ends h post s := by
  cases x with
  | ok a => exact hok a rfl
  | error e => exact herr e rfl

theorem ends_failIf {c : Prop} [Decidable c] {e : ε} {f : Unit → Prog S ε β}
    (herr : c → post (.error e) s) (hok : ¬c → (f ()).Ends h post s) :
    (failIf c e >>= f).Ends h post s := by
  unfold failIf
  split
  · exact herr ‹c›
  · exact hok ‹¬c›

/-- The loop rule: `I` is indexed by the elements still to come. -/
theorem ends_each {I : List α → σ → Prop} {E : ε → σ → Prop} {f : α → Prog S ε Unit}
    (hf : ∀ a l s, I (a :: l) s → (f a).Ends h (outcome (fun _ => I l) E) s) {l : List α}
    (hI : I l s) : (each l f).Ends h (outcome (fun _ => I []) E) s := by
  induction l generalizing s with
  | nil => exact hI
  | cons a l ih =>
    refine ends_bind ((hf a l s hI).mono fun r s' hr => ?_)
    cases r with
    | ok _ => exact ih hr
    | error e => exact hr

/-- The collecting loop rule: `I` is indexed by the values so far and the elements to come. -/
theorem ends_collect {I : List β → List α → σ → Prop} {E : ε → σ → Prop} {f : α → Prog S ε β}
    (bs : List β)
    (hf : ∀ bs a l s, I bs (a :: l) s → (f a).Ends h (outcome (fun b => I (bs ++ [b]) l) E) s)
    {l : List α} (hI : I bs l s) :
    (collect l f).Ends h (outcome (fun bs' => I (bs ++ bs') []) E) s := by
  induction l generalizing bs s with
  | nil => simpa [collect, Ends, outcome] using hI
  | cons a l ih =>
    refine ends_bind ((hf bs a l s hI).mono fun r s' hr => ?_)
    cases r with
    | error e => exact hr
    | ok b =>
      have hrest : Ends h (outcome (fun bs' => I (bs ++ bs') []) E)
          (collect l f >>= fun bs' => ret (b :: bs')) s' := by
        refine ends_bind ((ih (bs ++ [b]) hr).mono fun r s'' hr' => ?_)
        cases r with
        | error e => exact hr'
        | ok bs' => simpa [Ends, outcome] using hr'
      exact hrest

end Prog

end Interaction
