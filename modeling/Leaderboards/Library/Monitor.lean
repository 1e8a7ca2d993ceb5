import Leaderboards.Library.Trace

/-!
# Monitors

A `Monitor` watches one program. It has a state, which every answered command moves on; it says
which commands it allows in a state and which answers it expects to them. A program `Keeps` to a
monitor when all its commands are allowed, as long as the answers are expected ones, and its outcome
fits the state in which it ends.

`Keeps` goes through the constructions of programs (`keeps_bind`, `keeps_attempt`, `keeps_each`),
and along the answers of a program (`Answers.keeps`). So it says of every thread of a trace where
its monitor is and that the rest of its program keeps to it.

An `Outline` gives the states of a monitor a meaning: an assertion on the session of the thread and
the shared state. **`Outline.outlined`**: when each command of the thread leads from the assertion
to the next one, and the others keep it by steps that meet a condition, it holds in every trace of
such steps. The condition may depend on what the thread has been answered.
-/

namespace Interaction

/-- A monitor of programs. -/
structure Monitor (S : Signature) (σ : Type) where
  /-- The commands that a program may execute. -/
  allows : σ → S.Cmd → Prop
  /-- The answers that a program can get. -/
  expects : σ → (c : S.Cmd) → S.Res c → Prop
  /-- The state after an answered command. -/
  next : σ → (c : S.Cmd) → S.Res c → σ

namespace Monitor

variable {S : Signature} {σ ε α β : Type} (m : Monitor S σ)

/-- The program keeps to the monitor, and its outcome fits the state in which it ends. -/
def Keeps (post : Except ε α → σ → Prop) : Prog S ε α → σ → Prop
  | .ret a, s => post (.ok a) s
  | .fail e, s => post (.error e) s
  | .op c k, s => m.allows s c ∧ ∀ r, m.expects s c r → Keeps post (k r) (m.next s c r)

/-- The state after some answered commands. -/
def after (s : σ) (done : List (Machine.Answered S)) : σ :=
  done.foldl (fun s x => m.next s x.1 x.2) s

/-- Every answer was an expected one. -/
def Expected (s : σ) : List (Machine.Answered S) → Prop
  | [] => True
  | x :: done => m.expects s x.1 x.2 ∧ Expected (m.next s x.1 x.2) done

variable {m} {post : Except ε α → σ → Prop} {s : σ}

theorem Keeps.mono {post' : Except ε α → σ → Prop} {p : Prog S ε α} (hp : m.Keeps post p s)
    (h : ∀ x s', post x s' → post' x s') : m.Keeps post' p s := by
  induction p generalizing s with
  | ret a => exact h _ _ hp
  | fail e => exact h _ _ hp
  | op c k ih => exact ⟨hp.1, fun r hr => ih r (hp.2 r hr)⟩

theorem keeps_bind {post : Except ε β → σ → Prop} {p : Prog S ε α} {f : α → Prog S ε β}
    (hp : m.Keeps (fun x s' => match x with
      | .ok a => m.Keeps post (f a) s'
      | .error e => post (.error e) s') p s) : m.Keeps post (p >>= f) s := by
  induction p generalizing s with
  | ret a => exact hp
  | fail e => exact hp
  | op c k ih => exact ⟨hp.1, fun r hr => ih r (hp.2 r hr)⟩

theorem keeps_attempt {post : Except ε (Except ε α) → σ → Prop} {p : Prog S ε α}
    (hp : m.Keeps (fun x s' => post (.ok x) s') p s) : m.Keeps post p.attempt s := by
  induction p generalizing s with
  | ret a => exact hp
  | fail e => exact hp
  | op c k ih => exact ⟨hp.1, fun r hr => ih r (hp.2 r hr)⟩

/-- The loop rule: `I` holds of the states between the rounds. -/
theorem keeps_each {I : σ → Prop} {E : ε → σ → Prop} {f : β → Prog S ε Unit} {l : List β}
    (hf : ∀ b ∈ l, ∀ s, I s → m.Keeps (fun x s' => match x with
      | .ok _ => I s'
      | .error e => E e s') (f b) s) (hs : I s) : m.Keeps (fun x s' => match x with
      | .ok _ => I s'
      | .error e => E e s') (Prog.each l f) s := by
  induction l generalizing s with
  | nil => exact hs
  | cons b l ih =>
    refine keeps_bind ((hf b List.mem_cons_self s hs).mono fun x s' hx => ?_)
    cases x with
    | error e => exact hx
    | ok _ => exact ih (fun b' hb' => hf b' (List.mem_cons_of_mem _ hb')) hx

/-- The rest of a program keeps to the monitor in the state that its answers lead to. -/
theorem Keeps.answers {p rest : Prog S ε α} {done : List (Machine.Answered S)}
    (hp : m.Keeps post p s) (h : Machine.Answers p done rest) (hexpected : m.Expected s done) :
    m.Keeps post rest (m.after s done) := by
  induction h generalizing s with
  | done p => exact hp
  | next h ih => exact ih (hp.2 _ hexpected.1) hexpected.2

end Monitor

/-! ### Assertions -/

/-- The assertions on a thread, one for each state of a monitor. -/
structure Outline (M : Machine S) (σ : Type) where
  /-- The state after an answered command. -/
  next : σ → (c : S.Cmd) → S.Res c → σ
  /-- What holds of the session and the shared state. -/
  holds : σ → M.Session → M.Shared → Prop

namespace Outline

variable {S : Signature} {M : Machine S} {σ ε R : Type} (O : Outline M σ) (Inv : M.Shared → Prop)

/-- The monitor that allows the commands that lead to the next assertion, and expects the answers
that are possible under the assertion and the invariant. -/
def monitor (t : Tid) : Monitor S σ where
  allows s c := ∀ sh h L r sh' h', Inv sh → O.holds s h sh → M.exec t c sh h L r sh' h' →
    O.holds (O.next s c r) h' sh'
  expects s c r := ∃ sh h L sh' h', Inv sh ∧ O.holds s h sh ∧ M.exec t c sh h L r sh' h'
  next := O.next

/-- The state that some answered commands lead to. -/
def after (s : σ) (done : List (Machine.Answered S)) : σ :=
  done.foldl (fun s x => O.next s x.1 x.2) s

theorem after_concat (s : σ) (done : List (Machine.Answered S)) (x : Machine.Answered S) :
    O.after s (done ++ [x]) = O.next (O.after s done) x.1 x.2 := by
  simp [after]

variable {handler : R → Prog S ε Unit} {allowed : R → Prop}
  {cond : List (Event S R) → (Tid → Option R) → M.State ε → M.State ε → Prop}
  {g₀ g : M.State ε} {es : List (Event S R)} {who : Tid → Option R}

open Machine

/-- **In every trace whose steps meet the condition the assertions hold** of the threads that are
watched, and the rest of their programs leads from there to what is asked of their outcomes. -/
theorem outlined (watched : R → Prop) (s₀ : σ) (post : Except ε Unit → σ → Prop)
    (hinv : ∀ {es who g}, TraceWhere handler allowed cond g₀ es who g → Inv g.shared)
    (hidle : ∀ sh, Inv sh → O.holds s₀ M.idle sh)
    (hkeeps : ∀ r, allowed r → watched r → ∀ t, (O.monitor Inv t).Keeps post (handler r) s₀)
    (hothers : ∀ {es who g x who' g'}, TraceWhere handler allowed cond g₀ es who g →
      Happens handler allowed who g x who' g' → cond es who g g' → Inv g'.shared →
      ∀ t r th, x.thread ≠ t → who t = some r → watched r → g.thread t = some th →
        O.holds (O.after s₀ (answersSince t es)) th.session g.shared →
        O.holds (O.after s₀ (answersSince t es)) th.session g'.shared)
    (h : TraceWhere handler allowed cond g₀ es who g) :
    ∀ t r th, who t = some r → watched r → g.thread t = some th →
      O.holds (O.after s₀ (answersSince t es)) th.session g.shared ∧
        (O.monitor Inv t).Keeps post th.rest (O.after s₀ (answersSince t es)) := by
  induction h with
  | start =>
    intro t r th hwho
    cases hwho
  | @step es who who' g g' x h hx hcond ih =>
    intro t r th hwho hr ht
    by_cases hne : x.thread = t
    · -- The thread itself moves.
      cases hx with
      | call u r' hr' hu =>
        obtain rfl : u = t := hne
        obtain rfl := Option.some.inj ((Function.update_self u (some r') who).symm.trans hwho)
        obtain rfl := Option.some.inj ((g.setThread_self u _).symm.trans ht)
        rw [answersSince_call_self]
        exact ⟨hidle g.shared (hinv h), hkeeps _ hr' hr u⟩
      | exec u c k s s' L a sh' hu hadmits hexec =>
        obtain rfl : u = t := hne
        obtain rfl := Option.some.inj
          ((Function.update_self u (some ⟨s', k a⟩) g.thread).symm.trans ht)
        obtain ⟨hholds, hallows, hrest⟩ := ih u r _ hwho hr hu
        rw [answersSince_exec_self, O.after_concat]
        exact ⟨hallows _ _ _ _ _ _ (hinv h) hholds hexec,
          hrest a ⟨_, _, _, _, _, hinv h, hholds, hexec⟩⟩
      | crash u th' hc hu =>
        obtain rfl : u = t := hne
        cases (g.setThread_self u _).symm.trans ht
    -- Another thread moves: its step meets the condition, so it keeps the assertion.
    · obtain ⟨hwho', ht'⟩ := hx.others hne
      obtain ⟨hholds, hrest⟩ := ih t r th (hwho' ▸ hwho) hr (ht' ▸ ht)
      rw [answersSince_of_ne hne]
      exact ⟨hothers h hx hcond (hinv (h.step hx hcond)) t r th hne (hwho' ▸ hwho) hr (ht' ▸ ht)
        hholds, hrest⟩

end Outline

end Interaction
