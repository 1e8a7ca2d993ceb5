import Leaderboards.Repo.Reads
import Leaderboards.Transactions.Reading

/-!
# Readers beside the handlers

What the selects of a reader answer while handlers run (`System.Looks`), and what stays as it is in
the meantime: a board and an entry that are there at both ends of a run keep their ids and slugs all
the way (`System.Reachable.board_between`, `System.Reachable.entry_between`).
-/

namespace Leaderboards

open Interaction

variable {P : Policy} {faulty : Prop} {α β : Type} {g₀ g g₁ g' : System faulty}

/-! ### What a select answers -/

/-- A select outside a transaction answers from the committed tables, or its connection fails. -/
def System.Looks :
    (c : (Service.sum Lookups).Cmd) → System faulty → (Service.sum Lookups).Res c → Prop
  | .inl (.sql q), g, r =>
    q.readOnly = true ∧ (r = q.answer g.servers.db ∨ faulty ∧ r = .error .connection)
  | .inl _, _, _ => False
  | .inr l, g, r => r = .ok (l.answer g.servers.db) ∨ faulty ∧ r = .error .connection

/-- A reader goes from one state to another, while the handlers run. -/
abbrev System.Observes (P : Policy) (p : Reading α) :
    System faulty → Except Error α → System faulty → Prop :=
  p.Observes System.Looks (System.Step P)

/-- The selects of a handler are looks. -/
theorem System.looks_of_exec {q : Query} (hq : q.readOnly = true) {L : List Lock}
    {a : (Cmd.sql q).Res} {s' : Server} {h' : Session}
    (hexec : Exec faulty (.sql q) g.servers none L a s' h') :
    h' = none ∧ System.Looks (.inl (.sql q)) g a := by
  generalize hs : g.servers = s at hexec
  cases hexec with
  | autocommit hu hnow hexec =>
    obtain ⟨hanswer, rfl⟩ := answer_ok hq hexec
    refine ⟨rfl, hq, .inl ?_⟩
    rw [hs, hanswer]
  | autocommitError hu hnow hexec =>
    refine ⟨rfl, hq, .inl ?_⟩
    rw [hs, answer_error hq hexec]
  | statementFault hf => exact ⟨rfl, hq, .inr ⟨hf, rfl⟩⟩

/-- **A handler that reads is a reader**: what its course leads to is what is observed. -/
theorem Reads.observes {p rest : Action α} (hp : Reads p) {t : Tid} {f : α → Action Unit}
    {done : List (Machine.Answered Service)} {s : (server faulty).Session}
    (h : Machine.Course (M := server faulty) (Serves P) (fun _ _ _ _ => True) t f p g₀ done s
      rest g) :
    s = none ∧ Reads rest ∧ ∀ x g', System.Observes P rest.inl g x g' →
      System.Observes P p.inl g₀ x g' := by
  induction h with
  | start ht => exact ⟨rfl, hp, fun _ _ h => h⟩
  | other h hstep ht _ ih =>
    obtain ⟨hs, hrest, hobserves⟩ := ih
    exact ⟨hs, hrest, fun x g' h => hobserves x g' (h.head (.single hstep))⟩
  | @own done s s' c k g L a sh' h hothers hexec ih =>
    obtain ⟨rfl, hrest, hobserves⟩ := ih
    have hstep : System.Step P g _ := .exec g t _ _ _ _ _ _ _ h.thread hothers hexec
    cases hrest with
    | @select q k hq herr hok =>
      obtain ⟨rfl, hlook⟩ := System.looks_of_exec hq hexec
      refine ⟨rfl, (Reads.select hq herr hok).rest a, fun x g' h => hobserves x g' ?_⟩
      exact .op .refl ⟨hlook, rfl⟩ (h.head (.single hstep))

/-- A select of a handler, in a reader. -/
theorem System.Observes.sql {q : Query} {f : q.Row → Reading α} {x : Except Error α}
    (h : System.Observes P ((Action.sql q).inl >>= f) g x g') :
    (∃ e, x = .error (.database e)) ∨ ∃ g₁ row, System.Steps P g g₁ ∧
      q.answer g₁.servers.db = .ok row ∧ System.Observes P (f row) g₁ x g' := by
  obtain ⟨g₁, r, hrun, hlook, h⟩ := Prog.observes_op.mp h
  rcases r with e | row
  · exact .inl ⟨e, (Prog.executes_fail.mp h).1⟩
  · obtain ⟨-, hanswer | ⟨-, herror⟩⟩ := hlook
    · exact .inr ⟨g₁, row, hrun, hanswer.symm, h⟩
    · cases herror

/-- A select of a reader. -/
theorem System.Observes.fetch {l : Lookup} {f : l.Row → Reading α} {x : Except Error α}
    (h : System.Observes P (l.fetch >>= f) g x g') :
    (∃ e, x = .error (.database e)) ∨ ∃ g₁, System.Steps P g g₁ ∧
      System.Observes P (f (l.answer g₁.servers.db)) g₁ x g' := by
  obtain ⟨g₁, r, hrun, hlook, h⟩ := Prog.observes_op.mp h
  rcases r with e | row
  · exact .inl ⟨e, (Prog.executes_fail.mp h).1⟩
  · rcases hlook with hanswer | ⟨-, herror⟩
    · obtain rfl := Except.ok.inj hanswer
      exact .inr ⟨g₁, hrun, h⟩
    · cases herror

/-! ### What stays -/

/-- A board that is there at both ends of a run is there all the way. -/
theorem System.Reachable.board_between (hg : System.Reachable P g) {b : Board}
    (hb : b ∈ g.servers.db.boards) (hrun : System.Steps P g g₁) (hlater : System.Steps P g₁ g')
    (hboard : ∃ r ∈ g'.servers.db.boards, r.id = b.id) :
    ∃ r ∈ g₁.servers.db.boards, b.SameKey r := by
  obtain ⟨r', hr', hid'⟩ := hboard
  have hused : b.id ∈ g.servers.usedBoards := hg.inv.board_used b hb
  have hg₁ : System.Reachable P g₁ := hg.trans hrun
  obtain ⟨r, hr, hkey⟩ := (hg₁.rely hlater).board_reused r' hr'
    (hid' ▸ (hg.rely hrun).board_used _ hused)
  have hrid : r.id = b.id := hkey.1.trans hid'
  obtain ⟨b', hb', hkey'⟩ := (hg.rely hrun).board_reused r hr (hrid ▸ hused)
  obtain rfl := hg.inv.schema.board_inj hb' hb (hkey'.1.trans hrid)
  exact ⟨r, hr, hkey'⟩

/-- An entry that is there at both ends of a run is there all the way. -/
theorem System.Reachable.entry_between (hg : System.Reachable P g) {e : Entry}
    (he : e ∈ g.servers.db.entries) (hrun : System.Steps P g g₁) (hlater : System.Steps P g₁ g')
    (hentry : ∃ r ∈ g'.servers.db.entries, r.id = e.id) :
    ∃ r ∈ g₁.servers.db.entries, e.SameKey r := by
  obtain ⟨r', hr', hid'⟩ := hentry
  have hused : e.id ∈ g.servers.usedEntries := hg.inv.entry_used e he
  have hg₁ : System.Reachable P g₁ := hg.trans hrun
  obtain ⟨r, hr, hkey⟩ := (hg₁.rely hlater).entry_reused r' hr'
    (hid' ▸ (hg.rely hrun).entry_used _ hused)
  have hrid : r.id = e.id := hkey.1.trans hid'
  obtain ⟨e', he', hkey'⟩ := (hg.rely hrun).entry_reused r hr (hrid ▸ hused)
  obtain rfl := hg.inv.schema.entry_inj he' he (hkey'.1.trans hrid)
  exact ⟨r, hr, hkey'⟩

/-- The board row that a reader finds by its slug. -/
theorem System.Observes.getBySlug {f : Board → Reading α} {x : Except Error α} {b : Board}
    (hg : System.Reachable P g) (hb : b ∈ g.servers.db.boards)
    (hboard : ∃ r ∈ g'.servers.db.boards, r.id = b.id)
    (h : System.Observes P ((Boards.getBySlug b.slug).inl >>= f) g x g') :
    (∃ e, x = .error (.database e)) ∨ ∃ g₁ r, System.Steps P g g₁ ∧ r ∈ g₁.servers.db.boards ∧
      b.SameKey r ∧ System.Observes P (f r) g₁ x g' := by
  obtain ⟨g₁, r, hrun, hlook, h⟩ := Prog.observes_op.mp h
  rcases r with e | row
  · exact .inl ⟨e, (Prog.executes_fail.mp h).1⟩
  · obtain ⟨-, hanswer | ⟨-, herror⟩⟩ := hlook
    · have hg₁ : System.Reachable P g₁ := hg.trans hrun
      obtain ⟨r, hr, hkey⟩ := hg.board_between hb hrun h.run hboard
      have hrow : row = some r := by
        have hfind : (Query.selectBoardBySlug b.slug).answer g₁.servers.db =
            .ok (g₁.servers.db.boardBySlug? b.slug) := rfl
        rw [hkey.2.1, hg₁.inv.schema.boardBySlug?_eq hr, ← hkey.2.1] at hfind
        exact Except.ok.inj (hanswer.trans hfind)
      subst hrow
      exact .inr ⟨g₁, r, hrun, hr, hkey, h⟩
    · cases herror

/-- The entry row that a reader finds by its slug. -/
theorem System.Observes.getEntry {f : Entry → Reading α} {x : Except Error α} {e : Entry}
    (hg : System.Reachable P g) (he : e ∈ g.servers.db.entries)
    (hentry : ∃ r ∈ g'.servers.db.entries, r.id = e.id)
    (h : System.Observes P (Entries.getBySlug e.boardId e.slug >>= f) g x g') :
    (∃ err, x = .error (.database err)) ∨ ∃ g₁ r, System.Steps P g g₁ ∧
      r ∈ g₁.servers.db.entries ∧ e.SameKey r ∧ System.Observes P (f r) g₁ x g' := by
  rw [Entries.getBySlug, Prog.bind_assoc] at h
  rcases h.fetch with herror | ⟨g₁, hrun, h⟩
  · exact .inl herror
  · have hg₁ : System.Reachable P g₁ := hg.trans hrun
    obtain ⟨r, hr, hkey⟩ := hg.entry_between he hrun h.run hentry
    have hrow : (Lookup.entryBySlug e.boardId e.slug).answer g₁.servers.db = some r := by
      rw [hkey.2.1, hkey.2.2]
      exact hg₁.inv.schema.entryBySlug?_eq hr
    rw [hrow] at h
    exact .inr ⟨g₁, r, hrun, hr, hkey, h⟩

end Leaderboards
