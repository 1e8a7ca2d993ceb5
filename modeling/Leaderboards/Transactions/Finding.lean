import Leaderboards.Contents.Catalog
import Leaderboards.Library.Atomicity
import Leaderboards.Library.Naming
import Leaderboards.Transactions.ApiRuns
import Leaderboards.Transactions.Reading

/-!
# Rows that were found by their slugs

The handlers of `collection_boards` look for a collection and for a board by their slugs, and use
the ids of the rows later. `Found` says that they have found them. When they use the ids, the rows
are there under their slugs, or there was a moment in between at which one of the slugs was free
(`Found.now`).
-/

namespace Leaderboards

open Interaction Relation

variable {Key : Type} {app : App Key} {faulty : Prop} {t : Tid} {α : Type}
  {g₀ g g' : (api faulty).State Error} {x : Except Error α}

/-- A select outside a transaction answers from the committed tables, or its connection fails. -/
theorem exec_look {q : Query} (hq : q.readOnly = true) {s s' : Server} {h' : Session}
    {L : List Lock}
    {r : (Cmd.sql q).Res} (hexec : Exec faulty (.sql q) s none L r s' h') :
    h' = none ∧ s'.db = s.db ∧ (r = q.answer s.db ∨ faulty ∧ r = .error .connection) := by
  cases hexec with
  | autocommit hu hnow hexec =>
    obtain ⟨hanswer, rfl⟩ := answer_ok hq hexec
    exact ⟨rfl, rfl, .inl hanswer.symm⟩
  | autocommitError hu hnow hexec => exact ⟨rfl, rfl, .inl (answer_error hq hexec).symm⟩
  | statementFault hf => exact ⟨rfl, rfl, .inr ⟨hf, rfl⟩⟩

namespace Api

/-- A thread executes a handler beside the handlers of all messages. -/
abbrev Executes (app : App Key) (t : Tid) (p : Endpoint α) :
    (api faulty).State Error → Except Error α → (api faulty).State Error → Prop :=
  p.Executes (Machine.Acts t) (Machine.Others (Serves app) t)

/-- Steps in which the thread does nothing to the catalog. -/
abbrev Silently (app : App Key) (t : Tid) :
    (api faulty).State Error → (api faulty).State Error → Prop :=
  ReflTransGen (Machine.Silent (Serves app) t Represents)

theorem Silently.good (h : Silently app t g g') (hg : Good g) : Good g' :=
  hg.run (Machine.run_of_silent h)

theorem session_of_others (h : ReflTransGen (Machine.Others (Serves app) t) g g') :
    g'.session t = g.session t := by
  induction h with
  | refl => rfl
  | tail _ hstep ih =>
    rw [← ih]
    unfold Machine.State.session
    rw [hstep.2]

/-! ### Commands of a thread -/

/-- A select of a handler. -/
theorem Executes.select {q : Query} (hq : q.readOnly = true) {k : Except DbError q.Row → Endpoint α}
    (hg : Good g₀) (hidle : g₀.session t = none)
    (h : Executes app t (.op (.inl (.inl (.sql q))) k) g₀ x g) :
    ∃ g₁ g₂ r, Silently app t g₀ g₁ ∧ Silently app t g₁ g₂ ∧ g₂.session t = none ∧
      (r = q.answer g₁.shared.1.1.db ∨ faulty ∧ r = .error .connection) ∧
      Executes app t (k r) g₂ x g := by
  obtain ⟨g₁, r, g₂, hrun, hacts, h⟩ := Prog.executes_op.mp h
  have hbefore : Silently app t g₀ g₁ := Machine.silent_of_others hrun
  have hinv : Inv g₁.shared := (hbefore.good hg).inv
  have hstep := hacts
  obtain ⟨k', s, s', L, sh', ht, hothers, hexec, rfl⟩ := hacts
  obtain rfl : s = none := by
    rw [← hidle, ← session_of_others hrun]
    exact (Machine.State.session_of_thread ht).symm
  obtain ⟨hsession, hdb, hanswer⟩ := exec_look hq hexec.1.1
  refine ⟨g₁, _, r, hbefore, .single (.inr ⟨_, r, hstep, fun K hK => ?_⟩), ?_, hanswer, h⟩
  · refine hK.congr hdb ?_
    rw [hexec.2.after]
    exact (hdb ▸ hinv.referenced).cascade_eq
  · rw [Machine.State.session_exec]
    exact (Function.update_self ..).trans hsession

/-- A statement of a handler on `collection_boards`. -/
theorem Executes.query {q : MembershipQuery} {k : Except DbError q.Row → Endpoint α}
    (h : Executes app t (.op (.inr q) k) g₀ x g) :
    ∃ g₁ g₂ r, Silently app t g₀ g₁ ∧ Machine.Acts (M := api faulty) t (.inr q) g₁ r g₂ ∧
      g₂.shared.1 = g₁.shared.1 ∧
      q.Outcome faulty g₁.shared.1.1.db g₁.shared.2.rows r g₂.shared.2.rows ∧
      Executes app t (k r) g₂ x g := by
  obtain ⟨g₁, r, g₂, hrun, hacts, h⟩ := Prog.executes_op.mp h
  refine ⟨g₁, g₂, r, Machine.silent_of_others hrun, hacts, ?_, ?_, h⟩
  · obtain ⟨k', s, s', L, sh', -, -, hexec, rfl⟩ := hacts
    exact hexec.2.1
  · obtain ⟨k', s, s', L, sh', -, -, hexec, rfl⟩ := hacts
    exact hexec.2.2.2.2

/-! ### The names of collections and boards -/

/-- The slugs of the collections. -/
def collectionNames (app : App Key) (faulty : Prop) (t : Tid) :
    Naming ((api faulty).State Error) Uuid String where
  Step := Machine.Silent (Serves app) t Represents
  Inv := Good
  Has g id slug := ∃ c ∈ g.shared.1.1.db.collections, c.id = id ∧ c.slug = slug
  Used g id := id ∈ g.shared.2.usedCollections
  inv hg hstep := hg.step hstep.step
  unique := by
    rintro g id slug slug' hg ⟨c, hc, rfl, rfl⟩ ⟨c', hc', heq, rfl⟩
    rw [hg.inv.servers.schema.collection_inj hc' hc heq]
  used := by
    rintro g id slug hg ⟨c, hc, rfl, -⟩
    exact hg.inv.used c hc
  stays_used hg hstep hid := ((hg.moves hstep.step).collections hid).1
  reused := by
    rintro g g' id slug hg hstep hid ⟨c, hc, hcid, rfl⟩
    obtain ⟨r, hr, hkey⟩ := ((hg.moves hstep.step).collections hid).2 c hc hcid
    exact ⟨r, hr, hkey.1.trans hcid, hkey.2⟩
  removed := by
    rintro g g' id slug hg hstep ⟨c, hc, rfl, rfl⟩
    refine ((hg.moves hstep.step).collection_fate hg.inv hc).imp ?_ ?_
    · rintro ⟨r, hr, hkey⟩
      exact ⟨r, hr, hkey.1.symm, hkey.2.symm⟩
    · rintro hfree j ⟨r, hr, -, hslug⟩
      exact hfree r hr hslug

/-- The slugs of the boards. -/
def boardNames (app : App Key) (faulty : Prop) (t : Tid) :
    Naming ((api faulty).State Error) Uuid String where
  Step := Machine.Silent (Serves app) t Represents
  Inv := Good
  Has g id slug := ∃ b ∈ g.shared.1.1.db.boards, b.id = id ∧ b.slug = slug
  Used g id := id ∈ g.shared.1.1.usedBoards
  inv hg hstep := hg.step hstep.step
  unique := by
    rintro g id slug slug' hg ⟨b, hb, rfl, rfl⟩ ⟨b', hb', heq, rfl⟩
    rw [hg.inv.servers.schema.board_inj hb' hb heq]
  used := by
    rintro g id slug hg ⟨b, hb, rfl, -⟩
    exact hg.inv.servers.board_used b hb
  stays_used hg hstep hid := ((hg.moves hstep.step).boards hg.inv hid).1
  reused := by
    rintro g g' id slug hg hstep hid ⟨b, hb, hbid, rfl⟩
    obtain ⟨r, hr, hkey⟩ := ((hg.moves hstep.step).boards hg.inv hid).2 b hb hbid
    exact ⟨r, hr, hkey.1.trans hbid, hkey.2.1⟩
  removed := by
    rintro g g' id slug hg hstep ⟨b, hb, rfl, rfl⟩
    refine ((hg.moves hstep.step).board_fate hg.inv hb).imp ?_ ?_
    · rintro ⟨r, hr, hkey⟩
      exact ⟨r, hr, hkey.1.symm, hkey.2.1.symm⟩
    · rintro hfree j ⟨r, hr, -, hslug⟩
      exact hfree r hr hslug

/-- No collection or no board has the slug. -/
def Missing (g : (api faulty).State Error) (slug boardSlug : String) : Prop :=
  (∀ c ∈ g.shared.1.1.db.collections, c.slug ≠ slug) ∨
    ∀ b ∈ g.shared.1.1.db.boards, b.slug ≠ boardSlug

/-- A collection that was found, at a later moment. -/
theorem collection_later (hg : Good g) {c : Collection} (hc : c ∈ g.shared.1.1.db.collections)
    (hrun : Silently app t g g') :
    (∃ c' ∈ g'.shared.1.1.db.collections, c'.id = c.id ∧ c'.slug = c.slug) ∨
      (∀ c' ∈ g'.shared.1.1.db.collections, c'.id ≠ c.id) ∧
        ∃ g₁, Silently app t g g₁ ∧ Silently app t g₁ g' ∧
          ∀ c' ∈ g₁.shared.1.1.db.collections, c'.slug ≠ c.slug := by
  refine ((collectionNames app faulty t).fate hg ⟨c, hc, rfl, rfl⟩ hrun).imp id ?_
  rintro ⟨hgone, g₁, hbefore, hafter, hfree⟩
  exact ⟨fun c' hc' heq => hgone c'.slug ⟨c', hc', heq, rfl⟩, g₁, hbefore, hafter,
    fun c' hc' heq => hfree c'.id ⟨c', hc', rfl, heq⟩⟩

/-- A board that was found, at a later moment. -/
theorem board_later (hg : Good g) {b : Board} (hb : b ∈ g.shared.1.1.db.boards)
    (hrun : Silently app t g g') :
    (∃ b' ∈ g'.shared.1.1.db.boards, b'.id = b.id ∧ b'.slug = b.slug) ∨
      (∀ b' ∈ g'.shared.1.1.db.boards, b'.id ≠ b.id) ∧
        ∃ g₁, Silently app t g g₁ ∧ Silently app t g₁ g' ∧
          ∀ b' ∈ g₁.shared.1.1.db.boards, b'.slug ≠ b.slug := by
  refine ((boardNames app faulty t).fate hg ⟨b, hb, rfl, rfl⟩ hrun).imp id ?_
  rintro ⟨hgone, g₁, hbefore, hafter, hfree⟩
  exact ⟨fun b' hb' heq => hgone b'.slug ⟨b', hb', heq, rfl⟩, g₁, hbefore, hafter,
    fun b' hb' heq => hfree b'.id ⟨b', hb', rfl, heq⟩⟩

/-! ### Looking for a collection and a board -/

/-- A handler that begins with the row of a collection. -/
theorem Executes.findCollection {slug : String} {f : Collection → Endpoint α} (hg : Good g₀)
    (hidle : g₀.session t = none)
    (h : Executes app t ((Collections.getBySlug slug).endpoint >>= f) g₀ x g) :
    (faulty ∧ x = .error (.database .connection) ∧ Silently app t g₀ g) ∨
      (∃ msg g₁, x = .error (.notFound msg) ∧ Silently app t g₀ g₁ ∧ Silently app t g₁ g ∧
        ∀ c ∈ g₁.shared.1.1.db.collections, c.slug ≠ slug) ∨
      ∃ c g₁ g₂, Silently app t g₀ g₁ ∧ Silently app t g₁ g₂ ∧ g₂.session t = none ∧
        c ∈ g₁.shared.1.1.db.collections ∧ c.slug = slug ∧ Executes app t (f c) g₂ x g := by
  obtain ⟨g₁, g₂, r, hbefore, hself, hsession, hr, h⟩ :=
    Executes.select (q := .selectCollectionBySlug slug) rfl hg hidle h
  rcases hr with rfl | ⟨hf, rfl⟩
  · rcases hrow : g₁.shared.1.1.db.collectionBySlug? slug with _ | c
    · have hanswer : (Query.selectCollectionBySlug slug).answer g₁.shared.1.1.db = .ok none :=
        congrArg Except.ok hrow
      rw [hanswer] at h
      obtain ⟨rfl, hafter⟩ := Prog.executes_fail.mp h
      exact .inr (.inl ⟨_, g₁, rfl, hbefore, hself.trans (Machine.silent_of_others hafter),
        Database.collectionBySlug?_eq_none.mp hrow⟩)
    · have hanswer : (Query.selectCollectionBySlug slug).answer g₁.shared.1.1.db = .ok (some c) :=
        congrArg Except.ok hrow
      rw [hanswer] at h
      obtain ⟨hc, hslug⟩ := Database.mem_of_collectionBySlug? hrow
      exact .inr (.inr ⟨c, g₁, g₂, hbefore, hself, hsession, hc, hslug, h⟩)
  · obtain ⟨rfl, hafter⟩ := Prog.executes_fail.mp h
    exact .inl ⟨hf, rfl, hbefore.trans (hself.trans (Machine.silent_of_others hafter))⟩

/-- A handler that begins with the row of a board. -/
theorem Executes.findBoard {slug : String} {f : Board → Endpoint α} (hg : Good g₀)
    (hidle : g₀.session t = none)
    (h : Executes app t ((Boards.getBySlug slug).endpoint >>= f) g₀ x g) :
    (faulty ∧ x = .error (.database .connection) ∧ Silently app t g₀ g) ∨
      (∃ msg g₁, x = .error (.notFound msg) ∧ Silently app t g₀ g₁ ∧ Silently app t g₁ g ∧
        ∀ b ∈ g₁.shared.1.1.db.boards, b.slug ≠ slug) ∨
      ∃ b g₁ g₂, Silently app t g₀ g₁ ∧ Silently app t g₁ g₂ ∧ g₂.session t = none ∧
        b ∈ g₁.shared.1.1.db.boards ∧ b.slug = slug ∧ Executes app t (f b) g₂ x g := by
  obtain ⟨g₁, g₂, r, hbefore, hself, hsession, hr, h⟩ :=
    Executes.select (q := .selectBoardBySlug slug) rfl hg hidle h
  rcases hr with rfl | ⟨hf, rfl⟩
  · rcases hrow : g₁.shared.1.1.db.boardBySlug? slug with _ | b
    · have hanswer : (Query.selectBoardBySlug slug).answer g₁.shared.1.1.db = .ok none :=
        congrArg Except.ok hrow
      rw [hanswer] at h
      obtain ⟨rfl, hafter⟩ := Prog.executes_fail.mp h
      exact .inr (.inl ⟨_, g₁, rfl, hbefore, hself.trans (Machine.silent_of_others hafter),
        Database.boardBySlug?_eq_none.mp hrow⟩)
    · have hanswer : (Query.selectBoardBySlug slug).answer g₁.shared.1.1.db = .ok (some b) :=
        congrArg Except.ok hrow
      rw [hanswer] at h
      obtain ⟨hb, hslug⟩ := Database.mem_of_boardBySlug? hrow
      exact .inr (.inr ⟨b, g₁, g₂, hbefore, hself, hsession, hb, hslug, h⟩)
  · obtain ⟨rfl, hafter⟩ := Prog.executes_fail.mp h
    exact .inl ⟨hf, rfl, hbefore.trans (hself.trans (Machine.silent_of_others hafter))⟩

/-- A caller has found the rows of a collection and of a board by their slugs. -/
structure Found (app : App Key) (t : Tid) (g₀ : (api faulty).State Error) (slug boardSlug : String)
    (c : Collection) (b : Board) (g : (api faulty).State Error) : Prop where
  collection : ∃ g₁, Silently app t g₀ g₁ ∧ Silently app t g₁ g ∧
    c ∈ g₁.shared.1.1.db.collections ∧ c.slug = slug
  board : ∃ g₁, Silently app t g₀ g₁ ∧ Silently app t g₁ g ∧
    b ∈ g₁.shared.1.1.db.boards ∧ b.slug = boardSlug

variable {slug boardSlug : String} {c : Collection} {b : Board}

theorem Found.later (h : Found app t g₀ slug boardSlug c b g) (hrun : Silently app t g g') :
    Found app t g₀ slug boardSlug c b g' where
  collection := by
    obtain ⟨g₁, hbefore, hafter, hc⟩ := h.collection
    exact ⟨g₁, hbefore, hafter.trans hrun, hc⟩
  board := by
    obtain ⟨g₁, hbefore, hafter, hb⟩ := h.board
    exact ⟨g₁, hbefore, hafter.trans hrun, hb⟩

/-- **What has become of the rows.** They are there under their slugs, or one of them is gone and
there was a moment at which its slug was free. -/
theorem Found.now (hg : Good g₀) (h : Found app t g₀ slug boardSlug c b g) :
    ((∃ c' ∈ g.shared.1.1.db.collections, c'.id = c.id ∧ c'.slug = slug) ∧
      ∃ b' ∈ g.shared.1.1.db.boards, b'.id = b.id ∧ b'.slug = boardSlug) ∨
    ((∀ c' ∈ g.shared.1.1.db.collections, c'.id ≠ c.id) ∨
      ∀ b' ∈ g.shared.1.1.db.boards, b'.id ≠ b.id) ∧
      ∃ g₁, Silently app t g₀ g₁ ∧ Silently app t g₁ g ∧ Missing g₁ slug boardSlug := by
  obtain ⟨gc, hbefore, hafter, hc, rfl⟩ := h.collection
  obtain ⟨gb, hbefore', hafter', hb, rfl⟩ := h.board
  rcases collection_later (hbefore.good hg) hc hafter with hthere | ⟨hgone, g₁, hrun, hrun', hfree⟩
  · rcases board_later (hbefore'.good hg) hb hafter' with hthere' | ⟨hgone, g₁, hrun, hrun', hfree⟩
    · exact .inl ⟨hthere, hthere'⟩
    · exact .inr ⟨.inr hgone, g₁, hbefore'.trans hrun, hrun', .inr hfree⟩
  · exact .inr ⟨.inl hgone, g₁, hbefore.trans hrun, hrun', .inl hfree⟩

/-- Rows with the ids that were found are there under their slugs. -/
theorem Found.there (hg : Good g₀) (h : Found app t g₀ slug boardSlug c b g)
    (hc : ∃ c' ∈ g.shared.1.1.db.collections, c'.id = c.id)
    (hb : ∃ b' ∈ g.shared.1.1.db.boards, b'.id = b.id) :
    (∃ c' ∈ g.shared.1.1.db.collections, c'.id = c.id ∧ c'.slug = slug) ∧
      ∃ b' ∈ g.shared.1.1.db.boards, b'.id = b.id ∧ b'.slug = boardSlug := by
  rcases h.now hg with hthere | ⟨hgone | hgone, -⟩
  · exact hthere
  · obtain ⟨c', hc', hid⟩ := hc
    exact absurd hid (hgone c' hc')
  · obtain ⟨b', hb', hid⟩ := hb
    exact absurd hid (hgone b' hb')

/-- When a row that was found is gone, its slug was free at some moment. -/
theorem Found.missing (hg : Good g₀) (h : Found app t g₀ slug boardSlug c b g)
    (hgone : (∀ c' ∈ g.shared.1.1.db.collections, c'.id ≠ c.id) ∨
      ∀ b' ∈ g.shared.1.1.db.boards, b'.id ≠ b.id) :
    ∃ g₁, Silently app t g₀ g₁ ∧ Silently app t g₁ g ∧ Missing g₁ slug boardSlug := by
  rcases h.now hg with ⟨⟨c', hc', hcid, -⟩, b', hb', hbid, -⟩ | ⟨-, hmissing⟩
  · rcases hgone with hgone | hgone
    · exact absurd hcid (hgone c' hc')
    · exact absurd hbid (hgone b' hb')
  · exact hmissing

/-- **A handler that begins with a collection and a board.** -/
theorem Executes.find {f : Collection → Board → Endpoint α} (hg : Good g₀)
    (hidle : g₀.session t = none)
    (h : Executes app t ((Collections.getBySlug slug).endpoint >>= fun c =>
      (Boards.getBySlug boardSlug).endpoint >>= fun b => f c b) g₀ x g) :
    (faulty ∧ x = .error (.database .connection) ∧ Silently app t g₀ g) ∨
      (∃ msg g₁, x = .error (.notFound msg) ∧ Silently app t g₀ g₁ ∧ Silently app t g₁ g ∧
        Missing g₁ slug boardSlug) ∨
      ∃ c b g₁, Silently app t g₀ g₁ ∧ Found app t g₀ slug boardSlug c b g₁ ∧
        Executes app t (f c b) g₁ x g := by
  rcases h.findCollection hg hidle with ⟨hf, rfl, hrun⟩ | ⟨msg, g₁, rfl, hbefore, hafter, hfree⟩ |
    ⟨c, g₁, g₂, hbefore, hself, hsession, hc, hslug, h⟩
  · exact .inl ⟨hf, rfl, hrun⟩
  · exact .inr (.inl ⟨msg, g₁, rfl, hbefore, hafter, .inl hfree⟩)
  · have hbefore₂ : Silently app t g₀ g₂ := hbefore.trans hself
    rcases h.findBoard (hbefore₂.good hg) hsession with ⟨hf, rfl, hrun⟩ |
      ⟨msg, g₃, rfl, hrun, hafter, hfree⟩ | ⟨b, g₃, g₄, hrun, hself', hsession', hb, hslug', h⟩
    · exact .inl ⟨hf, rfl, hbefore₂.trans hrun⟩
    · exact .inr (.inl ⟨msg, g₃, rfl, hbefore₂.trans hrun, hafter, .inr hfree⟩)
    · refine .inr (.inr ⟨c, b, g₄, hbefore₂.trans (hrun.trans hself'), ⟨?_, ?_⟩, h⟩)
      · exact ⟨g₁, hbefore, hself.trans (hrun.trans hself'), hc, hslug⟩
      · exact ⟨g₃, hbefore₂.trans hrun, hself', hb, hslug'⟩

end Api

end Leaderboards
