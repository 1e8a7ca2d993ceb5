import Leaderboards.Properties.WriteAccess
import Leaderboards.Transactions.Finding

/-!
# Calls on the members of collections

`add_board` and `remove_board` look for the rows of the collection and of the board, and then
execute one statement with their ids. In between anything may happen: the collection or the board
may be deleted, and another one may be created under the same slug. Still each call does to the
catalog what one operation does, at one moment between its call and its end
(**`member_calls_atomic`**).

`get_with_boards` reads the row of the collection and then its boards. The boards are those of one
moment at which the collection is there, or the collection has been deleted and the answer has none
(**`listing_shows_moment`**).
-/

namespace Leaderboards

open Interaction Relation Ranking

variable {Key : Type} {app : App Key} {faulty : Prop} {t : Tid} {sh sh' : Api.Shared} {K : Catalog}

/-! ### Rows and members -/

section Rows

variable {row row' : CollectionBoard} {c b : String} {o o' : ℤ} {x : Collection} {y : Board}

/-- A row that belongs to a collection and a board, by their slugs and by their ids. -/
theorem CollectionBoard.Names.hasKey {db : Database} (h : row.Names db c b o) (hdb : db.Schema)
    (hx : x ∈ db.collections) (hy : y ∈ db.boards) :
    row.HasKey x.id y.id ↔ c = x.slug ∧ b = y.slug := by
  obtain ⟨⟨x', hx', hxid, rfl⟩, ⟨y', hy', hyid, rfl⟩, -⟩ := h
  constructor
  · rintro ⟨hxid', hyid'⟩
    rw [hdb.collection_inj hx' hx (hxid.trans hxid'), hdb.board_inj hy' hy (hyid.trans hyid')]
    exact ⟨rfl, rfl⟩
  · rintro ⟨hslug, hslug'⟩
    obtain rfl : x' = x := List.inj_on_of_nodup_map hdb.collection_slug hx' hx hslug
    obtain rfl := hdb.board_slug_inj hy' hy hslug'
    exact ⟨hxid.symm, hyid.symm⟩

/-- Rows for the same board in the same collection are one row. -/
theorem Api.Inv.row_inj (hinv : Api.Inv sh) (hrow : row ∈ sh.2.rows) (hrow' : row' ∈ sh.2.rows)
    {id boardId : Uuid} (h : row.HasKey id boardId) (h' : row'.HasKey id boardId) : row = row' :=
  List.inj_on_of_nodup_map hinv.keys hrow hrow'
    (Prod.ext (h.1.trans h'.1.symm) (h.2.trans h'.2.symm))

/-- Every row names its collection and its board. -/
theorem Api.Inv.names (hinv : Api.Inv sh) (hrow : row ∈ sh.2.rows) :
    ∃ c b, row.Names sh.1.1.db c b row.displayOrder := by
  obtain ⟨hcollection, hboard⟩ := hinv.referenced row hrow
  obtain ⟨x, hx⟩ := Option.isSome_iff_exists.mp hcollection
  obtain ⟨y, hy⟩ := Option.isSome_iff_exists.mp hboard
  obtain ⟨hx, hxid⟩ := Database.mem_of_collection? hx
  obtain ⟨hy, hyid⟩ := Database.mem_of_board? hy
  exact ⟨x.slug, y.slug, ⟨x, hx, hxid, rfl⟩, ⟨y, hy, hyid, rfl⟩, rfl⟩

/-- **The tables stand for a catalog.** -/
theorem Api.Inv.exists_catalog (hinv : Api.Inv sh) : ∃ K, Represents sh K := by
  refine ⟨{ collections := {c | ∃ x ∈ sh.1.1.db.collections, x.slug = c}
            boards := {b | ∃ y ∈ sh.1.1.db.boards, y.slug = b}
            members := {m | ∃ row ∈ sh.2.rows, row.Names sh.1.1.db m.1 m.2.1 m.2.2}
            referenced := ?_, once := ?_ }, fun _ => Iff.rfl, fun _ => Iff.rfl,
              fun _ _ _ => Iff.rfl⟩
  · rintro c b o ⟨row, -, ⟨x, hx, -, hslug⟩, ⟨y, hy, -, hslug'⟩, -⟩
    exact ⟨⟨x, hx, hslug⟩, y, hy, hslug'⟩
  · rintro c b o o' ⟨row, hrow, hnames⟩ ⟨row', hrow', hnames'⟩
    obtain ⟨⟨x, hx, hxid, hslug⟩, ⟨y, hy, hyid, hslug'⟩, horder⟩ := hnames
    have hkey' : row'.HasKey x.id y.id :=
      (hnames'.hasKey hinv.servers.schema hx hy).mpr ⟨hslug.symm, hslug'.symm⟩
    have heq : row = row' := hinv.row_inj hrow hrow' ⟨hxid.symm, hyid.symm⟩ hkey'
    exact horder.symm.trans (heq ▸ hnames'.order)

/-- A board is in a collection when there is a row with their ids. -/
theorem Represents.has_iff (hK : Represents sh K) (hinv : Api.Inv sh)
    (hx : x ∈ sh.1.1.db.collections) (hy : y ∈ sh.1.1.db.boards) :
    K.Has x.slug y.slug ↔ ∃ row ∈ sh.2.rows, row.HasKey x.id y.id := by
  constructor
  · rintro ⟨o, ho⟩
    obtain ⟨row, hrow, hnames⟩ := (hK.members _ _ _).mp ho
    exact ⟨row, hrow, (hnames.hasKey hinv.servers.schema hx hy).mpr ⟨rfl, rfl⟩⟩
  · rintro ⟨row, hrow, hkey⟩
    refine ⟨row.displayOrder, (hK.members _ _ _).mpr ⟨row, hrow, ?_, ?_, rfl⟩⟩
    · exact ⟨x, hx, hkey.1.symm, rfl⟩
    · exact ⟨y, hy, hkey.2.symm, rfl⟩

/-- The catalog with the row that was inserted. -/
theorem Represents.insert (hK : Represents sh K) (hinv : Api.Inv sh)
    (hx : x ∈ sh.1.1.db.collections) (hy : y ∈ sh.1.1.db.boards) (hc : x.slug ∈ K.collections)
    (hb : y.slug ∈ K.boards) (hnew : ¬K.Has x.slug y.slug) (hsame : sh'.1 = sh.1)
    (hrows : sh'.2.rows = sh.2.rows ++ [⟨x.id, y.id, o⟩]) :
    Represents sh' (K.insert x.slug y.slug o hc hb hnew) := by
  have hrow : ∀ c b o', (⟨x.id, y.id, o⟩ : CollectionBoard).Names sh.1.1.db c b o' ↔
      (c, b, o') = (x.slug, y.slug, o) := by
    intro c b o'
    constructor
    · intro h
      obtain ⟨rfl, rfl⟩ := (h.hasKey hinv.servers.schema hx hy).mp ⟨rfl, rfl⟩
      rw [← h.order]
    · intro h
      obtain ⟨rfl, rfl, rfl⟩ : c = x.slug ∧ b = y.slug ∧ o' = o := by simpa using h
      exact ⟨⟨x, hx, rfl, rfl⟩, ⟨y, hy, rfl, rfl⟩, rfl⟩
  refine ⟨?_, ?_, fun c b o' => ?_⟩
  · rw [hsame]
    exact hK.collections
  · rw [hsame]
    exact hK.boards
  · have hmem : (c, b, o') ∈ (K.insert x.slug y.slug o hc hb hnew).members ↔
        (c, b, o') = (x.slug, y.slug, o) ∨ (c, b, o') ∈ K.members := Set.mem_insert_iff
    rw [hmem, hK.members, ← hrow, hsame, hrows]
    simp only [List.mem_append, List.mem_singleton, or_and_right, exists_or, exists_eq_left]
    exact or_comm

/-- The catalog without the row that was deleted. -/
theorem Represents.erase (hK : Represents sh K) (hinv : Api.Inv sh)
    (hx : x ∈ sh.1.1.db.collections) (hy : y ∈ sh.1.1.db.boards) (hsame : sh'.1 = sh.1)
    (hrows : sh'.2.rows = sh.2.rows.filter fun r => ¬r.HasKey x.id y.id) :
    Represents sh' (K.erase x.slug y.slug) := by
  refine ⟨?_, ?_, fun c b o' => ?_⟩
  · rw [hsame]
    exact hK.collections
  · rw [hsame]
    exact hK.boards
  · have hmem : (c, b, o') ∈ (K.erase x.slug y.slug).members ↔
        (c, b, o') ∈ K.members ∧ ¬(c = x.slug ∧ b = y.slug) := Iff.rfl
    rw [hmem, hK.members, hsame, hrows]
    constructor
    · rintro ⟨⟨row, hrow, hnames⟩, hne⟩
      refine ⟨row, List.mem_filter.mpr ⟨hrow, ?_⟩, hnames⟩
      rw [decide_eq_true_eq, hnames.hasKey hinv.servers.schema hx hy]
      exact hne
    · rintro ⟨row, hrow, hnames⟩
      obtain ⟨hrow, hne⟩ := List.mem_filter.mp hrow
      rw [decide_eq_true_eq, hnames.hasKey hinv.servers.schema hx hy] at hne
      exact ⟨⟨row, hrow, hnames⟩, hne⟩

end Rows

/-! ### The calls -/

/-- What a call answers and does when its operation is executed at one moment. A call that loses its
connection has done what its operation does, or nothing. -/
def Catalog.Does (faulty : Prop) (op : Catalog → Except Refusal Catalog) (y : Except Error Unit)
    (K K' : Catalog) : Prop :=
  match y with
  | .ok () => op K = .ok K'
  | .error (.notFound _) => op K = .error .notFound ∧ K' = K
  | .error (.conflict _) => op K = .error .conflict ∧ K' = K
  | .error e => faulty ∧ e = .database .connection ∧ (K' = K ∨ op K = .ok K')

/-- The calls on the members of a collection. -/
inductive MemberCall
  | add (slug : String) (input : AddBoardToCollection)
  | remove (slug boardSlug : String)

namespace MemberCall

/-- The handler of a call. -/
def handler : MemberCall → Endpoint Unit
  | add slug input => Collections.addBoard slug input
  | remove slug boardSlug => Collections.removeBoard slug boardSlug

/-- The operation of a call. -/
noncomputable def operation : MemberCall → Catalog → Except Refusal Catalog
  | add slug input => fun K => K.add slug input.boardSlug input.displayOrder
  | remove slug boardSlug => fun K => K.remove slug boardSlug

end MemberCall

variable {g₀ g g₁ : (api faulty).State Error} {slug boardSlug : String} {c : Collection} {b : Board}
  {y : Except Error Unit}

/-- The catalog at a moment when a collection or a board is missing. -/
theorem Represents.lacks (hK : Represents g.shared K) (h : Api.Missing g slug boardSlug) :
    K.Lacks slug boardSlug := by
  refine h.imp (fun hfree hc => ?_) fun hfree hb => ?_
  · obtain ⟨x, hx, hslug⟩ := (hK.collections _).mp hc
    exact hfree x hx hslug
  · obtain ⟨x, hx, hslug⟩ := (hK.boards _).mp hb
    exact hfree x hx hslug

/-- The call was refused, and there was a moment at which the operation is refused. -/
theorem atomic_of_missing (hg : Api.Good g₀) (hbefore : Api.Silently app t g₀ g₁)
    (hafter : Api.Silently app t g₁ g) (hmissing : Api.Missing g₁ slug boardSlug)
    {effect : Catalog → Catalog → Prop}
    (heffect : ∀ K : Catalog, K.Lacks slug boardSlug → effect K K) :
    Machine.Atomic (Api.Serves app) t Represents effect g₀ g := by
  obtain ⟨K, hK⟩ := (hbefore.good hg).inv.exists_catalog
  exact Machine.atomic_of_moment hbefore hK (heffect K (hK.lacks hmissing)) hafter

/-- A call that did nothing, because its connection was lost. -/
theorem atomic_of_fault (hg : Api.Good g₀) (hf : faulty) (hrun : Api.Silently app t g₀ g)
    {op : Catalog → Except Refusal Catalog} :
    Machine.Atomic (Api.Serves app) t Represents
      (Catalog.Does faulty op (.error (.database .connection))) g₀ g := by
  obtain ⟨K, hK⟩ := hg.inv.exists_catalog
  exact Machine.atomic_of_moment .refl hK ⟨hf, rfl, .inl rfl⟩ hrun

/-- A row refers to a collection and to a board that are there. -/
theorem Api.Inv.there (hinv : Api.Inv sh) {row : CollectionBoard} (hrow : row ∈ sh.2.rows)
    {id boardId : Uuid} (hkey : row.HasKey id boardId) :
    (∃ c ∈ sh.1.1.db.collections, c.id = id) ∧ ∃ b ∈ sh.1.1.db.boards, b.id = boardId := by
  obtain ⟨_, _, ⟨x, hx, hxid, -⟩, ⟨z, hz, hzid, -⟩, -⟩ := hinv.names hrow
  exact ⟨⟨x, hx, hxid.trans hkey.1⟩, z, hz, hzid.trans hkey.2⟩

/-- A statement of a call that leaves `collection_boards` as it is. -/
theorem silent_query {q : MembershipQuery} {r : Except DbError q.Row}
    (hacts : Machine.Acts (M := api faulty) t (.inr q) g r g₁) (hsame : g₁.shared.1 = g.shared.1)
    (hrows : g₁.shared.2.rows = g.shared.2.rows) : Api.Silently app t g g₁ :=
  .single (.inr ⟨.inr q, r, hacts, fun _ hK => hK.congr (by rw [hsame]) hrows⟩)

/-- The insertion of a row is the operation `add`. -/
theorem Represents.inserted (hK : Represents g₁.shared K) (hinv : Api.Inv g₁.shared)
    (hg : Api.Good g₀) (hfound : Api.Found app t g₀ slug boardSlug c b g₁)
    (hc : ∃ c' ∈ g₁.shared.1.1.db.collections, c'.id = c.id)
    (hb : ∃ b' ∈ g₁.shared.1.1.db.boards, b'.id = b.id)
    (hnew : ∀ x ∈ g₁.shared.2.rows, ¬x.HasKey c.id b.id) {o : ℤ}
    (hsame : g.shared.1 = g₁.shared.1)
    (hrows : g.shared.2.rows = g₁.shared.2.rows ++ [⟨c.id, b.id, o⟩]) :
    ∃ K', Represents g.shared K' ∧ K.add slug boardSlug o = .ok K' := by
  obtain ⟨⟨x, hx, hxid, rfl⟩, z, hz, hzid, rfl⟩ := hfound.there hg hc hb
  rw [← hxid, ← hzid] at hrows
  have hc : x.slug ∈ K.collections := (hK.collections _).mpr ⟨x, hx, rfl⟩
  have hb : z.slug ∈ K.boards := (hK.boards _).mpr ⟨z, hz, rfl⟩
  have hnot : ¬K.Has x.slug z.slug := by
    rw [hK.has_iff hinv hx hz, hxid, hzid]
    rintro ⟨row, hrow, hkey⟩
    exact hnew row hrow hkey
  exact ⟨_, hK.insert hinv hx hz hc hb hnot hsame hrows, Catalog.add_new hc hb hnot⟩

/-- The deletion of a row is the operation `remove`. -/
theorem Represents.erased (hK : Represents g₁.shared K) (hinv : Api.Inv g₁.shared)
    (hg : Api.Good g₀) (hfound : Api.Found app t g₀ slug boardSlug c b g₁) {row : CollectionBoard}
    (hrow : row ∈ g₁.shared.2.rows) (hkey : row.HasKey c.id b.id)
    (hsame : g.shared.1 = g₁.shared.1)
    (hrows : g.shared.2.rows = g₁.shared.2.rows.filter fun r => ¬r.HasKey c.id b.id) :
    ∃ K', Represents g.shared K' ∧ K.remove slug boardSlug = .ok K' := by
  obtain ⟨hc, hb⟩ := hinv.there hrow hkey
  obtain ⟨⟨x, hx, hxid, rfl⟩, z, hz, hzid, rfl⟩ := hfound.there hg hc hb
  rw [← hxid, ← hzid] at hrows hkey
  have hhas : K.Has x.slug z.slug := (hK.has_iff hinv hx hz).mpr ⟨row, hrow, hkey⟩
  exact ⟨_, hK.erase hinv hx hz hsame hrows, Catalog.remove_has hhas⟩

/-- **A call of `add_board`** is the operation `add` at one moment. -/
theorem addBoard_atomic {input : AddBoardToCollection} (hg : Api.Good g₀)
    (hidle : g₀.session t = none)
    (h : Api.Executes app t (Collections.addBoard slug input) g₀ y g) :
    Machine.Atomic (Api.Serves app) t Represents
      (Catalog.Does faulty (fun K => K.add slug input.boardSlug input.displayOrder) y) g₀ g := by
  rcases h.find hg hidle with ⟨hf, rfl, hrun⟩ | ⟨msg, gm, rfl, hbefore, hafter, hmissing⟩ |
    ⟨c, b, g₁, hbefore, hfound, h⟩
  · exact atomic_of_fault hg hf hrun
  · exact atomic_of_missing hg hbefore hafter hmissing fun K hK => ⟨Catalog.add_lacks hK, rfl⟩
  · obtain ⟨g₂, g₃, r, hrun, hacts, hsame, hanswer, h⟩ := h.query
    have hbefore₂ : Api.Silently app t g₀ g₂ := hbefore.trans hrun
    have hfound₂ := hfound.later hrun
    have hinv : Api.Inv g₂.shared := (hbefore₂.good hg).inv
    -- The catalog at the moment of the statement.
    obtain ⟨K, hK⟩ := hinv.exists_catalog
    rcases hanswer with hanswer | ⟨hf, rfl, hrows⟩
    · rcases MembershipQuery.run_insert hanswer with ⟨rfl, hrows, row, hrow, hkey⟩ |
        ⟨rfl, hrows, hgone⟩ | ⟨rfl, hrows, hc, hb, hnew⟩
      · -- The board is in the collection when the statement is executed.
        obtain ⟨rfl, hafter⟩ := Prog.executes_fail.mp h
        obtain ⟨hc, hb⟩ := hinv.there hrow hkey
        obtain ⟨⟨x, hx, hxid, rfl⟩, z, hz, hzid, hslug⟩ := hfound₂.there hg hc hb
        have hhas : K.Has x.slug input.boardSlug := by
          rw [← hslug, hK.has_iff hinv hx hz, hxid, hzid]
          exact ⟨row, hrow, hkey⟩
        exact Machine.atomic_of_moment hbefore₂ hK ⟨Catalog.add_has hhas, rfl⟩
          ((silent_query hacts hsame hrows).trans (Machine.silent_of_others hafter))
      · -- A row has been removed since it was found: right after that, the operation is refused.
        obtain ⟨rfl, hafter⟩ := Prog.executes_fail.mp h
        obtain ⟨gm, hbefore', hafter', hmissing⟩ := hfound₂.missing hg hgone
        exact atomic_of_missing hg hbefore' (hafter'.trans ((silent_query hacts hsame hrows).trans
          (Machine.silent_of_others hafter))) hmissing fun K hK => ⟨Catalog.add_lacks hK, rfl⟩
      · obtain ⟨rfl, hafter⟩ := Prog.executes_ret.mp h
        obtain ⟨K', hK', hadd⟩ := hK.inserted hinv hg hfound₂ hc hb hnew hsame hrows
        exact Machine.atomic_of_acts hbefore₂ hacts hK hK' hadd (Machine.silent_of_others hafter)
    · obtain ⟨rfl, hafter⟩ := Prog.executes_fail.mp h
      have hlost : g₃.shared.2.rows = g₂.shared.2.rows →
          Machine.Atomic (Api.Serves app) t Represents
            (Catalog.Does faulty (fun K => K.add slug input.boardSlug input.displayOrder)
              (.error (.database .connection))) g₀ g := fun hrows =>
        atomic_of_fault hg hf (hbefore₂.trans ((silent_query hacts hsame hrows).trans
          (Machine.silent_of_others hafter)))
      rcases hrows with hrows | hrows
      · exact hlost hrows
      · -- The statement took effect, but its answer was lost.
        rcases MembershipQuery.run_insert (MembershipQuery.run_of_rows hrows) with ⟨-, hrows, -⟩ |
          ⟨-, hrows, -⟩ | ⟨-, hrows, hc, hb, hnew⟩
        · exact hlost hrows
        · exact hlost hrows
        · obtain ⟨K', hK', hadd⟩ := hK.inserted hinv hg hfound₂ hc hb hnew hsame hrows
          exact Machine.atomic_of_acts hbefore₂ hacts hK hK' ⟨hf, rfl, .inr hadd⟩
            (Machine.silent_of_others hafter)

/-- **A call of `remove_board`** is the operation `remove` at one moment. -/
theorem removeBoard_atomic (hg : Api.Good g₀) (hidle : g₀.session t = none)
    (h : Api.Executes app t (Collections.removeBoard slug boardSlug) g₀ y g) :
    Machine.Atomic (Api.Serves app) t Represents
      (Catalog.Does faulty (fun K => K.remove slug boardSlug) y) g₀ g := by
  rcases h.find hg hidle with ⟨hf, rfl, hrun⟩ | ⟨msg, gm, rfl, hbefore, hafter, hmissing⟩ |
    ⟨c, b, g₁, hbefore, hfound, h⟩
  · exact atomic_of_fault hg hf hrun
  · exact atomic_of_missing hg hbefore hafter hmissing fun K hK =>
      ⟨Catalog.remove_not hK.not_has, rfl⟩
  · obtain ⟨g₂, g₃, r, hrun, hacts, hsame, hanswer, h⟩ := h.query
    have hbefore₂ : Api.Silently app t g₀ g₂ := hbefore.trans hrun
    have hfound₂ := hfound.later hrun
    have hinv : Api.Inv g₂.shared := (hbefore₂.good hg).inv
    -- The catalog at the moment of the statement.
    obtain ⟨K, hK⟩ := hinv.exists_catalog
    rcases hanswer with hanswer | ⟨hf, rfl, hrows⟩
    · rcases MembershipQuery.run_delete hanswer with ⟨rfl, hkept, hnone⟩ |
        ⟨n, rfl, hrows, row, hrow, hkey⟩
      · obtain ⟨rfl, hafter⟩ := Prog.executes_fail.mp h
        have hafter₂ : Api.Silently app t g₂ g :=
          (silent_query hacts hsame hkept).trans (Machine.silent_of_others hafter)
        rcases hfound₂.now hg with ⟨⟨x, hx, hxid, rfl⟩, z, hz, hzid, rfl⟩ |
          ⟨-, gm, hbefore', hafter', hmissing⟩
        · have hnot : ¬K.Has x.slug z.slug := by
            rw [hK.has_iff hinv hx hz, hxid, hzid]
            rintro ⟨row, hrow, hkey⟩
            exact hnone row hrow hkey
          exact Machine.atomic_of_moment hbefore₂ hK ⟨Catalog.remove_not hnot, rfl⟩ hafter₂
        · -- The collection under the slug now may be another one, which has the board.
          exact atomic_of_missing hg hbefore' (hafter'.trans hafter₂) hmissing fun K hK =>
            ⟨Catalog.remove_not hK.not_has, rfl⟩
      · obtain ⟨rfl, hafter⟩ := Prog.executes_ret.mp h
        obtain ⟨K', hK', hremove⟩ := hK.erased hinv hg hfound₂ hrow hkey hsame hrows
        exact Machine.atomic_of_acts hbefore₂ hacts hK hK' hremove (Machine.silent_of_others hafter)
    · obtain ⟨rfl, hafter⟩ := Prog.executes_fail.mp h
      have hlost : g₃.shared.2.rows = g₂.shared.2.rows →
          Machine.Atomic (Api.Serves app) t Represents
            (Catalog.Does faulty (fun K => K.remove slug boardSlug)
              (.error (.database .connection))) g₀ g := fun hrows =>
        atomic_of_fault hg hf (hbefore₂.trans ((silent_query hacts hsame hrows).trans
          (Machine.silent_of_others hafter)))
      rcases hrows with hrows | hrows
      · exact hlost hrows
      · -- The statement took effect, but its answer was lost.
        rcases MembershipQuery.run_delete (MembershipQuery.run_of_rows hrows) with ⟨-, hrows, -⟩ |
          ⟨n, -, hrows, row, hrow, hkey⟩
        · exact hlost hrows
        · obtain ⟨K', hK', hremove⟩ := hK.erased hinv hg hfound₂ hrow hkey hsame hrows
          exact Machine.atomic_of_acts hbefore₂ hacts hK hK' ⟨hf, rfl, .inr hremove⟩
            (Machine.silent_of_others hafter)

/-- **Each call does what one operation does, at one moment.** A call of `add_board` or
`remove_board` that is executed beside messages of any kind answers what its operation on the
catalog answers at some moment between its call and its end, does at that moment what the operation
does, and leaves the catalog alone otherwise. A call whose connection is lost has done what its
operation does at some moment, or nothing. -/
theorem member_calls_atomic (hsh : Api.Inv sh)
    (hreach : Machine.Run (Api.Serves app) (Machine.quiet (api faulty) sh) g₀) {call : MemberCall}
    {f : Unit → Endpoint Unit}
    {done : List (Machine.Answered ((Service.sum Lookups).sum Memberships))} {s : Session}
    (hcourse : Machine.Course (M := api faulty) (Api.Serves app) (fun _ _ _ _ => True) t f
      call.handler g₀ done s (Prog.ofExcept y) g) :
    Machine.Atomic (Api.Serves app) t Represents (Catalog.Does faulty call.operation y) g₀ g := by
  have hg : Api.Good g₀ := (Api.good_quiet hsh).run hreach
  have hidle : g₀.session t = none := Machine.State.session_of_thread hcourse.first
  have h : Api.Executes app t call.handler g₀ y g := by
    refine hcourse.executes ?_
    cases y with
    | ok a => exact .ret .refl
    | error e => exact .fail .refl
  cases call with
  | add slug input => exact addBoard_atomic hg hidle h
  | remove slug boardSlug => exact removeBoard_atomic hg hidle h

/-! ### Listings -/

/-- The boards of an answer are the members of the collection, each once, in display order and then
by name in the collation of the database, with the data of their rows. -/
structure ListsMembers (sh : Api.Shared) (K : Catalog) (slug : String)
    (boards : List CollectionBoardEntry) :
    Prop where
  members : ∀ b o, (slug, b, o) ∈ K.members ↔ ∃ e ∈ boards, e.slug = b ∧ e.displayOrder = o
  once : (boards.map CollectionBoardEntry.slug).Nodup
  sorted : boards.Pairwise fun e e' => displayKey sh.1.1.db.collation e ≤
    displayKey sh.1.1.db.collation e'
  rows : ∀ e ∈ boards, ∃ z ∈ sh.1.1.db.boards, e.slug = z.slug ∧ e.name = z.name ∧
    e.boardType = z.boardType ∧
    e.latestVersion = ((sh.1.1.db.versionsOf z.id).map Version.versionNumber).max?

/-- The rows of a collection, joined with their boards. -/
theorem lists_rows (hK : Represents sh K) (hinv : Api.Inv sh) {x : Collection}
    (hx : x ∈ sh.1.1.db.collections) :
    ListsMembers sh K x.slug (orderBy (displayKey sh.1.1.db.collation)
        ((sh.2.rows.filter fun r => r.collectionId = x.id).filterMap
          fun r => r.joined sh.1.1.db)) := by
  have hjoined :
      ∀ (row : CollectionBoard) e, row.joined sh.1.1.db = some e ↔
        ∃ z ∈ sh.1.1.db.boards, z.id = row.boardId ∧ e = row.entry sh.1.1.db z := by
    intro row e
    rw [CollectionBoard.joined, Option.map_eq_some_iff]
    constructor
    · rintro ⟨z, hz, rfl⟩
      obtain ⟨hz, hzid⟩ := Database.mem_of_board? hz
      exact ⟨z, hz, hzid, rfl⟩
    · rintro ⟨z, hz, hzid, rfl⟩
      exact ⟨z, hzid ▸ hinv.servers.schema.board?_eq hz, rfl⟩
  have hmem : ∀ e, e ∈ orderBy (displayKey sh.1.1.db.collation)
      ((sh.2.rows.filter fun r => r.collectionId = x.id).filterMap
        fun r => r.joined sh.1.1.db) ↔ ∃ row ∈ sh.2.rows, row.collectionId = x.id ∧
        row.joined sh.1.1.db = some e := by
    intro e
    simp only [mem_orderBy, List.mem_filterMap, List.mem_filter, decide_eq_true_eq, and_assoc]
  refine ⟨fun b o => ?_, ?_, orderBy_pairwise (displayKey _) _, fun e he => ?_⟩
  · rw [hK.members]
    constructor
    · rintro ⟨row, hrow, ⟨x', hx', hxid, hslug⟩, ⟨z, hz, hzid, rfl⟩, rfl⟩
      obtain rfl : x' = x :=
        List.inj_on_of_nodup_map hinv.servers.schema.collection_slug hx' hx hslug
      exact ⟨_, (hmem _).mpr ⟨row, hrow, hxid.symm, (hjoined row _).mpr ⟨z, hz, hzid, rfl⟩⟩,
        rfl, rfl⟩
    · rintro ⟨e, he, rfl, rfl⟩
      obtain ⟨row, hrow, hxid, he⟩ := (hmem e).mp he
      obtain ⟨z, hz, hzid, rfl⟩ := (hjoined row e).mp he
      exact ⟨row, hrow, ⟨x, hx, hxid.symm, rfl⟩, ⟨z, hz, hzid, rfl⟩, rfl⟩
  · have hperm := (orderBy_perm (displayKey sh.1.1.db.collation)
      ((sh.2.rows.filter fun r => r.collectionId = x.id).filterMap
      fun r => r.joined sh.1.1.db)).map CollectionBoardEntry.slug
    rw [hperm.nodup_iff]
    -- Rows of one collection have different boards, and boards have different slugs.
    have hkeys : (sh.2.rows.filter fun r => r.collectionId = x.id).Pairwise
        fun r r' => r.boardId ≠ r'.boardId := by
      have hall : sh.2.rows.Pairwise fun r r' => r.collectionId = r'.collectionId →
          r.boardId ≠ r'.boardId :=
        (List.pairwise_map.mp hinv.keys).imp fun hne heq heq' => hne (Prod.ext heq heq')
      refine (hall.filter _).imp_of_mem fun hr hr' h => h ?_
      have hid := of_decide_eq_true (List.mem_filter.mp hr).2
      exact hid.trans (of_decide_eq_true (List.mem_filter.mp hr').2).symm
    refine List.pairwise_map.mpr (hkeys.filterMap _ fun r r' hne e he e' he' heq => hne ?_)
    obtain ⟨z, hz, hzid, rfl⟩ := (hjoined r e).mp he
    obtain ⟨z', hz', hzid', rfl⟩ := (hjoined r' e').mp he'
    rw [← hzid, ← hzid', hinv.servers.schema.board_slug_inj hz hz' heq]
  · obtain ⟨row, hrow, hxid, he⟩ := (hmem e).mp he
    obtain ⟨z, hz, hzid, rfl⟩ := (hjoined row e).mp he
    exact ⟨z, hz, rfl, rfl, rfl, rfl⟩

/-- What an answer of `get_with_boards` says about the moments between the two states. -/
def ListingOf (app : App Key) (t : Tid) (slug : String) (g₀ g : (api faulty).State Error) :
    Except Error CollectionWithBoards → Prop
  | .ok answer => ∃ g₁ g₂ K, Api.Silently app t g₀ g₁ ∧ Api.Silently app t g₁ g₂ ∧
      Api.Silently app t g₂ g ∧ answer.collection ∈ g₁.shared.1.1.db.collections ∧
      answer.collection.slug = slug ∧ Represents g₂.shared K ∧
        ListsMembers g₂.shared K slug answer.boards
  | .error (.notFound _) => ∃ g₁ K, Api.Silently app t g₀ g₁ ∧ Api.Silently app t g₁ g ∧
      Represents g₁.shared K ∧ slug ∉ K.collections
  | .error e => faulty ∧ e = .database .connection

/-- **The boards of a collection are those of one moment.** `get_with_boards` answers with a row
that the collection has at one moment of the call, and with the members that it has at a later one;
it has none when it has been deleted in between. -/
theorem listing_shows_moment (hsh : Api.Inv sh)
    (hreach : Machine.Run (Api.Serves app) (Machine.quiet (api faulty) sh) g₀)
    {f : CollectionWithBoards → Endpoint Unit} {x : Except Error CollectionWithBoards}
    {done : List (Machine.Answered ((Service.sum Lookups).sum Memberships))} {s : Session}
    (hcourse : Machine.Course (M := api faulty) (Api.Serves app) (fun _ _ _ _ => True) t f
      (Collections.getWithBoards slug) g₀ done s (Prog.ofExcept x) g) :
    ListingOf app t slug g₀ g x := by
  have hg : Api.Good g₀ := (Api.good_quiet hsh).run hreach
  have hidle : g₀.session t = none := Machine.State.session_of_thread hcourse.first
  have h : Api.Executes app t (Collections.getWithBoards slug) g₀ x g := by
    refine hcourse.executes ?_
    cases x with
    | ok a => exact .ret .refl
    | error e => exact .fail .refl
  rcases h.findCollection hg hidle with ⟨hf, rfl, hrun⟩ | ⟨msg, g₁, rfl, hbefore, hafter, hfree⟩ |
    ⟨c, g₁, g₂, hbefore, hself, -, hc, rfl, hrest⟩
  · exact ⟨hf, rfl⟩
  · obtain ⟨K, hK⟩ := (hbefore.good hg).inv.exists_catalog
    refine ⟨g₁, K, hbefore, hafter, hK, fun hmem => ?_⟩
    obtain ⟨x, hx, hslug⟩ := (hK.collections _).mp hmem
    exact hfree x hx hslug
  -- The row was found at `g₁`, and the members are read at `g₃`.
  · obtain ⟨g₃, g₄, r, hrun, hacts, hsame, hanswer, hrest⟩ := hrest.query
    have hrun₃ : Api.Silently app t g₁ g₃ := hself.trans hrun
    have hbefore₃ : Api.Silently app t g₀ g₃ := hbefore.trans hrun₃
    have hinv : Api.Inv g₃.shared := (hbefore₃.good hg).inv
    rcases hanswer with hanswer | ⟨hf, rfl, hrows⟩
    · obtain ⟨rfl, hrows⟩ := Prod.mk.inj hanswer
      obtain ⟨rfl, hafter⟩ := Prog.executes_ret.mp hrest
      have hafter₃ : Api.Silently app t g₃ g :=
        (silent_query hacts hsame hrows.symm).trans (Machine.silent_of_others hafter)
      rcases Api.collection_later (hbefore.good hg) hc hrun₃ with ⟨x, hx, hxid, hslug⟩ |
        ⟨hgone, gm, hbefore', hafter', hfree⟩
      · obtain ⟨K, hK⟩ := hinv.exists_catalog
        refine ⟨g₁, g₃, K, hbefore, hrun₃, hafter₃, hc, rfl, hK, ?_⟩
        rw [← hslug, ← hxid]
        exact lists_rows hK hinv hx
      · -- The rows of the collection went with it, and at `gm` nobody had its slug.
        have hnil : (g₃.shared.2.rows.filter fun r => r.collectionId = c.id) = [] := by
          rw [List.filter_eq_nil_iff]
          intro row hrow hid
          obtain ⟨⟨x, hx, hxid⟩, -⟩ := hinv.there hrow ⟨rfl, rfl⟩
          exact hgone x hx (hxid.trans (of_decide_eq_true hid))
        have hempty : orderBy (displayKey g₃.shared.1.1.db.collation)
            ((g₃.shared.2.rows.filter fun r => r.collectionId = c.id).filterMap
              fun r => r.joined g₃.shared.1.1.db) = [] := by
          rw [hnil]
          rfl
        have hbeforem : Api.Silently app t g₀ gm := hbefore.trans hbefore'
        obtain ⟨K, hK⟩ := (hbeforem.good hg).inv.exists_catalog
        refine ⟨g₁, gm, K, hbefore, hbefore', hafter'.trans hafter₃, hc, rfl, hK, ?_⟩
        rw [hempty]
        refine ⟨fun b o => ⟨fun hmem => ?_, ?_⟩, List.nodup_nil, List.Pairwise.nil, ?_⟩
        · obtain ⟨x, hx, hslug⟩ := (hK.collections _).mp (K.referenced _ _ _ hmem).1
          exact absurd hslug (hfree x hx)
        · rintro ⟨e, he, -⟩
          cases he
        · rintro e he
          cases he
    · obtain ⟨rfl, -⟩ := Prog.executes_fail.mp hrest
      exact ⟨hf, rfl⟩

/-! ### A call that runs alone -/

section Alone

variable {α : Type} {requests : Endpoint Unit → Prop} {f : α → Endpoint Unit} {p : Endpoint α}
  {done : List (Machine.Answered ((Service.sum Lookups).sum Memberships))}

/-- The course of a handler while nobody has a transaction open. -/
structure Api.Alone (requests : Endpoint Unit → Prop) (t : Tid) (f : α → Endpoint Unit)
    (p : Endpoint α)
    (g₀ : (api faulty).State Error)
    (done : List (Machine.Answered ((Service.sum Lookups).sum Memberships))) (rest : Endpoint α)
    (g : (api faulty).State Error) : Prop where
  course : Machine.Course (M := api faulty) requests (fun _ _ _ _ => True) t f p g₀ done none rest g
  idle : ∀ u th, u ≠ t → g.thread u = some th → th.session = none

/-- The first call of a run. -/
theorem Api.alone_start (faulty : Prop) (sh : Api.Shared) (q : Endpoint Unit) (hq : q = p >>= f) :
    Api.Alone requests t f p ((Machine.quiet (api faulty) sh).setThread t (some ⟨none, q⟩)) [] p
      ((Machine.quiet (api faulty) sh).setThread t (some ⟨none, q⟩)) := by
  subst hq
  refine ⟨.start (Machine.State.setThread_self ..), fun u th hu ht => ?_⟩
  rw [Machine.State.setThread_of_ne _ _ hu] at ht
  cases ht

/-- The handler executes one more command. -/
theorem Api.Alone.perform {c : ((Service.sum Lookups).sum Memberships).Cmd}
    {k : ((Service.sum Lookups).sum Memberships).Res c → Endpoint α}
    (h : Api.Alone requests t f p g₀ done (.op c k) g) {L : List Lock}
    {a : ((Service.sum Lookups).sum Memberships).Res c} {sh' : Api.Shared}
    (hexec : (api faulty).exec t c g.shared none L a sh' none) :
    ∃ g' : (api faulty).State Error, Api.Alone requests t f p g₀ (done ++ [⟨c, a⟩]) (k a) g' ∧
      g'.shared = sh' := by
  refine ⟨_, ⟨.own h.course (fun u th hu ht => ?_) hexec, fun u th hu ht => ?_⟩, rfl⟩
  · have hnone : th.session = none := h.idle u th hu ht
    rw [hnone]
    exact compatible_nil L
  · exact h.idle u th hu ((Function.update_of_ne hu ..).symm.trans ht)

/-- The handler executes a select. -/
theorem Api.Alone.select {q : Query} {k : Except DbError q.Row → Endpoint α}
    (h : Api.Alone requests t f p g₀ done (.op (.inl (.inl (.sql q))) k) g) (u : Uuid) (row : q.Row)
    (hu : g.shared.1.1.Fresh u) (hq : exec u g.shared.1.1.clock q g.shared.1.1.db = .ok (row, [])) :
    ∃ done' g', Api.Alone requests t f p g₀ done' (k (.ok row)) g' ∧
      g'.shared = (g.shared.1.1.commit []).with (g.shared.2.after g.shared.1.1.db) := by
  have hexec : (api faulty).exec t (.inl (.inl (.sql q))) g.shared none
      (q.locks u g.shared.1.1.db) (.ok row)
      ((g.shared.1.1.commit []).with (g.shared.2.after g.shared.1.1.db)) none :=
    ⟨⟨.autocommit hu (le_refl _) hq, trivial⟩, rfl, fun c hc _ => ⟨c, hc, rfl, rfl⟩⟩
  obtain ⟨g', h', hshared⟩ := h.perform hexec
  exact ⟨_, g', h', hshared⟩

/-- The handler executes a statement on `collection_boards`. -/
theorem Api.Alone.query {q : MembershipQuery} {k : Except DbError q.Row → Endpoint α}
    (h : Api.Alone requests t f p g₀ done (.op (.inr q) k) g) :
    ∃ done' g', Api.Alone requests t f p g₀ done'
        (k (q.run g.shared.1.1.db g.shared.2.rows).1) g' ∧
      g'.shared = g.shared.1.1.with { g.shared.2 with
        rows := (q.run g.shared.1.1.db g.shared.2.rows).2 } := by
  have hexec : (api faulty).exec t (.inr q) g.shared none q.locks
      (q.run g.shared.1.1.db g.shared.2.rows).1 (g.shared.1.1.with { g.shared.2 with
        rows := (q.run g.shared.1.1.db g.shared.2.rows).2 }) none :=
    ⟨rfl, rfl, rfl, rfl, .inl rfl⟩
  obtain ⟨g', h', hshared⟩ := h.perform hexec
  exact ⟨_, g', h', hshared⟩

end Alone

/-- The row of a collection. -/
def collectionC : Collection where
  id := 2
  slug := "c"
  name := "C"
  metadata := none
  createdAt := 5
  updatedAt := 5

/-- Tables with a collection and a board, and some rows of `collection_boards`. -/
def shelfTables (rows : List CollectionBoard) : Api.Shared :=
  Server.with { db := { boards := [boardA], collections := [collectionC] }, usedBoards := [1] }
    { rows, usedCollections := [2] }

theorem inv_shelfTables {rows : List CollectionBoard}
    (hreferenced : Referenced (shelfTables rows).1.1.db rows)
    (hkeys : (rows.map fun r => (r.collectionId, r.boardId)).Nodup) :
    Api.Inv (shelfTables rows) where
  servers :=
    { schema := by
        constructor
        case board_checks =>
          intro b hb
          obtain rfl := List.mem_singleton.mp hb
          decide
        all_goals simp [shelfTables]
      board_used := by simp [shelfTables, boardA]
      entry_used := by simp [shelfTables]
      config := by simp [shelfTables, Policy.Allows]
      references := by simp [shelfTables, ReferencesFollow]
      redis_finite := fun _ _ h => by cases h }
  referenced := hreferenced
  keys := hkeys
  used := by simp [shelfTables, collectionC]

/-- The administrator puts the board into the collection. -/
def addBoardToC : Message sampleApp :=
  .http sampleMoment ⟨.post, ["collections", "c", "boards"],
    ⟨[("authorization", [66, 101, 97, 114, 101, 114, 32, 116])]⟩,
    { addBoard := some { boardSlug := "a" } }⟩

/-- Somebody reads the collection. -/
def readC : Message sampleApp := .http sampleMoment ⟨.get, ["collections", "c"], ⟨[]⟩, {}⟩

/-- The call succeeds at the moment of its insertion. -/
theorem member_calls_atomic_run : ∃ g₀ g : (api False).State Error,
    Machine.Atomic (Api.Serves sampleApp) 0 Represents
      (Catalog.Does False (MemberCall.add "c" { boardSlug := "a" }).operation (.ok ())) g₀ g ∧
    g₀.shared.2.rows = [] ∧ g.shared.2.rows = [⟨2, 1, 0⟩] := by
  have hcall : Machine.Run (Api.Serves sampleApp) (Machine.quiet (api False) (shelfTables []))
      ((Machine.quiet (api False) (shelfTables [])).setThread 0 (some ⟨none, addBoardToC.serve⟩)) :=
    .single (.call _ 0 _ ⟨addBoardToC, rfl⟩ rfl)
  have h₀ : Api.Alone (Api.Serves sampleApp) 0 (fun _ => .ret ())
      (MemberCall.add "c" { boardSlug := "a" }).handler _ [] _ _ :=
    Api.alone_start False (shelfTables []) addBoardToC.serve rfl
  obtain ⟨_, g₁, h₁, hshared₁⟩ := h₀.select (q := .selectCollectionBySlug "c") 7 (some collectionC)
    ⟨by decide, by decide⟩ rfl
  obtain ⟨_, g₂, h₂, hshared₂⟩ := h₁.select (q := .selectBoardBySlug "a") 7 (some boardA)
    (by rw [hshared₁]; exact ⟨by decide, by decide⟩) (by rw [hshared₁]; rfl)
  obtain ⟨_, g₃, h₃, hshared₃⟩ := h₂.query (q := .insert ⟨2, 1, 0⟩)
  have hrun : (MembershipQuery.insert ⟨2, 1, 0⟩).run g₂.shared.1.1.db g₂.shared.2.rows =
      (.ok (), [⟨2, 1, 0⟩]) := by
    rw [hshared₂, hshared₁]
    decide
  rw [hrun] at h₃ hshared₃
  refine ⟨_, g₃, member_calls_atomic (inv_shelfTables (by simp [Referenced]) (by simp)) hcall
    (y := .ok ()) h₃.course, rfl, ?_⟩
  rw [hshared₃]
  rfl

/-- The answer shows the board. -/
theorem listing_shows_moment_run :
    ∃ (g₀ g : (api False).State Error) (answer : CollectionWithBoards),
    ListingOf sampleApp 0 "c" g₀ g (.ok answer) ∧
      answer.boards.map CollectionBoardEntry.slug = ["a"] := by
  have hcall : Machine.Run (Api.Serves sampleApp)
      (Machine.quiet (api False) (shelfTables [⟨2, 1, 0⟩]))
      ((Machine.quiet (api False) (shelfTables [⟨2, 1, 0⟩])).setThread 0
        (some ⟨none, readC.serve⟩)) :=
    .single (.call _ 0 _ ⟨readC, rfl⟩ rfl)
  have h₀ : Api.Alone (Api.Serves sampleApp) 0 (fun _ => .ret ())
      (Collections.getWithBoards "c") _ [] _ _ :=
    Api.alone_start False (shelfTables [⟨2, 1, 0⟩]) readC.serve rfl
  obtain ⟨_, g₁, h₁, hshared₁⟩ := h₀.select (q := .selectCollectionBySlug "c") 7 (some collectionC)
    ⟨by decide, by decide⟩ rfl
  obtain ⟨_, g₂, h₂, -⟩ := h₁.query (q := .selectBoards 2)
  have hrun : (MembershipQuery.run g₁.shared.1.1.db g₁.shared.2.rows (.selectBoards 2)).1 =
      .ok [⟨"a", "A", "ordered", 0, none⟩] := by
    rw [hshared₁]
    decide
  rw [hrun] at h₂
  exact ⟨_, g₂, ⟨collectionC, [⟨"a", "A", "ordered", 0, none⟩]⟩,
    listing_shows_moment (inv_shelfTables
    (by unfold Referenced; decide) (by simp)) hcall
      (x := .ok ⟨collectionC, [⟨"a", "A", "ordered", 0, none⟩]⟩) h₂.course, rfl⟩

end Leaderboards
