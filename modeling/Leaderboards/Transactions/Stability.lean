import Leaderboards.Transactions.Legal
import Leaderboards.Transactions.Positions

/-!
# What a transaction can rely on

While a transaction holds its locks, other transactions commit. `Agree L db db'` lists what
they leave alone: the rows, keys and row sets that the locks `L` protect.

* `LegalSeq.agree`: the legal writes of a transaction with compatible locks keep the agreement.
* `Agree.apply`: a pending write of one's own keeps it too, seen from inside.
* `LegalSeq.stable`: therefore pending writes that were legal when they were made are still
  legal when they are committed, whatever was committed in between.
-/

namespace Leaderboards

/-- Two states of the tables agree on what the locks `L` protect. -/
structure Agree (L : List Lock) (db db' : Database) : Prop where
  board_key : ∀ id, Held L (.board id) .keyShare →
    ((∃ b ∈ db.boards, b.id = id) ↔ ∃ b ∈ db'.boards, b.id = id)
  board_row : ∀ b : Board, Held L (.board b.id) .noKeyUpdate → (b ∈ db.boards ↔ b ∈ db'.boards)
  board_slug : ∀ slug, Held L (.boardSlug slug) .update →
    (∀ b ∈ db.boards, b.slug ≠ slug) → ∀ b ∈ db'.boards, b.slug ≠ slug
  versions : ∀ id, Held L (.board id) .update → db'.versionsOf id = db.versionsOf id
  entry_key : ∀ id boardId slug, Held L (.entry id) .keyShare →
    ((∃ e ∈ db.entries, e.id = id ∧ e.boardId = boardId ∧ e.slug = slug) ↔
      ∃ e ∈ db'.entries, e.id = id ∧ e.boardId = boardId ∧ e.slug = slug)
  entry_row : ∀ e : Entry, Held L (.entry e.id) .noKeyUpdate → (e ∈ db.entries ↔ e ∈ db'.entries)
  entry_slug : ∀ boardId slug, Held L (.entrySlug boardId slug) .update →
    (∀ e ∈ db.entries, ¬(e.boardId = boardId ∧ e.slug = slug)) →
      ∀ e ∈ db'.entries, ¬(e.boardId = boardId ∧ e.slug = slug)
  entry_unplaced : ∀ id, Held L (.entry id) .update →
    (∀ p ∈ db.placements, p.entryId ≠ id) → ∀ p ∈ db'.placements, p.entryId ≠ id
  version_row : ∀ v : Version, Held L (.version v.id) .keyShare →
    (v ∈ db.versions ↔ v ∈ db'.versions)
  version_placements : ∀ id, Held L (.version id) .update →
    db'.placementsOf id = db.placementsOf id
  placement_id : ∀ id, Held L (.placement id) .update →
    (∀ p ∈ db.placements, p.id ≠ id) → ∀ p ∈ db'.placements, p.id ≠ id
  score_absent : ∀ boardId entryId, Held L (.score boardId entryId) .update →
    (∀ x ∈ db.accumulatedScores, ¬(x.boardId = boardId ∧ x.entryId = entryId)) →
      ∀ x ∈ db'.accumulatedScores, ¬(x.boardId = boardId ∧ x.entryId = entryId)
  score_present : ∀ boardId entryId, Held L (.entry entryId) .keyShare →
    Held L (.score boardId entryId) .noKeyUpdate →
    (∃ x ∈ db.accumulatedScores, x.boardId = boardId ∧ x.entryId = entryId) →
      ∃ x ∈ db'.accumulatedScores, x.boardId = boardId ∧ x.entryId = entryId
  reference_id : ∀ id, Held L (.reference id) .update →
    (∀ r ∈ db.references, r.id ≠ id) → ∀ r ∈ db'.references, r.id ≠ id
  collection_row : ∀ c : Collection, Held L (.collection c.id) .noKeyUpdate →
    (c ∈ db.collections ↔ c ∈ db'.collections)
  collection_slug : ∀ slug, Held L (.collectionSlug slug) .update →
    (∀ c ∈ db.collections, c.slug ≠ slug) → ∀ c ∈ db'.collections, c.slug ≠ slug

variable {P : Policy} {s s' : Server} {L L' : List Lock} {db db' db'' : Database}

theorem Agree.refl (L : List Lock) (db : Database) : Agree L db db where
  board_key _ _ := Iff.rfl
  board_row _ _ := Iff.rfl
  board_slug _ _ h := h
  versions _ _ := rfl
  entry_key _ _ _ _ := Iff.rfl
  entry_row _ _ := Iff.rfl
  entry_slug _ _ _ h := h
  entry_unplaced _ _ h := h
  version_row _ _ := Iff.rfl
  version_placements _ _ := rfl
  placement_id _ _ h := h
  score_absent _ _ _ h := h
  score_present _ _ _ _ h := h
  reference_id _ _ h := h
  collection_row _ _ := Iff.rfl
  collection_slug _ _ h := h

theorem Agree.trans (h : Agree L db db') (h' : Agree L db' db'') : Agree L db db'' where
  board_key id hL := (h.board_key id hL).trans (h'.board_key id hL)
  board_row b hL := (h.board_row b hL).trans (h'.board_row b hL)
  board_slug slug hL hs := h'.board_slug slug hL (h.board_slug slug hL hs)
  versions id hL := (h'.versions id hL).trans (h.versions id hL)
  entry_key id bd sl hL := (h.entry_key id bd sl hL).trans (h'.entry_key id bd sl hL)
  entry_row e hL := (h.entry_row e hL).trans (h'.entry_row e hL)
  entry_slug bd sl hL hs := h'.entry_slug bd sl hL (h.entry_slug bd sl hL hs)
  entry_unplaced id hL hp := h'.entry_unplaced id hL (h.entry_unplaced id hL hp)
  version_row v hL := (h.version_row v hL).trans (h'.version_row v hL)
  version_placements id hL := (h'.version_placements id hL).trans (h.version_placements id hL)
  placement_id id hL hp := h'.placement_id id hL (h.placement_id id hL hp)
  score_absent b e hL hx := h'.score_absent b e hL (h.score_absent b e hL hx)
  score_present b e hL hL' hx := h'.score_present b e hL hL' (h.score_present b e hL hL' hx)
  reference_id id hL hr := h'.reference_id id hL (h.reference_id id hL hr)
  collection_row c hL := (h.collection_row c hL).trans (h'.collection_row c hL)
  collection_slug slug hL hs := h'.collection_slug slug hL (h.collection_slug slug hL hs)

/-- Fewer locks protect less. -/
theorem Agree.anti (h : Agree L' db db') (hsub : ∀ l ∈ L, l ∈ L') : Agree L db db' where
  board_key id hL := h.board_key id (hL.mono hsub)
  board_row b hL := h.board_row b (hL.mono hsub)
  board_slug slug hL := h.board_slug slug (hL.mono hsub)
  versions id hL := h.versions id (hL.mono hsub)
  entry_key id bd sl hL := h.entry_key id bd sl (hL.mono hsub)
  entry_row e hL := h.entry_row e (hL.mono hsub)
  entry_slug bd sl hL := h.entry_slug bd sl (hL.mono hsub)
  entry_unplaced id hL := h.entry_unplaced id (hL.mono hsub)
  version_row v hL := h.version_row v (hL.mono hsub)
  version_placements id hL := h.version_placements id (hL.mono hsub)
  placement_id id hL := h.placement_id id (hL.mono hsub)
  score_absent b e hL := h.score_absent b e (hL.mono hsub)
  score_present b e hL hL' := h.score_present b e (hL.mono hsub) (hL'.mono hsub)
  reference_id id hL := h.reference_id id (hL.mono hsub)
  collection_row c hL := h.collection_row c (hL.mono hsub)
  collection_slug slug hL := h.collection_slug slug (hL.mono hsub)

/-! ### Keys that updates keep -/

private theorem exists_setBoard {b : Board} {id : Uuid} :
    (∃ r ∈ (db.setBoard b).boards, r.id = id) ↔ ∃ r ∈ db.boards, r.id = id := by
  simp only [Database.mem_setBoard_boards]
  constructor
  · rintro ⟨r', ⟨hr', -⟩ | ⟨rfl, r'', hr'', heq⟩, rfl⟩
    · exact ⟨r', hr', rfl⟩
    · exact ⟨r'', hr'', heq⟩
  · rintro ⟨r', hr', rfl⟩
    by_cases heq : r'.id = b.id
    · exact ⟨b, .inr ⟨rfl, r', hr', heq⟩, heq.symm⟩
    · exact ⟨r', .inl ⟨hr', heq⟩, rfl⟩

private theorem exists_setEntry {e : Entry} (hdb : db.Schema)
    (hr : ∃ r ∈ db.entries, r.SameKey e) {id bd : Uuid}
    {sl : String} : (∃ r ∈ (db.setEntry e).entries, r.id = id ∧ r.boardId = bd ∧ r.slug = sl) ↔
      ∃ r ∈ db.entries, r.id = id ∧ r.boardId = bd ∧ r.slug = sl := by
  obtain ⟨r, hr, hrid, hrboard, hrslug⟩ := hr
  simp only [Database.mem_setEntry_entries]
  constructor
  · rintro ⟨r', ⟨hr', -⟩ | ⟨rfl, -⟩, rfl, rfl, rfl⟩
    · exact ⟨r', hr', rfl, rfl, rfl⟩
    · exact ⟨r, hr, hrid, hrboard, hrslug⟩
  · rintro ⟨r', hr', rfl, rfl, rfl⟩
    by_cases heq : r'.id = e.id
    · have hrr := hdb.entry_inj hr' hr (heq.trans hrid.symm)
      exact ⟨e, .inr ⟨rfl, r', hr', heq⟩, heq.symm, by rw [hrr, hrboard], by rw [hrr, hrslug]⟩
    · exact ⟨r', .inl ⟨hr', heq⟩, rfl, rfl, rfl⟩

/-- No board has the slug after an update exactly when none had it before. -/
private theorem forall_setBoard_slug {b : Board} (hdb : db.Schema)
    (hr : ∃ r ∈ db.boards, r.id = b.id ∧ r.slug = b.slug) {slug : String} :
    (∀ r ∈ (db.setBoard b).boards, r.slug ≠ slug) ↔ ∀ r ∈ db.boards, r.slug ≠ slug := by
  obtain ⟨r, hr, hrid, hrslug⟩ := hr
  constructor
  · intro habs r' hr'
    by_cases heq : r'.id = b.id
    · rw [hdb.board_inj hr' hr (heq.trans hrid.symm), hrslug]
      exact habs b (Database.mem_setBoard_boards.mpr (.inr ⟨rfl, r, hr, hrid⟩))
    · exact habs r' (Database.mem_setBoard_boards.mpr (.inl ⟨hr', heq⟩))
  · intro habs r' hr'
    rcases Database.mem_setBoard_boards.mp hr' with ⟨h₁, -⟩ | ⟨rfl, -⟩
    · exact habs r' h₁
    · exact hrslug ▸ habs r hr

/-- No entry has the key after an update exactly when none had it before. -/
private theorem forall_setEntry_key {e : Entry} (hdb : db.Schema)
    (hr : ∃ r ∈ db.entries, r.SameKey e) {bd : Uuid}
    {sl : String} : (∀ r ∈ (db.setEntry e).entries, ¬(r.boardId = bd ∧ r.slug = sl)) ↔
      ∀ r ∈ db.entries, ¬(r.boardId = bd ∧ r.slug = sl) := by
  constructor
  · intro habs r' hr' hkey
    obtain ⟨r'', hr'', -, hkey'⟩ := (exists_setEntry hdb hr).mpr
      ⟨r', hr', rfl, hkey⟩
    exact habs r'' hr'' hkey'
  · intro habs r' hr' hkey
    obtain ⟨r'', hr'', -, hkey'⟩ := (exists_setEntry hdb hr).mp
      ⟨r', hr', rfl, hkey⟩
    exact habs r'' hr'' hkey'

/-- No collection has the slug after an update exactly when none had it before. -/
private theorem forall_setCollection_slug {c : Collection} (hdb : db.Schema)
    (hr : ∃ r ∈ db.collections, r.SameKey c) {slug : String} :
    (∀ r ∈ (db.setCollection c).collections, r.slug ≠ slug) ↔
      ∀ r ∈ db.collections, r.slug ≠ slug := by
  obtain ⟨r, hr, hrid, hrslug⟩ := hr
  constructor
  · intro habs r' hr'
    by_cases heq : r'.id = c.id
    · rw [hdb.collection_inj hr' hr (heq.trans hrid.symm), hrslug]
      exact habs c (Database.mem_setCollection_collections.mpr (.inr ⟨rfl, r, hr, hrid⟩))
    · exact habs r' (Database.mem_setCollection_collections.mpr (.inl ⟨hr', heq⟩))
  · intro habs r' hr'
    rcases Database.mem_setCollection_collections.mp hr' with ⟨h₁, -⟩ | ⟨rfl, -⟩
    · exact habs r' h₁
    · exact hrslug ▸ habs r hr

/-- The scores of a key after an update are those before it. -/
private theorem exists_setScore {x : AccumulatedScore} {bd en : Uuid} :
    (∃ r ∈ (db.setScore x).accumulatedScores, r.boardId = bd ∧ r.entryId = en) ↔
      ∃ r ∈ db.accumulatedScores, r.boardId = bd ∧ r.entryId = en := by
  simp only [Database.mem_setScore_accumulatedScores]
  constructor
  · rintro ⟨r', ⟨hr', -⟩ | ⟨rfl, r'', hr'', hb, he⟩, rfl, rfl⟩
    · exact ⟨r', hr', rfl, rfl⟩
    · exact ⟨r'', hr'', hb, he⟩
  · rintro ⟨r', hr', rfl, rfl⟩
    by_cases heq : r'.boardId = x.boardId ∧ r'.entryId = x.entryId
    · exact ⟨x, .inr ⟨rfl, r', hr', heq⟩, heq.1.symm, heq.2.symm⟩
    · exact ⟨r', .inl ⟨hr', heq⟩, rfl, rfl⟩

/-! ### The writes of others -/

section Others

variable (hc : Compatible L' L)

include hc

private theorem agree_addBoard {b : Board} (h : Legal P s L' (.addBoard b) db) :
    Agree L db (db.addBoard b) := by
  obtain ⟨-, -, -, -, -, hid, hslug⟩ := h
  refine { Agree.refl L db with board_key := ?_, board_row := ?_, board_slug := ?_ }
  · intro id hL
    have hne : b.id ≠ id := by
      rintro rfl
      exact hc.not_held hid hL rfl
    simp [hne]
  · intro r hL
    have hne : r ≠ b := by
      rintro rfl
      exact hc.not_held hid hL rfl
    simp [hne]
  · intro slug hL habs
    have hne : b.slug ≠ slug := by
      rintro rfl
      exact hc.not_held hslug hL rfl
    simpa [hne, or_imp, forall_and] using habs

private theorem agree_setBoard {b : Board} (h : Legal P s L' (.setBoard b) db) :
    Agree L db (db.setBoard b) := by
  obtain ⟨⟨r, hr, hrid, hrslug, -⟩, -, -, hid⟩ := h
  refine { Agree.refl L db with board_key := ?_, board_row := ?_, board_slug := ?_ }
  · exact fun id _ => exists_setBoard.symm
  · intro r' hL
    have hne : r'.id ≠ b.id := by
      intro heq
      exact hc.not_held hid (heq ▸ hL) rfl
    have hne' : r' ≠ b := fun heq => hne (heq ▸ rfl)
    rw [Database.mem_setBoard_boards]
    exact ⟨fun h => .inl ⟨h, hne⟩, fun h => h.elim And.left fun heq => absurd heq.1 hne'⟩
  · intro slug _ habs r' hr'
    rcases Database.mem_setBoard_boards.mp hr' with ⟨h₁, -⟩ | ⟨rfl, -⟩
    · exact habs r' h₁
    · exact hrslug ▸ habs r hr

private theorem agree_removeBoard {id : Uuid} (hdb : db.Schema)
    (h : Legal P s L' (.removeBoard id) db) : Agree L db (db.removeBoard id) := by
  obtain ⟨hid, hentries, hversions⟩ := h
  have hboard : ∀ {id' m}, Held L (.board id') m → id' ≠ id := by
    rintro id' m hL rfl
    exact hc.not_held hid hL rfl
  have hentry : ∀ {e : Entry} {m}, e ∈ db.entries → Held L (.entry e.id) m → e.boardId ≠ id :=
    fun he hL heq => hc.not_held (hentries _ he heq) hL rfl
  have hversion : ∀ {v : Version} {m}, v ∈ db.versions → Held L (.version v.id) m →
      v.boardId ≠ id := fun hv hL heq => hc.not_held (hversions _ hv heq) hL rfl
  -- The rows that `L` locks are of other boards, and the removal leaves those alone.
  constructor
  · intro id' hL
    have hne := hboard hL
    simp only [Database.removeBoard_boards, List.mem_filter, decide_eq_true_eq]
    exact ⟨fun ⟨b, hb, heq⟩ => ⟨b, ⟨hb, heq ▸ hne⟩, heq⟩, fun ⟨b, hb, heq⟩ => ⟨b, hb.1, heq⟩⟩
  · intro b hL
    simp [hboard hL]
  · intro slug _ habs b hb
    exact habs b (List.mem_of_mem_filter hb)
  · intro id' hL
    have hne := hboard hL
    simp only [Database.versionsOf, Database.removeBoard_versions, List.filter_filter]
    refine List.filter_congr fun v _ => ?_
    by_cases heq : v.boardId = id'
    · simp [heq, hne]
    · simp [heq]
  · intro id' bd sl hL
    simp only [Database.removeBoard_entries, List.mem_filter, decide_eq_true_eq]
    constructor
    · rintro ⟨e, he, rfl, hrest⟩
      exact ⟨e, ⟨he, hentry he hL⟩, rfl, hrest⟩
    · rintro ⟨e, he, hrest⟩
      exact ⟨e, he.1, hrest⟩
  · intro e hL
    simp only [Database.removeBoard_entries, List.mem_filter, decide_eq_true_eq]
    exact ⟨fun he => ⟨he, hentry he hL⟩, fun he => he.1⟩
  · intro bd sl _ habs e he
    exact habs e (List.mem_of_mem_filter he)
  · intro id' _ habs p hp
    exact habs p (List.mem_of_mem_filter hp)
  · intro v hL
    simp only [Database.removeBoard_versions, List.mem_filter, decide_eq_true_eq]
    exact ⟨fun hv => ⟨hv, hversion hv hL⟩, fun hv => hv.1⟩
  · intro id' hL
    simp only [Database.placementsOf, Database.removeBoard_placements, List.filter_filter]
    refine List.filter_congr fun p hp => ?_
    by_cases heq : p.versionId = id'
    · -- The version of `p` is locked here, so it and the entry of `p` are of another board.
      obtain ⟨v, hv, e, he, hvid, heid, hbd⟩ := hdb.placement_board p hp
      have hvne := hversion hv (m := .update) (by rw [hvid, heq]; exact hL)
      have hv' : db.ownsVersion id p.versionId = false := by
        rw [← Bool.not_eq_true, Database.ownsVersion_iff]
        rintro ⟨v', hv', hid', rfl⟩
        exact hvne (by rw [hdb.version_inj hv hv' (hvid.trans hid'.symm)])
      have he' : db.ownsEntry id p.entryId = false := by
        rw [← Bool.not_eq_true, Database.ownsEntry_iff]
        rintro ⟨e', he', hid', rfl⟩
        exact hvne (by rw [← hbd, hdb.entry_inj he he' (heid.trans hid'.symm)])
      simp [hv', he']
    · simp [heq]
  · intro id' _ habs p hp
    exact habs p (List.mem_of_mem_filter hp)
  · intro bd en _ habs x hx
    exact habs x (List.mem_of_mem_filter hx)
  · rintro bd en hL - ⟨x, hx, rfl, rfl⟩
    obtain ⟨-, e, he, heid, hbd⟩ := hdb.score_board x hx
    have hne : e.boardId ≠ id := hentry he (by rw [heid]; exact hL)
    have howns : db.ownsEntry id x.entryId = false := by
      rw [← Bool.not_eq_true, Database.ownsEntry_iff]
      rintro ⟨e', he', hid', rfl⟩
      exact hne (by rw [hdb.entry_inj he he' (heid.trans hid'.symm)])
    refine ⟨x, ?_, rfl, rfl⟩
    simp only [Database.removeBoard_accumulatedScores, List.mem_filter, decide_eq_true_eq]
    exact ⟨hx, hbd ▸ hne, howns⟩
  · intro id' _ habs x hx
    obtain ⟨r, hr, rfl⟩ := List.mem_map.mp hx
    rw [Database.unpin_id]
    exact habs r (List.mem_of_mem_filter hr)
  · exact fun _ _ => Iff.rfl
  · exact fun _ _ habs => habs

private theorem agree_addEntry {e : Entry} (h : Legal P s L' (.addEntry e) db) :
    Agree L db (db.addEntry e) := by
  obtain ⟨-, -, -, -, -, hid, hslug⟩ := h
  refine { Agree.refl L db with entry_key := ?_, entry_row := ?_, entry_slug := ?_ }
  · intro id bd sl hL
    have hne : e.id ≠ id := by
      rintro rfl
      exact hc.not_held hid hL rfl
    simp [hne]
  · intro r hL
    have hne : r ≠ e := by
      rintro rfl
      exact hc.not_held hid hL rfl
    simp [hne]
  · intro bd sl hL habs
    have hne : ¬(e.boardId = bd ∧ e.slug = sl) := by
      rintro ⟨rfl, rfl⟩
      exact hc.not_held hslug hL rfl
    simp only [Database.addEntry_entries, List.mem_append, List.mem_singleton]
    rintro r (hr | rfl)
    · exact habs r hr
    · exact hne

private theorem agree_setEntry {e : Entry} (hdb : db.Schema)
    (h : Legal P s L' (.setEntry e) db) : Agree L db (db.setEntry e) := by
  obtain ⟨⟨r, hr, hrid, hrboard, hrslug⟩, hid⟩ := h
  refine { Agree.refl L db with entry_key := ?_, entry_row := ?_, entry_slug := ?_ }
  · exact fun id bd sl _ => (exists_setEntry hdb ⟨r, hr, hrid, hrboard, hrslug⟩).symm
  · intro r' hL
    have hne : r'.id ≠ e.id := by
      intro heq
      exact hc.not_held hid (heq ▸ hL) rfl
    have hne' : r' ≠ e := fun heq => hne (heq ▸ rfl)
    rw [Database.mem_setEntry_entries]
    exact ⟨fun h => .inl ⟨h, hne⟩, fun h => h.elim And.left fun heq => absurd heq.1 hne'⟩
  · exact fun bd sl _ => (forall_setEntry_key hdb ⟨r, hr, hrid, hrboard, hrslug⟩).mpr

private theorem agree_removeEntry {id : Uuid}
    (h : Legal P s L' (.removeEntry id) db) : Agree L db (db.removeEntry id) := by
  obtain ⟨hunplaced, hid⟩ := h
  have hentry : ∀ {id' m}, Held L (.entry id') m → id' ≠ id := by
    rintro id' m hL rfl
    exact hc.not_held hid hL rfl
  have hplacements : (db.removeEntry id).placements = db.placements := by
    simpa [List.filter_eq_self] using hunplaced
  -- The entry has no placements, so only what is about entries and scores can differ.
  refine { Agree.refl L db with
    entry_key := ?_, entry_row := ?_, entry_slug := ?_, entry_unplaced := ?_
    version_placements := ?_, placement_id := ?_, score_absent := ?_, score_present := ?_ }
  · intro id' bd sl hL
    have hne := hentry hL
    simp only [Database.removeEntry_entries, List.mem_filter, decide_eq_true_eq]
    exact ⟨fun ⟨e, he, heq, hrest⟩ => ⟨e, ⟨he, heq ▸ hne⟩, heq, hrest⟩,
      fun ⟨e, he, hrest⟩ => ⟨e, he.1, hrest⟩⟩
  · intro e hL
    simp [hentry hL]
  · intro bd sl _ habs e he
    exact habs e (List.mem_of_mem_filter he)
  · rw [hplacements]
    exact fun _ _ habs => habs
  · intro id' _
    rw [Database.placementsOf, hplacements, Database.placementsOf]
  · rw [hplacements]
    exact fun _ _ habs => habs
  · intro bd en _ habs x hx
    exact habs x (List.mem_of_mem_filter hx)
  · rintro bd en hL - ⟨x, hx, hb, he⟩
    have hne := hentry hL
    exact ⟨x, by simp [hx, he, hne], hb, he⟩

private theorem agree_addVersion {v : Version} (h : Legal P s L' (.addVersion v) db) :
    Agree L db (db.addVersion v) := by
  obtain ⟨-, -, -, -, -, hboard, hid⟩ := h
  refine { Agree.refl L db with versions := ?_, version_row := ?_ }
  · intro id hL
    have hne : v.boardId ≠ id := by
      rintro rfl
      exact hc.not_held hboard hL rfl
    simp [Database.versionsOf, hne]
  · intro r hL
    have hne : r ≠ v := by
      rintro rfl
      exact hc.not_held hid hL rfl
    simp [hne]

private theorem agree_addPlacement {p : Placement} (h : Legal P s L' (.addPlacement p) db) :
    Agree L db (db.addPlacement p) := by
  obtain ⟨-, -, -, -, hversion, hentry, hid⟩ := h
  refine { Agree.refl L db with entry_unplaced := ?_, version_placements := ?_, placement_id := ?_ }
  · intro id hL habs
    have hne : p.entryId ≠ id := by
      rintro rfl
      exact hc.not_held hentry hL rfl
    simp only [Database.addPlacement_placements, List.mem_append, List.mem_singleton]
    rintro r (hr | rfl)
    · exact habs r hr
    · exact hne
  · intro id hL
    have hne : p.versionId ≠ id := by
      rintro rfl
      exact hc.not_held hversion hL rfl
    simp [Database.placementsOf, hne]
  · intro id hL habs
    have hne : p.id ≠ id := by
      rintro rfl
      exact hc.not_held hid hL rfl
    simp only [Database.addPlacement_placements, List.mem_append, List.mem_singleton]
    rintro r (hr | rfl)
    · exact habs r hr
    · exact hne

private theorem agree_setPositions {ranked : List (Uuid × ℤ)} (hdb : db.Schema)
    (h : Legal P s L' (.setPositions ranked) db) : Agree L db (db.setPositions ranked) := by
  refine { Agree.refl L db with entry_unplaced := ?_, version_placements := ?_, placement_id := ?_ }
  · rintro id - habs p hp
    obtain ⟨q, hq, rfl⟩ := List.mem_map.mp hp
    simpa using habs q hq
  · intro id hL
    have hfix : ∀ p ∈ db.placementsOf id, Database.withPosition ranked p = p := by
      intro p hp
      obtain ⟨hp, hpid⟩ := Database.mem_placementsOf.mp hp
      refine Database.withPosition_of_forall_ne fun r hr heq => ?_
      obtain ⟨q, hq, hqid, -, hheld⟩ := h r hr
      rw [hdb.placement_inj hq hp (hqid.trans heq), hpid] at hheld
      exact hc.not_held hheld hL rfl
    rw [Database.placementsOf_setPositions, List.map_congr_left hfix, List.map_id']
  · rintro id - habs p hp
    obtain ⟨q, hq, rfl⟩ := List.mem_map.mp hp
    simpa using habs q hq

private theorem agree_addScore {x : AccumulatedScore} (h : Legal P s L' (.addScore x) db) :
    Agree L db (db.addScore x) := by
  obtain ⟨-, -, -, -, hkey⟩ := h
  refine { Agree.refl L db with score_absent := ?_, score_present := ?_ }
  · intro bd en hL habs
    have hne : ¬(x.boardId = bd ∧ x.entryId = en) := by
      rintro ⟨rfl, rfl⟩
      exact hc.not_held hkey hL rfl
    simp only [Database.addScore_accumulatedScores, List.mem_append, List.mem_singleton]
    rintro r (hr | rfl)
    · exact habs r hr
    · exact hne
  · rintro bd en - - ⟨r, hr, hrest⟩
    exact ⟨r, by simp [hr], hrest⟩

omit hc in
private theorem agree_setScore {x : AccumulatedScore} (h : Legal P s L' (.setScore x) db) :
    Agree L db (db.setScore x) := by
  obtain ⟨⟨r, hr, hrb, hre⟩, -⟩ := h
  refine { Agree.refl L db with score_absent := ?_, score_present := ?_ }
  · intro bd en _ habs r' hr'
    rcases Database.mem_setScore_accumulatedScores.mp hr' with ⟨h₁, -⟩ | ⟨rfl, -⟩
    · exact habs r' h₁
    · rw [← hrb, ← hre]
      exact habs r hr
  · exact fun bd en _ _ => exists_setScore.mpr

private theorem agree_addReference {r : ReferenceRow} (h : Legal P s L' (.addReference r) db) :
    Agree L db (db.addReference r) := by
  obtain ⟨-, -, -, -, -, hid⟩ := h
  refine { Agree.refl L db with reference_id := fun id hL habs => ?_ }
  have hne : r.id ≠ id := by
    rintro rfl
    exact hc.not_held hid hL rfl
  simp only [Database.addReference_references, List.mem_append, List.mem_singleton]
  rintro x (hx | rfl)
  · exact habs x hx
  · exact hne

omit hc in
private theorem agree_removeReference {id : Uuid} : Agree L db (db.removeReference id) :=
  { Agree.refl L db with
    reference_id := fun _ _ habs r hr => habs r (List.mem_of_mem_filter hr) }

private theorem agree_addCollection {c : Collection} (h : Legal P s L' (.addCollection c) db) :
    Agree L db (db.addCollection c) := by
  obtain ⟨-, -, hid, hslug⟩ := h
  refine { Agree.refl L db with collection_row := fun r hL => ?_
                                collection_slug := fun slug hL habs => ?_ }
  · have hne : r ≠ c := by
      rintro rfl
      exact hc.not_held hid hL rfl
    simp [hne]
  · have hne : c.slug ≠ slug := by
      rintro rfl
      exact hc.not_held hslug hL rfl
    simpa [hne, or_imp, forall_and] using habs

private theorem agree_setCollection {c : Collection} (h : Legal P s L' (.setCollection c) db) :
    Agree L db (db.setCollection c) := by
  obtain ⟨⟨r, hr, -, hrslug⟩, hid⟩ := h
  refine { Agree.refl L db with collection_row := fun x hL => ?_
                                collection_slug := fun slug _ habs x hx => ?_ }
  · have hne : x.id ≠ c.id := by
      intro heq
      exact hc.not_held hid (heq ▸ hL) rfl
    have hne' : x ≠ c := fun heq => hne (heq ▸ rfl)
    rw [Database.mem_setCollection_collections]
    exact ⟨fun h => .inl ⟨h, hne⟩, fun h => h.elim And.left fun heq => absurd heq.1 hne'⟩
  · rcases Database.mem_setCollection_collections.mp hx with ⟨h₁, -⟩ | ⟨rfl, -⟩
    · exact habs x h₁
    · exact hrslug ▸ habs r hr

private theorem agree_removeCollection {id : Uuid}
    (h : Legal P s L' (.removeCollection id) db) : Agree L db (db.removeCollection id) := by
  refine { Agree.refl L db with collection_row := fun c hL => ?_
                                collection_slug := fun slug _ habs c hc' =>
                                  habs c (List.mem_of_mem_filter hc') }
  have hne : c.id ≠ id := by
    rintro rfl
    exact hc.not_held h hL rfl
  simp [hne]

/-- A legal write of another transaction leaves alone what the own locks protect. -/
theorem Legal.agree {w : RowWrite} (h : Legal P s L' w db) (hdb : db.Schema) :
    Agree L db (w.apply db) := by
  cases w with
  | addBoard b => exact agree_addBoard hc h
  | setBoard b => exact agree_setBoard hc h
  | removeBoard id => exact agree_removeBoard hc hdb h
  | addEntry e => exact agree_addEntry hc h
  | setEntry e => exact agree_setEntry hc hdb h
  | removeEntry id => exact agree_removeEntry hc h
  | addVersion v => exact agree_addVersion hc h
  | addPlacement p => exact agree_addPlacement hc h
  | setPositions ranked => exact agree_setPositions hc hdb h
  | addScore x => exact agree_addScore hc h
  | setScore x => exact agree_setScore h
  | addReference r => exact agree_addReference hc h
  | removeReference id => exact agree_removeReference
  | addCollection c => exact agree_addCollection hc h
  | setCollection c => exact agree_setCollection hc h
  | removeCollection id => exact agree_removeCollection hc h

/-- **What the own locks protect is not changed by the commit of another transaction.** -/
theorem LegalSeq.agree {ws : List RowWrite} (h : LegalSeq P s L' ws db) (hdb : db.Schema) :
    Agree L db (db.applyAll ws) := by
  induction ws generalizing db with
  | nil => exact Agree.refl L db
  | cons w ws ih => exact (h.1.agree hc hdb).trans (ih h.2.2 (h.1.schema hdb))

end Others

/-! ### The own writes -/

private theorem exists_append {α : Type} {l l' : List α} {a : α} {c c' : α → Prop}
    (h : (∃ b ∈ l, c b) ↔ ∃ b ∈ l', c' b) (ha : c a ↔ c' a) :
    (∃ b ∈ l ++ [a], c b) ↔ ∃ b ∈ l' ++ [a], c' b := by
  simp only [List.mem_append, List.mem_singleton, or_and_right, exists_or, exists_eq_left, h, ha]

private theorem mem_append_congr {α : Type} {l l' : List α} {a b : α} (h : b ∈ l ↔ b ∈ l') :
    b ∈ l ++ [a] ↔ b ∈ l' ++ [a] := by
  simp only [List.mem_append, h]

private theorem forall_append {α : Type} {l l' : List α} {a : α} {c : α → Prop}
    (h : (∀ b ∈ l, c b) → ∀ b ∈ l', c b) (ha : ∀ b ∈ l ++ [a], c b) : ∀ b ∈ l' ++ [a], c b := by
  simp only [List.mem_append, List.mem_singleton, or_imp, forall_and, forall_eq] at ha ⊢
  exact ⟨h ha.1, ha.2⟩

section Both

variable (h : Agree L db db')
include h

private theorem both_addBoard (b : Board) : Agree L (db.addBoard b) (db'.addBoard b) :=
  { h with
    board_key := fun id hL => exists_append (h.board_key id hL) Iff.rfl
    board_row := fun r hL => mem_append_congr (h.board_row r hL)
    board_slug := fun slug hL => forall_append (h.board_slug slug hL) }

private theorem both_setBoard (hdb : db.Schema) (hdb' : db'.Schema) {b : Board}
    (hr : ∃ r ∈ db.boards, r.id = b.id ∧ r.slug = b.slug)
    (hr' : ∃ r ∈ db'.boards, r.id = b.id ∧ r.slug = b.slug) :
    Agree L (db.setBoard b) (db'.setBoard b) := by
  refine { h with
    board_key := fun id hL => exists_setBoard.trans ((h.board_key id hL).trans exists_setBoard.symm)
    board_row := fun x hL => ?_
    board_slug := fun slug hL habs => ?_ }
  · obtain ⟨r, hr, hrid, -⟩ := hr
    obtain ⟨r', hr', hrid', -⟩ := hr'
    simp only [Database.mem_setBoard_boards, h.board_row x hL]
    exact or_congr_right (and_congr_right fun _ => ⟨fun _ => ⟨r', hr', hrid'⟩,
      fun _ => ⟨r, hr, hrid⟩⟩)
  · exact (forall_setBoard_slug hdb' hr').mpr (h.board_slug slug hL
      ((forall_setBoard_slug hdb hr).mp habs))

private theorem both_addEntry (e : Entry) : Agree L (db.addEntry e) (db'.addEntry e) :=
  { h with
    entry_key := fun id bd sl hL => exists_append (h.entry_key id bd sl hL) Iff.rfl
    entry_row := fun r hL => mem_append_congr (h.entry_row r hL)
    entry_slug := fun bd sl hL => forall_append (h.entry_slug bd sl hL) }

private theorem both_setEntry (hdb : db.Schema) (hdb' : db'.Schema) {e : Entry}
    (hr : ∃ r ∈ db.entries, r.SameKey e) (hr' : ∃ r ∈ db'.entries, r.SameKey e) :
    Agree L (db.setEntry e) (db'.setEntry e) := by
  refine { h with
    entry_key := fun id bd sl hL => (exists_setEntry hdb hr).trans
      ((h.entry_key id bd sl hL).trans (exists_setEntry hdb' hr').symm)
    entry_row := fun x hL => ?_
    entry_slug := fun bd sl hL habs => ?_ }
  · obtain ⟨r, hr, hrid, -⟩ := hr
    obtain ⟨r', hr', hrid', -⟩ := hr'
    simp only [Database.mem_setEntry_entries, h.entry_row x hL]
    exact or_congr_right (and_congr_right fun _ => ⟨fun _ => ⟨r', hr', hrid'⟩,
      fun _ => ⟨r, hr, hrid⟩⟩)
  · exact (forall_setEntry_key hdb' hr').mpr
      (h.entry_slug bd sl hL ((forall_setEntry_key hdb hr).mp habs))

private theorem both_addVersion (v : Version) : Agree L (db.addVersion v) (db'.addVersion v) := by
  refine { h with
    versions := fun id hL => ?_
    version_row := fun r hL => mem_append_congr (h.version_row r hL) }
  have heq := h.versions id hL
  simp only [Database.versionsOf, Database.addVersion_versions, List.filter_append] at heq ⊢
  rw [heq]

private theorem both_addPlacement (p : Placement) :
    Agree L (db.addPlacement p) (db'.addPlacement p) := by
  refine { h with
    entry_unplaced := fun id hL => forall_append (h.entry_unplaced id hL)
    version_placements := fun id hL => ?_
    placement_id := fun id hL => forall_append (h.placement_id id hL) }
  have heq := h.version_placements id hL
  simp only [Database.placementsOf, Database.addPlacement_placements, List.filter_append] at heq ⊢
  rw [heq]

private theorem both_setPositions (ranked : List (Uuid × ℤ)) :
    Agree L (db.setPositions ranked) (db'.setPositions ranked) := by
  refine { h with
    entry_unplaced := fun id hL habs => ?_
    version_placements := fun id hL => ?_
    placement_id := fun id hL habs => ?_ }
  · simp only [Database.setPositions_placements, List.forall_mem_map,
      Database.withPosition_entryId] at habs ⊢
    exact h.entry_unplaced id hL habs
  · simp only [Database.placementsOf_setPositions, h.version_placements id hL]
  · simp only [Database.setPositions_placements, List.forall_mem_map,
      Database.withPosition_id] at habs ⊢
    exact h.placement_id id hL habs

private theorem both_addScore (x : AccumulatedScore) :
    Agree L (db.addScore x) (db'.addScore x) := by
  refine { h with
    score_absent := fun bd en hL => forall_append (h.score_absent bd en hL)
    score_present := fun bd en hL hL' => ?_ }
  rintro ⟨r, hr, hkey⟩
  rcases List.mem_append.mp hr with hr | hr
  · obtain ⟨r', hr', hkey'⟩ := h.score_present bd en hL hL' ⟨r, hr, hkey⟩
    exact ⟨r', List.mem_append_left _ hr', hkey'⟩
  · exact ⟨r, List.mem_append_right _ hr, hkey⟩

private theorem both_setScore (x : AccumulatedScore) :
    Agree L (db.setScore x) (db'.setScore x) := by
  refine { h with
    score_absent := fun bd en hL habs => ?_
    score_present := fun bd en hL hL' hx =>
      exists_setScore.mpr (h.score_present bd en hL hL' (exists_setScore.mp hx)) }
  intro r' hr' hkey
  obtain ⟨r, hr, hkey'⟩ := exists_setScore.mp ⟨r', hr', hkey⟩
  refine h.score_absent bd en hL (fun y hy hykey => ?_) r hr hkey'
  obtain ⟨y', hy', hykey'⟩ := exists_setScore (x := x).mpr ⟨y, hy, hykey⟩
  exact habs y' hy' hykey'

private theorem both_addCollection (c : Collection) :
    Agree L (db.addCollection c) (db'.addCollection c) :=
  { h with
    collection_row := fun r hL => mem_append_congr (h.collection_row r hL)
    collection_slug := fun slug hL => forall_append (h.collection_slug slug hL) }

private theorem both_setCollection (hdb : db.Schema) (hdb' : db'.Schema) {c : Collection}
    (hr : ∃ r ∈ db.collections, r.SameKey c) (hr' : ∃ r ∈ db'.collections, r.SameKey c) :
    Agree L (db.setCollection c) (db'.setCollection c) := by
  refine { h with
    collection_row := fun x hL => ?_
    collection_slug := fun slug hL habs => ?_ }
  · obtain ⟨r, hr, hrid, -⟩ := hr
    obtain ⟨r', hr', hrid', -⟩ := hr'
    simp only [Database.mem_setCollection_collections, h.collection_row x hL]
    exact or_congr_right (and_congr_right fun _ => ⟨fun _ => ⟨r', hr', hrid'⟩,
      fun _ => ⟨r, hr, hrid⟩⟩)
  · exact (forall_setCollection_slug hdb' hr').mpr (h.collection_slug slug hL
      ((forall_setCollection_slug hdb hr).mp habs))

end Both

/-- **A write that removes nothing, applied on both sides, keeps the agreement.** -/
theorem Agree.apply (h : Agree L db db') (hdb : db.Schema) (hdb' : db'.Schema) {w : RowWrite}
    (hw : Legal P s L w db) (hw' : Legal P s' L w db') (hrem : ¬w.removes) :
    Agree L (w.apply db) (w.apply db') := by
  cases w with
  | addBoard b => exact both_addBoard h b
  | setBoard b =>
    obtain ⟨⟨r, hr, hrid, hrslug, -⟩, -⟩ := hw
    obtain ⟨⟨r', hr', hrid', hrslug', -⟩, -⟩ := hw'
    exact both_setBoard h hdb hdb' ⟨r, hr, hrid, hrslug⟩ ⟨r', hr', hrid', hrslug'⟩
  | removeBoard id => exact absurd trivial hrem
  | addEntry e => exact both_addEntry h e
  | setEntry e => exact both_setEntry h hdb hdb' hw.1 hw'.1
  | removeEntry id => exact absurd trivial hrem
  | addVersion v => exact both_addVersion h v
  | addPlacement p => exact both_addPlacement h p
  | setPositions ranked => exact both_setPositions h ranked
  | addScore x => exact both_addScore h x
  | setScore x => exact both_setScore h x
  | addReference r =>
    exact { h with reference_id := fun id hL => forall_append (h.reference_id id hL) }
  | removeReference id => exact absurd trivial hrem
  | addCollection c => exact both_addCollection h c
  | setCollection c => exact both_setCollection h hdb hdb' hw.1 hw'.1
  | removeCollection id => exact absurd trivial hrem

/-! ### Rely -/

/-- **What a transaction with the locks `L` relies on** while others commit. -/
structure Rely (L : List Lock) (s s' : Server) : Prop where
  agree : Agree L s.db s'.db
  board_used : ∀ id ∈ s.usedBoards, id ∈ s'.usedBoards
  entry_used : ∀ id ∈ s.usedEntries, id ∈ s'.usedEntries
  /-- The id of a pending board is not used by anyone else. -/
  board_fresh : ∀ id, Held L (.board id) .update → id ∉ s.usedBoards → id ∉ s'.usedBoards
  /-- The id of a pending entry is not used by anyone else. -/
  entry_fresh : ∀ id, Held L (.entry id) .update → id ∉ s.usedEntries → id ∉ s'.usedEntries
  /-- An id that was used for a board is never used for another one. -/
  board_reused : ∀ b ∈ s'.db.boards, b.id ∈ s.usedBoards → ∃ r ∈ s.db.boards, r.SameKey b
  /-- An id that was used for an entry is never used for another one. -/
  entry_reused : ∀ e ∈ s'.db.entries, e.id ∈ s.usedEntries → ∃ r ∈ s.db.entries, r.SameKey e
  /-- A version stays for as long as its board does. -/
  version_kept : ∀ v ∈ s.db.versions, v.boardId ∈ s.usedBoards →
    (∃ b ∈ s'.db.boards, b.id = v.boardId) → v ∈ s'.db.versions

theorem Rely.refl (L : List Lock) (s : Server) : Rely L s s where
  agree := Agree.refl L s.db
  board_used _ h := h
  entry_used _ h := h
  board_fresh _ _ h := h
  entry_fresh _ _ h := h
  board_reused b hb _ := ⟨b, hb, rfl, rfl, rfl, rfl⟩
  entry_reused e he _ := ⟨e, he, rfl, rfl, rfl⟩
  version_kept _ hv _ _ := hv

theorem Rely.trans {s'' : Server} (h : Rely L s s') (h' : Rely L s' s'') : Rely L s s'' where
  agree := h.agree.trans h'.agree
  board_used id hid := h'.board_used id (h.board_used id hid)
  entry_used id hid := h'.entry_used id (h.entry_used id hid)
  board_fresh id hL hid := h'.board_fresh id hL (h.board_fresh id hL hid)
  entry_fresh id hL hid := h'.entry_fresh id hL (h.entry_fresh id hL hid)
  board_reused b hb hused := by
    obtain ⟨r, hr, h₁, h₂, h₃, h₄⟩ := h'.board_reused b hb (h.board_used _ hused)
    obtain ⟨r', hr', h₁', h₂', h₃', h₄'⟩ := h.board_reused r hr (h₁ ▸ hused)
    exact ⟨r', hr', h₁'.trans h₁, h₂'.trans h₂, h₃'.trans h₃, h₄'.trans h₄⟩
  entry_reused e he hused := by
    obtain ⟨r, hr, h₁, h₂, h₃⟩ := h'.entry_reused e he (h.entry_used _ hused)
    obtain ⟨r', hr', h₁', h₂', h₃'⟩ := h.entry_reused r hr (h₁ ▸ hused)
    exact ⟨r', hr', h₁'.trans h₁, h₂'.trans h₂, h₃'.trans h₃⟩
  version_kept v hv hused hboard := by
    obtain ⟨b, hb, hid⟩ := hboard
    have hused' := h.board_used _ hused
    obtain ⟨r, hr, hkey⟩ := h'.board_reused b hb (hid ▸ hused')
    exact h'.version_kept v (h.version_kept v hv hused ⟨r, hr, hkey.1.trans hid⟩) hused'
      ⟨b, hb, hid⟩

/-- More locks, more to rely on. -/
theorem Rely.anti (h : Rely L' s s') (hsub : ∀ l ∈ L, l ∈ L') : Rely L s s' where
  agree := h.agree.anti hsub
  board_used := h.board_used
  entry_used := h.entry_used
  board_fresh id hL := h.board_fresh id (hL.mono hsub)
  entry_fresh id hL := h.entry_fresh id (hL.mono hsub)
  board_reused := h.board_reused
  entry_reused := h.entry_reused
  version_kept := h.version_kept

/-- A write that is legal stays legal while others commit, seen behind the earlier writes of the
same transaction. -/
theorem Legal.stable {w : RowWrite} (hw : Legal P s L w db) (h : Agree L db db')
    (hrely : Rely L s s') (hremove : ∀ id, w ≠ .removeBoard id) : Legal P s' L w db' := by
  -- What the write asks for is about rows and keys that `L` locks: `db` and `db'` agree on them.
  cases w with
  | addBoard b =>
    obtain ⟨hspent, hid, hslug, hchecks, hconfig, hL, hL'⟩ := hw
    refine ⟨hrely.board_fresh b.id hL hspent, ?_, h.board_slug b.slug hL' hslug, hchecks, hconfig,
      hL, hL'⟩
    intro r hr heq
    obtain ⟨r', hr', heq'⟩ := (h.board_key b.id (hL.weaken rfl)).mpr ⟨r, hr, heq⟩
    exact hid r' hr' heq'
  | setBoard b =>
    obtain ⟨⟨r, hr, hkey⟩, hchecks, hconfig, hL⟩ := hw
    exact ⟨⟨r, (h.board_row r (hkey.1 ▸ hL)).mp hr, hkey⟩, hchecks, hconfig, hL⟩
  | removeBoard id => exact absurd rfl (hremove id)
  | addEntry e =>
    obtain ⟨hspent, hid, hkey, hboard, hL, hL', hL''⟩ := hw
    refine ⟨hrely.entry_fresh e.id hL' hspent, ?_, h.entry_slug _ _ hL'' hkey,
      (h.board_key _ hL).mp hboard, hL, hL', hL''⟩
    intro r hr heq
    obtain ⟨r', hr', heq', -⟩ := (h.entry_key e.id r.boardId r.slug (hL'.weaken rfl)).mpr
      ⟨r, hr, heq, rfl, rfl⟩
    exact hid r' hr' heq'
  | setEntry e =>
    obtain ⟨hr, hL⟩ := hw
    exact ⟨(h.entry_key _ _ _ (hL.weaken rfl)).mp hr, hL⟩
  | removeEntry id => exact ⟨h.entry_unplaced id hw.2 hw.1, hw.2⟩
  | addVersion v =>
    obtain ⟨hid, hkey, hpos, hboard, hnext, hL, hL'⟩ := hw
    have hversions := h.versions v.boardId hL
    refine ⟨fun r hr heq => ?_, fun r hr hb => ?_, hpos, (h.board_key _ (hL.weaken rfl)).mp hboard,
      ?_, hL, hL'⟩
    · exact hid r ((h.version_row r (heq ▸ hL'.weaken rfl)).mpr hr) heq
    · have hmem : r ∈ db.versionsOf v.boardId := hversions ▸ Database.mem_versionsOf.mpr ⟨hr, hb⟩
      exact hkey r (Database.mem_versionsOf.mp hmem).1 hb
    · rcases hnext with hnext | hnext
      · left
        simpa only [NextNumber, Database.maxVersionNumber, hrely.agree.versions v.boardId hL]
          using hnext
      · right
        intro r hr heq
        obtain ⟨r', hr', heq'⟩ := (hrely.agree.board_key _ (hL.weaken rfl)).mpr ⟨r, hr, heq⟩
        exact hnext r' hr' heq'
  | addPlacement p =>
    obtain ⟨hid, hkey, ⟨v, hv, e, he, hvid, heid, heq⟩, hbase, hL, hL', hL''⟩ := hw
    refine ⟨h.placement_id _ hL'' hid, fun r hr hrkey => ?_, ?_, ?_, hL, hL', hL''⟩
    · have hmem : r ∈ db.placementsOf p.versionId :=
        h.version_placements _ hL ▸ Database.mem_placementsOf.mpr ⟨hr, hrkey.1⟩
      exact hkey r (Database.mem_placementsOf.mp hmem).1 hrkey
    · obtain ⟨e', he', heid', hb', -⟩ := (h.entry_key p.entryId e.boardId e.slug hL').mp
        ⟨e, he, heid, rfl, rfl⟩
      exact ⟨v, (h.version_row v (hvid ▸ hL.weaken rfl)).mp hv, e', he', hvid, heid', hb'.trans heq⟩
    · intro r hr hrid
      exact hbase r ((hrely.agree.version_row r (hrid ▸ hL.weaken rfl)).mpr hr) hrid
  | setPositions ranked =>
    intro r hr
    obtain ⟨p, hp, hpid, hbase, hL⟩ := hw r hr
    have hmem : p ∈ db'.placementsOf p.versionId :=
      h.version_placements _ hL ▸ Database.mem_placementsOf.mpr ⟨hp, rfl⟩
    refine ⟨p, (Database.mem_placementsOf.mp hmem).1, hpid, fun v hv hvid => ?_, hL⟩
    exact hbase v ((hrely.agree.version_row v (hvid ▸ hL.weaken rfl)).mpr hv) hvid
  | addScore x =>
    obtain ⟨hkey, hfin, ⟨e, he, heid, hb⟩, hL, hL'⟩ := hw
    obtain ⟨e', he', heid', hb', -⟩ := (h.entry_key x.entryId e.boardId e.slug hL).mp
      ⟨e, he, heid, rfl, rfl⟩
    exact ⟨h.score_absent _ _ hL' hkey, hfin, ⟨e', he', heid', hb'.trans hb⟩, hL, hL'⟩
  | setScore x =>
    obtain ⟨hkey, hfin, hL, hL'⟩ := hw
    exact ⟨h.score_present _ _ hL hL' hkey, hfin, hL, hL'⟩
  | addReference r =>
    obtain ⟨hid, hboard, ⟨input, hinput, hfollows⟩, hpin, hL, hL'⟩ := hw
    refine ⟨h.reference_id _ hL' hid, (h.board_key _ hL).mp hboard, ⟨input, hinput,
      { hfollows with pin := fun id hid => ?_ }⟩, hpin, hL, hL'⟩
    obtain ⟨v, hv, rfl, hrest⟩ := hfollows.pin id hid
    exact ⟨v, (h.version_row v (hpin _ hid)).mp hv, rfl, hrest⟩
  | removeReference id => exact hw
  | addCollection c =>
    obtain ⟨hid, hslug, hL, hL'⟩ := hw
    refine ⟨fun r hr heq => ?_, h.collection_slug _ hL' hslug, hL, hL'⟩
    exact hid r ((h.collection_row r (heq ▸ hL.weaken rfl)).mpr hr) heq
  | setCollection c =>
    obtain ⟨⟨r, hr, hkey⟩, hL⟩ := hw
    exact ⟨⟨r, (h.collection_row r (hkey.1 ▸ hL)).mp hr, hkey⟩, hL⟩
  | removeCollection id => exact hw

/-- **Pending writes stay legal, and the tables behind them stay in agreement.** -/
theorem LegalSeq.stable {ws : List RowWrite} (hws : LegalSeq P s L ws db) (h : Agree L db db')
    (hrely : Rely L s s') (hdb : db.Schema) (hdb' : db'.Schema)
    (hremove : ∀ w ∈ ws, ∀ id, w ≠ .removeBoard id) :
    LegalSeq P s' L ws db' ∧ ((∀ w ∈ ws, ¬w.removes) →
      Agree L (db.applyAll ws) (db'.applyAll ws)) := by
  induction ws generalizing db db' with
  | nil => exact ⟨trivial, fun _ => h⟩
  | cons w ws ih =>
    have hw' := hws.1.stable h hrely (hremove w List.mem_cons_self)
    by_cases hrem : w.removes
    · rw [hws.2.1 hrem]
      exact ⟨legalSeq_singleton.mpr hw', fun hall => absurd hrem (hall w List.mem_cons_self)⟩
    · obtain ⟨hseq, hagree⟩ := ih hws.2.2 (h.apply hdb hdb' hws.1 hw' hrem) (hws.1.schema hdb)
        (hw'.schema hdb') fun w' hw' => hremove w' (List.mem_cons_of_mem _ hw')
      exact ⟨⟨hw', fun hr => absurd hr hrem, hseq⟩,
        fun hall => hagree fun w' hw' => hall w' (List.mem_cons_of_mem _ hw')⟩

end Leaderboards
