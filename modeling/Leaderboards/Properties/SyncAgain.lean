import Leaderboards.Contents.Detector

/-!
# Syncing the same file again

A second sync of a file changes nothing, unless its lines for one entry disagree or the version
that the first sync made is not the one that the change detector expects: a scored board re-ranks
the positions that a file states (`sync_again_iff`).
-/

namespace Leaderboards

open Interaction Ranking

variable {env env' : Supply} {w w' w₂ : World} {db db' : Database} {b : Board}
  {parsed : ParsedBoard} {note note' : Option String}

/-! ### When a second sync has nothing to do -/

/-- What a file line asks for is there. -/
theorem lineDiffers_of_shows (hdb : db.Schema) {line : EntryToml}
    (h : ∃ e ∈ (db.boardContents b).entries, e.Shows line) :
    Sync.lineDiffers db b line = false := by
  obtain ⟨e, he, hslug, hname, hmetadata⟩ := h
  obtain ⟨r, hr, rfl⟩ := List.mem_map.mp he
  obtain ⟨hmem, hboard⟩ := Database.mem_entriesOf.mp ((mem_orderBy _).mp hr)
  have hrow : db.entryBySlug? b.id line.slug = some r := by
    rw [← hslug, ← hboard]
    exact hdb.entryBySlug?_eq hmem
  unfold Sync.lineDiffers
  rw [hrow]
  exact decide_eq_false fun hne => hne.elim (fun hn => hn hname) fun hm => hm hmetadata

/-- **A sync that has nothing to do** writes nothing. -/
theorem ends_syncBoard_idle (h : w.Rested env) (hfile : parsed.board.accumulative = false)
    (hb : w.server.db.boardBySlug? parsed.slug = some b) (hrow : ¬Sync.rowDiffers b parsed)
    (hlines : ∀ line ∈ parsed.entries, Sync.lineDiffers w.server.db b line = false)
    (hneeds : parsed.entries ≠ [] → (w.server.db.boardContents b).needsVersion
      (parsed.entries.map Sync.placementOf) = .ok false) :
    (Sync.syncBoard parsed note).Ends env (fun r w' =>
      (∃ x, r = .ok x ∧ x.action = .noChange) ∧ w'.server.db = w.server.db) w := by
  have hsame : Sync.rankingConfigChanged b parsed = false := by
    unfold Sync.rowDiffers at hrow
    unfold Sync.rankingConfigChanged
    grind
  have hother : ∀ b', w.server.db.boardBySlug? parsed.slug = some b' → b' = b := fun b' hb' =>
    Option.some.inj (hb'.symm.trans hb)
  rw [Sync.syncBoard_eq note hfile]
  refine Prog.ends_bind (ends_syncBoardRow h.session h.schema ?_ ?_ ?_ ?_ ?_ ?_)
  · exact fun n hn r hr => (h.lt_uuid hn (h.below.boards r hr)).ne
  · exact fun e hnone => by cases hnone.symm.trans hb
  · exact fun b' n w₁ hnone => by cases hnone.symm.trans hb
  · exact fun e b' hb' hdiffers => absurd (hother b' hb' ▸ hdiffers) hrow
  · exact fun b' now hb' hdiffers => absurd (hother b' hb' ▸ hdiffers) hrow
  · intro b' hb' _ w₁ h₁
    obtain rfl := hother b' hb'
    rw [hsame]
    have hdb₁ : w₁.server.db = w.server.db := h₁.db
    have hrest : (Sync.afterRow parsed note (b', false)).Ends env (fun r w' =>
        (∃ x, r = .ok x ∧ x.action = .noChange) ∧ w'.server.db = w.server.db) w₁ := by
      unfold Sync.afterRow
      split
      · exact ⟨⟨_, rfl, rfl⟩, hdb₁⟩
      rename_i hne
      refine ends_readSave h₁.session rfl (fun e w₂ he => by cases he) fun row w₂ hexec h₂ => ?_
      obtain rfl := (Prod.mk.inj (Except.ok.inj hexec)).1
      have hdb₂ : w₂.server.db = w.server.db := World.Saves.db (h₁.trans h₂)
      -- No line differs from its entry, so the loop over the entries sends nothing.
      have hloop : (Prog.each parsed.entries (Sync.syncEntry b'.id
          (orderBy Entry.createdAt (w₁.server.db.entriesOf b'.id))) : Action Unit) = .ret () := by
        refine Prog.each_eq_ret fun line hline => ?_
        rw [hdb₁]
        exact syncEntry_same h.schema (hlines line hline)
      dsimp only
      rw [hloop]
      have hholds : w₂.Holds env w.server.db b' (w.server.db.boardContents b') :=
        (World.Holds.nothing ⟨h, (Database.mem_of_boardBySlug? hb).1, rfl, .refl _ _⟩
          (h₁.trans h₂))
      have hneeded := ends_needsVersion_holds hholds (parsed.entries.map Sync.placementOf)
      have hquiet : (Sync.needsVersion b' (parsed.entries.map Sync.placementOf)).Ends env
          (fun _ w₃ => w₂.Saves w₃ []) w₂ := ends_readOnly (readOnly_needsVersion _ _) h₂.session
      change (Sync.versionStep parsed note b' false).Ends env _ w₂
      refine Prog.ends_bind ((Prog.Ends.and hneeded hquiet).mono fun r w₃ h₃ => ?_)
      obtain ⟨hresult, hsaves⟩ := h₃
      cases r with
      | error e => cases hresult.1.symm.trans (hneeds hne)
      | ok needed =>
        obtain rfl : needed = false := Except.ok.inj (hresult.1.symm.trans (hneeds hne))
        exact ⟨⟨_, rfl, rfl⟩, hsaves.db.trans hdb₂⟩
    exact hrest

/-! ### The condition -/

namespace Sync

/-- A file line as a placement row, with the place of its slug in a list as the id of the entry. -/
def placed (slugs : List String) (line : EntryToml) : Placement where
  id := 0
  versionId := 0
  entryId := slugs.findIdx fun slug => slug = line.slug
  position := line.position
  score := line.score
  tier := line.tier
  metadata := entryMetadata line

/-- The rank of a file line by score in the direction of the file, ties by the order of the
entries. -/
def scoreRank (parsed : ParsedBoard) (slugs : List String) (line : EntryToml) : ℕ :=
  rank (scoreKey (parsed.board.sortDirection = "asc")) (parsed.entries.map (placed slugs))
    (placed slugs line)

/-- The position that the file gives to a tier can be read. -/
theorem tierPosition_tierJson (x : TierToml × ℕ) :
    tierPosition (tierJson x) = .ok (some (asI32 (x.2 + 1))) := by
  have htext : arrowText "position" (tierJson x) = some (toString (asI32 (x.2 + 1))) := by
    obtain ⟨⟨key, _ | label⟩, i⟩ := x <;> rfl
  have hlo : -2147483648 ≤ asI32 (x.2 + 1) := Int.le_bmod (by decide)
  have hhi : asI32 (x.2 + 1) < 2147483648 := Int.bmod_lt (by decide)
  rw [tierPosition, htext]
  dsimp only
  rw [castInt4_toString hlo (Int.le_of_lt_add_one hhi)]
  rfl

/-- **The database can read the tiers of the file lines**, since the positions that the file gives
to its tiers are integers of 32 bits. -/
theorem exists_tierOrds (parsed : ParsedBoard) (tiers : List (Option String)) :
    ∃ ords, Contents.tierOrds (tierConfig parsed) tiers = .ok ords := by
  have hitems : ∃ items, jsonbArrayElements (arrow "tiers" (tierConfig parsed)) = .ok items ∧
      ∀ obj ∈ items, ∃ ord, tierPosition obj = .ok ord := by
    by_cases hempty : parsed.board.tiers = []
    · have hnone : tierConfig parsed = none := if_pos hempty
      rw [hnone]
      exact ⟨[], rfl, fun _ hobj => absurd hobj List.not_mem_nil⟩
    · have hsome : tierConfig parsed =
          some (.obj [("tiers", .arr (parsed.board.tiers.zipIdx.map tierJson))]) := if_neg hempty
      rw [hsome]
      refine ⟨_, rfl, fun obj hobj => ?_⟩
      obtain ⟨x, -, rfl⟩ := List.mem_map.mp hobj
      exact ⟨_, tierPosition_tierJson x⟩
  obtain ⟨items, hitems, hpositions⟩ := hitems
  have hlookup : ∀ tier, ∃ ord, tierOrd (tierConfig parsed) tier = .ok ord := by
    intro tier
    rw [tierOrd, hitems]
    dsimp only
    split
    · exact ⟨none, rfl⟩
    · rename_i obj hfind
      exact hpositions obj (List.mem_of_find?_eq_some hfind)
  induction tiers with
  | nil => exact ⟨[], rfl⟩
  | cons tier tiers ih =>
    obtain ⟨ord, hord⟩ := hlookup tier
    obtain ⟨ords, hords⟩ := ih
    exact ⟨ord :: ords, by rw [Contents.tierOrds, hord, hords]; rfl⟩

/-- If the board is scored, the positions that the file states are the ranks by score. -/
def StatesRanks (c? : Option Contents) (parsed : ParsedBoard) : Prop :=
  Contents.typeFor c? parsed = "scored" → ∀ line ∈ parsed.entries, ∀ n, line.position = some n →
    n = scoreRank parsed (Contents.slugsFor c? parsed) line

/-- A sync of the file settles the board: the file asks for no rows, or its lines for one entry
agree, and if a version has to be made, the change detector finds no difference to it. -/
def Settles (c? : Option Contents) (parsed : ParsedBoard) : Prop :=
  parsed.board.accumulative = true ∨ LinesAgree parsed.entries ∧
    (parsed.entries ≠ [] → Contents.MakesVersion c? parsed → StatesRanks c? parsed)

end Sync

/-- The result of a sync that left the board alone. -/
def BoardSyncResult.Idle (r : BoardSyncResult) : Prop :=
  r.action = .noChange ∨ ∃ reason, r.action = .skipped reason

theorem BoardSyncResult.Versioned.not_idle {r : BoardSyncResult} (h : r.Versioned) : ¬r.Idle := by
  obtain ⟨n, h | h⟩ := h <;> rintro (h' | ⟨reason, h'⟩) <;> cases h.symm.trans h'

/-- The rank of a placement of the file in the contents of the board. -/
theorem scoreRank_contents {c : Contents} (hdirection : c.board.sortDirection =
    parsed.board.sortDirection) (line : EntryToml) :
    c.scoreRank (parsed.entries.map Sync.placementOf) (Sync.placementOf line) =
      Sync.scoreRank parsed c.slugs line := by
  have hplaced : ∀ line, c.placement (Sync.placementOf line) = Sync.placed c.slugs line := by
    intro line
    have hplace : (c.entries.findIdx fun e => e.slug = line.slug) =
        c.slugs.findIdx fun slug => slug = line.slug := by
      rw [Contents.slugs, List.findIdx_map]
      rfl
    rw [Sync.placed, ← hplace]
    rfl
  rw [Contents.scoreRank, Sync.scoreRank, hdirection, List.map_map, hplaced]
  exact congrArg (fun l => rank _ l _) (List.map_congr_left fun l _ => hplaced l)

/-- A sync brings the direction of the board to the file. -/
theorem Contents.Synced.direction {c : Contents} {c? : Option Contents} {r : BoardSyncResult}
    (h : Contents.Synced parsed c? r c) : c.board.sortDirection = parsed.board.sortDirection :=
  by_contra fun hne => h.row (.inr (.inl hne))

/-- A sync brings the tiers of the board to the file. -/
theorem Contents.Synced.tiers {c : Contents} {c? : Option Contents} {r : BoardSyncResult}
    (h : Contents.Synced parsed c? r c) : c.board.tierConfig = Sync.tierConfig parsed :=
  by_contra fun hne => h.row (.inr (.inr (.inl hne)))

/-- Right after a version was made from the file, another one is needed exactly when a position
that the file states is not the rank. -/
theorem needs_iff_of_made {c : Contents} {c? : Option Contents} {r : BoardSyncResult}
    (h : Contents.Synced parsed c? r c) (hne : parsed.entries ≠ [])
    (hmade : Contents.MakesVersion c? parsed) :
    ¬c.Needs parsed false ↔ Sync.StatesRanks c? parsed := by
  obtain ⟨-, hslugs, v, hlatest, hplacements⟩ := h.made hne hmade
  have hslugs' : ((parsed.entries.map Sync.placementOf).map CreatePlacement.entrySlug).Nodup := by
    rwa [List.map_map]
  have hneeds : c.Needs parsed false ↔ Sync.placementsChanged c.board.boardType
      ((c.stored (parsed.entries.map Sync.placementOf)).map CreatePlacement.joined)
      (parsed.entries.map Sync.placementOf) = true := by
    unfold Contents.Needs
    rw [hlatest, ← hplacements]
    simp
  rw [hneeds, Bool.not_eq_true, Contents.placementsChanged_stored hslugs', h.boardType]
  unfold Sync.StatesRanks
  rw [← h.slugs]
  refine imp_congr_right fun _ => ?_
  rw [List.forall_mem_map]
  refine forall₂_congr fun line _ => ?_
  rw [scoreRank_contents h.direction]
  rfl

/-- **The change detector after a sync**: it finds no difference to the latest version exactly when
no version had to be made or the version that was made is the one that it expects. -/
theorem needsVersion_eq_false_iff {c : Contents} {c? : Option Contents} {r : BoardSyncResult}
    (h : Contents.Synced parsed c? r c) (hne : parsed.entries ≠ []) :
    c.needsVersion (parsed.entries.map Sync.placementOf) = .ok false ↔
      (Contents.MakesVersion c? parsed → Sync.StatesRanks c? parsed) := by
  by_cases hmade : Contents.MakesVersion c? parsed
  swap
  · exact iff_of_true (h.kept hne hmade).2.1 fun habsurd => absurd habsurd hmade
  have hranks := needs_iff_of_made h hne hmade
  obtain ⟨-, -, v, hlatest, hplacements⟩ := h.made hne hmade
  have htiers : v.2.placements.map CreatePlacement.tier = parsed.entries.map EntryToml.tier := by
    rw [hplacements, Contents.stored_eq, List.map_map]
    exact (map_zipIdx_fst CreatePlacement.tier (parsed.entries.map Sync.placementOf)).trans
      (List.map_map ..)
  -- The positions of the tiers come from the file, so the lookups never fail.
  obtain ⟨ords, hords⟩ := Sync.exists_tierOrds parsed (parsed.entries.map EntryToml.tier)
  have hsome : ∃ needed, c.needsVersion (parsed.entries.map Sync.placementOf) = .ok needed := by
    rw [Contents.needsVersion, hlatest]
    dsimp only
    rw [h.tiers, htiers, hords]
    exact ⟨_, rfl⟩
  obtain ⟨needed, hneeded⟩ := hsome
  have hneeds := Contents.needsVersion_ok hneeded
  rw [hneeded]
  constructor
  · intro hno _
    obtain rfl := Except.ok.inj hno
    refine hranks.mp fun hn => ?_
    cases hneeds.mpr hn
  · intro hstates
    have hno : ¬needed = true := fun hyes => hranks.mpr (hstates hmade) (hneeds.mp hyes)
    rw [Bool.not_eq_true _ |>.mp hno]

/-! ### The second sync -/

/-- Untouched rows hold the same. -/
theorem Untouched.boardContents?_eq {slug : String} (h : Untouched slug db db') (hdb : db.Schema)
    (hdb' : db'.Schema) : db'.boardContents? slug = db.boardContents? slug := by
  unfold Database.boardContents?
  rw [h.board]
  rcases hb : db.boardBySlug? slug with _ | b
  · rfl
  have hversions := hdb.numbered_congr hdb' b.id (h.versions b hb) (h.placements b hb)
    fun e he => ⟨e, (Database.mem_entriesOf.mp (h.entries b hb ▸ he)).1, rfl, rfl⟩
  rw [Option.map_some, Option.map_some, Database.boardContents, hversions, h.entries b hb]
  rfl

/-- The slugs of the entries that a board holds are pairwise different. -/
theorem slugs_boardContents? {slug : String} (hdb : db.Schema) :
    ∀ c, db.boardContents? slug = some c → c.slugs.Nodup := by
  intro c hc
  obtain ⟨b, -, rfl⟩ := Option.map_eq_some_iff.mp hc
  rw [Contents.slugs, Database.boardContents_entries, List.map_map]
  exact (((orderBy_perm Entry.id _).map Entry.slug).nodup_iff).mpr (hdb.slugs_nodup b.id)

/-- **Syncing the same file again.** Let the sync of a parsed board return a result. A second sync
of the same file from the tables that it left returns that there was no change (or that the board
was skipped) and leaves the board row, its entries, versions and placements untouched if and only
if the file settles the board. -/
theorem sync_again_iff {r : BoardSyncResult} (h : w.Rested env) (note note' : Option String)
    (hrun : (Sync.syncBoard parsed note).run (serve env) w = (.ok r, w')) (h₂ : w₂.Rested env')
    (hdb : w₂.server.db = w'.server.db) :
    (Sync.syncBoard parsed note').Ends env' (fun r' w₃ => (∃ x, r' = .ok x ∧ x.Idle) ∧
      Untouched parsed.slug w₂.server.db w₃.server.db) w₂ ↔
      Sync.Settles (w.server.db.boardContents? parsed.slug) parsed := by
  rcases hfile : parsed.board.accumulative with _ | _
  swap
  · have hskip : Sync.syncBoard parsed note' = .ret ⟨parsed.slug, parsed.board.name,
        .skipped Sync.skipReason⟩ := if_pos hfile
    rw [hskip]
    exact iff_of_true ⟨⟨_, rfl, .inr ⟨_, rfl⟩⟩, .refl _ _⟩ (.inl hfile)
  -- What the first sync does to the contents of the board; from there on the ids play no part.
  have hfirst := ends_syncBoard_contents h parsed note
  unfold Action.Ends Prog.Ends at hfirst
  rw [hrun] at hfirst
  obtain ⟨c₁?, hsync, hsynced⟩ := hfirst
  obtain ⟨c, rfl, hleft⟩ := Contents.sync_ok hfile (slugs_boardContents? h.schema) hsync
  have hcontents : w₂.server.db.boardContents? parsed.slug = some c := by
    rw [hdb]
    exact hsynced.contents
  have hsettles : Sync.Settles (w.server.db.boardContents? parsed.slug) parsed ↔
      Sync.LinesAgree parsed.entries ∧ (parsed.entries ≠ [] →
        c.needsVersion (parsed.entries.map Sync.placementOf) = .ok false) := by
    unfold Sync.Settles
    rw [hfile]
    simp only [Bool.false_eq_true, false_or]
    exact and_congr_right fun _ => forall_congr' fun hne =>
      (needsVersion_eq_false_iff hleft hne).symm
  rw [hsettles]
  constructor
  -- A second sync that changes nothing leaves the same contents, so it had nothing to do.
  · intro hidle
    have hsecond := ends_syncBoard_contents h₂ parsed note'
    rw [hcontents] at hsecond
    obtain ⟨⟨x, hx, hx'⟩, huntouched⟩ := hidle
    obtain ⟨c₂?, hsync₂, hsynced₂⟩ := hsecond
    rw [hx] at hsync₂
    have hnodup : ∀ c', some c = some c' → c'.slugs.Nodup :=
      hcontents ▸ slugs_boardContents? h₂.schema
    obtain ⟨c₂, rfl, hleft₂⟩ := Contents.sync_ok hfile hnodup hsync₂
    have hsame : c₂ = c := by
      have heq := huntouched.boardContents?_eq h₂.schema hsynced₂.rested.schema
      rw [hsynced₂.contents, hcontents] at heq
      exact Option.some.inj heq
    subst hsame
    refine ⟨by_contra fun hno => hleft₂.moves c₂ rfl hno rfl, fun hne => ?_⟩
    by_cases hmade : Contents.MakesVersion (some c₂) parsed
    · exact absurd hx' (hleft₂.made hne hmade).1.not_idle
    · exact (hleft₂.kept hne hmade).2.1
  · rintro ⟨hlines, hneeds⟩
    obtain ⟨b, hb, rfl⟩ := Option.map_eq_some_iff.mp hcontents
    refine (ends_syncBoard_idle h₂ hfile hb hleft.row (fun line hline => ?_) hneeds).mono
      fun r' w₃ h₃ => ?_
    · exact lineDiffers_of_shows h₂.schema (hleft.shows hlines line hline)
    · obtain ⟨⟨x, hx, hx'⟩, hdb₃⟩ := h₃
      exact ⟨⟨x, hx, .inl hx'⟩, hdb₃ ▸ .refl _ _⟩

/-! ### Two files -/

/-- A file of a board with one entry, at a stated position. -/
def fileAt (boardType : String) (position : ℤ) : ParsedBoard where
  slug := "b"
  board := { name := "B", boardType := boardType }
  entries := [{ slug := "e", name := "E", position := some position, score := some ⟨1⟩ }]

/-- The world after a first sync of a file. -/
def afterFirst (parsed : ParsedBoard) : World :=
  ((Sync.syncBoard parsed none).run (serve counting) {}).2

/-- The first sync starts between two calls. -/
theorem rested_afterFirst (parsed : ParsedBoard) : (afterFirst parsed).Rested counting := by
  have h : World.Rested counting {} := World.rested_initial fun _ _ => Nat.succ_lt_succ
  obtain ⟨_, -, hsynced⟩ := ends_syncBoard_contents h parsed none
  exact hsynced.rested

set_option maxRecDepth 10000 in
/-- An ordered board keeps the position that the file states. -/
theorem sync_again_iff_run :
    (Sync.syncBoard (fileAt "ordered" 2) none).Ends counting (fun r' w₃ =>
      (∃ x, r' = .ok x ∧ x.Idle) ∧ Untouched "b" (afterFirst (fileAt "ordered" 2)).server.db
        w₃.server.db) (afterFirst (fileAt "ordered" 2)) := by
  have hrun : (Sync.syncBoard (fileAt "ordered" 2) none).run (serve counting) {} =
      (.ok ⟨"b", "B", .created 1⟩, afterFirst (fileAt "ordered" 2)) := rfl
  have hlines : Sync.LinesAgree (fileAt "ordered" 2).entries := by
    intro l hl l' hl' _
    rw [List.mem_singleton.mp hl, List.mem_singleton.mp hl']
    exact ⟨rfl, rfl⟩
  refine (sync_again_iff (World.rested_initial fun _ _ => Nat.succ_lt_succ) none none hrun
    (rested_afterFirst _) rfl).mpr (.inr ⟨hlines, fun _ _ htype => ?_⟩)
  exact absurd htype (by decide)

set_option maxRecDepth 10000 in
/-- A scored board re-ranks the position that the file states, and the second sync makes another
version. -/
theorem sync_again_makes_version :
    ((Sync.syncBoard (fileAt "scored" 2) none).run (serve counting) {}).1 =
      .ok ⟨"b", "B", .created 1⟩ ∧
    ((Sync.syncBoard (fileAt "scored" 2) none).run (serve counting)
      (afterFirst (fileAt "scored" 2))).1 = .ok ⟨"b", "B", .updated 2⟩ := ⟨rfl, rfl⟩

end Leaderboards
