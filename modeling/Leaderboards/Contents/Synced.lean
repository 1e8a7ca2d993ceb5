import Leaderboards.Contents.Syncing

/-!
# What a successful sync leaves

`Contents.Synced` says what a board holds after a sync of a file that returned a result: its row
and its entries are those of the file, and either the version it had last matches the file
(`Sync.MakesVersion` does not hold) or there is a new one with the placements of the file.
-/

namespace Leaderboards

open Interaction Ranking

variable {c c' : Contents} {c? : Option Contents} {parsed : ParsedBoard} {note : Option String}
  {existing : List CreateEntry} {line : EntryToml} {lines done : List EntryToml}

/-! ### One file line -/

/-- The entry is as the file line states it. -/
def CreateEntry.Shows (e : CreateEntry) (line : EntryToml) : Prop :=
  e.slug = line.slug ∧ e.name = line.name ∧ e.metadata = Sync.entryMetadata line

/-- The sync made a version. -/
def BoardSyncResult.Versioned (r : BoardSyncResult) : Prop :=
  ∃ n, r.action = .created n ∨ r.action = .updated n

namespace Contents

/-- The slugs of the entries. -/
def slugs (c : Contents) : List String := c.entries.map CreateEntry.slug

theorem createEntry_ok {input : CreateEntry} (h : c.createEntry input = .ok c') :
    input.slug ∉ c.slugs ∧ c' = { c with entries := c.entries ++ [input] } := by
  rw [createEntry] at h
  obtain ⟨⟨⟩, -, h⟩ := Prog.except_bind_ok.mp h
  obtain ⟨⟨⟩, -, h⟩ := Prog.except_bind_ok.mp h
  split at h
  · cases h
  · rename_i hnew
    refine ⟨fun hmem => hnew ?_, (Except.ok.inj h).symm⟩
    obtain ⟨e, he, hslug⟩ := List.mem_map.mp hmem
    exact List.any_eq_true.mpr ⟨e, he, decide_eq_true hslug⟩

theorem updateEntry_ok {slug : String} {input : UpdateEntry}
    (h : c.updateEntry slug input = .ok c') :
    c' = { c with entries := patchEntries slug input c.entries } := by
  have hrest : (if c.entries.any (fun e => e.slug = slug) then
      .ok { c with entries := patchEntries slug input c.entries }
      else .error (.notFound s!"entry '{slug}' not found") : Except Error Contents) = .ok c' := by
    rw [updateEntry] at h
    split at h
    · exact (Prog.except_bind_ok.mp h).choose_spec.2
    · exact h
  split at hrest
  · exact (Except.ok.inj hrest).symm
  · cases hrest

theorem map_slug_patchEntries (slug : String) (input : UpdateEntry) (l : List CreateEntry) :
    (patchEntries slug input l).map CreateEntry.slug = l.map CreateEntry.slug := by
  rw [patchEntries, List.map_map]
  refine List.map_congr_left fun e _ => ?_
  rw [Function.comp_apply]
  split <;> rfl

/-- The PATCH of a file line for an entry. -/
def linePatch (e : CreateEntry) (line : EntryToml) : UpdateEntry where
  name := Sync.patchText e.name line.name
  metadata := Sync.patchField e.metadata (Sync.entryMetadata line)

/-- **What a file line does** when it is accepted: it adds an entry, patches the one that is there,
or agrees with it. -/
inductive LineStep (existing : List CreateEntry) (line : EntryToml) (c : Contents) :
    Contents → Prop
  | created (e : CreateEntry) (he : existing.find? (fun e => e.slug = line.slug) = none)
      (hslug : line.slug ∉ c.slugs) (hshows : e.Shows line) :
      LineStep existing line c { c with entries := c.entries ++ [e] }
  | updated (e : CreateEntry) (he : existing.find? (fun e => e.slug = line.slug) = some e)
      (hdiffers : ¬e.Shows line) :
      LineStep existing line c
        { c with entries := patchEntries line.slug (linePatch e line) c.entries }
  | same (e : CreateEntry) (he : existing.find? (fun e => e.slug = line.slug) = some e)
      (hshows : e.Shows line) : LineStep existing line c c

theorem syncEntry_ok (h : syncEntry existing line c = .ok c') : LineStep existing line c c' := by
  rw [syncEntry] at h
  rcases he : existing.find? (fun e => e.slug = line.slug) with _ | e
  · rw [he] at h
    obtain ⟨hslug, rfl⟩ := createEntry_ok h
    exact .created _ he hslug ⟨rfl, rfl, rfl⟩
  · rw [he] at h
    have hslug : e.slug = line.slug := by simpa using List.find?_some he
    dsimp only at h
    split at h
    · rename_i hdiffers
      obtain rfl := updateEntry_ok h
      refine .updated e he fun hshows => ?_
      rcases hdiffers with hname | hmetadata
      · exact hname hshows.2.1
      · exact hmetadata hshows.2.2
    · rename_i hsame
      rw [not_or, not_not, not_not] at hsame
      obtain rfl := Except.ok.inj h
      exact .same e he ⟨hslug, hsame.1, hsame.2⟩

namespace LineStep

/-- A file line leaves the row and the versions alone. -/
theorem rest (h : LineStep existing line c c') : c'.board = c.board ∧ c'.versions = c.versions := by
  cases h <;> exact ⟨rfl, rfl⟩

/-- A file line adds its slug when no entry had it. -/
theorem slugs_eq (h : LineStep existing line c c') : c'.slugs = c.slugs ++
    ([line].map EntryToml.slug).filter (· ∉ existing.map CreateEntry.slug) := by
  have hmem : ∀ e, existing.find? (fun e => e.slug = line.slug) = some e →
      ¬line.slug ∉ existing.map CreateEntry.slug := by
    intro e he habsent
    have hslug : e.slug = line.slug := by simpa using List.find?_some he
    exact habsent (List.mem_map.mpr ⟨e, List.mem_of_find?_eq_some he, hslug⟩)
  rw [List.map_singleton]
  cases h with
  | created e he hslug hshows =>
    have hnew : line.slug ∉ existing.map CreateEntry.slug := by
      intro hold
      obtain ⟨r, hr, heq⟩ := List.mem_map.mp hold
      exact absurd heq (by simpa using List.find?_eq_none.mp he r hr)
    rw [List.filter_cons_of_pos (by simpa only [decide_eq_true_eq] using hnew),
      List.filter_nil, slugs, List.map_append,
      List.map_singleton, hshows.1]
    rfl
  | updated e he hdiffers =>
    rw [List.filter_cons_of_neg (by simpa only [decide_eq_true_eq] using hmem e he),
      List.filter_nil, List.append_nil, slugs, map_slug_patchEntries]
    rfl
  | same e he hshows =>
    rw [List.filter_cons_of_neg (by simpa only [decide_eq_true_eq] using hmem e he),
      List.filter_nil, List.append_nil]

/-- The slugs stay pairwise different. -/
theorem slugs_nodup (h : LineStep existing line c c') (hnodup : c.slugs.Nodup) :
    c'.slugs.Nodup := by
  cases h with
  | created e he hslug hshows =>
    rw [slugs, List.map_append, List.map_singleton, hshows.1]
    exact List.nodup_append.mpr ⟨hnodup, List.nodup_singleton _, fun x hx y hy hxy => by
      rw [List.mem_singleton.mp hy] at hxy
      exact hslug (hxy ▸ hx)⟩
  | updated e he hdiffers =>
    rw [slugs, map_slug_patchEntries]
    exact hnodup
  | same e he hshows => exact hnodup

end LineStep

/-! ### All file lines -/

/-- The slugs that the file lines add. -/
theorem syncLines_slugs (h : syncLines existing lines c = (.ok (), c')) : c'.slugs =
    c.slugs ++ (lines.map EntryToml.slug).filter (· ∉ existing.map CreateEntry.slug) := by
  induction lines generalizing c with
  | nil =>
    obtain rfl : c = c' := (Prod.mk.inj h).2
    exact (List.append_nil _).symm
  | cons line lines ih =>
    rw [syncLines] at h
    rcases hline : syncEntry existing line c with e | c₁
    · rw [hline] at h
      cases (Prod.mk.inj h).1
    · rw [hline] at h
      rw [ih h, (syncEntry_ok hline).slugs_eq, List.append_assoc, ← List.filter_append]
      rfl

/-- The run rule for the file lines: what every accepted line keeps holds after all of them. -/
theorem syncLines_keeps {I : List EntryToml → Contents → Prop}
    (hI : ∀ done line c c', line ∈ lines → LineStep existing line c c' → I done c →
      I (done ++ [line]) c')
    (h : syncLines existing lines c = (.ok (), c')) (hc : I [] c) : I lines c' := by
  have hrun : ∀ rest done c, (∀ line ∈ rest, line ∈ lines) →
      syncLines existing rest c = (.ok (), c') → I done c → I (done ++ rest) c' := by
    intro rest
    induction rest with
    | nil =>
      intro done c _ h hc
      obtain rfl : c = c' := (Prod.mk.inj h).2
      rwa [List.append_nil]
    | cons line rest ih =>
      intro done c hsub h hc
      rw [syncLines] at h
      rcases hline : syncEntry existing line c with e | c₁
      · rw [hline] at h
        cases (Prod.mk.inj h).1
      · rw [hline] at h
        have hstep := hI done line c c₁ (hsub line List.mem_cons_self) (syncEntry_ok hline) hc
        have hrest := ih (done ++ [line]) c₁ (fun l hl =>
          hsub l (List.mem_cons_of_mem _ hl)) h hstep
        rwa [List.append_assoc] at hrest
  exact hrun lines [] c (fun _ hl => hl) h hc

theorem syncLines_rest (h : syncLines existing lines c = (.ok (), c')) :
    c'.board = c.board ∧ c'.versions = c.versions :=
  syncLines_keeps (I := fun _ c' => c'.board = c.board ∧ c'.versions = c.versions)
    (fun _ _ _ _ _ hstep hc => ⟨hstep.rest.1.trans hc.1, hstep.rest.2.trans hc.2⟩) h ⟨rfl, rfl⟩

end Contents

/-! ### Lines that agree -/

/-- Lines for the same entry state the same name and metadata. -/
def Sync.LinesAgree (lines : List EntryToml) : Prop :=
  ∀ l ∈ lines, ∀ l' ∈ lines, l.slug = l'.slug →
    l.name = l'.name ∧ entryMetadata l = entryMetadata l'

theorem CreateEntry.Shows.congr {e : CreateEntry} {l l' : EntryToml} (h : e.Shows l)
    (hlines : Sync.LinesAgree lines) (hl : l ∈ lines) (hl' : l' ∈ lines)
    (hslug : l.slug = l'.slug) :
    e.Shows l' := by
  obtain ⟨hname, hmetadata⟩ := hlines l hl l' hl' hslug
  exact ⟨h.1.trans hslug, h.2.1.trans hname, h.2.2.trans hmetadata⟩

/-- The entry that was there, or one that a line has patched, shows the line after its PATCH. -/
theorem CreateEntry.shows_patched {e r : CreateEntry} (hslug : r.slug = line.slug)
    (h : r = e ∨ r.Shows line) : (r.patched (Contents.linePatch e line)).Shows line := by
  refine ⟨hslug, ?_, ?_⟩
  · change (Sync.patchText e.name line.name).getD r.name = line.name
    rw [Sync.patchText_getD]
    split
    · rfl
    · rename_i hsame
      rcases h with rfl | h
      · exact not_not.mp hsame
      · exact h.2.1
  · change (Sync.patchField e.metadata (Sync.entryMetadata line)).apply r.metadata = _
    rw [Sync.patchField_apply]
    split
    · rfl
    · rename_i hsame
      rcases h with rfl | h
      · exact not_not.mp hsame
      · exact h.2.2

namespace Contents

/-- What the entries are when some lines that agree are done: the entries that were there are as
they were or as a line states them, and every line that is done shows. -/
structure Shown (existing : List CreateEntry) (lines done : List EntryToml) (c : Contents) :
    Prop where
  sub : ∀ l ∈ done, l ∈ lines
  nodup : c.slugs.Nodup
  kept : ∀ e ∈ existing, ∃ r ∈ c.entries, r.slug = e.slug ∧ (r = e ∨ ∃ l ∈ done, r.Shows l)
  shown : ∀ l ∈ done, ∃ r ∈ c.entries, r.Shows l

/-- The entry of a line that is there is as it was or as the line states it. -/
theorem Shown.current (h : Shown existing lines done c) (hlines : Sync.LinesAgree lines)
    (hline : line ∈ lines) {e : CreateEntry}
    (he : existing.find? (fun e => e.slug = line.slug) = some e) :
    ∃ r ∈ c.entries, r.slug = line.slug ∧ (r = e ∨ r.Shows line) := by
  have hslug : e.slug = line.slug := by simpa using List.find?_some he
  obtain ⟨r, hr, hre, hold⟩ := h.kept e (List.mem_of_find?_eq_some he)
  refine ⟨r, hr, hre.trans hslug, ?_⟩
  rcases hold with hold | ⟨l, hl, hshows⟩
  · exact .inl hold
  · exact .inr (hshows.congr hlines (h.sub l hl) hline (hshows.1.symm.trans (hre.trans hslug)))

/-- The only entry of a slug. -/
theorem eq_of_slug (hnodup : c.slugs.Nodup) {r r' : CreateEntry} (hr : r ∈ c.entries)
    (hr' : r' ∈ c.entries) (hslug : r.slug = r'.slug) : r = r' :=
  List.inj_on_of_nodup_map hnodup hr hr' hslug

/-- One more line. -/
theorem Shown.step (h : Shown existing lines done c) (hlines : Sync.LinesAgree lines)
    (hline : line ∈ lines) (hstep : LineStep existing line c c') :
    Shown existing lines (done ++ [line]) c' := by
  have hsub : ∀ l ∈ done ++ [line], l ∈ lines := by
    intro l hl
    rcases List.mem_append.mp hl with hl | hl
    · exact h.sub l hl
    · exact List.mem_singleton.mp hl ▸ hline
  have hdone : ∀ l ∈ done, l ∈ done ++ [line] := fun l hl => List.mem_append_left _ hl
  have hlast : line ∈ done ++ [line] := List.mem_append_right _ List.mem_cons_self
  have hnodup := hstep.slugs_nodup h.nodup
  cases hstep with
  | created e he hslug hshows =>
    refine ⟨hsub, hnodup, fun e₁ he₁ => ?_, fun l hl => ?_⟩
    · obtain ⟨r, hr, hre, hold⟩ := h.kept e₁ he₁
      exact ⟨r, List.mem_append_left _ hr, hre, hold.imp_right fun ⟨l, hl, hshows⟩ =>
        ⟨l, hdone l hl, hshows⟩⟩
    · rcases List.mem_append.mp hl with hl | hl
      · obtain ⟨r, hr, hshows⟩ := h.shown l hl
        exact ⟨r, List.mem_append_left _ hr, hshows⟩
      · rw [List.mem_singleton.mp hl]
        exact ⟨e, List.mem_append_right _ List.mem_cons_self, hshows⟩
  | updated e he hdiffers =>
    obtain ⟨r₀, hr₀, hslug₀, hcurrent⟩ := h.current hlines hline he
    have hpatched := CreateEntry.shows_patched hslug₀ hcurrent
    -- Where the entry of the line goes, and where the others go.
    have hmoved : r₀.patched (linePatch e line) ∈ patchEntries line.slug (linePatch e line)
        c.entries := List.mem_map.mpr ⟨r₀, hr₀, if_pos hslug₀⟩
    have hother : ∀ r ∈ c.entries, r.slug ≠ line.slug →
        r ∈ patchEntries line.slug (linePatch e line) c.entries :=
      fun r hr hne => List.mem_map.mpr ⟨r, hr, if_neg hne⟩
    refine ⟨hsub, hnodup, fun e₁ he₁ => ?_, fun l hl => ?_⟩
    · obtain ⟨r, hr, hre, hold⟩ := h.kept e₁ he₁
      by_cases hslug : r.slug = line.slug
      · exact ⟨_, hmoved, hslug₀.trans (hslug.symm.trans hre), .inr ⟨line, hlast, hpatched⟩⟩
      · exact ⟨r, hother r hr hslug, hre, hold.imp_right fun ⟨l, hl, hshows⟩ =>
          ⟨l, hdone l hl, hshows⟩⟩
    · rcases List.mem_append.mp hl with hl | hl
      · obtain ⟨r, hr, hshows⟩ := h.shown l hl
        by_cases hslug : r.slug = line.slug
        · exact ⟨_, hmoved, hpatched.congr hlines hline (h.sub l hl) (hslug.symm.trans hshows.1)⟩
        · exact ⟨r, hother r hr hslug, hshows⟩
      · rw [List.mem_singleton.mp hl]
        exact ⟨_, hmoved, hpatched⟩
  | same e he hshows =>
    refine ⟨hsub, hnodup, fun e₁ he₁ => ?_, fun l hl => ?_⟩
    · obtain ⟨r, hr, hre, hold⟩ := h.kept e₁ he₁
      exact ⟨r, hr, hre, hold.imp_right fun ⟨l, hl, hshows⟩ => ⟨l, hdone l hl, hshows⟩⟩
    · rcases List.mem_append.mp hl with hl | hl
      · exact h.shown l hl
      · rw [List.mem_singleton.mp hl]
        obtain ⟨r, hr, -, hcurrent⟩ := h.current hlines hline he
        rcases hcurrent with rfl | hcurrent
        · exact ⟨r, hr, hshows⟩
        · exact ⟨r, hr, hcurrent⟩

/-- **Lines that agree show** after a loop over them that no line stopped. -/
theorem syncLines_shows (hnodup : c.slugs.Nodup) (hlines : Sync.LinesAgree lines)
    (h : syncLines c.entries lines c = (.ok (), c')) :
    ∀ line ∈ lines, ∃ e ∈ c'.entries, e.Shows line := by
  have hshown : Shown c.entries lines lines c' :=
    syncLines_keeps (fun _ _ _ _ hline hstep hc => hc.step hlines hline hstep) h
      ⟨fun _ hl => absurd hl List.not_mem_nil, hnodup, fun e he => ⟨e, he, rfl, .inl rfl⟩,
        fun _ hl => absurd hl List.not_mem_nil⟩
  exact hshown.shown

/-! ### Lines that disagree -/

/-- Some entry is new or differs from the one that was there. -/
def Moved (existing : List CreateEntry) (c : Contents) : Prop :=
  ∃ r ∈ c.entries, ∀ e ∈ existing, e.slug = r.slug → e.name ≠ r.name ∨ e.metadata ≠ r.metadata

/-- A PATCH sets a field that differs from the file line to the value of the line. -/
theorem patched_ne {e r : CreateEntry} (h : e.name ≠ r.name ∨ e.metadata ≠ r.metadata) :
    e.name ≠ (r.patched (linePatch e line)).name ∨
      e.metadata ≠ (r.patched (linePatch e line)).metadata := by
  change e.name ≠ (Sync.patchText e.name line.name).getD r.name ∨ e.metadata ≠
    (Sync.patchField e.metadata (Sync.entryMetadata line)).apply r.metadata
  rw [Sync.patchText_getD, Sync.patchField_apply]
  rcases h with hname | hmetadata
  · left
    split
    · assumption
    · exact hname
  · right
    split
    · assumption
    · exact hmetadata

/-- An entry that was moved stays moved. -/
theorem Moved.step (hexisting : (existing.map CreateEntry.slug).Nodup) (h : Moved existing c)
    (hstep : LineStep existing line c c') : Moved existing c' := by
  obtain ⟨r, hr, hne⟩ := h
  cases hstep with
  | created e he hslug hshows => exact ⟨r, List.mem_append_left _ hr, hne⟩
  | same e he hshows => exact ⟨r, hr, hne⟩
  | updated e he hdiffers =>
    by_cases hslug : r.slug = line.slug
    · refine ⟨r.patched (linePatch e line), List.mem_map.mpr ⟨r, hr, if_pos hslug⟩,
        fun x hx hxr => ?_⟩
      have hes : e.slug = line.slug := by simpa using List.find?_some he
      have hxe : x = e := List.inj_on_of_nodup_map hexisting hx (List.mem_of_find?_eq_some he)
        ((hxr.trans hslug).trans hes.symm)
      rw [hxe]
      exact patched_ne (hne e (List.mem_of_find?_eq_some he) (hes.trans hslug.symm))
    · exact ⟨r, List.mem_map.mpr ⟨r, hr, if_neg hslug⟩, hne⟩

/-- A line that no entry shows moves an entry. -/
theorem LineStep.moves (hexisting : (existing.map CreateEntry.slug).Nodup)
    (hthere : ∀ e ∈ existing, e.slug ∈ c.slugs) (hdiffers : ∀ e ∈ existing, ¬e.Shows line)
    (hstep : LineStep existing line c c') : Moved existing c' := by
  cases hstep with
  | created r he hslug hshows =>
    refine ⟨r, List.mem_append_right _ List.mem_cons_self, fun e hmem heq => ?_⟩
    exact absurd (heq.trans hshows.1) (by simpa using List.find?_eq_none.mp he e hmem)
  | same e he hshows => exact absurd hshows (hdiffers e (List.mem_of_find?_eq_some he))
  | updated e he hne =>
    have hmem := List.mem_of_find?_eq_some he
    have hes : e.slug = line.slug := by simpa using List.find?_some he
    obtain ⟨r, hr, hre⟩ := List.mem_map.mp (hthere e hmem)
    refine ⟨r.patched (linePatch e line), List.mem_map.mpr ⟨r, hr, if_pos (hre.trans hes)⟩,
      fun x hx hxr => ?_⟩
    obtain rfl : x = e := List.inj_on_of_nodup_map hexisting hx hmem (hxr.trans hre)
    change x.name ≠ (Sync.patchText x.name line.name).getD r.name ∨ x.metadata ≠
      (Sync.patchField x.metadata (Sync.entryMetadata line)).apply r.metadata
    rw [Sync.patchText_getD, Sync.patchField_apply]
    by_cases hname : x.name = line.name
    · right
      have hmetadata : x.metadata ≠ Sync.entryMetadata line := fun heq => hne ⟨hes, hname, heq⟩
      rwa [if_pos hmetadata]
    · left
      rwa [if_pos hname]

/-- **A line that no entry shows changes the entries**, when no line stops the loop. -/
theorem syncLines_ne (hnodup : c.slugs.Nodup)
    (hdiffers : ∃ line ∈ lines, ∀ e ∈ c.entries, ¬e.Shows line)
    (h : syncLines c.entries lines c = (.ok (), c')) : c'.entries ≠ c.entries := by
  have hmoved : (∀ e ∈ c.entries, e.slug ∈ c'.slugs) ∧
      ((∃ line ∈ lines, ∀ e ∈ c.entries, ¬e.Shows line) → Moved c.entries c') := by
    refine syncLines_keeps (I := fun done c₁ => (∀ e ∈ c.entries, e.slug ∈ c₁.slugs) ∧
      ((∃ line ∈ done, ∀ e ∈ c.entries, ¬e.Shows line) → Moved c.entries c₁))
      (fun done line c₁ c₂ _ hstep hc => ⟨fun e he => ?_, fun hdiffers => ?_⟩) h
      ⟨fun e he => List.mem_map_of_mem he, by simp⟩
    · rw [hstep.slugs_eq]
      exact List.mem_append_left _ (hc.1 e he)
    · obtain ⟨l, hl, hne⟩ := hdiffers
      rcases List.mem_append.mp hl with hl | hl
      · exact (hc.2 ⟨l, hl, hne⟩).step hnodup hstep
      · rw [List.mem_singleton.mp hl] at hne
        exact hstep.moves hnodup hc.1 hne
  obtain ⟨r, hr, hne⟩ := hmoved.2 hdiffers
  intro hsame
  rcases hne r (hsame ▸ hr) rfl with hname | hmetadata
  · exact hname rfl
  · exact hmetadata rfl

/-- Of two lines for the same entry that disagree, one shows nowhere. -/
theorem exists_unshown (hnodup : c.slugs.Nodup) (h : ¬Sync.LinesAgree lines) :
    ∃ line ∈ lines, ∀ e ∈ c.entries, ¬e.Shows line := by
  by_contra hall
  push Not at hall
  refine h fun l hl l' hl' hslug => ?_
  obtain ⟨e, he, hshows⟩ := hall l hl
  obtain ⟨e', he', hshows'⟩ := hall l' hl'
  obtain rfl := eq_of_slug hnodup he he' (hshows.1.trans (hslug.trans hshows'.1.symm))
  exact ⟨hshows.2.1.symm.trans hshows'.2.1, hshows.2.2.symm.trans hshows'.2.2⟩

/-! ### The version -/

theorem createVersion_ok {input : CreateVersion} {n : ℤ} (h : c.createVersion input = .ok (n, c')) :
    (input.placements.map CreatePlacement.entrySlug).Nodup ∧ n = c.nextNumber ∧
      c' = { c with versions := c.versions ++
        [(c.nextNumber, { input with placements := c.stored input.placements })] } := by
  rw [createVersion] at h
  split at h
  · cases h
  obtain ⟨⟨⟩, hvalid, h⟩ := Prog.except_bind_ok.mp h
  rw [createBody] at h
  obtain ⟨⟨⟩, -, h⟩ := Prog.except_bind_ok.mp h
  by_cases hmax : 2147483647 < c.nextNumber
  · rw [if_pos hmax] at h
    cases h
  rw [if_neg hmax] at h
  obtain ⟨⟨⟩, -, h⟩ := Prog.except_bind_ok.mp h
  have hdone : (.ok (c.nextNumber, { c with versions := c.versions ++
      [(c.nextNumber, { input with placements := c.stored input.placements })] }) :
      Except Error (ℤ × Contents)) = .ok (n, c') := by
    split at h
    · exact (Prog.except_bind_ok.mp h).choose_spec.2
    · exact h
  obtain ⟨rfl, rfl⟩ := Prod.mk.inj (Except.ok.inj hdone)
  exact ⟨(Versions.validatePlacements_iff.mp hvalid).1, rfl, rfl⟩

/-- The new version is the latest one. -/
theorem latest?_concat (c : Contents) (v : CreateVersion) :
    ({ c with versions := c.versions ++ [(c.nextNumber, v)] } : Contents).latest? =
      some (c.nextNumber, v) := by
  refine head?_orderBy_concat _ fun x hx => ?_
  have hle : x.1 ≤ ((c.versions.map Prod.fst).max?).getD 0 :=
    Database.le_max?_getD (List.mem_map_of_mem hx) 0
  have hnext : c.nextNumber = ((c.versions.map Prod.fst).max?).getD 0 + 1 := rfl
  dsimp only
  omega

/-- A new version is needed after the board row: the ranking configuration changed, or the
placements of the file differ from those of the latest version, if there is one. -/
def Needs (c : Contents) (parsed : ParsedBoard) (changed : Bool) : Prop :=
  changed = true ∨ ∀ v, c.latest? = some v → Sync.placementsChanged c.board.boardType
    (v.2.placements.map CreatePlacement.joined) (parsed.entries.map Sync.placementOf) = true

theorem needsVersion_ok {needed : Bool}
    (h : c.needsVersion (parsed.entries.map Sync.placementOf) = .ok needed) :
    needed = true ↔ c.Needs parsed false := by
  rw [needsVersion] at h
  unfold Needs
  rcases hlatest : c.latest? with _ | v
  · rw [hlatest] at h
    simp [(Except.ok.inj h).symm]
  · rw [hlatest] at h
    dsimp only at h
    split at h
    · cases h
    · simp [(Except.ok.inj h).symm]

/-- What a successful sync leaves of a board whose row it has brought to the file, when a new
version is needed and when it is not. -/
structure Brought (parsed : ParsedBoard) (c : Contents) (needs : Prop) (r : BoardSyncResult)
    (c' : Contents) : Prop where
  board : c'.board = c.board
  slugs : c'.slugs = c.slugs ++ (parsed.entries.map EntryToml.slug).filter (· ∉ c.slugs)
  shows : Sync.LinesAgree parsed.entries → ∀ line ∈ parsed.entries, ∃ e ∈ c'.entries, e.Shows line
  moves : ¬Sync.LinesAgree parsed.entries → c'.entries ≠ c.entries
  empty : parsed.entries = [] → r.action = .noChange
  kept : parsed.entries ≠ [] → ¬needs → r.action = .noChange ∧ c'.versions = c.versions ∧
    c'.needsVersion (parsed.entries.map Sync.placementOf) = .ok false
  made : parsed.entries ≠ [] → needs → r.Versioned ∧ (parsed.entries.map EntryToml.slug).Nodup ∧
    ∃ v, c'.latest? = some v ∧ v.2.placements = c'.stored (parsed.entries.map Sync.placementOf)

/-- The version step when a version is created. -/
theorem syncVersion_ok {r : BoardSyncResult} (h : c.syncVersion parsed note = (.ok r, c')) :
    c'.board = c.board ∧ c'.entries = c.entries ∧ r.Versioned ∧
      (parsed.entries.map EntryToml.slug).Nodup ∧
      ∃ v, c'.latest? = some v ∧
        v.2.placements = c'.stored (parsed.entries.map Sync.placementOf) := by
  rw [syncVersion] at h
  split at h
  · cases (Prod.mk.inj h).1
  · rename_i n c₁ hcreate
    obtain ⟨hr, rfl⟩ := Prod.mk.inj h
    obtain ⟨hslugs, -, rfl⟩ := createVersion_ok hcreate
    obtain rfl := Except.ok.inj hr
    have hversioned : BoardSyncResult.Versioned
        ⟨parsed.slug, c.board.name, if n = 1 then .created n else .updated n⟩ := by
      refine ⟨n, ?_⟩
      by_cases hn : n = 1
      · exact .inl (if_pos hn)
      · exact .inr (if_neg hn)
    rw [List.map_map] at hslugs
    exact ⟨rfl, rfl, hversioned, hslugs, _, latest?_concat c _, rfl⟩

/-- **What follows the board row.** -/
theorem afterRow_ok {changed : Bool} {r : BoardSyncResult} (hnodup : c.slugs.Nodup)
    (h : c.afterRow parsed note changed = (.ok r, c')) :
    Brought parsed c (c.Needs parsed changed) r c' := by
  rw [afterRow] at h
  split at h
  · rename_i hempty
    obtain ⟨hr, rfl⟩ := Prod.mk.inj h
    obtain rfl := Except.ok.inj hr
    refine ⟨rfl, ?_, ?_, ?_, fun _ => rfl, fun hne => absurd hempty hne,
      fun hne => absurd hempty hne⟩
    · rw [hempty, List.map_nil, List.filter_nil, List.append_nil]
    · rw [hempty]
      exact fun _ _ hl => absurd hl List.not_mem_nil
    · rw [hempty]
      exact fun hno => absurd (fun _ hl => absurd hl List.not_mem_nil) hno
  -- The file has entries: their rows come first, and then a version, if one is needed.
  rename_i hlines
  rcases hrun : syncLines c.entries parsed.entries c with ⟨e | ⟨⟩, c₁⟩
  · rw [hrun] at h
    cases (Prod.mk.inj h).1
  rw [hrun] at h
  dsimp only at h
  obtain ⟨hboard, hversions⟩ := syncLines_rest hrun
  have hslugs := syncLines_slugs hrun
  have hshows := fun hagree => syncLines_shows hnodup hagree hrun
  have hmoves := fun hno => syncLines_ne hnodup (exists_unshown hnodup hno) hrun
  -- The rows of the entries have no part in what needs a version.
  have hneeds : c₁.Needs parsed changed ↔ c.Needs parsed changed := by
    unfold Needs latest?
    rw [hboard, hversions]
  have hmade : c.Needs parsed changed → c₁.syncVersion parsed note = (.ok r, c') →
      Brought parsed c (c.Needs parsed changed) r c' := by
    intro hneeded hcreate
    obtain ⟨hboard', hentries, hversioned, hnodup', hlatest⟩ := syncVersion_ok hcreate
    refine ⟨hboard'.trans hboard, ?_, ?_, ?_, fun hempty => absurd hempty hlines,
      fun _ hno => absurd hneeded hno, fun _ _ => ⟨hversioned, hnodup', hlatest⟩⟩
    · rw [Contents.slugs, hentries]
      exact hslugs
    · rw [hentries]
      exact hshows
    · rw [hentries]
      exact hmoves
  rw [versionStep] at h
  cases changed with
  | true => exact hmade (.inl rfl) h
  | false =>
    rw [if_neg Bool.false_ne_true] at h
    rcases hneeded : c₁.needsVersion (parsed.entries.map Sync.placementOf) with e | needed
    · rw [hneeded] at h
      cases (Prod.mk.inj h).1
    · have hiff := (needsVersion_ok hneeded).trans hneeds
      rw [hneeded] at h
      cases needed with
      | true => exact hmade (hiff.mp rfl) h
      | false =>
        obtain ⟨hr, rfl⟩ := Prod.mk.inj h
        obtain rfl := Except.ok.inj hr
        exact ⟨hboard, hslugs, hshows, hmoves, fun _ => rfl, fun _ _ => ⟨rfl, hversions, hneeded⟩,
          fun _ hyes => absurd (hiff.mpr hyes) Bool.false_ne_true⟩

/-! ### The whole sync -/

/-- The type that the board of a file has after a sync: a board that is there keeps its type. -/
def typeFor (c? : Option Contents) (parsed : ParsedBoard) : String :=
  (c?.map fun c => c.board.boardType).getD parsed.board.boardType

/-- The slugs of the entries after a sync, in the order in which the entries were created. -/
def slugsFor (c? : Option Contents) (parsed : ParsedBoard) : List String :=
  let known := (c?.map slugs).getD []
  known ++ (parsed.entries.map EntryToml.slug).filter (· ∉ known)

/-- A sync of the file has to make a version: there is no board, or the ranking configuration of
the row differs from the file, or the placements of the file differ from those of the latest
version, if there is one. -/
def MakesVersion (c? : Option Contents) (parsed : ParsedBoard) : Prop :=
  ∀ c, c? = some c → c.Needs parsed (Sync.rankingConfigChanged c.row parsed)

/-- **What a successful sync leaves**, when `c?` is what the board held before. -/
structure Synced (parsed : ParsedBoard) (c? : Option Contents) (r : BoardSyncResult)
    (c' : Contents) : Prop where
  row : ¬Sync.rowDiffers c'.row parsed
  boardType : c'.board.boardType = typeFor c? parsed
  slugs : c'.slugs = slugsFor c? parsed
  shows : Sync.LinesAgree parsed.entries → ∀ line ∈ parsed.entries, ∃ e ∈ c'.entries, e.Shows line
  moves : ∀ c, c? = some c → ¬Sync.LinesAgree parsed.entries → c'.entries ≠ c.entries
  empty : parsed.entries = [] → r.action = .noChange
  kept : parsed.entries ≠ [] → ¬MakesVersion c? parsed → r.action = .noChange ∧
    c'.needsVersion (parsed.entries.map Sync.placementOf) = .ok false ∧
      ∃ c, c? = some c ∧ c'.versions = c.versions
  made : parsed.entries ≠ [] → MakesVersion c? parsed →
    r.Versioned ∧ (parsed.entries.map EntryToml.slug).Nodup ∧
      ∃ v, c'.latest? = some v ∧ v.2.placements = c'.stored (parsed.entries.map Sync.placementOf)

/-- The PATCH of a sync brings the row to the file. -/
theorem rowDiffers_patched (c : Contents) (parsed : ParsedBoard) :
    ¬Sync.rowDiffers ({ c with board := c.board.patched (Sync.boardPatch c.row parsed) } :
      Contents).row parsed := by
  have hname := Sync.patchText_getD c.board.name parsed.board.name c.board.name
  have hdirection := Sync.patchText_getD c.board.sortDirection parsed.board.sortDirection
    c.board.sortDirection
  have htiers := Sync.patchField_apply c.board.tierConfig (Sync.tierConfig parsed)
    c.board.tierConfig
  have hmetadata := Sync.patchField_apply c.board.metadata
    (parsed.board.metadata.map tomlToJson) c.board.metadata
  have hfields : ({ c with board := c.board.patched (Sync.boardPatch c.row parsed) } :
      Contents).row = { c.row with
        name := (Sync.patchText c.board.name parsed.board.name).getD c.board.name
        sortDirection := (Sync.patchText c.board.sortDirection
          parsed.board.sortDirection).getD c.board.sortDirection
        tierConfig := (Sync.patchField c.board.tierConfig (Sync.tierConfig parsed)).apply
          c.board.tierConfig
        metadata := (Sync.patchField c.board.metadata
          (parsed.board.metadata.map tomlToJson)).apply c.board.metadata } := rfl
  rw [hfields, hname, hdirection, htiers, hmetadata]
  unfold Sync.rowDiffers
  grind

/-- **A successful sync.** -/
theorem sync_ok {r : BoardSyncResult} {c₁? : Option Contents}
    (hfile : parsed.board.accumulative = false) (hnodup : ∀ c, c? = some c → c.slugs.Nodup)
    (h : sync parsed note c? = (.ok r, c₁?)) : ∃ c', c₁? = some c' ∧ Synced parsed c? r c' := by
  rcases c? with _ | c
  · rw [sync_none hfile, syncNew] at h
    split at h
    · cases (Prod.mk.inj h).1
    obtain ⟨hr, rfl⟩ := Prod.mk.inj h
    have hbrought := afterRow_ok (c := { board := Sync.boardOf parsed }) List.nodup_nil
      (Prod.ext hr rfl)
    have hneeds : ({ board := Sync.boardOf parsed } : Contents).Needs parsed false :=
      .inr fun v hv => by cases hv
    have hmakes : MakesVersion none parsed := fun c hc => by cases hc
    refine ⟨_, rfl, ?_, ?_, hbrought.slugs, hbrought.shows, (fun c hc => by cases hc),
      hbrought.empty, fun _ hno => absurd hmakes hno, fun hne _ => hbrought.made hne hneeds⟩
    · rw [row, hbrought.board]
      simp [Sync.rowDiffers, CreateBoard.row, Sync.boardOf]
    · rw [hbrought.board]
      rfl
  · -- The row is patched or left alone; the entries and the versions stay.
    have hfinish : ∀ c₀ c' : Contents, c₀.entries = c.entries → c₀.versions = c.versions →
        c₀.board.boardType = c.board.boardType → ¬Sync.rowDiffers c₀.row parsed →
        c₀.afterRow parsed note (Sync.rankingConfigChanged c.row parsed) = (.ok r, c') →
        Synced parsed (some c) r c' := by
      intro c₀ c' hentries hversions htype hrow hafter
      have hslugs : c₀.slugs = c.slugs := congrArg (List.map CreateEntry.slug) hentries
      have hbrought := afterRow_ok (hslugs ▸ hnodup c rfl) hafter
      have hneeds : c₀.Needs parsed (Sync.rankingConfigChanged c.row parsed) ↔
          MakesVersion (some c) parsed := by
        unfold MakesVersion Needs latest?
        rw [hversions, htype]
        exact ⟨fun hn x hx => Option.some.inj hx ▸ hn, fun hm => hm c rfl⟩
      refine ⟨?_, ?_, ?_, hbrought.shows, fun x hx => ?_, hbrought.empty, fun hne hno => ?_,
        fun hne hm => hbrought.made hne (hneeds.mpr hm)⟩
      · rw [row, hbrought.board]
        exact hrow
      · rw [hbrought.board]
        exact htype
      · rw [hbrought.slugs, hslugs]
        rfl
      · rw [← Option.some.inj hx, ← hentries]
        exact hbrought.moves
      · obtain ⟨haction, hsame, hneeded⟩ := hbrought.kept hne fun hn => hno (hneeds.mp hn)
        exact ⟨haction, hneeded, c, rfl, hsame.trans hversions⟩
    rw [sync_some hfile, syncKnown] at h
    obtain ⟨hr, rfl⟩ := Prod.mk.inj h
    refine ⟨_, rfl, ?_⟩
    split at hr
    · rename_i hdiffers
      rw [if_pos hdiffers]
      split at hr
      · cases hr
      · exact hfinish { c with board := c.board.patched (Sync.boardPatch c.row parsed) } _ rfl rfl
          rfl (rowDiffers_patched c parsed) (Prod.ext hr rfl)
    · rename_i hdiffers
      rw [if_neg hdiffers]
      exact hfinish c _ rfl rfl rfl hdiffers (Prod.ext hr rfl)

end Contents

end Leaderboards
