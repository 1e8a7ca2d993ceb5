import Leaderboards.Repo.Validation
import Leaderboards.Repo.Versions
import Mathlib.Data.Nat.Digits.Lemmas

/-!
# `repo/realtime.rs`

The live scores of a realtime board are in Redis, under two keys:

* `{prefix}:board:{slug}:scores`, a sorted set of entry slugs by score;
* `{prefix}:board:{slug}:entries`, a hash from entry slugs to entry names.

A snapshot of a `clear_on_snapshot` board first renames both to fresh `:snap:` keys.
-/

namespace Leaderboards

open Interaction

namespace Realtime

/-- `scores_key`. -/
def scoresKey (keyPrefix slug : String) : String := s!"{keyPrefix}:board:{slug}:scores"

/-- `entries_key`. -/
def entriesKey (keyPrefix slug : String) : String := s!"{keyPrefix}:board:{slug}:entries"

/-- The 32 hexadecimal digits of a UUID. -/
def hexDigits (id : Uuid) : List Char :=
  ((Nat.digits 16 id).rightpad 32 0).reverse.map Nat.digitChar

/-- How a UUID is displayed: in groups of 8, 4, 4, 4 and 12 digits. -/
def uuidText (id : Uuid) : String :=
  let digits := hexDigits id
  String.ofList (digits.take 8 ++
    '-' :: ((digits.drop 8).take 4 ++ '-' :: ((digits.drop 12).take 4 ++
    '-' :: ((digits.drop 16).take 4 ++ '-' :: digits.drop 20))))

/-- The key that a snapshot renames a working key to. -/
def snapKey (key : String) (snapId : Uuid) : String := s!"{key}:snap:{uuidText snapId}"

theorem digit_lt {id : Uuid} {n : ℕ} (h : n ∈ ((Nat.digits 16 id).rightpad 32 0).reverse) :
    n < 16 := by
  rw [List.mem_reverse, List.rightpad, List.mem_append, List.mem_replicate] at h
  rcases h with h | ⟨-, rfl⟩
  · exact Nat.digits_lt_base (by decide) h
  · decide

theorem exists_digit_of_mem {id : Uuid} {c : Char} (h : c ∈ hexDigits id) :
    ∃ n < 16, c = Nat.digitChar n := by
  obtain ⟨n, hn, rfl⟩ := List.mem_map.mp h
  exact ⟨n, digit_lt hn, rfl⟩

/-- The groups of a text, put together again. -/
theorem groups_append {α : Type} (l : List α) : l.take 8 ++ ((l.drop 8).take 4 ++
    ((l.drop 12).take 4 ++ ((l.drop 16).take 4 ++ l.drop 20))) = l := by
  have hdrop : ∀ n, (l.drop n).take 4 ++ l.drop (n + 4) = l.drop n := fun n => by
    rw [← List.drop_drop, List.take_append_drop]
  rw [hdrop 16, hdrop 12, hdrop 8, List.take_append_drop]

/-- The digits are what is left of the text without its hyphens. -/
theorem filter_uuidText (id : Uuid) :
    (uuidText id).toList.filter (fun c => c ≠ '-') = hexDigits id := by
  have hfilter : ∀ l : List Char, (∀ c ∈ l, c ∈ hexDigits id) →
      l.filter (fun c => c ≠ '-') = l := by
    intro l hl
    refine List.filter_eq_self.mpr fun c hc => ?_
    obtain ⟨n, hn, rfl⟩ := exists_digit_of_mem (hl c hc)
    have hdigit : ∀ n < 16, Nat.digitChar n ≠ '-' := by decide
    exact decide_eq_true (hdigit n hn)
  have hdrop : ∀ n, ∀ c ∈ (hexDigits id).drop n, c ∈ hexDigits id :=
    fun n c hc => List.mem_of_mem_drop hc
  have htake : ∀ l : List Char, (∀ c ∈ l, c ∈ hexDigits id) → ∀ n, ∀ c ∈ l.take n,
      c ∈ hexDigits id := fun l hl n c hc => hl c (List.mem_of_mem_take hc)
  have hhyphen : ∀ l : List Char, ('-' :: l).filter (fun c => c ≠ '-') =
      l.filter fun c => c ≠ '-' := fun l => List.filter_cons_of_neg (by decide)
  rw [uuidText, String.toList_ofList]
  simp only [List.filter_append, hhyphen]
  rw [hfilter _ (htake _ (fun _ hc => hc) 8), hfilter _ (htake _ (hdrop 8) 4),
    hfilter _ (htake _ (hdrop 12) 4), hfilter _ (htake _ (hdrop 16) 4), hfilter _ (hdrop 20),
    groups_append]

/-- Digits below 16 have different letters. -/
theorem map_digitChar_inj {l l' : List ℕ} (hl : ∀ n ∈ l, n < 16) (hl' : ∀ n ∈ l', n < 16)
    (h : l.map Nat.digitChar = l'.map Nat.digitChar) : l = l' := by
  have hletter : ∀ m < 16, ∀ n < 16, Nat.digitChar m = Nat.digitChar n → m = n := by decide
  induction l generalizing l' with
  | nil =>
    rw [List.map_nil, eq_comm, List.map_eq_nil_iff] at h
    exact h.symm
  | cons n l ih =>
    cases l' with
    | nil => cases h
    | cons n' l' =>
      obtain ⟨hn, htail⟩ := List.cons.inj h
      rw [hletter n (hl n List.mem_cons_self) n' (hl' n' List.mem_cons_self) hn,
        ih (fun m hm => hl m (List.mem_cons_of_mem n hm))
          (fun m hm => hl' m (List.mem_cons_of_mem n' hm)) htail]

/-- The text of a UUID tells which it is. -/
theorem uuidText_injective {id id' : Uuid} (h : uuidText id = uuidText id') : id = id' := by
  have hdigits : hexDigits id = hexDigits id' := by
    rw [← filter_uuidText, ← filter_uuidText, h]
  have hpadded := List.reverse_injective
    (map_digitChar_inj (fun _ => digit_lt) (fun _ => digit_lt) hdigits)
  have hvalue : ∀ id : Uuid, Nat.ofDigits 16 ((Nat.digits 16 id).rightpad 32 0) = id := by
    intro id
    rw [List.rightpad, Nat.ofDigits_append_replicate_zero, Nat.ofDigits_digits]
  rw [← hvalue id, ← hvalue id', hpadded]

/-- The text of a UUID ends with a digit. -/
theorem getLast_uuidText (id : Uuid) : ∃ n < 16, (uuidText id).toList.getLast? =
    some (Nat.digitChar n) := by
  have hlength : 20 < (hexDigits id).length := by
    rw [hexDigits, List.length_map, List.length_reverse, List.length_rightpad]
    omega
  have hne : (hexDigits id).drop 20 ≠ [] := by
    rw [Ne, List.drop_eq_nil_iff]
    omega
  obtain ⟨n, hn, hlast⟩ := exists_digit_of_mem (List.mem_of_mem_drop (List.getLast_mem hne))
  refine ⟨n, hn, ?_⟩
  have hsplit : (uuidText id).toList =
      ((hexDigits id).take 8 ++ '-' :: (((hexDigits id).drop 8).take 4 ++ '-' ::
        (((hexDigits id).drop 12).take 4 ++ '-' :: (((hexDigits id).drop 16).take 4 ++
        ['-'])))) ++ (hexDigits id).drop 20 := by
    rw [uuidText, String.toList_ofList]
    simp only [List.append_assoc, List.cons_append, List.nil_append]
  rw [hsplit, List.getLast?_append_of_ne_nil _ hne, List.getLast?_eq_some_getLast hne, hlast]

theorem scoresKey_injective {keyPrefix slug slug' : String}
    (h : scoresKey keyPrefix slug = scoresKey keyPrefix slug') : slug = slug' := by
  have hlist := congrArg String.toList h
  simp only [scoresKey, toString, String.toList_append, List.append_assoc,
    List.append_cancel_left_eq, List.append_cancel_right_eq] at hlist
  exact String.toList_injective hlist

/-- The third letter from the end tells the two kinds of keys apart. -/
theorem entriesKey_ne_scoresKey (keyPrefix slug keyPrefix' slug' : String) :
    entriesKey keyPrefix slug ≠ scoresKey keyPrefix' slug' := by
  intro h
  have hlist := congrArg (fun t : String => t.toList.reverse[2]?) h
  simp [entriesKey, scoresKey, toString] at hlist

/-- The key of a snapshot ends with a digit. -/
private theorem snapKey_ne {key key' : String} (snapId : Uuid) (init : String)
    (h : key'.toList = init.toList ++ ['s']) : snapKey key snapId ≠ key' := by
  rintro rfl
  have htext : (snapKey key snapId).toList =
      (key ++ ":snap:").toList ++ (uuidText snapId).toList := by
    rw [← String.toList_append]
    rfl
  obtain ⟨n, hn, hdigit⟩ := getLast_uuidText snapId
  have hlast := congrArg List.getLast? (htext.symm.trans h)
  rw [List.getLast?_append, hdigit, List.getLast?_concat, Option.some_or] at hlast
  have hletter : ∀ n < 16, Nat.digitChar n ≠ 's' := by decide
  exact hletter n hn (Option.some.inj hlast)

theorem snapKey_ne_scoresKey (key : String) (snapId : Uuid) (keyPrefix slug : String) :
    snapKey key snapId ≠ scoresKey keyPrefix slug := by
  refine snapKey_ne snapId (keyPrefix ++ ":board:" ++ slug ++ ":score") ?_
  simp [scoresKey, toString]

theorem snapKey_ne_entriesKey (key : String) (snapId : Uuid) (keyPrefix slug : String) :
    snapKey key snapId ≠ entriesKey keyPrefix slug := by
  refine snapKey_ne snapId (keyPrefix ++ ":board:" ++ slug ++ ":entrie") ?_
  simp [entriesKey, toString]

/-- Two texts that are equal are equal up to the first colon and after it. -/
theorem append_colon_inj {l l' m m' : List Char} (hl : ':' ∉ l) (hl' : ':' ∉ l')
    (h : l ++ ':' :: m = l' ++ ':' :: m') : l = l' ∧ m = m' := by
  have htake : ∀ l m : List Char, ':' ∉ l → (l ++ ':' :: m).takeWhile (fun c => c ≠ ':') = l := by
    intro l m hl
    have hall : ∀ c ∈ l, decide (c ≠ ':') = true :=
      fun c hc => decide_eq_true fun hcolon => hl (hcolon ▸ hc)
    rw [List.takeWhile_append_of_pos hall, List.takeWhile_cons_of_neg (by decide), List.append_nil]
  have hhead : l = l' := by rw [← htake l m hl, h, htake l' m' hl']
  subst hhead
  exact ⟨rfl, (List.cons.inj (List.append_cancel_left h)).2⟩

theorem colon_not_mem_uuidText (id : Uuid) : ':' ∉ (uuidText id).toList := by
  intro hmem
  have hdigit : ':' ∈ hexDigits id := by
    rw [← filter_uuidText]
    exact List.mem_filter.mpr ⟨hmem, by decide⟩
  obtain ⟨n, hn, hcolon⟩ := exists_digit_of_mem hdigit
  have hletter : ∀ n < 16, ':' ≠ Nat.digitChar n := by decide
  exact hletter n hn hcolon

/-- A key of a snapshot tells the working key. -/
theorem snapKey_key {key key' : String} {snapId snapId' : Uuid}
    (h : snapKey key snapId = snapKey key' snapId') : key = key' := by
  -- Read from the end, the text of the UUID is what comes before the first colon.
  have htext : ∀ key snapId, (snapKey key snapId).toList.reverse =
      (uuidText snapId).toList.reverse ++ ':' :: ("pans:".toList ++ key.toList.reverse) := by
    intro key snapId
    simp [snapKey, toString]
  have hlist := congrArg (fun t : String => t.toList.reverse) h
  simp only [htext] at hlist
  obtain ⟨-, hrest⟩ := append_colon_inj (by simpa using colon_not_mem_uuidText snapId)
    (by simpa using colon_not_mem_uuidText snapId') hlist
  exact String.toList_injective (List.reverse_injective (List.append_cancel_left hrest))

/-- `realtime::submit`. -/
def submit (board : Board) (input : SubmitScore) (keyPrefix : String) : Action Unit := do
  Prog.failIf (¬board.realtime = true)
    (.validation "realtime submit called on non-realtime board")
  Prog.failIf (input.score.isNan || input.score.isInfinite)
    (.validation "score must be a finite number")
  Prog.ofExcept (validateSlug input.entrySlug)
  Prog.ofExcept (validateName input.entryName)
  -- The entry row has to exist when a snapshot looks for it.
  let _ ← Action.sql (.upsertEntry board.id input.entrySlug input.entryName)
  Action.redis (.pipe [.zadd (scoresKey keyPrefix board.slug) input.entrySlug input.score,
    .hset (entriesKey keyPrefix board.slug) input.entrySlug input.entryName]) "Redis error"

/-- One line of the live standings. -/
def standing (x : ((String × F64) × Option String) × ℕ) : PlacementWithEntry where
  id := 0
  versionId := 0
  entryId := 0
  position := some ((x.2 : ℤ) + 1)
  score := some x.1.1.2
  tier := none
  metadata := none
  entrySlug := x.1.1.1
  entryName := x.1.2.getD x.1.1.1

/-- `realtime::latest`. The synthetic version has number `0`, and its time is of no use. -/
def latest (board : Board) (keyPrefix : String) : Action VersionWithPlacements := do
  let sk := scoresKey keyPrefix board.slug
  let ek := entriesKey keyPrefix board.slug
  let entriesWithScores ←
    if board.sortDirection = "asc" then Action.redis (.zrange sk) "Redis error"
    else Action.redis (.zrevrange sk) "Redis error"
  let entryNames ←
    if entriesWithScores = [] then pure []
    else Action.redis (.hget ek (entriesWithScores.map Prod.fst)) "Redis error"
  return { version := { id := 0, boardId := board.id, versionNumber := 0, note := none
                        metadata := none, createdAt := 0 }
           placements := (entriesWithScores.zip entryNames).zipIdx.map standing }

/-- `delete_snap_keys`: the outcome is ignored. -/
def deleteSnapKeys : Option (String × String) → Action Unit
  | none => .ret ()
  | some (skSnap, ekSnap) => Action.redisIgnored (.pipe [.del skSnap, .del ekSnap])

/-- The renaming at the head of `realtime::snapshot`: the key to read the scores from, and the
temporary keys to delete afterwards. -/
def isolate (board : Board) (keyPrefix : String) :
    Action (String × Option (String × String)) := do
  let sk := scoresKey keyPrefix board.slug
  let ek := entriesKey keyPrefix board.slug
  if board.clearOnSnapshot = true then
    let snapId ← Action.newUuid
    let skSnap := snapKey sk snapId
    let ekSnap := snapKey ek snapId
    -- `RENAME` fails if the source key does not exist.
    let scoresExist ← Action.redis (.existsKey sk) "Redis error"
    Prog.failIf (¬scoresExist = true) (.validation "no scores in Redis to snapshot")
    let ekExists ← Action.redis (.existsKey ek) "Redis error"
    if ekExists = true then
      Action.redis (.pipe [.rename sk skSnap, .rename ek ekSnap]) "Redis RENAME error"
    else Action.redis (.rename sk skSnap) "Redis RENAME error"
    return (skSnap, some (skSnap, ekSnap))
  else return (sk, none)

/-- What the head of a snapshot returns: the working key, or fresh keys of one snapshot. -/
theorem isolate_returns {board : Board} {keyPrefix : String}
    {x : String × Option (String × String)} (h : (isolate board keyPrefix).Returns x) :
    x = (scoresKey keyPrefix board.slug, none) ∨
      ∃ snapId, x = (snapKey (scoresKey keyPrefix board.slug) snapId,
        some (snapKey (scoresKey keyPrefix board.slug) snapId,
          snapKey (entriesKey keyPrefix board.slug) snapId)) := by
  unfold isolate at h
  dsimp only at h
  split at h
  · obtain ⟨snapId, -, h⟩ := Prog.returns_bind.mp h
    obtain ⟨scoresExist, -, h⟩ := Prog.returns_bind.mp h
    obtain ⟨_, -, h⟩ := Prog.returns_bind.mp h
    obtain ⟨ekExists, -, h⟩ := Prog.returns_bind.mp h
    refine .inr ⟨snapId, ?_⟩
    split at h
    · obtain ⟨_, -, h⟩ := Prog.returns_bind.mp h
      exact h.symm
    · obtain ⟨_, -, h⟩ := Prog.returns_bind.mp h
      exact h.symm
  · exact .inl (Eq.symm h)

/-- Stop after deleting the temporary keys when the condition holds. -/
def abortIf (c : Prop) [Decidable c] (snapKeys : Option (String × String)) (e : Error) :
    Action Unit :=
  if c then do
    deleteSnapKeys snapKeys
    .fail e
  else .ret ()

/-- The limit on the number of versions, checked under the board lock. -/
def checkVersionLimit (boardId : Uuid) (snapKeys : Option (String × String)) :
    Option ℤ → Action Unit
  | none => .ret ()
  | some max => do
    let versionCount ← Action.sql (.countVersions boardId)
    abortIf (max ≤ (versionCount : ℤ)) snapKeys
      (.validation s!"board has too many versions ({versionCount}, max {max})")

/-- The limit on the number of entries. -/
def checkEntryLimit (count : ℕ) (snapKeys : Option (String × String)) : Option ℕ → Action Unit
  | none => .ret ()
  | some max => abortIf (max < count) snapKeys
      (.validation s!"too many entries to snapshot ({count}, max {max})")

/-- Insert one live score as a placement; the position comes later. -/
def insertScore (version : Version) (entries : List (Uuid × String × String))
    (x : String × F64) : Action Unit :=
  match entries.find? fun e => e.2.1 = x.1 with
  | none => .fail (.internal s!"entry '{x.1}' exists in Redis but not in Postgres")
  | some (entryId, _) => do
    let _ ← Action.sql (.insertPlacement version.id entryId none (some x.2) none none)

/-- The part of `realtime::snapshot` inside the transaction. -/
def snapshotBody (boardId : Uuid) (readSk : String) (snapKeys : Option (String × String))
    (note : Option String) (metadata : Option Json) (maxVersions : Option ℤ)
    (maxEntries : Option ℕ) : Action VersionWithPlacements := do
  -- The lock serializes concurrent snapshots.
  let board ← Action.sql (.selectBoardForUpdate boardId)
  checkVersionLimit board.id snapKeys maxVersions
  let entriesWithScores ← Action.redis (.zrevrange readSk) "Redis error"
  abortIf (entriesWithScores = []) snapKeys (.validation "no scores in Redis to snapshot")
  checkEntryLimit entriesWithScores.length snapKeys maxEntries
  let nextNumber ← Action.sql (.nextVersionNumber board.id)
  let version ← Action.sql (.insertVersion board.id nextNumber note metadata)
  let entries ← Action.sql (.selectEntriesBySlug board.id (entriesWithScores.map Prod.fst))
  Prog.each entriesWithScores (insertScore version entries)
  Versions.deriveScoredPositions version.id board.sortDirection
  let placements ← Action.sql (.selectSnapshotPlacements version.id)
  return ⟨version, placements⟩

/-- `realtime::snapshot`. -/
def snapshot (board : Board) (note : Option String) (metadata : Option Json)
    (keyPrefix : String) (maxVersions : Option ℤ) (maxEntries : Option ℕ) :
    Action VersionWithPlacements := do
  let (readSk, snapKeys) ← isolate board keyPrefix
  let result ← Action.transaction
    (snapshotBody board.id readSk snapKeys note metadata maxVersions maxEntries)
  deleteSnapKeys snapKeys
  return result

/-- `realtime::clear`. -/
def clear (boardSlug keyPrefix : String) : Action Unit :=
  Action.redis (.pipe [.del (scoresKey keyPrefix boardSlug), .del (entriesKey keyPrefix boardSlug)])
    "Redis error"

end Realtime

end Leaderboards
