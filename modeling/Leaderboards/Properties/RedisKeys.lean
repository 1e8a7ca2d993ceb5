import Leaderboards.Transactions.SnapshotCommands

/-!
# The Redis keys of different boards

All keys of a board are built from a prefix, its slug, the kind of the key and, for the temporary
keys of a snapshot, a UUID. A slug has no colon, so a key tells which board it belongs to
(`boardKey_inj`), and no operation on one board touches the keys of another (`boards_apart`).
-/

namespace Leaderboards

open Interaction Realtime

/-- The two kinds of keys of a board. -/
inductive KeyKind
  | scores
  | entries
deriving DecidableEq

/-- A key of a board: a working key, or what a snapshot renames the working key to. -/
def boardKey (keyPrefix slug : String) : KeyKind → Option Uuid → String
  | .scores, none => scoresKey keyPrefix slug
  | .entries, none => entriesKey keyPrefix slug
  | .scores, some snapId => snapKey (scoresKey keyPrefix slug) snapId
  | .entries, some snapId => snapKey (entriesKey keyPrefix slug) snapId

/-- The key belongs to the board with this slug. -/
def BelongsTo (keyPrefix slug key : String) : Prop :=
  ∃ kind snap, key = boardKey keyPrefix slug kind snap

/-- A command that neither names a key of the board nor depends on what is under one; it leaves
these keys as they are. -/
def Cmd.Spares (keyPrefix slug : String) : Cmd → Prop
  | .redis c => (∀ key ∈ c.keys, ¬BelongsTo keyPrefix slug key) ∧
      c.Confined fun key => ¬BelongsTo keyPrefix slug key
  | _ => True

/-! ### The parts of a key -/

/-- The end of a key that tells its kind. -/
def KeyKind.text : KeyKind → String
  | .scores => "scores"
  | .entries => "entries"

/-- The end of a key that tells its snapshot. -/
def snapText : Option Uuid → List Char
  | none => []
  | some snapId => ":snap:".toList ++ (uuidText snapId).toList

theorem toList_boardKey (keyPrefix slug : String) (kind : KeyKind) (snap : Option Uuid) :
    (boardKey keyPrefix slug kind snap).toList = (keyPrefix ++ ":board:").toList ++
      (slug.toList ++ ':' :: (kind.text.toList ++ snapText snap)) := by
  cases kind <;> cases snap <;>
    simp [boardKey, scoresKey, entriesKey, snapKey, KeyKind.text, snapText, toString]

theorem colon_not_mem {slug : String} (h : validateSlug slug = .ok ()) : ':' ∉ slug.toList := by
  intro hmem
  unfold validateSlug at h
  split at h
  · cases h
  · split at h
    · cases h
    · rename_i hall
      rw [not_not] at hall
      have hcolon : isSlugChar ':' = true := List.all_eq_true.mp hall ':' hmem
      exact absurd hcolon (by decide)

theorem kind_inj {kind kind' : KeyKind} {l l' : List Char}
    (h : kind.text.toList ++ l = kind'.text.toList ++ l') : kind = kind' ∧ l = l' := by
  -- The first letter tells the kind.
  have hhead : kind = kind' := by
    have hletter := congrArg List.head? h
    cases kind <;> cases kind' <;> first | rfl | simp [KeyKind.text] at hletter
  subst hhead
  exact ⟨rfl, List.append_cancel_left h⟩

theorem snapText_inj {snap snap' : Option Uuid} (h : snapText snap = snapText snap') :
    snap = snap' := by
  cases snap with
  | none =>
    cases snap' with
    | none => rfl
    | some snapId => simp [snapText] at h
  | some snapId =>
    cases snap' with
    | none => simp [snapText] at h
    | some snapId' =>
      have htext := String.toList_injective (List.append_cancel_left h)
      rw [uuidText_injective htext]

/-- **A key tells the board, the kind and the snapshot.** -/
theorem boardKey_inj {keyPrefix slug slug' : String} (hslug : validateSlug slug = .ok ())
    (hslug' : validateSlug slug' = .ok ()) {kind kind' : KeyKind} {snap snap' : Option Uuid}
    (h : boardKey keyPrefix slug kind snap = boardKey keyPrefix slug' kind' snap') :
    slug = slug' ∧ kind = kind' ∧ snap = snap' := by
  have hlist := congrArg String.toList h
  rw [toList_boardKey, toList_boardKey] at hlist
  -- The slug ends at the first colon after the prefix.
  obtain ⟨htext, hrest⟩ := append_colon_inj (colon_not_mem hslug) (colon_not_mem hslug')
    (List.append_cancel_left hlist)
  obtain ⟨hkind, hsnap⟩ := kind_inj hrest
  exact ⟨String.toList_injective htext, hkind, snapText_inj hsnap⟩

/-! ### The commands of a board -/

section Board

variable {keyPrefix slug other : String}

/-- A key of a board is not one of another board. -/
theorem not_belongsTo (hslug : validateSlug slug = .ok ()) (hother : validateSlug other = .ok ())
    (hne : other ≠ slug) {key : String} (h : BelongsTo keyPrefix slug key) :
    ¬BelongsTo keyPrefix other key := by
  rintro ⟨kind', snap', hkey'⟩
  obtain ⟨kind, snap, hkey⟩ := h
  exact hne (boardKey_inj hother hslug (hkey'.symm.trans hkey)).1

/-- A command that only names keys of the board, if it is one of Redis. -/
def Cmd.OnBoard (keyPrefix slug : String) : Cmd → Prop
  | .redis c => ∀ key ∈ c.keys, BelongsTo keyPrefix slug key
  | _ => True

/-- A command on the keys of one board spares the others. -/
theorem Cmd.OnBoard.spares (hslug : validateSlug slug = .ok ())
    (hother : validateSlug other = .ok ()) (hne : other ≠ slug) {c : Cmd}
    (h : c.OnBoard keyPrefix slug) : c.Spares keyPrefix other := by
  cases c with
  | redis c =>
    have hkeys : ∀ key ∈ c.keys, ¬BelongsTo keyPrefix other key :=
      fun key hkey => not_belongsTo hslug hother hne (h key hkey)
    exact ⟨hkeys, RedisCmd.confined hkeys⟩
  | _ => trivial

theorem belongsTo_scoresKey : BelongsTo keyPrefix slug (scoresKey keyPrefix slug) :=
  ⟨.scores, none, rfl⟩

theorem belongsTo_entriesKey : BelongsTo keyPrefix slug (entriesKey keyPrefix slug) :=
  ⟨.entries, none, rfl⟩

/-- A program of one board only: its commands name no other keys. -/
abbrev Action.OnBoard {α : Type} (keyPrefix slug : String) (p : Action α) : Prop :=
  p.Uses (Cmd.OnBoard keyPrefix slug)

variable {α β : Type}

theorem onBoard_read {c : RedisCmd} {context : String} {key : String} (hkeys : c.keys = [key])
    (hkey : BelongsTo keyPrefix slug key) :
    (Action.redis c context).OnBoard keyPrefix slug := by
  refine uses_redis fun k hk => ?_
  rw [hkeys, List.mem_singleton] at hk
  rwa [hk]

theorem onBoard_pair {c : RedisCmd} {key key' : String} (hkeys : c.keys = [key, key'])
    (hkey : BelongsTo keyPrefix slug key) (hkey' : BelongsTo keyPrefix slug key') :
    Cmd.OnBoard keyPrefix slug (.redis c) := by
  intro k hk
  rw [hkeys, List.mem_cons, List.mem_singleton] at hk
  rcases hk with rfl | rfl
  · exact hkey
  · exact hkey'

theorem onBoard_then {q : Query} {f : q.Row → Action β}
    (hf : ∀ row, (f row).OnBoard keyPrefix slug) :
    (Action.sql q >>= f).OnBoard keyPrefix slug :=
  Prog.uses_bind (uses_sql trivial) hf

end Board

section Operations

variable {keyPrefix : String}

theorem onBoard_submit (board : Board) (input : SubmitScore) :
    (Realtime.submit board input keyPrefix).OnBoard keyPrefix board.slug :=
  uses_guard <| uses_guard <| uses_check fun _ => uses_check fun _ => onBoard_then fun _ =>
    uses_redis (onBoard_pair rfl belongsTo_scoresKey belongsTo_entriesKey)

theorem onBoard_latest (board : Board) :
    (Realtime.latest board keyPrefix).OnBoard keyPrefix board.slug := by
  have hnames : ∀ (members : List (String × F64))
      (f : List (Option String) → Action VersionWithPlacements),
      (∀ names, (f names).OnBoard keyPrefix board.slug) →
      (if members = [] then pure [] >>= f
        else Action.redis (.hget (entriesKey keyPrefix board.slug) (members.map Prod.fst))
          "Redis error" >>= f).OnBoard keyPrefix board.slug := by
    intro members f hf
    split
    · exact hf []
    · exact Prog.uses_bind (onBoard_read rfl belongsTo_entriesKey) hf
  unfold Realtime.latest
  dsimp only
  split
  · exact Prog.uses_bind (onBoard_read rfl belongsTo_scoresKey)
      fun _ => hnames _ _ fun _ => trivial
  · exact Prog.uses_bind (onBoard_read rfl belongsTo_scoresKey)
      fun _ => hnames _ _ fun _ => trivial

theorem onBoard_clear (slug : String) :
    (Realtime.clear slug keyPrefix).OnBoard keyPrefix slug :=
  uses_redis (onBoard_pair rfl belongsTo_scoresKey belongsTo_entriesKey)

/-! ### The snapshot -/

theorem belongsTo_snapKeys (keyPrefix slug : String) (snapId : Uuid) :
    BelongsTo keyPrefix slug (snapKey (scoresKey keyPrefix slug) snapId) ∧
      BelongsTo keyPrefix slug (snapKey (entriesKey keyPrefix slug) snapId) :=
  ⟨⟨.scores, some snapId, rfl⟩, ⟨.entries, some snapId, rfl⟩⟩

/-- All commands of a snapshot are commands of its board. -/
theorem SnapshotCmd.onBoard {slug : String} {c : Cmd} (h : SnapshotCmd keyPrefix slug c) :
    c.OnBoard keyPrefix slug := by
  have hone : ∀ {key : String}, BelongsTo keyPrefix slug key →
      ∀ k ∈ [key], BelongsTo keyPrefix slug k := by
    intro key hkey k hk
    rwa [List.mem_singleton.mp hk]
  cases h with
  | scoresExist => exact hone belongsTo_scoresKey
  | entriesExist => exact hone belongsTo_entriesKey
  | readWorking => exact hone belongsTo_scoresKey
  | readSnap snapId => exact hone (belongsTo_snapKeys keyPrefix slug snapId).1
  | rename snapId =>
    exact onBoard_pair rfl belongsTo_scoresKey (belongsTo_snapKeys keyPrefix slug snapId).1
  | delete snapId =>
    obtain ⟨hscores, hentries⟩ := belongsTo_snapKeys keyPrefix slug snapId
    exact onBoard_pair rfl hscores hentries
  | renames snapId =>
    obtain ⟨hscores, hentries⟩ := belongsTo_snapKeys keyPrefix slug snapId
    intro key hkey
    simp only [RedisCmd.keys, List.flatMap_cons, RedisWrite.keys, List.flatMap_nil,
      List.append_nil, List.cons_append, List.nil_append, List.mem_cons, List.not_mem_nil,
      or_false] at hkey
    rcases hkey with rfl | rfl | rfl | rfl
    · exact belongsTo_scoresKey
    · exact hscores
    · exact belongsTo_entriesKey
    · exact hentries
  | _ => trivial

theorem onBoard_snapshot (board : Board) (note : Option String) (metadata : Option Json)
    (maxVersions : Option ℤ) (maxEntries : Option ℕ) :
    (Realtime.snapshot board note metadata keyPrefix maxVersions maxEntries).OnBoard keyPrefix
      board.slug :=
  (snapshot_uses board note metadata keyPrefix maxVersions maxEntries).mono fun c hc => by
    rcases hc with hc | hc
    · cases c <;> trivial
    · exact hc.onBoard

end Operations

/-- **Boards do not share keys.** Whatever the prefix, two keys of boards with valid slugs are
equal only if the slugs, the kinds and the snapshots are; and every command that a submission, a
read, a snapshot or a clearing of one board can issue spares the keys of every other board. -/
theorem boards_apart (keyPrefix : String) :
    (∀ slug slug' kind kind' snap snap', validateSlug slug = .ok () →
      validateSlug slug' = .ok () →
      boardKey keyPrefix slug kind snap = boardKey keyPrefix slug' kind' snap' →
      slug = slug' ∧ kind = kind' ∧ snap = snap') ∧
    ∀ (board : Board) (other : String), validateSlug board.slug = .ok () →
      validateSlug other = .ok () → other ≠ board.slug →
      (∀ input, (Realtime.submit board input keyPrefix).Uses (Cmd.Spares keyPrefix other)) ∧
      (Realtime.latest board keyPrefix).Uses (Cmd.Spares keyPrefix other) ∧
      (∀ note metadata maxVersions maxEntries,
        (Realtime.snapshot board note metadata keyPrefix maxVersions maxEntries).Uses
          (Cmd.Spares keyPrefix other)) ∧
      (Realtime.clear board.slug keyPrefix).Uses (Cmd.Spares keyPrefix other) := by
  refine ⟨fun _ _ _ _ _ _ hslug hslug' h => boardKey_inj hslug hslug' h,
    fun board other hslug hother hne => ?_⟩
  have hspares : ∀ c : Cmd, c.OnBoard keyPrefix board.slug → c.Spares keyPrefix other :=
    fun c hc => hc.spares hslug hother hne
  exact ⟨fun input => (onBoard_submit board input).mono hspares,
    (onBoard_latest board).mono hspares,
    fun _ _ _ _ => (onBoard_snapshot board _ _ _ _).mono hspares,
    (onBoard_clear board.slug).mono hspares⟩

/-- A realtime board that snapshots clear. -/
def dailyBoard : Board where
  id := 1
  slug := "daily"
  name := "Daily"
  boardType := "scored"
  sortDirection := "desc"
  tierConfig := none
  metadata := none
  accumulative := false
  realtime := true
  clearOnSnapshot := true
  createdAt := 0
  updatedAt := 0

/-- The slug of the other board continues the slug of the first, and with a prefix that looks like
a key the boards still have different keys. -/
theorem boards_apart_daily :
    boardKey "rl:board:daily" "daily" .scores (some 7) ≠
      boardKey "rl:board:daily" "daily-2" .scores none ∧
    (Realtime.snapshot dailyBoard none none "rl:board:daily" none none).Uses
      (Cmd.Spares "rl:board:daily" "daily-2") := by
  have hslug : validateSlug "daily" = .ok () := by decide
  have hother : validateSlug "daily-2" = .ok () := by decide
  obtain ⟨hkeys, hops⟩ := boards_apart "rl:board:daily"
  constructor
  · intro h
    have hsame := (hkeys "daily" "daily-2" .scores .scores (some 7) none hslug hother h).1
    exact absurd hsame (by decide)
  · exact (hops dailyBoard "daily-2" hslug hother (by decide)).2.2.1 none none none none

end Leaderboards
