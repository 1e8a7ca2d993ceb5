import Leaderboards.Properties.Periods
import Leaderboards.Properties.ScoreStores
import Leaderboards.Transactions.RedisHistory

/-!
# What a failed snapshot leaves behind

A snapshot of a `clear_on_snapshot` board renames the working keys before it knows whether it can
make a version. When it fails after that, nobody renames them back. So a failed snapshot leaves the
live scores as they were, up to the submissions of others, exactly when each name that its renaming
took away has been submitted again since (**`failed_snapshot_intact_iff`**). A command that a fault
makes fail has had no effect (`Exec`): of a snapshot that fails because the acknowledgment of its
COMMIT is lost, whose version is there, the theorem does not speak.
-/

namespace Leaderboards

open Interaction Realtime

variable {keyPrefix slug : String} {t : Tid} {r r' : Redis}

/-! ### The two working keys -/

/-- What a key holds: the members of a sorted set with their scores, or the fields of a hash with
their values. -/
def contents : Option RedisValue → List (String × (F64 ⊕ String))
  | some (.zset members) => members.map fun m => (m.1, .inl m.2)
  | some (.hash fields) => fields.map fun f => (f.1, .inr f.2)
  | none => []

/-- What a key holds under a name. -/
def held (v : Option RedisValue) (name : String) : Set (F64 ⊕ String) :=
  {x | (name, x) ∈ contents v}

theorem mem_held {v : Option RedisValue} {name : String} {x : F64 ⊕ String} :
    x ∈ held v name ↔ (name, x) ∈ contents v := Iff.rfl

@[simp] theorem held_none (name : String) : held none name = ∅ := by
  ext x
  simp [held, contents]

theorem held_ne_empty_iff {v : Option RedisValue} {name : String} :
    held v name ≠ ∅ ↔ name ∈ (contents v).map Prod.fst := by
  rw [← Set.nonempty_iff_ne_empty, List.mem_map]
  constructor
  · rintro ⟨x, hx⟩
    exact ⟨(name, x), hx, rfl⟩
  · rintro ⟨⟨n, x⟩, hx, rfl⟩
    exact ⟨x, hx⟩

/-- The block that a submission sends. -/
def submission (keyPrefix slug : String) (input : SubmitScore) : RedisCmd :=
  .pipe [.zadd (scoresKey keyPrefix slug) input.entrySlug input.score,
    .hset (entriesKey keyPrefix slug) input.entrySlug input.entryName]

/-- A working key of a board: what a submission stores there under the slug of its entry, and the
kind of value, which submissions keep. -/
structure LiveKey (keyPrefix slug : String) where
  key : String
  value : SubmitScore → F64 ⊕ String
  Kind : Option RedisValue → Prop
  kind_none : Kind none
  submitted : ∀ (input : SubmitScore) (r : Redis), Kind (r key) →
    Kind ((execRedis (submission keyPrefix slug input) r).2 key) ∧
      ∀ name, held ((execRedis (submission keyPrefix slug input) r).2 key) name =
        if name = input.entrySlug then {value input} else held (r key) name

theorem held_assocSet {β : Type} {f : β → F64 ⊕ String} {v v' : Option RedisValue}
    {l : List (String × β)} {n : String} {x : β}
    (hv : contents v = l.map fun m => (m.1, f m.2))
    (hv' : contents v' = (assocSet l n x).map fun m => (m.1, f m.2)) (name : String) :
    held v' name = if name = n then {f x} else held v name := by
  ext y
  have hmem : y ∈ held v' name ↔ ∃ z, (name, z) ∈ assocSet l n x ∧ f z = y := by
    rw [mem_held, hv']
    simp [List.mem_map]
  rw [hmem]
  simp only [mem_assocSet_iff]
  by_cases hname : name = n
  · simp [hname, eq_comm]
  · rw [if_neg hname, mem_held, hv]
    simp [hname, List.mem_map]

/-- `ZADD` on a sorted set, or on nothing. -/
theorem RedisWrite.after_zadd {key : String}
    (h : r key = none ∨ ∃ members, r key = some (.zset members)) (name : String) (score : F64) :
    (RedisWrite.zadd key name score).after r key =
      some (.zset (assocSet (zsetMembers (r key)) name score)) := by
  rcases h with hv | ⟨members, hv⟩
  · simp only [RedisWrite.after, RedisWrite.apply, hv, Redis.put_self]
    rfl
  · simp only [RedisWrite.after, RedisWrite.apply, hv, Redis.put_self, zsetMembers]

/-- `HSET` on a hash, or on nothing. -/
theorem RedisWrite.after_hset {key : String}
    (h : r key = none ∨ ∃ fields, r key = some (.hash fields)) (name value : String) :
    (RedisWrite.hset key name value).after r key =
      some (.hash (assocSet (hashFields (r key)) name value)) := by
  rcases h with hv | ⟨fields, hv⟩
  · simp only [RedisWrite.after, RedisWrite.apply, hv, Redis.put_self]
    rfl
  · simp only [RedisWrite.after, RedisWrite.apply, hv, Redis.put_self, hashFields]

/-- The working scores. -/
def liveScores (keyPrefix slug : String) : LiveKey keyPrefix slug where
  key := scoresKey keyPrefix slug
  value input := .inl input.score
  Kind v := v = none ∨ ∃ members, v = some (.zset members)
  kind_none := .inl rfl
  submitted input r hkind := by
    have hne : scoresKey keyPrefix slug ≠ entriesKey keyPrefix slug :=
      (entriesKey_ne_scoresKey keyPrefix slug keyPrefix slug).symm
    have hkey : (execRedis (submission keyPrefix slug input) r).2 (scoresKey keyPrefix slug) =
        (RedisWrite.zadd (scoresKey keyPrefix slug) input.entrySlug input.score).after r
          (scoresKey keyPrefix slug) := by
      rw [submission, execRedis, runPipe_cons_snd, runPipe_cons_snd]
      exact RedisWrite.after_of_not_mem (by simpa [RedisWrite.keys] using hne) _
    rw [hkey, RedisWrite.after_zadd hkind]
    refine ⟨.inr ⟨_, rfl⟩, held_assocSet (f := Sum.inl) ?_ rfl⟩
    rcases hkind with hv | ⟨members, hv⟩ <;> simp [hv, contents, zsetMembers]

/-- The names of the entries with working scores. -/
def liveNames (keyPrefix slug : String) : LiveKey keyPrefix slug where
  key := entriesKey keyPrefix slug
  value input := .inr input.entryName
  Kind v := v = none ∨ ∃ fields, v = some (.hash fields)
  kind_none := .inl rfl
  submitted input r hkind := by
    have hne : entriesKey keyPrefix slug ≠ scoresKey keyPrefix slug :=
      entriesKey_ne_scoresKey keyPrefix slug keyPrefix slug
    have hbefore : (RedisWrite.zadd (scoresKey keyPrefix slug) input.entrySlug input.score).after r
        (entriesKey keyPrefix slug) = r (entriesKey keyPrefix slug) :=
      RedisWrite.after_of_not_mem (by simpa [RedisWrite.keys] using hne) r
    have hafter : (execRedis (submission keyPrefix slug input) r).2 (entriesKey keyPrefix slug) =
        some (.hash (assocSet (hashFields (r (entriesKey keyPrefix slug))) input.entrySlug
          input.entryName)) := by
      rw [← hbefore] at hkind
      rw [submission, execRedis, runPipe_cons_snd, runPipe_cons_snd, ← hbefore]
      exact RedisWrite.after_hset hkind _ _
    rw [hafter]
    refine ⟨.inr ⟨_, rfl⟩, held_assocSet (f := Sum.inr) ?_ rfl⟩
    rcases hkind with hv | ⟨fields, hv⟩ <;> simp [hv, contents, hashFields]

/-! ### What the commands of a run do to a working key -/

/-- The submission to the board that a command makes. -/
def RedisCmd.submitted? (keyPrefix slug : String) : RedisCmd → Option SubmitScore
  | .pipe [.zadd key member score, .hset key' field value] =>
    if key = scoresKey keyPrefix slug ∧ key' = entriesKey keyPrefix slug ∧ field = member then
      some ⟨member, value, score⟩
    else none
  | _ => none

theorem RedisCmd.eq_submission {c : RedisCmd} {input : SubmitScore}
    (h : c.submitted? keyPrefix slug = some input) : c = submission keyPrefix slug input := by
  unfold RedisCmd.submitted? at h
  split at h
  · split at h
    · rename_i heq
      obtain ⟨rfl, rfl, rfl⟩ := heq
      obtain rfl := Option.some.inj h
      rfl
    · cases h
  · cases h

theorem submitted?_submission (input : SubmitScore) :
    (submission keyPrefix slug input).submitted? keyPrefix slug = some input :=
  if_pos ⟨rfl, rfl, rfl⟩

/-- A command of another thread submits a score under the name. -/
def submits (t : Tid) (keyPrefix slug name : String) (x : Tid × RedisCmd) : Bool :=
  x.1 ≠ t && (x.2.submitted? keyPrefix slug).any fun input => input.entrySlug = name

/-- A command of the thread renames the key. -/
def takes (t : Tid) (key : String) (x : Tid × RedisCmd) : Bool := x.1 = t && x.2.renames key

/-- The commands of the other threads. -/
def others (t : Tid) (xs : List (Tid × RedisCmd)) : List (Tid × RedisCmd) :=
  xs.filter fun x => x.1 ≠ t

/-- What a command of a run may do to a working key while the thread is making its snapshot. -/
inductive OnKey (t : Tid) (k : LiveKey keyPrefix slug) (x : Tid × RedisCmd) : Prop
  | keeps (hkeeps : ∀ r, (execRedis x.2 r).2 k.key = r k.key) (htakes : takes t k.key x = false)
      (hsubmits : ∀ name, submits t keyPrefix slug name x = false)
  | takes (hown : x.1 = t) (htakes : takes t k.key x = true)
      (hempties : ∀ r, (execRedis x.2 r).2 k.key = none)
  | submits (hother : x.1 ≠ t) (input : SubmitScore)
      (hsubmission : x.2 = submission keyPrefix slug input)

/-- Whenever the thread renames the key, another one submits each of its names again. -/
def Resubmitted (t : Tid) (k : LiveKey keyPrefix slug) : List (Tid × RedisCmd) → Redis → Prop
  | [], _ => True
  | x :: xs, r => (takes t k.key x = true → ∀ name ∈ (contents (r k.key)).map Prod.fst,
      ∃ y ∈ xs, submits t keyPrefix slug name y = true) ∧
    Resubmitted t k xs (execRedis x.2 r).2

/-- The same for one name. -/
private def Returns (t : Tid) (k : LiveKey keyPrefix slug) (name : String) :
    List (Tid × RedisCmd) → Redis → Prop
  | [], _ => True
  | x :: xs, r => (takes t k.key x = true → held (r k.key) name ≠ ∅ →
      ∃ y ∈ xs, submits t keyPrefix slug name y = true) ∧ Returns t k name xs (execRedis x.2 r).2

private theorem resubmitted_iff {k : LiveKey keyPrefix slug} {xs : List (Tid × RedisCmd)} :
    Resubmitted t k xs r ↔ ∀ name, Returns t k name xs r := by
  induction xs generalizing r with
  | nil => simp [Resubmitted, Returns]
  | cons x xs ih =>
    simp only [Resubmitted, Returns, ih, held_ne_empty_iff, forall_and]
    exact and_congr_left fun _ => forall_comm

theorem submits_own {x : Tid × RedisCmd} (hown : x.1 = t)
    (name : String) : submits t keyPrefix slug name x = false := by
  simp [submits, hown]

/-- **What is left under a name.** The run that leaves out the thread and the run itself, from
contents that agree or in which the name is gone: in the end they agree exactly when they agreed or
the name was submitted, and it was submitted again after each renaming that took it away. -/
private theorem held_replay_iff {k : LiveKey keyPrefix slug} {xs : List (Tid × RedisCmd)}
    (hxs : ∀ x ∈ xs, OnKey t k x) (hr : k.Kind (r k.key)) (hr' : k.Kind (r' k.key)) {name : String}
    (hsub : held (r k.key) name = held (r' k.key) name ∨ held (r k.key) name = ∅) :
    held (replay xs r k.key) name = held (replay (others t xs) r' k.key) name ↔
      (held (r k.key) name = held (r' k.key) name ∨
        ∃ y ∈ xs, submits t keyPrefix slug name y = true) ∧ Returns t k name xs r := by
  induction xs generalizing r r' with
  | nil => simp [Returns, others]
  | cons x xs ih =>
    have hrest : ∀ y ∈ xs, OnKey t k y := fun y hy => hxs y (List.mem_cons_of_mem x hy)
    rcases hxs x List.mem_cons_self with ⟨hkeeps, htakes, hsubmits⟩ | ⟨hown, htakes, hempties⟩ |
      ⟨hother, input, hsubmission⟩
    · -- The key stays as it is in both runs.
      have hothers : ∃ r'', replay (others t (x :: xs)) r' = replay (others t xs) r'' ∧
          r'' k.key = r' k.key := by
        by_cases hx : x.1 = t
        · exact ⟨r', by rw [others, List.filter_cons_of_neg (by simpa using hx), others], rfl⟩
        · refine ⟨(execRedis x.2 r').2, ?_, hkeeps r'⟩
          rw [others, List.filter_cons_of_pos (by simpa using hx), replay_cons, others]
      obtain ⟨r'', heq, hkey⟩ := hothers
      rw [heq, replay_cons, ih hrest (by rwa [hkeeps]) (by rwa [hkey]) (by rwa [hkeeps, hkey]),
        hkeeps, hkey]
      simp [Returns, htakes, hsubmits]
    · -- The thread takes the names away.
      have heq : others t (x :: xs) = others t xs :=
        List.filter_cons_of_neg (by simpa using hown)
      have hnone := hempties r
      rw [heq, replay_cons, ih hrest (by rw [hnone]; exact k.kind_none) hr'
        (.inr (by rw [hnone, held_none])), hnone, held_none]
      simp only [Returns, htakes, true_implies, List.mem_cons, exists_eq_or_imp,
        submits_own hown, Bool.false_eq_true, false_or]
      rcases hsub with hsame | hempty
      · rw [hsame]
        by_cases hheld : held (r' k.key) name = ∅
        · simp [hheld]
        · simp [hheld, Ne.symm hheld]
      · rw [hempty]
        simp
    · -- Another thread submits a score.
      have heq : others t (x :: xs) = x :: others t xs :=
        List.filter_cons_of_pos (by simpa using hother)
      have htakes : takes t k.key x = false := by simp [takes, hother]
      have hsubmits : submits t keyPrefix slug name x = decide (input.entrySlug = name) := by
        simp [submits, hother, hsubmission, submitted?_submission]
      obtain ⟨hkind, hafter⟩ := k.submitted input r hr
      obtain ⟨hkind', hafter'⟩ := k.submitted input r' hr'
      rw [← hsubmission] at hkind hafter hkind' hafter'
      have hsub' : held ((execRedis x.2 r).2 k.key) name = held ((execRedis x.2 r').2 k.key) name ∨
          held ((execRedis x.2 r).2 k.key) name = ∅ := by
        rw [hafter, hafter']
        split
        · exact .inl rfl
        · exact hsub
      rw [heq, replay_cons, replay_cons, ih hrest hkind hkind' hsub', hafter, hafter']
      by_cases hname : name = input.entrySlug
      · have hsubmits' : submits t keyPrefix slug name x = true := by
          rw [hsubmits, decide_eq_true_eq, hname]
        simp only [hname, if_true, true_or, true_and, Returns, htakes, Bool.false_eq_true,
          false_implies]
        rw [← hname]
        simp [hsubmits']
      · simp [Returns, htakes, hsubmits, hname, Ne.symm hname]

/-! ### The commands of a snapshot and of the others -/

theorem RedisCmd.exists_rename {key : String} {c : RedisCmd} (h : c.renames key = true) :
    ∃ newKey, .rename key newKey ∈ c.writes := by
  cases c with
  | rename k newKey =>
    obtain rfl : k = key := of_decide_eq_true h
    exact ⟨newKey, List.mem_singleton_self _⟩
  | pipe commands =>
    obtain ⟨w, hw, hrename⟩ := List.any_eq_true.mp h
    cases w with
    | rename k newKey =>
      obtain rfl : k = key := of_decide_eq_true hrename
      exact ⟨newKey, hw⟩
    | _ => cases hrename
  | _ => cases h

/-- A command that does not name the key. -/
theorem onKey_of_not_mem {k : LiveKey keyPrefix slug} {x : Tid × RedisCmd}
    (hwrites : ∀ w ∈ x.2.writes, k.key ∉ w.keys)
    (hsubmits : ∀ name, submits t keyPrefix slug name x = false) : OnKey t k x := by
  refine .keeps (fun r => ?_) ?_ hsubmits
  · rw [execRedis_snd]
    refine runPipe_invariant (I := fun r' => r' k.key = r k.key)
      (fun w hw r₁ r₂ hr₁ happly => ?_) rfl
    rw [RedisWrite.apply_of_not_mem happly (hwrites w hw), hr₁]
  · by_contra htakes
    have hrenames : x.2.renames k.key = true := by
      simp only [Leaderboards.takes, Bool.and_eq_true, Bool.not_eq_false] at htakes
      exact htakes.2
    obtain ⟨newKey, hmem⟩ := RedisCmd.exists_rename hrenames
    exact hwrites _ hmem List.mem_cons_self

/-- What the commands of a snapshot do to the working scores. -/
theorem SnapshotCmd.onScores {c : RedisCmd} (h : SnapshotCmd keyPrefix slug (.redis c)) :
    OnKey t (liveScores keyPrefix slug) (t, c) := by
  have hown : ∀ name, submits t keyPrefix slug name (t, c) = false := submits_own rfl
  have hreads : c.writes = [] → OnKey t (liveScores keyPrefix slug) (t, c) := fun hwrites =>
    onKey_of_not_mem (by rw [hwrites]; simp) hown
  have hsnap : ∀ key snapId, scoresKey keyPrefix slug ≠ snapKey key snapId :=
    fun key snapId => (snapKey_ne_scoresKey key snapId keyPrefix slug).symm
  cases h with
  | scoresExist => exact hreads rfl
  | entriesExist => exact hreads rfl
  | readWorking => exact hreads rfl
  | readSnap snapId => exact hreads rfl
  | rename snapId =>
    refine .takes rfl (by simp [takes, RedisCmd.renames, liveScores]) fun r => ?_
    rw [execRedis, runPipe_cons_snd]
    exact RedisWrite.after_rename (hsnap _ snapId) r
  | renames snapId =>
    refine .takes rfl (by simp [takes, RedisCmd.renames, liveScores]) fun r => ?_
    rw [execRedis, runPipe_cons_snd, runPipe_cons_snd]
    refine (RedisWrite.after_of_not_mem ?_ _).trans (RedisWrite.after_rename (hsnap _ snapId) r)
    have hne := (entriesKey_ne_scoresKey keyPrefix slug keyPrefix slug).symm
    simp [liveScores, RedisWrite.keys, hne, hsnap]
  | delete snapId =>
    refine onKey_of_not_mem (fun w hw => ?_) hown
    rcases List.mem_pair.mp hw with rfl | rfl <;> simp [liveScores, RedisWrite.keys, hsnap]

/-- What the commands of a snapshot do to the working names. -/
theorem SnapshotCmd.onNames {c : RedisCmd} (h : SnapshotCmd keyPrefix slug (.redis c)) :
    OnKey t (liveNames keyPrefix slug) (t, c) := by
  have hown : ∀ name, submits t keyPrefix slug name (t, c) = false := submits_own rfl
  have hreads : c.writes = [] → OnKey t (liveNames keyPrefix slug) (t, c) := fun hwrites =>
    onKey_of_not_mem (by rw [hwrites]; simp) hown
  have hsnap : ∀ key snapId, entriesKey keyPrefix slug ≠ snapKey key snapId :=
    fun key snapId => (snapKey_ne_entriesKey key snapId keyPrefix slug).symm
  have hne := entriesKey_ne_scoresKey keyPrefix slug keyPrefix slug
  cases h with
  | scoresExist => exact hreads rfl
  | entriesExist => exact hreads rfl
  | readWorking => exact hreads rfl
  | readSnap snapId => exact hreads rfl
  | rename snapId =>
    refine onKey_of_not_mem (fun w hw => ?_) hown
    rw [List.mem_singleton.mp hw]
    simp [liveNames, RedisWrite.keys, hne, hsnap]
  | renames snapId =>
    refine .takes rfl (by simp [takes, RedisCmd.renames, liveNames]) fun r => ?_
    rw [execRedis, runPipe_cons_snd, runPipe_cons_snd]
    exact RedisWrite.after_rename (hsnap _ snapId) _
  | delete snapId =>
    refine onKey_of_not_mem (fun w hw => ?_) hown
    rcases List.mem_pair.mp hw with rfl | rfl <;> simp [liveNames, RedisWrite.keys, hsnap]

/-- Another thread submits to the board, or leaves its working keys alone. -/
def Beside (t : Tid) (keyPrefix slug : String) (x : Tid × RedisCmd) : Prop :=
  x.1 ≠ t → (x.2.submitted? keyPrefix slug).isSome = true ∨
    ∀ w ∈ x.2.writes, scoresKey keyPrefix slug ∉ w.keys ∧ entriesKey keyPrefix slug ∉ w.keys

theorem Beside.onKey {k : LiveKey keyPrefix slug} {x : Tid × RedisCmd}
    (hkey : k.key = scoresKey keyPrefix slug ∨ k.key = entriesKey keyPrefix slug) (hx : x.1 ≠ t)
    (h : Beside t keyPrefix slug x) : OnKey t k x := by
  rcases h hx with hsome | hwrites
  · obtain ⟨input, hinput⟩ := Option.isSome_iff_exists.mp hsome
    exact .submits hx input (RedisCmd.eq_submission hinput)
  · refine onKey_of_not_mem (fun w hw => ?_) fun name => ?_
    · rcases hkey with heq | heq
      · exact heq ▸ (hwrites w hw).1
      · exact heq ▸ (hwrites w hw).2
    · rcases hsubmitted : x.2.submitted? keyPrefix slug with _ | input
      · simp [submits, hsubmitted]
      · -- A submission names the working scores.
        have hmem : RedisWrite.zadd (scoresKey keyPrefix slug) input.entrySlug input.score ∈
            x.2.writes := by
          rw [RedisCmd.eq_submission hsubmitted]
          exact List.mem_cons_self
        exact absurd List.mem_cons_self (hwrites _ hmem).1

/-! ### The failed snapshot -/

/-- A call of the thread has committed nothing, and the working keys of the board hold what they
would hold without the call. -/
structure Intact (t : Tid) (keyPrefix slug : String) (es : List (Event Service Request))
    (r₀ r : Redis) : Prop where
  uncommitted : ∀ x ∈ Machine.answersOf (S := Service) t es, ¬Cmd.Committed x.1 x.2
  scores : ∀ name, held (r (scoresKey keyPrefix slug)) name =
    held (replay (others t (sent es)) r₀ (scoresKey keyPrefix slug)) name
  names : ∀ name, held (r (entriesKey keyPrefix slug)) name =
    held (replay (others t (sent es)) r₀ (entriesKey keyPrefix slug)) name

section Call

variable {faulty : Prop} {allowed : Request → Prop} {g₀ g : System faulty}
  {es : List (Event Service Request)} {who : Tid → Option Request} {board : Board}
  {note : Option String} {metadata : Option Json} {maxVersions : Option ℤ}
  {maxEntries : Option ℕ} {e : Error}

/-- **What a failed snapshot leaves behind.** In every run during which a thread calls
`realtime::snapshot` and gets an error, while the other threads submit scores to the board or leave
its working keys alone: the call has committed nothing, and the working keys hold what they would
hold without it, exactly when each name that it renamed away was submitted again afterwards. The
error is one of the checks or of a command, which then had no effect. -/
theorem failed_snapshot_intact_iff (h : System.Trace allowed g₀ es who g)
    (hfailed : Machine.Answers (Realtime.snapshot board note metadata keyPrefix maxVersions
      maxEntries) (Machine.answersOf t es) (.fail e))
    (hbeside : ∀ x ∈ sent es, Beside t keyPrefix board.slug x)
    (hscores : (liveScores keyPrefix board.slug).Kind
      (g₀.servers.redis (scoresKey keyPrefix board.slug)))
    (hnames : (liveNames keyPrefix board.slug).Kind
      (g₀.servers.redis (entriesKey keyPrefix board.slug))) :
    Intact t keyPrefix board.slug es g₀.servers.redis g.servers.redis ↔
      Resubmitted t (liveScores keyPrefix board.slug) (sent es) g₀.servers.redis ∧
        Resubmitted t (liveNames keyPrefix board.slug) (sent es) g₀.servers.redis := by
  have huncommitted := hfailed.unsettled
    (snapshot_settled board note metadata keyPrefix maxVersions maxEntries)
  -- The thread sends nothing but the commands of the call.
  have hown : ∀ c, (t, c) ∈ sent es → SnapshotCmd keyPrefix board.slug (.redis c) := by
    intro c hc
    obtain ⟨x, hx, hcmd⟩ := answered_of_sent hc
    have huses := (hfailed.uses
      (snapshot_uses board note metadata keyPrefix maxVersions maxEntries)).1 x hx
    rw [hcmd] at huses
    exact huses.resolve_left id
  -- Under each of the two keys: every command that was sent keeps it, empties it, or submits.
  have hkey : ∀ k : LiveKey keyPrefix board.slug,
      (k.key = scoresKey keyPrefix board.slug ∨ k.key = entriesKey keyPrefix board.slug) →
      (∀ c, SnapshotCmd keyPrefix board.slug (.redis c) → OnKey t k (t, c)) →
      k.Kind (g₀.servers.redis k.key) →
      ((∀ name, held (g.servers.redis k.key) name =
        held (replay (others t (sent es)) g₀.servers.redis k.key) name) ↔
        Resubmitted t k (sent es) g₀.servers.redis) := by
    intro k hk hsnapshot hkind
    have hon : ∀ x ∈ sent es, OnKey t k x := by
      rintro ⟨u, c⟩ hx
      by_cases hu : u = t
      · subst hu
        exact hsnapshot c (hown c hx)
      · exact (hbeside _ hx).onKey hk hu
    rw [h.redis_eq, resubmitted_iff]
    refine forall_congr' fun name => ?_
    rw [held_replay_iff hon hkind hkind (.inl rfl)]
    simp
  have hscores' := hkey (liveScores keyPrefix board.slug) (.inl rfl) (fun c hc =>
    hc.onScores) hscores
  have hnames' := hkey (liveNames keyPrefix board.slug) (.inr rfl) (fun c hc => hc.onNames) hnames
  constructor
  · exact fun hintact => ⟨hscores'.mp hintact.scores, hnames'.mp hintact.names⟩
  · exact fun ⟨hs, hn⟩ => ⟨huncommitted, hscores'.mpr hs, hnames'.mpr hn⟩

end Call

/-! ### A schedule -/

instance (t : Tid) (k : LiveKey keyPrefix slug) (xs : List (Tid × RedisCmd)) (r : Redis) :
    Decidable (Resubmitted t k xs r) := by
  induction xs generalizing r with
  | nil => exact .isTrue trivial
  | cons x xs ih =>
    unfold Resubmitted
    exact inferInstance

instance (t : Tid) (keyPrefix slug : String) (x : Tid × RedisCmd) :
    Decidable (Beside t keyPrefix slug x) := by
  unfold Beside
  infer_instance

/-- A board whose snapshots clear it has a score, and a client that may make no version has read its
row for a snapshot. -/
def snapshotPreparation : List Move :=
  [.call (.createBoard { slug := "b", name := "B", boardType := "scored", accumulative := true
                         realtime := true, clearOnSnapshot := true }), .turns 0 9,
    scoreArrives "e", .turns 1 9, .call (.snapshot { maxVersions := some 0 } "b" {}), .turns 2 1]

/-- The clients after the preparation. -/
def snapshotPrepared : Clients :=
  (Clients.play counting (fun _ _ => true) snapshotPreparation {}).getD {}

/-- The entry is submitted again after the renaming. -/
def submittedAgain : List Move := [.turns 2 4, scoreArrives "e", .turns 3 9, .turns 2 20]

/-- The board. -/
def clearingBoard : Board where
  id := 1
  slug := "b"
  name := "B"
  boardType := "scored"
  sortDirection := "desc"
  tierConfig := none
  metadata := none
  accumulative := true
  realtime := true
  clearOnSnapshot := true
  createdAt := 0
  updatedAt := 0

set_option maxRecDepth 10000 in
/-- A snapshot that renames the keys and then fails leaves the live scores intact when its only
entry is submitted again in between. -/
theorem failed_snapshot_intact_run : ∃ (g₀ g : System False)
    (es : List (Event Service Request)) (who : Tid → Option Request) (e : Error),
    System.Trace (fun r => r.Respects {}) g₀ es who g ∧
    Machine.Answers (Realtime.snapshot clearingBoard none none "rl" (some 0) none)
      (Machine.answersOf 2 es) (.fail e) ∧
    (sent es).any (takes 2 (scoresKey "rl" "b")) = true ∧
    Intact 2 "rl" "b" es g₀.servers.redis g.servers.redis := by
  have hprepared : Clients.play counting (fun _ _ => true) snapshotPreparation {} =
      some snapshotPrepared := rfl
  have hthread : snapshotPrepared.threads[2]? = some (none,
      (Realtime.snapshot clearingBoard none none "rl" (some 0) none).discard) := rfl
  -- The schedule is evaluated: every fact about the run that is needed can be decided.
  obtain ⟨c, hplay, ⟨s, e, hfail⟩, htakes, hbeside, hscores, hnames, hkind, hkind'⟩ : ∃ c,
      Clients.play counting (fun _ _ => true) submittedAgain snapshotPrepared.restart = some c ∧
      (∃ s e, c.threads[2]? = some (s, .fail e)) ∧
      (sent c.log).any (takes 2 (scoresKey "rl" "b")) = true ∧
      (∀ x ∈ sent c.log, Beside 2 "rl" "b" x) ∧
      Resubmitted 2 (liveScores "rl" "b") (sent c.log) snapshotPrepared.server.redis ∧
      Resubmitted 2 (liveNames "rl" "b") (sent c.log) snapshotPrepared.server.redis ∧
      snapshotPrepared.server.redis (scoresKey "rl" "b") = some (.zset [("e", ⟨0⟩)]) ∧
      snapshotPrepared.server.redis (entriesKey "rl" "b") = some (.hash [("e", "E")]) :=
    ⟨_, rfl, ⟨_, _, rfl⟩, by decide, by decide, by decide, by decide, by decide, by decide⟩
  obtain ⟨g₀, hg₀, hshows₀⟩ : ∃ g₀ : System False, System.Reachable {} g₀ ∧
      snapshotPrepared.Shows g₀ := Clients.reachable_play hprepared
  obtain ⟨hshows, hlogs⟩ : snapshotPrepared.restart.Shows g₀ ∧
      snapshotPrepared.restart.Logs (fun _ _ => true) (fun r => r.Respects {}) g₀ g₀ :=
        hshows₀.restart
  obtain ⟨g, -, hshows', hlogs'⟩ := Clients.play_run (fun r => r.Respects {}) hplay
    (fun _ _ r _ => r.respects_default) hshows
  have hstart : g₀.thread 2 = some ⟨none,
      Realtime.snapshot clearingBoard none none "rl" (some 0) none >>= fun _ => .ret ()⟩ := by
    rw [hshows₀.thread, hthread]
    rfl
  have htrace := (hlogs' g₀ hlogs).trace
  obtain ⟨h, rest, hcourse⟩ := Machine.Trace.course htrace id (fun _ _ _ h => by cases h) hstart
  obtain rfl : rest = .fail e := by
    have hrest := hcourse.thread
    rw [hshows'.thread, hfail] at hrest
    injection hrest with hrest
    injection hrest with _ hrest
    cases rest with
    | ret x => cases hrest
    | fail e' =>
      injection hrest with hrest
      rw [hrest]
    | op c' k => cases hrest
  have hanswers := hcourse.answers
  refine ⟨g₀, g, c.log, c.who, e, htrace, hanswers, htakes, ?_⟩
  rw [← hshows₀.servers] at hscores hnames hkind hkind'
  exact (failed_snapshot_intact_iff htrace hanswers hbeside (.inr ⟨_, hkind⟩)
    (.inr ⟨_, hkind'⟩)).mpr ⟨hscores, hnames⟩

end Leaderboards
