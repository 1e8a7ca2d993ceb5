import Mathlib.Data.List.Sort
import Mathlib.Data.List.Range
import Mathlib.Data.List.Perm.Lattice
import Mathlib.Data.Prod.Lex

/-!
# Sorting and row numbers

`orderBy key l` sorts a list of rows by a key in a linear order, as `ORDER BY` does, and
`rowNumbers key l` pairs each row with its `ROW_NUMBER()`. When the keys of the rows are
pairwise distinct the row number of `a` is `rank key l a`, one more than the number of rows
with a smaller key (`mem_rowNumbers`): it does not depend on the order of the input.

`rank_lt_rank` and `map_rank_perm` say what a ranking is: it orders the rows as their keys do,
and its values are exactly `1, …, n`. `eq_rank` is the converse, a numbering by `1, …, n` that
never contradicts the keys is the rank.
-/

namespace Ranking

variable {α κ : Type*} [LinearOrder κ] (key : α → κ)

/-- The rows sorted by their key. -/
def orderBy (l : List α) : List α := l.insertionSort fun a b => key a ≤ key b

theorem orderBy_perm (l : List α) : (orderBy key l).Perm l :=
  List.perm_insertionSort _ l

@[simp] theorem mem_orderBy {l : List α} {a : α} : a ∈ orderBy key l ↔ a ∈ l :=
  (orderBy_perm key l).mem_iff

@[simp] theorem length_orderBy (l : List α) : (orderBy key l).length = l.length :=
  (orderBy_perm key l).length_eq

theorem orderBy_pairwise (l : List α) : (orderBy key l).Pairwise fun a b => key a ≤ key b := by
  have htotal : Std.Total fun a b : α => key a ≤ key b := ⟨fun a b => le_total (key a) (key b)⟩
  have htrans : IsTrans α fun a b => key a ≤ key b := ⟨fun _ _ _ h h' => h.trans h'⟩
  exact List.pairwise_insertionSort _ l

/-- Sorting commutes with a map of the rows. -/
theorem orderBy_map {β : Type*} (f : β → α) (l : List β) :
    orderBy key (l.map f) = (orderBy (fun b => key (f b)) l).map f :=
  (List.map_insertionSort _ _ f l fun _ _ _ _ => Iff.rfl).symm

/-- With pairwise distinct keys the sorted rows are strictly increasing. -/
theorem orderBy_pairwise_lt {l : List α} (h : (l.map key).Nodup) :
    (orderBy key l).Pairwise fun a b => key a < key b := by
  have hne : (orderBy key l).Pairwise fun a b => key a ≠ key b :=
    List.pairwise_map.mp (((orderBy_perm key l).map key).nodup_iff.mpr h)
  exact (orderBy_pairwise key l).imp₂ (fun _ _ hle hne => lt_of_le_of_ne hle hne) hne

/-- Rows that are sorted, and the same rows with others that come after all of them. -/
theorem prefix_of_pairwise_lt {l s : List α} (hl : l.Pairwise fun a b => key a < key b)
    (hs : s.Pairwise fun a b => key a < key b) (hsub : ∀ a ∈ l, a ∈ s)
    (hafter : ∀ b ∈ s, b ∉ l → ∀ a ∈ l, key a < key b) : l <+: s := by
  induction l generalizing s with
  | nil => exact List.nil_prefix
  | cons a l ih =>
    rcases s with _ | ⟨b, s⟩
    · exact absurd (hsub a List.mem_cons_self) List.not_mem_nil
    · obtain ⟨hal, hl'⟩ := List.pairwise_cons.mp hl
      obtain ⟨hbs, hs'⟩ := List.pairwise_cons.mp hs
      -- The first row of one list is not after the first row of the other.
      have hab : a = b := by
        by_contra hne
        have hba : key b < key a :=
          hbs a ((List.mem_cons.mp (hsub a List.mem_cons_self)).resolve_left hne)
        by_cases hb : b ∈ a :: l
        · exact absurd (hal b ((List.mem_cons.mp hb).resolve_left (Ne.symm hne))) hba.asymm
        · exact absurd (hafter b List.mem_cons_self hb a List.mem_cons_self) hba.asymm
      subst hab
      refine (List.prefix_cons_inj a).mpr (ih hl' hs' (fun c hc => ?_) fun c hc hnew d hd => ?_)
      · refine (List.mem_cons.mp (hsub c (List.mem_cons_of_mem a hc))).resolve_left ?_
        rintro rfl
        exact absurd (hal c hc) (lt_irrefl _)
      · refine hafter c (List.mem_cons_of_mem a hc) (fun hmem => ?_) d (List.mem_cons_of_mem a hd)
        rcases List.mem_cons.mp hmem with rfl | hmem
        · exact absurd (hbs c hc) (lt_irrefl _)
        · exact hnew hmem

/-- The first rows of a sorted list contain a row, or they are all before it. -/
theorem mem_take_or_full {l : List α} (h : l.Pairwise fun a b => key a < key b) {a : α} (ha : a ∈ l)
    (limit : ℕ) : a ∈ l.take limit ∨
      ((l.take limit).length = limit ∧ ∀ b ∈ l.take limit, key b < key a) := by
  rw [← List.take_append_drop limit l] at h ha
  rcases List.mem_append.mp ha with ha | ha
  · exact .inl ha
  · refine .inr ⟨?_, fun b hb => (List.pairwise_append.mp h).2.2 b hb a ha⟩
    have hlt : limit < l.length := by
      by_contra hle
      rw [List.drop_eq_nil_of_le (by omega)] at ha
      exact absurd ha List.not_mem_nil
    rw [List.length_take]
    omega

/-- A strictly increasing arrangement of the rows is the sorted one. -/
theorem eq_orderBy {l s : List α} (hperm : s.Perm l) (hs : s.Pairwise fun a b => key a < key b) :
    s = orderBy key l := by
  have hnodup : (l.map key).Nodup := by
    refine (hperm.map key).nodup_iff.mp (List.pairwise_map.mpr ?_)
    exact hs.imp fun hlt => hlt.ne
  exact (hperm.trans (orderBy_perm key l).symm).eq_of_pairwise
    (fun a b _ _ hab hba => absurd hba hab.asymm) hs (orderBy_pairwise_lt key hnodup)

/-- A row after all others in the order comes last. -/
theorem orderBy_concat {l : List α} {a : α} (h : (l.map key).Nodup)
    (ha : ∀ b ∈ l, key b < key a) : orderBy key (l ++ [a]) = orderBy key l ++ [a] := by
  refine (eq_orderBy key ((orderBy_perm key l).append_right [a]) ?_).symm
  rw [List.pairwise_append]
  refine ⟨orderBy_pairwise_lt key h, List.pairwise_singleton _ _, fun b hb c hc => ?_⟩
  obtain rfl := List.mem_singleton.mp hc
  exact ha b ((mem_orderBy key).mp hb)

/-- A row before all others in the order comes first. -/
theorem head?_orderBy_concat {l : List α} {a : α} (ha : ∀ b ∈ l, key a < key b) :
    (orderBy key (l ++ [a])).head? = some a := by
  have hsorted := orderBy_pairwise key (l ++ [a])
  have hmem : a ∈ orderBy key (l ++ [a]) := by simp
  rcases hrows : orderBy key (l ++ [a]) with _ | ⟨b, rest⟩
  · rw [hrows] at hmem
    cases hmem
  · rw [hrows] at hsorted hmem
    have hb : b ∈ l ++ [a] := (mem_orderBy key).mp (hrows ▸ List.mem_cons_self)
    have hle : key b ≤ key a := by
      rcases List.mem_cons.mp hmem with rfl | hrest
      · exact le_rfl
      · exact List.rel_of_pairwise_cons hsorted hrest
    rcases List.mem_append.mp hb with hb | hb
    · exact absurd (ha b hb) hle.not_gt
    · rw [List.head?_cons, List.mem_singleton.mp hb]

/-- Sorting leaves the keys as they are exactly when they were in order. -/
theorem map_orderBy_eq_iff {l : List α} :
    (orderBy key l).map key = l.map key ↔ (l.map key).Pairwise (· ≤ ·) := by
  have hsorted : ((orderBy key l).map key).Pairwise (· ≤ ·) :=
    List.pairwise_map.mpr (orderBy_pairwise key l)
  constructor
  · intro h
    rwa [h] at hsorted
  · intro h
    exact ((orderBy_perm key l).map key).eq_of_pairwise (fun _ _ _ _ => le_antisymm) hsorted h

/-- A list of rows that a query may answer when it sorts by a key: ties stand in any order. -/
structure Arranges (l s : List α) : Prop where
  perm : s.Perm l
  sorted : s.Pairwise fun a b => key a ≤ key b

theorem arranges_orderBy (l : List α) : Arranges key l (orderBy key l) :=
  ⟨orderBy_perm key l, orderBy_pairwise key l⟩

/-- Rows whose keys strictly increase stand in this order among the sorted ones. -/
theorem sublist_of_pairwise_lt {s : List α} (hs : s.Pairwise fun a b => key a ≤ key b)
    {t : List α} (hsub : t ⊆ s) (ht : t.Pairwise fun a b => key a < key b) : t.Sublist s := by
  induction s generalizing t with
  | nil => rw [List.subset_nil.mp hsub]
  | cons a s ih =>
    rw [List.pairwise_cons] at hs
    rcases t with _ | ⟨b, t⟩
    · exact List.nil_sublist _
    · rw [List.pairwise_cons] at ht
      have hb : b = a ∨ b ∈ s := List.mem_cons.mp (hsub List.mem_cons_self)
      have hle : key a ≤ key b := by
        rcases hb with rfl | hb
        · exact le_rfl
        · exact hs.1 b hb
      have htail : t ⊆ s := by
        intro c hc
        rcases List.mem_cons.mp (hsub (List.mem_cons_of_mem b hc)) with rfl | hcs
        · exact absurd (ht.1 c hc) hle.not_gt
        · exact hcs
      rcases hb with rfl | hb
      · exact (ih hs.2 htail ht.2).cons_cons b
      · exact (ih hs.2 (List.cons_subset.mpr ⟨hb, htail⟩) (List.pairwise_cons.mpr ht)).cons a

/-- **Every way to break the ties is an arrangement.** -/
theorem arranges_orderBy_lex {τ : Type*} [LinearOrder τ] (t : α → τ) (l : List α) :
    Arranges key l (orderBy (fun a => toLex (key a, t a)) l) where
  perm := orderBy_perm _ l
  sorted := by
    refine (orderBy_pairwise (fun a => toLex (key a, t a)) l).imp fun {a b} hle => ?_
    rcases Prod.Lex.toLex_le_toLex.mp hle with hlt | ⟨heq, -⟩
    · exact hlt.le
    · exact heq.le

/-- Rows whose keys do not decrease may stand in this order: break the ties by `t`. -/
theorem exists_arranges_sublist {τ : Type*} [LinearOrder τ] (t : α → τ) {l r : List α}
    (hsub : r ⊆ l) (hr : r.Pairwise fun a b => key a ≤ key b ∧ t a < t b) :
    ∃ s, Arranges key l s ∧ r.Sublist s := by
  refine ⟨_, arranges_orderBy_lex key t l, ?_⟩
  refine sublist_of_pairwise_lt _ (orderBy_pairwise _ l)
    (fun a ha => (mem_orderBy _).mpr (hsub ha)) ?_
  refine hr.imp fun {a b} ⟨hle, hlt⟩ => ?_
  rcases hle.lt_or_eq with hkey | hkey
  · exact Prod.Lex.toLex_lt_toLex.mpr (.inl hkey)
  · exact Prod.Lex.toLex_lt_toLex.mpr (.inr ⟨hkey, hlt⟩)

/-- The descending order is the ascending one of the dual keys. -/
theorem reverse_orderBy {l : List α} (h : (l.map key).Nodup) :
    (orderBy key l).reverse = orderBy (fun a => OrderDual.toDual (key a)) l := by
  refine eq_orderBy _ ((List.reverse_perm _).trans (orderBy_perm key l)) ?_
  simp only [List.pairwise_reverse, OrderDual.toDual_lt_toDual]
  exact orderBy_pairwise_lt key h

/-- **Two orders of the same rows agree exactly when all comparisons do.** -/
theorem orderBy_eq_orderBy_iff {κ' : Type*} [LinearOrder κ'] (key' : α → κ') {l : List α}
    (h : (l.map key).Nodup) (h' : (l.map key').Nodup) :
    orderBy key l = orderBy key' l ↔ ∀ a ∈ l, ∀ b ∈ l, (key a < key b ↔ key' a < key' b) := by
  constructor
  · intro heq a ha b hb
    have hpair := orderBy_pairwise_lt key h
    have hpair' := orderBy_pairwise_lt key' h'
    rw [← heq] at hpair'
    -- Where the rows stand in the list decides both comparisons.
    have hbefore : (orderBy key l).Pairwise fun a b => key a < key b ↔ key' a < key' b :=
      hpair.imp₂ (fun _ _ hlt hlt' => iff_of_true hlt hlt') hpair'
    have hafter : (orderBy key l).Pairwise fun a b => key b < key a ↔ key' b < key' a :=
      hpair.imp₂ (fun _ _ hlt hlt' => iff_of_false hlt.asymm hlt'.asymm) hpair'
    have hself : ∀ a ∈ orderBy key l, (key a < key a ↔ key' a < key' a) := fun a _ => by simp
    exact hbefore.forall_of_forall_of_flip hself hafter ((mem_orderBy key).mpr ha)
      ((mem_orderBy key).mpr hb)
  · intro hiff
    refine eq_orderBy key' (orderBy_perm key l) ?_
    refine (orderBy_pairwise_lt key h).imp_of_mem fun ha hb hlt => ?_
    exact (hiff _ ((mem_orderBy key).mp ha) _ ((mem_orderBy key).mp hb)).mp hlt

/-- A lookup by a key that no two rows share does not depend on the order of the rows. -/
theorem find?_perm {κ' : Type*} [DecidableEq κ'] {key' : α → κ'} {l l' : List α}
    (h : (l.map key').Nodup) (hperm : l.Perm l') (k : κ') :
    l.find? (fun a => key' a = k) = l'.find? fun a => key' a = k := by
  rcases hfind : l.find? (fun a => key' a = k) with _ | a
  · rw [List.find?_eq_none] at hfind
    exact (List.find?_eq_none.mpr fun a ha => hfind a (hperm.mem_iff.mpr ha)).symm
  · have ha : a ∈ l := List.mem_of_find?_eq_some hfind
    have hkey : key' a = k := by simpa using List.find?_some hfind
    rcases hfind' : l'.find? (fun a => key' a = k) with _ | a'
    · exact absurd (decide_eq_true hkey) (List.find?_eq_none.mp hfind' a (hperm.mem_iff.mp ha))
    · have ha' : a' ∈ l := hperm.mem_iff.mpr (List.mem_of_find?_eq_some hfind')
      have hkey' : key' a' = k := by simpa using List.find?_some hfind'
      rw [List.inj_on_of_nodup_map h ha ha' (hkey.trans hkey'.symm)]

/-! ### Ranks -/

/-- The rank of a row: one more than the number of rows with a smaller key. -/
def rank (l : List α) (a : α) : ℕ := l.countP (fun b => key b < key a) + 1

theorem rank_congr {l₁ l₂ : List α} (h : l₁.Perm l₂) (a : α) : rank key l₁ a = rank key l₂ a := by
  rw [rank, rank, h.countP_eq]

/-- Rows that are changed outside their keys keep their ranks. -/
theorem rank_map {β : Type*} {key' : β → κ} {f : β → α} (h : ∀ b, key (f b) = key' b)
    (l : List β) (b : β) : rank key (l.map f) (f b) = rank key' l b := by
  simp only [rank, List.countP_map, Function.comp_def, h]

private theorem countP_lt_countP {l : List α} {p q : α → Bool} {a : α}
    (hpq : ∀ b ∈ l, p b = true → q b = true) (ha : a ∈ l) (hq : q a = true) (hp : p a = false) :
    l.countP p < l.countP q := by
  induction l with
  | nil => simp at ha
  | cons b l ih =>
    have hle : l.countP p ≤ l.countP q :=
      List.countP_mono_left fun c hc => hpq c (List.mem_cons_of_mem b hc)
    rcases List.mem_cons.mp ha with rfl | ha
    · simp only [List.countP_cons, hp, hq]
      simp only [Bool.false_eq_true, if_false, if_true]
      omega
    · have hlt := ih (fun c hc => hpq c (List.mem_cons_of_mem b hc)) ha
      have hb := hpq b List.mem_cons_self
      simp only [List.countP_cons]
      by_cases hpb : p b = true
      · simp only [hpb, hb hpb, if_true]
        omega
      · rw [if_neg hpb]
        omega

/-- **A rank orders the rows as their keys do.** -/
theorem rank_lt_rank {l : List α} {a b : α} (ha : a ∈ l) :
    rank key l a < rank key l b ↔ key a < key b := by
  constructor
  · intro h
    by_contra hle
    rw [not_lt] at hle
    have hmono : l.countP (fun c => key c < key b) ≤ l.countP (fun c => key c < key a) :=
      List.countP_mono_left fun c _ hc => by
        simp only [decide_eq_true_eq] at hc ⊢
        exact hc.trans_le hle
    simp only [rank] at h
    omega
  · intro h
    have hlt : l.countP (fun c => key c < key a) < l.countP (fun c => key c < key b) :=
      countP_lt_countP (fun c _ hc => by
        simp only [decide_eq_true_eq] at hc ⊢
        exact hc.trans h) ha (by simpa using h) (by simp)
    simp only [rank]
    omega

/-- In a strictly sorted list the rank of a row is its place, counted from one. -/
theorem rank_getElem {s : List α} (hs : s.Pairwise fun a b => key a < key b) {i : ℕ}
    (hi : i < s.length) : rank key s s[i] = i + 1 := by
  have hsplit : s.take i ++ s[i] :: s.drop (i + 1) = s := by
    rw [List.getElem_cons_drop, List.take_append_drop]
  have hpair := hsplit ▸ hs
  rw [List.pairwise_append, List.pairwise_cons] at hpair
  obtain ⟨-, ⟨hafter, -⟩, hbefore⟩ := hpair
  have htake : (s.take i).countP (fun b => key b < key s[i]) = i := by
    rw [List.countP_eq_length.mpr fun b hb => by
      simpa using hbefore b hb s[i] List.mem_cons_self, List.length_take]
    omega
  have hdrop : (s.drop (i + 1)).countP (fun b => key b < key s[i]) = 0 :=
    List.countP_eq_zero.mpr fun b hb => by simpa using (hafter b hb).le
  have hcount : s.countP (fun b => key b < key s[i]) = i := by
    have happ := congrArg (List.countP fun b => decide (key b < key s[i])) hsplit
    rw [List.countP_append, List.countP_cons, htake, hdrop] at happ
    simpa using happ.symm
  rw [rank, hcount]

/-- The sorted rows with their ranks are the sorted rows, numbered from one. -/
theorem map_rank_orderBy {l : List α} (h : (l.map key).Nodup) :
    (orderBy key l).map (fun a => (a, rank key l a)) = (orderBy key l).zipIdx 1 := by
  refine List.ext_getElem (by simp) fun i h₁ h₂ => ?_
  have hi : i < (orderBy key l).length := by simpa using h₁
  have hrank := rank_getElem key (orderBy_pairwise_lt key h) hi
  rw [List.getElem_map, List.getElem_zipIdx, rank_congr key (orderBy_perm key l).symm, hrank,
    Nat.add_comm]

/-- **The ranks of `n` rows with pairwise distinct keys are exactly `1, …, n`.** -/
theorem map_rank_perm {l : List α} (h : (l.map key).Nodup) :
    (l.map (rank key l)).Perm (List.range' 1 l.length) := by
  have hsorted := orderBy_pairwise_lt key h
  have hranks : (orderBy key l).map (rank key (orderBy key l)) = List.range' 1 l.length := by
    refine List.ext_getElem (by simp) fun i h₁ h₂ => ?_
    rw [List.getElem_map, rank_getElem key hsorted (by simpa using h₁), List.getElem_range']
    omega
  have hcongr : (orderBy key l).map (rank key l) =
      (orderBy key l).map (rank key (orderBy key l)) :=
    List.map_congr_left fun a _ => rank_congr key (orderBy_perm key l).symm a
  rw [← hranks, ← hcongr]
  exact ((orderBy_perm key l).map _).symm

/-- **A numbering by `1, …, n` that never contradicts the keys is the rank.** -/
theorem eq_rank {l : List α} {f : α → ℕ} (hf : (l.map f).Perm (List.range' 1 l.length))
    (hlt : ∀ a ∈ l, ∀ b ∈ l, f a < f b → key a < key b) {a : α} (ha : a ∈ l) :
    f a = rank key l a := by
  have hnd : (l.map f).Nodup := hf.nodup_iff.mpr List.nodup_range'
  have hinj : ∀ b ∈ l, f b = f a → b = a := fun b hb heq => List.inj_on_of_nodup_map hnd hb ha heq
  -- The numbers order the list as the keys do: as many are below that of `a` as keys below its key.
  have hiff : ∀ b ∈ l, (decide (f b < f a) = decide (key b < key a)) := by
    intro b hb
    refine decide_eq_decide.mpr ⟨hlt b hb a ha, fun hk => ?_⟩
    rcases lt_trichotomy (f b) (f a) with h | h | h
    · exact h
    · rw [hinj b hb h] at hk
      exact absurd hk (lt_irrefl _)
    · exact absurd (hlt a ha b hb h) hk.le.not_gt
  have hmem : f a ∈ List.range' 1 l.length := hf.mem_iff.mp (List.mem_map_of_mem ha)
  have hrange : ∀ n m : ℕ, m ≤ n → (List.range' 1 n).countP (fun k => decide (k < m + 1)) = m := by
    intro n m hm
    have happ : List.range' 1 n = List.range' 1 m ++ List.range' (1 + m) (n - m) := by
      rw [List.range'_append_1, Nat.add_sub_cancel' hm]
    rw [happ, List.countP_append, List.countP_eq_length.mpr fun k hk => by
        have := (List.mem_range'_1.mp hk).2
        simp only [decide_eq_true_eq]; omega,
      List.countP_eq_zero.mpr fun k hk => by
        have := (List.mem_range'_1.mp hk).1
        simp only [decide_eq_true_eq]; omega]
    simp
  -- Among `1, …, n` exactly `k - 1` numbers are less than `k`.
  have hcount : l.countP (fun b => decide (f b < f a)) = f a - 1 := by
    have hmap : l.countP (fun b => decide (f b < f a)) =
        (l.map f).countP (fun k => decide (k < f a)) := by
      rw [List.countP_map]; rfl
    obtain ⟨hlo, hhi⟩ := List.mem_range'_1.mp hmem
    have hstep := hrange l.length (f a - 1) (by omega)
    rw [hmap, hf.countP_eq]
    rwa [show f a - 1 + 1 = f a by omega] at hstep
  have hkeys : l.countP (fun b => decide (key b < key a)) = f a - 1 := by
    rw [← hcount]
    exact List.countP_congr fun b hb => by rw [hiff b hb]
  obtain ⟨hlo, -⟩ := List.mem_range'_1.mp hmem
  rw [rank, hkeys]
  omega

/-! ### Row numbers -/

/-- `ROW_NUMBER() OVER (ORDER BY key)`: the sorted rows, numbered from one. -/
def rowNumbers (l : List α) : List (α × ℕ) := (orderBy key l).zipIdx 1

/-- **The row number of a row is its rank.** -/
theorem mem_rowNumbers {l : List α} (h : (l.map key).Nodup) {a : α} {n : ℕ} :
    (a, n) ∈ rowNumbers key l ↔ a ∈ l ∧ n = rank key l a := by
  have hsorted := orderBy_pairwise_lt key h
  rw [rowNumbers, List.mk_mem_zipIdx_iff_le_and_getElem?_sub]
  constructor
  · rintro ⟨hn, hget⟩
    obtain ⟨hi, rfl⟩ := List.getElem?_eq_some_iff.mp hget
    refine ⟨(mem_orderBy key).mp (List.getElem_mem hi), ?_⟩
    rw [rank_congr key (orderBy_perm key l).symm, rank_getElem key hsorted hi]
    omega
  · rintro ⟨ha, rfl⟩
    obtain ⟨i, hi, rfl⟩ := List.mem_iff_getElem.mp ((mem_orderBy key).mpr ha)
    rw [rank_congr key (orderBy_perm key l).symm, rank_getElem key hsorted hi]
    exact ⟨by omega, by simp [List.getElem?_eq_getElem hi]⟩

end Ranking
