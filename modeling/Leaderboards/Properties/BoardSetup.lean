import Leaderboards.Transactions.SingleClient

/-!
# The configuration of board rows

`Board.WellConfigured` collects the rules that tie the fields of a board row together. The `CHECK`
constraints guarantee most of them for every row. The other two, on the direction of a board that
is not scored and on the tiers of a tiered board, are up to the validation of the requests:
`boards::create` establishes them (`setup_of_validateCreate`), `boards::update` keeps them
(`setup_of_validateUpdate`), and `import_board` checks neither. So all rows follow the rules in
every run whose accepted imports do (`board_configuration`).
-/

namespace Leaderboards

variable {faulty : Prop}

/-- The rules of the configuration of a board row. -/
structure Board.WellConfigured (b : Board) : Prop where
  boardType : b.boardType = "ordered" ∨ b.boardType = "scored" ∨ b.boardType = "tiered"
  direction : b.sortDirection = "asc" ∨ b.sortDirection = "desc"
  direction_desc : b.boardType ≠ "scored" → b.sortDirection = "desc"
  accumulative : b.accumulative = true → b.boardType = "scored"
  realtime : b.realtime = true → b.accumulative = true
  clear_on_snapshot : b.clearOnSnapshot = true → b.realtime = true
  tiers : b.boardType = "tiered" → validateTierConfig b.tierConfig = .ok ()

/-- The two rules that no constraint of the tables enforces. -/
def Setup (boardType sortDirection : String) (tierConfig : Option Json) : Prop :=
  (boardType ≠ "scored" → sortDirection = "desc") ∧
    (boardType = "tiered" → validateTierConfig tierConfig = .ok ())

/-- A board row follows all rules when it passes the constraints and those two. -/
theorem Board.wellConfigured_iff {b : Board} (hchecks : b.checks) :
    b.WellConfigured ↔ Setup b.boardType b.sortDirection b.tierConfig := by
  obtain ⟨htype, hdirection, haccumulative, hrealtime, hclear⟩ := hchecks
  constructor
  · exact fun h => ⟨h.direction_desc, h.tiers⟩
  · rintro ⟨hdesc, htiers⟩
    exact ⟨htype, hdirection, hdesc, haccumulative, fun h => (hrealtime h).1, hclear, htiers⟩

/-! ### The entry points -/

/-- `boards::create` establishes the two rules. -/
theorem setup_of_validateCreate (input : CreateBoard) (h : Boards.validateCreate input = .ok ()) :
    Setup input.boardType input.sortDirection input.tierConfig := by
  simp only [Boards.validateCreate, Interaction.Prog.except_bind_ok] at h
  obtain ⟨_, -, _, -, _, -, _, -, hrest⟩ := h
  by_cases htiered : input.boardType = "tiered"
  · rw [if_pos htiered, Interaction.Prog.except_bind_ok] at hrest
    obtain ⟨_, htiers, hrest⟩ := hrest
    rw [Interaction.Prog.except_bind_ok] at hrest
    obtain ⟨_, -, hrest⟩ := hrest
    refine ⟨fun hne => ?_, fun _ => htiers⟩
    by_contra hdesc
    simp [hne, hdesc] at hrest
  · rw [if_neg htiered] at hrest
    simp only [Interaction.Prog.except_bind_ok] at hrest
    obtain ⟨_, -, hrest⟩ := hrest
    refine ⟨fun hne => ?_, fun ht => absurd ht htiered⟩
    by_contra hdesc
    simp [hne, hdesc] at hrest

/-- `boards::update` keeps them: a direction is refused on a board that is not scored, and the
tiers of a tiered board can be left alone or replaced by valid ones. -/
theorem setup_of_validateUpdate (b : Board) (input : UpdateBoard)
    (hold : Setup b.boardType b.sortDirection b.tierConfig)
    (h : Boards.validateUpdate b input = .ok ()) :
    Setup b.boardType (input.sortDirection.getD b.sortDirection)
      (input.tierConfig.apply b.tierConfig) := by
  obtain ⟨hdesc, htiers⟩ := hold
  simp only [Boards.validateUpdate] at h
  split at h
  · cases h
  · rename_i hdirection
    refine ⟨fun hne => ?_, fun htiered => ?_⟩
    · rw [not_and, Decidable.not_not] at hdirection
      have hnone : input.sortDirection = none := by
        by_contra hsome
        exact hne (hdirection (Option.isSome_iff_ne_none.mpr hsome))
      rw [hnone]
      exact hdesc hne
    · rw [if_pos htiered] at h
      unfold Nullable.apply
      split at h
      · rename_i v hv
        rw [hv]
        simp only [Interaction.Prog.except_bind_ok] at h
        obtain ⟨⟨⟩, hvalid, -⟩ := h
        exact hvalid
      · cases h
      · rename_i habsent
        rw [habsent]
        exact htiers htiered

/-- Every accepted import follows the two rules. -/
@[simps] def configured : Policy where
  setup := Setup
  setup_create := setup_of_validateCreate
  setup_update := setup_of_validateUpdate

/-- **An accepted document follows the rules exactly when the row it inserts does.** -/
theorem wellConfigured_import {u : Uuid} {now : Timestamp} {db : Database} {doc : BoardExport}
    {b : Board} {ws : List RowWrite}
    (h : exec u now (.insertBoard (Export.createBoardOf doc.board)) db = .ok (b, ws)) :
    b.WellConfigured ↔
      Setup doc.board.boardType doc.board.sortDirection doc.board.tierConfig := by
  obtain ⟨-, hchecks, -, -, hb⟩ := execInsertBoard_ok h
  rw [Board.wellConfigured_iff hchecks, hb]
  rfl

/-! ### All rows -/

/-- **The board configuration invariant.** In every run whose accepted imports follow the two
rules, every board row in every reachable state is well configured. -/
theorem board_configuration {g : System faulty} (hg : System.Reachable configured g) :
    ∀ b ∈ g.servers.db.boards, b.WellConfigured := by
  intro b hb
  have hsetup : Setup b.boardType b.sortDirection b.tierConfig := (hg.inv.config b hb).2
  exact (Board.wellConfigured_iff (hg.inv.schema.board_checks b hb)).mpr hsetup

/-- The iteration order that keeps the items in place. -/
def inOrder : Export.HashOrder := ⟨id, fun l => .refl l⟩

/-- A document of a tiered board without versions. -/
def tieredDocument (sortDirection : String) (tierConfig : Option Json) : BoardExport where
  board := { slug := "t", name := "T", boardType := "tiered", sortDirection := sortDirection
             tierConfig := tierConfig, metadata := none, accumulative := false, realtime := false
             clearOnSnapshot := false }
  versions := []

/-- The configuration with one tier. -/
def oneTier (key : String) : Json :=
  .obj [("tiers", .arr [.obj [("key", .str key), ("position", .int 1)]])]

set_option maxRecDepth 10000 in
/-- A run that imports a tiered board, creates a scored one, and changes both. -/
theorem board_configuration_run : ∃ g : System False, System.Reachable configured g ∧
    g.servers.db.boards.map Board.sortDirection = ["desc", "asc"] ∧
      ∀ b ∈ g.servers.db.boards, b.WellConfigured := by
  obtain ⟨g, hg, hrest⟩ := reachable_serveAll (P := configured) counting False
    [.importBoard inOrder (tieredDocument "desc" (some (oneTier "s"))),
      .createBoard { slug := "b", name := "B", boardType := "scored" },
      .updateBoard "t" { tierConfig := .value (oneTier "a") },
      .updateBoard "b" { sortDirection := some "asc" }] (by
    simp only [List.forall_mem_cons]
    refine ⟨fun _ _ => ⟨⟨trivial, fun _ => rfl, fun _ => rfl⟩, fun h => h.elim⟩, fun _ => trivial,
      trivial, trivial, by simp⟩)
  refine ⟨g, hg, ?_, board_configuration hg⟩
  rw [hrest.servers]
  decide

set_option maxRecDepth 10000 in
/-- An accepted import stores a tiered board with a direction and without tiers. -/
theorem board_configuration_fails : ∃ g : System False, System.Reachable {} g ∧
    ∃ b ∈ g.servers.db.boards, ¬b.WellConfigured := by
  obtain ⟨g, hg, hrest⟩ := reachable_serveAll (P := {}) counting False
    [.importBoard inOrder (tieredDocument "asc" none)] fun r _ => r.respects_default
  have hrow : ∃ b ∈ g.servers.db.boards, b.boardType = "tiered" ∧ b.sortDirection = "asc" := by
    rw [hrest.servers]
    decide
  obtain ⟨b, hb, htiered, hasc⟩ := hrow
  refine ⟨g, hg, b, hb, fun h => ?_⟩
  have hdesc := h.direction_desc (by rw [htiered]; decide)
  rw [hasc] at hdesc
  exact absurd hdesc (by decide)

end Leaderboards
