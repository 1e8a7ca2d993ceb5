import Leaderboards.Library.Reader
import Leaderboards.Repo.Validation
import Leaderboards.Sync.Parse
import Mathlib.Data.List.Sort

/-!
# `sync/parse.rs`: reading board directories

`parse_boards_dir` and `parse_board_dir` are programs over the calls of `std::fs` that they make.
The TOML parser and the display of a path come from outside. Paths are relative to the directory
that is synced.

A `Tree` is what the directory contains, and `Tree.Answers` how the calls answer while it stays the
same. `Tree.boards` says what a tree stands for: the boards of its directories, in the order of
their names. **`yields_parseBoardsDir`**: that is what is parsed, in whichever order `read_dir`
lists the directories.
-/

namespace Leaderboards

open Interaction

/-- `OsString`: any bytes. -/
abbrev OsString := List UInt8

/-- A name in the source. -/
def osString (s : String) : OsString := s.toUTF8.toList

/-- `OsStr::to_str`. -/
def OsString.toStr (name : OsString) : Option String := String.fromUTF8? name.toByteArray

/-- A path below the directory that is synced; the directory itself is the empty path. -/
abbrev Path := List OsString

/-- Calls of `std::fs` and `std::path`. -/
inductive FileCall
  | isDir (path : Path)
  | pathExists (path : Path)
  /-- The names of the entries that can be read. -/
  | readDir (path : Path)
  | readToString (path : Path)

/-- The calls with their results. An error comes with its text. -/
def Files : Signature where
  Cmd := FileCall
  Res
    | .isDir _ => Bool
    | .pathExists _ => Bool
    | .readDir _ => Except String (List OsString)
    | .readToString _ => Except String String

/-- Parsed `rankings.toml`. -/
structure RankingsToml where
  entries : List EntryToml := []
  versionMetadata : Option Toml := none

/-- `toml::from_str` at the two types it is used at. -/
structure TomlParser where
  board : String → Except String BoardToml
  rankings : String → Except String RankingsToml

/-! ### The functions -/

section

variable (toml : TomlParser) (display : Path → String)

/-- `read_to_string` with the error of a file that cannot be read. -/
def readFile (path : Path) : Prog Files Error String :=
  .op (S := Files) (.readToString path) fun
    | .ok s => .ret s
    | .error e => .fail (.validation s!"failed to read {display path}: {e}")

/-- The result of the TOML parser, with the error of a file that cannot be parsed. -/
def parsedFile {α : Type} (path : Path) (x : Except String α) : Except Error α :=
  x.mapError fun e => .validation s!"failed to parse {display path}: {e}"

/-- The part of `parse_board_dir` that reads `rankings.toml`, if there is one. -/
def readRankings (path : Path) : Prog Files Error (List EntryToml × Option Json) :=
  .op (S := Files) (.pathExists path) fun
    | true => do
      let text ← readFile display path
      let rankings ← .ofExcept (parsedFile display path (toml.rankings text))
      .ret (rankings.entries, rankings.versionMetadata.map tomlToJson)
    | false => .ret ([], none)

/-- The name of a directory, as text. -/
def dirName (dir : Path) : Except Error String :=
  match dir.getLast?.bind OsString.toStr with
  | some slug => .ok slug
  | none => .error (.validation s!"invalid board directory: {display dir}")

/-- `parse_board_dir`. -/
def parseBoardDir (dir : Path) : Prog Files Error ParsedBoard := do
  let slug ← .ofExcept (dirName display dir)
  .ofExcept (validateSlug slug)
  let boardPath := dir ++ [osString "board.toml"]
  let text ← readFile display boardPath
  let board ← .ofExcept (parsedFile display boardPath (toml.board text))
  let (entries, versionMetadata) ←
    readRankings toml display (dir ++ [osString "rankings.toml"])
  .ret { slug, board, entries, versionMetadata }

/-- The body of the loop of `parse_boards_dir`. A directory that cannot be parsed is skipped. -/
def parseEntry (name : OsString) : Prog Files Error (Option ParsedBoard) :=
  .op (S := Files) (.isDir [name]) fun
    | false => .ret none
    | true => .op (S := Files) (.pathExists [name, osString "board.toml"]) fun
      | false => .ret none
      | true => do
        let parsed ← (parseBoardDir toml display [name]).attempt
        .ret parsed.toOption

/-- `parse_boards_dir` of the directory that is synced. -/
def parseBoardsDir : Prog Files Error (List ParsedBoard) :=
  .op (S := Files) (.isDir []) fun
    | false => .fail (.validation s!"{display []} is not a directory")
    | true => .op (S := Files) (.readDir []) fun
      | .error e => .fail (.validation s!"failed to read directory {display []}: {e}")
      | .ok names => do
        let boards ← .collect (names.insertionSort (· ≤ ·)) (parseEntry toml display)
        .ret boards.reduceOption

end

/-! ### Trees -/

/-- The files of a directory: their paths and their texts. Of a file that is no text there is
`none`. -/
abbrev Tree := List (Path × Option String)

namespace Tree

variable (tree : Tree)

def isFile (path : Path) : Bool := tree.any fun f => f.1 = path

/-- A directory contains a file somewhere; the directory that is synced is always there. -/
def isDir (path : Path) : Bool := path = [] ∨ tree.any fun f => path.isPrefixOf f.1 ∧ f.1 ≠ path

def pathExists (path : Path) : Bool := tree.isFile path ∨ tree.isDir path

/-- The text of a file. -/
def read (path : Path) : Option String := (tree.find? fun f => f.1 = path).bind Prod.snd

/-- The names in a directory. -/
def names (path : Path) : List OsString :=
  (tree.filterMap fun f => if path.isPrefixOf f.1 then (f.1.drop path.length).head? else none).dedup

/-- How the calls answer. The order of `read_dir` is not specified. -/
def Answers : (c : Files.Cmd) → Files.Res c → Prop
  | .isDir path, r => r = tree.isDir path
  | .pathExists path, r => r = tree.pathExists path
  | .readDir path, r => tree.isDir path = true → ∃ names, r = .ok names ∧
    names.Perm (tree.names path)
  | .readToString path, r => match tree.read path with
    | some text => r = .ok text
    | none => ∃ e, r = .error e

variable (toml : TomlParser)

/-- The rankings in a directory. -/
def rankings? (name : OsString) : Option (List EntryToml × Option Json) :=
  if tree.pathExists [name, osString "rankings.toml"] then do
    let text ← tree.read [name, osString "rankings.toml"]
    let rankings ← (toml.rankings text).toOption
    some (rankings.entries, rankings.versionMetadata.map tomlToJson)
  else some ([], none)

/-- The board in a directory, if its name is a slug and its files can be read and parsed. -/
def board? (name : OsString) : Option ParsedBoard := do
  let slug ← name.toStr
  let () ← (validateSlug slug).toOption
  let text ← tree.read [name, osString "board.toml"]
  let board ← (toml.board text).toOption
  let (entries, versionMetadata) ← tree.rankings? toml name
  some { slug, board, entries, versionMetadata }

/-- **The boards of a tree**, in the order of the names of their directories. -/
def boards : List ParsedBoard :=
  ((tree.names []).insertionSort (· ≤ ·)).filterMap (tree.board? toml)

variable {tree toml} {display : Path → String} {α β : Type}

/-! ### What is parsed -/

/-- While the tree stays as it is, a program has only this outcome, up to the texts of errors. -/
def Gives (tree : Tree) (p : Prog Files Error α) (o : Option α) : Prop :=
  ∀ x, p.Yields tree.Answers x → x.toOption = o

theorem Gives.eq {p : Prog Files Error α} {o : Option α} {x : Except Error α}
    (hx : p.Yields tree.Answers x) (h : tree.Gives p o) : x.toOption = o := h x hx

theorem gives_ret {a : α} : tree.Gives (.ret a) (some a) := by
  rintro x rfl
  rfl

theorem gives_bind {p : Prog Files Error α} {o : Option α} {f : α → Prog Files Error β}
    {φ : α → Option β} (hp : tree.Gives p o) (hf : ∀ a, tree.Gives (f a) (φ a)) :
    tree.Gives (p >>= f) (o.bind φ) := by
  intro x hx
  rcases Prog.yields_bind.mp hx with ⟨e, rfl, he⟩ | ⟨a, ha, hx⟩
  · obtain rfl : none = o := hp _ he
    rfl
  · obtain rfl : some a = o := hp _ ha
    exact hf a x hx

theorem gives_ofExcept {y : Except Error α} : tree.Gives (.ofExcept y) y.toOption := by
  intro x hx
  cases y with
  | ok a => exact congrArg Except.toOption hx
  | error e => exact congrArg Except.toOption hx

theorem gives_readFile {path : Path} : tree.Gives (readFile display path) (tree.read path) := by
  rintro x ⟨r, hr, hx⟩
  simp only [Answers] at hr
  split at hr
  · rename_i text htext
    subst hr
    rw [htext]
    exact congrArg Except.toOption hx
  · rename_i hnone
    obtain ⟨e, rfl⟩ := hr
    rw [hnone]
    exact congrArg Except.toOption hx

@[simp] theorem toOption_parsedFile {path : Path} (x : Except String α) :
    (parsedFile display path x).toOption = x.toOption := by
  cases x with
  | ok a => rfl
  | error e => rfl

theorem gives_readRankings {name : OsString} :
    tree.Gives (readRankings toml display [name, osString "rankings.toml"])
      (tree.rankings? toml name) := by
  rintro x ⟨r, rfl, hx⟩
  unfold rankings?
  cases hexists : tree.pathExists [name, osString "rankings.toml"] with
  | true =>
    rw [hexists] at hx
    refine (Gives.eq hx <| gives_bind gives_readFile fun text =>
      gives_bind gives_ofExcept fun rankings => gives_ret).trans ?_
    simp only [toOption_parsedFile]
    rfl
  | false =>
    rw [hexists] at hx
    obtain rfl := hx
    rfl

theorem toOption_dirName {name : OsString} : (dirName display [name]).toOption = name.toStr := by
  unfold dirName
  cases hname : OsString.toStr name with
  | some slug => simp [hname, Except.toOption]
  | none => simp [hname, Except.toOption]

theorem gives_parseBoardDir {name : OsString} :
    tree.Gives (parseBoardDir toml display [name]) (tree.board? toml name) := by
  intro x hx
  refine (Gives.eq hx <| gives_bind gives_ofExcept fun slug =>
    gives_bind gives_ofExcept fun _ => gives_bind gives_readFile fun text =>
      gives_bind gives_ofExcept fun board => gives_bind gives_readRankings fun r =>
        gives_ret).trans ?_
  simp only [toOption_parsedFile, toOption_dirName]
  rfl

/-- A directory with a readable `board.toml` is one of the directories that are looked into. -/
theorem exists_of_read {name : OsString} {text : String}
    (h : tree.read [name, osString "board.toml"] = some text) :
    tree.isDir [name] = true ∧ tree.pathExists [name, osString "board.toml"] = true := by
  obtain ⟨f, hfind, -⟩ := Option.bind_eq_some_iff.mp h
  have hmem : f ∈ tree := List.mem_of_find?_eq_some hfind
  have hpath : f.1 = [name, osString "board.toml"] := by simpa using List.find?_some hfind
  constructor
  · have hany : ∃ f ∈ tree, [name].isPrefixOf f.1 ∧ f.1 ≠ [name] :=
      ⟨f, hmem, by simp [hpath], by simp [hpath]⟩
    simpa [isDir] using hany
  · have hany : ∃ f ∈ tree, f.1 = [name, osString "board.toml"] := ⟨f, hmem, hpath⟩
    exact decide_eq_true (.inl (by simpa [isFile] using hany))

theorem board?_eq_none {name : OsString} (h : tree.read [name, osString "board.toml"] = none) :
    tree.board? toml name = none := by
  simp [board?, h]

theorem yields_parseEntry {name : OsString} {x : Except Error (Option ParsedBoard)}
    (hx : (parseEntry toml display name).Yields tree.Answers x) :
    x = .ok (tree.board? toml name) := by
  -- Without a directory or without a `board.toml` there is no board under the name.
  have hskip : ¬(tree.isDir [name] = true ∧ tree.pathExists [name, osString "board.toml"] = true) →
      tree.board? toml name = none := by
    intro hnot
    cases hread : tree.read [name, osString "board.toml"] with
    | none => exact board?_eq_none hread
    | some text => exact absurd (exists_of_read hread) hnot
  obtain ⟨r, rfl, hx⟩ := hx
  cases hdir : tree.isDir [name] with
  | false =>
    rw [hdir] at hx
    rw [hskip fun h => by simp [hdir] at h]
    exact hx
  | true =>
    rw [hdir] at hx
    obtain ⟨r, rfl, hx⟩ := hx
    cases hexists : tree.pathExists [name, osString "board.toml"] with
    | false =>
      rw [hexists] at hx
      rw [hskip fun h => by simp [hexists] at h]
      exact hx
    | true =>
      rw [hexists] at hx
      rcases Prog.yields_bind.mp hx with ⟨e, -, he⟩ | ⟨y, hy, hx⟩
      · obtain ⟨x', heq, -⟩ := Prog.yields_attempt.mp he
        simp at heq
      · obtain ⟨x', heq, hx'⟩ := Prog.yields_attempt.mp hy
        obtain rfl := Except.ok.inj heq
        rw [← gives_parseBoardDir _ hx']
        exact hx

/-- **What is parsed while a tree stays as it is**: its boards. -/
theorem yields_parseBoardsDir {x : Except Error (List ParsedBoard)}
    (hx : (parseBoardsDir toml display).Yields tree.Answers x) : x = .ok (tree.boards toml) := by
  obtain ⟨r, rfl, hx⟩ := hx
  have hroot : tree.isDir [] = true := by simp [isDir]
  rw [hroot] at hx
  obtain ⟨r, hr, hx⟩ := hx
  obtain ⟨names, rfl, hperm⟩ := hr hroot
  -- whichever order the names came in, sorted they are the same
  have hsorted : names.insertionSort (· ≤ ·) = (tree.names []).insertionSort (· ≤ ·) := by
    have htotal : Std.Total fun a b : OsString => a ≤ b := ⟨List.le_total⟩
    have htrans : IsTrans OsString fun a b => a ≤ b := ⟨fun _ _ _ => List.le_trans⟩
    have hperm' : (names.insertionSort (· ≤ ·)).Perm ((tree.names []).insertionSort (· ≤ ·)) :=
      (List.perm_insertionSort _ _).trans (hperm.trans (List.perm_insertionSort _ _).symm)
    refine hperm'.eq_of_pairwise ?_ (List.pairwise_insertionSort _ _)
      (List.pairwise_insertionSort _ _)
    intro a b _ _ hab hba
    exact List.le_antisymm hab hba
  rcases Prog.yields_bind.mp hx with ⟨e, -, he⟩ | ⟨bs, hbs, hx⟩
  · exact absurd (Prog.yields_collect (fun name _ x => yields_parseEntry) he) (by simp)
  · obtain rfl := Except.ok.inj (Prog.yields_collect (fun name _ x => yields_parseEntry) hbs)
    have hreduce : (((tree.names []).insertionSort (· ≤ ·)).map (tree.board? toml)).reduceOption =
        tree.boards toml := List.filterMap_map
    rw [show x = _ from hx, hsorted, hreduce]

end Tree

end Leaderboards
