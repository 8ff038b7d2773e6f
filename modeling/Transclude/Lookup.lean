import Transclude.Tree.Storage

/-!
# Looking files up

A file is looked for along several ways (`find_file`): from every starting directory, in that
directory and in the directories above it, under every one of some relative paths. The first entry
that is accepted counts (`Lookup.find`).

Included files are looked up by name below given folders, and last below the current directory
(`Lookup.includedText`, the program's `get_file_content_to_include`). Such a name must not lead out
of a folder: it is refused before anything is looked up if it is blank, starts at the root, or has a
part `..` (`Lookup.IsContained`).

Main statements:
- `Lookup.checkIncludeName_cases`: the check of a name passes exactly those that may be included.
- `Lookup.exists_cause_of_not_contained`: the others are refused, whatever files there are.
-/

namespace Transclude

namespace Lookup

/-- The directory `level` levels above another, as its spelling has it. -/
def above (start : Path) : (level : Nat) → Path
  | 0 => start
  | level + 1 => (above start level).entry [Path.point, Path.point]

/-- The places to look at, in order: from every start, at every level, under every relative path. -/
def candidates (starts relatives : List Path) (maxUp : Nat) (name : Text) : List Path :=
  starts.flatMap fun start =>
    (List.range (maxUp + 1)).flatMap fun level =>
      relatives.map fun relative => ((above start level).join relative).entry name.bytes

/-- The first candidate that is accepted. With no relative paths the directories themselves are
searched. -/
def find (accept : Path → Bool) (name : Text) (starts relatives : List Path) (maxUp : Nat) :
    Except Error Path :=
  if Text.allBlank name then .error (.validation .emptyFileName)
  else
    match relatives.find? Path.isRooted with
    | some p => .error (.validation (.rootedSearchPath p.text))
    | none =>
      let relatives := if relatives = [] then [Path.empty] else relatives
      match (candidates starts relatives maxUp name).find? accept with
      | some p => .ok p
      | none => .error (.notFound name)

/-- Refuses a name that is blank or could lead out of a folder. -/
def checkIncludeName (name : Text) : Except Error Unit :=
  if Text.allBlank name then .error (.validation .emptyIncludeName)
  else if Path.isRooted (.ofText name) then .error (.validation (.rootedInclude name))
  else if Path.climbs (.ofText name) then .error (.validation (.climbingInclude name))
  else .ok ()

/-- The content of an included file: the first file with this name below one of the folders, or
below the current directory. -/
def includedText (w : Workspace) (name : Text) (folders : List Path) (includeCwd : Bool) :
    Except Error Text := do
  checkIncludeName name
  let starts := folders ++ (if includeCwd then [w.currentPath] else [])
  let p ← find w.isFile name starts [] 0
  let d ← w.read p
  return d.text

/-! ## Names that may be included -/

/-- Whether a name may be included: it is not blank, does not start at the root, and `..` stands
nowhere between its slashes. -/
def IsContained (name : Text) : Prop :=
  (∃ c ∈ name, isBlank c = false) ∧ name.head? ≠ some '/' ∧ ['.', '.'] ∉ name.splitOn '/'

/-- A name starts at the root (`Path.isRooted`) exactly if its first character is a slash. -/
theorem isRooted_eq_false_iff {name : Text} :
    Path.isRooted (.ofText name) = false ↔ name.head? ≠ some '/' := by
  rw [Path.isRooted, decide_eq_false_iff_not]
  exact not_congr (Text.head?_bytes_iff (d := '/') (by decide))

/-- A name climbs exactly if `..` is one of its parts between slashes. -/
theorem climbs_eq_false_iff {name : Text} :
    Path.climbs (.ofText name) = false ↔ ['.', '.'] ∉ name.splitOn '/' := by
  have hsegments : (Path.ofText name).segments = (name.splitOn '/').map Text.bytes :=
    Text.splitOn_bytes (d := '/') (by decide) name
  rw [← Bool.not_eq_true, Path.climbs_eq_true_iff, hsegments]
  refine not_congr ⟨fun h => ?_, fun h => List.mem_map_of_mem h⟩
  obtain ⟨s, hs, heq⟩ := List.mem_map.1 h
  have hdots : s = ['.', '.'] := Text.bytes_injective heq
  rwa [hdots] at hs

/-- A name that may be included (`IsContained`) is told by three tests, and these are the ones that
`checkIncludeName` makes, in this order. -/
theorem isContained_iff {name : Text} :
    IsContained name ↔ Text.allBlank name = false ∧ Path.isRooted (.ofText name) = false ∧
      Path.climbs (.ofText name) = false := by
  rw [Text.allBlank_eq_false_iff, isRooted_eq_false_iff, climbs_eq_false_iff, IsContained]

instance (name : Text) : Decidable (IsContained name) := decidable_of_iff' _ isContained_iff

/-- The check of a name passes exactly those that are `IsContained`, and for any other it gives one
of three errors. Two of them show the name. -/
theorem checkIncludeName_cases (name : Text) :
    (IsContained name ∧ checkIncludeName name = .ok ()) ∨
      ¬IsContained name ∧ ∃ cause ∈ [.emptyIncludeName, .rootedInclude name, .climbingInclude name],
        checkIncludeName name = .error (.validation cause) := by
  rw [isContained_iff]
  unfold checkIncludeName
  cases Text.allBlank name with
  | true => exact .inr ⟨by simp, _, by simp, rfl⟩
  | false =>
    cases Path.isRooted (.ofText name) with
    | true => exact .inr ⟨by simp, .rootedInclude name, by simp, rfl⟩
    | false =>
      cases Path.climbs (.ofText name) with
      | true => exact .inr ⟨by simp, .climbingInclude name, by simp, rfl⟩
      | false => exact .inl ⟨by simp, rfl⟩

/-- A name that may not be included is refused before any file is looked at: the error is the same
in every workspace `w`, for all folders. -/
theorem exists_cause_of_not_contained {name : Text} (hname : ¬IsContained name) :
    ∃ cause ∈ [.emptyIncludeName, .rootedInclude name, .climbingInclude name],
      ∀ w folders includeCwd,
        includedText w name folders includeCwd = .error (.validation cause) := by
  obtain ⟨cause, hcause, hcheck⟩ := ((checkIncludeName_cases name).resolve_left
    fun h => hname h.1).2
  refine ⟨cause, hcause, fun w folders includeCwd => ?_⟩
  rw [includedText, hcheck]
  rfl

end Lookup

end Transclude
