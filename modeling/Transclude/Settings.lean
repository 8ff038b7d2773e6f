import Transclude.Toml
import Transclude.Content
import Transclude.Tree.Storage

/-!
# Settings

Settings (`MdrefConfig`) are a TOML file in one of three places of a directory. Every key may be
missing; a key that is none of the settings, or a value of another type, is an error. A section may
also be an array, which gives the values of its keys in their order.
-/

namespace Transclude

/-- Settings as a file gives them. -/
structure Settings where
  /-- The extension as it is written. It has more than dots and blanks. -/
  extension : Text
  depthUp : Nat
  depthDown : Depth
  backup : Bool
  /-- Whether missing references, variables and files are errors. -/
  strict : Bool
  includeMode : IncludeMode
  boxLead : Text
  searchFolders : List Text
  includeCwd : Bool
  exclude : List Text
  deriving DecidableEq, Repr

namespace Settings

/-- The extension of documents, unless another is chosen. -/
def defaultExtension : Text := ['m', 'd']

/-- The settings of an empty file. -/
def default : Settings where
  extension := defaultExtension
  depthUp := 0
  depthDown := .unlimited
  backup := false
  strict := true
  includeMode := .raw
  boxLead := Include.defaultLead
  searchFolders := []
  includeCwd := true
  exclude := []

/-! ## Values of single settings -/

/-- A text. -/
def text? : Toml.Value → Option Text
  | .string t => some t
  | _ => none

/-- A truth value. -/
def bool? : Toml.Value → Option Bool
  | .boolean b => some b
  | _ => none

/-- A number of levels to go up. -/
def levels? : Toml.Value → Option Nat
  | .integer n => if 0 ≤ n then some n.toInt.toNat else none
  | _ => none

/-- A number of levels to go down. -/
def depth? : Toml.Value → Option Depth
  | .integer n => (Depth.ofInt64 n).toOption
  | _ => none

/-- A list of texts. -/
def texts? : Toml.Value → Option (List Text)
  | .array _ items => items.mapM text?
  | _ => none

/-- A mode: its word, or a table with the word as its only key and nothing as its value. -/
def mode? : Toml.Value → Option IncludeMode
  | .string word => IncludeMode.ofName? word
  | .table _ [(word, .table _ [])] => IncludeMode.ofName? word
  | .table _ [(word, .array _ [])] => IncludeMode.ofName? word
  | _ => none

/-! ## Sections -/

/-- The entries of a section that has at most these keys. -/
def section? (keys : List String) : Toml.Value → Option (List (Text × Toml.Value))
  | .table _ entries =>
    if entries.all fun e => keys.any fun key => key.toList = e.1 then some entries else none
  | .array _ items => some ((keys.map String.toList).zip items)
  | _ => none

/-- The value of a key, read by `read`; `missing` without one. -/
def field {α : Type} (entries : List (Text × Toml.Value)) (key : String) (missing : α)
    (read : Toml.Value → Option α) : Option α :=
  match entries.lookup key.toList with
  | some v => read v
  | none => some missing

/-- Settings with those of the section on includes. -/
def withInclude (s : Settings) (v : Toml.Value) : Option Settings := do
  let entries ← section? ["mode", "box_prefix", "search_folders", "include_cwd"] v
  let includeMode ← field entries "mode" s.includeMode mode?
  let boxLead ← field entries "box_prefix" s.boxLead text?
  let searchFolders ← field entries "search_folders" s.searchFolders texts?
  let includeCwd ← field entries "include_cwd" s.includeCwd bool?
  return { s with includeMode, boxLead, searchFolders, includeCwd }

/-- Settings with those of the section on exclusion. -/
def withExclude (s : Settings) (v : Toml.Value) : Option Settings := do
  let entries ← section? ["patterns"] v
  let exclude ← field entries "patterns" s.exclude texts?
  return { s with exclude }

/-- The settings in a document's table. -/
def ofTable? (t : Toml.Table) : Option Settings := do
  let entries ← section?
    ["extension", "depth_up", "depth_down", "backup", "error_if_missing", "include", "exclude"]
    t.value
  let extension ← field entries "extension" default.extension text?
  let depthUp ← field entries "depth_up" default.depthUp levels?
  let depthDown ← field entries "depth_down" default.depthDown depth?
  let backup ← field entries "backup" default.backup bool?
  let strict ← field entries "error_if_missing" default.strict bool?
  let s := { default with extension, depthUp, depthDown, backup, strict }
  let s ← field entries "include" s s.withInclude
  field entries "exclude" s s.withExclude

/-! ## Files -/

/-- The settings in a text. -/
def parse (t : Text) : Except Error Settings :=
  match (Toml.Document.ofText? t).bind ofTable? with
  | none => .error (.config .unreadable)
  | some s =>
    if normalizeExtension s.extension = [] then .error (.config .emptyExtension) else .ok s

/-- The places of a settings file in a directory; the first that holds one counts. -/
def places : List Path :=
  [.ofString "mdref.toml", .ofString ".mdref.toml", .ofString ".config/mdref.toml"]

/-- The settings file of a directory. -/
def find? (w : Workspace) (dir : Path) : Option Path := (places.map dir.join).find? w.isFile

/-- The settings of a directory; none if it has no settings file. -/
def load (w : Workspace) (dir : Path) : Except Error (Option Settings) :=
  match find? w dir with
  | none => .ok none
  | some p =>
    match w.readText p with
    | .error fault => .error (.io fault)
    | .ok t => (parse t).map some

end Settings

end Transclude
