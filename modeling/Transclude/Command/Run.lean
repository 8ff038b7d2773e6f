import Transclude.Command.Arguments
import Transclude.Command.Message
import Transclude.Update

/-!
# Running commands

A run takes a workspace to the next and tells what it did (`run_process`, `run_refs`, `run_vars`).
It ends at the first error: what it has told and written until then stays.

The clock is read once, before the run. So all backups of a run have one time stamp in their names,
where the program reads the clock for each of them.
-/

namespace Transclude

/-- Why a run fails. -/
inductive Failure where
  | usage (fault : UsageError)
  | failed (e : Error)
  deriving DecidableEq, Repr

/-- What a run leaves: its output, and the failure that ended it. -/
structure Outcome where
  output : Text
  failure : Option Failure
  deriving DecidableEq, Repr

namespace Outcome

/-- The exit code of the program. -/
def exitCode (o : Outcome) : Nat := if o.failure.isSome then 2 else 0

/-- The code in the report of an error. Faults of the command line have no such report. -/
def diagnostic? (o : Outcome) : Option String :=
  match o.failure with
  | some (.failed e) => some e.code
  | _ => none

end Outcome

/-- The options of a run: those of the settings, changed by those of the command. -/
def ProcessCommand.options (c : ProcessCommand) (settings : Option Settings) : RenderOptions :=
  let o := RenderOptions.ofSettings (settings.getD .default)
  { o with
    backup := o.backup || c.backup
    extension := (c.extension.map normalizeExtension).getD o.extension
    depthUp := c.depthUp.getD o.depthUp
    depthDown := c.depthDown.getD o.depthDown
    strict := o.strict && !c.ignoreMissing }

namespace Command

/-- The answer to a request for the version. -/
def version : String := "mdref_cli 0.3.0\n"

/-- The answer to a request for help. -/
def usage : String :=
  "Usage: mdref [--path DIR] [--verbose] [--no-color] COMMAND\n\n" ++
  "  process FILES...  resolve the directives of files and write them back\n" ++
  "    [--backup] [--dry-run] [--diff] [--ext EXT] [--depth-up N] [--depth-down N]\n" ++
  "    [--ignore-missing]\n" ++
  "  refs DIR          list the references below a directory\n" ++
  "    [--depth N] [--format text|json]\n" ++
  "  vars get FILE NAME | list FILE [--format text|json] | set FILE NAME VALUE | del FILE NAME\n"

/-! ## Rendering files -/

/-- What is told about a file before it is written. -/
def preview (w : Workspace) (c : ProcessCommand) (o : RenderOptions) (file : Path) :
    Except Error (List Message) := do
  if !c.dryRun && !c.diff then return []
  let d ← w.read file
  let r ← Render.file w file o
  if r.text = d.text then return if c.dryRun then [.upToDate file] else []
  return (if c.dryRun then [.wouldUpdate file] else []) ++
    (if c.diff then [.changes (Diff.compare d.text r.text)] else [])

/-- What is told about an update. -/
def updateMessages (verbose : Bool) (file : Path) (r : UpdateReport) : List Message :=
  if r.changed then
    match r.backup with
    | some backup => if verbose then [.updatedWithBackup file backup] else [.updated file]
    | none => [.updated file]
  else if verbose then [.upToDate file]
  else []

/-- Processes one file: what is told about it, and whether it was changed. -/
def processFile (w : Workspace) (c : ProcessCommand) (o : RenderOptions) (verbose : Bool)
    (stamp : Text) (file : Path) : List Message × Except Error Bool × Workspace :=
  match preview w c o file with
  | .error e => ([], .error e, w)
  | .ok shown =>
    if c.dryRun then (shown, .ok false, w)
    else
      match Update.file w file o stamp with
      | (.error e, w) => (shown, .error e, w)
      | (.ok r, w) => (shown ++ updateMessages verbose file r, .ok r.changed, w)

/-- Processes files one after the other. `updated` of those before were changed. -/
def processFiles (w : Workspace) (c : ProcessCommand) (o : RenderOptions) (verbose : Bool)
    (stamp : Text) (updated : Nat) : List Path → List Message × Option Error × Workspace
  | [] =>
    let summary : Message := if updated = 0 then .allUpToDate else .updateCount updated
    (if c.dryRun then [] else [summary], none, w)
  | file :: files =>
    match processFile w c o verbose stamp file with
    | (shown, .error e, w) => (shown, some e, w)
    | (shown, .ok changed, w) =>
      let (more, e?, w) :=
        processFiles w c o verbose stamp (if changed then updated + 1 else updated) files
      (shown ++ more, e?, w)

/-! ## References and variables -/

/-- The references below a directory. -/
def listReferences (w : Workspace) (settings : Option Settings) (dir : Path) (depth : Option Depth)
    (format : OutputFormat) : Except Error Message := do
  let o := RenderOptions.ofSettings (settings.getD .default)
  let refs ← Scan.refs w dir (depth.getD o.depthDown) o.scan .empty
  return match format with
    | .text => .refs refs
    | .json => .json refs

/-- Writes a document again with another text. -/
def writeText (w : Workspace) (file : Path) (d : Document) (t : Text) (told : Message) :
    Except Error Message × Workspace :=
  match w.write file { d with text := t } with
  | (.ok (), w) => (.ok told, w)
  | (.error e, w) => (.error e, w)

/-- Reads or changes the variables of a file. -/
def useVariables (w : Workspace) (file : Path) (c : VariableCommand) :
    Except Error Message × Workspace :=
  match w.read file with
  | .error e => (.error e, w)
  | .ok d =>
    match c with
    | .get name =>
      match Variables.get? d.text name with
      | some value => (.ok (.value value), w)
      | none => (.error (.unresolvedKey .var name), w)
    | .list format =>
      let told (vars : Bindings) : Message :=
        match format with
        | .text => .vars vars
        | .json => .json vars
      ((Variables.collect d.text .empty).map told, w)
    | .set name value =>
      match Variables.set d.text name value with
      | .error e => (.error e, w)
      | .ok t =>
        if t = d.text then (.ok (.variableSet name file), w)
        else writeText w file d t (.variableSet name file)
    | .delete name =>
      match Variables.erase d.text name with
      | .error e => (.error e, w)
      | .ok t =>
        if t = d.text then (.ok (.variableMissing name file), w)
        else writeText w file d t (.variableDeleted name file)

/-! ## Runs -/

/-- What a command tells, the error that ends it, and the workspace that it leaves. -/
def perform (w : Workspace) (stamp : Text) (i : Invocation) :
    List Message × Option Error × Workspace :=
  let settings := Settings.load w (i.settingsPath.getD w.currentPath)
  let told (m : Except Error Message) (w : Workspace) : List Message × Option Error × Workspace :=
    match m with
    | .ok m => ([m], none, w)
    | .error e => ([], some e, w)
  match i.command with
  | .process c =>
    match settings with
    | .error e => ([], some e, w)
    | .ok settings => processFiles w c (c.options settings) i.verbose stamp 0 c.files
  | .refs dir depth format =>
    match settings with
    | .error e => ([], some e, w)
    | .ok settings => told (listReferences w settings dir depth format) w
  | .vars file c =>
    let (m, w) := useVariables w file c
    told m w

/-- Runs the program with its arguments. Output has no colors if `noColor` is set or an option
says so; backups get the time stamp `stamp`. -/
def run (w : Workspace) (stamp : Text) (noColor : Bool) (args : List Text) : Outcome × Workspace :=
  match Invocation.ofArguments args with
  | .error .help => (⟨usage.toList, none⟩, w)
  | .error .version => (⟨version.toList, none⟩, w)
  | .error (.refused fault) => (⟨[], some (.usage fault)⟩, w)
  | .ok i =>
    let color := !noColor && !i.noColor
    let (shown, e?, w) := perform w stamp i
    (⟨shown.flatMap (Message.text color), e?.map .failed⟩, w)

end Command

end Transclude
