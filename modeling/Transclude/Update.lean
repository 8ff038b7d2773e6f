import Transclude.Settings
import Transclude.Tree.Backup
import Transclude.Lookup
import Transclude.Scan

/-!
# Rendering and updating files

A document is rendered in three steps (`render_file`): its include markers give way to files, its
variable blocks show the variables of its scope, and its inclusion blocks the references of its
scope. Each step works on the text that the step before has left, while the scans read the files as
they are. Rendering reads a workspace and does not change it.

To update a file (`process_file`) is to render it and to write the result over it, with a backup
before if the options ask for one. Nothing is written if rendering fails or leaves the text as it
was.
-/

namespace Transclude

/-! ## Rendering -/

/-- How documents are rendered and written. -/
structure RenderOptions where
  /-- Whether a backup is kept of a file that changes. -/
  backup : Bool
  /-- The extension of rendered and scanned files. -/
  extension : Text
  /-- How many directories the scope lies above the document. -/
  depthUp : Nat
  depthDown : Depth
  /-- Whether missing references, variables and files are errors. -/
  strict : Bool
  includeMode : IncludeMode
  boxLead : Text
  /-- Where included files are looked for, as seen from the directory of the document. -/
  searchFolders : List Text
  /-- Whether they are looked for in the current directory too. -/
  includeCwd : Bool
  /-- What the scans leave out. -/
  exclude : List Text
  deriving DecidableEq, Repr

namespace RenderOptions

/-- The options that settings give. -/
def ofSettings (s : Settings) : RenderOptions where
  backup := s.backup
  extension := normalizeExtension s.extension
  depthUp := s.depthUp
  depthDown := s.depthDown
  strict := s.strict
  includeMode := s.includeMode
  boxLead := s.boxLead
  searchFolders := s.searchFolders
  includeCwd := s.includeCwd
  exclude := s.exclude

/-- The options without settings. -/
def default : RenderOptions := ofSettings .default

/-- What the scans for references and variables read. -/
def scan (o : RenderOptions) : ScanOptions :=
  { ScanOptions.ofExtension o.extension with exclude := o.exclude }

end RenderOptions

/-- A document with its rendered text. -/
structure Rendered where
  /-- The canonical path of the file. -/
  path : Path
  document : Document
  text : Text
  deriving DecidableEq, Repr

namespace Render

/-- The folders in which the included files of a document in `dir` are looked for. -/
def folders (o : RenderOptions) (dir : Path) : List Path :=
  dir :: o.searchFolders.map fun folder => dir.join (.ofText folder)

/-- The text with its include markers replaced, as part of a document in `dir`. -/
def expand (w : Workspace) (o : RenderOptions) (dir : Path) (t : Text) : Except Error Text :=
  Include.expand t (fun name => Lookup.includedText w name (folders o dir) o.includeCwd)
    (Include.format o.includeMode o.boxLead) o.strict

/-- The text of the document at `path` with its blocks filled. -/
def fill (w : Workspace) (o : RenderOptions) (path : Path) (t : Text) : Except Error Text := do
  let vars ← Scan.varsAround w path o.depthUp o.depthDown o.scan
  let t ← Fill.vars t vars o.strict
  let refs ← Scan.refsAround w path o.depthUp o.depthDown o.scan
  Fill.refs t refs o.strict

/-- The file rendered. -/
def file (w : Workspace) (p : Path) (o : RenderOptions) : Except Error Rendered := do
  let path ← w.checkFile p o.extension
  let document ← w.read path
  let text ← expand w o (path.parent?.getD .dot) document.text
  let text ← fill w o path text
  return { path, document, text }

end Render

/-! ## Updating -/

/-- What an update did. -/
structure UpdateReport where
  /-- The canonical path of the file. -/
  path : Path
  changed : Bool
  /-- The backup that was made. -/
  backup : Option Path
  deriving DecidableEq, Repr

namespace Update

/-- Writes a rendered document over its file. A backup gets the time stamp `stamp`. -/
def write (w : Workspace) (r : Rendered) (backup : Bool) (stamp : Text) :
    Except Error UpdateReport × Workspace :=
  let saved : Except Error (Option Path × Workspace) :=
    if backup then (w.backUp r.path stamp).map fun (p, w) => (some p, w) else .ok (none, w)
  match saved with
  | .error e => (.error e, w)
  | .ok (backup, w) =>
    match w.write r.path { r.document with text := r.text } with
    | (.ok (), w) => (.ok ⟨r.path, true, backup⟩, w)
    | (.error e, w) => (.error e, w)

/-- Updates a file. -/
def file (w : Workspace) (p : Path) (o : RenderOptions) (stamp : Text) :
    Except Error UpdateReport × Workspace :=
  match Render.file w p o with
  | .error e => (.error e, w)
  | .ok r =>
    if r.text = r.document.text then (.ok ⟨r.path, false, none⟩, w)
    else write w r o.backup stamp

end Update

end Transclude
