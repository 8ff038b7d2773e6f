import Std.Data.HashSet
import Transclude.Command.Run

/-!
# The program

The program reads the directories that its command looks into, runs the command on what it has read,
and writes back what the run has changed. A link is read as one to the place where it leads in the
end. Permission bits cannot be read here, so a file that changes is written where it is.
-/

namespace Transclude

/-! ## Where a run looks

The directories whose entries a command reads. They depend on the settings, which are read first. -/

namespace Command

/-- The directories that the rendering of a file looks into. -/
def placesOf (w : Workspace) (o : RenderOptions) (file : Path) : List Path :=
  let path : Path :=
    match w.resolve file with
    | .ok r => .ofRoute r
    | .error _ => file
  let dir := Scope.directoryOf path
  let (scope, _) := Scope.around w.currentPath path o.depthUp o.depthDown
  Scope.directoryOf file :: scope :: Render.folders o dir

/-- The directories that a run looks into, as far as a workspace tells. -/
def places (w : Workspace) (i : Invocation) : List Path :=
  let settingsPath := i.settingsPath.getD w.currentPath
  match i.command with
  | .process c =>
    let o := c.options ((Settings.load w settingsPath).toOption.getD none)
    settingsPath :: w.currentPath :: c.files.flatMap (placesOf w o)
  | .refs dir _ _ => [settingsPath, dir]
  | .vars file _ => [Scope.directoryOf file]

end Command

/-! ## Reading and writing -/

/-- A tree as far as it has been read. -/
structure Snapshot where
  tree : Tree
  /-- The paths of the entries that are in it. -/
  entries : Std.HashSet String
  /-- The paths of the directories that were read. -/
  directories : Std.HashSet String

namespace Snapshot

/-- The path of an entry. -/
def pathOf (r : Route) : String := (Path.ofRoute r).text.string

/-- The route of a canonical path. -/
def routeOf (path : String) : Route := (Path.ofString path).segments.filter (· ≠ [])

/-- With an entry, if there is none at its route. -/
def add (s : Snapshot) (r : Route) (n : Node) : Snapshot :=
  if r = [] || s.entries.contains (pathOf r) then s
  else { s with tree := ⟨(r, n) :: s.tree.nodes⟩, entries := s.entries.insert (pathOf r) }

/-- With the directories above a route. -/
def addAbove (s : Snapshot) (r : Route) : Snapshot :=
  (List.range r.length).foldl (fun s n => s.add (r.take n) .directory) s

/-- The target of a link that leads nowhere: no entry has this name. -/
def nowhere : Path := .ofString "\x00"

/-- Reads the entry with a route and all that it leads to. What cannot be read is left out. -/
partial def read (s : Snapshot) (r : Route) : IO Snapshot := do
  let path := System.mkFilePath [pathOf r]
  try
    match (← path.symlinkMetadata).type with
    | .dir =>
      if s.directories.contains (pathOf r) then return s
      let mut s := { s with directories := s.directories.insert (pathOf r) }
      s := s.add r .directory
      for e in ← path.readDir do
        s ← read s (r ++ [.ofString e.fileName])
      return s
    | .file =>
      if s.entries.contains (pathOf r) then return s
      return s.add r (.file ⟨.ofBytes (← IO.FS.readBinFile path), 0o644⟩)
    | .symlink =>
      if s.entries.contains (pathOf r) then return s
      let target? ← try pure (some (← IO.FS.realPath path).toString) catch _ => pure none
      match target? with
      | none => return s.add r (.link nowhere)
      | some target =>
        let s := s.add r (.link (.ofString target))
        read (s.addAbove (routeOf target)) (routeOf target)
    | .other => return s
  catch _ => return s

/-- Reads what a path leads to from the directory `cwd`. -/
def readPath (s : Snapshot) (cwd p : Path) : IO Snapshot := do
  let spelled := (cwd.join p).text.string
  try
    let target := (← IO.FS.realPath (System.mkFilePath [spelled])).toString
    let s ← read (s.addAbove (routeOf target)) (routeOf target)
    let route := ((cwd.join p).absolute cwd).segments.filter (· ≠ [])
    if route == routeOf target || route.contains [Path.point, Path.point] then return s
    else return (s.addAbove route).add route (.link (.ofString target))
  catch _ => return s

/-- Reads what a command looks into. The settings are among it, so more may turn up with each
reading. -/
def ofInvocation (cwd : Path) (i : Invocation) : IO Workspace := do
  let route := cwd.segments.filter (· ≠ [])
  let mut s := (⟨.empty, ∅, ∅⟩ : Snapshot).addAbove (route ++ [[]])
  for _ in List.range 3 do
    for p in Command.places ⟨s.tree, route⟩ i do
      s ← s.readPath cwd p
  return ⟨s.tree, route⟩

end Snapshot

/-- The entries of `new` that `old` does not have in the same place of its list. -/
def changedEntries : (new old : List (Route × Node)) → List (Route × Node)
  | new, [] => new
  | [], _ => []
  | e :: new, o :: old => if e = o then changedEntries new old else e :: changedEntries new old

/-- Writes an entry. -/
def writeEntry (r : Route) (n : Node) : IO Unit := do
  let path := System.mkFilePath [Snapshot.pathOf r]
  match n with
  | .directory => IO.FS.createDirAll path
  | .link _ => return
  | .file f =>
    let isLink ← try pure ((← path.symlinkMetadata).type == .symlink) catch _ => pure false
    if isLink then IO.FS.removeFile path
    match f.content with
    | .text t => IO.FS.writeBinFile path t.string.toUTF8
    | .binary bytes => IO.FS.writeBinFile path ⟨bytes.toArray⟩

/-- The current time stamp. The time is that of a new file. -/
def currentStamp : IO Text := do
  let (_, path) ← IO.FS.createTempFile
  let seconds := (← path.metadata).modified.sec
  IO.FS.removeFile path
  return TimeStamp.ofSeconds seconds.toNat

/-- How a failure is reported. -/
def Failure.report : Failure → String
  | usage fault => s!"error: {fault.message}"
  | failed e =>
    let help : String :=
      match e.help? with
      | some advice => s!"\n  help: {advice}"
      | none => ""
    s!"{e.code}\n\n  × {e.message}{help}"

/-- Runs the program on the files that are there. -/
def runProgram (args : List Text) : IO UInt32 := do
  let cwd := Path.ofString (← IO.currentDir).toString
  let noColor := (← IO.getEnv "NO_COLOR").isSome
  let w ←
    match Invocation.ofArguments args with
    | .ok i => Snapshot.ofInvocation cwd i
    | .error _ => pure ⟨.empty, []⟩
  let (o, w') := Command.run w (← currentStamp) noColor args
  for (r, n) in changedEntries w'.tree.nodes w.tree.nodes do
    writeEntry r n
  IO.print o.output.string
  if let some failure := o.failure then
    IO.eprintln failure.report
  return o.exitCode.toUInt32

end Transclude

/-- The command line. -/
def main (args : List String) : IO UInt32 := Transclude.runProgram (args.map String.toList)
