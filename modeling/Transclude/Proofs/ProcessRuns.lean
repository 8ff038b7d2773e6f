import Transclude.Command.Run
import Transclude.Proofs.Unseen

/-!
# Files one after the other

The command `process` takes its files in order. Each is previewed, if the options ask for it, and
then updated, in the workspace that the files before have left, and the first error ends the run.
What the run leaves is what the updates alone would leave (`Update.files`).

One file needs two facts. An update that fails has changed nothing, also when it was to make a
backup: the file can be written once the backup is there (`Update.file_ends`). And a preview fails
only where the update would fail as well, so it never keeps a file from being updated
(`Command.processFile_cases`). The run follows by induction over the files, with the workspace and
the number of updated files as the state.

Main statements:
- `Update.files_stops`: where a series of updates ends.
- `Command.processFiles_eq`: a run over some files is a series of updates.
- `Command.run_process`: what the program does and tells.
-/

namespace Transclude

namespace Workspace

/-- What updates keep of a workspace. They make no links, and what was there can be found as
before. -/
structure Keeps (w w' : Workspace) : Prop where
  valid : w'.Valid
  cwd : w'.cwd = w.cwd
  links : ∀ k target, w'.tree.node? k = some (.link target) → w.tree.node? k = some (.link target)
  resolve : ∀ p r, w.resolve p = .ok r → w'.resolve p = .ok r

theorem Keeps.refl {w : Workspace} (hw : w.Valid) : w.Keeps w :=
  ⟨hw, rfl, fun _ _ h => h, fun _ _ h => h⟩

theorem Keeps.trans {w w' w'' : Workspace} (h : w.Keeps w') (h' : w'.Keeps w'') : w.Keeps w'' where
  valid := h'.valid
  cwd := h'.cwd.trans h.cwd
  links k target hk := h.links k target (h'.links k target hk)
  resolve p r hr := h'.resolve p r (h.resolve p r hr)

/-- A file that is written in place of another, or as a new one, makes no link. -/
theorem not_link_of_file {w : Workspace} {r k : Route} (hr : r ≠ []) {g : File} {target : Path}
    (h : (w.withFile r g).tree.node? k = some (.link target)) :
    w.tree.node? k = some (.link target) := by
  rw [node?_withFile hr] at h
  split at h
  · cases h
  · exact h

/-- Another file `g` in place of the file `f` keeps the workspace. -/
theorem keeps_withFile {w : Workspace} (hw : w.Valid) {r : Route} {f : File}
    (hf : w.tree.node? r = some (.file f)) (g : File) : w.Keeps (w.withFile r g) where
  valid := valid_withFile_file hw hf g
  cwd := rfl
  links _ _ := not_link_of_file (Tree.ne_nil_of_node? hf (by simp))
  resolve p _ hr := (resolve_withFile hf g p).trans hr

theorem Vacant.keeps {w : Workspace} {dir : Route} {name : Bytes} (h : w.Vacant dir name)
    (f : File) : w.Keeps (w.withFile (dir ++ [name]) f) where
  valid := h.valid_withFile f
  cwd := rfl
  links _ _ := not_link_of_file (by simp)
  resolve _ _ := resolve_withNew_of_ok h.new f

end Workspace

/-- A file that is rendered can be read by the path `p` that is given for it. -/
theorem Render.Reads.read_argument {w : Workspace} (hw : w.Valid) {p : Path} {o : RenderOptions}
    {x : Rendered} {r : Route} {f : File} (hx : Reads w p o x r f) : w.read p = .ok x.document := by
  have hcanonical := Workspace.resolve_ofRoute hw hx.entry (by simp)
  exact (Workspace.read_congr hx.resolve (hx.path ▸ hcanonical)).trans hx.read

namespace Update

/-! ## One update -/

/-- A change fails before anything is written, or it succeeds and keeps the workspace. -/
theorem write_ends {w : Workspace} (hw : w.Valid) {p : Path} {o : RenderOptions} {x : Rendered}
    {r : Route} {f : File} (hx : Render.Reads w p o x r f) {stamp : Text} (hstamp : '/' ∉ stamp)
    (backup : Bool) :
    (∃ e, write w x backup stamp = (.error e, w)) ∨
      ∃ report w', write w x backup stamp = (.ok report, w') ∧ report.changed = true ∧
        w.Keeps w' := by
  cases backup with
  | false =>
    exact .inr ⟨_, _, write_without_backup hw hx stamp, rfl,
      Workspace.keeps_withFile hw hx.entry _⟩
  | true =>
    rw [write, hx.path]
    simp only [if_true]
    cases hbackup : w.backUp (.ofRoute r) stamp with
    | error e => exact .inl ⟨e, rfl⟩
    | ok saved =>
      right
      obtain ⟨b, w₁⟩ := saved
      obtain ⟨dir, name, hvacant, -, rfl⟩ := Workspace.backUp_vacant hw hx.entry hstamp hbackup
      have hentry := Workspace.node?_withNew hx.entry hvacant f
      have hwrite := Workspace.write_ofRoute (hvacant.valid_withFile f) hentry
        { x.document with text := x.text }
      dsimp only [Except.map]
      rw [hwrite]
      exact ⟨_, _, rfl, rfl,
        (hvacant.keeps f).trans (Workspace.keeps_withFile (hvacant.valid_withFile f) hentry _)⟩

/-- **How an update ends.** If it fails, the workspace is what it was. If not, everything that was
there is kept. -/
theorem file_ends {w : Workspace} (hw : w.Valid) (p : Path) (o : RenderOptions) {stamp : Text}
    (hstamp : '/' ∉ stamp) :
    (∃ e, file w p o stamp = (.error e, w)) ∨
      ∃ report w', file w p o stamp = (.ok report, w') ∧ w.Keeps w' := by
  rw [file]
  cases hrender : Render.file w p o with
  | error e => exact .inl ⟨e, rfl⟩
  | ok x =>
    obtain ⟨r, f, hx⟩ := Render.file_eq_ok hw hrender
    dsimp only
    split
    · exact .inr ⟨_, w, rfl, .refl hw⟩
    · rcases write_ends hw hx hstamp o.backup with hwrite | ⟨report, w', hwrite, -, hkeeps⟩
      · exact .inl hwrite
      · exact .inr ⟨report, w', hwrite, hkeeps⟩

/-! ## A series of updates -/

/-- Updates files in their order, up to the first that fails: the reports on those before it, its
error, and the workspace that those before it leave. -/
def files (w : Workspace) (o : RenderOptions) (stamp : Text) :
    List Path → List UpdateReport × Option Error × Workspace
  | [] => ([], none, w)
  | p :: ps =>
    match file w p o stamp with
    | (.error e, _) => ([], some e, w)
    | (.ok report, w') =>
      let (reports, e?, w'') := files w' o stamp ps
      (report :: reports, e?, w'')

/-- One file `p` more: its report comes last, and the workspace is what its update leaves. -/
theorem files_concat {w w' w'' : Workspace} {o : RenderOptions} {stamp : Text} {ps : List Path}
    {reports : List UpdateReport} (h : files w o stamp ps = (reports, none, w')) {p : Path}
    {report : UpdateReport} (hp : file w' p o stamp = (.ok report, w'')) :
    files w o stamp (ps ++ [p]) = (reports ++ [report], none, w'') := by
  induction ps generalizing w reports with
  | nil =>
    cases h
    simp only [List.nil_append, files, hp]
  | cons q ps ih =>
    rw [files] at h
    rw [List.cons_append, files]
    split at h
    · cases h
    · next first w₁ hq =>
      rcases hrest : files w₁ o stamp ps with ⟨reports', e?, w₂⟩
      rw [hrest] at h
      cases h
      rw [ih hrest]
      rfl

/-- Where a series of updates ends: behind its last file, or at a file `p` whose update fails and
leaves the workspace to which the files `done` before it have led. -/
theorem files_stops {w : Workspace} (hw : w.Valid) (o : RenderOptions) {stamp : Text}
    (hstamp : '/' ∉ stamp) (ps : List Path) :
    ((files w o stamp ps).2.1 = none ∧ (files w o stamp ps).1.length = ps.length) ∨
      ∃ e done p rest, (files w o stamp ps).2.1 = some e ∧ ps = done ++ p :: rest ∧
        files w o stamp done = ((files w o stamp ps).1, none, (files w o stamp ps).2.2) ∧
        file (files w o stamp ps).2.2 p o stamp = (.error e, (files w o stamp ps).2.2) := by
  induction ps generalizing w with
  | nil => exact .inl ⟨rfl, rfl⟩
  | cons p ps ih =>
    rcases file_ends hw p o hstamp with ⟨e, hfile⟩ | ⟨report, w', hfile, hkeeps⟩
    · right
      refine ⟨e, [], p, ps, ?_⟩
      simp only [files, hfile, List.nil_append, and_self]
    · simp only [files, hfile]
      rcases ih hkeeps.valid with ⟨hnone, hlength⟩ | ⟨e, done, q, rest, he, rfl, hdone, hq⟩
      · exact .inl ⟨hnone, congrArg Nat.succ hlength⟩
      · refine .inr ⟨e, p :: done, q, rest, he, rfl, ?_, hq⟩
        simp only [files, hfile, hdone]

end Update

namespace Command

/-! ## One file of a run -/

/-- A preview fails only where rendering fails. -/
theorem exists_error_of_preview {w : Workspace} (hw : w.Valid) {c : ProcessCommand}
    {o : RenderOptions} {p : Path} {e : Error} (h : preview w c o p = .error e) :
    ∃ e', Render.file w p o = .error e' := by
  cases hrender : Render.file w p o with
  | error e' => exact ⟨e', rfl⟩
  | ok x =>
    obtain ⟨r, f, hx⟩ := Render.file_eq_ok hw hrender
    rw [preview] at h
    split at h
    · cases h
    · rw [hx.read_argument hw, hrender] at h
      dsimp only [bind, Except.bind] at h
      split at h <;> cases h

/-- Processing a file ends as its update does: with an error and the workspace as it was, or with
the answer whether the file was changed. -/
theorem processFile_cases {w : Workspace} (hw : w.Valid) {c : ProcessCommand}
    (hdry : c.dryRun = false) (o : RenderOptions) (verbose : Bool) {stamp : Text}
    (hstamp : '/' ∉ stamp) (p : Path) :
    (∃ e, Update.file w p o stamp = (.error e, w) ∧
      ∃ shown e', processFile w c o verbose stamp p = (shown, .error e', w)) ∨
    ∃ report w', Update.file w p o stamp = (.ok report, w') ∧ w.Keeps w' ∧
      ∃ shown, processFile w c o verbose stamp p = (shown, .ok report.changed, w') := by
  rw [processFile]
  cases hpreview : preview w c o p with
  | error e =>
    obtain ⟨e', hrender⟩ := exists_error_of_preview hw hpreview
    exact .inl ⟨e', by rw [Update.file, hrender], _, _, rfl⟩
  | ok shown =>
    simp only [hdry, Bool.false_eq_true, if_false]
    rcases Update.file_ends hw p o hstamp with ⟨e, hfile⟩ | ⟨report, w', hfile, hkeeps⟩
    · exact .inl ⟨e, hfile, shown, e, by rw [hfile]⟩
    · exact .inr ⟨report, w', hfile, hkeeps, _, by rw [hfile]⟩

/-! ## Runs -/

/-- What is told at the end of a run in which `n` files were changed. -/
def summary (n : Nat) : Message := if n = 0 then .allUpToDate else .updateCount n

/-- **A run is a series of updates.** It leaves what they leave, it fails if one of them does, and
if not it ends with the number of files that were changed, on top of the `n` before. The induction
is on the files. -/
theorem processFiles_eq {w : Workspace} (hw : w.Valid) {c : ProcessCommand}
    (hdry : c.dryRun = false) (o : RenderOptions) (verbose : Bool) {stamp : Text}
    (hstamp : '/' ∉ stamp) (n : Nat) (ps : List Path) :
    (processFiles w c o verbose stamp n ps).2.2 = (Update.files w o stamp ps).2.2 ∧
      ((processFiles w c o verbose stamp n ps).2.1.isSome ↔
        (Update.files w o stamp ps).2.1.isSome) ∧
      ((Update.files w o stamp ps).2.1 = none → ∃ told,
        (processFiles w c o verbose stamp n ps).1 =
          told ++ [summary (n + (Update.files w o stamp ps).1.countP (·.changed))]) := by
  induction ps generalizing w n with
  | nil =>
    rw [processFiles, Update.files, hdry]
    exact ⟨rfl, Iff.rfl, fun _ => ⟨[], rfl⟩⟩
  | cons p ps ih =>
    rw [processFiles, Update.files]
    rcases processFile_cases hw hdry o verbose hstamp p with
      ⟨e, hfile, shown, e', hprocess⟩ | ⟨report, w', hfile, hkeeps, shown, hprocess⟩
    · rw [hprocess, hfile]
      exact ⟨rfl, Iff.rfl, fun h => nomatch h⟩
    · rw [hprocess, hfile]
      obtain ⟨hleft, hfails, hcount⟩ :=
        ih hkeeps.valid (if report.changed then n + 1 else n)
      refine ⟨hleft, hfails, fun hnone => ?_⟩
      obtain ⟨told, htold⟩ := hcount hnone
      have hnumber : (if report.changed then n + 1 else n) +
            (Update.files w' o stamp ps).1.countP (·.changed) =
          n + (report :: (Update.files w' o stamp ps).1).countP (·.changed) := by
        rw [List.countP_cons]
        cases report.changed <;> simp only [Bool.false_eq_true, if_false, if_true] <;> omega
      refine ⟨shown ++ told, ?_⟩
      dsimp only
      rw [htold, hnumber, List.append_assoc]

/-- A dry run leaves the workspace `w` as it is, also where it ends with an error. -/
theorem processFiles_of_dryRun {w : Workspace} {c : ProcessCommand} (hdry : c.dryRun = true)
    (o : RenderOptions) (verbose : Bool) (stamp : Text) (n : Nat) (ps : List Path) :
    (processFiles w c o verbose stamp n ps).2.2 = w := by
  induction ps generalizing n with
  | nil => rfl
  | cons p ps ih =>
    rw [processFiles, processFile, hdry]
    cases preview w c o p with
    | error e => rfl
    | ok shown => exact ih n

/-- What `run` leaves and tells that processes some files with the options `o`. -/
structure Runs (w : Workspace) (o : RenderOptions) (stamp : Text) (ps : List Path) (color : Bool)
    (out : Outcome × Workspace) : Prop where
  /-- It leaves what the updates leave. -/
  left : out.2 = (Update.files w o stamp ps).2.2
  exitCode : out.1.exitCode = if (Update.files w o stamp ps).2.1.isSome then 2 else 0
  /-- An update that fails has changed nothing, and those behind it are not made. -/
  stops : ∀ e, (Update.files w o stamp ps).2.1 = some e → ∃ done p rest, ps = done ++ p :: rest ∧
    Update.files w o stamp done = ((Update.files w o stamp ps).1, none, out.2) ∧
    Update.file out.2 p o stamp = (.error e, out.2)
  /-- If none fails, all are made, and the last line has the number of files that were changed. -/
  counts : (Update.files w o stamp ps).2.1 = none →
    (Update.files w o stamp ps).1.length = ps.length ∧
      ∃ told, out.1.output = told ++
        (summary ((Update.files w o stamp ps).1.countP (·.changed))).text color

/-- What `perform` does for the command of processing files: it loads the settings, and goes through
the files. -/
theorem perform_process (w : Workspace) (stamp : Text) {i : Invocation} {c : ProcessCommand}
    (hcommand : i.command = .process c) :
    perform w stamp i =
      match Settings.load w (i.settingsPath.getD w.currentPath) with
      | .error e => ([], some e, w)
      | .ok settings => processFiles w c (c.options settings) i.verbose stamp 0 c.files := by
  cases hsettings : Settings.load w (i.settingsPath.getD w.currentPath) <;>
    simp only [perform, hcommand, hsettings]

/-- A run with arguments that are read shows the messages of its command, with colours unless they
are turned off, and its failure if there is one. -/
theorem run_of_arguments (w : Workspace) (stamp : Text) (noColor : Bool) {args : List Text}
    {i : Invocation} (hargs : Invocation.ofArguments args = .ok i) :
    run w stamp noColor args =
      (⟨(perform w stamp i).1.flatMap (Message.text (!noColor && !i.noColor)),
        (perform w stamp i).2.1.map .failed⟩, (perform w stamp i).2.2) := by
  rw [run, hargs]

/-- **What the program does with files.** A dry run leaves everything as it was, however it ends.
Any other one makes the updates of the files in their order, up to the first that fails. -/
theorem run_process {w : Workspace} (hw : w.Valid) {stamp : Text} (hstamp : '/' ∉ stamp)
    {args : List Text} {i : Invocation} (hargs : Invocation.ofArguments args = .ok i)
    {c : ProcessCommand} (hcommand : i.command = .process c) (noColor : Bool) :
    (c.dryRun = true → (run w stamp noColor args).2 = w) ∧
      (c.dryRun = false → ∀ settings,
        Settings.load w (i.settingsPath.getD w.currentPath) = .ok settings →
          Runs w (c.options settings) stamp c.files (!noColor && !i.noColor)
            (run w stamp noColor args)) := by
  rw [run_of_arguments w stamp noColor hargs, perform_process w stamp hcommand]
  constructor
  · intro hdry
    cases Settings.load w (i.settingsPath.getD w.currentPath) with
    | error e => rfl
    | ok settings => exact processFiles_of_dryRun hdry _ _ _ _ _
  · intro hdry settings hsettings
    rw [hsettings]
    obtain ⟨hleft, hfails, hcount⟩ :=
      processFiles_eq hw hdry (c.options settings) i.verbose hstamp 0 c.files
    have hstops := Update.files_stops hw (c.options settings) hstamp c.files
    constructor
    · exact hleft
    · simp only [Outcome.exitCode, Option.isSome_map, hfails]
    · intro e he
      dsimp only
      rw [hleft]
      rcases hstops with ⟨hnone, -⟩ | ⟨e', done, p, rest, he', hps, hdone, hp⟩
      · rw [he] at hnone
        cases hnone
      · obtain rfl := Option.some.inj (he.symm.trans he')
        exact ⟨done, p, rest, hps, hdone, hp⟩
    · intro hnone
      obtain ⟨told, htold⟩ := hcount hnone
      rw [Nat.zero_add] at htold
      rcases hstops with ⟨-, hlength⟩ | ⟨e', -, -, -, he', -⟩
      · refine ⟨hlength, told.flatMap (Message.text (!noColor && !i.noColor)), ?_⟩
        dsimp only
        rw [htold, List.flatMap_append, List.flatMap_singleton]
      · rw [hnone] at he'
        cases he'

/-- A run over a document and a path that leads to nothing. -/
theorem run_process_settled :
    (Update.lone Update.lone.settled).Valid ∧ '/' ∉ ['s'] ∧
      Invocation.ofArguments ["process".toList, "d.md".toList, "e.md".toList] =
        .ok ⟨none, false, false,
          .process ⟨[Update.lone.path, .ofString "e.md"], false, false, false, none, none, none,
            false⟩⟩ ∧
      Settings.load (Update.lone Update.lone.settled)
        (Update.lone Update.lone.settled).currentPath = .ok none ∧
      Runs (Update.lone Update.lone.settled) .default ['s'] [Update.lone.path, .ofString "e.md"]
        true (run (Update.lone Update.lone.settled) ['s'] false
          ["process".toList, "d.md".toList, "e.md".toList]) := by
  have hw : (Update.lone Update.lone.settled).Valid := by decide +kernel
  have hstamp : '/' ∉ ['s'] := by decide
  have hargs : Invocation.ofArguments ["process".toList, "d.md".toList, "e.md".toList] =
      .ok ⟨none, false, false,
        .process ⟨[Update.lone.path, .ofString "e.md"], false, false, false, none, none, none,
          false⟩⟩ :=
    Fill.eq_ok_of_toOption (by decide +kernel)
  have hsettings : Settings.load (Update.lone Update.lone.settled)
      (Update.lone Update.lone.settled).currentPath = .ok none :=
    Fill.eq_ok_of_toOption (by decide +kernel)
  exact ⟨hw, hstamp, hargs, hsettings,
    (run_process hw hstamp hargs rfl false).2 rfl none hsettings⟩

end Command

end Transclude
