import Transclude.Proofs.ProcessRuns

/-!
# What a dry run tells

A dry run renders every file in the workspace that it was started in. Any other run renders each
file in the workspace that the updates of the files before have left. The two tell the same if the
updates do not change what is read for a later file (`Render.SeesAlike`), and if a file that is
named again is up to date by then. In general the two differ: a document that is updated may hold a
reference that a later document shows.

A run can also fail where no dry run does, at a backup that would have to go through a broken link.
And a dry run looks at the argument itself first. So its error may be another one, unless the
argument can be read, or leads to nothing (`Workspace.IsPlain`).

Both runs are followed side by side (`Command.Abreast`). One file does the same to both
(`Command.dryRun_step`), or ends both (`Command.dryRun_stops`), and this is all that the induction
over the files needs.

Main statements:
- `Render.file_of_seesAlike`: rendering depends on what it reads.
- `Command.processFiles_foreseen`: a dry run side by side with the other one.
- `Command.dryRun_foresees`: what a dry run tells of the other one.
- `Command.dryRun_misses`: what it cannot tell.
-/

namespace Transclude

/-! ## Backups that succeed -/

namespace Workspace

/-- Whether a link stands at a route that leads to no entry. -/
def IsBroken (w : Workspace) (r : Route) : Prop :=
  (∃ target, w.tree.node? r = some (.link target)) ∧ w.isEntry (.ofRoute r) = false

/-- What is there stays there: an update that `Keeps` a workspace takes no entry away. -/
theorem Keeps.isEntry {w w' : Workspace} (h : w.Keeps w') {p : Path}
    (hp : w.isEntry p = true) : w'.isEntry p = true := by
  rw [Workspace.isEntry, Workspace.node?] at hp ⊢
  cases hr : w.resolve p with
  | error fault =>
    rw [hr] at hp
    cases hp
  | ok r =>
    have hresolve := h.resolve p r hr
    rw [hresolve]
    exact isSome_of_resolve hresolve

/-- Updates break no links: one at `k` that is broken in `w'` was so in `w`. -/
theorem Keeps.isBroken {w w' : Workspace} (h : w.Keeps w') {k : Route}
    (hk : w'.IsBroken k) : w.IsBroken k := by
  obtain ⟨⟨target, hlink⟩, hentry⟩ := hk
  refine ⟨⟨target, h.links k target hlink⟩, Bool.eq_false_iff.2 fun hp => ?_⟩
  rw [h.isEntry hp] at hentry
  cases hentry

/-- A backup succeeds where no link with a name that it may have is broken (`IsBroken`). -/
theorem exists_backUp {w : Workspace} (hw : w.Valid) {r : Route} {f : File}
    (hf : w.tree.node? r = some (.file f)) {stamp : Text} (hstamp : '/' ∉ stamp)
    (hlinks : ∀ n, ¬w.IsBroken (backupRoute r stamp n)) :
    ∃ saved, w.backUp (.ofRoute r) stamp = .ok saved := by
  obtain ⟨n, hpath, hfree⟩ := backupPath_ofRoute hw hf hstamp
  have hnew := (node?_of_not_isEntry hw hfree).resolve_right fun hlink => hlinks n ⟨hlink, hfree⟩
  exact ⟨_, backUp_of_new hw hf hstamp hpath hnew⟩

end Workspace

/-- Whether no broken link is in the way of the backups of a file, if the options ask for them. -/
def Update.CanBackUp (w : Workspace) (o : RenderOptions) (stamp : Text) (p : Path) : Prop :=
  o.backup = true → ∀ r n, w.resolve p = .ok r → ¬w.IsBroken (Workspace.backupRoute r stamp n)

/-- Whether `p` can be backed up is not changed by the updates of others, which keep the
workspace. -/
theorem Update.CanBackUp.keeps {w w' : Workspace} {o : RenderOptions} {stamp : Text} {p : Path}
    (h : CanBackUp w o stamp p) (hkeeps : w.Keeps w') {r : Route} (hr : w.resolve p = .ok r) :
    CanBackUp w' o stamp p := by
  intro hbackup r' n hr' hbroken
  obtain rfl := Except.ok.inj ((hkeeps.resolve p r hr).symm.trans hr')
  exact h hbackup r n hr (hkeeps.isBroken hbroken)

/-- A file that is rendered is updated, if it can be backed up, and the report says that it changed
exactly if the text `x.text` is not the document's. -/
theorem Update.file_of_rendered {w : Workspace} (hw : w.Valid) {p : Path} {o : RenderOptions}
    {x : Rendered} (hrender : Render.file w p o = .ok x) {stamp : Text} (hstamp : '/' ∉ stamp)
    (hbackups : CanBackUp w o stamp p) :
    ∃ report w', file w p o stamp = (.ok report, w') ∧ w.Keeps w' ∧
      (report.changed = true ↔ x.text ≠ x.document.text) := by
  obtain ⟨r, f, hx⟩ := Render.file_eq_ok hw hrender
  rw [file, hrender]
  dsimp only
  by_cases htext : x.text = x.document.text
  · rw [if_pos htext]
    exact ⟨_, w, rfl, .refl hw, by simp [htext]⟩
  · rw [if_neg htext]
    rcases write_ends hw hx hstamp o.backup with
      ⟨e, hwrite⟩ | ⟨report, w', hwrite, hchanged, hkeeps⟩
    · cases hbackup : o.backup with
      | false =>
        rw [hbackup, write_without_backup hw hx] at hwrite
        cases hwrite
      | true =>
        -- only the backup could fail
        obtain ⟨⟨b, w₁⟩, hsaved⟩ := Workspace.exists_backUp hw hx.entry hstamp
          fun n => hbackups hbackup r n hx.resolve
        obtain ⟨dir, name, hvacant, -, rfl⟩ := Workspace.backUp_vacant hw hx.entry hstamp hsaved
        rw [hbackup, write, hx.path] at hwrite
        simp only [if_true] at hwrite
        rw [hsaved] at hwrite
        dsimp only [Except.map] at hwrite
        rw [Workspace.write_ofRoute (hvacant.valid_withFile f)
          (Workspace.node?_withNew hx.entry hvacant f)] at hwrite
        cases hwrite
    · exact ⟨report, w', hwrite, hkeeps, by simp [hchanged, htext]⟩

/-! ## What is read for a file -/

namespace Render

/-- What is read for a file is the same in two workspaces. -/
structure SeesAlike (w w' : Workspace) (p : Path) (o : RenderOptions) : Prop where
  argument : w'.read p = w.read p
  checked : w'.checkFile p o.extension = w.checkFile p o.extension
  document : ∀ path, w.checkFile p o.extension = .ok path → w'.read path = w.read path
  /-- The files that the document includes. -/
  included : ∀ path d, w.checkFile p o.extension = .ok path → w.read path = .ok d →
    ∀ q ∈ Piece.ofText d.text, ∀ n, q.directive? = some (.includeFile n) →
      Lookup.includedText w' n (folders o (path.parent?.getD .dot)) o.includeCwd =
        Lookup.includedText w n (folders o (path.parent?.getD .dot)) o.includeCwd
  /-- The variables and the references of its scope. -/
  vars : ∀ path, w.checkFile p o.extension = .ok path →
    Scan.varsAround w' path o.depthUp o.depthDown o.scan =
      Scan.varsAround w path o.depthUp o.depthDown o.scan
  refs : ∀ path, w.checkFile p o.extension = .ok path →
    Scan.refsAround w' path o.depthUp o.depthDown o.scan =
      Scan.refsAround w path o.depthUp o.depthDown o.scan

theorem SeesAlike.refl (w : Workspace) (p : Path) (o : RenderOptions) : SeesAlike w w p o :=
  ⟨rfl, rfl, fun _ _ => rfl, fun _ _ _ _ _ _ _ _ => rfl, fun _ _ => rfl, fun _ _ => rfl⟩

/-- **Rendering depends on what it reads**: on the argument, the document, the files that it
includes, and what is collected in its scope, which are the fields of `SeesAlike`. -/
theorem file_of_seesAlike {w w' : Workspace} {p : Path} {o : RenderOptions}
    (h : SeesAlike w w' p o) : file w' p o = file w p o := by
  rw [file, file, h.checked]
  cases hcheck : w.checkFile p o.extension with
  | error e => rfl
  | ok path =>
    show (w'.read path).bind _ = (w.read path).bind _
    rw [h.document path hcheck]
    cases hread : w.read path with
    | error e => rfl
    | ok d =>
      have hexpand : expand w' o (path.parent?.getD .dot) d.text =
          expand w o (path.parent?.getD .dot) d.text :=
        Include.expand_congr (h.included path d hcheck hread) _ _
      have hfill (u : Text) : fill w' o path u = fill w o path u := by
        rw [fill, fill, h.vars path hcheck, h.refs path hcheck]
      show (expand w' o _ d.text).bind (fun u => (fill w' o path u).bind _) =
        (expand w o _ d.text).bind (fun u => (fill w o path u).bind _)
      rw [hexpand]
      simp only [hfill]

end Render

/-! ## Which error comes first -/

/-- Whether a path leads to a file with an extension, to a file that holds text, or to nothing. -/
def Workspace.IsPlain (w : Workspace) (extension : Text) (p : Path) : Prop :=
  (∃ path, w.checkFile p extension = .ok path) ∨ (∃ d, w.read p = .ok d) ∨
    w.read p = .error (.notFound p.text)

/-- The error of a rendering is that of reading the argument, if that fails and the argument is
plain (`IsPlain`). -/
theorem Render.error_of_read {w : Workspace} (hw : w.Valid) {p : Path} {o : RenderOptions}
    (hplain : w.IsPlain o.extension p) {e e' : Error} (hrender : file w p o = .error e)
    (hread : w.read p = .error e') : e' = e := by
  rw [file] at hrender
  rcases hplain with ⟨path, hcheck⟩ | ⟨d, hd⟩ | hmissing
  · obtain ⟨hfile, hpath⟩ := Workspace.checkFile_eq_ok hcheck
    obtain ⟨r, f, hresolve, hf⟩ := Workspace.resolve_of_isFile hw hfile
    obtain rfl := hpath r hresolve
    have hcanonical := Workspace.resolve_ofRoute hw hf (by simp)
    rw [hcheck] at hrender
    change (w.read (.ofRoute r)).bind _ = _ at hrender
    rw [Workspace.read_of_node? hresolve hf] at hread
    rw [Workspace.read_of_node? hcanonical hf] at hrender
    cases hcontent : f.content with
    | text t =>
      rw [hcontent] at hread
      cases hread
    | binary bytes =>
      rw [hcontent] at hread hrender
      cases hread
      cases hrender
      rfl
  · rw [hread] at hd
    cases hd
  · rw [hread] at hmissing
    obtain rfl := Except.error.inj hmissing
    have hfile : w.isFile p = false := by
      rw [Bool.eq_false_iff]
      intro hfile
      exact Workspace.read_ne_notFound_of_isFile hw hfile p.text hread
    rw [Workspace.checkFile, hfile] at hrender
    exact Except.error.inj hrender

/-! ## Messages -/

/-- The file of which a message tells that it was updated. -/
def Message.updated? : Message → Option Path
  | updated file => some file
  | updatedWithBackup file _ => some file
  | _ => none

namespace Command

/-- What is told of an update names the file `p` if it changed, and no other. -/
theorem exists_updated_iff (verbose : Bool) (p : Path) (report : UpdateReport) (file : Path) :
    (∃ m ∈ updateMessages verbose p report, m.updated? = some file) ↔
      report.changed = true ∧ file = p := by
  have hcomm : (some p = some file) ↔ file = p := by rw [Option.some.injEq, eq_comm]
  rw [updateMessages]
  cases report.changed with
  | false => cases verbose <;> simp [Message.updated?]
  | true => cases report.backup <;> cases verbose <;> simp [Message.updated?, hcomm]

/-- The `preview` of a file that is rendered tells of no update, and in a dry run it names the file
exactly if it is out of date. -/
theorem preview_of_rendered {w : Workspace} (hw : w.Valid) {p : Path} {o : RenderOptions}
    {x : Rendered} (hrender : Render.file w p o = .ok x) (c : ProcessCommand) :
    ∃ shown, preview w c o p = .ok shown ∧ (∀ m ∈ shown, m.updated? = none) ∧
      (c.dryRun = true → ∀ file,
        .wouldUpdate file ∈ shown ↔ x.text ≠ x.document.text ∧ file = p) := by
  obtain ⟨r, f, hx⟩ := Render.file_eq_ok hw hrender
  rw [preview, hx.read_argument hw, hrender]
  dsimp only [bind, Except.bind, pure, Except.pure]
  by_cases htext : x.text = x.document.text <;>
    cases hdry : c.dryRun <;> cases hdiff : c.diff <;> simp [htext, Message.updated?]

/-- The `preview` of a file that is not rendered fails. It looks at the argument first, so the error
is that of reading it, if there is one. -/
theorem preview_of_error {w : Workspace} {p : Path} {o : RenderOptions} {e : Error}
    (hrender : Render.file w p o = .error e) {c : ProcessCommand}
    (hasks : (!c.dryRun && !c.diff) = false) :
    preview w c o p =
      .error (match w.read p with
        | .error e' => e'
        | .ok _ => e) := by
  rw [preview, hasks, hrender]
  cases w.read p <;> rfl

section

variable {w : Workspace} (hw : w.Valid) {p : Path} {o : RenderOptions} {c : ProcessCommand}
  (verbose : Bool)

include hw in
/-- A dry run over a file that is rendered leaves the workspace `w` as it is, and names the file
exactly if it is out of date. -/
theorem processFile_of_dryRun (hdry : c.dryRun = true) {x : Rendered}
    (hrender : Render.file w p o = .ok x) (stamp : Text) :
    ∃ shown, processFile w c o verbose stamp p = (shown, .ok false, w) ∧
      ∀ file, .wouldUpdate file ∈ shown ↔ x.text ≠ x.document.text ∧ file = p := by
  obtain ⟨shown, hpreview, -, hshown⟩ := preview_of_rendered hw hrender c
  refine ⟨shown, ?_, hshown hdry⟩
  rw [processFile, hpreview]
  dsimp only
  rw [if_pos hdry]

include hw in
/-- Any other run over a file that is rendered updates it, keeps what is there, and names the file
exactly if it was out of date. -/
theorem processFile_of_rendered (hdry : c.dryRun = false) {x : Rendered}
    (hrender : Render.file w p o = .ok x) {stamp : Text} (hstamp : '/' ∉ stamp)
    (hbackups : Update.CanBackUp w o stamp p) :
    ∃ shown report w', processFile w c o verbose stamp p = (shown, .ok report.changed, w') ∧
      Update.file w p o stamp = (.ok report, w') ∧ w.Keeps w' ∧
      ∀ file, (∃ m ∈ shown, m.updated? = some file) ↔ x.text ≠ x.document.text ∧ file = p := by
  obtain ⟨shown, hpreview, hsilent, -⟩ := preview_of_rendered hw hrender c
  obtain ⟨report, w', hfile, hkeeps, hchanged⟩ :=
    Update.file_of_rendered hw hrender hstamp hbackups
  refine ⟨shown ++ updateMessages verbose p report, report, w', ?_, hfile, hkeeps, fun file => ?_⟩
  · rw [processFile, hpreview]
    dsimp only
    rw [hdry, if_neg Bool.false_ne_true, hfile]
  · rw [← hchanged, ← exists_updated_iff verbose]
    constructor
    · rintro ⟨m, hm, hfile⟩
      rcases List.mem_append.1 hm with hm | hm
      · rw [hsilent m hm] at hfile
        cases hfile
      · exact ⟨m, hm, hfile⟩
    · rintro ⟨m, hm, hfile⟩
      exact ⟨m, List.mem_append_right _ hm, hfile⟩

/-- An update that fails ends the run with its error, where nothing is asked for but the update.
Nothing is told of the file. -/
theorem processFile_of_update_error (hdry : c.dryRun = false) (hdiff : c.diff = false)
    {stamp : Text} {e : Error} {w' : Workspace} (hfile : Update.file w p o stamp = (.error e, w')) :
    processFile w c o verbose stamp p = ([], .error e, w') := by
  simp [processFile, preview, hdry, hdiff, hfile, pure, Except.pure]

/-- A file that is not rendered ends a run. If the run looks at the argument first, the error may be
that of the argument. -/
theorem processFile_of_error {e : Error} (hrender : Render.file w p o = .error e) (stamp : Text) :
    processFile w c o verbose stamp p =
      ([], .error (if !c.dryRun && !c.diff then e else
        match w.read p with
        | .error e' => e'
        | .ok _ => e), w) := by
  cases hasks : !c.dryRun && !c.diff with
  | false =>
    rw [processFile, preview_of_error hrender hasks, if_neg Bool.false_ne_true]
  | true =>
    rw [Bool.and_eq_true, Bool.not_eq_true', Bool.not_eq_true'] at hasks
    rw [if_pos rfl]
    refine processFile_of_update_error verbose hasks.1 hasks.2 ?_
    rw [Update.file, hrender]

end

/-! ## Side by side -/

/-- What a series of updates has to leave alone for a dry run to tell what it does. -/
structure Foreseeable (w : Workspace) (o : RenderOptions) (stamp : Text) (ps : List Path) :
    Prop where
  /-- What is read for a file is what was there before the updates of the files before it, or the
  file was named before and is up to date by then. -/
  alike : ∀ done p rest reports w', ps = done ++ p :: rest →
    Update.files w o stamp done = (reports, none, w') →
      Render.SeesAlike w w' p o ∨
        p ∈ done ∧ ∃ x, Render.file w' p o = .ok x ∧ x.text = x.document.text
  backups : ∀ p ∈ ps, Update.CanBackUp w o stamp p

/-- Whether a file is one of `done` and is not up to date. -/
def IsDue (w : Workspace) (o : RenderOptions) (done : List Path) (file : Path) : Prop :=
  file ∈ done ∧ ∃ x, Render.file w file o = .ok x ∧ x.text ≠ x.document.text

/-- One file `p` more is due if its text is not the document's. The files before it are due as they
were. -/
theorem isDue_concat {w : Workspace} {o : RenderOptions} {p : Path} {x : Rendered}
    (hrender : Render.file w p o = .ok x) (done : List Path) (file : Path) :
    IsDue w o (done ++ [p]) file ↔
      IsDue w o done file ∨ x.text ≠ x.document.text ∧ file = p := by
  constructor
  · rintro ⟨hmem, y, hy, htext⟩
    rcases List.mem_append.1 hmem with hmem | hmem
    · exact .inl ⟨hmem, y, hy, htext⟩
    · obtain rfl := List.mem_singleton.1 hmem
      obtain rfl := Except.ok.inj (hy.symm.trans hrender)
      exact .inr ⟨htext, rfl⟩
  · rintro (⟨hmem, hdue⟩ | ⟨htext, rfl⟩)
    · exact ⟨List.mem_append_left _ hmem, hdue⟩
    · exact ⟨List.mem_append_right _ List.mem_cons_self, x, hrender, htext⟩

/-- What is told in two parts names the files that one of them names. -/
theorem exists_updated_append (l l' : List Message) (file : Path) :
    (∃ m ∈ l ++ l', m.updated? = some file) ↔
      (∃ m ∈ l, m.updated? = some file) ∨ ∃ m ∈ l', m.updated? = some file := by
  simp only [List.mem_append, or_and_right, exists_or]

/-- A dry run in `w` and another run have the files `done` behind them, and `w'` is what the other
one has made of the workspace. -/
structure Abreast (w : Workspace) (o : RenderOptions) (stamp : Text) (done : List Path)
    (w' : Workspace) : Prop where
  updates : ∃ reports, Update.files w o stamp done = (reports, none, w')
  keeps : w.Keeps w'
  rendered : ∀ q ∈ done, ∃ x, Render.file w q o = .ok x

/-- At the start both runs are `Abreast`, with no file behind them. -/
theorem Abreast.start {w : Workspace} (hw : w.Valid) (o : RenderOptions) (stamp : Text) :
    Abreast w o stamp [] w :=
  ⟨⟨[], rfl⟩, .refl hw, fun _ hq => absurd hq List.not_mem_nil⟩

section

variable {w w' : Workspace} {o : RenderOptions} {stamp : Text} {ps done rest : List Path} {p : Path}

/-- The other run renders the next file `p` too. It is as much out of date as in the dry run, unless
it was named before. -/
theorem Foreseeable.exists_rendered (h : Foreseeable w o stamp ps) (hps : ps = done ++ p :: rest)
    (habreast : Abreast w o stamp done w') {x : Rendered} (hrender : Render.file w p o = .ok x) :
    ∃ x', Render.file w' p o = .ok x' ∧
      ∀ file, IsDue w o (done ++ [p]) file ↔
        IsDue w o done file ∨ x'.text ≠ x'.document.text ∧ file = p := by
  obtain ⟨reports, hdone⟩ := habreast.updates
  rcases h.alike done p rest reports w' hps hdone with hsees | ⟨hmem, x', hrender', htext⟩
  · exact ⟨x, (Render.file_of_seesAlike hsees).trans hrender, isDue_concat hrender done⟩
  · refine ⟨x', hrender', fun file => ?_⟩
    rw [isDue_concat hrender]
    constructor
    · rintro (hdue | ⟨hne, rfl⟩)
      · exact .inl hdue
      · exact .inl ⟨hmem, x, hrender, hne⟩
    · exact fun hdue => .inl (hdue.resolve_right fun hne => hne.1 htext)

/-- A file that is not rendered ends both runs, with the same error if both look at the argument
first (as with `diff`), or the argument is plain. -/
theorem dryRun_stops (hw : w.Valid) (c : ProcessCommand) (verbose : Bool)
    (h : Foreseeable w o stamp ps) (hps : ps = done ++ p :: rest)
    (habreast : Abreast w o stamp done w') {e : Error} (hrender : Render.file w p o = .error e) :
    ∃ dry real,
      processFile w { c with dryRun := true } o verbose stamp p = ([], .error dry, w) ∧
      processFile w' { c with dryRun := false } o verbose stamp p = ([], .error real, w') ∧
      (c.diff = true ∨ w.IsPlain o.extension p → dry = real) := by
  obtain ⟨reports, hdone⟩ := habreast.updates
  -- such a file cannot have been named before
  have hsees : Render.SeesAlike w w' p o := by
    refine (h.alike done p rest reports w' hps hdone).resolve_right fun hagain => ?_
    obtain ⟨x, hx⟩ := habreast.rendered p hagain.1
    rw [hrender] at hx
    cases hx
  have hrender' := (Render.file_of_seesAlike hsees).trans hrender
  refine ⟨_, _, processFile_of_error verbose hrender stamp,
    processFile_of_error verbose hrender' stamp, fun hplain => ?_⟩
  rw [hsees.argument]
  cases hdiff : c.diff with
  | true => rfl
  | false =>
    have hp : w.IsPlain o.extension p := hplain.resolve_left (by simp [hdiff])
    cases hread : w.read p with
    | ok d => rfl
    | error e' => simp [Render.error_of_read hw hp hrender hread]

/-- **One file does the same to both runs.** Both go on, `Abreast` again with `p` behind them, and
what they tell of it is the same, up to the files that were out of date before. -/
theorem dryRun_step (hw : w.Valid) (hstamp : '/' ∉ stamp) (c : ProcessCommand) (verbose : Bool)
    (h : Foreseeable w o stamp ps) (hps : ps = done ++ p :: rest)
    (habreast : Abreast w o stamp done w') {x : Rendered} (hrender : Render.file w p o = .ok x) :
    ∃ dry real changed w'',
      processFile w { c with dryRun := true } o verbose stamp p = (dry, .ok false, w) ∧
      processFile w' { c with dryRun := false } o verbose stamp p = (real, .ok changed, w'') ∧
      Abreast w o stamp (done ++ [p]) w'' ∧
      ∀ file,
        (IsDue w o (done ++ [p]) file ↔ IsDue w o done file ∨ .wouldUpdate file ∈ dry) ∧
        (IsDue w o (done ++ [p]) file ↔
          IsDue w o done file ∨ ∃ m ∈ real, m.updated? = some file) := by
  obtain ⟨r, f, hx⟩ := Render.file_eq_ok hw hrender
  obtain ⟨reports, hdone⟩ := habreast.updates
  obtain ⟨dry, hdry, hwould⟩ := processFile_of_dryRun (c := { c with dryRun := true }) hw
    verbose rfl hrender stamp
  obtain ⟨x', hrender', hdue⟩ := h.exists_rendered hps habreast hrender
  have hbackups := (h.backups p (by rw [hps]; simp)).keeps habreast.keeps hx.resolve
  obtain ⟨real, report, w'', hreal, hfile, hkeeps, hupdated⟩ :=
    processFile_of_rendered (c := { c with dryRun := false }) habreast.keeps.valid verbose rfl
      hrender' hstamp hbackups
  refine ⟨dry, real, report.changed, w'', hdry, hreal,
    ⟨⟨_, Update.files_concat hdone hfile⟩, habreast.keeps.trans hkeeps, fun q hq => ?_⟩,
    fun file => ⟨?_, ?_⟩⟩
  · rcases List.mem_append.1 hq with hq | hq
    · exact habreast.rendered q hq
    · exact ⟨x, List.mem_singleton.1 hq ▸ hrender⟩
  · rw [hwould]
    exact isDue_concat hrender done file
  · rw [hupdated]
    exact hdue file

end

/-- What a dry run and another one have in common, where the files `done` are behind both. -/
structure Foresees (w : Workspace) (o : RenderOptions) (c : ProcessCommand) (done rest : List Path)
    (dry real : List Message × Option Error × Workspace) : Prop where
  fails : dry.2.1.isSome ↔ real.2.1.isSome
  error : c.diff = true ∨ (∀ p ∈ rest, w.IsPlain o.extension p) → dry.2.1 = real.2.1
  tells : ∀ file, (IsDue w o done file ∨ .wouldUpdate file ∈ dry.1) ↔
    (IsDue w o done file ∨ ∃ m ∈ real.1, m.updated? = some file)

/-- **Both runs side by side**, where the files `done` are behind them and `rest` are to come. The
induction is on `rest`; `dryRun_stops` and `dryRun_step` are its cases. -/
theorem processFiles_foreseen {w : Workspace} (hw : w.Valid) {o : RenderOptions} {stamp : Text}
    (hstamp : '/' ∉ stamp) (c : ProcessCommand) (verbose : Bool) {ps : List Path}
    (h : Foreseeable w o stamp ps) {done rest : List Path} (hps : ps = done ++ rest)
    {w' : Workspace} (habreast : Abreast w o stamp done w') (n m : Nat) :
    Foresees w o c done rest
      (processFiles w { c with dryRun := true } o verbose stamp n rest)
      (processFiles w' { c with dryRun := false } o verbose stamp m rest) := by
  induction rest generalizing done w' n m with
  | nil =>
    refine ⟨Iff.rfl, fun _ => rfl, fun file => or_congr_right ?_⟩
    rw [processFiles, processFiles]
    by_cases hm : m = 0 <;> simp [Message.updated?, hm]
  | cons p rest ih =>
    rw [processFiles, processFiles]
    cases hrender : Render.file w p o with
    | error e =>
      obtain ⟨e₁, e₂, hdry, hreal, hsame⟩ := dryRun_stops hw c verbose h hps habreast hrender
      rw [hdry, hreal]
      refine ⟨by simp, fun hplain => congrArg some (hsame ?_), fun file => by simp⟩
      exact hplain.imp_right fun hall => hall p List.mem_cons_self
    | ok x =>
      obtain ⟨shown, shown', changed, w'', hdry, hreal, hnext, htold⟩ :=
        dryRun_step hw hstamp c verbose h hps habreast hrender
      have hrest := ih (by rw [hps, List.append_assoc, List.singleton_append]) hnext
        (if false then n + 1 else n) (if changed then m + 1 else m)
      rw [hdry, hreal]
      refine ⟨hrest.fails, fun hplain => hrest.error ?_, fun file => ?_⟩
      · exact hplain.imp_right fun hall q hq => hall q (List.mem_cons_of_mem _ hq)
      · dsimp only
        rw [List.mem_append, exists_updated_append, ← or_assoc, ← or_assoc, ← (htold file).1,
          ← (htold file).2]
        exact hrest.tells file

/-- **What a dry run tells of the other one.** Where the updates leave alone what is read for the
files after them, and no backup fails (`Foreseeable`), the two runs have the same exit code, and
tell of the same files that they are to be updated and that they were. They fail with the same
error, if both look at the arguments first, or the arguments are plain. -/
theorem dryRun_foresees {w : Workspace} (hw : w.Valid) {stamp : Text} (hstamp : '/' ∉ stamp)
    {args args' : List Text} {i : Invocation} {c : ProcessCommand}
    (hargs : Invocation.ofArguments args =
      .ok { i with command := .process { c with dryRun := true } })
    (hargs' : Invocation.ofArguments args' =
      .ok { i with command := .process { c with dryRun := false } })
    (hforeseeable : ∀ settings,
      Settings.load w (i.settingsPath.getD w.currentPath) = .ok settings →
        Foreseeable w (c.options settings) stamp c.files) (noColor : Bool) :
    (run w stamp noColor args).1.exitCode = (run w stamp noColor args').1.exitCode ∧
      (c.diff = true ∨ (∀ settings,
          Settings.load w (i.settingsPath.getD w.currentPath) = .ok settings →
            ∀ p ∈ c.files, w.IsPlain (c.options settings).extension p) →
        (run w stamp noColor args).1.failure = (run w stamp noColor args').1.failure) ∧
      ∀ file,
        .wouldUpdate file ∈
            (perform w stamp { i with command := .process { c with dryRun := true } }).1 ↔
          ∃ m ∈ (perform w stamp { i with command := .process { c with dryRun := false } }).1,
            m.updated? = some file := by
  rw [run_of_arguments w stamp noColor hargs, run_of_arguments w stamp noColor hargs',
    perform_process w stamp rfl, perform_process w stamp rfl]
  dsimp only
  cases hsettings : Settings.load w (i.settingsPath.getD w.currentPath) with
  | error e => simp
  | ok settings =>
    have hforesees := processFiles_foreseen hw hstamp c i.verbose (hforeseeable settings hsettings)
      (show c.files = [] ++ c.files from rfl) (.start hw _ stamp) 0 0
    refine ⟨?_, fun hplain => ?_, fun file => ?_⟩
    · simp only [Outcome.exitCode, Option.isSome_map]
      exact congrArg (fun fails : Bool => if fails then 2 else 0)
        (Bool.eq_iff_iff.2 hforesees.fails)
    · refine congrArg _ (hforesees.error (hplain.imp_right fun hall => ?_))
      exact hall settings rfl
    · have hnone : ¬IsDue w (c.options settings) [] file := fun hdue => List.not_mem_nil hdue.1
      have htells := hforesees.tells file
      rw [or_iff_right hnone, or_iff_right hnone] at htells
      exact htells

/-- The arguments that name a document twice. -/
def twice (dryRun : Bool) : List Text :=
  ["process".toList] ++ (if dryRun then ["--dry-run".toList] else []) ++
    ["d.md".toList, "d.md".toList]

/-- What they are read as, without `--dry-run`. -/
def twice.command : ProcessCommand :=
  ⟨[Update.lone.path, Update.lone.path], false, false, false, none, none, none, false⟩

def twice.invocation : Invocation := ⟨none, false, false, .process twice.command⟩

/-- A document that is up to date when it is named again can be named twice. -/
theorem twice.foreseeable :
    Foreseeable (Update.lone Update.lone.settled) .default ['s'] twice.command.files where
  alike done p rest reports w' hps hdone := by
    have hagain : (Render.file (Update.file (Update.lone Update.lone.settled) Update.lone.path
          .default ['s']).2 Update.lone.path .default).toOption.any
        (fun x => x.text = x.document.text) = true := by
      decide +kernel
    match done with
    | [] =>
      cases hdone
      exact .inl (.refl _ _ _)
    | [q] =>
      obtain ⟨rfl, hrest⟩ := List.cons.inj hps
      obtain ⟨rfl, -⟩ := List.cons.inj hrest
      refine .inr ⟨List.mem_cons_self, ?_⟩
      rw [Update.files] at hdone
      split at hdone
      · cases hdone
      · next report w'' hfile =>
        cases hdone
        rw [hfile] at hagain
        obtain ⟨x, hx, htext⟩ := (Option.any_eq_true _ _).1 hagain
        exact ⟨x, Fill.eq_ok_of_toOption hx, by simpa using htext⟩
    | _ :: _ :: _ :: _ => simp [twice.command] at hps
    | [_, _] => simp [twice.command] at hps
  backups _ _ hbackup := nomatch hbackup

theorem dryRun_foresees_settled :
    (Update.lone Update.lone.settled).Valid ∧ '/' ∉ ['s'] ∧
      Invocation.ofArguments (twice true) = .ok { twice.invocation with
        command := .process { twice.command with dryRun := true } } ∧
      Invocation.ofArguments (twice false) = .ok { twice.invocation with
        command := .process { twice.command with dryRun := false } } ∧
      (∀ settings, Settings.load (Update.lone Update.lone.settled)
          (twice.invocation.settingsPath.getD
            (Update.lone Update.lone.settled).currentPath) = .ok settings →
        Foreseeable (Update.lone Update.lone.settled) (twice.command.options settings) ['s']
          twice.command.files) ∧
      (run (Update.lone Update.lone.settled) ['s'] false (twice true)).1.exitCode =
        (run (Update.lone Update.lone.settled) ['s'] false (twice false)).1.exitCode := by
  have hw : (Update.lone Update.lone.settled).Valid := by decide +kernel
  have hstamp : '/' ∉ ['s'] := by decide
  have hargs : Invocation.ofArguments (twice true) = .ok { twice.invocation with
      command := .process { twice.command with dryRun := true } } :=
    Fill.eq_ok_of_toOption (by decide +kernel)
  have hargs' : Invocation.ofArguments (twice false) = .ok { twice.invocation with
      command := .process { twice.command with dryRun := false } } :=
    Fill.eq_ok_of_toOption (by decide +kernel)
  have hsettings : Settings.load (Update.lone Update.lone.settled)
      (twice.invocation.settingsPath.getD
        (Update.lone Update.lone.settled).currentPath) = .ok none :=
    Fill.eq_ok_of_toOption (by decide +kernel)
  have hforeseeable : ∀ settings, Settings.load (Update.lone Update.lone.settled)
      (twice.invocation.settingsPath.getD
        (Update.lone Update.lone.settled).currentPath) = .ok settings →
      Foreseeable (Update.lone Update.lone.settled) (twice.command.options settings) ['s']
        twice.command.files := by
    intro settings h
    obtain rfl := Except.ok.inj (h.symm.trans hsettings)
    exact twice.foreseeable
  exact ⟨hw, hstamp, hargs, hargs', hforeseeable,
    (dryRun_foresees hw hstamp hargs hargs' hforeseeable false).1⟩

/-- A document whose update leaves a reference that is never closed. -/
def twice.opening : Text :=
  "<!--var(v)='<!--begin-ref(q)-->'--><!--begin-var(v)--><!--end-var-->".toList

/-- The exit code of a run over files is 2 if processing them ended with an error, and 0
otherwise. -/
theorem exitCode_of_process {w : Workspace} {stamp : Text} {noColor : Bool} {args : List Text}
    {i : Invocation} (hargs : Invocation.ofArguments args = .ok i) {c : ProcessCommand}
    (hcommand : i.command = .process c) {settings : Option Settings}
    (hsettings : Settings.load w (i.settingsPath.getD w.currentPath) = .ok settings) :
    (run w stamp noColor args).1.exitCode =
      if (processFiles w c (c.options settings) i.verbose stamp 0 c.files).2.1.isSome then 2
      else 0 := by
  rw [run_of_arguments _ _ _ hargs, perform_process _ _ hcommand, hsettings, Outcome.exitCode,
    Option.isSome_map]

/-- A document, and a broken link under the name of its backup. -/
def blocked : Workspace :=
  ⟨⟨[([.ofString "d.x.md"], .file ⟨.text (Update.lone.declaring []), 0o644⟩),
    ([.ofString "d.x.s.bak.md"], .link (.ofString "n/m"))]⟩, []⟩

namespace blocked

def command : ProcessCommand :=
  ⟨[.ofString "d.x.md"], true, false, false, some "x.md".toList, none, none, false⟩

def invocation (dryRun : Bool) : Invocation :=
  ⟨none, false, false, .process { command with dryRun := dryRun }⟩

def arguments (dryRun : Bool) : List Text :=
  ["process".toList] ++ (if dryRun then ["--dry-run".toList] else []) ++
    ["--backup".toList, "--ext".toList, "x.md".toList, "d.x.md".toList]

def rendered : Rendered :=
  ⟨.ofString "/d.x.md", ⟨Update.lone.declaring [], false⟩, Update.lone.declaring ['1']⟩

/-- The scan of `blocked` finds the document, and not the link, which does not have the
extension. -/
theorem files (depth : Depth) :
    Scan.files blocked (.ofString "/") depth (command.options none).scan =
      .ok [.ofString "/d.x.md"] := by
  have hnames : blocked.tree.names [] = [.ofString "d.x.md", .ofString "d.x.s.bak.md"] :=
    Tree.names_eq (by decide) (by decide)
  rw [Scan.files_of_flat (by decide) rfl rfl rfl hnames (by decide +kernel)]
  exact congrArg Except.ok (by decide +kernel)

theorem render : Render.file blocked (.ofString "d.x.md") (command.options none) =
    .ok rendered := by
  have hfiles := files (command.options none).depthDown
  have hfill : Render.fill blocked (command.options none) rendered.path
      (Update.lone.declaring []) = .ok rendered.text := by
    refine Fill.eq_ok_of_toOption ?_
    rw [Render.fill, Scan.varsAround_of_files hfiles, Scan.refsAround_of_files hfiles]
    decide +kernel
  have hsteps : (blocked.checkFile (.ofString "d.x.md") (command.options none).extension).toOption =
        some rendered.path ∧
      (blocked.read rendered.path).toOption = some rendered.document ∧
      (Render.expand blocked (command.options none) (.ofString "/")
        rendered.document.text).toOption = some rendered.document.text := by
    decide +kernel
  obtain ⟨hcheck, hread, hexpand⟩ := hsteps
  exact bind_eq_ok.2 ⟨_, Fill.eq_ok_of_toOption hcheck, bind_eq_ok.2 ⟨_,
    Fill.eq_ok_of_toOption hread, bind_eq_ok.2 ⟨_, Fill.eq_ok_of_toOption hexpand,
      bind_eq_ok.2 ⟨_, hfill, rfl⟩⟩⟩⟩

theorem valid : blocked.Valid := by decide +kernel

/-- The update in `blocked` fails, since the backup would be written through a link that leads to
nothing. -/
theorem update_fails : ∃ e w',
    Update.file blocked (.ofString "d.x.md") (command.options none) ['s'] = (.error e, w') := by
  have hfails : (Update.file blocked (.ofString "d.x.md") (command.options none)
      ['s']).1.toOption = none := by
    rw [Update.file, render]
    decide +kernel
  cases hfile : Update.file blocked (.ofString "d.x.md") (command.options none) ['s'] with
  | mk answer w' =>
    rw [hfile] at hfails
    cases answer with
    | error e => exact ⟨e, w', rfl⟩
    | ok report => cases hfails

/-- A dry run over the document of `blocked` ends without an error, and any other ends with one. -/
theorem isSome_failure (dryRun : Bool) :
    (processFiles blocked { command with dryRun := dryRun } (command.options none) false ['s'] 0
      [.ofString "d.x.md"]).2.1.isSome = !dryRun := by
  rw [processFiles]
  cases dryRun with
  | true =>
    obtain ⟨shown, hfile, -⟩ := processFile_of_dryRun (c := { command with dryRun := true }) valid
      false rfl render ['s']
    rw [hfile]
    rfl
  | false =>
    obtain ⟨e, w', hfile⟩ := update_fails
    have hprocess := processFile_of_update_error (c := { command with dryRun := false }) false rfl
      rfl hfile
    rw [hprocess]
    rfl

/-- The exit codes of the two runs differ: a dry run does not tell that the backup cannot be
made. -/
theorem exitCode (dryRun : Bool) : (run blocked ['s'] false (arguments dryRun)).1.exitCode =
    if dryRun then 0 else 2 := by
  have hargs : (Invocation.ofArguments (arguments dryRun)).toOption = some (invocation dryRun) := by
    revert dryRun
    decide +kernel
  have hsettings : (Settings.load blocked blocked.currentPath).toOption = some none := by
    decide +kernel
  rw [exitCode_of_process (Fill.eq_ok_of_toOption hargs) rfl (Fill.eq_ok_of_toOption hsettings)]
  show (if (processFiles blocked { command with dryRun := dryRun } (command.options none) false
    ['s'] 0 [.ofString "d.x.md"]).2.1.isSome then 2 else 0) = _
  rw [isSome_failure]
  cases dryRun <;> rfl

end blocked

/-- The arguments that name a directory. -/
def folder (dryRun : Bool) : List Text :=
  ["process".toList] ++ (if dryRun then ["--dry-run".toList] else []) ++ [['.']]

/-- **What a dry run cannot tell**: that an update has left a document that cannot be rendered
again, and that a backup cannot be made. What is wrong with a directory is told in another way. -/
theorem dryRun_misses :
    ((Update.lone twice.opening).Valid ∧
      (run (Update.lone twice.opening) ['s'] false (twice true)).1.exitCode = 0 ∧
      (run (Update.lone twice.opening) ['s'] false (twice false)).1.exitCode = 2 ∧
      (run (Update.lone twice.opening) ['s'] false (twice true)).1.diagnostic? ≠
        (run (Update.lone twice.opening) ['s'] false (twice false)).1.diagnostic?) ∧
    (blocked.Valid ∧
      (run blocked ['s'] false (blocked.arguments true)).1.exitCode = 0 ∧
      (run blocked ['s'] false (blocked.arguments false)).1.exitCode = 2) ∧
    (run (Update.lone twice.opening) ['s'] false (folder true)).1.diagnostic? ≠
      (run (Update.lone twice.opening) ['s'] false (folder false)).1.diagnostic? :=
  ⟨by decide +kernel, ⟨blocked.valid, blocked.exitCode true, blocked.exitCode false⟩,
    by decide +kernel⟩

end Command

end Transclude
