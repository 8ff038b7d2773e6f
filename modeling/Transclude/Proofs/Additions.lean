import Transclude.Proofs.Branches
import Transclude.Proofs.Contributions
import Transclude.Proofs.Updates

/-!
# A file more

What changes for the paths and scans of a workspace when a file is added under a name that no entry
had? A path that led to something still leads there; a path that led to nothing may lead to the new
file. No path to a directory is among them, so a scan goes through the same directories. It finds
the new file in its own directory, and all else as before.

A path that a scan finds and that led to nothing may now lead to the new file. Such a scan did not
succeed before, so scans that do (`Scan.Whole`) collect the same, if they do not find the new file
or find nothing in it.

Main statements:
- `Workspace.resolve_withNew`: where paths lead.
- `Workspace.agree_withNew`: a scan finds the same, but for the new file.
- `Scan.varsAround_of_adds`, `Scan.refsAround_of_adds`: what it collects.
-/

namespace Transclude

namespace Workspace

/-- A name in a directory for a new file. -/
structure Vacant (w : Workspace) (dir : Route) (name : Bytes) : Prop where
  valid : w.Valid
  new : w.tree.node? (dir ++ [name]) = none
  directory : w.tree.node? dir = some .directory
  isEntryName : IsEntryName name

theorem Vacant.valid_withFile {w : Workspace} {dir : Route} {name : Bytes} (h : w.Vacant dir name)
    (f : File) : (w.withFile (dir ++ [name]) f).Valid :=
  Workspace.valid_withFile h.valid (by simp)
    ((h.valid.tree.isNamed h.directory).concat h.isEntryName)
    (by rw [List.dropLast_concat]; exact h.directory) (by simp [h.new]) f

/-- Two workspaces of which the second one has a file more, with the text `t`. The path `b` leads to
it. -/
def Adds (w w' : Workspace) (b : Path) (t : Text) : Prop :=
  ∃ dir name mode, w.Vacant dir name ∧ w' = w.withFile (dir ++ [name]) ⟨.text t, mode⟩ ∧
    w'.resolve b = .ok (dir ++ [name])

section

variable {w : Workspace} {dir : Route} {name : Bytes}
  (hnew : w.tree.node? (dir ++ [name]) = none) (f : File)

include hnew

/-- **Where a path leads** when there is a new file at `dir ++ [name]`: to what it led to, or from
nothing to the file. A path that asked for a directory there fails in another way. -/
theorem resolve_withNew (p : Path) :
    (w.withFile (dir ++ [name]) f).resolve p = w.resolve p ∨
      w.resolve p = .error .missing ∧
        ((w.withFile (dir ++ [name]) f).resolve p = .error .notDirectory ∨
          (w.withFile (dir ++ [name]) f).resolve p = .ok (dir ++ [name])) := by
  rw [resolve, resolve]
  split
  · exact .inl rfl
  · exact Tree.follow_new hnew f maxLinks (w.startOf p) p.steps

/-- What a path led to before, at the route `r`, it leads to with the new file as well. -/
theorem resolve_withNew_of_ok {p : Path} {r : Route} (h : w.resolve p = .ok r) :
    (w.withFile (dir ++ [name]) f).resolve p = .ok r := by
  rcases resolve_withNew hnew f p with hsame | ⟨hmissing, -⟩
  · rw [hsame, h]
  · rw [hmissing] at h
    cases h

/-- No path leads to where nothing is, so none led to `dir ++ [name]` before. -/
theorem resolve_ne_new (p : Path) : w.resolve p ≠ .ok (dir ++ [name]) := by
  intro h
  have hsome := isSome_of_resolve h
  rw [hnew] at hsome
  cases hsome

/-- The entry at `r` that a path led to before is what it was. -/
theorem node?_withNew_of_ok {p : Path} {r : Route} (h : w.resolve p = .ok r) :
    (w.withFile (dir ++ [name]) f).tree.node? r = w.tree.node? r := by
  have hr : r ≠ dir ++ [name] := by
    rintro rfl
    exact resolve_ne_new hnew p h
  rw [node?_withFile (by simp), if_neg hr]

/-- A path leads to the same entry as before, or from nothing to the new file. -/
theorem node?_path_withNew (p : Path) :
    (w.withFile (dir ++ [name]) f).node? p = w.node? p ∨
      w.node? p = none ∧ (w.withFile (dir ++ [name]) f).node? p = some (.file f) ∧
        (w.withFile (dir ++ [name]) f).resolve p = .ok (dir ++ [name]) := by
  rw [Workspace.node?, Workspace.node?]
  rcases resolve_withNew hnew f p with hsame | ⟨hmissing, hother | hother⟩
  · rw [hsame]
    cases hp : w.resolve p with
    | error fault => exact .inl rfl
    | ok r => exact .inl (node?_withNew_of_ok hnew f hp)
  · rw [hmissing, hother]
    exact .inl rfl
  · rw [hmissing, hother]
    refine .inr ⟨rfl, ?_, rfl⟩
    dsimp only
    rw [node?_withFile (by simp), if_pos rfl]

/-- A new file is no directory, and none is hidden by it. -/
theorem isDirectory_withNew (p : Path) :
    (w.withFile (dir ++ [name]) f).isDirectory p = w.isDirectory p := by
  rcases node?_path_withNew hnew f p with hsame | ⟨hnone, hfile, -⟩
  · simp only [isDirectory, hsame]
  · simp [isDirectory, hnone, hfile]

/-- A path that does not lead to the new file leads to a file exactly if it did before. -/
theorem isFile_withNew {p : Path}
    (hp : (w.withFile (dir ++ [name]) f).resolve p ≠ .ok (dir ++ [name])) :
    (w.withFile (dir ++ [name]) f).isFile p = w.isFile p := by
  rcases node?_path_withNew hnew f p with hsame | ⟨-, -, hother⟩
  · simp only [isFile, hsame]
  · exact absurd hother hp

/-- What is read at `p` is the same, where `p` leads to the same. -/
theorem read_withNew {p : Path} (hp : (w.withFile (dir ++ [name]) f).resolve p = w.resolve p) :
    (w.withFile (dir ++ [name]) f).read p = w.read p := by
  rw [read, read, readText, readText, hp]
  cases hr : w.resolve p with
  | error fault => rfl
  | ok r =>
    dsimp only
    rw [node?_withNew_of_ok hnew f hr]

/-- The answer of `checkFile`, for the extension and whether the file is there, is the same for all
that was there before. -/
theorem checkFile_withNew {p : Path} {r : Route} (h : w.resolve p = .ok r) (extension : Text) :
    (w.withFile (dir ++ [name]) f).checkFile p extension = w.checkFile p extension := by
  have hsame := resolve_withNew_of_ok hnew f h
  have hfile : (w.withFile (dir ++ [name]) f).isFile p = w.isFile p := by
    refine isFile_withNew hnew f fun hr => resolve_ne_new hnew p ?_
    rw [h, ← hsame, hr]
  rw [checkFile, checkFile, hfile, hsame, h]

end

/-- What is read is a matter of where a path leads: two paths `p` and `q` to one entry give the
same. -/
theorem read_congr {w : Workspace} {p q : Path} {r : Route} (hp : w.resolve p = .ok r)
    (hq : w.resolve q = .ok r) : w.read p = w.read q := by
  have hsome := isSome_of_resolve hp
  have hsame : w.readText p = w.readText q := by rw [readText, readText, hp, hq]
  have hthere : w.readText q ≠ .error .missing := by
    rw [readText, hq]
    dsimp only
    obtain ⟨node, hnode⟩ := Option.isSome_iff_exists.1 hsome
    rw [hnode]
    rcases node with ⟨⟨t⟩ | ⟨b⟩, mode⟩ | - | target <;> simp
  rw [read, read, hsame]
  cases h : w.readText q with
  | ok t => rfl
  | error fault =>
    cases fault with
    | missing => exact absurd h hthere
    | _ => rfl

/-- The steps to an entry `n` of a directory are those that lead to the directory, and its name. The
links that were used up on the way count for the rest too. -/
theorem exists_lead_entry {w : Workspace} {d : Path} {r : Route} (hd : w.resolve d = .ok r)
    (hr : w.tree.node? r = some .directory) {n : Bytes} (hn : IsEntryName n) :
    ∃ lead m, (d.entry n).steps = lead ++ [.down n] ∧ ∀ rest,
      w.tree.reach maxLinks (w.startOf (d.entry n)) (lead ++ rest) = w.tree.reach m r rest := by
  have hrooted := Path.isRooted_name hn
  obtain ⟨lead, hsteps, hlead⟩ := Path.steps_join d (q := ⟨n⟩) hn.1 hrooted
  rw [Path.steps_name hn] at hsteps
  rw [resolve] at hd
  split at hd
  · cases hd
  next hd' =>
  obtain ⟨hreach, -⟩ := Tree.follow_eq_ok_iff.1 hd
  obtain ⟨ask, hask, hdsteps⟩ : ∃ ask, (ask = [] ∨ ask = [.here]) ∧ d.steps = lead ++ ask := by
    rcases hlead with hlead | hlead
    · exact ⟨[], .inl rfl, by rw [hlead, List.append_nil]⟩
    · exact ⟨[.here], .inr rfl, hlead⟩
  rw [hdsteps] at hreach
  obtain ⟨m, hm⟩ := Tree.reach_append hr hask hreach
  have hstart : w.startOf (d.entry n) = w.startOf d := by
    rw [startOf, startOf, Path.entry, Path.isRooted_join hd' hrooted]
  refine ⟨lead, m, hsteps, fun rest => ?_⟩
  rw [hstart]
  exact hm rest

/-- The path of an entry goes on where the path `d` of its directory led. -/
theorem resolve_entry {w : Workspace} {d : Path} {r : Route} (hd : w.resolve d = .ok r)
    (hr : w.tree.node? r = some .directory) {n : Bytes} (hn : IsEntryName n) :
    ∃ m, w.resolve (d.entry n) = w.tree.follow m r [.down n] := by
  obtain ⟨lead, m, hsteps, hlead⟩ := exists_lead_entry hd hr hn
  have hbytes : (d.entry n).bytes ≠ [] := by
    intro hbytes
    have hnil : (d.entry n).steps = [] := by
      rw [Path.steps, Path.segments, hbytes]
      rfl
    rw [hnil] at hsteps
    exact absurd hsteps.symm (by simp)
  refine ⟨m, ?_⟩
  rw [resolve, if_neg hbytes, hsteps]
  exact Tree.follow_congr (hlead [.down n])

/-- The path `d.entry n` of a file or a directory in a directory leads to it, if `d` leads to the
directory. -/
theorem resolve_entry_of_node? {w : Workspace} {d : Path} {r : Route} (hd : w.resolve d = .ok r)
    (hr : w.tree.node? r = some .directory) {n : Bytes} (hn : IsEntryName n) {node : Node}
    (hnode : w.tree.node? (r ++ [n]) = some node) (hlink : ∀ target, node ≠ .link target) :
    w.resolve (d.entry n) = .ok (r ++ [n]) := by
  obtain ⟨m, hresolve⟩ := resolve_entry hd hr hn
  rw [hresolve]
  refine Tree.follow_of_reach ?_ hnode
  rw [Tree.reach_eq_take]
  cases node with
  | file f => exact Tree.take_down_file hnode
  | directory => exact Tree.take_down_directory hnode []
  | link target => exact absurd rfl (hlink target)

/-- The new file is an entry of its directory, by every path `d` that leads there. -/
theorem resolve_new {w : Workspace} {dir : Route} {name : Bytes} (h : w.Vacant dir name) (f : File)
    {d : Path} (hd : w.resolve d = .ok dir) :
    (w.withFile (dir ++ [name]) f).resolve (d.entry name) = .ok (dir ++ [name]) := by
  have hdir : (w.withFile (dir ++ [name]) f).tree.node? dir = some .directory := by
    rw [node?_withNew_of_ok h.new f hd, h.directory]
  have hnode : (w.withFile (dir ++ [name]) f).tree.node? (dir ++ [name]) = some (.file f) := by
    rw [node?_withFile (by simp), if_pos rfl]
  have hd' := resolve_withNew_of_ok h.new f hd
  exact resolve_entry_of_node? hd' hdir h.isEntryName hnode fun target heq => nomatch heq

/-- Where a file would be written by the path `p`, that path leads to it when it is there. -/
theorem resolve_of_target {w : Workspace} {dir : Route} {name : Bytes}
    (hnew : w.tree.node? (dir ++ [name]) = none) (f : File) {p : Path}
    (hp : w.target p = .ok (dir ++ [name])) :
    (w.withFile (dir ++ [name]) f).resolve p = .ok (dir ++ [name]) := by
  rw [target] at hp
  split at hp
  · cases hp
  next htext =>
  rw [resolve, if_neg htext]
  rcases Tree.reach_new hnew f maxLinks (w.startOf p) p.steps with hsame | ⟨hmissing, -⟩
  · refine Tree.follow_of_reach (hsame.trans hp) (n := .file f) ?_
    exact (node?_withFile (by simp) w f _).trans (if_pos rfl)
  · rw [hmissing] at hp
    cases hp

/-- Whether a path does not lead to a route. -/
def misses (w : Workspace) (r : Route) (p : Path) : Bool :=
  match w.resolve p with
  | .ok q => q ≠ r
  | .error _ => true

/-- The answer of `misses` is that the path does not lead to `r`, be it that it leads nowhere. -/
theorem misses_iff {w : Workspace} {r : Route} {p : Path} :
    w.misses r p = true ↔ w.resolve p ≠ .ok r := by
  rw [misses]
  cases w.resolve p with
  | error fault => simp
  | ok q => simp

/-- What a scan looks at in a directory: what it looked at before, `ps` and `qs`, and in its own
directory the new file between them, unless it is excluded. -/
theorem entries_withNew {w : Workspace} {dir : Route} {name : Bytes} (h : w.Vacant dir name)
    (f : File) (excluded : Path → Bool → Bool) {d : Path} {r : Route}
    (hd : w.resolve d = .ok r) : ∃ ps new qs,
      Scan.entries w excluded d r = ps ++ qs ∧
        Scan.entries (w.withFile (dir ++ [name]) f) excluded d r = ps ++ (new ++ qs) ∧
        ∀ p ∈ new, (w.withFile (dir ++ [name]) f).resolve p = .ok (dir ++ [name]) := by
  have hentries (names : List Bytes)
      (hnames : (w.withFile (dir ++ [name]) f).tree.names r = names) :
      Scan.entries (w.withFile (dir ++ [name]) f) excluded d r =
        (names.map d.entry).filter fun p => !excluded p (w.isDirectory p) := by
    rw [Scan.entries, hnames]
    simp only [isDirectory_withNew h.new f]
  by_cases hr : r = dir
  · subst hr
    obtain ⟨l₁, l₂, hold, hall⟩ := Tree.names_new h.new f
    refine ⟨(l₁.map d.entry).filter fun p => !excluded p (w.isDirectory p),
      [d.entry name].filter fun p => !excluded p (w.isDirectory p),
      (l₂.map d.entry).filter fun p => !excluded p (w.isDirectory p), ?_, ?_, fun p hp => ?_⟩
    · rw [Scan.entries, hold, List.map_append, List.filter_append]
    · rw [hentries _ hall, List.map_append, List.filter_append, List.map_cons,
        ← List.singleton_append, List.filter_append]
    · rw [List.mem_singleton.1 (List.mem_filter.1 hp).1]
      exact resolve_new h f hd
  · refine ⟨Scan.entries w excluded d r, [], [], (List.append_nil _).symm, ?_, by simp⟩
    rw [hentries _ (Tree.names_new_of_ne h.new f hr), List.append_nil, List.append_nil]
    rfl

/-- **A scan finds the same**, but for the paths that lead to the new file. These are what `misses`
leaves out. -/
theorem agree_withNew {w : Workspace} {dir : Route} {name : Bytes} (h : w.Vacant dir name)
    (f : File) (accepts : Path → Bool) (excluded : Path → Bool → Bool) :
    Scan.Agree w (w.withFile (dir ++ [name]) f) accepts excluded
      ((w.withFile (dir ++ [name]) f).misses (dir ++ [name])) := by
  have hdirectory := isDirectory_withNew h.new f
  refine ⟨hdirectory, fun p hp => ?_, fun d r hd hr => ?_, fun d r hd hr => ?_⟩
  · obtain ⟨r, hr, -⟩ := exists_of_isDirectory hp
    rw [hr, resolve_withNew_of_ok h.new f hr]
  · obtain ⟨ps, new, qs, hold, hall, hnewPaths⟩ := entries_withNew h f excluded hd
    have hdrop : (new.filter fun p => !w.isDirectory p && accepts p).filter
        ((w.withFile (dir ++ [name]) f).misses (dir ++ [name])) = [] :=
      List.filter_eq_nil_iff.2 fun p hp hmiss =>
        misses_iff.1 hmiss (hnewPaths p (List.mem_filter.1 hp).1)
    rw [Scan.collected, Scan.collected, hall, hold]
    simp only [hdirectory, List.filter_append]
    rw [hdrop, List.nil_append]
  · obtain ⟨ps, new, qs, hold, hall, hnewPaths⟩ := entries_withNew h f excluded hd
    have hdrop : new.filter (w.withFile (dir ++ [name]) f).isDirectory = [] := by
      refine List.filter_eq_nil_iff.2 fun p hp hisDirectory => ?_
      obtain ⟨q, hq, hnode⟩ := exists_of_isDirectory hisDirectory
      rw [hnewPaths p hp] at hq
      rw [← Except.ok.inj hq, node?_withFile (by simp), if_pos rfl] at hnode
      cases hnode
    rw [Scan.entered, Scan.entered, hall, hold, List.filter_append, List.filter_append, hdrop,
      List.nil_append, funext hdirectory, ← List.filter_append]

end Workspace

namespace Scan

/-- The file that a path leads to is among those that a scan finds around a file. -/
def Meets (w : Workspace) (p file : Path) (up : Nat) (down : Depth) (options : ScanOptions) :
    Prop :=
  ∃ ps, files w (Scope.around w.currentPath file up down).1
    (Scope.around w.currentPath file up down).2 options = .ok ps ∧
      ∃ q ∈ ps, w.resolve q = w.resolve p

/-- Every path that a scan finds around a file leads to something. -/
def Whole (w : Workspace) (file : Path) (up : Nat) (down : Depth) (options : ScanOptions) : Prop :=
  ∀ ps, files w (Scope.around w.currentPath file up down).1
    (Scope.around w.currentPath file up down).2 options = .ok ps → ∀ p ∈ ps,
      ∃ r, w.resolve p = .ok r

theorem exists_of_read {w : Workspace} {p : Path} {d : Document} (h : w.read p = .ok d) :
    ∃ r, w.resolve p = .ok r := by
  rw [Workspace.read, Workspace.readText] at h
  cases hr : w.resolve p with
  | ok r => exact ⟨r, rfl⟩
  | error fault =>
    rw [hr] at h
    cases fault <;> cases h

theorem exists_of_collectAll {w : Workspace} {collect : Text → Bindings → Except Error Bindings}
    {ps : List Path} {found out : Bindings} (h : collectAll w collect ps found = .ok out) :
    ∀ p ∈ ps, ∃ r, w.resolve p = .ok r := by
  induction ps generalizing found with
  | nil => exact fun p hp => nomatch hp
  | cons q ps ih =>
    obtain ⟨d, hread, h⟩ := bind_eq_ok.1 h
    obtain ⟨between, -, hrest⟩ := bind_eq_ok.1 h
    intro p hp
    rcases List.mem_cons.1 hp with rfl | hp
    · exact exists_of_read hread
    · exact ih hrest p hp

/-- A scan for variables that succeeds has read every file that it found, so it is `Whole`: all of
them are there. -/
theorem whole_of_varsAround {w : Workspace} {file : Path} {up : Nat} {down : Depth}
    {options : ScanOptions} {vars : Bindings}
    (h : varsAround w file up down options = .ok vars) : Whole w file up down options := by
  intro ps hps
  obtain ⟨ps', hps', hcollect⟩ := bind_eq_ok.1 h
  obtain rfl := Except.ok.inj (hps.symm.trans hps')
  exact exists_of_collectAll hcollect

section

variable {w : Workspace} {dir : Route} {name : Bytes} (h : w.Vacant dir name) {root : Path}
  {depth : Depth} {options : ScanOptions}
  (hwhole : ∀ ps, files w root depth options = .ok ps → ∀ p ∈ ps, ∃ r, w.resolve p = .ok r)

include h hwhole

/-- The files of a scan with the new file are those that it found before, once the paths that lead
to the new file are filtered out by `misses`. -/
theorem files_withNew (f : File) :
    (files (w.withFile (dir ++ [name]) f) root depth options).map
        (List.filter ((w.withFile (dir ++ [name]) f).misses (dir ++ [name]))) =
      files w root depth options := by
  rw [files_congr (Workspace.isDirectory_withNew h.new f root) fun rules _ =>
    Workspace.agree_withNew h f options.matchesFile rules.excludes]
  cases hps : files w root depth options with
  | error e => rfl
  | ok ps =>
    refine congrArg Except.ok (List.filter_eq_self.2 fun p hp => Workspace.misses_iff.2 ?_)
    obtain ⟨r, hr⟩ := hwhole ps hps p hp
    rw [Workspace.resolve_withNew_of_ok h.new f hr, ← hr]
    exact Workspace.resolve_ne_new h.new p

/-- **A scan collects the same**, if it does not find the new file or `collect` finds nothing in
it. -/
theorem collectBelow_withNew {t : Text} {mode : Nat}
    {collect : Text → Bindings → Except Error Bindings}
    (hempty : ∀ ps, files (w.withFile (dir ++ [name]) ⟨.text t, mode⟩) root depth options = .ok ps →
      (∃ p ∈ ps, (w.withFile (dir ++ [name]) ⟨.text t, mode⟩).resolve p = .ok (dir ++ [name])) →
        ∀ found, collect (Text.unifyLineEnds (Document.ofText t).text) found = .ok found)
    (previous : Bindings) :
    collectBelow (w.withFile (dir ++ [name]) ⟨.text t, mode⟩) collect root depth options previous =
      collectBelow w collect root depth options previous := by
  have hfiles := files_withNew h hwhole ⟨.text t, mode⟩
  rw [collectBelow, collectBelow, ← hfiles]
  cases hps : files (w.withFile (dir ++ [name]) ⟨.text t, mode⟩) root depth options with
  | error e => rfl
  | ok ps =>
    rw [hps] at hfiles
    refine collectAll_filter (fun p hp hkeep => ?_) (fun p hp hskip => ?_) previous
    · obtain ⟨r, hr⟩ := hwhole _ hfiles.symm p (List.mem_filter.2 ⟨hp, hkeep⟩)
      exact Workspace.read_withNew h.new _
        ((Workspace.resolve_withNew_of_ok h.new _ hr).trans hr.symm)
    · have hresolve : (w.withFile (dir ++ [name]) ⟨.text t, mode⟩).resolve p =
          .ok (dir ++ [name]) :=
        Classical.byContradiction fun hne =>
          Bool.false_ne_true (hskip.symm.trans (Workspace.misses_iff.2 hne))
      have hfile : (w.withFile (dir ++ [name]) ⟨.text t, mode⟩).tree.node? (dir ++ [name]) =
          some (.file ⟨.text t, mode⟩) := by
        rw [Workspace.node?_withFile (by simp), if_pos rfl]
      exact ⟨.ofText t, Workspace.read_of_node? hresolve hfile, hempty ps hps ⟨p, hp, hresolve⟩⟩

end

section

variable {w w' : Workspace} {b : Path} {t : Text} (h : w.Adds w' b t) {file : Path} {up : Nat}
  {down : Depth} {options : ScanOptions} (hwhole : Whole w file up down options)

include h hwhole

/-- The variables around `file` are not changed by a new file that declares none, or is not met by
the scan. -/
theorem varsAround_of_adds
    (hempty : Meets w' b file up down options →
      Variables.declared (Piece.scanned (Document.ofText t).text) = []) :
    varsAround w' file up down options = varsAround w file up down options := by
  obtain ⟨dir, name, mode, hvacant, rfl, hb⟩ := h
  exact collectBelow_withNew hvacant hwhole (fun ps hps ⟨p, hp, hresolve⟩ =>
    Variables.collect_of_nil (hempty ⟨ps, hps, p, hp, hresolve.trans hb.symm⟩)) _

/-- The references around `file` are not changed by a file that holds none, or is not met by the
scan. -/
theorem refsAround_of_adds
    (hempty : Meets w' b file up down options →
      References.held none (Piece.scanned (Document.ofText t).text) = some []) :
    refsAround w' file up down options = refsAround w file up down options := by
  obtain ⟨dir, name, mode, hvacant, rfl, hb⟩ := h
  exact collectBelow_withNew hvacant hwhole (fun ps hps ⟨p, hp, hresolve⟩ =>
    References.collect_of_nil (hempty ⟨ps, hps, p, hp, hresolve.trans hb.symm⟩)) _

end

end Scan

end Transclude
