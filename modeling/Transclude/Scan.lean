import Transclude.Tree.Storage
import Transclude.Exclude
import Transclude.Content
import Transclude.Variables

/-!
# Scans

A scan (`collect_files`) goes through the directories below a root and collects the files with an
extension: those of a directory in the order of their names, then those of its subdirectories, each
as deep as the depth allows. Links to directories count as directories. A directory that the scan
meets a second time, by whatever path, ends it with an error, so a scan always ends: every step
lists a directory of the tree that has not been listed before.

The program walks by calling itself for every subdirectory (`walk_dir`), with one set of the
directories that it has seen. Here `Scan.visit` keeps a list of the directories that are pending,
and puts those below a directory in front of it; that the two come to the same is shown where the
walks are compared (`Scan.nested_eq_visit`). References and variables are collected over all files
of a scan, in its order (`collect_refs_in_directory`, `get_vars_in_directory`,
`collect_refs_around`, `get_vars_around`).

A scan depends on which paths lead to directories, and to which; on what is in them, but for the
entries that it neither reads nor enters; and on what the files that it collects hold.

Main statements:
- `Scan.visit_cons`: what one more directory adds to a walk.
- `Scan.files_congr`, `Scan.collectAll_filter`: two workspaces that agree on all that a scan depends
  on have the same scans. They may differ in some of the files that a scan finds.
-/

namespace Transclude

namespace Scan

/-- The directories of a tree that are not among the listed ones. -/
def unlisted (t : Tree) (listed : List Route) : List Route :=
  t.directories.filter fun r => r ∉ listed

/-- Fewer directories are left when one more is listed, so a walk ends. -/
theorem length_unlisted_lt {t : Tree} {listed : List Route} {r : Route} (h : r ∈ t.directories)
    (hv : r ∉ listed) : (unlisted t (r :: listed)).length < (unlisted t listed).length := by
  have hr : r ∈ unlisted t listed := by simp [unlisted, h, hv]
  have heq : unlisted t (r :: listed) = (unlisted t listed).filter (· ≠ r) := by
    simp [unlisted, List.filter_filter]
  rw [heq]
  exact List.length_filter_lt_length_iff_exists.2 ⟨r, hr, by simp⟩

/-- The entries of the directory with path `dir` and route `r` that are not left out. -/
def entries (w : Workspace) (excluded : Path → Bool → Bool) (dir : Path) (r : Route) : List Path :=
  ((w.tree.names r).map dir.entry).filter fun p => !excluded p (w.isDirectory p)

/-- What a walk through directories has come to. -/
structure Walk where
  /-- The directories that it has listed, the last first. -/
  listed : List Route
  /-- The files that it has collected, or the error that ended it. -/
  result : Except Error (List Path)

/-- Lists the pending directories, and those below them before the ones that come after. -/
def visit (w : Workspace) (accepts : Path → Bool) (excluded : Path → Bool → Bool)
    (listed : List Route) (files : List Path) : (pending : List (Path × Depth)) → Walk
  | [] => ⟨listed, .ok files⟩
  | (dir, depth) :: pending =>
    match w.resolve dir with
    | .error fault => ⟨listed, .error (.io fault)⟩
    | .ok r =>
      if _hv : r ∈ listed then ⟨listed, .error (.symlinkCycle dir.text)⟩
      else if _hd : r ∈ w.tree.directories then
        let here := entries w excluded dir r
        let found := here.filter fun p => !w.isDirectory p && accepts p
        let below := if depth.isExhausted then [] else here.filter w.isDirectory
        visit w accepts excluded (r :: listed) (files ++ found)
          (below.map (·, depth.descend) ++ pending)
      else ⟨listed, .error (.io .notDirectory)⟩
termination_by (unlisted w.tree listed).length
decreasing_by exact length_unlisted_lt _hd _hv

/-- The walk through a directory and the directories below it, as deep as `depth` allows. It
collects the files that are accepted and enters what is not excluded. -/
def walk (w : Workspace) (accepts : Path → Bool) (excluded : Path → Bool → Bool) (root : Path)
    (depth : Depth) : Walk :=
  visit w accepts excluded [] [] [(root, depth)]

/-- The files of a scan, in the order of the scan. -/
def files (w : Workspace) (root : Path) (depth : Depth) (options : ScanOptions) :
    Except Error (List Path) :=
  if options.extension = [] then .error (.validation .emptyExtension)
  else if !w.isDirectory root then .error (.notFound root.text)
  else do
    let rules ← ExcludeRules.ofLines root options.exclude
    (walk w options.matchesFile rules.excludes root depth).result

/-- Adds what `collect` finds in each of the files, in their order. Line ends count as line feeds.
-/
def collectAll (w : Workspace) (collect : Text → Bindings → Except Error Bindings) :
    List Path → Bindings → Except Error Bindings
  | [], found => .ok found
  | p :: ps, found => do
    let d ← w.read p
    let found ← collect (Text.unifyLineEnds d.text) found
    collectAll w collect ps found

/-- What `collect` finds in the files of a scan, on top of `previous`. -/
def collectBelow (w : Workspace) (collect : Text → Bindings → Except Error Bindings) (root : Path)
    (depth : Depth) (options : ScanOptions) (previous : Bindings) : Except Error Bindings := do
  let ps ← files w root depth options
  collectAll w collect ps previous

/-- The references below a directory. -/
def refs (w : Workspace) (root : Path) (depth : Depth) (options : ScanOptions)
    (previous : Bindings) : Except Error Bindings :=
  collectBelow w References.collect root depth options previous

/-- The variables below a directory. -/
def vars (w : Workspace) (root : Path) (depth : Depth) (options : ScanOptions)
    (previous : Bindings) : Except Error Bindings :=
  collectBelow w Variables.collect root depth options previous

/-- The references in the scope of a file. -/
def refsAround (w : Workspace) (file : Path) (up : Nat) (down : Depth) (options : ScanOptions) :
    Except Error Bindings :=
  let (root, depth) := Scope.around w.currentPath file up down
  refs w root depth options .empty

/-- The variables in the scope of a file. -/
def varsAround (w : Workspace) (file : Path) (up : Nat) (down : Depth) (options : ScanOptions) :
    Except Error Bindings :=
  let (root, depth) := Scope.around w.currentPath file up down
  vars w root depth options .empty

/-! ## What a scan depends on -/

/-- What a scan enters of a directory with path `dir` and route `r`. -/
def entered (w : Workspace) (excluded : Path → Bool → Bool) (dir : Path) (r : Route) : List Path :=
  (entries w excluded dir r).filter w.isDirectory

/-- What a scan collects of it. -/
def collected (w : Workspace) (accepts : Path → Bool) (excluded : Path → Bool → Bool) (dir : Path)
    (r : Route) : List Path :=
  (entries w excluded dir r).filter fun p => !w.isDirectory p && accepts p

/-- Two workspaces in which a scan finds the same directories, and the same files as far as `keep`
keeps them. -/
structure Agree (w w' : Workspace) (accepts : Path → Bool) (excluded : Path → Bool → Bool)
    (keep : Path → Bool) : Prop where
  isDirectory : ∀ p, w'.isDirectory p = w.isDirectory p
  resolve : ∀ p, w.isDirectory p = true → w'.resolve p = w.resolve p
  collected : ∀ dir r, w.resolve dir = .ok r → w.tree.node? r = some .directory →
    (collected w' accepts excluded dir r).filter keep =
      (collected w accepts excluded dir r).filter keep
  entered : ∀ dir r, w.resolve dir = .ok r → w.tree.node? r = some .directory →
    entered w' excluded dir r = entered w excluded dir r

variable {w w' : Workspace} {accepts : Path → Bool} {excluded : Path → Bool → Bool}
variable {keep : Path → Bool}

/-- One more directory is listed: a scan that has met it before ends, and otherwise collects its
files and goes on with those it enters, before the `pending` ones. -/
theorem visit_cons {dir : Path} {depth : Depth} {listed : List Route} {files : List Path}
    {pending : List (Path × Depth)} {r : Route} (hresolve : w.resolve dir = .ok r)
    (hr : w.tree.node? r = some .directory) :
    visit w accepts excluded listed files ((dir, depth) :: pending) =
      if r ∈ listed then ⟨listed, .error (.symlinkCycle dir.text)⟩
      else visit w accepts excluded (r :: listed) (files ++ collected w accepts excluded dir r)
        ((if depth.isExhausted then [] else entered w excluded dir r).map (·, depth.descend) ++
          pending) := by
  rw [visit, hresolve]
  dsimp only
  by_cases hlisted : r ∈ listed
  · rw [dif_pos hlisted, if_pos hlisted]
  · rw [dif_neg hlisted, dif_pos (Tree.mem_directories hr), if_neg hlisted]
    rfl

/-- Walks in workspaces that agree come to the same, as far as `keep` keeps files. They enter the
same directories. -/
theorem visit_congr (h : Agree w w' accepts excluded keep) {listed : List Route}
    {files files' : List Path} (hfiles : files'.filter keep = files.filter keep)
    {pending : List (Path × Depth)} (hpending : ∀ d ∈ pending, w.isDirectory d.1 = true) :
    (visit w' accepts excluded listed files' pending).result.map (List.filter keep) =
      (visit w accepts excluded listed files pending).result.map (List.filter keep) := by
  -- the directories that are not listed yet get fewer
  induction hn : (unlisted w.tree listed).length using Nat.strongRecOn generalizing
    listed files files' pending with
  | ind n ih =>
  subst hn
  cases pending with
  | nil =>
    rw [visit, visit]
    exact congrArg Except.ok hfiles
  | cons d pending =>
    obtain ⟨dir, depth⟩ := d
    have hdir : w.isDirectory dir = true := hpending _ List.mem_cons_self
    obtain ⟨r, hresolve, hr⟩ := Workspace.exists_of_isDirectory hdir
    obtain ⟨r', hresolve', hr'⟩ := Workspace.exists_of_isDirectory ((h.isDirectory dir).trans hdir)
    obtain rfl : r = r' :=
      Except.ok.inj (hresolve.symm.trans ((h.resolve dir hdir).symm.trans hresolve'))
    rw [visit_cons hresolve hr, visit_cons hresolve' hr', h.entered dir r hresolve hr]
    by_cases hlisted : r ∈ listed
    · rw [if_pos hlisted, if_pos hlisted]
    · rw [if_neg hlisted, if_neg hlisted]
      refine ih _ (length_unlisted_lt (Tree.mem_directories hr) hlisted) ?_ (fun d hd => ?_) rfl
      · rw [List.filter_append, List.filter_append, hfiles, h.collected dir r hresolve hr]
      · rcases List.mem_append.1 hd with hd | hd
        · obtain ⟨p, hp, rfl⟩ := List.mem_map.1 hd
          split at hp
          · cases hp
          · exact (List.mem_filter.1 hp).2
        · exact hpending d (List.mem_cons_of_mem _ hd)

/-- **The files of a scan** that `keep` keeps are the same in two workspaces that agree for the
rules of the scan. -/
theorem files_congr {root : Path} {depth : Depth} {options : ScanOptions}
    (hroot : w'.isDirectory root = w.isDirectory root)
    (h : ∀ rules, ExcludeRules.ofLines root options.exclude = .ok rules →
      Agree w w' options.matchesFile rules.excludes keep) :
    (files w' root depth options).map (List.filter keep) =
      (files w root depth options).map (List.filter keep) := by
  rw [files, files, hroot]
  split
  · rfl
  split
  · rfl
  next hdir =>
  cases hrules : ExcludeRules.ofLines root options.exclude with
  | error e => rfl
  | ok rules =>
    have hpending : ∀ d ∈ [(root, depth)], w.isDirectory d.1 = true := by simpa using hdir
    exact visit_congr (h rules hrules) rfl hpending

/-- A scan with an extension, a directory for its `root` and rules that can be read is the walk from
that directory. -/
theorem files_eq_walk {root : Path} {depth : Depth} {o : ScanOptions} {rules : ExcludeRules}
    (hextension : o.extension ≠ []) (hroot : w.isDirectory root = true)
    (hrules : ExcludeRules.ofLines root o.exclude = .ok rules) :
    files w root depth o = (walk w o.matchesFile rules.excludes root depth).result := by
  rw [files, if_neg hextension, hroot, if_neg (by simp), hrules]
  rfl

/-- The files of a directory in which no directories are: one listing, filtered by the rules and the
extension, in the order of the names. -/
theorem files_of_flat {root : Path} {depth : Depth} {options : ScanOptions} {rules : ExcludeRules}
    {r : Route} {names : List Bytes} (hextension : options.extension ≠ [])
    (hroot : w.resolve root = .ok r) (hr : w.tree.node? r = some .directory)
    (hrules : ExcludeRules.ofLines root options.exclude = .ok rules)
    (hnames : w.tree.names r = names)
    (hflat : ∀ n ∈ names, w.isDirectory (root.entry n) = false) :
    files w root depth options = .ok ((names.map root.entry).filter fun p =>
      !rules.excludes p false && options.matchesFile p) := by
  have hflat' : ∀ p ∈ names.map root.entry, w.isDirectory p = false := by
    simpa using hflat
  have hentries : entries w rules.excludes root r =
      (names.map root.entry).filter fun p => !rules.excludes p false := by
    rw [entries, hnames]
    exact List.filter_congr fun p hp => by rw [hflat' p hp]
  have hentered : entered w rules.excludes root r = [] := by
    rw [entered, hentries]
    refine List.filter_eq_nil_iff.2 fun p hp => ?_
    simp [hflat' p (List.mem_filter.1 hp).1]
  have hcollected : collected w options.matchesFile rules.excludes root r =
      (names.map root.entry).filter fun p => !rules.excludes p false && options.matchesFile p := by
    rw [collected, hentries, List.filter_filter]
    exact List.filter_congr fun p hp => by simp [hflat' p hp, Bool.and_comm]
  rw [files, if_neg hextension, Workspace.isDirectory_of_resolve hroot hr, if_neg (by simp), hrules]
  show (visit w options.matchesFile rules.excludes [] [] [(root, depth)]).result = _
  rw [visit_cons hroot hr, if_neg List.not_mem_nil, hentered, hcollected, ite_self, List.map_nil,
    List.nil_append, List.nil_append, visit]

/-- The variables around a file are those of the files `ps` that the scan of its scope finds. -/
theorem varsAround_of_files {file : Path} {up : Nat} {down : Depth} {options : ScanOptions}
    {ps : List Path} (h : files w (Scope.around w.currentPath file up down).1
      (Scope.around w.currentPath file up down).2 options = .ok ps) :
    varsAround w file up down options = collectAll w Variables.collect ps .empty := by
  show (files w (Scope.around w.currentPath file up down).1
    (Scope.around w.currentPath file up down).2 options).bind _ = _
  rw [h]
  rfl

theorem refsAround_of_files {file : Path} {up : Nat} {down : Depth} {options : ScanOptions}
    {ps : List Path} (h : files w (Scope.around w.currentPath file up down).1
      (Scope.around w.currentPath file up down).2 options = .ok ps) :
    refsAround w file up down options = collectAll w References.collect ps .empty := by
  show (files w (Scope.around w.currentPath file up down).1
    (Scope.around w.currentPath file up down).2 options).bind _ = _
  rw [h]
  rfl

/-- What is collected from files that hold the same where `keep` holds, and from others in which
`collect` finds nothing. -/
theorem collectAll_filter {collect : Text → Bindings → Except Error Bindings} {ps : List Path}
    (hkeep : ∀ p ∈ ps, keep p = true → w'.read p = w.read p)
    (hskip : ∀ p ∈ ps, keep p = false → ∃ d, w'.read p = .ok d ∧
      ∀ found, collect (Text.unifyLineEnds d.text) found = .ok found) (found : Bindings) :
    collectAll w' collect ps found = collectAll w collect (ps.filter keep) found := by
  induction ps generalizing found with
  | nil => rfl
  | cons p ps ih =>
    have ih' := ih (fun q hq => hkeep q (List.mem_cons_of_mem _ hq))
      fun q hq => hskip q (List.mem_cons_of_mem _ hq)
    cases hp : keep p with
    | true =>
      rw [List.filter_cons_of_pos hp, collectAll, collectAll, hkeep p List.mem_cons_self hp]
      congr 1
      funext d
      congr 1
      funext b
      exact ih' b
    | false =>
      obtain ⟨d, hread, hnothing⟩ := hskip p List.mem_cons_self hp
      rw [List.filter_cons_of_neg (by simp [hp]), collectAll, hread]
      show ((collect (Text.unifyLineEnds d.text) found).bind fun found =>
        collectAll w' collect ps found) = _
      rw [hnothing]
      exact ih' found

end Scan

end Transclude
