import Transclude.Proofs.Additions
import Transclude.Proofs.Cycles

/-!
# Links that lead nowhere

A scan looks at each entry of a directory once: what leads to a directory may be entered, and all
else is a file if its name is right. But an entry that leads to no directory need not lead to a
file. A link whose target is gone, or that leads round in a circle, leads nowhere
(`Workspace.Dangles`). A scan lists such a link like a file, and nothing can be read at its path.

There is no other case. In a valid tree a path leads to a file or to a directory, or nowhere, and
then the last name in it is that of a link, for the directory that it stands in is there
(`Workspace.isFile_entry_iff`).

Main statements:
- `Scan.exists_mem_files_iff`: which paths a scan lists.
- `Scan.files_readable`: those of them that are no files are the links that lead nowhere.
-/

namespace Transclude

namespace Workspace

/-- Whether a link stands at a path and leads nowhere. -/
def Dangles (w : Workspace) (p : Path) : Prop :=
  (∃ r target, w.placeOf p = .ok r ∧ w.tree.node? r = some (.link target)) ∧ w.isEntry p = false

section

variable {w : Workspace}

/-- A path that leads somewhere, to `r`, does not dangle (`Dangles`). -/
theorem not_dangles_of_resolve {p : Path} {r : Route} (h : w.resolve p = .ok r) :
    ¬w.Dangles p := by
  intro ⟨_, hnowhere⟩
  rw [isEntry, node?, h] at hnowhere
  exact Bool.false_ne_true (hnowhere.symm.trans (isSome_of_resolve h))

/-- A path that leads somewhere leads to a file, unless it leads to a directory. -/
theorem isFile_of_resolve (hw : w.Valid) {p : Path} {r : Route} (h : w.resolve p = .ok r)
    (hp : w.isDirectory p = false) : w.isFile p = true := by
  rcases exists_of_resolve hw h with hr | ⟨f, hr⟩
  · rw [isDirectory_of_resolve h hr] at hp
    cases hp
  · rw [isFile, node?, h]
    dsimp only
    rw [hr]

theorem isFile_of_resolve_error {p : Path} {fault : Fault} (h : w.resolve p = .error fault) :
    w.isFile p = false := by
  rw [isFile, node?, h]

/-- The place of an entry `n` is in the directory that `d` leads to, whatever stands there. -/
theorem placeOf_entry {d : Path} {r : Route} (hd : w.resolve d = .ok r)
    (hr : w.tree.node? r = some .directory) {n : Bytes} (hn : IsEntryName n) :
    w.placeOf (d.entry n) = .ok (r ++ [n]) := by
  obtain ⟨lead, m, hsteps, hlead⟩ := exists_lead_entry hd hr hn
  have hfollow : w.tree.follow maxLinks (w.startOf (d.entry n)) lead = .ok r := by
    have hreach := hlead []
    rw [List.append_nil] at hreach
    exact Tree.follow_of_reach (hreach.trans (by rw [Tree.reach_eq_take, Tree.take])) hr
  rw [placeOf, hsteps, List.getLast?_concat]
  dsimp only
  rw [List.dropLast_concat, hfollow]
  exact if_pos hr

/-- **An entry of a directory that leads to no directory** leads to a file, or is a link that leads
nowhere. -/
theorem isFile_entry_iff (hw : w.Valid) {d : Path} {r : Route} (hd : w.resolve d = .ok r)
    (hr : w.tree.node? r = some .directory) {n : Bytes} (hn : n ∈ w.tree.names r)
    (hp : w.isDirectory (d.entry n) = false) :
    w.isFile (d.entry n) = true ↔ ¬w.Dangles (d.entry n) := by
  obtain ⟨hname, node, hnode⟩ := hw.tree.entry_of_mem_names hn
  cases hresolve : w.resolve (d.entry n) with
  | ok q =>
    exact iff_of_true (isFile_of_resolve hw hresolve hp) (not_dangles_of_resolve hresolve)
  | error fault =>
    have hnowhere : w.isEntry (d.entry n) = false := by
      rw [isEntry, Workspace.node?, hresolve]
      rfl
    have hfile := isFile_of_resolve_error hresolve
    -- anything but a link would be found at the path
    have hlink : ∃ target, node = .link target := by
      by_contra hnone
      have hother : ∀ target, node ≠ .link target := fun target h => hnone ⟨target, h⟩
      rw [resolve_entry_of_node? hd hr hname hnode hother] at hresolve
      cases hresolve
    obtain ⟨target, rfl⟩ := hlink
    refine iff_of_false (by rw [hfile]; exact Bool.false_ne_true) ?_
    intro hnot
    exact hnot ⟨⟨r ++ [n], target, placeOf_entry hd hr hname, hnode⟩, hnowhere⟩

/-- There is nothing to read at `p` exactly if it leads to nothing. Other faults on the way give
other errors than `notFound`. -/
theorem read_eq_notFound_iff (hw : w.Valid) {p : Path} :
    w.read p = .error (.notFound p.text) ↔ w.resolve p = .error .missing := by
  rw [read, readText]
  cases hp : w.resolve p with
  | error fault => cases fault <;> simp
  | ok r =>
    dsimp only
    rcases exists_of_resolve hw hp with hr | ⟨⟨content, mode⟩, hr⟩
    · rw [hr]
      simp
    · rw [hr]
      cases content <;> simp

end

end Workspace

namespace Scan

variable {w : Workspace} {root : Path} {depth : Depth} {o : ScanOptions} {ps : List Path}

/-- Whether a scan lists the path of the entry `n` of the directory at the end of a way, unless the
path leads to a directory. -/
structure Lists (w : Workspace) (o : ScanOptions) (excluded : Path → Bool → Bool) (root : Path)
    (depth : Depth) (way : Route) (n : Bytes) : Prop where
  enters : Enters w excluded root depth way
  named : ∃ r, w.resolve (root.along way) = .ok r ∧ n ∈ w.tree.names r
  included : excluded ((root.along way).entry n) false = false
  accepted : o.matchesFile ((root.along way).entry n) = true

/-- What is found at the end of `way` is what is listed there (`Lists`) and leads to no
directory. -/
theorem mem_foundAt_iff_lists {excluded : Path → Bool → Bool} {way q : Route}
    (h : Enters w excluded root depth way) :
    q ∈ foundAt w o.matchesFile excluded root way ↔
      ∃ n, q = way ++ [n] ∧ Lists w o excluded root depth way n ∧
        w.isDirectory ((root.along way).entry n) = false := by
  unfold foundAt
  cases hr : w.resolve (root.along way) with
  | error fault =>
    refine iff_of_false List.not_mem_nil ?_
    intro ⟨n, _, hlists, _⟩
    obtain ⟨r, hresolve, -⟩ := hlists.named
    cases hr.symm.trans hresolve
  | ok r =>
    dsimp only
    rw [List.mem_map]
    constructor
    · intro ⟨n, hn, hq⟩
      obtain ⟨hname, hkept, hproperty⟩ := mem_picked_iff.1 hn
      rw [Bool.and_eq_true, Bool.not_eq_true'] at hproperty
      rw [hproperty.1] at hkept
      exact ⟨n, hq.symm, ⟨h, ⟨r, hr, hname⟩, hkept, hproperty.2⟩, hproperty.1⟩
    · intro ⟨n, hq, hlists, hdirectory⟩
      obtain ⟨r', hr', hname⟩ := hlists.named
      obtain rfl := Except.ok.inj (hr.symm.trans hr')
      refine ⟨n, mem_picked_iff.2 ⟨hname, ?_, ?_⟩, hq.symm⟩
      · rw [hdirectory]
        exact hlists.included
      · rw [hdirectory, hlists.accepted]
        rfl

/-- **What a scan lists** (`Lists`), if it comes to an end: the paths that lead to no directory,
with a name that is accepted, in the directories that it enters. This is more than the files. -/
theorem exists_mem_files_iff (hw : w.Valid) (h : files w root depth o = .ok ps) :
    ∃ rules, ExcludeRules.ofLines root o.exclude = .ok rules ∧ w.isDirectory root = true ∧
      ∀ p, p ∈ ps ↔ ∃ way n, p = (root.along way).entry n ∧
        Lists w o rules.excludes root depth way n ∧ w.isDirectory p = false := by
  rcases files_cases w root depth o with h' | h' | ⟨_, h'⟩ | ⟨rules, hextension, hroot, hrules⟩
  · cases h'.symm.trans h
  · cases h'.symm.trans h
  · cases h'.symm.trans h
  obtain ⟨gone, htour⟩ := exists_tour hw o.matchesFile rules.excludes hroot depth
  rw [files_eq_walk hextension hroot hrules] at h
  rcases htour.ends with ⟨hok, hall⟩ | ⟨way, r, -, -, -, -, herror⟩
  · obtain rfl := Except.ok.inj (hok.symm.trans h)
    refine ⟨rules, hrules, hroot, fun p => ?_⟩
    rw [List.mem_map]
    constructor
    · intro ⟨q, hq, hp⟩
      obtain ⟨way, hway, hfound⟩ := List.mem_flatMap.1 hq
      obtain ⟨n, rfl, hlists, hdirectory⟩ :=
        (mem_foundAt_iff_lists (htour.enters way hway)).1 hfound
      rw [Path.along_concat] at hp
      exact ⟨way, n, hp.symm, hlists, hp ▸ hdirectory⟩
    · intro ⟨way, n, hp, hlists, hdirectory⟩
      refine ⟨way ++ [n], List.mem_flatMap.2 ⟨way, hall way hlists.enters, ?_⟩, ?_⟩
      · exact (mem_foundAt_iff_lists hlists.enters).2 ⟨n, rfl, hlists, hp ▸ hdirectory⟩
      · rw [Path.along_concat, hp]
  · cases herror.symm.trans h

/-- **What a scan lists can be read, but for links that lead nowhere.** Each path of `ps` leads to a
file, unless a link that leads nowhere stands there (`Dangles`). It is such a link, and one with a
missing target, where the reader of the path finds nothing. All the paths lead to files exactly when
no such link, with a name that is accepted and not excluded, stands in a directory that the scan
enters. -/
theorem files_readable (hw : w.Valid) (h : files w root depth o = .ok ps) :
    (∀ p ∈ ps, (w.isFile p = true ↔ ¬w.Dangles p)) ∧
    (∀ p ∈ ps, (w.read p = .error (.notFound p.text) ↔
      w.Dangles p ∧ w.resolve p = .error .missing)) ∧
    ∃ rules, ExcludeRules.ofLines root o.exclude = .ok rules ∧
      ((∀ p ∈ ps, w.isFile p = true) ↔
        ∀ way n, Lists w o rules.excludes root depth way n →
          ¬w.Dangles ((root.along way).entry n)) := by
  obtain ⟨rules, hrules, hroot, hmem⟩ := exists_mem_files_iff hw h
  have hfile : ∀ p ∈ ps, (w.isFile p = true ↔ ¬w.Dangles p) := by
    intro p hp
    obtain ⟨way, n, rfl, hlists, hdirectory⟩ := (hmem p).1 hp
    obtain ⟨r, hr, hname⟩ := hlists.named
    obtain ⟨r', hr', hnode⟩ :=
      Workspace.exists_of_isDirectory (hlists.enters.goes.isDirectory hroot)
    obtain rfl := Except.ok.inj (hr.symm.trans hr')
    exact Workspace.isFile_entry_iff hw hr hnode hname hdirectory
  refine ⟨hfile, ?_, rules, hrules, ?_, ?_⟩
  · intro p hp
    rw [Workspace.read_eq_notFound_iff hw]
    refine ⟨fun hmissing => ⟨?_, hmissing⟩, And.right⟩
    by_contra hnot
    have hsome := (hfile p hp).2 hnot
    rw [Workspace.isFile_of_resolve_error hmissing] at hsome
    cases hsome
  · intro hall way n hlists
    cases hdirectory : w.isDirectory ((root.along way).entry n) with
    | true =>
      obtain ⟨r, hr, -⟩ := Workspace.exists_of_isDirectory hdirectory
      exact Workspace.not_dangles_of_resolve hr
    | false =>
      have hp := (hmem _).2 ⟨way, n, rfl, hlists, hdirectory⟩
      exact (hfile _ hp).1 (hall _ hp)
  · intro hall p hp
    obtain ⟨way, n, rfl, hlists, -⟩ := (hmem p).1 hp
    exact (hfile _ hp).2 (hall way n hlists)

/-- A directory with a document and a link whose target is gone. -/
def brokenLink : Workspace where
  tree := ⟨[([.ofString "top.md"], .file ⟨.text "x".toList, privateMode⟩),
    ([.ofString "x.md"], .link (.ofString "gone.md"))]⟩
  cwd := []

theorem valid_brokenLink : brokenLink.Valid := by decide +kernel

theorem files_brokenLink : files brokenLink .dot .unlimited (.ofExtension "md".toList) =
    .ok [.ofString "./top.md", .ofString "./x.md"] := by
  have hnames : brokenLink.tree.names [] = [.ofString "top.md", .ofString "x.md"] :=
    Tree.names_eq (.of_eq rfl) (by decide)
  rw [files_of_flat (by decide) rfl rfl rfl hnames (by decide +kernel)]
  rfl

theorem read_brokenLink :
    brokenLink.read (.ofString "./x.md") = .error (.notFound "./x.md".toList) := rfl

/-- Of the two paths that are listed one is that of a file, and the other dangles. -/
theorem files_readable_brokenLink :
    brokenLink.Valid ∧ files brokenLink .dot .unlimited (.ofExtension "md".toList) =
      .ok [.ofString "./top.md", .ofString "./x.md"] ∧
      ¬brokenLink.Dangles (.ofString "./top.md") ∧ brokenLink.Dangles (.ofString "./x.md") := by
  obtain ⟨hfile, hread, -⟩ := files_readable valid_brokenLink files_brokenLink
  refine ⟨valid_brokenLink, files_brokenLink, ?_, ?_⟩
  · exact (hfile _ List.mem_cons_self).1 rfl
  · exact ((hread _ (by simp)).1 read_brokenLink).1

/-- **The scan lists the broken link** `x.md`, and then fails for what it has listed: the variables
below the directory cannot be collected. -/
theorem files_not_readable :
    files brokenLink .dot .unlimited (.ofExtension "md".toList) =
      .ok [.ofString "./top.md", .ofString "./x.md"] ∧
    brokenLink.isFile (.ofString "./x.md") = false ∧
    brokenLink.read (.ofString "./x.md") = .error (.notFound "./x.md".toList) ∧
    vars brokenLink .dot .unlimited (.ofExtension "md".toList) .empty =
      .error (.notFound "./x.md".toList) := by
  refine ⟨files_brokenLink, rfl, read_brokenLink, ?_⟩
  have hcollect : Variables.collect "x".toList .empty = .ok .empty :=
    Fill.eq_ok_of_toOption (by decide +kernel)
  rw [vars, collectBelow, files_brokenLink]
  show ((Variables.collect "x".toList .empty).bind fun found =>
    collectAll brokenLink Variables.collect [.ofString "./x.md"] found) = _
  rw [hcollect]
  rfl

end Scan

end Transclude
