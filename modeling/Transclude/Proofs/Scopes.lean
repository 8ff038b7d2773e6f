import Mathlib.Data.List.Forall2
import Transclude.Proofs.Findings

/-!
# Scans of one directory by two paths

A scan spells what it finds behind the path of its root, so scans of one directory by two paths
find other paths. Where no links are and nothing is excluded, these paths lead to the same files in
the same order: what a scan finds is told from the tree and from where its root lies, and so is the
order (`Scan.finds_everything`). A path comes into what it answers only by where it leads.

Main statements:
- `Scan.exists_files`: a scan finds the same files by all paths to its root.
- `Scan.collectBelow_alike`: a scan collects the same by all paths to its root.
- `Scope.around_spelling`: which spellings of a path have the same scope.
-/

namespace Transclude

namespace Workspace

/-- Whether paths lead to routes, one by one. -/
def Lead (w : Workspace) : List Path → List Route → Prop :=
  List.Forall₂ fun p r => w.resolve p = .ok r

end Workspace

namespace Scan

/-- Nothing is excluded. -/
def everything : Path → Bool → Bool := fun _ _ => false

section

variable {w : Workspace} (hw : w.Valid) (hlinks : w.tree.LinkFree) (o : ScanOptions)

/-- The files of a scan without rules are those of the walk that excludes nothing. -/
theorem files_everything {root : Path} {r : Route} (hroot : w.resolve root = .ok r)
    (hr : w.tree.node? r = some .directory) (depth : Depth) (hextension : o.extension ≠ [])
    (hexclude : o.exclude = []) :
    files w root depth o = (walk w o.matchesFile everything root depth).result := by
  rw [files, if_neg hextension, Workspace.isDirectory_of_resolve hroot hr, if_neg (by simp),
    hexclude]
  rfl

/-- What a scan finds does not depend on the path of its `root`, if nothing is excluded. -/
theorem finds_everything {root : Path} {r : Route} {depth : Depth} {way : Route} :
    Finds w o everything root r depth way ↔
      (∃ f, w.tree.node? (r ++ way) = some (.file f)) ∧
        (∃ stem : Text, stem ≠ [] ∧
            way.getLast? = some (Text.bytes (stem ++ '.' :: o.extension))) ∧
          depth.Allows (way.length - 1) :=
  ⟨fun h => ⟨h.file, h.name, h.level⟩,
    fun ⟨hfile, hname, hlevel⟩ => ⟨hfile, hname, hlevel, rfl, fun _ _ _ _ => rfl⟩⟩

include hw hlinks

/-- **The files of a scan** are the same, in the same order, by all paths to its root. They are
`found`, and each list of paths leads to it. -/
theorem exists_files {r : Route} (hr : w.tree.node? r = some .directory) (depth : Depth)
    (hextension : o.extension ≠ []) (hexclude : o.exclude = []) :
    ∃ found, ∀ root, w.resolve root = .ok r →
      ∃ ps, files w root depth o = .ok ps ∧ w.Lead ps found := by
  have hcanonical := Workspace.resolve_ofRoute hw hr (by simp)
  obtain ⟨found, -, hmem, hordered⟩ :=
    exists_found hw hlinks everything hcanonical hr depth o
  refine ⟨found.map (r ++ ·), fun root hroot => ?_⟩
  obtain ⟨found', hresult, hmem', hordered'⟩ :=
    exists_found hw hlinks everything hroot hr depth o
  obtain rfl : found' = found := hordered'.eq_of_mem_iff hordered fun way => by
    rw [hmem, hmem', finds_everything, finds_everything]
  refine ⟨_, (files_everything o hroot hr depth hextension hexclude).trans hresult, ?_⟩
  rw [Workspace.Lead, List.forall₂_map_left_iff, List.forall₂_map_right_iff, List.forall₂_same]
  intro way hway
  obtain ⟨f, hf⟩ := ((hmem way).1 hway).file
  exact Workspace.resolve_along hw hlinks hroot hr hf

omit hw hlinks in
/-- What is collected is a matter of where the paths lead: two lists of paths that lead to the same
files give the same. -/
theorem collectAll_lead {collect : Text → Bindings → Except Error Bindings} {ps qs : List Path}
    {found : List Route} (hp : w.Lead ps found) (hq : w.Lead qs found) (b : Bindings) :
    collectAll w collect ps b = collectAll w collect qs b := by
  induction hp generalizing qs b with
  | nil =>
    obtain rfl := List.forall₂_nil_right_iff.1 hq
    rfl
  | cons hp _ ih =>
    obtain ⟨q, qs, hfirst, hqs, rfl⟩ := List.forall₂_cons_right_iff.1 hq
    rw [collectAll, collectAll, Workspace.read_congr hp hfirst]
    congr 1
    funext d
    congr 1
    funext b
    exact ih hqs b

/-- **A scan collects the same** by all paths to its root, if it has no rules. -/
theorem collectBelow_alike {p q : Path} {r : Route} (hp : w.resolve p = .ok r)
    (hq : w.resolve q = .ok r) (hr : w.tree.node? r = some .directory) (depth : Depth)
    (hexclude : o.exclude = []) (collect : Text → Bindings → Except Error Bindings)
    (previous : Bindings) :
    collectBelow w collect p depth o previous = collectBelow w collect q depth o previous := by
  rw [collectBelow, collectBelow]
  by_cases hextension : o.extension = []
  · rw [files, files, if_pos hextension, if_pos hextension]
  · obtain ⟨found, hfound⟩ := exists_files hw hlinks o hr depth hextension hexclude
    obtain ⟨ps, hps, hlead⟩ := hfound p hp
    obtain ⟨qs, hqs, hlead'⟩ := hfound q hq
    rw [hps, hqs]
    exact collectAll_lead hlead hlead' previous

end

/-- The variables around a file, where its scope and the files of the scan are known. -/
theorem varsAround_of_around {w : Workspace} {file root : Path} {up : Nat} {down depth : Depth}
    {o : ScanOptions} {ps : List Path}
    (haround : Scope.around w.currentPath file up down = (root, depth))
    (hfiles : files w root depth o = .ok ps) :
    varsAround w file up down o = collectAll w Variables.collect ps .empty :=
  varsAround_of_files (by rw [haround]; exact hfiles)

end Scan

namespace Scope

/-! ## Spellings of one file -/

/-- Scans around alike scopes collect the same references and the same variables. -/
theorem Alike.collect {w : Workspace} (hw : w.Valid) (hlinks : w.tree.LinkFree) {p q : Path}
    {up : Nat} {down : Depth} (h : Alike w p q up down) {o : ScanOptions} (ho : o.exclude = []) :
    Scan.refsAround w p up down o = Scan.refsAround w q up down o ∧
      Scan.varsAround w p up down o = Scan.varsAround w q up down o := by
  obtain ⟨hdepth, r, hr, hp, hq⟩ := h
  have hsame (collect : Text → Bindings → Except Error Bindings) :
      Scan.collectBelow w collect (around w.currentPath p up down).1
          (around w.currentPath p up down).2 o .empty =
        Scan.collectBelow w collect (around w.currentPath q up down).1
          (around w.currentPath q up down).2 o .empty := by
    rw [hdepth]
    exact Scan.collectBelow_alike hw hlinks o hp hq hr _ ho collect .empty
  exact ⟨hsame References.collect, hsame Variables.collect⟩

/-- Names are all that is taken away from a path without parts `..`, and nothing is taken away if
the scope lies no directory further up. -/
theorem up_not_mem_dropped {w : Workspace} {p : Path} {up : Nat} (h : up = 0 ∨ p.climbs = false) :
    .up ∉ dropped w p up := by
  intro hup
  rcases h with rfl | hclimbs
  · rw [dropped, Nat.sub_zero, List.drop_length] at hup
    cases hup
  · have hmoves := (List.dropLast_sublist _).subset (List.mem_of_mem_drop hup)
    rcases List.mem_append.1 hmoves with hcwd | hmoves
    · split at hcwd
      · cases hcwd
      · simp at hcwd
    · have hsteps := (List.mem_filter.1 hmoves).1
      rw [Path.climbs, List.any_eq_false] at hclimbs
      simpa using hclimbs _ hsteps

/-- **Which spellings of a path have the same scope.** Where no links are, two paths to one file
have the same scope if the parts that are taken away from them are names, as they are in a path
without parts `..`, and then the scans around them collect the same. A path has the scope of the
canonical path exactly in this case. -/
theorem around_spelling {w : Workspace} (hw : w.Valid) (hlinks : w.tree.LinkFree) {p q : Path}
    {r : Route} {f : File} (hp : w.resolve p = .ok r) (hq : w.resolve q = .ok r)
    (hf : w.tree.node? r = some (.file f)) (up : Nat) :
    (.up ∉ dropped w p up → .up ∉ dropped w q up → ∀ down, Alike w p q up down) ∧
      (∀ down, Alike w p q up down → ∀ o : ScanOptions, o.exclude = [] →
        Scan.refsAround w p up down o = Scan.refsAround w q up down o ∧
          Scan.varsAround w p up down o = Scan.varsAround w q up down o) ∧
      (up = 0 ∨ p.climbs = false → .up ∉ dropped w p up) ∧
      (up < UInt64.size →
        ((∀ down, Alike w p (.ofRoute r) up down) ↔ .up ∉ dropped w p up)) := by
  refine ⟨fun hpn hqn down => ?_, fun down h o ho => h.collect hw hlinks ho, up_not_mem_dropped,
    alike_iff hw hlinks hp hf⟩
  exact (alike_of_names hw hlinks hp hf hpn down).trans
    (alike_of_names hw hlinks hq hf hqn down).symm

/-- A document beside a directory. -/
def beside : Workspace where
  tree := ⟨[([.ofString "d"], .directory), ([.ofString "d", .ofString "b"], .directory),
    ([.ofString "d", .ofString "f.md"], .file ⟨.text "<!--var(v)='1'-->".toList, privateMode⟩)]⟩
  cwd := []

theorem around_spelling_beside :
    (∀ down, Alike beside (.ofString "d/b/../../d/f.md") (.ofString "d/f.md") 1 down) ∧
      (∀ down (o : ScanOptions), o.exclude = [] →
        Scan.refsAround beside (.ofString "d/b/../../d/f.md") 1 down o =
            Scan.refsAround beside (.ofString "d/f.md") 1 down o ∧
          Scan.varsAround beside (.ofString "d/b/../../d/f.md") 1 down o =
            Scan.varsAround beside (.ofString "d/f.md") 1 down o) ∧
      ((∀ down, Alike beside (.ofString "d/b/../../d/f.md")
        (.ofRoute [.ofString "d", .ofString "f.md"]) 1 down) ↔
        .up ∉ dropped beside (.ofString "d/b/../../d/f.md") 1) := by
  have h := around_spelling (w := beside) (p := .ofString "d/b/../../d/f.md")
    (q := .ofString "d/f.md") (r := [.ofString "d", .ofString "f.md"]) (by decide +kernel)
    (by decide +kernel) (by decide +kernel) (by decide +kernel) rfl 1
  have halike := h.1 (by decide +kernel) (by decide +kernel)
  exact ⟨halike, fun down => h.2.1 down (halike down), h.2.2.2 (by decide)⟩

theorem valid_beside : beside.Valid := by decide +kernel

theorem linkFree_beside : beside.tree.LinkFree := by decide +kernel

theorem files_beside : Scan.files beside (.ofString "/") (.levels 1) (.ofExtension "md".toList) =
    .ok [.ofString "/d/f.md"] := by
  have hroot : beside.resolve (.ofString "/") = .ok [] := by decide +kernel
  obtain ⟨found, hresult, hmem, hordered⟩ := Scan.exists_found valid_beside linkFree_beside
    Scan.everything hroot rfl (.levels 1) (.ofExtension "md".toList)
  have hfound : found = [[.ofString "d", .ofString "f.md"]] := by
    refine hordered.eq_of_mem_iff (List.pairwise_singleton _ _) fun way => ?_
    rw [hmem, List.mem_singleton]
    constructor
    · intro h
      obtain ⟨f, hf⟩ := h.file
      have hentry := Tree.mem_of_node? h.ne_nil hf
      simp only [beside, List.mem_cons, Prod.mk.injEq, reduceCtorEq, and_false,
        false_or, List.not_mem_nil, or_false] at hentry
      exact hentry.1
    · rintro rfl
      exact (Scan.finds_everything _).2 ⟨⟨_, rfl⟩, ⟨['f'], by decide, rfl⟩, by decide⟩
  rw [Scan.files_everything _ hroot rfl _ (by decide) rfl, hresult, hfound]
  rfl

/-- **Behind a part `..`** that is taken away the scope lies elsewhere: the directory above `d/b/..`
is taken to be `d/b`. -/
theorem around_spelling_ne :
    beside.Valid ∧ beside.tree.LinkFree ∧
      beside.resolve (.ofString "d/b/../f.md") = .ok [.ofString "d", .ofString "f.md"] ∧
      beside.resolve (.ofString "d/f.md") = .ok [.ofString "d", .ofString "f.md"] ∧
      (beside.resolve (around beside.currentPath (.ofString "d/b/../f.md") 1 (.levels 0)).1 =
        .ok [.ofString "d", .ofString "b"]) ∧
      beside.resolve (around beside.currentPath (.ofString "d/f.md") 1 (.levels 0)).1 = .ok [] ∧
      (Scan.varsAround beside (.ofString "d/b/../f.md") 1 (.levels 0) (.ofExtension "md".toList) =
        .ok .empty) ∧
      Scan.varsAround beside (.ofString "d/f.md") 1 (.levels 0) (.ofExtension "md".toList) =
        .ok (Bindings.empty.set "v".toList "1".toList) := by
  refine ⟨valid_beside, linkFree_beside, by decide +kernel, by decide +kernel, by decide +kernel,
    by decide +kernel, ?_, ?_⟩
  · have haround : around beside.currentPath (.ofString "d/b/../f.md") 1 (.levels 0) =
        (.ofString "/d/b", .levels 1) := by decide +kernel
    have hnames : beside.tree.names [.ofString "d", .ofString "b"] = [] := by decide +kernel
    have hfiles : Scan.files beside (.ofString "/d/b") (.levels 1) (.ofExtension "md".toList) =
        .ok [] :=
      Scan.files_of_flat (by decide) (by decide +kernel) (by decide +kernel) rfl hnames (by simp)
    rw [Scan.varsAround_of_around haround hfiles]
    rfl
  · have haround : around beside.currentPath (.ofString "d/f.md") 1 (.levels 0) =
        (.ofString "/", .levels 1) := by decide +kernel
    rw [Scan.varsAround_of_around haround files_beside]
    decide +kernel

end Scope

end Transclude
