import Mathlib.Data.List.Infix
import Transclude.Proofs.Scopes
import Transclude.Proofs.Unions

/-!
# Scopes that lie higher

The scope of a file can lie any number of directories above the one that holds it. With every
directory up its depth has one level more, so that however high it lies, it reaches down to the same
level: as far below the directory of the file as the depth says (`Scope.Reaches`). Two scopes of a
file differ in their roots only, and of the higher one the lower one is the part below its root. The
files of both are found in one order, so the files of the lower scope are those of the higher one
with others left out. What is collected from them is among what is collected from all.

Main statement: `Scan.filesAround_climb`.
-/

namespace Transclude

/-! ## Depths that are widened -/

namespace Depth

/-- Whether a depth can have so many levels more without going beyond what is counted. -/
def Widens : Depth → Nat → Prop
  | unlimited, _ => True
  | levels n, k => n.toNat + k < UInt64.size

instance (d : Depth) (k : Nat) : Decidable (d.Widens k) :=
  match d with
  | unlimited => inferInstanceAs (Decidable True)
  | levels n => inferInstanceAs (Decidable (n.toNat + k < UInt64.size))

theorem Widens.mono {d : Depth} {j k : Nat} (h : d.Widens k) (hle : j ≤ k) : d.Widens j := by
  cases d with
  | unlimited => trivial
  | levels n => exact Nat.lt_of_le_of_lt (Nat.add_le_add_left hle _) h

/-- The levels that a depth has more after `k` steps up are those above: what it allows `j` levels
down is what it allowed `j - k` levels down before. -/
theorem Widens.allows_iff {d : Depth} {k : Nat} (h : d.Widens k) (j : Nat) :
    (ascend^[k] d).Allows j ↔ d.Allows (j - k) := by
  cases d with
  | unlimited =>
    have hsame : ascend^[k] unlimited = unlimited := Function.iterate_fixed rfl k
    rw [hsame]
    rfl
  | levels n =>
    have hk : k < UInt64.size := Nat.lt_of_le_of_lt (Nat.le_add_left k n.toNat) h
    have hvalue : (n + UInt64.ofNat k).toNat = n.toNat + k := by
      rw [UInt64.toNat_add, UInt64.toNat_ofNat_of_lt' hk]
      exact Nat.mod_eq_of_lt h
    rw [iterate_ascend_levels, Allows, Allows, hvalue]
    omega

end Depth

/-! ## Canonical paths -/

namespace Path

/-- Whether a path goes on from a directory, part by part. -/
def IsBelow (p dir : Path) : Prop := p.isRooted = dir.isRooted ∧ dir.moves <+: p.moves

instance (p dir : Path) : Decidable (p.IsBelow dir) := inferInstanceAs (Decidable (_ ∧ _))

/-- Below the canonical path of `s` lie the canonical paths of the routes `q` that go on from it. -/
theorem isBelow_ofRoute {q s : Route} (hq : IsNamed q) (hs : IsNamed s) :
    (ofRoute q).IsBelow (ofRoute s) ↔ s <+: q := by
  have hdown : Function.Injective Step.down := fun _ _ => Step.down.inj
  rw [IsBelow, isRooted_ofRoute, isRooted_ofRoute, moves_ofRoute hq, moves_ofRoute hs,
    List.prefix_map_iff_of_injective hdown]
  exact and_iff_right rfl

theorem along_ofRoute {s way : Route} (h : IsNamed (s ++ way)) :
    (ofRoute s).along way = ofRoute (s ++ way) := by
  induction way generalizing s with
  | nil => rw [List.append_nil, along_nil]
  | cons n way ih =>
    rw [List.append_cons] at h ⊢
    have hs : IsNamed s := fun name hname => h name (by simp [hname])
    rw [along_cons, entry_ofRoute hs (h n (by simp)), ih h]

end Path

namespace Scope

/-- A scope that lies higher by `more` steps has its root above. -/
theorem rootOf_add_isPrefix (r : Route) (up more : Nat) : rootOf r (up + more) <+: rootOf r up :=
  List.take_prefix_take_left (by omega)

/-- Whether the scope of the file at `r` has the file at `q`: one with the extension that lies below
the root, and as many levels below the directory of the file as the depth allows. -/
structure Reaches (w : Workspace) (o : ScanOptions) (r : Route) (up : Nat) (down : Depth)
    (q : Route) : Prop where
  file : ∃ f, w.tree.node? q = some (.file f)
  name : ∃ stem : Text, stem ≠ [] ∧ q.getLast? = some (Text.bytes (stem ++ '.' :: o.extension))
  below : rootOf r up <+: q
  level : down.Allows (q.length - r.length)

/-- **A lower scope** is the part of a higher one, `more` levels further up, that lies below its
root. -/
theorem reaches_iff {w : Workspace} {o : ScanOptions} {r q : Route} {up more : Nat}
    {down : Depth} :
    Reaches w o r up down q ↔ Reaches w o r (up + more) down q ∧ rootOf r up <+: q :=
  ⟨fun h => ⟨⟨h.file, h.name, (rootOf_add_isPrefix r up more).trans h.below, h.level⟩, h.below⟩,
    fun h => ⟨h.1.file, h.1.name, h.2, h.1.level⟩⟩

end Scope

namespace Scan

/-- The files in the scope of a file. -/
def filesAround (w : Workspace) (file : Path) (up : Nat) (down : Depth) (o : ScanOptions) :
    Except Error (List Path) :=
  let (root, depth) := Scope.around w.currentPath file up down
  files w root depth o

section

variable {w : Workspace} {r : Route} {f : File} (hf : w.tree.node? r = some (.file f))

include hf

/-- What a scan finds in the scope of a file, told from where the file is: the way from the root of
the scope is one that `Reaches` allows. -/
theorem finds_iff_reaches {o : ScanOptions} {up : Nat} {down : Depth}
    (hdown : down.Widens (min up r.dropLast.length)) {way : Route} (hway : way ≠ []) :
    Finds w o everything (.ofRoute (Scope.rootOf r up)) (Scope.rootOf r up)
        (Depth.ascend^[min up r.dropLast.length] down) way ↔
      Scope.Reaches w o r up down (Scope.rootOf r up ++ way) := by
  have hr := List.length_pos_iff.2 (Tree.ne_nil_of_node? hf (by simp))
  have hwaypos := List.length_pos_iff.2 hway
  have hlast : (Scope.rootOf r up ++ way).getLast? = way.getLast? :=
    List.getLast?_append_of_ne_nil _ hway
  have hlevel : (Depth.ascend^[min up r.dropLast.length] down).Allows (way.length - 1) ↔
      down.Allows ((Scope.rootOf r up ++ way).length - r.length) := by
    rw [hdown.allows_iff]
    have hsame : way.length - 1 - min up r.dropLast.length =
        (Scope.rootOf r up ++ way).length - r.length := by
      rw [List.length_append, Scope.length_rootOf, List.length_dropLast]
      omega
    rw [hsame]
  rw [finds_everything]
  constructor
  · rintro ⟨hfile, hname, hallows⟩
    exact ⟨hfile, hlast ▸ hname, List.prefix_append _ _, hlevel.1 hallows⟩
  · intro h
    exact ⟨h.file, hlast ▸ h.name, hlevel.2 h.level⟩

/-- **The files in the scope of a file** are those that it `Reaches`, each once and in their order.
The scan succeeds. -/
theorem exists_filesAround (hw : w.Valid) (hlinks : w.tree.LinkFree) {o : ScanOptions}
    (hextension : o.extension ≠ []) (hexclude : o.exclude = []) {up : Nat} {down : Depth}
    (hdown : down.Widens (min up r.dropLast.length)) :
    ∃ found : List Route,
      filesAround w (.ofRoute r) up down o = .ok (found.map .ofRoute) ∧
      (∀ q, q ∈ found ↔ Scope.Reaches w o r up down q) ∧ found.Pairwise Route.Precedes := by
  have hdirectory := Scope.directory_rootOf hw hf up
  have hroot := Workspace.resolve_ofRoute hw hdirectory (by simp)
  obtain ⟨found, hresult, hmem, hordered⟩ := exists_found hw hlinks everything hroot hdirectory
    (Depth.ascend^[min up r.dropLast.length] down) o
  have hfinds {way : Route} (hway : way ∈ found) := (hmem way).1 hway
  refine ⟨found.map (Scope.rootOf r up ++ ·), ?_, fun q => ?_, ?_⟩
  · have hpaths : found.map (Path.ofRoute (Scope.rootOf r up)).along =
        (found.map (Scope.rootOf r up ++ ·)).map .ofRoute := by
      rw [List.map_map]
      refine List.map_congr_left fun way hway => ?_
      obtain ⟨g, hg⟩ := (hfinds hway).file
      exact Path.along_ofRoute (hw.tree.isNamed hg)
    rw [filesAround, Scope.around_canonical (Tree.ne_nil_of_node? hf (by simp))
      (hw.tree.isNamed hf)]
    rw [← hpaths, ← hresult]
    exact files_everything o hroot hdirectory _ hextension hexclude
  · rw [List.mem_map]
    constructor
    · rintro ⟨way, hway, rfl⟩
      exact (finds_iff_reaches hf hdown (hfinds hway).ne_nil).1 (hfinds hway)
    · intro h
      obtain ⟨way, rfl⟩ := h.below
      have hway : way ≠ [] := by
        rintro rfl
        obtain ⟨g, hg⟩ := h.file
        rw [List.append_nil, hdirectory] at hg
        cases hg
      exact ⟨way, (hmem way).2 ((finds_iff_reaches hf hdown hway).2 h), rfl⟩
  · refine List.pairwise_map.2 (hordered.imp_of_mem fun {p q} hp hq h => ?_)
    exact h.above (hfinds hp).ne_nil (hfinds hq).ne_nil _

/-- The file at `r` is itself in its scope, if it has the extension. -/
theorem reaches_self (hw : w.Valid) {o : ScanOptions} (ho : o.matchesFile (.ofRoute r) = true)
    (up : Nat) (down : Depth) : Scope.Reaches w o r up down r := by
  have hr := Tree.ne_nil_of_node? hf (by simp)
  obtain ⟨name, hlast, -⟩ := Path.exists_concat hr
  rw [ScanOptions.matchesFile, Path.fileName?_ofRoute hr (hw.tree.isNamed hf), hlast] at ho
  obtain ⟨stem, hstem, rfl⟩ := ScanOptions.matchesName_iff.1 ho
  refine ⟨⟨f, hf⟩, ⟨stem, hstem, hlast⟩,
    (Scope.rootOf_isPrefix r up).trans (List.dropLast_prefix r), ?_⟩
  rw [Nat.sub_self]
  exact down.allows_zero

end

/-- What is collected from some of the files, `ps`, is among what is collected from all, `qs`, if
that succeeds. -/
theorem exists_collectAll_of_sublist {w : Workspace}
    {collect : Text → Bindings → Except Error Bindings}
    {holds : Text → Option (List (Text × Text))} (h : AddsEntries collect holds)
    {ps qs : List Path} (hsub : ps.Sublist qs) {b : Bindings}
    (hb : collectAll w collect qs .empty = .ok b) :
    ∃ a, collectAll w collect ps .empty = .ok a ∧
      ∀ x v, a.get? x = some v → b.get? x = some v := by
  rw [collectAll_eq_gather] at hb
  rw [collectAll_eq_gather]
  exact exists_gather_of_sublist (h.addFile w) hsub hb

/-- **A scope that lies higher**, by `more` levels, has all files of a lower one: those that lie
below the root of the lower one, in the same order, are just its files. The file itself is in
both, if it has the extension. What is collected in the lower scope is also collected in the
higher one. -/
theorem filesAround_climb {w : Workspace} (hw : w.Valid) (hlinks : w.tree.LinkFree) {r : Route}
    {f : File} (hf : w.tree.node? r = some (.file f)) {o : ScanOptions}
    (hextension : o.extension ≠ []) (hexclude : o.exclude = []) (up more : Nat) {down : Depth}
    (hdown : down.Widens (min (up + more) r.dropLast.length)) :
    ∃ near far,
      filesAround w (.ofRoute r) up down o = .ok near ∧
      filesAround w (.ofRoute r) (up + more) down o = .ok far ∧
      far.filter (fun p => p.IsBelow (Scope.around w.currentPath (.ofRoute r) up down).1) = near ∧
      (o.matchesFile (.ofRoute r) = true → .ofRoute r ∈ near ∧ .ofRoute r ∈ far) ∧
      (∀ b, refsAround w (.ofRoute r) (up + more) down o = .ok b →
        ∃ a, refsAround w (.ofRoute r) up down o = .ok a ∧
          ∀ x v, a.get? x = some v → b.get? x = some v) ∧
      ∀ b, varsAround w (.ofRoute r) (up + more) down o = .ok b →
        ∃ a, varsAround w (.ofRoute r) up down o = .ok a ∧
          ∀ x v, a.get? x = some v → b.get? x = some v := by
  have hr := Tree.ne_nil_of_node? hf (by simp)
  have hnear : down.Widens (min up r.dropLast.length) := hdown.mono (by omega)
  obtain ⟨near, hnearfiles, hmemnear, hnearordered⟩ :=
    exists_filesAround hf hw hlinks hextension hexclude hnear
  obtain ⟨far, hfarfiles, hmemfar, hfarordered⟩ :=
    exists_filesAround hf hw hlinks hextension hexclude hdown
  have hroutes : (far.filter fun q => Scope.rootOf r up <+: q) = near := by
    refine (hfarordered.filter _).eq_of_mem_iff hnearordered fun q => ?_
    rw [List.mem_filter, decide_eq_true_iff, hmemfar, hmemnear]
    exact Scope.reaches_iff.symm
  have hpaths : ((far.map Path.ofRoute).filter fun p =>
      p.IsBelow (Scope.around w.currentPath (.ofRoute r) up down).1) = near.map Path.ofRoute := by
    rw [Scope.around_canonical hr (hw.tree.isNamed hf), List.filter_map, ← hroutes]
    refine congrArg _ (List.filter_congr fun q hq => decide_eq_decide.2 ?_)
    obtain ⟨g, hg⟩ := ((hmemfar q).1 hq).file
    have hroot := hw.tree.isNamed (Scope.directory_rootOf hw hf up)
    exact Path.isBelow_ofRoute (hw.tree.isNamed hg) hroot
  have hsub : (near.map Path.ofRoute).Sublist (far.map Path.ofRoute) :=
    hpaths ▸ List.filter_sublist
  refine ⟨_, _, hnearfiles, hfarfiles, hpaths, fun ho => ⟨?_, ?_⟩, fun b hb => ?_, fun b hb => ?_⟩
  · exact List.mem_map_of_mem ((hmemnear r).2 (reaches_self hf hw ho _ _))
  · exact List.mem_map_of_mem ((hmemfar r).2 (reaches_self hf hw ho _ _))
  · rw [refsAround_of_files hfarfiles] at hb
    rw [refsAround_of_files hnearfiles]
    exact exists_collectAll_of_sublist addsEntries_refs hsub hb
  · rw [varsAround_of_files hfarfiles] at hb
    rw [varsAround_of_files hnearfiles]
    exact exists_collectAll_of_sublist addsEntries_vars hsub hb

/-- From the directory `a` of the shelf to the shelf: the file is in both scopes, and what lies
below `a` is the same. -/
theorem filesAround_climb_shelf :
    shelf.Valid ∧ ∃ near far,
      filesAround shelf (.ofString "/a/z.md") 0 (.levels 0) (.ofExtension "md".toList) = .ok near ∧
      filesAround shelf (.ofString "/a/z.md") 1 (.levels 0) (.ofExtension "md".toList) = .ok far ∧
      far.filter (fun p => p.IsBelow (.ofString "/a")) = near ∧
      .ofString "/a/z.md" ∈ near ∧ .ofString "/a/z.md" ∈ far := by
  have hvalid : shelf.Valid := by decide +kernel
  have hlinks : shelf.tree.LinkFree := by decide +kernel
  have hf : shelf.tree.node? [.ofString "a", .ofString "z.md"] =
      some (.file ⟨.text [], privateMode⟩) := by decide +kernel
  have hextension : (ScanOptions.ofExtension "md".toList).extension ≠ [] := by decide
  have hdown : (Depth.levels 0).Widens (min (0 + 1) 1) := by decide
  obtain ⟨near, far, hnear, hfar, hfilter, hself, -, -⟩ :=
    filesAround_climb hvalid hlinks hf hextension rfl 0 1 hdown
  obtain ⟨hmemnear, hmemfar⟩ := hself (by decide)
  exact ⟨hvalid, near, far, hnear, hfar, hfilter, hmemnear, hmemfar⟩

end Scan

end Transclude
