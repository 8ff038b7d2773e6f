import Mathlib.Data.List.Sort
import Transclude.Proofs.Additions
import Transclude.Proofs.Spellings
import Transclude.Proofs.ScanWays

/-!
# What a scan finds

Where no links are, names lead where they stand in the tree: each way of a scan to the directory
below its root that the names are those of (`Workspace.resolve_along`). No two ways lead to one
directory then, and the tour of a scan goes them all. So a scan finds exactly the files that can be
told from the tree: those with the extension that lie as deep as the depth allows, in directories
none of which is excluded (`Scan.Finds`). It finds them directory by directory, a directory before
those below it, and the files of one in the order of their names (`Route.Precedes`).

Main statement: `Scan.files_exact`.
-/

namespace Transclude

/-! ## The order of files -/

namespace Route

/-- The order in which a scan finds files: directory by directory, and in one by their names. -/
def Precedes (p q : Route) : Prop :=
  Before p.dropLast q.dropLast ∨ p.dropLast = q.dropLast ∧ Before p q

theorem precedes_irrefl (p : Route) : ¬Precedes p p := by
  rintro (h | ⟨-, h⟩)
  · exact before_irrefl _ h
  · exact before_irrefl _ h

theorem Precedes.asymm {p q : Route} (h : Precedes p q) : ¬Precedes q p := by
  rintro (h' | ⟨heq, h'⟩)
  · rcases h with h | ⟨heq, -⟩
    · exact h.asymm h'
    · exact before_irrefl _ (heq ▸ h')
  · rcases h with h | ⟨-, h⟩
    · exact before_irrefl _ (heq ▸ h)
    · exact h.asymm h'

instance : Std.Irrefl Precedes := ⟨precedes_irrefl⟩

instance : Std.Antisymm Precedes := ⟨fun _ _ h h' => absurd h' h.asymm⟩

theorem precedes_concat {p q : Route} (h : Before p q) (m n : Bytes) :
    Precedes (p ++ [m]) (q ++ [n]) := by
  rw [Precedes, List.dropLast_concat, List.dropLast_concat]
  exact .inl h

theorem precedes_of_names {m n : Bytes} (h : m < n) (q : Route) :
    Precedes (q ++ [m]) (q ++ [n]) := by
  rw [Precedes, List.dropLast_concat, List.dropLast_concat]
  exact .inr ⟨rfl, before_of_names h q⟩

/-- The order is the same seen from a directory `r` above. -/
theorem Precedes.above {p q : Route} (h : Precedes p q) (hp : p ≠ []) (hq : q ≠ []) (r : Route) :
    Precedes (r ++ p) (r ++ q) := by
  rw [Precedes, List.dropLast_append_of_ne_nil hp, List.dropLast_append_of_ne_nil hq]
  rcases h with h | ⟨heq, h⟩
  · exact .inl (List.Lex.append_left _ h r)
  · exact .inr ⟨congrArg _ heq, List.Lex.append_left _ h r⟩

end Route

/-! ## Names with the extension -/

namespace ScanOptions

variable {o : ScanOptions}

/-- As a text, a name matches if it is a stem that is not empty, a dot and the extension. The test
of `matchesText` is on the length of what is before the extension, with the dot. -/
theorem matchesText_iff {name : Text} :
    o.matchesText name = true ↔ ∃ stem, stem ≠ [] ∧ name = stem ++ '.' :: o.extension := by
  rw [matchesText]
  constructor
  · intro h
    split at h
    · next stem hstem =>
      have hname := congrArg List.reverse (Text.after?_eq_some_iff.1 hstem)
      rw [List.reverse_append, List.reverse_reverse, List.reverse_reverse] at hname
      exact ⟨stem.reverse, by simpa using h, hname⟩
    · cases h
  · rintro ⟨stem, hstem, rfl⟩
    rw [List.reverse_append, Text.after?_append]
    simpa using hstem

/-- **The names that `ScanOptions.matchesName` accepts** are those that are text, and as text a
stem, a dot and the extension. Names that are not UTF-8 are not among them, also if they end in the
bytes of a dot and the extension. -/
theorem matchesName_iff {name : Bytes} :
    o.matchesName name = true ↔
      ∃ stem : Text, stem ≠ [] ∧ name = Text.bytes (stem ++ '.' :: o.extension) := by
  rw [matchesName, Option.any_eq_true]
  simp only [Bytes.text?_eq_some_iff, matchesText_iff]
  constructor
  · rintro ⟨t, rfl, stem, hstem, rfl⟩
    exact ⟨stem, hstem, rfl⟩
  · rintro ⟨stem, hstem, rfl⟩
    exact ⟨_, rfl, stem, hstem, rfl⟩

end ScanOptions

/-! ## Paths below a directory -/

namespace Workspace

section

variable {w : Workspace} (hw : w.Valid) (hlinks : w.tree.LinkFree)

include hw hlinks

/-- **An entry** of the directory that `d` leads to is where that directory is, by the path `d.entry
n`. -/
theorem resolve_entry_of_mem {d : Path} {r : Route} (hd : w.resolve d = .ok r)
    (hr : w.tree.node? r = some .directory) {n : Bytes} (hn : n ∈ w.tree.names r) :
    w.resolve (d.entry n) = .ok (r ++ [n]) := by
  obtain ⟨hname, node, hnode⟩ := hw.tree.entry_of_mem_names hn
  apply resolve_entry_of_node? hd hr hname hnode
  intro target heq
  exact hlinks.not_link _ target (heq ▸ hnode)

/-- An entry is a directory for `isDirectory` exactly if one stands in the tree: no links are in
between. -/
theorem isDirectory_entry {d : Path} {r : Route} (hd : w.resolve d = .ok r)
    (hr : w.tree.node? r = some .directory) {n : Bytes} (hn : n ∈ w.tree.names r) :
    w.isDirectory (d.entry n) = decide (w.tree.node? (r ++ [n]) = some .directory) := by
  rw [isDirectory, node?, resolve_entry_of_mem hw hlinks hd hr hn]

/-- **What lies below a directory** is where its names say: the path `d.along way` leads to `r ++
way`. -/
theorem resolve_along {d : Path} {r : Route} (hd : w.resolve d = .ok r)
    (hr : w.tree.node? r = some .directory) {way : Route} {node : Node}
    (h : w.tree.node? (r ++ way) = some node) : w.resolve (d.along way) = .ok (r ++ way) := by
  induction way generalizing d r with
  | nil => rwa [List.append_nil]
  | cons n way ih =>
    rw [List.append_cons] at h ⊢
    have hsome : (w.tree.node? (r ++ [n])).isSome = true := by
      by_cases hway : way = []
      · rw [hway, List.append_nil] at h
        rw [h]
        rfl
      · rw [hw.tree.node?_of_append h hway]
        rfl
    have hn : n ∈ w.tree.names r :=
      Tree.mem_names_iff.2 ((Tree.mem_routes_iff (by simp)).2 hsome)
    have hentry := resolve_entry_of_mem hw hlinks hd hr hn
    by_cases hway : way = []
    · rw [hway, List.append_nil]
      exact hentry
    · exact ih hentry (hw.tree.node?_of_append h hway) h

end

end Workspace

namespace Scan

/-- Whether names lead from the directory `r` down to a file that a scan finds: its name is a stem,
a dot and the extension, it lies in a directory that is not too deep, and neither it is excluded nor
a directory between. Paths are seen from `root`. The stem is a text, so a file whose name is not
UTF-8 is not found. -/
structure Finds (w : Workspace) (o : ScanOptions) (excluded : Path → Bool → Bool) (root : Path)
    (r : Route) (depth : Depth) (way : Route) : Prop where
  file : ∃ f, w.tree.node? (r ++ way) = some (.file f)
  name : ∃ stem : Text, stem ≠ [] ∧
    way.getLast? = some (Text.bytes (stem ++ '.' :: o.extension))
  level : depth.Allows (way.length - 1)
  kept : excluded (root.along way) false = false
  between : ∀ q, q ≠ [] → q <+: way → q ≠ way → excluded (root.along q) true = false

section

variable {w : Workspace} (hw : w.Valid) (hlinks : w.tree.LinkFree)
variable {excluded : Path → Bool → Bool} {root : Path} {r : Route}

/-- A file is not at the root of a scan, so its way has a last name. -/
theorem Finds.ne_nil {o : ScanOptions} {depth : Depth} {way : Route}
    (h : Finds w o excluded root r depth way) : way ≠ [] := by
  rintro rfl
  obtain ⟨stem, -, hlast⟩ := h.name
  cases hlast

section

variable (hroot : w.resolve root = .ok r) (hr : w.tree.node? r = some .directory)

include hw hlinks hroot hr

/-- Where a scan may go down (`Goes`): to directories such that neither they nor those above them
are excluded. -/
theorem goes_iff {way : Route} :
    Goes w excluded root way ↔ w.tree.node? (r ++ way) = some .directory ∧
      ∀ q, q ≠ [] → q <+: way → excluded (root.along q) true = false := by
  induction way generalizing root r with
  | nil =>
    rw [List.append_nil]
    exact iff_of_true trivial ⟨hr, fun q hq hpre => absurd (List.prefix_nil.1 hpre) hq⟩
  | cons n way ih =>
    constructor
    · rintro ⟨⟨r', hr', hn⟩, hdirectory, hkept, hrest⟩
      obtain rfl := Except.ok.inj (hroot.symm.trans hr')
      rw [Workspace.isDirectory_entry hw hlinks hroot hr hn, decide_eq_true_iff] at hdirectory
      have hentry := Workspace.resolve_entry_of_mem hw hlinks hroot hr hn
      obtain ⟨hnode, hall⟩ := (ih hentry hdirectory).1 hrest
      refine ⟨by rwa [List.append_cons], fun q hq hpre => ?_⟩
      obtain ⟨m, q, rfl⟩ := List.exists_cons_of_ne_nil hq
      obtain ⟨rfl, hbelow⟩ := List.cons_prefix_cons.1 hpre
      cases q with
      | nil => exact hkept
      | cons m' q => exact hall (m' :: q) (List.cons_ne_nil m' q) hbelow
    · rintro ⟨hnode, hall⟩
      rw [List.append_cons] at hnode
      have hdirectory : w.tree.node? (r ++ [n]) = some .directory := by
        by_cases hway : way = []
        · rwa [hway, List.append_nil] at hnode
        · exact hw.tree.node?_of_append hnode hway
      have hn : n ∈ w.tree.names r :=
        Tree.mem_names_iff.2 ((Tree.mem_routes_iff (by simp)).2 (by rw [hdirectory]; rfl))
      have hentry := Workspace.resolve_entry_of_mem hw hlinks hroot hr hn
      refine ⟨⟨r, hroot, hn⟩, Workspace.isDirectory_of_resolve hentry hdirectory,
        hall [n] (List.cons_ne_nil n []) ((List.prefix_cons_inj n).2 List.nil_prefix),
        (ih hentry hdirectory).2 ⟨hnode, fun q hq hpre => ?_⟩⟩
      exact hall (n :: q) (List.cons_ne_nil n q) ((List.prefix_cons_inj n).2 hpre)

/-- Each way that a scan goes leads to the directory of its names, `r ++ way`. -/
theorem Goes.resolve {way : Route} (h : Goes w excluded root way) :
    w.resolve (root.along way) = .ok (r ++ way) :=
  Workspace.resolve_along hw hlinks hroot hr ((goes_iff hw hlinks hroot hr).1 h).1

/-- What is found in the directory at the end of a way `q`: the files with a name that matches and
that are not excluded. -/
theorem mem_foundAt_iff {o : ScanOptions} {q way : Route} (h : Goes w excluded root q) :
    way ∈ foundAt w o.matchesFile excluded root q ↔
      ∃ n, way = q ++ [n] ∧ (∃ f, w.tree.node? (r ++ way) = some (.file f)) ∧
        o.matchesName n = true ∧ excluded (root.along way) false = false := by
  have hq := h.resolve hw hlinks hroot hr
  have hnode := ((goes_iff hw hlinks hroot hr).1 h).1
  have hbytes : (root.along q).bytes ≠ [] := by
    intro hnil
    rw [Workspace.resolve, if_pos hnil] at hq
    cases hq
  rw [foundAt, hq]
  simp only [List.mem_map, mem_picked_iff, Bool.and_eq_true, Bool.not_eq_true']
  constructor
  · rintro ⟨n, ⟨hn, hkept, hfile, haccepts⟩, rfl⟩
    obtain ⟨hname, node, hentry⟩ := hw.tree.entry_of_mem_names hn
    rw [hfile] at hkept
    rw [ScanOptions.matchesFile, Path.fileName?_entry hbytes hname] at haccepts
    rw [Workspace.isDirectory_entry hw hlinks hq hnode hn, hentry] at hfile
    refine ⟨n, rfl, ?_, haccepts, by rwa [Path.along_concat]⟩
    rw [← List.append_assoc]
    cases node with
    | file f => exact ⟨f, hentry⟩
    | directory => simp at hfile
    | link target => exact absurd hentry (hlinks.not_link _ _)
  · rintro ⟨n, rfl, ⟨f, hentry⟩, hname, hkept⟩
    rw [← List.append_assoc] at hentry
    have hn : n ∈ w.tree.names (r ++ q) :=
      Tree.mem_names_iff.2 ((Tree.mem_routes_iff (by simp)).2 (by rw [hentry]; rfl))
    have hfile : w.isDirectory ((root.along q).entry n) = false := by
      rw [Workspace.isDirectory_entry hw hlinks hq hnode hn, hentry]
      rfl
    rw [Path.along_concat] at hkept
    refine ⟨n, ⟨hn, by rwa [hfile], hfile, ?_⟩, rfl⟩
    rw [ScanOptions.matchesFile, Path.fileName?_entry hbytes (hw.tree.entry_of_mem_names hn).1]
    exact hname

/-- What `Finds` tells of is what a scan finds at the end of some way that it enters. -/
theorem finds_iff {o : ScanOptions} {depth : Depth} {way : Route} :
    Finds w o excluded root r depth way ↔
      ∃ q, Enters w excluded root depth q ∧ way ∈ foundAt w o.matchesFile excluded root q := by
  constructor
  · rintro ⟨⟨f, hfile⟩, ⟨stem, hstem, hlast⟩, hlevel, hkept, hbetween⟩
    obtain ⟨q, rfl⟩ := List.getLast?_eq_some_iff.1 hlast
    rw [List.length_append, List.length_singleton, Nat.add_sub_cancel] at hlevel
    have hnode : w.tree.node? (r ++ q) = some .directory := by
      rw [← List.append_assoc] at hfile
      exact hw.tree.node?_of_append hfile (List.cons_ne_nil _ _)
    have hgoes : Goes w excluded root q := by
      refine (goes_iff hw hlinks hroot hr).2 ⟨hnode, fun p hp hpre => ?_⟩
      refine hbetween p hp (hpre.trans (List.prefix_append q _)) fun heq => ?_
      have hlength := hpre.length_le
      rw [heq, List.length_append, List.length_singleton] at hlength
      omega
    exact ⟨q, ⟨hgoes, hlevel⟩, (mem_foundAt_iff hw hlinks hroot hr hgoes).2
      ⟨_, rfl, ⟨f, hfile⟩, ScanOptions.matchesName_iff.2 ⟨stem, hstem, rfl⟩, hkept⟩⟩
  · rintro ⟨q, ⟨hgoes, hallows⟩, hmem⟩
    obtain ⟨n, rfl, hfile, hname, hkept⟩ := (mem_foundAt_iff hw hlinks hroot hr hgoes).1 hmem
    obtain ⟨stem, hstem, rfl⟩ := ScanOptions.matchesName_iff.1 hname
    refine ⟨hfile, ⟨stem, hstem, List.getLast?_concat⟩, ?_, hkept, fun p hp hpre hne => ?_⟩
    · rwa [List.length_append, List.length_singleton, Nat.add_sub_cancel]
    · exact ((goes_iff hw hlinks hroot hr).1 hgoes).2 p hp
        ((List.prefix_concat_iff.1 hpre).resolve_left hne)

/-- Different ways `q` and `way` of a scan lead to different directories. -/
theorem Goes.eq_of_same {q way : Route} (hq : Goes w excluded root q)
    (hway : Goes w excluded root way)
    (h : w.resolve (root.along q) = w.resolve (root.along way)) : q = way := by
  rw [hq.resolve hw hlinks hroot hr, hway.resolve hw hlinks hroot hr] at h
  exact List.append_cancel_left (Except.ok.inj h)

omit hlinks hroot hr in
/-- The files found at the end of one way `q` are in order. -/
theorem pairwise_foundAt (o : ScanOptions) (q : Route) :
    (foundAt w o.matchesFile excluded root q).Pairwise Route.Precedes := by
  rw [foundAt]
  split
  · exact List.pairwise_map.2 ((pairwise_picked hw.tree _ _ _).imp fun h =>
      Route.precedes_of_names h q)
  · exact .nil

omit hw hlinks hroot hr in
/-- What is found at the end of a way `q` is one name further. -/
theorem exists_of_mem_foundAt {o : ScanOptions} {q way : Route}
    (h : way ∈ foundAt w o.matchesFile excluded root q) : ∃ n, way = q ++ [n] := by
  rw [foundAt] at h
  split at h
  · obtain ⟨n, -, rfl⟩ := List.mem_map.1 h
    exact ⟨n, rfl⟩
  · cases h

variable (excluded) in
/-- **A walk** comes to an end, and it has found what it is to find (`Finds`), in order. -/
theorem exists_found (depth : Depth) (o : ScanOptions) :
    ∃ found : List Route,
      (walk w o.matchesFile excluded root depth).result = .ok (found.map root.along) ∧
      (∀ way, way ∈ found ↔ Finds w o excluded root r depth way) ∧
      found.Pairwise Route.Precedes := by
  obtain ⟨gone, htour⟩ := exists_tour hw o.matchesFile excluded
    (Workspace.isDirectory_of_resolve hroot hr) depth
  have hends : (walk w o.matchesFile excluded root depth).result = .ok
        ((gone.flatMap (foundAt w o.matchesFile excluded root)).map root.along) ∧
      ∀ way, Enters w excluded root depth way → way ∈ gone := by
    refine htour.ends.resolve_right ?_
    rintro ⟨way, s, hway, hafter, hs, hlisted, -⟩
    obtain ⟨q, hq, hqs⟩ := htour.mem_listed_iff.1 hlisted
    obtain rfl := (htour.enters q hq).goes.eq_of_same hw hlinks hroot hr hway.goes
      (hqs.trans hs.symm)
    exact Route.before_irrefl q (hafter q hq)
  refine ⟨_, hends.1, fun way => ?_, List.pairwise_flatMap.2
    ⟨fun q _ => pairwise_foundAt hw o q, htour.ordered.imp fun {q q'} hbefore x hx y hy => ?_⟩⟩
  · rw [finds_iff hw hlinks hroot hr, List.mem_flatMap]
    constructor
    · rintro ⟨q, hq, hmem⟩
      exact ⟨q, htour.enters q hq, hmem⟩
    · rintro ⟨q, hq, hmem⟩
      exact ⟨q, hends.2 q hq, hmem⟩
  · obtain ⟨m, rfl⟩ := exists_of_mem_foundAt hx
    obtain ⟨n, rfl⟩ := exists_of_mem_foundAt hy
    exact Route.precedes_concat hbefore m n

/-- Different names lead to different files, so no path is found twice. -/
theorem nodup_paths {o : ScanOptions} {depth : Depth} {found : List Route}
    (hmem : ∀ way ∈ found, Finds w o excluded root r depth way)
    (hordered : found.Pairwise Route.Precedes) : (found.map root.along).Nodup := by
  refine List.Nodup.map_on (fun p hp q hq heq => ?_) (hordered.imp fun {p q} h hpq => ?_)
  · obtain ⟨f, hf⟩ := (hmem p hp).file
    obtain ⟨g, hg⟩ := (hmem q hq).file
    have hp' := Workspace.resolve_along hw hlinks hroot hr hf
    have hq' := Workspace.resolve_along hw hlinks hroot hr hg
    rw [heq, hq'] at hp'
    exact List.append_cancel_left (Except.ok.inj hp').symm
  · exact Route.precedes_irrefl p (hpq ▸ h)

end

end

/-- The name of a document, spelled in Latin-1. These bytes are not UTF-8. -/
def latinName : Bytes := Bytes.ofString "caf" ++ 0xE9 :: Bytes.ofString ".md"

/-- A directory with documents at three levels, one with a name that is not UTF-8, and another
file. -/
def shelf : Workspace where
  tree := ⟨[([.ofString "a"], .directory), ([.ofString "a", .ofString "x"], .directory),
    ([.ofString "a", .ofString "x", .ofString "deep.md"], .file ⟨.text [], privateMode⟩),
    ([.ofString "a", .ofString "z.md"], .file ⟨.text [], privateMode⟩),
    ([.ofString "b.md"], .file ⟨.text [], privateMode⟩),
    ([latinName], .file ⟨.text [], privateMode⟩),
    ([.ofString "c.txt"], .file ⟨.text [], privateMode⟩)]⟩
  cwd := []

end Scan

end Transclude
