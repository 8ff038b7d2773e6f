import Transclude.Proofs.Searches
import Transclude.Proofs.Spellings

/-!
# Included files lie in their folders

An include marker names a file, and a document should not be able to include what it likes. A name
is refused before anything is looked up if it is blank, starts at the root, or has a part `..`. This
file shows what that is good for: where no links are, the file that is read lies below the folder in
which it was found, however name and folder are spelled.

The reason is one of steps. Behind a folder the steps of the name come last
(`Path.exists_lead_join`), and a name that is not refused has no step up
(`Path.climbs_eq_true_iff`). So the way to the file first does what the folder says, passing
directories only, and from the directory that this leads to it goes down, by the names in the name
and nothing else (`Route.after_of_not_up`).

The folders are searched in order, and only files count, so that a directory with the name of the
file does not end the search (`Lookup.includedText_eq`).

Main statement: `Lookup.includedText_confined`.
-/

namespace Transclude

/-! ## Names without steps up -/

namespace Path

/-- The name of a step down. -/
def Step.name? : Step → Option Bytes
  | down name => some name
  | _ => none

/-- The names that a path goes down by, one after the other. -/
def names (p : Path) : Route := p.steps.filterMap Step.name?

end Path

/-- **Without steps up** steps lead down by their names: `after` puts these behind `base`. -/
theorem Route.after_of_not_up {steps : List Path.Step} (h : .up ∉ steps) (base : Route) :
    after base steps = base ++ steps.filterMap Path.Step.name? := by
  induction steps generalizing base with
  | nil => exact (List.append_nil base).symm
  | cons step steps ih =>
    have hrest : .up ∉ steps := fun hup => h (List.mem_cons_of_mem _ hup)
    cases step with
    | here => exact ih hrest base
    | up => exact absurd List.mem_cons_self h
    | down name =>
      have hnames : (.down name :: steps).filterMap Path.Step.name? =
          name :: steps.filterMap Path.Step.name? := rfl
      rw [after, ih hrest, hnames, List.append_assoc]
      rfl

namespace Workspace

/-- Whether a folder stands for the directory at a route. The empty path stands for the directory in
which relative paths start. -/
def StandsFor (w : Workspace) (folder : Path) (base : Route) : Prop :=
  w.resolve (if folder.bytes = [] then .dot else folder) = .ok base ∧
    w.tree.node? base = some .directory

instance (w : Workspace) (folder : Path) (base : Route) : Decidable (w.StandsFor folder base) :=
  inferInstanceAs (Decidable (_ ∧ _))

/-- A path `q` behind a folder starts where the folder does. -/
theorem startOf_join (w : Workspace) (folder : Path) {q : Path} (hrooted : q.isRooted = false) :
    w.startOf (folder.join q) = w.startOf folder := by
  by_cases hfolder : folder.bytes = []
  · have hjoin : folder.join q = q := by
      rw [Path.join, hrooted, if_neg Bool.false_ne_true, if_pos (.inl hfolder), hfolder]
      rfl
    have hempty : folder.isRooted = false := by
      rw [Path.isRooted, hfolder]
      rfl
    rw [startOf, startOf, hjoin, hrooted, hempty]
  · rw [startOf, startOf, Path.isRooted_join hfolder hrooted]

section

variable {w : Workspace} (hw : w.Valid)

include hw

theorem standsFor_currentPath : w.StandsFor w.currentPath w.cwd := by
  have hbytes : w.currentPath.bytes ≠ [] := Path.bytes_ofRoute_ne_nil w.cwd
  rw [StandsFor, if_neg hbytes]
  exact ⟨resolve_ofRoute hw hw.cwd (by simp), hw.cwd⟩

/-- A folder whose steps pass stands for the directory that they lead to. The steps may end with one
that asks for a directory. -/
theorem standsFor_of_passes {folder : Path} {lead : List Path.Step}
    (hlead : (if folder.bytes = [] then Path.dot else folder).steps = lead ∨
      (if folder.bytes = [] then Path.dot else folder).steps = lead ++ [.here])
    (hpasses : w.tree.Passes (w.startOf folder) lead) :
    w.StandsFor folder (Route.after (w.startOf folder) lead) := by
  generalize hroot : (if folder.bytes = [] then Path.dot else folder) = root at hlead
  have hbytes : root.bytes ≠ [] := by
    rw [← hroot]
    split
    · exact List.cons_ne_nil _ _
    · assumption
  have hstart : w.startOf root = w.startOf folder := by
    rw [← hroot]
    split
    · next hnil => rw [startOf, startOf, Path.isRooted, Path.isRooted, hnil]; rfl
    · rfl
  have hnode := hpasses.node?_after hw.tree (node?_startOf hw folder)
  have hsteps : w.tree.Passes (w.startOf root) root.steps ∧
      Route.after (w.startOf root) root.steps = Route.after (w.startOf folder) lead := by
    rw [hstart]
    rcases hlead with hlead | hlead
    · rw [hlead]
      exact ⟨hpasses, rfl⟩
    · rw [hlead, Tree.passes_append, Route.after_append]
      exact ⟨⟨hpasses, trivial⟩, rfl⟩
  refine ⟨?_, hnode⟩
  rw [hroot, resolve, if_neg hbytes]
  refine Tree.follow_of_reach ?_ hnode
  rw [Tree.reach_eq_take, hsteps.1.take_eq, hsteps.2]

/-- **A file behind a folder lies below it**: down the names of the path `q`, if there is no step up
among them. -/
theorem below_of_resolve (hlinks : w.tree.LinkFree) {folder q : Path} (hbytes : q.bytes ≠ [])
    (hrooted : q.isRooted = false) (hclimbs : q.climbs = false) {r : Route} {f : File}
    (hr : w.resolve (folder.join q) = .ok r) (hf : w.tree.node? r = some (.file f)) :
    ∃ base, w.StandsFor folder base ∧ r = base ++ q.names ∧ q.names ≠ [] := by
  have hup : .up ∉ q.steps := by
    intro hup
    rw [Path.climbs, List.any_eq_false] at hclimbs
    exact hclimbs _ hup rfl
  obtain ⟨lead, hsteps, hlead⟩ := Path.exists_lead_join folder hbytes hrooted
  have hstart := startOf_join w folder hrooted
  rw [resolve] at hr
  split at hr
  · cases hr
  obtain ⟨hreach, -⟩ := Tree.follow_eq_ok_iff.1 hr
  rw [Tree.reach_eq_take, hsteps, hstart] at hreach
  obtain ⟨above, last, habove, hpasses, hroute⟩ :=
    Tree.passes_of_take hw.tree hlinks (node?_startOf hw folder) hreach hf
  -- the step down to the file is the last one of the name
  have hne := Path.steps_ne_nil hbytes hrooted
  have hparts := List.dropLast_concat_getLast hne
  rw [← hparts, ← List.append_assoc] at habove
  obtain ⟨rfl, hlast⟩ := List.append_inj' habove rfl
  have hdown : q.steps = q.steps.dropLast ++ [.down last] := by rw [← hlast, hparts]
  have hnames : q.names = q.steps.dropLast.filterMap Path.Step.name? ++ [last] := by
    rw [Path.names, hdown, List.filterMap_append, List.dropLast_concat]
    rfl
  have hinit : .up ∉ q.steps.dropLast := fun hmem => hup (List.dropLast_subset _ hmem)
  rw [Tree.passes_append] at hpasses
  refine ⟨_, standsFor_of_passes hw hlead hpasses.1, ?_, ?_⟩
  · rw [hroute, Route.after_append, Route.after_of_not_up hinit, hnames, List.append_assoc]
  · rw [hnames]
    exact List.concat_ne_nil _ _

end

end Workspace

namespace Lookup

/-! ## What is looked up -/

/-- The folders that are searched, in order. -/
def startsOf (w : Workspace) (folders : List Path) (includeCwd : Bool) : List Path :=
  folders ++ (if includeCwd then [w.currentPath] else [])

/-- **The file that counts** is that of the first folder of `startsOf` which has one at the name.
Directories at the name are passed over, and a file that cannot be read is not. -/
theorem includedText_eq (w : Workspace) {name : Text} (hname : IsContained name)
    (folders : List Path) (includeCwd : Bool) :
    includedText w name folders includeCwd =
      match (startsOf w folders includeCwd).find? fun s => w.isFile (s.entry name.bytes) with
      | some s => (w.read (s.entry name.bytes)).map Document.text
      | none => .error (.notFound name) := by
  have hcheck : checkIncludeName name = .ok () :=
    ((checkIncludeName_cases name).resolve_right fun h => h.1 hname).2
  have hplaces : (probes (startsOf w folders includeCwd) [] 0 name).map Prod.snd =
      (startsOf w folders includeCwd).map fun s => s.entry name.bytes := by
    rw [map_snd_probes, candidates, List.map_eq_flatMap]
    exact List.flatMap_congr fun s _ => congrArg (fun p => [p]) (Path.entry_join_empty s _)
  have hfind : find w.isFile name (startsOf w folders includeCwd) [] 0 = _ :=
    find_eq (Text.allBlank_eq_false_iff.2 hname.1) (List.forall_mem_nil _) 0
  rw [hplaces, List.find?_map] at hfind
  unfold includedText
  rw [hcheck]
  show (find w.isFile name (startsOf w folders includeCwd) [] 0 >>= fun p =>
    w.read p >>= fun d => pure d.text) = _
  have hsame : (w.isFile ∘ fun s : Path => s.entry name.bytes) =
      fun s => w.isFile (s.entry name.bytes) := rfl
  rw [hfind, hsame]
  cases (startsOf w folders includeCwd).find? fun s => w.isFile (s.entry name.bytes) with
  | none => rfl
  | some s =>
    show (w.read (s.entry name.bytes) >>= fun d => pure d.text) =
      (w.read (s.entry name.bytes)).map _
    cases w.read (s.entry name.bytes) <;> rfl

/-- Whether a folder gives the text `t` for a name: that of a file in the directory that the folder
stands for, or further down, by the names in the name. -/
def Gives (w : Workspace) (folder : Path) (name t : Text) : Prop :=
  ∃ base f raw, w.StandsFor folder base ∧ Path.names (.ofText name) ≠ [] ∧
    w.resolve (folder.entry name.bytes) = .ok (base ++ Path.names (.ofText name)) ∧
    w.tree.node? (base ++ Path.names (.ofText name)) = some (.file f) ∧
    f.content = .text raw ∧ t = (Document.ofText raw).text

/-- What looking up an included file comes to. -/
structure Confined (w : Workspace) (name : Text) (folders : List Path) (includeCwd : Bool) :
    Prop where
  /-- A name that may not be included is refused, whatever files and folders there are. -/
  refused : ¬IsContained name →
    ∃ cause ∈ [.emptyIncludeName, .rootedInclude name, .climbingInclude name],
      ∀ w' folders' includeCwd',
        includedText w' name folders' includeCwd' = .error (.validation cause)
  /-- The text that is got for another name is that of the first folder with a file at the name, and
  the file lies below this folder. -/
  included : ∀ t, includedText w name folders includeCwd = .ok t ↔
    IsContained name ∧ ∃ before folder after,
      startsOf w folders includeCwd = before ++ folder :: after ∧
      (∀ s ∈ before, w.isFile (s.entry name.bytes) = false) ∧ Gives w folder name t
  /-- It is not found only if no folder has a file at the name, whatever else may stand there. -/
  missed : IsContained name → ∀ what,
    includedText w name folders includeCwd = .error (.notFound what) ↔
      what = name ∧ ∀ s ∈ startsOf w folders includeCwd, w.isFile (s.entry name.bytes) = false
  /-- The current directory, which is searched last, is the folder that stands for itself. -/
  current : w.StandsFor w.currentPath w.cwd

section

variable {w : Workspace} (hw : w.Valid)

include hw

/-- **A folder with a file at a name** gives its text: `Gives` tells by the entries of the tree what
a lookup and a read find out. -/
theorem map_text_read_iff (hlinks : w.tree.LinkFree) {folder : Path} {name : Text}
    (hname : IsContained name) {t : Text} :
    w.isFile (folder.entry name.bytes) = true ∧
      (w.read (folder.entry name.bytes)).map Document.text = .ok t ↔ Gives w folder name t := by
  constructor
  · intro h
    obtain ⟨hfile, hread⟩ := h
    obtain ⟨r, f, hr, hf⟩ := w.resolve_of_isFile hw hfile
    rw [Workspace.read_of_node? hr hf] at hread
    have hbytes : name.bytes ≠ [] := by
      obtain ⟨c, hc, -⟩ := hname.1
      exact mt Text.bytes_eq_nil_iff.1 (List.ne_nil_of_mem hc)
    obtain ⟨base, hbase, rfl, hne⟩ :=
      Workspace.below_of_resolve hw hlinks (q := .ofText name) hbytes
        (isRooted_eq_false_iff.2 hname.2.1) (climbs_eq_false_iff.2 hname.2.2) hr hf
    split at hread
    · next raw hcontent =>
      exact ⟨base, f, raw, hbase, hne, hr, hf, hcontent, (Except.ok.inj hread).symm⟩
    · cases hread
  · intro h
    obtain ⟨base, f, raw, -, -, hr, hf, hcontent, rfl⟩ := h
    refine ⟨?_, ?_⟩
    · rw [Workspace.isFile, Workspace.node?, hr]
      dsimp only
      rw [hf]
    · rw [Workspace.read_of_node? hr hf, hcontent]
      rfl

/-- The text `t` that is got is that of the first folder with a file at the name, and none of the
folders before it has one. -/
theorem includedText_eq_ok_iff (hlinks : w.tree.LinkFree) {name : Text} (hname : IsContained name)
    {folders : List Path} {includeCwd : Bool} {t : Text} :
    includedText w name folders includeCwd = .ok t ↔
      ∃ before folder after, startsOf w folders includeCwd = before ++ folder :: after ∧
        (∀ s ∈ before, w.isFile (s.entry name.bytes) = false) ∧ Gives w folder name t := by
  rw [includedText_eq w hname]
  constructor
  · intro h
    split at h
    · next folder hfolder =>
      obtain ⟨hfile, before, after, hstarts, hbefore⟩ := List.find?_eq_some_iff_append.1 hfolder
      refine ⟨before, folder, after, hstarts, ?_, (map_text_read_iff hw hlinks hname).1 ⟨hfile, h⟩⟩
      intro s hs
      simpa using hbefore s hs
    · cases h
  · intro h
    obtain ⟨before, folder, after, hstarts, hbefore, hgives⟩ := h
    obtain ⟨hfile, hread⟩ := (map_text_read_iff hw hlinks hname).2 hgives
    have hfirst : ((startsOf w folders includeCwd).find? fun s => w.isFile (s.entry name.bytes)) =
        some folder := by
      refine List.find?_eq_some_iff_append.2 ⟨hfile, before, after, hstarts, ?_⟩
      intro s hs
      rw [hbefore s hs]
      rfl
    rw [hfirst]
    exact hread

/-- A lookup fails for want of a file only if no folder has one at the name, and then the error
shows `name`. -/
theorem includedText_eq_notFound_iff {name : Text} (hname : IsContained name)
    {folders : List Path} {includeCwd : Bool} {what : Text} :
    includedText w name folders includeCwd = .error (.notFound what) ↔
      what = name ∧ ∀ s ∈ startsOf w folders includeCwd, w.isFile (s.entry name.bytes) = false := by
  rw [includedText_eq w hname]
  split
  · next folder hfolder =>
    have hfile := (List.find?_eq_some_iff_append.1 hfolder).1
    constructor
    · intro h
      cases hread : w.read (folder.entry name.bytes) with
      | ok d =>
        rw [hread] at h
        cases h
      | error e =>
        rw [hread] at h
        obtain rfl := Except.error.inj h
        exact absurd hread (Workspace.read_ne_notFound_of_isFile hw hfile what)
    · intro h
      have hnone := h.2 folder (List.mem_of_find?_eq_some hfolder)
      exact absurd (hnone.symm.trans hfile) Bool.false_ne_true
  · next hnone =>
    have hall := List.find?_eq_none.1 hnone
    constructor
    · intro h
      cases h
      exact ⟨rfl, fun s hs => Bool.eq_false_iff.2 (hall s hs)⟩
    · intro h
      rw [h.1]

/-- **Included files lie in their folders** (`Confined`), where no links are: for every name,
however it is spelled, and for every row of folders. -/
theorem includedText_confined (hlinks : w.tree.LinkFree) (name : Text) (folders : List Path)
    (includeCwd : Bool) : Confined w name folders includeCwd where
  refused := exists_cause_of_not_contained
  included t := by
    constructor
    · intro h
      have hname : IsContained name := by
        by_contra hnot
        obtain ⟨cause, -, hrefused⟩ := exists_cause_of_not_contained hnot
        rw [hrefused] at h
        cases h
      exact ⟨hname, (includedText_eq_ok_iff hw hlinks hname).1 h⟩
    · intro h
      exact (includedText_eq_ok_iff hw hlinks h.1).2 h.2
  missed hname what := includedText_eq_notFound_iff hw hname
  current := Workspace.standsFor_currentPath hw

end

/-- A folder in which a directory has the name of a file in another. -/
def shadow : Workspace where
  tree := ⟨[([.ofString "a"], .directory), ([.ofString "a", .ofString "x"], .directory),
    ([.ofString "b"], .directory),
    ([.ofString "b", .ofString "x"], .file ⟨.text "hi".toList, 0o644⟩)]⟩
  cwd := []

/-- The directory does not hide the file, however folder and name are spelled. -/
theorem includedText_confined_shadow :
    includedText shadow "./x".toList [.ofString "a", .ofString "a/../b//"] false =
      .ok "hi".toList := by
  have hconfined : Confined shadow "./x".toList [.ofString "a", .ofString "a/../b//"] false :=
    includedText_confined (by decide +kernel) (by decide +kernel) _ _ _
  have hgives : Gives shadow (.ofString "a/../b//") "./x".toList "hi".toList :=
    ⟨[.ofString "b"], ⟨.text "hi".toList, 0o644⟩, "hi".toList, by decide +kernel, by decide +kernel,
      by decide +kernel, by decide +kernel, rfl, by decide +kernel⟩
  refine (hconfined.included _).2 ⟨by decide +kernel, [.ofString "a"], .ofString "a/../b//", [],
    rfl, ?_, hgives⟩
  decide +kernel

end Lookup

end Transclude
