import Transclude.Tree.Basic
import Transclude.Error

/-!
# Resolving paths

A path leads to an entry of a tree, step by step from the root or from the current directory. Links
are followed where they stand, at most forty on one way (`maxLinks`); this is what the operating
system does for the program. The route that is found holds no link.

A workspace stands in a valid tree, in a directory of it (`Workspace.Valid`). This is what a path
needs to lead to an entry: the directories above an entry are there, so its canonical path leads to
it, without a link on the way.

Main statements:
- `Workspace.resolve_ofRoute`: a canonical path leads to its entry.
- `Workspace.exists_of_resolve`: what a path leads to is a file or a directory.
- `Workspace.placeOf_ofRoute`: an entry with a canonical path stands where the path says.
-/

namespace Transclude

/-- A tree with a current directory. -/
structure Workspace where
  tree : Tree
  cwd : Route
  deriving DecidableEq, Repr

/-- The number of links that one way may lead through. -/
def maxLinks : Nat := 40

namespace Tree

/-- Takes the steps from the directory `base`: the route that they lead to. Only its last name may
be missing. At a link `atLink` goes on, from the directory in which its target starts. -/
def take (t : Tree) (atLink : Route → List Path.Step → Except Fault Route) (base : Route) :
    List Path.Step → Except Fault Route
  | [] => .ok base
  | .here :: rest => take t atLink base rest
  | .up :: rest => take t atLink base.dropLast rest
  | .down name :: rest =>
    match t.node? (base ++ [name]) with
    | none => if rest = [] then .ok (base ++ [name]) else .error .missing
    | some .directory => take t atLink (base ++ [name]) rest
    | some (.file _) => if rest = [] then .ok (base ++ [name]) else .error .notDirectory
    | some (.link target) => atLink (if target.isRooted then [] else base) (target.steps ++ rest)

/-- Takes the steps from the directory `base`, through at most `links` links: the route of an entry,
or of one that could be made in a directory that is there. -/
def reach (t : Tree) : (links : Nat) → (base : Route) → List Path.Step → Except Fault Route
  | 0 => t.take fun _ _ => .error .tooManyLinks
  | links + 1 => t.take (t.reach links)

/-- Takes the steps from the directory `base`, through at most `links` links: the route of the entry
that is reached. -/
def follow (t : Tree) (links : Nat) (base : Route) (steps : List Path.Step) : Except Fault Route :=
  match t.reach links base steps with
  | .error fault => .error fault
  | .ok r => if (t.node? r).isSome then .ok r else .error .missing

end Tree

namespace Workspace

/-- The directory in which a path starts. -/
def startOf (w : Workspace) (p : Path) : Route := if p.isRooted then [] else w.cwd

/-- The route of the entry that a path leads to. -/
def resolve (w : Workspace) (p : Path) : Except Fault Route :=
  if p.bytes = [] then .error .missing else w.tree.follow maxLinks (w.startOf p) p.steps

/-- The route at which an entry stands that a path leads to, or would stand. -/
def target (w : Workspace) (p : Path) : Except Fault Route :=
  if p.bytes = [] then .error .missing else w.tree.reach maxLinks (w.startOf p) p.steps

/-- The entry that a path leads to. -/
def node? (w : Workspace) (p : Path) : Option Node :=
  match w.resolve p with
  | .ok r => w.tree.node? r
  | .error _ => none

/-- Whether a path leads to an entry. -/
def isEntry (w : Workspace) (p : Path) : Bool := (w.node? p).isSome

/-- Whether a path leads to a file. -/
def isFile (w : Workspace) (p : Path) : Bool :=
  match w.node? p with
  | some (.file _) => true
  | _ => false

/-- Whether a path leads to a directory. -/
def isDirectory (w : Workspace) (p : Path) : Bool := w.node? p = some .directory

/-- The current directory as a path. -/
def currentPath (w : Workspace) : Path := .ofRoute w.cwd

/-- The route at which an entry with this path stands or would stand, if it is a link the route of
the link itself. -/
def placeOf (w : Workspace) (p : Path) : Except Fault Route :=
  match p.steps.getLast? with
  | some (.down name) =>
    match w.tree.follow maxLinks (w.startOf p) p.steps.dropLast with
    | .error fault => .error fault
    | .ok dir =>
      if w.tree.node? dir = some .directory then .ok (dir ++ [name]) else .error .notDirectory
  | _ => .error .busy

end Workspace

namespace Tree

/-! ## Steps -/

/-- What a way does at its first link. -/
def atLink (t : Tree) : Nat → Route → List Path.Step → Except Fault Route
  | 0 => fun _ _ => .error .tooManyLinks
  | links + 1 => t.reach links

/-- The way of a path is `take` with an answer for links that allows one link less. The recursion is
on the links that are left, not on the steps. -/
theorem reach_eq_take (t : Tree) (links : Nat) : t.reach links = t.take (t.atLink links) := by
  cases links <;> rfl

theorem follow_of_reach {t : Tree} {links : Nat} {base r : Route} {steps : List Path.Step}
    {n : Node} (h : t.reach links base steps = .ok r) (hn : t.node? r = some n) :
    t.follow links base steps = .ok r := by
  rw [follow, h]
  simp [hn]

/-- Following steps succeeds exactly if they lead somewhere, and an entry is there. -/
theorem follow_eq_ok_iff {t : Tree} {links : Nat} {base r : Route} {steps : List Path.Step} :
    t.follow links base steps = .ok r ↔
      t.reach links base steps = .ok r ∧ (t.node? r).isSome = true := by
  rw [follow]
  cases t.reach links base steps with
  | error fault => simp
  | ok q =>
    dsimp only
    split
    · next hq =>
      constructor
      · rintro h
        obtain rfl := Except.ok.inj h
        exact ⟨rfl, hq⟩
      · exact And.left
    · next hq =>
      constructor
      · exact fun h => nomatch h
      · rintro ⟨h, hr⟩
        obtain rfl := Except.ok.inj h
        exact absurd hr hq

section

variable {t : Tree} {f : Route → List Path.Step → Except Fault Route} {base : Route}

/-- The last step down to a name may lead to no entry: this is where one could be made. -/
theorem take_down_missing {name : Bytes} (h : t.node? (base ++ [name]) = none) :
    t.take f base [.down name] = .ok (base ++ [name]) := by
  rw [take, h]
  rfl

/-- A step down to a file ends there. No step can follow it. -/
theorem take_down_file {name : Bytes} {file : File}
    (h : t.node? (base ++ [name]) = some (.file file)) :
    t.take f base [.down name] = .ok (base ++ [name]) := by
  rw [take, h]
  rfl

/-- A step down to a directory goes on from it with the `rest` of the steps. -/
theorem take_down_directory {name : Bytes} (h : t.node? (base ++ [name]) = some .directory)
    (rest : List Path.Step) :
    t.take f base (.down name :: rest) = t.take f (base ++ [name]) rest := by
  rw [take, h]

/-- Steps down a route `r` of directories go on from its end. Above an entry of a valid tree there
are only directories, so it is enough that one is there. -/
theorem take_directories (ht : t.Valid) {r : Route} (h : t.node? (base ++ r) = some .directory)
    (rest : List Path.Step) :
    t.take f base (r.map .down ++ rest) = t.take f (base ++ r) rest := by
  induction r generalizing base with
  | nil => rw [List.append_nil]; rfl
  | cons name r ih =>
    rw [List.append_cons] at h
    have hname : t.node? (base ++ [name]) = some .directory := by
      by_cases hr : r = []
      · rwa [hr, List.append_nil] at h
      · exact ht.node?_of_append h hr
    rw [List.map_cons, List.cons_append, take_down_directory hname, ih h,
      List.append_cons base name r]

/-- Steps from the root down to a directory lead to it, however many links may be followed. -/
theorem reach_directories (ht : t.Valid) {r : Route} (h : t.node? r = some .directory)
    (links : Nat) : t.reach links [] (r.map .down) = .ok r := by
  have hbase : t.node? ([] ++ r) = some .directory := h
  rw [reach_eq_take, ← List.append_nil (r.map Path.Step.down), take_directories ht hbase]
  rfl

/-- Steps down to a file, or to a place in a directory where nothing is, lead there. -/
theorem take_concat (ht : t.Valid) {r : Route} {name : Bytes}
    (h : t.node? (base ++ r) = some .directory)
    (hn : t.node? (base ++ r ++ [name]) = none ∨
      ∃ file, t.node? (base ++ r ++ [name]) = some (.file file)) :
    t.take f base ((r ++ [name]).map .down) = .ok (base ++ r ++ [name]) := by
  rw [List.map_append, take_directories ht h]
  rcases hn with hn | ⟨file, hn⟩
  · exact take_down_missing hn
  · exact take_down_file hn

/-- Whether a route is that of a file or a directory, or one where a file could be made. -/
def Reachable (t : Tree) (r : Route) : Prop :=
  t.node? r = some .directory ∨ (∃ file, t.node? r = some (.file file)) ∨
    t.node? r = none ∧ IsNamed r ∧ t.node? r.dropLast = some .directory

/-- From a directory steps lead to a place that is `Reachable`, if what `f` answers for a link is
such a place. This is the step of the induction on the links that are left. -/
theorem reachable_of_take (ht : t.Valid)
    (hf : ∀ b steps r, t.node? b = some .directory → Path.AreNamed steps → f b steps = .ok r →
      t.Reachable r)
    {steps : List Path.Step} (hsteps : Path.AreNamed steps) {r : Route}
    (hb : t.node? base = some .directory) (h : t.take f base steps = .ok r) : t.Reachable r := by
  induction steps generalizing base with
  | nil =>
    obtain rfl := Except.ok.inj h
    exact .inl hb
  | cons step rest ih =>
    have hrest : Path.AreNamed rest := fun name hname => hsteps name (List.mem_cons_of_mem _ hname)
    cases step with
    | here => exact ih hrest hb h
    | up => exact ih hrest (ht.node?_dropLast hb) h
    | down name =>
      rw [take] at h
      split at h
      · next hn =>
        split at h
        · obtain rfl := Except.ok.inj h
          exact .inr (.inr ⟨hn, (ht.isNamed hb).concat (hsteps name List.mem_cons_self),
            by rwa [List.dropLast_concat]⟩)
        · cases h
      · next hn => exact ih hrest hn h
      · next file hn =>
        split at h
        · obtain rfl := Except.ok.inj h
          exact .inr (.inl ⟨file, hn⟩)
        · cases h
      · next target hn =>
        refine hf _ _ _ ?_ (fun name hname => ?_) h
        · split
          · rfl
          · exact hb
        · rcases List.mem_append.1 hname with hname | hname
          · exact Path.areNamed_steps target name hname
          · exact hrest name hname

/-- **Where steps lead** is a place in a directory: to a file, to a directory, or to where nothing
is. -/
theorem reachable_of_reach (ht : t.Valid) {links : Nat} {steps : List Path.Step}
    (hsteps : Path.AreNamed steps) {r : Route} (hb : t.node? base = some .directory)
    (h : t.reach links base steps = .ok r) : t.Reachable r := by
  induction links generalizing base steps r with
  | zero => exact reachable_of_take ht (fun _ _ _ _ _ hlink => by cases hlink) hsteps hb h
  | succ links ih =>
    exact reachable_of_take ht (fun _ _ _ hb hsteps h => ih hsteps hb h) hsteps hb h

end

end Tree

/-! ## Valid workspaces -/

namespace Workspace

/-- Whether a workspace stands in a directory of a valid tree. -/
structure Valid (w : Workspace) : Prop where
  tree : w.tree.Valid
  cwd : w.tree.node? w.cwd = some .directory

instance (w : Workspace) : Decidable w.Valid :=
  decidable_of_iff (w.tree.Valid ∧ w.tree.node? w.cwd = some .directory)
    ⟨fun ⟨h₁, h₂⟩ => ⟨h₁, h₂⟩, fun ⟨h₁, h₂⟩ => ⟨h₁, h₂⟩⟩

/-- What is a directory for `isDirectory` is one in the tree, at the route that the path leads
to. -/
theorem exists_of_isDirectory {w : Workspace} {p : Path} (h : w.isDirectory p = true) :
    ∃ r, w.resolve p = .ok r ∧ w.tree.node? r = some .directory := by
  rw [isDirectory, decide_eq_true_iff, node?] at h
  split at h
  · next r hr => exact ⟨r, hr, h⟩
  · cases h

/-- What a path leads to a directory of is a directory for `isDirectory`. -/
theorem isDirectory_of_resolve {w : Workspace} {p : Path} {r : Route} (h : w.resolve p = .ok r)
    (hr : w.tree.node? r = some .directory) : w.isDirectory p = true := by
  rw [isDirectory, node?, h]
  exact decide_eq_true hr

/-- Where a path leads, there is an entry. -/
theorem isSome_of_resolve {w : Workspace} {p : Path} {r : Route} (h : w.resolve p = .ok r) :
    (w.tree.node? r).isSome = true := by
  rw [resolve] at h
  split at h
  · cases h
  · exact (Tree.follow_eq_ok_iff.1 h).2

section

variable {w : Workspace} (hw : w.Valid)

include hw

/-- Paths start at a directory, at the root or at the working directory. -/
theorem node?_startOf (p : Path) : w.tree.node? (w.startOf p) = some .directory := by
  unfold startOf
  split
  · rfl
  · exact hw.cwd

/-- **What a path leads to** is a file or a directory. Links are followed, so it is never a link. -/
theorem exists_of_resolve {p : Path} {r : Route} (h : w.resolve p = .ok r) :
    w.tree.node? r = some .directory ∨ ∃ f, w.tree.node? r = some (.file f) := by
  unfold resolve at h
  split at h
  · cases h
  · obtain ⟨hreach, hsome⟩ := Tree.follow_eq_ok_iff.1 h
    rcases Tree.reachable_of_reach hw.tree p.areNamed_steps (node?_startOf hw p) hreach with
      hn | hn | ⟨hn, -⟩
    · exact .inl hn
    · exact .inr hn
    · rw [hn] at hsome
      cases hsome

/-- A write to a canonical path is made at its route, if a file or nothing is there. A link there
would be followed. -/
theorem target_ofRoute {r : Route} (hr : r ≠ []) (hnamed : IsNamed r)
    (hparent : w.tree.node? r.dropLast = some .directory)
    (hn : w.tree.node? r = none ∨ ∃ f, w.tree.node? r = some (.file f)) :
    w.target (.ofRoute r) = .ok r := by
  obtain ⟨name, -, heq⟩ := Path.exists_concat hr
  rw [target, if_neg (Path.bytes_ofRoute_ne_nil r), startOf, if_pos (Path.isRooted_ofRoute r),
    Path.steps_ofRoute hr hnamed, Tree.reach_eq_take]
  rw [heq] at hn ⊢
  exact Tree.take_concat hw.tree hparent hn

/-- **A canonical path leads to its entry**, unless that is a link. -/
theorem resolve_ofRoute {r : Route} {n : Node} (h : w.tree.node? r = some n)
    (hn : ∀ target, n ≠ .link target) : w.resolve (.ofRoute r) = .ok r := by
  by_cases hr : r = []
  · subst hr
    rfl
  · have hnamed := hw.tree.isNamed h
    rw [resolve, if_neg (Path.bytes_ofRoute_ne_nil r), startOf, if_pos (Path.isRooted_ofRoute r)]
    refine Tree.follow_of_reach ?_ h
    rw [Path.steps_ofRoute hr hnamed]
    cases n with
    | file f =>
      obtain ⟨name, -, heq⟩ := Path.exists_concat hr
      rw [heq] at h ⊢
      rw [Tree.reach_eq_take]
      exact Tree.take_concat hw.tree (by simpa using hw.tree.node?_dropLast h) (.inr ⟨f, h⟩)
    | directory => exact Tree.reach_directories hw.tree h maxLinks
    | link target => exact absurd rfl (hn target)

/-- What is at a canonical path is its entry, unless that is a link. -/
theorem node?_ofRoute {r : Route} {n : Node} (h : w.tree.node? r = some n)
    (hn : ∀ target, n ≠ .link target) : w.node? (.ofRoute r) = some n := by
  rw [node?, resolve_ofRoute hw h hn]
  exact h

/-- What is a file for `isFile` is one in the tree, at the route that the path leads to. -/
theorem resolve_of_isFile {p : Path} (h : w.isFile p = true) :
    ∃ r f, w.resolve p = .ok r ∧ w.tree.node? r = some (.file f) := by
  unfold isFile node? at h
  cases hr : w.resolve p with
  | error fault => rw [hr] at h; cases h
  | ok r =>
    rcases exists_of_resolve hw hr with hn | ⟨f, hn⟩
    · rw [hr] at h
      dsimp only at h
      rw [hn] at h
      cases h
    · exact ⟨r, f, rfl, hn⟩

/-- The place of an entry with a canonical path is its route, whatever is there. -/
theorem placeOf_ofRoute {r : Route} (hr : r ≠ []) (hnamed : IsNamed r)
    (hparent : w.tree.node? r.dropLast = some .directory) : w.placeOf (.ofRoute r) = .ok r := by
  obtain ⟨name, hlast, heq⟩ := Path.exists_concat hr
  have hfollow : w.tree.follow maxLinks [] (r.dropLast.map .down) = .ok r.dropLast :=
    Tree.follow_of_reach (Tree.reach_directories hw.tree hparent maxLinks) hparent
  rw [placeOf, Path.steps_ofRoute hr hnamed, List.getLast?_map, hlast, Option.map_some]
  dsimp only
  rw [← List.map_dropLast, startOf, if_pos (Path.isRooted_ofRoute r), hfollow]
  dsimp only
  rw [if_pos hparent, ← heq]

end

end Workspace

end Transclude
