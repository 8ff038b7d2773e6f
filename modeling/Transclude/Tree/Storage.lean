import Transclude.Tree.Resolve
import Transclude.Scope

/-!
# Reading and writing files

Documents are read as text (`get_file_content`), with the byte order mark at their beginning set
apart, and written so that nobody sees half of one (`set_file_content`): everything goes to a
temporary file in the same directory, which then takes the place of the entry at the path in one
step. A document keeps its permission bits when it is written again. The temporary file is an entry
of its own with the first free number; the program takes random characters instead.

By the canonical path of a file this cannot fail: the directory is there, the temporary file has a
name of its own in it (`Workspace.temporaryRoute_eq`), and the path leads past it to the file. In
the end the temporary file is gone, whatever name it had (`Workspace.writeBy_ofRoute`), and nothing
else is different but what the file holds.

Main statements:
- `Workspace.read_of_node?`: what is read of a file, by its content.
- `Workspace.write_ofRoute`: what is left of a write.
-/

namespace Transclude

/-- The text of a file, and whether a byte order mark stood before it. -/
structure Document where
  text : Text
  bom : Bool
  deriving DecidableEq, Repr

namespace Document

/-- The character that marks the byte order. -/
def mark : Char := '\uFEFF'

/-- A document from everything that its file holds. -/
def ofText : Text → Document
  | [] => ⟨[], false⟩
  | c :: t => if c = mark then ⟨t, true⟩ else ⟨c :: t, false⟩

/-- Everything that the file of a document holds. -/
def fileText (d : Document) : Text := if d.bom then mark :: d.text else d.text

/-- A text whose byte order mark was split off is put together again. -/
theorem fileText_ofText (t : Text) : (ofText t).fileText = t := by
  cases t with
  | nil => rfl
  | cons c t =>
    by_cases h : c = mark
    · simp [ofText, fileText, h]
    · simp [ofText, fileText, h]

end Document

/-- The permission bits of a new file. -/
def privateMode : Nat := 0o600

/-- The permission bits of a directory. -/
def directoryMode : Nat := 0o755

namespace Workspace

/-! ## Reading -/

/-- What the file at a path holds, as text. -/
def readText (w : Workspace) (p : Path) : Except Fault Text :=
  match w.resolve p with
  | .error fault => .error fault
  | .ok r =>
    match w.tree.node? r with
    | some (.file ⟨.text t, _⟩) => .ok t
    | some (.file ⟨.binary _, _⟩) => .error .notText
    | some .directory => .error .isDirectory
    | some (.link _) => .error .tooManyLinks
    | none => .error .missing

/-- The document at a path. -/
def read (w : Workspace) (p : Path) : Except Error Document :=
  match w.readText p with
  | .ok t => .ok (.ofText t)
  | .error .missing => .error (.notFound p.text)
  | .error fault => .error (.io fault)

/-- The permission bits of the entry that a path leads to. -/
def mode? (w : Workspace) (p : Path) : Option Nat :=
  match w.node? p with
  | some (.file f) => some f.mode
  | some .directory => some directoryMode
  | _ => none

/-! ## Writing -/

/-- With a new directory. -/
def makeDirectory (w : Workspace) (p : Path) : Except Fault Workspace :=
  match w.placeOf p with
  | .ok r =>
    if (w.tree.node? r).isSome then .error .alreadyExists
    else .ok { w with tree := w.tree.put r .directory }
  | .error .busy =>
    match w.resolve p with
    | .ok _ => .error .alreadyExists
    | .error fault => .error fault
  | .error fault => .error fault

/-- The path and the directories above it, at most `n` of them, as far as they have a name. -/
def withParents : Nat → Path → List Path
  | 0, _ => []
  | n + 1, p =>
    match p.parent? with
    | none => []
    | some parent => if p.bytes = [] then [] else p :: withParents n parent

/-- With the first of the directories, which all lie above one another, and with those of the others
that it needs. -/
def makeFirst : List Path → Workspace → Except Fault Workspace
  | [], w => .ok w
  | p :: above, w =>
    match w.makeDirectory p with
    | .ok w' => .ok w'
    | .error .alreadyExists => if w.isDirectory p then .ok w else .error .alreadyExists
    | .error .missing => do
      let w ← makeFirst above w
      match w.makeDirectory p with
      | .ok w' => .ok w'
      | .error fault => if w.isDirectory p then .ok w else .error fault
    | .error fault => .error fault

/-- With a directory at a path, and with the directories above it. -/
def makeDirectories (w : Workspace) (p : Path) : Except Fault Workspace :=
  makeFirst (withParents (p.bytes.length + 1) p) w

/-- With a file where a path leads to, in place of a file there or as a new one, also behind a link;
a directory stays. -/
def putFile (w : Workspace) (p : Path) (f : File) : Except Fault Workspace :=
  match w.target p with
  | .error fault => .error fault
  | .ok r =>
    if w.tree.node? r = some .directory then .error .isDirectory
    else .ok { w with tree := w.tree.put r (.file f) }

/-- With a file at a route. -/
def withFile (w : Workspace) (r : Route) (f : File) : Workspace :=
  { w with tree := w.tree.put r (.file f) }

/-- The name of the `n`th temporary file. -/
def temporaryName (n : Nat) : Text := ".mdref".toList ++ Text.natText n

/-- The route of a temporary file in a directory, under a name that is free. There are at most as
many names taken as entries. -/
def temporaryRoute (w : Workspace) (dir : Route) : Route :=
  let route (n : Nat) : Route := dir ++ [(temporaryName n).bytes]
  let entries := w.tree.nodes.length
  route (((List.range entries).find? fun n => (w.tree.node? (route n)).isNone).getD entries)

/-- With the entry of a route moved to a path, in place of what is there, a link itself included; a
directory stays. -/
def rename (w : Workspace) (r : Route) (p : Path) : Except Fault Workspace :=
  match w.placeOf p with
  | .error fault => .error fault
  | .ok q =>
    if w.tree.node? q = some .directory then .error .isDirectory
    else
      match w.tree.node? r with
      | none => .error .missing
      | some n => .ok { w with tree := (w.tree.erase r).put q n }

/-- Writes a document to a temporary file, gives it the permission bits of what the path led to, and
moves it to the path. If it cannot be moved it is taken away again. -/
def writeBy (w : Workspace) (temporary : Route) (p : Path) (d : Document) :
    Except Error Unit × Workspace :=
  let w := w.withFile temporary ⟨.text d.fileText, privateMode⟩
  let w := w.withFile temporary ⟨.text d.fileText, (w.mode? p).getD privateMode⟩
  match w.rename temporary p with
  | .ok w => (.ok (), w)
  | .error fault => (.error (.io fault), { w with tree := w.tree.erase temporary })

/-- Writes a document, and the directories above it where they are missing. The temporary file goes
next to it. -/
def write (w : Workspace) (p : Path) (d : Document) : Except Error Unit × Workspace :=
  match w.makeDirectories (Scope.directoryOf p) with
  | .error fault => (.error (.io fault), w)
  | .ok w =>
    match w.resolve (Scope.directoryOf p) with
    | .error fault => (.error (.io fault), w)
    | .ok dir =>
      if w.tree.node? dir = some .directory then w.writeBy (w.temporaryRoute dir) p d
      else (.error (.io .notDirectory), w)

/-! ## Checking -/

/-- The canonical path of a file with the given extension. -/
def checkFile (w : Workspace) (p : Path) (extension : Text) : Except Error Path :=
  let options := ScanOptions.ofExtension extension
  if !w.isFile p then .error (.notFound p.text)
  else if !options.matchesFile p then
    .error (.validation (.otherExtension p.text options.extension))
  else
    match w.resolve p with
    | .ok r => .ok (.ofRoute r)
    | .error fault => .error (.io fault)

end Workspace

namespace Path

variable {r : Route} (hr : r ≠ []) (h : IsNamed r)

include hr h

/-- The directory of an entry with a canonical path has that of the route before its last name. -/
theorem directoryOf_ofRoute : Scope.directoryOf (ofRoute r) = ofRoute r.dropLast := by
  rw [Scope.directoryOf, parent?_ofRoute hr h]
  exact if_neg (bytes_ofRoute_ne_nil _)

end Path

namespace Workspace

/-! ## What is read -/

/-- What reading a file gives: its text without the mark at its beginning, or an error if its bytes
are not UTF-8. -/
theorem read_of_node? {w : Workspace} {p : Path} {r : Route} {f : File} (hr : w.resolve p = .ok r)
    (hf : w.tree.node? r = some (.file f)) :
    w.read p =
      match f.content with
      | .text raw => .ok (.ofText raw)
      | .binary _ => .error (.io .notText) := by
  obtain ⟨content, mode⟩ := f
  rw [read, readText, hr]
  dsimp only
  rw [hf]
  cases content <;> rfl

/-- Where a file is, reading may fail, but not because nothing was found. -/
theorem read_ne_notFound_of_isFile {w : Workspace} (hw : w.Valid) {p : Path}
    (h : w.isFile p = true) (what : Text) : w.read p ≠ .error (.notFound what) := by
  obtain ⟨r, f, hr, hf⟩ := resolve_of_isFile hw h
  intro hread
  rw [read_of_node? hr hf] at hread
  split at hread <;> cases hread

end Workspace

namespace Workspace

/-! ## Files at routes -/

@[simp] theorem cwd_withFile (w : Workspace) (r : Route) (f : File) :
    (w.withFile r f).cwd = w.cwd := rfl

/-- What writing a file at `r` does: every other route `q` has what it had. -/
theorem node?_withFile {r : Route} (hr : r ≠ []) (w : Workspace) (f : File) (q : Route) :
    (w.withFile r f).tree.node? q = if q = r then some (.file f) else w.tree.node? q :=
  Tree.node?_put hr w.tree (.file f) q

section

variable {w : Workspace} (hw : w.Valid) {r : Route}

include hw

/-- A directory that is there need not be made, so the workspace `w` stays as it is. -/
theorem makeDirectories_ofRoute (h : w.tree.node? r = some .directory) :
    w.makeDirectories (.ofRoute r) = .ok w := by
  by_cases hr : r = []
  · subst hr
    rfl
  · have hnamed := hw.tree.isNamed h
    have hplace := placeOf_ofRoute hw hr hnamed (hw.tree.node?_dropLast h)
    have hmake : w.makeDirectory (.ofRoute r) = .error .alreadyExists := by
      rw [makeDirectory, hplace]
      simp [h]
    have hdirectory : w.isDirectory (.ofRoute r) = true := by
      rw [isDirectory, node?_ofRoute hw h (by simp)]
      rfl
    rw [makeDirectories, withParents, Path.parent?_ofRoute hr hnamed]
    dsimp only
    rw [if_neg (Path.bytes_ofRoute_ne_nil r), makeFirst, hmake]
    dsimp only
    rw [if_pos hdirectory]

/-- A file in place of a file, or a new one in a directory that is there, leaves the workspace
valid. -/
theorem valid_withFile (hr : r ≠ []) (hnamed : IsNamed r)
    (hparent : w.tree.node? r.dropLast = some .directory) (hn : w.tree.node? r ≠ some .directory)
    (f : File) : (w.withFile r f).Valid where
  tree := hw.tree.put hr hnamed hparent hn f
  cwd := by
    have hne : w.cwd ≠ r := by
      rintro heq
      exact hn (heq ▸ hw.cwd)
    rw [node?_withFile hr, cwd_withFile, if_neg hne]
    exact hw.cwd

variable {f : File} (hf : w.tree.node? r = some (.file f))

include hf

/-- Another file `g` in place of the file `f` leaves it valid in particular. -/
theorem valid_withFile_file (g : File) : (w.withFile r g).Valid :=
  valid_withFile hw (Tree.ne_nil_of_node? hf (by simp)) (hw.tree.isNamed hf)
    (hw.tree.node?_dropLast hf) (by simp [hf]) g

/-- The permission bits of a file, by its canonical path. -/
theorem mode?_ofRoute : w.mode? (.ofRoute r) = some f.mode := by
  rw [mode?, node?_ofRoute hw hf (by simp)]

end

/-! ## Temporary files -/

/-- A temporary file can have the name that is made for it. -/
theorem isEntryName_temporaryName (n : Nat) : IsEntryName (temporaryName n).bytes := by
  have hmem : 'm' ∈ temporaryName n := List.mem_append_left _ (by decide)
  have hslash : '/' ∉ temporaryName n := fun h =>
    (List.mem_append.1 h).elim (by decide) (Text.slash_not_mem_natText n)
  exact isEntryName_bytes hmem (by decide) (by decide) hslash

/-- Different numbers make different names of temporary files, so one of them is free. -/
theorem temporaryName_injective {m n : Nat} (h : temporaryName m = temporaryName n) : m = n :=
  Text.natText_injective (List.append_cancel_left h)

/-- **A temporary file gets a name that is free** in its directory `dir`, however many of them are
taken. -/
theorem temporaryRoute_eq (w : Workspace) (dir : Route) :
    ∃ n, w.temporaryRoute dir = dir ++ [(temporaryName n).bytes] ∧
      w.tree.node? (dir ++ [(temporaryName n).bytes]) = none := by
  have hroute : ∀ m n, dir ++ [(temporaryName m).bytes] = dir ++ [(temporaryName n).bytes] →
      m = n := fun m n h => temporaryName_injective
    (Text.bytes_injective (List.singleton_inj.1 (List.append_cancel_left h)))
  have hfree : ∀ n, w.tree.node? (dir ++ [(temporaryName n).bytes]) = none →
      (w.tree.node? (dir ++ [(temporaryName n).bytes])).isNone = true := by
    intro n hn
    rw [hn]
    rfl
  have hfound := w.tree.free_of_find hroute (by simp) hfree
  exact ⟨_, rfl, Option.isNone_iff_eq_none.1 hfound⟩

section

variable {w : Workspace} (hw : w.Valid)

include hw

/-- When a temporary file is taken away again, nothing is left of it. It may have been written
twice. -/
theorem erase_temporary {temporary : Route} (hfree : w.tree.node? temporary = none) (f g : File) :
    ((w.withFile temporary f).withFile temporary g).tree.erase temporary = w.tree := by
  show ((w.tree.put temporary _).put temporary _).erase temporary = w.tree
  rw [Tree.erase_put, Tree.erase_put, hw.tree.erase_of_none hfree]

variable {r : Route} {f : File} (hf : w.tree.node? r = some (.file f))

include hf

/-- A write by way of a temporary file with a free name changes what the file `r` holds, and nothing
else. The name that is chosen makes no difference. -/
theorem writeBy_ofRoute {temporary : Route} (hnamed : IsNamed temporary)
    (hparent : w.tree.node? temporary.dropLast = some .directory)
    (hfree : w.tree.node? temporary = none) (d : Document) :
    w.writeBy temporary (.ofRoute r) d =
      (.ok (), w.withFile r ⟨.text d.fileText, f.mode⟩) := by
  have hr : r ≠ [] := Tree.ne_nil_of_node? hf (by simp)
  have hnil : temporary ≠ [] := by
    rintro rfl
    cases hfree
  have hne : r ≠ temporary := by
    rintro rfl
    rw [hf] at hfree
    cases hfree
  have hvalid : ∀ g, (w.withFile temporary g).Valid :=
    valid_withFile hw hnil hnamed hparent (by simp [hfree])
  have hkept : ∀ g, (w.withFile temporary g).tree.node? r = some (.file f) := by
    intro g
    rw [node?_withFile hnil, if_neg hne, hf]
  -- with the permission bits of the file
  let made := w.withFile temporary ⟨.text d.fileText, privateMode⟩
  let moded := made.withFile temporary ⟨.text d.fileText, f.mode⟩
  have hmade : made.tree.node? temporary = some (.file ⟨.text d.fileText, privateMode⟩) := by
    rw [node?_withFile hnil, if_pos rfl]
  have hmoded : moded.Valid := valid_withFile_file (hvalid _) hmade _
  have hfile : moded.tree.node? r = some (.file f) := by
    rw [node?_withFile hnil, if_neg hne, hkept]
  have hplace : moded.placeOf (.ofRoute r) = .ok r :=
    placeOf_ofRoute hmoded hr (hmoded.tree.isNamed hfile) (hmoded.tree.node?_dropLast hfile)
  have hmove : moded.tree.node? temporary = some (.file ⟨.text d.fileText, f.mode⟩) := by
    rw [node?_withFile hnil, if_pos rfl]
  have hrename : moded.rename temporary (.ofRoute r) =
      .ok (w.withFile r ⟨.text d.fileText, f.mode⟩) := by
    rw [rename, hplace]
    dsimp only
    rw [hfile, if_neg (by simp), hmove]
    dsimp only
    rw [erase_temporary hw hfree]
    rfl
  rw [writeBy, mode?_ofRoute (hvalid _) (hkept _), Option.getD_some, hrename]

/-- **Writing over a file** by its canonical path changes what the file holds. Its permission bits
stay, and no other entry is touched. -/
theorem write_ofRoute (d : Document) :
    w.write (.ofRoute r) d = (.ok (), w.withFile r ⟨.text d.fileText, f.mode⟩) := by
  have hr : r ≠ [] := Tree.ne_nil_of_node? hf (by simp)
  have hnamed := hw.tree.isNamed hf
  have hparent := hw.tree.node?_dropLast hf
  obtain ⟨n, htemporary, hfree⟩ := w.temporaryRoute_eq r.dropLast
  rw [write, Path.directoryOf_ofRoute hr hnamed, makeDirectories_ofRoute hw hparent]
  dsimp only
  rw [resolve_ofRoute hw hparent (by simp)]
  dsimp only
  rw [if_pos hparent, htemporary]
  refine writeBy_ofRoute hw hf (hnamed.dropLast.concat (isEntryName_temporaryName n)) ?_ hfree d
  rwa [List.dropLast_concat]

end

end Workspace

end Transclude
