import Transclude.Update

/-!
# Updates are all or nothing

An update renders a file, makes a backup and writes the result. Rendering only reads, and a failed
backup leaves nothing behind. After that nothing can fail: the canonical path of the file leads to
it, its directory is there, and the new file takes the place of the old one in one step
(`Workspace.write_ofRoute`). So an update ends in one of three ways (`Update.file_cases`): it fails,
or it finds nothing to change, and in both cases the workspace is what it was; or the file, and a
backup if one was asked for, are all that is different.

Main statements:
- `Render.file_eq_ok`: what a rendered file says about the workspace.
- `Update.file_cases`: the three ways in which an update ends.
- `Update.file_atomic`: the same, entry by entry.
-/

namespace Transclude

/-- Two steps succeed when both do. -/
theorem bind_eq_ok {α β : Type} {x : Except Error α} {f : α → Except Error β} {b : β} :
    (x >>= f) = .ok b ↔ ∃ a, x = .ok a ∧ f a = .ok b := by
  cases x with
  | error e => simp [bind, Except.bind]
  | ok a => simp [bind, Except.bind]

namespace Workspace

/-- What is read from a text file is its text, with the mark at its beginning split off. -/
theorem read_ofRoute {w : Workspace} (hw : w.Valid) {r : Route} {f : File}
    (hf : w.tree.node? r = some (.file f)) {d : Document} (h : w.read (.ofRoute r) = .ok d) :
    ∃ t, f.content = .text t ∧ d = .ofText t := by
  rw [read_of_node? (resolve_ofRoute hw hf (by simp)) hf] at h
  split at h
  · next t ht => exact ⟨t, ht, (Except.ok.inj h).symm⟩
  · cases h

/-- A path that is checked leads to a file, and the canonical path of that file is the result. -/
theorem checkFile_eq_ok {w : Workspace} {p path : Path} {extension : Text}
    (h : w.checkFile p extension = .ok path) :
    w.isFile p = true ∧ ∀ r, w.resolve p = .ok r → path = .ofRoute r := by
  unfold checkFile at h
  dsimp only at h
  split at h
  · cases h
  · next hfile =>
    split at h
    · cases h
    · refine ⟨by simpa using hfile, fun r hr => ?_⟩
      rw [hr] at h
      exact (Except.ok.inj h).symm

end Workspace

/-- The file with the rendered text: behind a byte order mark if the document had one, and with the
permission bits of the old file. -/
def Rendered.written (x : Rendered) (mode : Nat) : File :=
  ⟨.text ({ x.document with text := x.text } : Document).fileText, mode⟩

namespace Render

/-- A file `f` at the route `r` that is rendered by the path `p`, and the steps of the rendering. -/
structure Reads (w : Workspace) (p : Path) (o : RenderOptions) (x : Rendered) (r : Route)
    (f : File) : Prop where
  checked : w.checkFile p o.extension = .ok x.path
  path : x.path = .ofRoute r
  resolve : w.resolve p = .ok r
  entry : w.tree.node? r = some (.file f)
  read : w.read x.path = .ok x.document
  content : ∃ t, f.content = .text t ∧ x.document = .ofText t
  expanded : ∃ t, expand w o (x.path.parent?.getD .dot) x.document.text = .ok t ∧
    fill w o x.path t = .ok x.text

theorem Reads.ne_nil {w : Workspace} {p : Path} {o : RenderOptions} {x : Rendered} {r : Route}
    {f : File} (h : Reads w p o x r f) : r ≠ [] := Tree.ne_nil_of_node? h.entry (by simp)

/-- A file that is rendered was read: there is a route and a file for it, and `Reads` tells how they
hang together. -/
theorem file_eq_ok {w : Workspace} (hw : w.Valid) {p : Path} {o : RenderOptions} {x : Rendered}
    (h : file w p o = .ok x) : ∃ r f, Reads w p o x r f := by
  obtain ⟨path, hcheck, h⟩ := bind_eq_ok.1 h
  obtain ⟨document, hread, h⟩ := bind_eq_ok.1 h
  obtain ⟨t, hexpand, h⟩ := bind_eq_ok.1 h
  obtain ⟨text, hfill, h⟩ := bind_eq_ok.1 h
  obtain rfl : (⟨path, document, text⟩ : Rendered) = x := Except.ok.inj h
  obtain ⟨hfile, hpath⟩ := Workspace.checkFile_eq_ok hcheck
  obtain ⟨r, f, hresolve, hf⟩ := Workspace.resolve_of_isFile hw hfile
  obtain rfl := hpath r hresolve
  exact ⟨r, f, hcheck, rfl, hresolve, hf, hread, Workspace.read_ofRoute hw hf hread, t, hexpand,
    hfill⟩

end Render

namespace Update

/-- The workspace with a copy of the file `f` at the route of its backup, if one is made. -/
def withBackup (w : Workspace) (f : File) : Option Route → Workspace
  | none => w
  | some k => w.withFile k f

/-- Whether the route of a backup of the file at `r` is new. -/
def IsFresh (w : Workspace) (r : Route) (stamp : Text) (kept : Option Route) : Prop :=
  ∀ k ∈ kept, w.tree.node? k = none ∧ ∃ n, k = Workspace.backupRoute r stamp n

section

variable {w : Workspace} (hw : w.Valid) {p : Path} {o : RenderOptions} {x : Rendered} {r : Route}
  {f : File} (hx : Render.Reads w p o x r f) {stamp : Text}

include hw hx

/-- With its backup the workspace is valid, and the file is still there. -/
theorem valid_withBackup (hstamp : '/' ∉ stamp) {kept : Option Route}
    (hfresh : IsFresh w r stamp kept) :
    (withBackup w f kept).Valid ∧ (withBackup w f kept).tree.node? r = some (.file f) := by
  cases kept with
  | none => exact ⟨hw, hx.entry⟩
  | some k =>
    obtain ⟨hn, n, rfl⟩ := hfresh k rfl
    have hroute := Workspace.backupRoute_ne_nil r stamp n
    refine ⟨Workspace.valid_withFile hw hroute
      (Workspace.isNamed_backupRoute hw hx.entry hstamp n) ?_ (by simp [hn]) f, ?_⟩
    · rw [Workspace.dropLast_backupRoute]
      exact hw.tree.node?_dropLast hx.entry
    · have hne : r ≠ Workspace.backupRoute r stamp n := by
        intro heq
        have hentry := hx.entry
        rw [heq, hn] at hentry
        cases hentry
      rw [withBackup, Workspace.node?_withFile hroute, if_neg hne, hx.entry]

/-- Without a backup a change succeeds, and only the file changes. -/
theorem write_without_backup (stamp : Text) :
    write w x false stamp = (.ok ⟨x.path, true, none⟩, w.withFile r (x.written f.mode)) := by
  rw [write]
  simp only [Bool.false_eq_true, if_false, hx.path]
  rw [Workspace.write_ofRoute hw hx.entry]
  rfl

/-- A change fails with its backup, and then everything is as it was, or it succeeds. -/
theorem write_cases (hstamp : '/' ∉ stamp)
    (hlinks : ∀ n, ¬w.IsDangling (Workspace.backupRoute r stamp n)) (backup : Bool) :
    (∃ e, write w x backup stamp = (.error e, w)) ∨
      ∃ kept, kept.isSome = backup ∧ IsFresh w r stamp kept ∧
        write w x backup stamp = (.ok ⟨x.path, true, kept.map Path.ofRoute⟩,
          (withBackup w f kept).withFile r (x.written f.mode)) := by
  cases backup with
  | false => exact .inr ⟨none, rfl, by simp [IsFresh], write_without_backup hw hx stamp⟩
  | true =>
    rw [write]
    simp only [if_true, hx.path]
    rcases Workspace.backUp_ofRoute hw hx.entry hstamp hlinks with
      ⟨n, hn, hbackup⟩ | ⟨fault, hbackup⟩
    · right
      have hfresh : IsFresh w r stamp (some (Workspace.backupRoute r stamp n)) := by
        rintro k ⟨⟩
        exact ⟨hn, n, rfl⟩
      obtain ⟨hvalid, hentry⟩ := valid_withBackup hw hx hstamp hfresh
      refine ⟨_, rfl, hfresh, ?_⟩
      rw [hbackup]
      dsimp only [Except.map]
      have hwrite := Workspace.write_ofRoute hvalid hentry { x.document with text := x.text }
      rw [withBackup, Workspace.withFile] at hwrite
      rw [hwrite]
      rfl
    · left
      rw [hbackup]
      exact ⟨_, rfl⟩

end

/-- **The three ways in which an update ends**, where no link that leads to nothing has the name of
a backup: with an error, with nothing to change, or with the file changed and perhaps a backup of
it. -/
theorem file_cases {w : Workspace} (hw : w.Valid) {p : Path} {o : RenderOptions} {stamp : Text}
    (hstamp : '/' ∉ stamp)
    (hlinks : ∀ r n, w.resolve p = .ok r → ¬w.IsDangling (Workspace.backupRoute r stamp n)) :
    (∃ e, file w p o stamp = (.error e, w)) ∨
      (∃ x r f, Render.file w p o = .ok x ∧ Render.Reads w p o x r f ∧ x.text = x.document.text ∧
        file w p o stamp = (.ok ⟨x.path, false, none⟩, w)) ∨
      ∃ x r f kept, Render.file w p o = .ok x ∧ Render.Reads w p o x r f ∧
        x.text ≠ x.document.text ∧ kept.isSome = o.backup ∧ IsFresh w r stamp kept ∧
        file w p o stamp = (.ok ⟨x.path, true, kept.map Path.ofRoute⟩,
          (withBackup w f kept).withFile r (x.written f.mode)) := by
  rw [file]
  cases hrender : Render.file w p o with
  | error e => exact .inl ⟨e, rfl⟩
  | ok x =>
    obtain ⟨r, f, hx⟩ := Render.file_eq_ok hw hrender
    dsimp only
    by_cases htext : x.text = x.document.text
    · rw [if_pos htext]
      exact .inr (.inl ⟨x, r, f, rfl, hx, htext, rfl⟩)
    · rw [if_neg htext]
      rcases write_cases hw hx hstamp (fun n => hlinks r n hx.resolve) o.backup with
        hwrite | ⟨kept, hkept, hfresh, hwrite⟩
      · exact .inl hwrite
      · exact .inr (.inr ⟨x, r, f, kept, rfl, hx, htext, hkept, hfresh, hwrite⟩)

/-- What an update leaves that changes the file `f` at the route `r` to `x`. The entry at `kept` is
the backup, if one was made. -/
structure Leaves (w : Workspace) (x : Rendered) (r : Route) (f : File) (stamp : Text)
    (kept : Option Route) (w' : Workspace) : Prop where
  cwd : w'.cwd = w.cwd
  /-- The file holds the rendered text, behind a byte order mark if it had one, and keeps its
  permission bits. The backup holds what the file held. Every other entry is what it was. -/
  entries : ∀ q, w'.tree.node? q =
    if q = r then
      some (.file ⟨.text ((if x.document.bom then [Document.mark] else []) ++ x.text), f.mode⟩)
    else if kept = some q then some (.file f)
    else w.tree.node? q
  /-- The backup is new, and next to the file. -/
  fresh : ∀ k ∈ kept, w.tree.node? k = none ∧ k.dropLast = r.dropLast

/-- What a change leaves (`Leaves`), by what it wrote: the file, its backup, and everything else as
it was. -/
theorem leaves_withFile {w : Workspace} {x : Rendered} {r : Route} (hr : r ≠ []) {f : File}
    {stamp : Text} {kept : Option Route} (hfresh : IsFresh w r stamp kept) :
    Leaves w x r f stamp kept ((withBackup w f kept).withFile r (x.written f.mode)) where
  cwd := by cases kept <;> rfl
  entries q := by
    have hwritten : x.written f.mode =
        ⟨.text ((if x.document.bom then [Document.mark] else []) ++ x.text), f.mode⟩ := by
      cases hbom : x.document.bom <;> simp [Rendered.written, Document.fileText, hbom]
    rw [Workspace.node?_withFile hr, hwritten]
    cases kept with
    | none => simp [withBackup]
    | some k =>
      obtain ⟨-, n, rfl⟩ := hfresh k rfl
      rw [withBackup, Workspace.node?_withFile (Workspace.backupRoute_ne_nil r stamp n)]
      by_cases hq : q = Workspace.backupRoute r stamp n
      · rw [if_pos hq, if_pos (congrArg some hq.symm)]
      · rw [if_neg hq, if_neg fun h => hq (Option.some.inj h).symm]
  fresh k hk := by
    obtain ⟨hn, n, rfl⟩ := hfresh k hk
    exact ⟨hn, Workspace.dropLast_backupRoute r stamp n⟩

/-- What an update leaves. An error and a file that stays as it was leave the workspace as it was.
Otherwise the file that the path leads to holds the rendered text, and a backup was added if and
only if one was asked for. -/
structure AllOrNothing (w : Workspace) (p : Path) (o : RenderOptions) (stamp : Text) : Prop where
  of_error : ∀ e w', file w p o stamp = (.error e, w') → w' = w
  of_unchanged : ∀ report w', file w p o stamp = (.ok report, w') → report.changed = false →
    w' = w ∧ report.backup = none
  of_changed : ∀ report w', file w p o stamp = (.ok report, w') → report.changed = true →
    ∃ x r f kept, Render.file w p o = .ok x ∧ w.resolve p = .ok r ∧
      w.tree.node? r = some (.file f) ∧ (∃ t, f.content = .text t ∧ x.document = .ofText t) ∧
      report.path = .ofRoute r ∧ report.backup = kept.map Path.ofRoute ∧
      kept.isSome = o.backup ∧ Leaves w x r f stamp kept w'

/-- **An update is all or nothing** (`AllOrNothing`), where no link that leads to nothing has the
name of a backup. A write through such a link would make the file that the link leads to. -/
theorem file_atomic {w : Workspace} (hw : w.Valid) {p : Path} {o : RenderOptions} {stamp : Text}
    (hstamp : '/' ∉ stamp)
    (hlinks : ∀ r n, w.resolve p = .ok r → ¬w.IsDangling (Workspace.backupRoute r stamp n)) :
    AllOrNothing w p o stamp := by
  constructor <;> intro answer w' h <;>
    rcases file_cases hw hstamp hlinks (o := o) with ⟨e, hfile⟩ | ⟨x, r, f, -, hx, -, hfile⟩ |
      ⟨x, r, f, kept, hrender, hx, -, hkept, hfresh, hfile⟩ <;>
    rw [hfile] at h <;> cases h
  case of_error.inl => rfl
  case of_unchanged.inr.inl => exact fun _ => ⟨rfl, rfl⟩
  case of_unchanged.inr.inr => exact (nomatch ·)
  case of_changed.inr.inl => exact (nomatch ·)
  case of_changed.inr.inr =>
    exact fun _ => ⟨x, r, f, kept, hrender, hx.resolve, hx.entry, hx.content, hx.path, rfl, hkept,
      leaves_withFile hx.ne_nil hfresh⟩

/-- A document with a byte order mark, and a link to it from another directory. -/
def linkedDocument : Workspace where
  tree := ⟨[([.ofString "doc"], .directory),
    ([.ofString "doc", .ofString "d.md"], .file
      ⟨.text "\uFEFF<!-- var(v)=\"2\" --><!-- begin-var(v) -->1<!-- end-var -->".toList, 0o644⟩),
    ([.ofString "sub"], .directory),
    ([.ofString "sub", .ofString "l.md"], .link (.ofString "../doc/d.md"))]⟩
  cwd := []

/-- With a backup. -/
def linkedDocument.options : RenderOptions :=
  { RenderOptions.default with backup := true }

/-- The path of the link. -/
def linkedDocument.path : Path :=
  .ofString "sub/l.md"

theorem linkedDocument.resolve_path {r : Route} (h : linkedDocument.resolve path = .ok r) :
    r = [.ofString "doc", .ofString "d.md"] := by
  have hroute : (linkedDocument.resolve path).toOption =
      some [.ofString "doc", .ofString "d.md"] := by decide +kernel
  rw [h] at hroute
  exact Option.some.inj hroute

theorem linkedDocument.not_isDangling {k : Route} (hk : k.dropLast = [.ofString "doc"]) :
    ¬linkedDocument.IsDangling k := by
  rintro ⟨⟨target, hlink⟩, -⟩
  have hlinks : ∀ e ∈ linkedDocument.tree.nodes, e.2 = .link target →
      e.1.dropLast = [.ofString "sub"] := by
    simp [linkedDocument]
  have hne : k ≠ [] := by
    rintro rfl
    cases hk
  have hsub := hlinks _ (Tree.mem_of_node? hne hlink) rfl
  exact absurd (hk.symm.trans hsub) (by decide)

/-- The update of `linkedDocument` by the path of its link writes the document, and leaves the
link. -/
theorem file_atomic_linkedDocument :
    linkedDocument.Valid ∧ '/' ∉ TimeStamp.ofSeconds 0 ∧
      (∀ r n, linkedDocument.resolve linkedDocument.path = .ok r →
        ¬linkedDocument.IsDangling (Workspace.backupRoute r (TimeStamp.ofSeconds 0) n)) ∧
      (file linkedDocument linkedDocument.path linkedDocument.options
        (TimeStamp.ofSeconds 0)).1.toOption =
          some ⟨.ofString "/doc/d.md", true, some (.ofString "/doc/d.19700101-000000.bak.md")⟩ ∧
      AllOrNothing linkedDocument linkedDocument.path linkedDocument.options
        (TimeStamp.ofSeconds 0) := by
  have hw : linkedDocument.Valid := by decide +kernel
  have hstamp : '/' ∉ TimeStamp.ofSeconds 0 := by decide +kernel
  have hlinks : ∀ r n, linkedDocument.resolve linkedDocument.path = .ok r →
      ¬linkedDocument.IsDangling (Workspace.backupRoute r (TimeStamp.ofSeconds 0) n) := by
    intro r n hr
    obtain rfl := linkedDocument.resolve_path hr
    exact linkedDocument.not_isDangling (Workspace.dropLast_backupRoute _ _ n)
  exact ⟨hw, hstamp, hlinks, by decide +kernel, file_atomic hw hstamp hlinks⟩

end Update

end Transclude
