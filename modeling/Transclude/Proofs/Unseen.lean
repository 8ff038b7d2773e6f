import Transclude.Proofs.Additions
import Transclude.Proofs.Reruns

/-!
# What a backup changes

A file is updated with a backup or without one. The two workspaces that this leads to differ in the
backup alone, which is a file more (`Update.write_adds`). So whatever comes later is the same in
both of them, as long as it does not come across the backup. A scan can do so, and an include
marker.

Scans do find backups, because a backup keeps the extension of its file, unless the extension has
several parts or the exclude rules leave backups out. Then what the old text declares is there twice
(`Update.file_backup_seen`). A backup in which there is nothing to find does no harm.

Main statements:
- `Update.file_of_adds`: updates go on side by side in two workspaces that differ in a backup.
- `Update.file_backup_unseen`: scans and updates are the same with a backup as without one.
-/

namespace Transclude

namespace Lookup

/-- Where less is accepted the same is found, if what is found is accepted. -/
theorem find_congr {accept accept' : Path → Bool} {name : Text} {starts relatives : List Path}
    {maxUp : Nat} (haccept : ∀ p, accept p = true → accept' p = true)
    (hfind : ∀ p, find accept' name starts relatives maxUp = .ok p → accept p = true) :
    find accept' name starts relatives maxUp = find accept name starts relatives maxUp := by
  have hfirst : ∀ l : List Path, (∀ p, l.find? accept' = some p → accept p = true) →
      l.find? accept' = l.find? accept := by
    intro l hl
    induction l with
    | nil => rfl
    | cons p l ih =>
      rw [List.find?_cons, List.find?_cons]
      cases hp : accept' p with
      | true =>
        rw [hl p (by rw [List.find?_cons, hp])]
      | false =>
        rw [Bool.eq_false_iff.2 fun h => Bool.false_ne_true (hp.symm.trans (haccept p h))]
        refine ih fun q hq => hl q ?_
        rw [List.find?_cons, hp]
        exact hq
  rw [find] at hfind ⊢
  rw [find]
  split
  · rfl
  next hblank =>
  rw [if_neg hblank] at hfind
  cases hrooted : relatives.find? Path.isRooted with
  | some p => rfl
  | none =>
    rw [hrooted] at hfind
    dsimp only at hfind ⊢
    rw [hfirst _ fun p hp => hfind p (by rw [hp])]

theorem accept_of_find {accept : Path → Bool} {name : Text} {starts relatives : List Path}
    {maxUp : Nat} {p : Path} (h : find accept name starts relatives maxUp = .ok p) :
    accept p = true := by
  rw [find] at h
  split at h
  · cases h
  split at h
  · cases h
  dsimp only at h
  split at h
  · next hp =>
    obtain rfl := Except.ok.inj h
    exact List.find?_some hp
  · cases h

/-- Whether the file that is included by a name is the one that a path leads to. -/
def Meets (w : Workspace) (b : Path) (name : Text) (folders : List Path) (includeCwd : Bool) :
    Prop :=
  checkIncludeName name = .ok () ∧
    ∃ p, find w.isFile name (folders ++ if includeCwd then [w.currentPath] else []) [] 0 = .ok p ∧
      w.resolve p = w.resolve b

/-- An included file is found as before, if it is not the new one. -/
theorem includedText_withNew {w : Workspace} {dir : Route} {name : Bytes} (h : w.Vacant dir name)
    (f : File) {b : Path} (hb : (w.withFile (dir ++ [name]) f).resolve b = .ok (dir ++ [name]))
    {n : Text} {folders : List Path} {includeCwd : Bool}
    (hn : ¬Meets (w.withFile (dir ++ [name]) f) b n folders includeCwd) :
    includedText (w.withFile (dir ++ [name]) f) n folders includeCwd =
      includedText w n folders includeCwd := by
  rw [includedText, includedText]
  cases hcheck : checkIncludeName n with
  | error e => rfl
  | ok _ =>
    have hfind : find (w.withFile (dir ++ [name]) f).isFile n
        (folders ++ if includeCwd then [w.currentPath] else []) [] 0 =
          find w.isFile n (folders ++ if includeCwd then [w.currentPath] else []) [] 0 := by
      refine find_congr (fun p hp => ?_) fun p hp => ?_
      · obtain ⟨r, g, hr, -⟩ := Workspace.resolve_of_isFile h.valid hp
        rw [Workspace.isFile_withNew h.new f, hp]
        rw [Workspace.resolve_withNew_of_ok h.new f hr, ← hr]
        exact Workspace.resolve_ne_new h.new p
      · rw [← Workspace.isFile_withNew h.new f fun hr => hn ⟨hcheck, p, hp, hr.trans hb.symm⟩]
        exact accept_of_find hp
    show (find _ n (folders ++ if includeCwd then [w.currentPath] else []) [] 0).bind _ =
      (find _ n (folders ++ if includeCwd then [w.currentPath] else []) [] 0).bind _
    rw [hfind]
    cases hp : find w.isFile n (folders ++ if includeCwd then [w.currentPath] else []) [] 0 with
    | error e => rfl
    | ok p =>
      obtain ⟨r, g, hr, -⟩ := Workspace.resolve_of_isFile h.valid (accept_of_find hp)
      have hread := Workspace.read_withNew h.new f
        ((Workspace.resolve_withNew_of_ok h.new f hr).trans hr.symm)
      show (Workspace.read _ p).bind _ = (Workspace.read w p).bind _
      rw [hread]

end Lookup

/-- Expanding depends on the content of the files that are included, and on no other. -/
theorem Include.expand_congr {t : Text} {content content' : Text → Except Error Text}
    (h : ∀ p ∈ Piece.ofText t, ∀ n, p.directive? = some (.includeFile n) → content' n = content n)
    (shown : Text → Text) (strict : Bool) :
    expand t content' shown strict = expand t content shown strict := by
  have hpieces : ∀ ps : List Piece,
      (∀ p ∈ ps, ∀ n, p.directive? = some (.includeFile n) → content' n = content n) →
        expandPieces content' shown strict ps = expandPieces content shown strict ps := by
    intro ps hps
    induction ps with
    | nil => rfl
    | cons p ps ih =>
      rw [expandPieces, expandPieces, ih fun q hq => hps q (List.mem_cons_of_mem _ hq)]
      split
      · next n hn => rw [hps p List.mem_cons_self n hn]
      · rfl
  exact hpieces _ h

/-- Whether a text includes the file that a path leads to, as the text of the document at `path`. -/
def Render.Includes (w : Workspace) (o : RenderOptions) (path : Path) (t : Text) (b : Path) :
    Prop :=
  ∃ p ∈ Piece.ofText t, ∃ n, p.directive? = some (.includeFile n) ∧
    Lookup.Meets w b n (folders o (path.parent?.getD .dot)) o.includeCwd

/-! ## Two workspaces that differ in a backup -/

/-- Where an entry is, writing it again leaves the others where they are. -/
theorem Tree.putNode_append {r : Route} {n : Node} {l : List (Route × Node)}
    (h : r ∈ l.map Prod.fst) (l' : List (Route × Node)) :
    putNode r n (l ++ l') = putNode r n l ++ l' := by
  induction l with
  | nil => cases h
  | cons e l ih =>
    obtain ⟨q, m⟩ := e
    rw [List.cons_append, putNode, putNode]
    split
    · rfl
    · next hne =>
      rw [ih ((List.mem_cons.1 h).resolve_left fun heq => hne heq.symm), List.cons_append]

namespace Workspace

/-- A backup is a new file under a vacant name, with what the file holds. -/
theorem backUp_vacant {w : Workspace} (hw : w.Valid) {r : Route} {f : File}
    (hf : w.tree.node? r = some (.file f)) {stamp : Text} (hstamp : '/' ∉ stamp) {b : Path}
    {w' : Workspace} (h : w.backUp (.ofRoute r) stamp = .ok (b, w')) :
    ∃ dir name, w.Vacant dir name ∧ w.target b = .ok (dir ++ [name]) ∧
      w' = w.withFile (dir ++ [name]) f := by
  obtain ⟨n, hpath, hfree⟩ := backupPath_ofRoute hw hf hstamp
  rw [backUp, node?_ofRoute hw hf (by simp)] at h
  dsimp only at h
  rw [hpath, putFile] at h
  cases htarget : w.target (.ofRoute (backupRoute r stamp n)) with
  | error fault =>
    rw [htarget] at h
    cases h
  | ok k =>
    have htext := Path.bytes_ofRoute_ne_nil (backupRoute r stamp n)
    have hreach := htarget
    rw [target, if_neg htext] at hreach
    have hnew : w.tree.node? k = none := by
      rw [isEntry, node?, resolve, if_neg htext, Tree.follow, hreach] at hfree
      cases hk : w.tree.node? k with
      | none => rfl
      | some node => simp [hk] at hfree
    rw [htarget] at h
    dsimp only at h
    rw [hnew, if_neg (by simp)] at h
    cases h
    rcases Tree.reachable_of_reach hw.tree (Path.areNamed_steps _) (node?_startOf hw _) hreach with
      hn | ⟨g, hn⟩ | ⟨-, hnamed, hparent⟩
    · rw [hnew] at hn
      cases hn
    · rw [hnew] at hn
      cases hn
    · have hk : k ≠ [] := by
        rintro rfl
        cases hnew
      obtain ⟨name, hlast, heq⟩ := Path.exists_concat hk
      exact ⟨k.dropLast, name, ⟨hw, heq ▸ hnew, hparent, hnamed.getLast hlast⟩, heq ▸ htarget,
        heq ▸ rfl⟩

section

variable {w : Workspace} {r dir : Route} {name : Bytes} {f : File}
  (hf : w.tree.node? r = some (.file f)) (hvacant : w.Vacant dir name) (g : File)

include hf

/-- Writing a file over the file at `r` changes no other entry. -/
theorem node?_withFile_of_ne {q : Route} {n : Option Node} (hq : w.tree.node? q = n)
    (hn : n ≠ some (.file f)) : (w.withFile r g).tree.node? q = n := by
  rw [node?_withFile (Tree.ne_nil_of_node? hf (by simp)), if_neg, hq]
  rintro rfl
  exact hn (hq.symm.trans hf)

include hvacant

/-- The place for a new file is there also after another one is written. -/
theorem Vacant.withFile : (w.withFile r g).Vacant dir name where
  valid := valid_withFile_file hvacant.valid hf g
  new := node?_withFile_of_ne hf g hvacant.new (by simp)
  directory := node?_withFile_of_ne hf g hvacant.directory (by simp)
  isEntryName := hvacant.isEntryName

/-- A new file can be added before another one is written, or afterwards. -/
theorem withFile_comm (f' : File) :
    (w.withFile (dir ++ [name]) f').withFile r g =
      (w.withFile r g).withFile (dir ++ [name]) f' := by
  have hr : r ∈ w.tree.routes :=
    (Tree.mem_routes_iff (Tree.ne_nil_of_node? hf (by simp))).2 (by simp [hf])
  have hnew : (w.tree.put r (.file g)).node? (dir ++ [name]) = none :=
    (hvacant.withFile hf g).new
  have htree : (w.tree.put (dir ++ [name]) (.file f')).put r (.file g) =
      (w.tree.put r (.file g)).put (dir ++ [name]) (.file f') := by
    rw [Tree.put_new hvacant.new, Tree.put_new hnew, Tree.put, Tree.putNode_append hr]
    rfl
  exact congrArg (fun t => { w with tree := t }) htree

theorem node?_withNew (f' : File) :
    (w.withFile (dir ++ [name]) f').tree.node? r = some (.file f) := by
  rw [node?_withFile (by simp), if_neg, hf]
  rintro rfl
  rw [hvacant.new] at hf
  cases hf

end

end Workspace

/-- Another text in a file does not change what a scan finds, so all of it is still there. -/
theorem Scan.Whole.withFile {w : Workspace} {file : Path} {up : Nat} {down : Depth}
    {options : ScanOptions} (h : Whole w file up down options) {r : Route} {f : File}
    (hf : w.tree.node? r = some (.file f)) (g : File) :
    Whole (w.withFile r g) file up down options := by
  intro ps hps q hq
  rw [Workspace.resolve_withFile hf]
  exact h ps ((Workspace.files_withFile hf g _ _ _).symm.trans hps) q hq

namespace Render

/-- Whether rendering the document at `path` does not come across what the path `b` leads to: no
include marker finds it, and if a scan finds it, there is nothing to find in its text `t`. -/
structure Avoids (w : Workspace) (o : RenderOptions) (path b : Path) (t : Text) : Prop where
  includes : ∀ d, w.read path = .ok d → ¬Includes w o path d.text b
  scan : Scan.Meets w b path o.depthUp o.depthDown o.scan →
    Variables.declared (Piece.scanned t) = [] ∧ References.held none (Piece.scanned t) = some []

/-- **A file renders as before** when there is a file more, if it does not come across that one. -/
theorem file_of_adds {w w' : Workspace} {b : Path} {t : Text} (h : w.Adds w' b t) {p : Path}
    {o : RenderOptions} {r : Route} {f : File} (hp : w.resolve p = .ok r)
    (hr : w.tree.node? r = some (.file f))
    (hwhole : Scan.Whole w (.ofRoute r) o.depthUp o.depthDown o.scan)
    (havoids : Avoids w' o (.ofRoute r) b (Document.ofText t).text) : file w' p o = file w p o := by
  have hfill (u : Text) : fill w' o (.ofRoute r) u = fill w o (.ofRoute r) u := by
    rw [fill, fill, Scan.varsAround_of_adds h hwhole fun hmeets => (havoids.scan hmeets).1,
      Scan.refsAround_of_adds h hwhole fun hmeets => (havoids.scan hmeets).2]
  obtain ⟨dir, name, mode, hvacant, rfl, hb⟩ := h
  have hcanonical : w.resolve (.ofRoute r) = .ok r :=
    Workspace.resolve_ofRoute hvacant.valid hr (by simp)
  have hread := Workspace.read_withNew hvacant.new ⟨.text t, mode⟩
    ((Workspace.resolve_withNew_of_ok hvacant.new _ hcanonical).trans hcanonical.symm)
  rw [file, file, Workspace.checkFile_withNew hvacant.new _ hp]
  cases hcheck : w.checkFile p o.extension with
  | error e => rfl
  | ok path =>
    obtain rfl := (Workspace.checkFile_eq_ok hcheck).2 r hp
    show (Workspace.read _ (.ofRoute r)).bind _ = (Workspace.read w (.ofRoute r)).bind _
    rw [hread]
    cases hd : w.read (.ofRoute r) with
    | error e => rfl
    | ok d =>
      have hexpand : expand (w.withFile (dir ++ [name]) ⟨.text t, mode⟩) o
          ((Path.ofRoute r).parent?.getD .dot) d.text =
            expand w o ((Path.ofRoute r).parent?.getD .dot) d.text :=
        Include.expand_congr (fun q hq n hn => Lookup.includedText_withNew hvacant _ hb
          fun hmeets => havoids.includes d (hread.trans hd) ⟨q, hq, n, hn, hmeets⟩) _ _
      show (expand _ o _ d.text).bind (fun u => (fill _ o (.ofRoute r) u).bind _) =
        (expand w o _ d.text).bind (fun u => (fill w o (.ofRoute r) u).bind _)
      rw [hexpand]
      simp only [hfill]

end Render

namespace Update

/-- **Updates go on side by side** in two workspaces of which one has a file more: they answer the
same, and then it is a file more again. -/
theorem file_of_adds {w w' : Workspace} {b : Path} {t : Text} (h : w.Adds w' b t) {p : Path}
    {o : RenderOptions} {r : Route} {f : File} (hp : w.resolve p = .ok r)
    (hr : w.tree.node? r = some (.file f))
    (hwhole : Scan.Whole w (.ofRoute r) o.depthUp o.depthDown o.scan)
    (havoids : Render.Avoids w' o (.ofRoute r) b (Document.ofText t).text)
    (hbackup : o.backup = false) (stamp stamp' : Text) :
    (file w' p o stamp').1 = (file w p o stamp).1 ∧
      (file w p o stamp).2.Adds (file w' p o stamp').2 b t := by
  have hsame := Render.file_of_adds h hp hr hwhole havoids
  rw [file, file, hsame]
  cases hrender : Render.file w p o with
  | error e => exact ⟨rfl, h⟩
  | ok x =>
    dsimp only
    split
    · exact ⟨rfl, h⟩
    · obtain ⟨dir, name, mode, hvacant, rfl, hb⟩ := h
      obtain ⟨q, g, hx⟩ := Render.file_eq_ok hvacant.valid hrender
      obtain ⟨q', g', hx'⟩ :=
        Render.file_eq_ok (hvacant.valid_withFile ⟨.text t, mode⟩) (hsame.trans hrender)
      have hq : q = q' := Except.ok.inj
        ((Workspace.resolve_withNew_of_ok hvacant.new _ hx.resolve).symm.trans hx'.resolve)
      subst hq
      have hg : g = g' := by
        have hentry := hx'.entry
        rw [Workspace.node?_withNew hx.entry hvacant] at hentry
        cases hentry
        rfl
      subst hg
      rw [hbackup, write_without_backup hvacant.valid hx,
        write_without_backup (hvacant.valid_withFile ⟨.text t, mode⟩) hx']
      refine ⟨rfl, dir, name, mode, hvacant.withFile hx.entry _,
        Workspace.withFile_comm hx.entry hvacant _ _, ?_⟩
      rw [Workspace.resolve_withFile (Workspace.node?_withNew hx.entry hvacant _), hb]

/-- Without a backup no time stamp is asked for. -/
theorem file_without_backup (w : Workspace) (p : Path) {o : RenderOptions} (h : o.backup = false)
    (stamp stamp' : Text) : file w p o stamp = file w p o stamp' := by
  rw [file, file, h]
  rfl

/-- An update without a backup succeeds if the file is rendered. -/
theorem exists_file_without_backup {w : Workspace} (hw : w.Valid) {p : Path} {o : RenderOptions}
    (h : o.backup = false) {x : Rendered} (hrender : Render.file w p o = .ok x) (stamp : Text) :
    ∃ report, (file w p o stamp).1 = .ok report := by
  rw [file, hrender]
  dsimp only
  split
  · exact ⟨_, rfl⟩
  · obtain ⟨r, f, hx⟩ := Render.file_eq_ok hw hrender
    rw [h, write_without_backup hw hx]
    exact ⟨_, rfl⟩

section

variable {w : Workspace} (hw : w.Valid) {p : Path} {o : RenderOptions} {x : Rendered} {r : Route}
  {f : File} (hx : Render.Reads w p o x r f)

include hx

/-- The paths that the scans of a rendered file find lead to something. -/
theorem whole_of_reads : Scan.Whole w x.path o.depthUp o.depthDown o.scan := by
  obtain ⟨t, -, hfill⟩ := hx.expanded
  obtain ⟨vars, -, -, hvars, -⟩ := Render.fill_eq_ok_iff.1 hfill
  exact Scan.whole_of_varsAround hvars

include hw

/-- **With a backup and without one**, a change writes the same text, and the backup is a file more,
with the old text `t`. -/
theorem write_adds {stamp : Text} (hstamp : '/' ∉ stamp) {report : UpdateReport} {w' : Workspace}
    (h : write w x true stamp = (.ok report, w')) :
    report.path = x.path ∧ ∃ b t, report.backup = some b ∧ x.document = .ofText t ∧
      (w.withFile r (x.written f.mode)).Adds w' b t := by
  obtain ⟨t, ht, hdocument⟩ := hx.content
  rw [write, hx.path] at h
  simp only [if_true] at h
  cases hbackup : w.backUp (.ofRoute r) stamp with
  | error e =>
    rw [hbackup] at h
    cases h
  | ok saved =>
    obtain ⟨b, w₁⟩ := saved
    obtain ⟨dir, name, hvacant, htarget, rfl⟩ :=
      Workspace.backUp_vacant hw hx.entry hstamp hbackup
    have hentry := Workspace.node?_withNew hx.entry hvacant f
    rw [hbackup] at h
    dsimp only [Except.map] at h
    rw [Workspace.write_ofRoute (hvacant.valid_withFile f) hentry] at h
    cases h
    refine ⟨hx.path.symm, b, t, rfl, hdocument, dir, name, f.mode, hvacant.withFile hx.entry _,
      ?_, ?_⟩
    · rw [Workspace.withFile_comm hx.entry hvacant, ← ht]
      rfl
    · rw [Workspace.resolve_withFile hentry]
      exact Workspace.resolve_of_target hvacant.new f htarget

end

/-- **With a backup and without one**, an update of a file leads to the same workspace, or to two of
which one has the backup more, with the old text. -/
theorem file_adds {w A B : Workspace} (hw : w.Valid) {p : Path} {o : RenderOptions}
    {stamp stamp' : Text} (hstamp : '/' ∉ stamp) {report report' : UpdateReport}
    (hA : file w p { o with backup := false } stamp' = (.ok report', A))
    (hB : file w p { o with backup := true } stamp = (.ok report, B)) :
    ∃ r f d, report.path = .ofRoute r ∧ A.resolve p = .ok r ∧ A.tree.node? r = some (.file f) ∧
      w.read report.path = .ok d ∧ Scan.Whole A report.path o.depthUp o.depthDown o.scan ∧
      (report.backup = none ∧ B = A ∨
        ∃ b t, report.backup = some b ∧ d = .ofText t ∧ A.Adds B b t) := by
  cases hrender : Render.file w p o with
  | error e =>
    have hrenderB : Render.file w p { o with backup := true } = .error e := hrender
    rw [file, hrenderB] at hB
    cases hB
  | ok x =>
    obtain ⟨r, f, hx⟩ := Render.file_eq_ok hw hrender
    have hrenderA : Render.file w p { o with backup := false } = .ok x := hrender
    have hrenderB : Render.file w p { o with backup := true } = .ok x := hrender
    rw [file, hrenderA] at hA
    rw [file, hrenderB] at hB
    dsimp only at hA hB
    by_cases hsame : x.text = x.document.text
    · rw [if_pos hsame] at hA hB
      cases hA
      cases hB
      exact ⟨r, f, x.document, hx.path, hx.resolve, hx.entry, hx.read, whole_of_reads hx,
        .inl ⟨rfl, rfl⟩⟩
    · rw [if_neg hsame] at hA hB
      rw [write_without_backup hw hx stamp'] at hA
      cases hA
      obtain ⟨hpath, b, t, hb, hdocument, hadds⟩ := write_adds hw hx hstamp hB
      rw [hpath]
      exact ⟨r, x.written f.mode, x.document, hx.path,
        (Workspace.resolve_withFile hx.entry _ p).trans hx.resolve,
        (Workspace.node?_withFile hx.ne_nil w _ r).trans (if_pos rfl), hx.read,
        (whole_of_reads hx).withFile hx.entry _, .inr ⟨b, t, hb, hdocument, hadds⟩⟩

/-- **What is the same with a backup as without one.** A scan collects the same, if it does not find
the backup or if the old text has nothing for it. Every path that the scan finds has to lead to
something, which is so for the scans of the file itself. The next update answers the same, if it
does not come across the backup. -/
theorem file_backup_unseen {w A B : Workspace} (hw : w.Valid) {p : Path} {o : RenderOptions}
    {stamp stamp' : Text} (hstamp : '/' ∉ stamp) {report report' : UpdateReport}
    (hA : file w p { o with backup := false } stamp' = (.ok report', A))
    (hB : file w p { o with backup := true } stamp = (.ok report, B)) :
    ∃ d, w.read report.path = .ok d ∧ Scan.Whole A report.path o.depthUp o.depthDown o.scan ∧
      (∀ path up down s, Scan.Whole A path up down s →
        (∀ b ∈ report.backup, Scan.Meets B b path up down s →
          Variables.declared (Piece.scanned d.text) = []) →
        Scan.varsAround B path up down s = Scan.varsAround A path up down s) ∧
      (∀ path up down s, Scan.Whole A path up down s →
        (∀ b ∈ report.backup, Scan.Meets B b path up down s →
          References.held none (Piece.scanned d.text) = some []) →
        Scan.refsAround B path up down s = Scan.refsAround A path up down s) ∧
      ((∀ b ∈ report.backup, Render.Avoids B o report.path b d.text) → ∀ next next',
        (file B p { o with backup := false } next').1 =
          (file A p { o with backup := false } next).1) := by
  obtain ⟨r, f, d, hpath, hresolve, hentry, hread, hwhole, hadds⟩ := file_adds hw hstamp hA hB
  refine ⟨d, hread, hwhole, ?_⟩
  rcases hadds with ⟨-, rfl⟩ | ⟨b, t, hb, rfl, hadds⟩
  · refine ⟨fun _ _ _ _ _ _ => rfl, fun _ _ _ _ _ _ => rfl, fun _ next next' => ?_⟩
    rw [file_without_backup B p rfl next' next]
  · rw [hb]
    refine ⟨fun path up down s hs hempty => Scan.varsAround_of_adds hadds hs (hempty b rfl),
      fun path up down s hs hempty => Scan.refsAround_of_adds hadds hs (hempty b rfl),
      fun havoids next next' => ?_⟩
    rw [hpath] at hwhole havoids
    exact (file_of_adds (o := { o with backup := false }) hadds hresolve hentry hwhole
      ⟨(havoids b rfl).includes, (havoids b rfl).scan⟩ rfl next next').1

/-! ## A lone document -/

namespace lone

/-- The document with the text `t'` after an update, and the backup with its old text `t`. -/
def backedUp (t t' : Text) : Workspace :=
  ⟨⟨[([.ofString "d.md"], .file ⟨.text t', 0o644⟩),
    ([.ofString "d.s.bak.md"], .file ⟨.text t, 0o644⟩)]⟩, []⟩

/-- What a scan finds beside the backup: those of the document and the backup that the rules and the
extension let through. -/
theorem files_backedUp (t t' : Text) {depth : Depth} {options : ScanOptions} {rules : ExcludeRules}
    (hextension : options.extension ≠ [])
    (hrules : (ExcludeRules.ofLines (.ofString "/") options.exclude).toOption = some rules) :
    Scan.files (backedUp t t') (.ofString "/") depth options =
      .ok ([.ofString "/d.md", .ofString "/d.s.bak.md"].filter fun p =>
        !rules.excludes p false && options.matchesFile p) := by
  have hnames : (backedUp t t').tree.names [] = [.ofString "d.md", .ofString "d.s.bak.md"] :=
    Tree.names_eq (.of_eq rfl) (by decide)
  refine Scan.files_of_flat (r := []) hextension rfl rfl (Fill.eq_ok_of_toOption hrules) hnames ?_
  intro n hn
  rcases List.mem_cons.1 hn with rfl | hn
  · rfl
  · rw [List.mem_singleton.1 hn]
    rfl

/-- Without rules the document is found, and the backup with it. -/
theorem files_both (t t' : Text) (depth : Depth) :
    Scan.files (backedUp t t') (.ofString "/") depth RenderOptions.default.scan =
      .ok [.ofString "/d.md", .ofString "/d.s.bak.md"] := by
  have hrules : (ExcludeRules.ofLines (.ofString "/") RenderOptions.default.scan.exclude).toOption =
      some ⟨[Path.slash], []⟩ := by
    decide +kernel
  rw [files_backedUp t t' (by decide) hrules]
  exact congrArg Except.ok (by decide +kernel)

/-- The options with which scans leave backups out. -/
def leavingOut : RenderOptions := { RenderOptions.default with exclude := ["*.bak.md".toList] }

/-- With the rules of `leavingOut` the document is found alone. -/
theorem files_one (t t' : Text) (depth : Depth) :
    Scan.files (backedUp t t') (.ofString "/") depth leavingOut.scan = .ok [.ofString "/d.md"] := by
  obtain ⟨rules, hrules, hfiles⟩ : ∃ rules,
      (ExcludeRules.ofLines (.ofString "/") leavingOut.scan.exclude).toOption = some rules ∧
        ([.ofString "/d.md", .ofString "/d.s.bak.md"].filter fun p =>
          !rules.excludes p false && leavingOut.scan.matchesFile p) = [.ofString "/d.md"] :=
    ⟨(ExcludeRules.ofLines (.ofString "/") leavingOut.scan.exclude).toOption.getD ⟨[], []⟩,
      by decide +kernel, by decide +kernel⟩
  rw [files_backedUp t t' (by decide) hrules, hfiles]

/-- What the scans of the document collect with the options `o`. -/
def scannedVars (w : Workspace) (o : RenderOptions) : Except Error Bindings :=
  Scan.varsAround w (.ofString "/d.md") o.depthUp o.depthDown o.scan

def scannedRefs (w : Workspace) (o : RenderOptions) : Except Error Bindings :=
  Scan.refsAround w (.ofString "/d.md") o.depthUp o.depthDown o.scan

/-- What the next update answers. -/
def next (w : Workspace) (o : RenderOptions) : Except Error UpdateReport :=
  (file w path { o with backup := false } []).1

/-- Both updates of a document. -/
structure Updates (t t' : Text) (o : RenderOptions) : Prop where
  without : file (lone t) path { o with backup := false } ['s'] =
    (.ok ⟨.ofString "/d.md", true, none⟩, lone t')
  backup : file (lone t) path { o with backup := true } ['s'] =
    (.ok ⟨.ofString "/d.md", true, some (.ofString "/d.s.bak.md")⟩, backedUp t t')

/-- What has to be computed of two updates to know that they are `Updates`. -/
theorem updates {t t' : Text} {o : RenderOptions}
    (h : (file (lone t) path { o with backup := false } ['s']).1.toOption =
        some ⟨.ofString "/d.md", true, none⟩ ∧
      (file (lone t) path { o with backup := false } ['s']).2 = lone t' ∧
      (file (lone t) path { o with backup := true } ['s']).1.toOption =
        some ⟨.ofString "/d.md", true, some (.ofString "/d.s.bak.md")⟩ ∧
      (file (lone t) path { o with backup := true } ['s']).2 = backedUp t t') : Updates t t' o :=
  ⟨Prod.ext (Fill.eq_ok_of_toOption h.1) h.2.1,
    Prod.ext (Fill.eq_ok_of_toOption h.2.2.1) h.2.2.2⟩

/-- A document that shows a variable. -/
def declaring (body : Text) : Text :=
  "<!--var(x)='1'--><!--begin-var(x)-->".toList ++ body ++ "<!--end-var-->".toList

end lone

/-- **A backup is not seen** by later runs with these options. -/
theorem file_backup_unseen_leavingOut :
    (lone (lone.declaring [])).Valid ∧ '/' ∉ ['s'] ∧
      lone.Updates (lone.declaring []) (lone.declaring ['1']) lone.leavingOut ∧
      lone.scannedVars (lone.backedUp (lone.declaring []) (lone.declaring ['1'])) lone.leavingOut =
        lone.scannedVars (lone (lone.declaring ['1'])) lone.leavingOut ∧
      lone.scannedRefs (lone.backedUp (lone.declaring []) (lone.declaring ['1'])) lone.leavingOut =
        lone.scannedRefs (lone (lone.declaring ['1'])) lone.leavingOut ∧
      lone.next (lone.backedUp (lone.declaring []) (lone.declaring ['1'])) lone.leavingOut =
        lone.next (lone (lone.declaring ['1'])) lone.leavingOut := by
  have hw : (lone (lone.declaring [])).Valid := by decide +kernel
  have hstamp : '/' ∉ ['s'] := by decide
  have hupdates : lone.Updates (lone.declaring []) (lone.declaring ['1']) lone.leavingOut :=
    lone.updates (by decide +kernel)
  have hmeets : ¬Scan.Meets (lone.backedUp (lone.declaring []) (lone.declaring ['1']))
      (.ofString "/d.s.bak.md") (.ofString "/d.md") lone.leavingOut.depthUp
        lone.leavingOut.depthDown lone.leavingOut.scan := by
    rintro ⟨ps, hps, q, hq, hresolve⟩
    rw [Except.ok.inj (hps.symm.trans (lone.files_one _ _ _)), List.mem_singleton] at hq
    subst hq
    exact absurd (congrArg Except.toOption hresolve) (by decide +kernel)
  have hincludes : ∀ d, (lone.backedUp (lone.declaring []) (lone.declaring ['1'])).read
      (.ofString "/d.md") = .ok d → ∀ q ∈ Piece.ofText d.text, q.isIncludeMarker = false := by
    intro d hd
    have hread : ((lone.backedUp (lone.declaring []) (lone.declaring ['1'])).read
        (.ofString "/d.md")).toOption = some ⟨lone.declaring ['1'], false⟩ := by
      decide +kernel
    rw [hd] at hread
    obtain rfl := Option.some.inj hread
    decide +kernel
  obtain ⟨d, hd, hwhole, hvars, hrefs, hnext⟩ :=
    file_backup_unseen hw hstamp hupdates.without hupdates.backup
  refine ⟨hw, hstamp, hupdates, hvars _ _ _ _ hwhole ?_, hrefs _ _ _ _ hwhole ?_,
    hnext ?_ [] []⟩
  · rintro b ⟨⟩ h
    exact absurd h hmeets
  · rintro b ⟨⟩ h
    exact absurd h hmeets
  · rintro b ⟨⟩
    refine ⟨fun d hd ⟨q, hq, n, hn, _⟩ => ?_, fun h => absurd h hmeets⟩
    have hmarker := hincludes d hd q hq
    rw [Piece.isIncludeMarker, hn] at hmarker
    cases hmarker

namespace lone

/-- A document that shows a reference. -/
def holding (body : Text) : Text :=
  "<!--begin-ref(r)-->a<!--end-ref--><!--begin-include(r)-->".toList ++ body ++
    "<!--end-include-->".toList

theorem updates_holding : Updates (holding []) (holding ['a']) .default :=
  updates (by decide +kernel)

/-- A marker that includes the backup. -/
def marker : Text := "<!--include-file(d.s.bak.md)-->".toList

/-- A document that shows this marker, as the value of a variable. -/
def including (body : Text) : Text :=
  "<!--var(v)='".toList ++ marker ++ "'--><!--begin-var(v)-->".toList ++ body ++
    "<!--end-var-->".toList

theorem updates_including : Updates (including []) (including marker) leavingOut :=
  updates (by decide +kernel)

theorem exists_render_including : ∃ x, Render.file (backedUp (including []) (including marker)) path
    { leavingOut with backup := false } = .ok x := by
  have hfiles := files_one (including []) (including marker) leavingOut.depthDown
  have hfill : Render.fill (backedUp (including []) (including marker))
      { leavingOut with backup := false } (.ofString "/d.md") (including (including [])) =
        .ok (including (marker ++ "<!--end-var-->".toList)) := by
    refine Fill.eq_ok_of_toOption ?_
    rw [Render.fill, Scan.varsAround_of_files hfiles, Scan.refsAround_of_files hfiles]
    decide +kernel
  have hsteps : ((backedUp (including []) (including marker)).checkFile path
        leavingOut.extension).toOption = some (.ofString "/d.md") ∧
      ((backedUp (including []) (including marker)).read (.ofString "/d.md")).toOption =
        some ⟨including marker, false⟩ ∧
      (Render.expand (backedUp (including []) (including marker))
        { leavingOut with backup := false } (.ofString "/") (including marker)).toOption =
          some (including (including [])) := by
    decide +kernel
  obtain ⟨hcheck, hread, hexpand⟩ := hsteps
  exact ⟨_, bind_eq_ok.2 ⟨_, Fill.eq_ok_of_toOption hcheck, bind_eq_ok.2 ⟨_,
    Fill.eq_ok_of_toOption hread, bind_eq_ok.2 ⟨_, Fill.eq_ok_of_toOption hexpand,
      bind_eq_ok.2 ⟨_, hfill, rfl⟩⟩⟩⟩⟩

end lone

/-- **A backup is seen** by a scan for variables, by a scan for references, and by an include
marker. -/
theorem file_backup_seen :
    (lone.Updates (lone.declaring []) (lone.declaring ['1']) .default ∧
      lone.scannedVars (lone.backedUp (lone.declaring []) (lone.declaring ['1'])) .default ≠
        lone.scannedVars (lone (lone.declaring ['1'])) .default) ∧
    (lone.Updates (lone.holding []) (lone.holding ['a']) .default ∧
      lone.scannedRefs (lone.backedUp (lone.holding []) (lone.holding ['a'])) .default ≠
        lone.scannedRefs (lone (lone.holding ['a'])) .default) ∧
    lone.Updates (lone.including []) (lone.including lone.marker) lone.leavingOut ∧
      lone.next (lone.backedUp (lone.including []) (lone.including lone.marker)) lone.leavingOut ≠
        lone.next (lone (lone.including lone.marker)) lone.leavingOut := by
  refine ⟨⟨lone.updates (by decide +kernel), fun h => ?_⟩, ⟨lone.updates_holding, fun h => ?_⟩,
    lone.updates_including, fun h => ?_⟩
  · rw [lone.scannedVars, Scan.varsAround_of_files (lone.files_both _ _ _)] at h
    exact absurd (congrArg Except.toOption h) (by decide +kernel)
  · rw [lone.scannedRefs, Scan.refsAround_of_files (lone.files_both _ _ _)] at h
    exact absurd (congrArg Except.toOption h) (by decide +kernel)
  · obtain ⟨x, hrender⟩ := lone.exists_render_including
    obtain ⟨report, hreport⟩ := exists_file_without_backup (by decide +kernel) rfl hrender []
    have hfails : (lone.next (lone (lone.including lone.marker)) lone.leavingOut).toOption =
        none := by
      decide +kernel
    rw [← h, lone.next, hreport] at hfails
    cases hfails

end Update

end Transclude
