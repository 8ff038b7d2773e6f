import Transclude.Tree.Storage

/-!
# Backups

A backup stands next to its file (`create_backup`), under a name made of the file's name and a time
stamp (`backupName`): `notes.20240229-235959.bak.md`. A number keeps backups with the same stamp
apart, and the first numbered name that no entry has is taken. The search for such a name stops at
the number of entries. That is far enough, for the names are different from one another
(`Tree.free_of_find`). They are text also where the name of the file is not UTF-8.

A name counts as free if no entry is reached by it. A link that leads to nothing is not reached, and
a copy to its name goes where it leads. `Workspace.IsDangling` is there to exclude this.

Main statement: `Workspace.backUp_ofRoute`, a backup adds one entry at a free name, or it fails.
-/

namespace Transclude

/-! ## Time stamps

The second in which something happens, as date and time in digits: `20240229-235959`. Days are
counted in years that begin with March, so that a leap day is the last of its year. -/

namespace TimeStamp

/-- A number in at least `n` digits. -/
def padded (n k : Nat) : Text :=
  let digits := Text.natText k
  List.replicate (n - digits.length) '0' ++ digits

/-- Year, month and day of the `n`th day after the first of January 1970. -/
def dateOf (n : Nat) : Nat × Nat × Nat :=
  let day := n + 719468
  let dayOfEra := day % 146097
  let yearOfEra := (dayOfEra - dayOfEra / 1460 + dayOfEra / 36524 - dayOfEra / 146096) / 365
  let dayOfYear := dayOfEra - (365 * yearOfEra + yearOfEra / 4 - yearOfEra / 100)
  let month := (5 * dayOfYear + 2) / 153
  let year := yearOfEra + 400 * (day / 146097)
  let dayOfMonth := dayOfYear - (153 * month + 2) / 5 + 1
  if month < 10 then (year, month + 3, dayOfMonth) else (year + 1, month - 9, dayOfMonth)

/-- The time stamp of the `n`th second after the beginning of 1970. -/
def ofSeconds (n : Nat) : Text :=
  let (year, month, day) := dateOf (n / 86400)
  let second := n % 86400
  padded 4 year ++ padded 2 month ++ padded 2 day ++ '-' ::
    padded 2 (second / 3600) ++ padded 2 (second / 60 % 60) ++ padded 2 (second % 60)

example : ofSeconds 1709251199 = "20240229-235959".toList := by decide

end TimeStamp

namespace Workspace

/-! ## Copying a file -/

/-- The name of the `n`th backup of a file with this time stamp. It is text also where the file's
name is not: then it holds what messages show of the name. -/
def backupName (name : Bytes) (stamp : Text) (n : Nat) : Text :=
  let (stem, extension) := Path.splitName name
  let number := if n = 0 then [] else '-' :: Text.natText n
  let ending := match extension with
    | some e => '.' :: e.shown
    | none => []
  stem.shown ++ '.' :: stamp ++ number ++ ".bak".toList ++ ending

/-- The path of the next backup of a file. There are at most as many names taken as entries. -/
def backupPath (w : Workspace) (p : Path) (stamp : Text) : Path :=
  let path (n : Nat) : Path := p.withFileName (backupName (p.fileName?.getD []) stamp n).bytes
  let entries := w.tree.nodes.length
  path (((List.range entries).find? fun n => !w.isEntry (path n)).getD entries)

/-- Copies a file to its next backup: the path of the backup. -/
def backUp (w : Workspace) (p : Path) (stamp : Text) : Except Error (Path × Workspace) :=
  match w.node? p with
  | some (.file f) =>
    let backup := w.backupPath p stamp
    match w.putFile backup f with
    | .ok w' => .ok (backup, w')
    | .error fault => .error (.io fault)
  | _ => .error (.notFound p.text)

end Workspace

/-! ## Names of backups -/

namespace Path

/-- The stem and the extension of a name have no byte that it does not have. -/
theorem mem_of_mem_splitName {name : Bytes} {c : UInt8}
    (h : c ∈ (splitName name).1 ∨ ∃ e, (splitName name).2 = some e ∧ c ∈ e) : c ∈ name := by
  have hstem : ∀ c ∈ (name.reverse.dropWhile (· ≠ point)).tail.reverse, c ∈ name := fun c hc =>
    List.mem_reverse.1 <| (List.dropWhile_sublist _).subset <|
      List.mem_of_mem_tail (List.mem_reverse.1 hc)
  have hsuffix : ∀ c ∈ (name.reverse.takeWhile (· ≠ point)).reverse, c ∈ name := fun c hc =>
    List.mem_reverse.1 ((List.takeWhile_sublist _).subset (List.mem_reverse.1 hc))
  unfold splitName at h
  dsimp only at h
  split at h
  · rcases h with h | ⟨e, he, -⟩
    · exact h
    · cases he
  · rcases h with h | ⟨e, he, h⟩
    · exact hstem c h
    · obtain rfl := Option.some.inj he
      exact hsuffix c h

end Path

namespace Workspace

/-- Different numbers `m` and `n` make different names of backups, for one name and one stamp. -/
theorem backupName_injective {name : Bytes} {stamp : Text} {m n : Nat}
    (h : backupName name stamp m = backupName name stamp n) : m = n := by
  unfold backupName at h
  simp only [List.append_assoc, List.cons_append, List.append_cancel_left_eq, List.cons.injEq,
    true_and, List.append_cancel_right_eq] at h
  split at h <;> split at h
  · next hm hn => rw [hm, hn]
  · cases h
  · cases h
  · exact Text.natText_injective (List.cons.inj h).2

/-- The name of a backup has no slash in it, if neither the name of the file nor the stamp has. -/
theorem slash_not_mem_backupName {name : Bytes} {stamp : Text} (hname : Path.slash ∉ name)
    (hstamp : '/' ∉ stamp) (n : Nat) : '/' ∉ backupName name stamp n := by
  have hnumber : '/' ∉ (if n = 0 then [] else '-' :: Text.natText n : Text) := by
    split
    · exact List.not_mem_nil
    · rw [List.mem_cons]
      exact not_or.2 ⟨by decide, Text.slash_not_mem_natText n⟩
  have hbak : '/' ∉ ".bak".toList := by decide
  have hstem : '/' ∉ (Path.splitName name).1.shown := fun h =>
    hname (Path.mem_of_mem_splitName (.inl (Bytes.mem_of_mem_shown (by decide) h)))
  unfold backupName
  simp only [List.mem_append, List.mem_cons, not_or]
  refine ⟨⟨⟨⟨hstem, by decide, hstamp⟩, hnumber⟩, hbak⟩, ?_⟩
  split
  · next e he =>
    rw [List.mem_cons]
    exact not_or.2 ⟨by decide, fun h => hname
      (Path.mem_of_mem_splitName (.inr ⟨e, he, Bytes.mem_of_mem_shown (by decide) h⟩))⟩
  · exact List.not_mem_nil

/-- A file can have the name of a backup: it is more than points, and has no slash. -/
theorem isEntryName_backupName {name : Bytes} {stamp : Text} (hname : IsEntryName name)
    (hstamp : '/' ∉ stamp) (n : Nat) : IsEntryName (backupName name stamp n).bytes := by
  have hmem : 'b' ∈ backupName name stamp n := by
    unfold backupName
    simp
  exact isEntryName_bytes hmem (by decide) (by decide)
    (slash_not_mem_backupName hname.2.2.2 hstamp n)

/-- The route of the `n`th backup of the file at a route. -/
def backupRoute (r : Route) (stamp : Text) (n : Nat) : Route :=
  r.dropLast ++ [(backupName (r.getLast?.getD []) stamp n).bytes]

theorem backupRoute_ne_nil (r : Route) (stamp : Text) (n : Nat) : backupRoute r stamp n ≠ [] := by
  simp [backupRoute]

@[simp] theorem dropLast_backupRoute (r : Route) (stamp : Text) (n : Nat) :
    (backupRoute r stamp n).dropLast = r.dropLast := List.dropLast_concat

theorem backupRoute_injective {r : Route} {stamp : Text} {m n : Nat}
    (h : backupRoute r stamp m = backupRoute r stamp n) : m = n :=
  backupName_injective (Text.bytes_injective (List.singleton_inj.1 (List.append_cancel_left h)))

/-- Whether a link stands at a route that leads to nothing. -/
def IsDangling (w : Workspace) (r : Route) : Prop :=
  (∃ target, w.tree.node? r = some (.link target)) ∧ w.resolve (.ofRoute r) = .error .missing

section

variable {w : Workspace} (hw : w.Valid) {r : Route}

include hw

/-- A canonical path leads to no entry where there is none. -/
theorem isEntry_of_none (hr : r ≠ []) (hnamed : IsNamed r)
    (hparent : w.tree.node? r.dropLast = some .directory) (hn : w.tree.node? r = none) :
    w.isEntry (.ofRoute r) = false := by
  have htarget := target_ofRoute hw hr hnamed hparent (.inl hn)
  rw [target, if_neg (Path.bytes_ofRoute_ne_nil r)] at htarget
  have hresolve : w.resolve (.ofRoute r) = .error .missing := by
    rw [resolve, if_neg (Path.bytes_ofRoute_ne_nil r), Tree.follow, htarget]
    simp [hn]
  rw [isEntry, node?, hresolve]
  rfl

variable {f : File} (hf : w.tree.node? r = some (.file f)) {stamp : Text} (hstamp : '/' ∉ stamp)

include hf hstamp

/-- A backup is named by entry names, like the file that it is made of. -/
theorem isNamed_backupRoute (n : Nat) : IsNamed (backupRoute r stamp n) := by
  have hr : r ≠ [] := Tree.ne_nil_of_node? hf (by simp)
  obtain ⟨name, hlast, -⟩ := Path.exists_concat hr
  have hnamed := hw.tree.isNamed hf
  rw [backupRoute, hlast]
  exact hnamed.dropLast.concat (isEntryName_backupName (hnamed.getLast hlast) hstamp n)

/-- The path that is chosen for a backup leads to no entry, as the search tries more numbers than
there are entries. -/
theorem backupPath_ofRoute :
    ∃ n, w.backupPath (.ofRoute r) stamp = .ofRoute (backupRoute r stamp n) ∧
      w.isEntry (.ofRoute (backupRoute r stamp n)) = false := by
  have hr : r ≠ [] := Tree.ne_nil_of_node? hf (by simp)
  have hnamed := hw.tree.isNamed hf
  obtain ⟨name, hlast, -⟩ := Path.exists_concat hr
  have hpath : ∀ n, (Path.ofRoute r).withFileName
      (backupName ((Path.ofRoute r).fileName?.getD []) stamp n).bytes =
        .ofRoute (backupRoute r stamp n) := by
    intro n
    rw [Path.fileName?_ofRoute hr hnamed, backupRoute]
    refine Path.withFileName_ofRoute hr hnamed ?_
    rw [hlast]
    exact isEntryName_backupName (hnamed.getLast hlast) hstamp n
  have hfree : ∀ n, w.tree.node? (backupRoute r stamp n) = none →
      (!w.isEntry (.ofRoute (backupRoute r stamp n))) = true := by
    intro n hn
    rw [Bool.not_eq_true']
    refine isEntry_of_none hw (backupRoute_ne_nil r stamp n) (isNamed_backupRoute hw hf hstamp n)
      ?_ hn
    rw [dropLast_backupRoute]
    exact hw.tree.node?_dropLast hf
  have hfound := w.tree.free_of_find (fun _ _ => backupRoute_injective)
    (backupRoute_ne_nil r stamp) hfree
  rw [backupPath]
  simp only [hpath]
  exact ⟨_, rfl, by simpa using hfound⟩

omit hf hstamp in
/-- Where a path leads to no entry, nothing stands at its route, or a link that leads nowhere. -/
theorem node?_of_not_isEntry {k : Route} (h : w.isEntry (.ofRoute k) = false) :
    w.tree.node? k = none ∨ ∃ target, w.tree.node? k = some (.link target) := by
  cases hk : w.tree.node? k with
  | none => exact .inl rfl
  | some node =>
    cases node with
    | link target => exact .inr ⟨target, rfl⟩
    | file g =>
      rw [isEntry, node?_ofRoute hw hk (by simp)] at h
      cases h
    | directory =>
      rw [isEntry, node?_ofRoute hw hk (by simp)] at h
      cases h

/-- Under a name that is free a backup is one entry more, with the content and the permission bits
of the file. -/
theorem backUp_of_new {n : Nat}
    (hpath : w.backupPath (.ofRoute r) stamp = .ofRoute (backupRoute r stamp n))
    (hnew : w.tree.node? (backupRoute r stamp n) = none) :
    w.backUp (.ofRoute r) stamp = .ok (.ofRoute (backupRoute r stamp n),
      { w with tree := w.tree.put (backupRoute r stamp n) (.file f) }) := by
  have hparent : w.tree.node? (backupRoute r stamp n).dropLast = some .directory := by
    rw [dropLast_backupRoute]
    exact hw.tree.node?_dropLast hf
  rw [backUp, node?_ofRoute hw hf (by simp)]
  dsimp only
  rw [hpath, putFile, target_ofRoute hw (backupRoute_ne_nil r stamp n)
    (isNamed_backupRoute hw hf hstamp n) hparent (.inl hnew)]
  dsimp only
  rw [hnew, if_neg (by simp)]

/-- **What a backup does**: where no link with a name of the backup leads to nothing, it adds one
entry with the content of `f` under a name that was free, or it fails. -/
theorem backUp_ofRoute (hlinks : ∀ n, ¬w.IsDangling (backupRoute r stamp n)) :
    (∃ n, w.tree.node? (backupRoute r stamp n) = none ∧
      w.backUp (.ofRoute r) stamp = .ok (.ofRoute (backupRoute r stamp n),
        { w with tree := w.tree.put (backupRoute r stamp n) (.file f) })) ∨
      ∃ fault, w.backUp (.ofRoute r) stamp = .error (.io fault) := by
  obtain ⟨n, hpath, hfree⟩ := backupPath_ofRoute hw hf hstamp
  rcases node?_of_not_isEntry hw hfree with hn | ⟨target, hn⟩
  · exact .inl ⟨n, hn, backUp_of_new hw hf hstamp hpath hn⟩
  · -- the link leads to no entry, so it cannot be followed
    right
    have hresolve : ∃ fault, w.target (.ofRoute (backupRoute r stamp n)) = .error fault := by
      have hdangling := fun h => hlinks n ⟨⟨target, hn⟩, h⟩
      rw [isEntry, node?] at hfree
      rw [resolve, if_neg (Path.bytes_ofRoute_ne_nil _)] at hdangling hfree
      rw [Workspace.target, if_neg (Path.bytes_ofRoute_ne_nil _)]
      cases hreach : w.tree.reach maxLinks
          (w.startOf (.ofRoute (backupRoute r stamp n)))
          (Path.ofRoute (backupRoute r stamp n)).steps with
      | error fault => exact ⟨fault, rfl⟩
      | ok q =>
        rw [Tree.follow, hreach] at hdangling hfree
        cases hq : w.tree.node? q with
        | none => exact absurd (by simp [hq]) hdangling
        | some m => simp [hq] at hfree
    obtain ⟨fault, hresolve⟩ := hresolve
    refine ⟨fault, ?_⟩
    rw [backUp, node?_ofRoute hw hf (by simp)]
    dsimp only
    rw [hpath, putFile, hresolve]

end

end Workspace

end Transclude
