import Mathlib.Data.List.Basic
import Transclude.Proofs.ScanWays

/-!
# Links that lead back

Links may lead a scan up, so that it could go on without end. It keeps a list of the directories
that it has listed, and goes on from none of them a second time. Written as calls, each of which
goes through one directory and calls itself for those below (`Scan.nested`), a scan is never deeper
in calls than there are directories, however long its paths get (`Scan.nested_eq_visit`).

The same list makes it take any second way to a directory for a cycle. A link that leads up gives
such ways: one to the directory above, and one that goes on to it from there. But a link to a
directory beside it gives them too, and there nothing leads back.

Main statements:
- `Scan.walk_ends`: how a scan ends, and what it lists.
- `Scan.symlinkCycle_iff`: when it reports a cycle.
-/

namespace Transclude

namespace Scan

variable {w : Workspace} {accepts : Path → Bool} {excluded : Path → Bool → Bool}

/-! ## Calls -/

/-- Goes through directories one after the other, each with what the calls before it have come to.
An error ends it. -/
def inTurn (call : List Route → List Path → Path × Depth → Option Walk) :
    List Route → List Path → List (Path × Depth) → Option Walk
  | listed, files, [] => some ⟨listed, .ok files⟩
  | listed, files, d :: ds =>
    match call listed files d with
    | some ⟨listed, .ok files⟩ => inTurn call listed files ds
    | ended => ended

/-- Goes through a directory, and then through those below by a call for each, at most `budget`
calls deep. It gives nothing if more would be needed. -/
def nested (w : Workspace) (accepts : Path → Bool) (excluded : Path → Bool → Bool) :
    (budget : Nat) → List Route → List Path → Path × Depth → Option Walk
  | 0, _, _, _ => none
  | budget + 1, listed, files, (dir, depth) =>
    match w.resolve dir with
    | .error fault => some ⟨listed, .error (.io fault)⟩
    | .ok r =>
      if listed.contains r then some ⟨listed, .error (.symlinkCycle dir.text)⟩
      else if w.tree.directories.contains r then
        let here := entries w excluded dir r
        let found := here.filter fun p => !w.isDirectory p && accepts p
        let below := if depth.isExhausted then [] else here.filter w.isDirectory
        inTurn (nested w accepts excluded budget) (r :: listed) (files ++ found)
          (below.map (·, depth.descend))
      else some ⟨listed, .error (.io .notDirectory)⟩

/-- What a walk has `listed` it has listed before all that is pending: the list only grows at its
front. -/
theorem listed_suffix_visit (listed : List Route) (files : List Path)
    (pending : List (Path × Depth)) :
    listed <:+ (visit w accepts excluded listed files pending).listed := by
  fun_induction visit w accepts excluded listed files pending with
  | case1 => exact List.suffix_refl _
  | case2 => exact List.suffix_refl _
  | case3 => exact List.suffix_refl _
  | case4 listed files dir depth pending r _ _ _ here found below ih =>
    exact (List.suffix_cons r listed).trans ih
  | case5 => exact List.suffix_refl _

theorem length_unlisted_le (t : Tree) {listed listed' : List Route} (h : listed <:+ listed') :
    (unlisted t listed').length ≤ (unlisted t listed).length := by
  refine (List.monotone_filter_right _ fun r hr => ?_).length_le
  rw [decide_eq_true_iff] at hr ⊢
  exact fun hmem => hr (h.subset hmem)

/-- A walk through two rows of directories, `ds` and `ds'`, goes through the first, and from what
that has come to through the second. If the first ends with an error, so does the whole. -/
theorem visit_append (listed : List Route) (files : List Path) (ds ds' : List (Path × Depth)) :
    visit w accepts excluded listed files (ds ++ ds') =
      match visit w accepts excluded listed files ds with
      | ⟨listed, .ok files⟩ => visit w accepts excluded listed files ds'
      | ended => ended := by
  fun_induction visit w accepts excluded listed files ds with
  | case1 => rfl
  | case2 listed files dir depth ds fault hr => rw [List.cons_append, visit, hr]
  | case3 listed files dir depth ds r hr hlisted =>
    rw [List.cons_append, visit, hr]
    exact dif_pos hlisted
  | case4 listed files dir depth ds r hr hlisted hdirectory here found below ih =>
    rw [List.append_assoc] at ih
    rw [List.cons_append, visit, hr, ← ih]
    exact (dif_neg hlisted).trans (dif_pos hdirectory)
  | case5 listed files dir depth ds r hr hlisted hdirectory =>
    rw [List.cons_append, visit, hr]
    exact (dif_neg hlisted).trans (dif_neg hdirectory)

/-- A directory that calls for each one below it goes through all of them as the walk does, if each
of the calls does. The `budget` of calls is left as it is from one to the next. -/
theorem inTurn_eq_visit {budget : Nat} (hcall : ∀ listed files d,
      (unlisted w.tree listed).length < budget →
        nested w accepts excluded budget listed files d =
          some (visit w accepts excluded listed files [d]))
    {listed : List Route} (hbudget : (unlisted w.tree listed).length < budget) (files : List Path)
    (ds : List (Path × Depth)) :
    inTurn (nested w accepts excluded budget) listed files ds =
      some (visit w accepts excluded listed files ds) := by
  induction ds generalizing listed files with
  | nil => rw [inTurn, visit]
  | cons d ds ih =>
    have hsplit : visit w accepts excluded listed files (d :: ds) = _ :=
      visit_append listed files [d] ds
    rw [inTurn, hcall listed files d hbudget, hsplit]
    have hsuffix : listed <:+ (visit w accepts excluded listed files [d]).listed :=
      listed_suffix_visit listed files [d]
    generalize visit w accepts excluded listed files [d] = walk at hsuffix
    obtain ⟨listed', e | files'⟩ := walk
    · rfl
    · exact ih (Nat.lt_of_le_of_lt (length_unlisted_le w.tree hsuffix) hbudget) files'

/-- **Calls go no deeper** than there are directories that have not been listed, and they come to
what the walk comes to. So `nested`, which is the program's own recursion, never runs out of its
`budget`. -/
theorem nested_eq_visit {budget : Nat} {listed : List Route}
    (hbudget : (unlisted w.tree listed).length < budget) (files : List Path) (d : Path × Depth) :
    nested w accepts excluded budget listed files d =
      some (visit w accepts excluded listed files [d]) := by
  induction budget generalizing listed files d with
  | zero => exact absurd hbudget (Nat.not_lt_zero _)
  | succ budget ih =>
    obtain ⟨dir, depth⟩ := d
    rw [nested, visit]
    cases w.resolve dir with
    | error fault => rfl
    | ok r =>
      simp only [List.contains_iff_mem]
      by_cases hlisted : r ∈ listed
      · rw [if_pos hlisted, dif_pos hlisted]
      by_cases hdirectory : r ∈ w.tree.directories
      · have hless := length_unlisted_lt hdirectory hlisted
        rw [if_neg hlisted, dif_neg hlisted, if_pos hdirectory, dif_pos hdirectory, List.append_nil]
        exact inTurn_eq_visit (fun _ _ _ h => ih h _ _) (by omega) _ _
      · rw [if_neg hlisted, dif_neg hlisted, if_neg hdirectory, dif_neg hdirectory]

/-! ## How a scan ends -/

/-- A row of attempts `f` fails with the error of one of them. -/
theorem exists_of_mapM_error {α β ε : Type} {f : α → Except ε β} {l : List α} {e : ε}
    (h : l.mapM f = .error e) : ∃ x ∈ l, f x = .error e := by
  induction l with
  | nil => cases h
  | cons x l ih =>
    rw [List.mapM_cons] at h
    cases hx : f x with
    | error e' =>
      rw [hx] at h
      have he : e' = e := Except.error.inj h
      exact ⟨x, List.mem_cons_self, hx.trans (congrArg _ he)⟩
    | ok y =>
      cases hl : l.mapM f with
      | error e' =>
        rw [hx, hl] at h
        have he : e' = e := Except.error.inj h
        obtain ⟨z, hz, hfz⟩ := ih (hl.trans (congrArg _ he))
        exact ⟨z, List.mem_cons_of_mem x hz, hfz⟩
      | ok ys =>
        rw [hx, hl] at h
        cases h

/-- Lines that are no rules are an error of the settings, whichever line it is. -/
theorem exists_of_ofLines_error {root : Path} {lines : List Text} {e : Error}
    (h : ExcludeRules.ofLines root lines = .error e) : ∃ cause, e = .config cause := by
  rw [ExcludeRules.ofLines] at h
  generalize hf : (fun line => _ : Text → Except Error (Option ExcludeRule)) = f at h
  cases hl : lines.mapM f with
  | ok rules =>
    rw [hl] at h
    cases h
  | error e' =>
    rw [hl] at h
    obtain rfl : e' = e := Except.error.inj h
    obtain ⟨line, -, hline⟩ := exists_of_mapM_error hl
    rw [← hf] at hline
    dsimp only at hline
    split at hline
    · cases hline
    · next cause _ => exact ⟨_, (Except.error.inj hline).symm⟩

section

variable {root : Path} {depth : Depth} {o : ScanOptions}

/-- A scan that cannot be made says why, and that is no cycle. Otherwise it has `rules` and a
directory to begin at. -/
theorem files_cases (w : Workspace) (root : Path) (depth : Depth) (o : ScanOptions) :
    files w root depth o = .error (.validation .emptyExtension) ∨
      files w root depth o = .error (.notFound root.text) ∨
      (∃ cause, files w root depth o = .error (.config cause)) ∨
      ∃ rules, o.extension ≠ [] ∧ w.isDirectory root = true ∧
        ExcludeRules.ofLines root o.exclude = .ok rules := by
  by_cases hextension : o.extension = []
  · exact .inl (by rw [files, if_pos hextension])
  cases hroot : w.isDirectory root with
  | false => exact .inr (.inl (by rw [files, if_neg hextension, hroot]; rfl))
  | true =>
    cases hrules : ExcludeRules.ofLines root o.exclude with
    | error e =>
      obtain ⟨cause, rfl⟩ := exists_of_ofLines_error hrules
      refine .inr (.inr (.inl ⟨cause, ?_⟩))
      rw [files, if_neg hextension, hroot, if_neg (by simp), hrules]
      rfl
    | ok rules => exact .inr (.inr (.inr ⟨rules, hextension, rfl, rfl⟩))

/-- A walk that does not begin at a directory lists nothing. -/
theorem listed_of_not_isDirectory (hw : w.Valid) (hroot : w.isDirectory root = false) :
    (walk w accepts excluded root depth).listed = [] := by
  rw [walk, visit]
  cases hr : w.resolve root with
  | error fault => rfl
  | ok r =>
    have hdirectory : r ∉ w.tree.directories := fun h => by
      rw [Workspace.isDirectory_of_resolve hr (hw.tree.node?_of_mem_directories h)] at hroot
      cases hroot
    dsimp only
    rw [dif_neg List.not_mem_nil, dif_neg hdirectory]

/-- What a walk lists are directories, and it comes to each of them by names `way` that it may go
down, as many as the depth allows. -/
theorem exists_of_mem_listed (hw : w.Valid) {r : Route}
    (h : r ∈ (walk w accepts excluded root depth).listed) :
    w.tree.node? r = some .directory ∧ ∃ way, Goes w excluded root way ∧
      depth.Allows way.length ∧ w.resolve (root.along way) = .ok r := by
  cases hroot : w.isDirectory root with
  | false =>
    rw [listed_of_not_isDirectory hw hroot] at h
    cases h
  | true =>
    obtain ⟨gone, htour⟩ := exists_tour hw accepts excluded hroot depth
    obtain ⟨way, hway, hresolve⟩ := htour.mem_listed_iff.1 h
    obtain ⟨hgoes, hallows⟩ := htour.enters way hway
    obtain ⟨r', hr', hnode⟩ := Workspace.exists_of_isDirectory (hgoes.isDirectory hroot)
    obtain rfl := Except.ok.inj (hresolve.symm.trans hr')
    exact ⟨hnode, way, hgoes, hallows, hresolve⟩

/-- A walk lists no directory twice, whatever links there are. -/
theorem nodup_listed (hw : w.Valid) : (walk w accepts excluded root depth).listed.Nodup := by
  cases hroot : w.isDirectory root with
  | false =>
    rw [listed_of_not_isDirectory hw hroot]
    exact List.nodup_nil
  | true =>
    obtain ⟨gone, htour⟩ := exists_tour hw accepts excluded hroot depth
    exact htour.distinct

/-- What `files` comes to: files, or one of four errors. -/
theorem files_ends (hw : w.Valid) (root : Path) (depth : Depth) (o : ScanOptions) :
    (∃ ps, files w root depth o = .ok ps) ∨
      files w root depth o = .error (.validation .emptyExtension) ∨
      files w root depth o = .error (.notFound root.text) ∨
      (∃ cause, files w root depth o = .error (.config cause)) ∨
      ∃ t, files w root depth o = .error (.symlinkCycle t) := by
  rcases files_cases w root depth o with h | h | h | ⟨rules, hextension, hroot, hrules⟩
  · exact .inr (.inl h)
  · exact .inr (.inr (.inl h))
  · exact .inr (.inr (.inr (.inl h)))
  · obtain ⟨gone, htour⟩ := exists_tour hw o.matchesFile rules.excludes hroot depth
    rw [files_eq_walk hextension hroot hrules]
    rcases htour.ends with ⟨hok, -⟩ | ⟨way, r, -, -, -, -, herror⟩
    · exact .inl ⟨_, hok⟩
    · exact .inr (.inr (.inr (.inr ⟨_, herror⟩)))

/-- **How a scan ends, and what it lists.** In a finite tree, with whatever links, the calls of a
scan (`nested`) go no deeper than there are directories, and come to what `walk` comes to. It lists
no directory twice, and only such as it comes to by names, as many of them as the depth allows. It
ends with files, or with an error. -/
theorem walk_ends (hw : w.Valid) (accepts : Path → Bool) (excluded : Path → Bool → Bool)
    (root : Path) (depth : Depth) :
    (∀ budget, w.tree.directories.length < budget →
      nested w accepts excluded budget [] [] (root, depth) =
        some (walk w accepts excluded root depth)) ∧
      (walk w accepts excluded root depth).listed.Nodup ∧
      (∀ r ∈ (walk w accepts excluded root depth).listed, w.tree.node? r = some .directory ∧
        ∃ way, Goes w excluded root way ∧ depth.Allows way.length ∧
          w.resolve (root.along way) = .ok r) ∧
      ∀ o, (∃ ps, files w root depth o = .ok ps) ∨
        files w root depth o = .error (.validation .emptyExtension) ∨
        files w root depth o = .error (.notFound root.text) ∨
        (∃ cause, files w root depth o = .error (.config cause)) ∨
        ∃ t, files w root depth o = .error (.symlinkCycle t) := by
  refine ⟨fun budget hbudget => nested_eq_visit ?_ [] (root, depth), nodup_listed hw,
    fun r hr => exists_of_mem_listed hw hr, files_ends hw root depth⟩
  exact Nat.lt_of_le_of_lt (List.length_filter_le _ _) hbudget

/-- A directory with a link to the directory above it. -/
def loop : Workspace where
  tree := ⟨[([.ofString "a"], .directory),
    ([.ofString "a", .ofString "up"], .link (.ofString ".."))]⟩
  cwd := []

theorem valid_loop : loop.Valid := by decide +kernel

/-- The calls in the tree with a link to its own directory go no deeper than three. -/
theorem walk_ends_loop :
    loop.Valid ∧
      nested loop (fun _ => true) (fun _ _ => false) 3 [] [] (.dot, .unlimited) =
        some (walk loop (fun _ => true) (fun _ _ => false) .dot .unlimited) ∧
      (walk loop (fun _ => true) (fun _ _ => false) .dot .unlimited).listed.Nodup := by
  have h := walk_ends valid_loop (fun _ => true) (fun _ _ => false) .dot .unlimited
  exact ⟨valid_loop, h.1 3 (by decide), h.2.1⟩

end

/-! ## Cycles -/

/-- Whether two ways of a scan lead to one directory. -/
structure Meeting (w : Workspace) (excluded : Path → Bool → Bool) (root : Path) (depth : Depth)
    (q way : Route) : Prop where
  left : Enters w excluded root depth q
  right : Enters w excluded root depth way
  differ : q ≠ way
  same : w.resolve (root.along q) = w.resolve (root.along way)

section

variable {root : Path} {depth : Depth} {o : ScanOptions}

theorem Meeting.symm {q way : Route} (h : Meeting w excluded root depth q way) :
    Meeting w excluded root depth way q := ⟨h.right, h.left, h.differ.symm, h.same.symm⟩

/-- The ways `q` and `way` that a tour has gone lead to different directories, since it lists none
twice. -/
theorem Tour.eq_of_same {walk : Walk} {gone : List Route}
    (h : Tour w accepts excluded root depth walk gone) {q way : Route} (hq : q ∈ gone)
    (hway : way ∈ gone) (hsame : w.resolve (root.along q) = w.resolve (root.along way)) :
    q = way := by
  refine List.inj_on_of_nodup_map (f := fun way => w.resolve (root.along way)) ?_ hq hway hsame
  rw [h.leads]
  exact (List.nodup_reverse.2 h.distinct).map fun _ _ => Except.ok.inj

/-- **The end of a tour**: with files, and no two ways meet; or with a cycle, at the end of a `way`
that meets one before it. -/
theorem Tour.meets {walk : Walk} {gone : List Route}
    (h : Tour w accepts excluded root depth walk gone) :
    ((∃ ps, walk.result = .ok ps) ∧ ¬∃ q way, Meeting w excluded root depth q way) ∨
      ∃ q way, Meeting w excluded root depth q way ∧ q.Before way ∧
        walk.result = .error (.symlinkCycle (root.along way).text) := by
  rcases h.ends with ⟨hok, hall⟩ | ⟨way, r, hway, hafter, hr, hlisted, herror⟩
  · refine .inl ⟨⟨_, hok⟩, fun ⟨q, way, hmeet⟩ => hmeet.differ ?_⟩
    exact h.eq_of_same (hall q hmeet.left) (hall way hmeet.right) hmeet.same
  · obtain ⟨q, hq, hqr⟩ := h.mem_listed_iff.1 hlisted
    have hbefore := hafter q hq
    refine .inr ⟨q, way, ⟨h.enters q hq, hway, ?_, hqr.trans hr.symm⟩, hbefore, herror⟩
    rintro rfl
    exact Route.before_irrefl q hbefore

/-- **When a scan reports a cycle**: when two of its ways lead to one directory (`Meeting`), and it
reports the later one. With no such ways it succeeds. If two ways lead to one directory only where
one of them goes on from the other, then a cycle is reported exactly when something leads back to a
directory that it lies in. -/
theorem symlinkCycle_iff (hw : w.Valid) (root : Path) (depth : Depth) (o : ScanOptions) :
    (∀ t, files w root depth o = .error (.symlinkCycle t) →
      ∃ rules, ExcludeRules.ofLines root o.exclude = .ok rules ∧
        ∃ q way, Meeting w rules.excludes root depth q way ∧ q.Before way ∧
          t = (root.along way).text) ∧
      ∀ rules, o.extension ≠ [] → w.isDirectory root = true →
        ExcludeRules.ofLines root o.exclude = .ok rules →
        ((∃ t, files w root depth o = .error (.symlinkCycle t)) ↔
          ∃ q way, Meeting w rules.excludes root depth q way) ∧
        ((∃ ps, files w root depth o = .ok ps) ↔
          ¬∃ q way, Meeting w rules.excludes root depth q way) ∧
        ((∀ q way, Meeting w rules.excludes root depth q way → q <+: way ∨ way <+: q) →
          ((∃ t, files w root depth o = .error (.symlinkCycle t)) ↔
            ∃ q way, Meeting w rules.excludes root depth q way ∧ q <+: way)) := by
  refine ⟨fun t ht => ?_, fun rules hextension hroot hrules => ?_⟩
  · rcases files_cases w root depth o with h | h | ⟨_, h⟩ | ⟨rules, hextension, hroot, hrules⟩
    · cases h.symm.trans ht
    · cases h.symm.trans ht
    · cases h.symm.trans ht
    obtain ⟨gone, htour⟩ := exists_tour hw o.matchesFile rules.excludes hroot depth
    rw [files_eq_walk hextension hroot hrules] at ht
    rcases htour.meets with ⟨⟨ps, hok⟩, -⟩ | ⟨q, way, hmeet, hbefore, herror⟩
    · cases hok.symm.trans ht
    · cases herror.symm.trans ht
      exact ⟨rules, hrules, q, way, hmeet, hbefore, rfl⟩
  · obtain ⟨gone, htour⟩ := exists_tour hw o.matchesFile rules.excludes hroot depth
    rw [files_eq_walk hextension hroot hrules]
    rcases htour.meets with ⟨⟨ps, hok⟩, hnone⟩ | ⟨q, way, hmeet, -, herror⟩
    · have hfine : ¬∃ t, (walk w o.matchesFile rules.excludes root depth).result =
          .error (.symlinkCycle t) := fun ⟨t, ht⟩ => nomatch hok.symm.trans ht
      refine ⟨iff_of_false hfine hnone, iff_of_true ⟨ps, hok⟩ hnone, fun _ => ?_⟩
      exact iff_of_false hfine fun ⟨q, way, hmeet, _⟩ => hnone ⟨q, way, hmeet⟩
    · have hcycle : ∃ t, (walk w o.matchesFile rules.excludes root depth).result =
          .error (.symlinkCycle t) := ⟨_, herror⟩
      refine ⟨iff_of_true hcycle ⟨q, way, hmeet⟩, iff_of_false (fun ⟨ps, hps⟩ => ?_)
        (fun h => h ⟨q, way, hmeet⟩), fun hbelow => iff_of_true hcycle ?_⟩
      · cases herror.symm.trans hps
      · rcases hbelow q way hmeet with h | h
        · exact ⟨q, way, hmeet, h⟩
        · exact ⟨way, q, hmeet.symm, h⟩

/-- The way to the link leads back to the directory above, so `q <+: way` holds of the two that
meet. -/
theorem symlinkCycle_iff_loop :
    loop.Valid ∧ ∃ t, files loop .dot .unlimited (.ofExtension "md".toList) =
      .error (.symlinkCycle t) := by
  have h := symlinkCycle_iff valid_loop .dot .unlimited (.ofExtension "md".toList)
  have hcycle := (h.2 ⟨[Path.point], []⟩ (by decide) (by decide +kernel) rfl).1
  have hway :
      Goes loop (ExcludeRules.excludes ⟨[Path.point], []⟩) .dot [.ofString "a", .ofString "up"] :=
    ⟨⟨[], by decide +kernel, Tree.mem_names_iff.2 (by decide)⟩, by decide +kernel, rfl,
      ⟨[.ofString "a"], by decide +kernel, Tree.mem_names_iff.2 (by decide)⟩, by decide +kernel,
      rfl, trivial⟩
  exact ⟨valid_loop, hcycle.2 ⟨[], _, enters_nil, ⟨hway, trivial⟩, by simp, by decide +kernel⟩⟩

/-- A directory, a link to it beside it, and a document. -/
def besideLink : Workspace where
  tree := ⟨[([.ofString "a"], .directory), ([.ofString "b"], .link (.ofString "a")),
    ([.ofString "top.md"], .file ⟨.text "x".toList, privateMode⟩)]⟩
  cwd := []

/-- A scan of `besideLink` has three ways: to its root, to the directory and to the link. -/
theorem ways_besideLink {excluded : Path → Bool → Bool} {way : Route}
    (h : Enters besideLink excluded .dot .unlimited way) :
    way = [] ∨ way = [.ofString "a"] ∨ way = [.ofString "b"] := by
  have hroot : besideLink.resolve .dot = .ok [] := by decide +kernel
  have hlink : besideLink.resolve (.ofString "./b") = .ok [.ofString "a"] := by decide +kernel
  have hbeside : besideLink.resolve (.ofString "./a") = .ok [.ofString "a"] := by decide +kernel
  have hempty (n : Bytes) : n ∉ besideLink.tree.names [.ofString "a"] := fun hn => by
    have hroute := Tree.mem_names_iff.1 hn
    simp [Tree.routes, besideLink] at hroute
  cases way with
  | nil => exact .inl rfl
  | cons n way =>
    obtain ⟨⟨r, hr, hn⟩, hdirectory, -, hrest⟩ := h.goes
    obtain rfl := Except.ok.inj (hroot.symm.trans hr)
    have hroute : n = .ofString "a" ∨ n = .ofString "b" ∨ n = .ofString "top.md" := by
      simpa [Tree.routes, besideLink] using Tree.mem_names_iff.1 hn
    rcases hroute with rfl | rfl | rfl
    · cases way with
      | nil => exact .inr (.inl rfl)
      | cons m way =>
        obtain ⟨r, hr, hm⟩ := hrest.1
        obtain rfl := Except.ok.inj (hbeside.symm.trans hr)
        exact absurd hm (hempty m)
    · cases way with
      | nil => exact .inr (.inr rfl)
      | cons m way =>
        obtain ⟨r, hr, hm⟩ := hrest.1
        obtain rfl := Except.ok.inj (hlink.symm.trans hr)
        exact absurd hm (hempty m)
    · exact absurd hdirectory (by decide +kernel)

/-- Among the ways of a scan of `besideLink`, those to the directory and to the link meet, and no
others. -/
theorem meeting_besideLink {excluded : Path → Bool → Bool} {q way : Route}
    (h : Meeting besideLink excluded .dot .unlimited q way) :
    q = [.ofString "a"] ∧ way = [.ofString "b"] ∨ q = [.ofString "b"] ∧ way = [.ofString "a"] := by
  have hsame := h.same
  rcases ways_besideLink h.left with rfl | rfl | rfl
  · rcases ways_besideLink h.right with rfl | rfl | rfl
    · exact absurd rfl h.differ
    · exact absurd hsame (by decide +kernel)
    · exact absurd hsame (by decide +kernel)
  · rcases ways_besideLink h.right with rfl | rfl | rfl
    · exact absurd hsame (by decide +kernel)
    · exact absurd rfl h.differ
    · exact .inl ⟨rfl, rfl⟩
  · rcases ways_besideLink h.right with rfl | rfl | rfl
    · exact absurd hsame (by decide +kernel)
    · exact .inr ⟨rfl, rfl⟩
    · exact absurd rfl h.differ

/-- **Nothing leads back** in `besideLink`, and still the scan reports a cycle: it comes to one
directory by the two names `a` and `b`. -/
theorem symlinkCycle_without_cycle :
    besideLink.Valid ∧
      files besideLink .dot .unlimited (.ofExtension "md".toList) =
        .error (.symlinkCycle "./b".toList) ∧
      ∃ rules, ExcludeRules.ofLines .dot [] = .ok rules ∧
        ¬∃ q way, Meeting besideLink rules.excludes .dot .unlimited q way ∧ q <+: way := by
  have hvalid : besideLink.Valid := by decide +kernel
  have hroot : besideLink.isDirectory .dot = true := by decide +kernel
  refine ⟨hvalid, ?_, ⟨[Path.point], []⟩, rfl, ?_⟩
  · obtain ⟨gone, htour⟩ := exists_tour hvalid (ScanOptions.ofExtension "md".toList).matchesFile
      (ExcludeRules.excludes ⟨[Path.point], []⟩) hroot .unlimited
    have hrules : ExcludeRules.ofLines .dot [] = .ok ⟨[Path.point], []⟩ := rfl
    rw [files_eq_walk (by decide) hroot hrules]
    rcases htour.meets with ⟨-, hnone⟩ | ⟨q, way, hmeet, hbefore, herror⟩
    · have hbeside :
          Goes besideLink (ExcludeRules.excludes ⟨[Path.point], []⟩) .dot [.ofString "a"] :=
        ⟨⟨[], by decide +kernel, Tree.mem_names_iff.2 (by decide)⟩, by decide +kernel, rfl, trivial⟩
      have hlink :
          Goes besideLink (ExcludeRules.excludes ⟨[Path.point], []⟩) .dot [.ofString "b"] :=
        ⟨⟨[], by decide +kernel, Tree.mem_names_iff.2 (by decide)⟩, by decide +kernel, rfl, trivial⟩
      exact absurd ⟨_, _, ⟨hbeside, trivial⟩, ⟨hlink, trivial⟩, by decide, by decide +kernel⟩ hnone
    · rcases meeting_besideLink hmeet with ⟨rfl, rfl⟩ | ⟨rfl, rfl⟩
      · exact herror
      · exact absurd hbefore (Route.Before.asymm (.rel (by decide)))
  · rintro ⟨q, way, hmeet, hbelow⟩
    rcases meeting_besideLink hmeet with ⟨rfl, rfl⟩ | ⟨rfl, rfl⟩
    · exact absurd hbelow (by decide)
    · exact absurd hbelow (by decide)

end

end Scan

end Transclude
