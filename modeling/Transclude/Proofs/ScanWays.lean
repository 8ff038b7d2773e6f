import Mathlib.Data.List.Lex
import Mathlib.Data.List.Nodup
import Mathlib.Logic.Function.Iterate
import Transclude.Proofs.Branches
import Transclude.Proofs.Depths
import Transclude.Scan

/-!
# The ways of a scan

A scan goes down from its root by names. The names down to a directory that it may enter are a way
(`Scan.Enters`). Links to directories are entered like directories, so two ways may lead to one
directory, and where links lead up there are ways of any length.

A scan that is under way has gone some ways and has others before it (`Scan.Course`). The ways gone
come before those that are pending, in the order of the names; no pending way goes on from another;
and each way there is has been gone, or goes on from one that is pending. Listing one more directory
keeps this up (`Course.enter`). So a scan that comes to an end has gone all ways, each of them to a
directory of its own; and the only thing that stops it earlier is a way to a directory that another
way has led to (`Scan.Tour`).

Main statement: `Scan.exists_tour`.
-/

namespace Transclude

/-! ## The order of ways -/

namespace Route

/-- The order in which a scan comes to directories: to each before those below it, and to those of
one directory in the order of their names. -/
def Before : Route → Route → Prop := List.Lex (· < ·)

theorem before_irrefl (r : Route) : ¬Before r r := List.lex_irrefl List.lt_irrefl r

theorem Before.asymm {q r : Route} (h : Before q r) : ¬Before r q :=
  (List.Lex.asymm _).asymm q r h

/-- A directory comes before those below it. -/
theorem before_append (q : Route) {s : Route} (hs : s ≠ []) : Before q (q ++ s) := by
  obtain ⟨n, s, rfl⟩ := List.exists_cons_of_ne_nil hs
  have h : Before (q ++ []) (q ++ n :: s) := List.Lex.append_left _ .nil q
  rwa [List.append_nil] at h

theorem before_of_names {m n : Bytes} (h : m < n) (q : Route) :
    Before (q ++ [m]) (q ++ [n]) := by
  have hlex : Before [m] [n] := .rel h
  exact List.Lex.append_left _ hlex q

theorem Before.append {q r : Route} (h : Before q r) (s : Route) : Before q (r ++ s) :=
  List.Lex.append_right _ s h

/-- What is below a directory `q` comes before all that comes after it, unless that is below it
too. -/
theorem Before.below {q r : Route} (h : Before q r) (hbelow : ¬q <+: r) (s : Route) :
    Before (q ++ s) r := by
  induction h with
  | nil => exact absurd List.nil_prefix hbelow
  | rel hname => exact .rel hname
  | cons _ ih => exact .cons (ih fun hp => hbelow ((List.prefix_cons_inj _).2 hp))

end Route

/-! ## Ways -/

/-- The path that goes on from a directory by names. -/
def Path.along (dir : Path) (way : Route) : Path := way.foldl Path.entry dir

namespace Path

@[simp] theorem along_nil (dir : Path) : dir.along [] = dir := rfl

@[simp] theorem along_cons (dir : Path) (n : Bytes) (way : Route) :
    dir.along (n :: way) = (dir.entry n).along way := rfl

theorem along_append (dir : Path) (way way' : Route) :
    dir.along (way ++ way') = (dir.along way).along way' := List.foldl_append

theorem along_concat (dir : Path) (way : Route) (n : Bytes) :
    dir.along (way ++ [n]) = (dir.along way).entry n := along_append dir way [n]

end Path

namespace Depth

/-- Whether a scan with this depth comes to directories so many levels below its root. -/
def Allows : Depth → Nat → Prop
  | unlimited, _ => True
  | levels n, k => k ≤ n.toNat

instance (d : Depth) (k : Nat) : Decidable (d.Allows k) :=
  match d with
  | unlimited => inferInstanceAs (Decidable True)
  | levels n => inferInstanceAs (Decidable (k ≤ n.toNat))

theorem allows_zero (d : Depth) : d.Allows 0 := by
  cases d with
  | unlimited => trivial
  | levels n => exact Nat.zero_le _

theorem Allows.mono {d : Depth} {j k : Nat} (h : d.Allows k) (hle : j ≤ k) : d.Allows j := by
  cases d with
  | unlimited => trivial
  | levels n => exact Nat.le_trans hle h

theorem iterate_descend_unlimited (k : Nat) : descend^[k] unlimited = unlimited :=
  Function.iterate_fixed rfl k

/-- Every level down leaves a level less, down to none. -/
theorem iterate_descend_levels (n : UInt64) (k : Nat) :
    ∃ m, descend^[k] (levels n) = levels m ∧ m.toNat = n.toNat - k := by
  induction k with
  | zero => exact ⟨n, rfl, rfl⟩
  | succ k ih =>
    obtain ⟨m, hm, hvalue⟩ := ih
    have hlevels : (if m = 0 then 0 else m - 1).toNat = m.toNat - 1 :=
      Option.some.inj (limit?_descend (levels m))
    refine ⟨if m = 0 then 0 else m - 1, by rw [Function.iterate_succ_apply', hm, descend], ?_⟩
    rw [hlevels, hvalue, Nat.sub_sub]

/-- A scan goes on from a directory `k` levels down while the depth allows one level more. -/
theorem isExhausted_iterate_descend (d : Depth) (k : Nat) :
    (descend^[k] d).isExhausted = false ↔ d.Allows (k + 1) := by
  cases d with
  | unlimited => simp [iterate_descend_unlimited, isExhausted, Allows]
  | levels n =>
    obtain ⟨m, hm, hvalue⟩ := iterate_descend_levels n k
    rw [hm, isExhausted, decide_eq_false_iff_not, Depth.levels.injEq, ← UInt64.toNat_inj,
      UInt64.toNat_zero, hvalue, Allows]
    omega

end Depth

namespace Scan

/-- Whether a scan may go down from a directory by names: each is that of an entry which is a
directory and is not excluded. -/
def Goes (w : Workspace) (excluded : Path → Bool → Bool) : Path → Route → Prop
  | _, [] => True
  | dir, n :: way =>
    (∃ r, w.resolve dir = .ok r ∧ n ∈ w.tree.names r) ∧ w.isDirectory (dir.entry n) = true ∧
      excluded (dir.entry n) true = false ∧ Goes w excluded (dir.entry n) way

/-- Whether the names lead from the root of a scan to a directory that it enters. -/
structure Enters (w : Workspace) (excluded : Path → Bool → Bool) (root : Path) (depth : Depth)
    (way : Route) : Prop where
  goes : Goes w excluded root way
  allows : depth.Allows way.length

section

variable {w : Workspace} {excluded : Path → Bool → Bool} {root : Path} {depth : Depth}

/-- A scan may go a way in two parts if it may go each of them. -/
theorem goes_append {dir : Path} {way way' : Route} :
    Goes w excluded dir (way ++ way') ↔
      Goes w excluded dir way ∧ Goes w excluded (dir.along way) way' := by
  induction way generalizing dir with
  | nil => exact (iff_of_eq (true_and _)).symm
  | cons n way ih => simp only [List.cons_append, Goes, ih, Path.along_cons, and_assoc]

/-- Every way that a scan may go leads to a directory, if it begins at one. -/
theorem Goes.isDirectory {dir : Path} {way : Route} (h : Goes w excluded dir way)
    (hdir : w.isDirectory dir = true) : w.isDirectory (dir.along way) = true := by
  induction way generalizing dir with
  | nil => exact hdir
  | cons n way ih => exact ih h.2.2.2 h.2.1

theorem enters_nil : Enters w excluded root depth [] := ⟨trivial, depth.allows_zero⟩

/-- A way to a directory that a scan enters goes through directories that it enters. -/
theorem Enters.of_append {way way' : Route} (h : Enters w excluded root depth (way ++ way')) :
    Enters w excluded root depth way :=
  ⟨(goes_append.1 h.goes).1, h.allows.mono (by rw [List.length_append]; omega)⟩

/-! ## The names in a directory that a scan takes up -/

/-- The names in a directory that are not excluded, with a property. -/
def picked (w : Workspace) (excluded : Path → Bool → Bool) (property : Path → Bool) (dir : Path)
    (r : Route) : List Bytes :=
  (w.tree.names r).filter fun n =>
    !excluded (dir.entry n) (w.isDirectory (dir.entry n)) && property (dir.entry n)

theorem filter_entries (property : Path → Bool) (dir : Path) (r : Route) :
    (entries w excluded dir r).filter property =
      (picked w excluded property dir r).map dir.entry := by
  rw [entries, List.filter_filter, List.filter_map, picked]
  exact congrArg _ (List.filter_congr fun n _ => Bool.and_comm _ _)

/-- A name is picked if it is in the directory, is not excluded, and has the property. -/
theorem mem_picked_iff {property : Path → Bool} {dir : Path} {r : Route} {n : Bytes} :
    n ∈ picked w excluded property dir r ↔ n ∈ w.tree.names r ∧
      excluded (dir.entry n) (w.isDirectory (dir.entry n)) = false ∧
        property (dir.entry n) = true := by
  simp [picked]

theorem pairwise_picked (ht : w.tree.Valid) (property : Path → Bool) (dir : Path) (r : Route) :
    (picked w excluded property dir r).Pairwise (· < ·) :=
  (ht.pairwise_names r).filter _

/-- The ways by which a scan goes on from the directory at the end of a way. -/
def onward (w : Workspace) (excluded : Path → Bool → Bool) (root : Path) (depth : Depth)
    (way : Route) (r : Route) : List Route :=
  (if (Depth.descend^[way.length] depth).isExhausted then []
    else picked w excluded w.isDirectory (root.along way) r).map fun n => way ++ [n]

/-- The ways that go `onward` from a directory are those that the scan enters one level further. -/
theorem mem_onward_iff {way r : Route} (h : Enters w excluded root depth way)
    (hr : w.resolve (root.along way) = .ok r) {q : Route} :
    q ∈ onward w excluded root depth way r ↔
      ∃ n, q = way ++ [n] ∧ Enters w excluded root depth (way ++ [n]) := by
  have hallows := Depth.isExhausted_iterate_descend depth way.length
  have hone (n : Bytes) : n ∈ picked w excluded w.isDirectory (root.along way) r ↔
      Goes w excluded (root.along way) [n] := by
    rw [mem_picked_iff, Goes, Goes, hr]
    simp only [Except.ok.injEq, exists_eq_left', and_true]
    refine and_congr_right fun _ => ⟨fun h => ⟨h.2, h.2 ▸ h.1⟩, fun h => ⟨h.1.symm ▸ h.2, h.1⟩⟩
  rw [onward, List.mem_map]
  constructor
  · rintro ⟨n, hn, rfl⟩
    split at hn
    · cases hn
    · next hleft =>
      refine ⟨n, rfl, goes_append.2 ⟨h.goes, (hone n).1 hn⟩, ?_⟩
      rw [List.length_append]
      exact hallows.1 (by simpa using hleft)
  · rintro ⟨n, rfl, hgoes, hlength⟩
    rw [List.length_append] at hlength
    rw [hallows.2 hlength]
    exact ⟨n, (hone n).2 (goes_append.1 hgoes).2, rfl⟩

/-- The ways that go onward from a directory are in order, and none of them goes on from another. -/
theorem pairwise_onward (ht : w.tree.Valid) (way r : Route) :
    (onward w excluded root depth way r).Pairwise fun q p => Route.Before q p ∧ ¬q <+: p := by
  have hnames : (if (Depth.descend^[way.length] depth).isExhausted then []
      else picked w excluded w.isDirectory (root.along way) r).Pairwise
        (· < ·) := by
    split
    · exact .nil
    · exact pairwise_picked ht _ _ r
  refine List.pairwise_map.2 (hnames.imp fun {m n} hmn =>
    ⟨Route.before_of_names hmn way, fun hp => ?_⟩)
  -- names of one length
  have heq := List.append_cancel_left (hp.eq_of_length (by simp))
  rw [List.singleton_inj.1 heq] at hmn
  exact List.lt_irrefl n hmn

/-- The files that a scan collects in the directory at the end of a way. -/
def foundAt (w : Workspace) (accepts : Path → Bool) (excluded : Path → Bool → Bool) (root : Path)
    (way : Route) : List Route :=
  match w.resolve (root.along way) with
  | .ok r =>
    (picked w excluded (fun p => !w.isDirectory p && accepts p) (root.along way) r).map
      fun n => way ++ [n]
  | .error _ => []

/-- What is found at the end of a way, as paths, is what a scan collects there. -/
theorem map_foundAt {accepts : Path → Bool} {way r : Route}
    (hr : w.resolve (root.along way) = .ok r) :
    (foundAt w accepts excluded root way).map root.along =
      collected w accepts excluded (root.along way) r := by
  rw [foundAt, hr, collected, filter_entries]
  simp only [List.map_map]
  exact List.map_congr_left fun n _ => root.along_concat way n

end

/-! ## Scans under way -/

/-- What holds of the ways that a scan has gone and of those that are pending. -/
structure Course (w : Workspace) (excluded : Path → Bool → Bool) (root : Path) (depth : Depth)
    (gone pending : List Route) : Prop where
  enters : ∀ way ∈ gone ++ pending, Enters w excluded root depth way
  ordered : (gone ++ pending).Pairwise Route.Before
  apart : pending.Pairwise fun q r => ¬q <+: r
  complete : ∀ way, Enters w excluded root depth way → way ∈ gone ∨ ∃ q ∈ pending, q <+: way

/-- How a scan ends that has gone some ways. -/
structure Tour (w : Workspace) (accepts : Path → Bool) (excluded : Path → Bool → Bool) (root : Path)
    (depth : Depth) (walk : Walk) (gone : List Route) : Prop where
  enters : ∀ way ∈ gone, Enters w excluded root depth way
  ordered : gone.Pairwise Route.Before
  leads : (gone.map fun way => w.resolve (root.along way)) = walk.listed.reverse.map .ok
  distinct : walk.listed.Nodup
  /-- It has gone all ways, or it has come to one that leads where another has led. -/
  ends : (walk.result =
        .ok ((gone.flatMap (foundAt w accepts excluded root)).map root.along) ∧
      ∀ way, Enters w excluded root depth way → way ∈ gone) ∨
    ∃ way r, Enters w excluded root depth way ∧ (∀ q ∈ gone, q.Before way) ∧
      w.resolve (root.along way) = .ok r ∧ r ∈ walk.listed ∧
      walk.result = .error (.symlinkCycle (root.along way).text)

section

variable {w : Workspace} {excluded : Path → Bool → Bool} {root : Path} {depth : Depth}
variable {gone pending : List Route}

/-- What a tour has listed it has come to by its ways, and it has listed all that it came to. -/
theorem Tour.mem_listed_iff {accepts : Path → Bool} {walk : Walk}
    (h : Tour w accepts excluded root depth walk gone) {r : Route} :
    r ∈ walk.listed ↔ ∃ way ∈ gone, w.resolve (root.along way) = .ok r := by
  have hmem : r ∈ walk.listed ↔ Except.ok r ∈ walk.listed.reverse.map (Except.ok (ε := Fault)) := by
    simp
  rw [hmem, ← h.leads, List.mem_map]

theorem Course.start : Course w excluded root depth [] [[]] where
  enters _ h := List.mem_singleton.1 h ▸ enters_nil
  ordered := List.pairwise_singleton _ _
  apart := List.pairwise_singleton _ _
  complete _ _ := .inr ⟨[], List.mem_singleton_self _, List.nil_prefix⟩

section

variable (ht : w.tree.Valid) {way r : Route}
  (h : Course w excluded root depth gone (way :: pending))
  (hr : w.resolve (root.along way) = .ok r)

include ht h hr

/-- When the ways that go onward from `way` are put before the pending ones, all of them stay in
order. -/
theorem Course.ordered_enter :
    (gone ++ [way] ++ (onward w excluded root depth way r ++ pending)).Pairwise Route.Before := by
  have hmem {q : Route} := mem_onward_iff (q := q) (h.enters way (by simp)) hr
  have honward : (onward w excluded root depth way r).Pairwise _ := pairwise_onward ht way r
  obtain ⟨hgone, hrest, hacross⟩ := List.pairwise_append.1 h.ordered
  obtain ⟨hfirst, hpending⟩ := List.pairwise_cons.1 hrest
  rw [List.append_assoc, List.singleton_append]
  refine List.pairwise_append.2 ⟨hgone, List.pairwise_cons.2 ⟨fun q hq => ?_,
    List.pairwise_append.2 ⟨honward.imp And.left, hpending, fun q hq p hp => ?_⟩⟩,
    fun q hq p hp => ?_⟩
  · rcases List.mem_append.1 hq with hq | hq
    · obtain ⟨n, rfl, -⟩ := hmem.1 hq
      exact Route.before_append way (List.cons_ne_nil n [])
    · exact hfirst q hq
  · obtain ⟨n, rfl, -⟩ := hmem.1 hq
    exact (hfirst p hp).below ((List.pairwise_cons.1 h.apart).1 p hp) [n]
  · have hqway : Route.Before q way := hacross q hq way List.mem_cons_self
    rcases List.mem_cons.1 hp with rfl | hp
    · exact hqway
    rcases List.mem_append.1 hp with hp | hp
    · obtain ⟨n, rfl, -⟩ := hmem.1 hp
      exact hqway.append [n]
    · exact hacross q hq p (List.mem_cons_of_mem way hp)

/-- **When a directory is listed**, the ways that go on from it come before those that are pending,
and the course goes on. -/
theorem Course.enter :
    Course w excluded root depth (gone ++ [way])
      (onward w excluded root depth way r ++ pending) := by
  have hway : Enters w excluded root depth way := h.enters way (by simp)
  have hmem {q : Route} := mem_onward_iff (q := q) hway hr
  have honward : (onward w excluded root depth way r).Pairwise _ := pairwise_onward ht way r
  obtain ⟨hapart, hpending⟩ := List.pairwise_cons.1 h.apart
  refine ⟨fun q hq => ?_, h.ordered_enter ht hr, List.pairwise_append.2
    ⟨honward.imp And.right, hpending, fun q hq p hp hqp => ?_⟩, fun q hq => ?_⟩
  · simp only [List.append_assoc, List.singleton_append, List.mem_append, List.mem_cons] at hq
    rcases hq with hq | rfl | hq | hq
    · exact h.enters q (List.mem_append_left _ hq)
    · exact hway
    · obtain ⟨n, rfl, hn⟩ := hmem.1 hq
      exact hn
    · exact h.enters q (by simp [hq])
  · obtain ⟨n, rfl, -⟩ := hmem.1 hq
    exact hapart p hp ((List.prefix_append way [n]).trans hqp)
  · rcases h.complete q hq with hq' | ⟨p, hp, s, rfl⟩
    · exact .inl (List.mem_append_left _ hq')
    rcases List.mem_cons.1 hp with rfl | hp
    · cases s with
      | nil => exact .inl (by simp)
      | cons n s =>
        rw [List.append_cons p n s] at hq ⊢
        exact .inr ⟨p ++ [n], List.mem_append_left _ (hmem.2 ⟨n, rfl, hq.of_append⟩),
          List.prefix_append _ s⟩
    · exact .inr ⟨p, List.mem_append_right _ hp, List.prefix_append p s⟩

end

/-- What a scan has still to list. -/
def ahead (root : Path) (depth : Depth) (pending : List Route) : List (Path × Depth) :=
  pending.map fun way => (root.along way, Depth.descend^[way.length] depth)

/-- One more directory `r` is listed, at the end of a way: the walk goes on with what it found
there, and with the ways onward from it. -/
theorem visit_ahead {accepts : Path → Bool} {listed : List Route} {way r : Route}
    (hr : w.resolve (root.along way) = .ok r) (hnode : w.tree.node? r = some .directory)
    (hlisted : r ∉ listed) :
    visit w accepts excluded listed
        ((gone.flatMap (foundAt w accepts excluded root)).map root.along)
        (ahead root depth (way :: pending)) =
      visit w accepts excluded (r :: listed)
        (((gone ++ [way]).flatMap (foundAt w accepts excluded root)).map root.along)
        (ahead root depth (onward w excluded root depth way r ++ pending)) := by
  have honward : ((if (Depth.descend^[way.length] depth).isExhausted then []
        else entered w excluded (root.along way) r).map
          (·, (Depth.descend^[way.length] depth).descend)) =
      ahead root depth (onward w excluded root depth way r) := by
    rw [ahead, onward]
    split
    · rfl
    · rw [entered, filter_entries]
      simp only [List.map_map]
      refine List.map_congr_left fun n _ => ?_
      simp only [Function.comp_apply, Path.along_concat, List.length_append, List.length_singleton,
        Function.iterate_succ_apply']
  have hfound : ((gone ++ [way]).flatMap (foundAt w accepts excluded root)).map root.along =
      (gone.flatMap (foundAt w accepts excluded root)).map root.along ++
        collected w accepts excluded (root.along way) r := by
    rw [List.flatMap_append, List.map_append, List.flatMap_singleton, map_foundAt hr]
  rw [ahead, List.map_cons, visit_cons hr hnode, if_neg hlisted, honward, hfound]
  exact congrArg _ List.map_append.symm

/-- **A scan under way** goes on until it has gone all ways, or comes where it has been. The
induction is on the directories that it has not listed. -/
theorem Course.exists_tour (hw : w.Valid) (accepts : Path → Bool)
    (hroot : w.isDirectory root = true) {listed : List Route}
    (h : Course w excluded root depth gone pending)
    (hleads : (gone.map fun way => w.resolve (root.along way)) = listed.reverse.map .ok)
    (hdistinct : listed.Nodup) :
    ∃ gone', Tour w accepts excluded root depth
      (visit w accepts excluded listed
        ((gone.flatMap (foundAt w accepts excluded root)).map root.along)
        (ahead root depth pending)) gone' := by
  -- the directories that are not listed yet get fewer
  induction hn : (unlisted w.tree listed).length using Nat.strongRecOn generalizing
    listed gone pending with
  | ind n ih =>
  subst hn
  cases pending with
  | nil =>
    rw [ahead, List.map_nil, visit]
    refine ⟨gone, fun way hway => h.enters way (by simp [hway]), by simpa using h.ordered, hleads,
      hdistinct, .inl ⟨rfl, fun way hway => ?_⟩⟩
    rcases h.complete way hway with hgone | ⟨q, hq, -⟩
    · exact hgone
    · cases hq
  | cons way pending =>
    have hway : Enters w excluded root depth way := h.enters way (by simp)
    obtain ⟨r, hr, hnode⟩ := Workspace.exists_of_isDirectory (hway.goes.isDirectory hroot)
    by_cases hlisted : r ∈ listed
    · obtain ⟨hgone, -, hacross⟩ := List.pairwise_append.1 h.ordered
      rw [ahead, List.map_cons, visit_cons hr hnode, if_pos hlisted]
      exact ⟨gone, fun q hq => h.enters q (by simp [hq]), hgone, hleads, hdistinct,
        .inr ⟨way, r, hway, fun q hq => hacross q hq way List.mem_cons_self, hr, hlisted, rfl⟩⟩
    · rw [visit_ahead hr hnode hlisted]
      refine ih _ (length_unlisted_lt (Tree.mem_directories hnode) hlisted) (h.enter hw.tree hr) ?_
        (List.nodup_cons.2 ⟨hlisted, hdistinct⟩) rfl
      rw [List.map_append, hleads, List.reverse_cons, List.map_append, List.map_singleton,
        List.map_singleton, hr]

/-- **Every scan of a directory** is a tour of its ways. -/
theorem exists_tour (hw : w.Valid) (accepts : Path → Bool) (excluded : Path → Bool → Bool)
    (hroot : w.isDirectory root = true) (depth : Depth) :
    ∃ gone, Tour w accepts excluded root depth (walk w accepts excluded root depth) gone :=
  Course.start.exists_tour hw accepts hroot rfl List.nodup_nil

end

end Scan

end Transclude
