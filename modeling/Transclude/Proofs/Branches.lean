import Mathlib.Data.List.Nodup
import Transclude.Tree.Storage

/-!
# A new entry in a tree

What changes about the ways through a tree when a file is added under a name that no entry had?
Steps that led somewhere lead there again. Of those that led to nothing some lead to the new file,
and some fail in another way, because they would go on behind it (`Tree.follow_new`). In its
directory the new name stands among the others (`Tree.names_new`).

Steps to a directory go on from there with the links that are left (`Tree.reach_append`). Which way
led to the directory does not matter then.
-/

namespace Transclude

namespace Tree

/-! ## The names in a directory -/

/-! `List.mergeSort` asks for the order of names as a test. -/

theorem decide_le_trans (a b c : Bytes) (hab : decide (a ≤ b) = true)
    (hbc : decide (b ≤ c) = true) : decide (a ≤ c) = true :=
  decide_eq_true (List.le_trans (of_decide_eq_true hab) (of_decide_eq_true hbc))

theorem decide_le_total (a b : Bytes) : (decide (a ≤ b) || decide (b ≤ a)) = true := by
  simpa using List.le_total a b

theorem pairwise_names_le (t : Tree) (r : Route) : (t.names r).Pairwise (· ≤ ·) :=
  (List.pairwise_mergeSort decide_le_trans decide_le_total _).imp of_decide_eq_true

/-- There is one way to put the names of a directory in order: any sorted list of what is found
there is `names`. -/
theorem names_eq {t : Tree} {r : Route} {l : List Bytes} (hperm : (t.found r).Perm l)
    (hsorted : l.Pairwise (· ≤ ·)) : t.names r = l :=
  List.Perm.eq_of_pairwise (fun _ _ _ _ => List.le_antisymm) (t.pairwise_names_le r) hsorted
    ((List.mergeSort_perm _ _).trans hperm)

/-- The name of a route in a directory. -/
def nameIn? (r q : Route) : Option Bytes := if q.dropLast = r then q.getLast? else none

/-- A route with a name in the directory `r` is `r` and that name. -/
theorem nameIn?_eq_some_iff {r q : Route} {n : Bytes} : nameIn? r q = some n ↔ q = r ++ [n] := by
  rw [nameIn?, Option.ite_none_right_eq_some, List.getLast?_eq_some_iff]
  constructor
  · rintro ⟨rfl, l, rfl⟩
    rw [List.dropLast_concat]
  · rintro rfl
    exact ⟨List.dropLast_concat, r, rfl⟩

/-- The names in a directory `r` are those of the routes that go one step further. -/
theorem perm_names (t : Tree) (r : Route) : (t.names r).Perm (t.routes.filterMap (nameIn? r)) := by
  rw [routes, List.filterMap_map]
  exact List.mergeSort_perm _ _

/-- A name `n` is in a directory exactly if there is an entry of that name. -/
theorem mem_names_iff {t : Tree} {r : Route} {n : Bytes} :
    n ∈ t.names r ↔ r ++ [n] ∈ t.routes := by
  rw [(perm_names t r).mem_iff, List.mem_filterMap]
  simp only [nameIn?_eq_some_iff, exists_eq_right]

namespace Valid

variable {t : Tree} (ht : t.Valid)

include ht

/-- A name that `names` lists is that of an entry, and entries can be named so. -/
theorem entry_of_mem_names {r : Route} {n : Bytes} (h : n ∈ t.names r) :
    IsEntryName n ∧ ∃ node, t.node? (r ++ [n]) = some node := by
  obtain ⟨node, hnode⟩ :=
    Option.isSome_iff_exists.1 ((mem_routes_iff (by simp)).1 (mem_names_iff.1 h))
  exact ⟨(ht.isNamed hnode).getLast List.getLast?_concat, node, hnode⟩

/-- The names in a directory are different (`List.Nodup`), since an entry has one route. -/
theorem nodup_names (r : Route) : (t.names r).Nodup := by
  refine (perm_names t r).nodup_iff.2 (List.Nodup.filterMap (fun q q' n hq hq' => ?_) ht.distinct)
  rw [nameIn?_eq_some_iff.1 hq, nameIn?_eq_some_iff.1 hq']

/-- The names in a directory stand in the strict order of their bytes. -/
theorem pairwise_names (r : Route) : (t.names r).Pairwise (· < ·) :=
  ((t.pairwise_names_le r).and (ht.nodup_names r)).imp fun h => Std.lt_of_le_of_ne h.1 h.2

end Valid

/-! ## A new file -/

section

variable {t : Tree} {dir : Route} {name : Bytes} (hnew : t.node? (dir ++ [name]) = none) (f : File)

/-- Where nothing was at `r`, an entry is written at the end of the list. -/
theorem putNode_of_not_mem {r : Route} {n : Node} {l : List (Route × Node)}
    (h : r ∉ l.map Prod.fst) : putNode r n l = l ++ [(r, n)] := by
  induction l with
  | nil => rfl
  | cons e l ih =>
    obtain ⟨q, m⟩ := e
    have hne : q ≠ r := fun heq => h (heq ▸ List.mem_cons_self)
    rw [putNode, if_neg hne, ih fun hmem => h (List.mem_cons_of_mem _ hmem), List.cons_append]

theorem node?_new (q : Route) : (t.put (dir ++ [name]) (.file f)).node? q =
    if q = dir ++ [name] then some (.file f) else t.node? q := node?_put (by simp) t (.file f) q

include hnew

/-- The route `dir ++ [name]` of the new file was no route of the tree. -/
theorem not_mem_routes : dir ++ [name] ∉ t.routes := by
  rw [mem_routes_iff (by simp), hnew]
  simp

theorem put_new : t.put (dir ++ [name]) (.file f) = ⟨t.nodes ++ [(dir ++ [name], .file f)]⟩ :=
  congrArg Tree.mk (putNode_of_not_mem (not_mem_routes hnew))

/-- In its directory `dir` the new name stands among the others, which keep their order. -/
theorem names_new : ∃ l₁ l₂, t.names dir = l₁ ++ l₂ ∧
    (t.put (dir ++ [name]) (.file f)).names dir = l₁ ++ name :: l₂ := by
  obtain ⟨l₁, l₂, hwith, hwithout, -⟩ :=
    List.mergeSort_cons decide_le_trans decide_le_total name (t.found dir)
  refine ⟨l₁, l₂, hwithout, ?_⟩
  rw [← hwith]
  refine names_eq ?_
    ((List.pairwise_mergeSort decide_le_trans decide_le_total _).imp of_decide_eq_true)
  have hfound : (t.put (dir ++ [name]) (.file f)).found dir = t.found dir ++ [name] := by
    rw [put_new hnew, found, List.filterMap_append]
    simp [found]
  rw [hfound]
  exact (List.perm_append_singleton name _).trans (List.mergeSort_perm _ _).symm

/-- In other directories `r` the names are what they were. -/
theorem names_new_of_ne {r : Route} (hr : r ≠ dir) :
    (t.put (dir ++ [name]) (.file f)).names r = t.names r := by
  have hfound : (t.put (dir ++ [name]) (.file f)).found r = t.found r := by
    rw [put_new hnew, found, List.filterMap_append]
    simp [found, Ne.symm hr]
  exact congrArg (fun l : List Bytes => l.mergeSort) hfound

/-- Whether a way is the same as before, or fails in another way. -/
def Blocked (a b : Except Fault Route) : Prop :=
  b = a ∨ a = .error .missing ∧ b = .error .notDirectory

/-- Steps take the same way when there is a new file, or fail in another way where they asked for a
directory in its place (`Blocked`). Links are taken to do so by the hypothesis `hlink`. -/
theorem take_new {g g' : Route → List Path.Step → Except Fault Route}
    (hlink : ∀ base steps, Blocked (g base steps) (g' base steps)) (base : Route)
    (steps : List Path.Step) :
    Blocked (t.take g base steps) ((t.put (dir ++ [name]) (.file f)).take g' base steps) := by
  induction steps generalizing base with
  | nil => exact .inl rfl
  | cons step rest ih =>
    cases step with
    | here => exact ih base
    | up => exact ih base.dropLast
    | down n =>
      rw [take, take, node?_new f]
      by_cases hq : base ++ [n] = dir ++ [name]
      · rw [if_pos hq, hq, hnew]
        dsimp only
        by_cases hrest : rest = []
        · rw [if_pos hrest, if_pos hrest]
          exact .inl rfl
        · rw [if_neg hrest, if_neg hrest]
          exact .inr ⟨rfl, rfl⟩
      · rw [if_neg hq]
        cases t.node? (base ++ [n]) with
        | none => exact .inl rfl
        | some node =>
          cases node with
          | file g => exact .inl rfl
          | directory => exact ih (base ++ [n])
          | link target => exact hlink _ _

/-- The way of a path is `Blocked` at most, by `take_new` and induction on the links that are
left. -/
theorem reach_new (links : Nat) (base : Route) (steps : List Path.Step) :
    Blocked (t.reach links base steps)
      ((t.put (dir ++ [name]) (.file f)).reach links base steps) := by
  induction links generalizing base steps with
  | zero => exact take_new hnew f (fun _ _ => .inl rfl) base steps
  | succ links ih => exact take_new hnew f ih base steps

/-- **Where steps lead** with the new file: to what they led to, or from nothing to the new file. -/
theorem follow_new (links : Nat) (base : Route) (steps : List Path.Step) :
    (t.put (dir ++ [name]) (.file f)).follow links base steps = t.follow links base steps ∨
      t.follow links base steps = .error .missing ∧
        ((t.put (dir ++ [name]) (.file f)).follow links base steps = .error .notDirectory ∨
          (t.put (dir ++ [name]) (.file f)).follow links base steps = .ok (dir ++ [name])) := by
  rw [follow, follow]
  rcases reach_new hnew f links base steps with h | ⟨h, h'⟩
  · rw [h]
    cases t.reach links base steps with
    | error fault => exact .inl rfl
    | ok r =>
      dsimp only
      rw [node?_new f]
      by_cases hr : r = dir ++ [name]
      · rw [if_pos hr, hr, hnew]
        exact .inr ⟨rfl, .inr rfl⟩
      · rw [if_neg hr]
        exact .inl rfl
  · rw [h, h']
    exact .inr ⟨rfl, .inl rfl⟩

end

/-! ## Entries of a directory -/

theorem follow_congr {t : Tree} {links links' : Nat} {base base' : Route}
    {steps steps' : List Path.Step} (h : t.reach links base steps = t.reach links' base' steps') :
    t.follow links base steps = t.follow links' base' steps' := by
  rw [follow, follow, h]

section

variable {t : Tree} {r : Route} (hr : t.node? r = some .directory) {ask : List Path.Step}
  (hask : ask = [] ∨ ask = [.here])

include hr hask

/-- Steps that lead to a directory go on from there with the links that are left. They may end with
`ask`, by which a slash asks for a directory, and `rest` goes on without it. -/
theorem take_append (links : Nat)
    (hlink : ∀ base steps, t.atLink links base (steps ++ ask) = .ok r →
      ∃ m, ∀ rest, t.atLink links base (steps ++ rest) = t.reach m r rest)
    {base : Route} {steps : List Path.Step}
    (h : t.take (t.atLink links) base (steps ++ ask) = .ok r) :
    ∃ m, ∀ rest, t.take (t.atLink links) base (steps ++ rest) = t.reach m r rest := by
  induction steps generalizing base with
  | nil =>
    obtain rfl : base = r := by
      rcases hask with rfl | rfl <;> exact Except.ok.inj h
    exact ⟨links, fun rest => by rw [reach_eq_take]; rfl⟩
  | cons step steps ih =>
    cases step with
    | here => exact ih h
    | up => exact ih h
    | down n =>
      rw [List.cons_append, take] at h
      cases hnode : t.node? (base ++ [n]) with
      | none =>
        rw [hnode] at h
        dsimp only at h
        split at h
        · rw [Except.ok.inj h, hr] at hnode
          cases hnode
        · cases h
      | some node =>
        simp only [List.cons_append, take, hnode]
        rw [hnode] at h
        cases node with
        | file g =>
          dsimp only at h
          split at h
          · rw [Except.ok.inj h, hr] at hnode
            cases hnode
          · cases h
        | directory => exact ih h
        | link target =>
          dsimp only at h ⊢
          rw [← List.append_assoc] at h
          obtain ⟨m, hm⟩ := hlink _ _ h
          exact ⟨m, fun rest => by simpa only [List.append_assoc] using hm rest⟩

/-- **Steps to a directory** go on from there, whatever `rest` follows, with `m` links left. -/
theorem reach_append {links : Nat} {base : Route} {steps : List Path.Step}
    (h : t.reach links base (steps ++ ask) = .ok r) :
    ∃ m, ∀ rest, t.reach links base (steps ++ rest) = t.reach m r rest := by
  induction links generalizing base steps with
  | zero => exact take_append hr hask 0 (fun _ _ hlink => by cases hlink) h
  | succ links ih => exact take_append hr hask (links + 1) (fun _ _ hlink => ih hlink) h

end

end Tree

end Transclude
