import Mathlib.Data.List.Flatten
import Mathlib.Data.List.Forall2
import Mathlib.Data.List.Nodup
import Mathlib.Data.List.Perm.Basic
import Transclude.Proofs.Branches
import Transclude.Proofs.Contributions
import Transclude.Proofs.Updates

/-!
# A scan is a disjoint union

A scan goes from file to file and adds what it finds to what it has. It fails when a name is there
already, when a reference is never closed, or when a file cannot be read. Which of these it notices
first depends on the order of the files. Whether it fails does not, and neither does what it has in
the end.

What one file adds is the same whatever is there before (`Scan.AddsEntries`), so a file can be
collected by itself and then be joined to the rest, as long as no name is on both sides
(`Scan.AddsEntries.eq_ok_iff`). The scan is this step repeated (`Scan.gather_eq_ok_iff`).

Main statement: `Scan.disjointUnion`, for references and variables, over texts and over the files of
a directory tree.
-/

namespace Transclude

namespace Bindings

/-! ## Names and unions -/

/-- The bound names, in their order. -/
def names (b : Bindings) : List Text := b.entries.map Prod.fst

theorem nodup_names (b : Bindings) : b.names.Nodup := by
  rw [names, List.Nodup, List.pairwise_map]
  refine b.ordered.imp fun {e e'} h heq => ?_
  rw [heq] at h
  exact Text.not_before_self _ h

/-- The names of entries are those that are found in them. -/
theorem mem_map_fst_iff {l : List (Text × Text)} {n : Text} :
    n ∈ l.map Prod.fst ↔ (l.lookup n).isSome = true := by
  rw [List.lookup_isSome_iff, List.mem_map]
  simp only [beq_iff_eq, @eq_comm _ n]

/-- A name is one of those that are bound if something is found for it. -/
theorem mem_names_iff {b : Bindings} {n : Text} : n ∈ b.names ↔ (b.get? n).isSome = true :=
  mem_map_fst_iff

/-- Names are fresh if they are all different, with those that are bound among them. -/
theorem nodup_append_iff {b : Bindings} {ns : List Text} :
    (b.names ++ ns).Nodup ↔ References.Fresh b.contains ns := by
  rw [List.nodup_append, References.Fresh]
  constructor
  · intro h
    obtain ⟨-, hns, hapart⟩ := h
    refine ⟨hns, fun n hn => ?_⟩
    rw [Bool.eq_false_iff]
    exact fun hbound => hapart n (mem_names_iff.2 hbound) n hn rfl
  · intro h
    refine ⟨b.nodup_names, h.1, fun n hbound m hm heq => ?_⟩
    have hnew : b.contains n = false := h.2 n (heq ▸ hm)
    exact Bool.false_ne_true (hnew.symm.trans (mem_names_iff.1 hbound))

/-- Among entries with different names, a name has the text that it is looked up with. -/
theorem lookup_eq_some_iff_mem {l : List (Text × Text)} (hl : (l.map Prod.fst).Nodup) {n v : Text} :
    l.lookup n = some v ↔ (n, v) ∈ l := by
  induction l with
  | nil => simp
  | cons e l ih =>
    obtain ⟨n', v'⟩ := e
    obtain ⟨hnew, hl⟩ := List.nodup_cons.1 hl
    rw [lookup_cons_eq, List.mem_cons, Prod.mk.injEq]
    by_cases hn : n = n'
    · subst hn
      have hnot : (n, v) ∉ l := fun hmem => hnew (List.mem_map.2 ⟨_, hmem, rfl⟩)
      simp [hnot, eq_comm]
    · simp [hn, ih hl]

/-- What `get?` finds for a name is one of the entries, and the other way round. -/
theorem get?_eq_some_iff {b : Bindings} {n v : Text} :
    b.get? n = some v ↔ (n, v) ∈ b.entries := lookup_eq_some_iff_mem b.nodup_names

/-- **The view determines the bindings**, for their entries are in order. -/
theorem ext_get? {b b' : Bindings} (h : ∀ x, b.get? x = b'.get? x) : b = b' := by
  have hmem (e : Text × Text) : e ∈ b.entries ↔ e ∈ b'.entries := by
    rw [← get?_eq_some_iff (n := e.1) (v := e.2), h, get?_eq_some_iff]
  have hperm : b.entries.Perm b'.entries :=
    (List.perm_ext_iff_of_nodup (List.Nodup.of_map _ b.nodup_names)
      (List.Nodup.of_map _ b'.nodup_names)).2 hmem
  have hsame : b.entries = b'.entries :=
    hperm.eq_of_pairwise
      (fun e e' _ _ hbefore hbehind =>
        absurd (Text.before_trans hbefore hbehind) (Text.not_before_self _))
      b.ordered b'.ordered
  cases b
  cases b'
  obtain rfl := hsame
  rfl

/-- With more entries; of two with one name the later counts. -/
def extend (b : Bindings) (l : List (Text × Text)) : Bindings :=
  l.foldl (fun b e => b.set e.1 e.2) b

/-- With the entries of other bindings, which count where a name is on both sides. -/
def union (b m : Bindings) : Bindings := b.extend m.entries

/-- With entries on top, a name has the text of its entry, and otherwise what it had. -/
theorem get?_extend {l : List (Text × Text)} (hl : (l.map Prod.fst).Nodup) (b : Bindings)
    (x : Text) : (b.extend l).get? x = (l.lookup x).or (b.get? x) := by
  induction l generalizing b with
  | nil => rfl
  | cons e l ih =>
    obtain ⟨n, v⟩ := e
    obtain ⟨hnew, hl⟩ := List.nodup_cons.1 hl
    have hstep : (b.extend ((n, v) :: l)).get? x = (l.lookup x).or ((b.set n v).get? x) := ih hl _
    rw [hstep, get?_set, lookup_cons_eq]
    by_cases hx : x = n
    · have hnone : l.lookup x = none := by
        rw [hx]
        exact Option.not_isSome_iff_eq_none.1 fun h => hnew (mem_map_fst_iff.2 h)
      rw [if_pos hx, if_pos hx, hnone]
      rfl
    · rw [if_neg hx, if_neg hx]

theorem get?_union (b m : Bindings) (x : Text) :
    (b.union m).get? x = (m.get? x).or (b.get? x) := get?_extend m.nodup_names b x

/-- No name is on both sides. -/
def Apart (b m : Bindings) : Prop := (b.names ++ m.names).Nodup

section

variable {b m : Bindings}

/-- A union of bindings that are apart has the names of both. -/
theorem Apart.perm_names (h : Apart b m) : (b.union m).names.Perm (b.names ++ m.names) := by
  refine (List.perm_ext_iff_of_nodup (nodup_names _) h).2 fun x => ?_
  rw [mem_names_iff, get?_union, List.mem_append, mem_names_iff, mem_names_iff]
  cases m.get? x <;> simp

/-- If the two sides are apart, the union has what either side has. -/
theorem Apart.get?_eq_some_iff (h : Apart b m) {x v : Text} :
    (b.union m).get? x = some v ↔ b.get? x = some v ∨ m.get? x = some v := by
  rw [get?_union]
  cases hm : m.get? x with
  | none => simp
  | some w =>
    -- then the name is not on the other side
    have hx : x ∈ m.names := by rw [mem_names_iff, hm]; rfl
    have hnot : x ∉ b.names := fun hb => (List.nodup_append.1 h).2.2 x hb x hx rfl
    have hb : b.get? x = none := by
      rw [mem_names_iff] at hnot
      exact Option.not_isSome_iff_eq_none.1 hnot
    simp [hb]

/-- All names of a row of bindings, the names of each in their order. -/
def allNames (maps : List Bindings) : List Text := maps.flatMap names

/-- Joining the first two of a row keeps the names different, and keeps the names. -/
theorem nodup_allNames_union {maps : List Bindings} :
    Apart b m ∧ (allNames (b.union m :: maps)).Nodup ↔ (allNames (b :: m :: maps)).Nodup := by
  have hjoin : allNames (b :: m :: maps) = (b.names ++ m.names) ++ allNames maps := by
    simp [allNames]
  have hunion : allNames (b.union m :: maps) = (b.union m).names ++ allNames maps := rfl
  rw [hjoin, hunion]
  constructor
  · rintro ⟨h, hall⟩
    exact (h.perm_names.append_right _).nodup_iff.1 hall
  · intro h
    have hapart : Apart b m := (List.nodup_append.1 h).1
    exact ⟨hapart, (hapart.perm_names.append_right _).nodup_iff.2 h⟩

/-- Bindings joined one after the other have what one of them has, if all their names are
different. -/
theorem get?_foldl_union {maps : List Bindings} (h : (allNames (b :: maps)).Nodup) {x v : Text} :
    (maps.foldl union b).get? x = some v ↔ ∃ m ∈ b :: maps, m.get? x = some v := by
  induction maps generalizing b with
  | nil => simp
  | cons m maps ih =>
    obtain ⟨hapart, hall⟩ := nodup_allNames_union.2 h
    rw [List.foldl_cons, ih hall]
    simp only [List.mem_cons, exists_eq_or_imp, hapart.get?_eq_some_iff, or_assoc]

end

end Bindings

/-! ## What one file adds -/

namespace Variables

open References (Fresh firstTaken? firstTaken?_eq_none_iff)

/-- **Adding entries** with `addAll` ends at the first name that is taken; if there is none, all are
added. -/
theorem addAll_eq (vars : Bindings) (l : List (Text × Text)) :
    addAll vars l =
      match firstTaken? vars.contains (l.map Prod.fst) with
      | some name => .error (.duplicateKey .var name)
      | none => .ok (vars.extend l) := by
  induction l generalizing vars with
  | nil => rfl
  | cons e l ih =>
    obtain ⟨name, value⟩ := e
    rw [addAll, List.map_cons, firstTaken?]
    by_cases hname : vars.contains name = true
    · rw [if_pos hname, if_pos hname]
    · rw [if_neg hname, if_neg hname, ih, Bindings.contains_set]
      rfl

/-- Adding entries with `addAll` succeeds exactly when all names are `Fresh`. -/
theorem addAll_eq_ok_iff_fresh {vars out : Bindings} {l : List (Text × Text)} :
    addAll vars l = .ok out ↔ Fresh vars.contains (l.map Prod.fst) ∧ out = vars.extend l := by
  rw [addAll_eq, ← firstTaken?_eq_none_iff]
  cases firstTaken? vars.contains (l.map Prod.fst) with
  | some name => simp
  | none => simp [eq_comm]

/-- Adding entries with `addAll` succeeds exactly when the names of `l` are different, among
themselves and from those that `b` binds. -/
theorem addAll_eq_ok_iff {b out : Bindings} {l : List (Text × Text)} :
    addAll b l = .ok out ↔ (b.names ++ l.map Prod.fst).Nodup ∧ out = b.extend l := by
  rw [Bindings.nodup_append_iff, addAll_eq_ok_iff_fresh]

end Variables

theorem toOption_eq_some_iff {α : Type} {r : Except Error α} {a : α} :
    r.toOption = some a ↔ r = .ok a :=
  ⟨Fill.eq_ok_of_toOption, fun h => by rw [h]; rfl⟩

namespace Scan

/-- Adds something for each item of a list, in their order. -/
def gather {α : Type} (add : α → Bindings → Except Error Bindings) :
    List α → Bindings → Except Error Bindings
  | [], found => .ok found
  | x :: xs, found => do
    let found ← add x found
    gather add xs found

/-- What each item of a list gives by itself, with nothing there before. -/
def Alone {α : Type} (add : α → Bindings → Except Error Bindings) :
    List α → List Bindings → Prop :=
  List.Forall₂ fun x m => add x .empty = .ok m

/-- Whether an item adds a list of entries, the same whatever is there before. Without a list it
fails. -/
def AddsEntries {α : Type} (add : α → Bindings → Except Error Bindings)
    (holds : α → Option (List (Text × Text))) : Prop :=
  ∀ x found, (add x found).toOption = (holds x).bind fun l => (Variables.addAll found l).toOption

section

variable {α : Type} {add : α → Bindings → Except Error Bindings}
variable {holds : α → Option (List (Text × Text))} (h : AddsEntries add holds)

include h

/-- An item adds entries exactly if it holds them and their names are new and different. -/
theorem AddsEntries.exists_entries_iff {x : α} {found out : Bindings} :
    add x found = .ok out ↔ ∃ l, holds x = some l ∧
      (found.names ++ l.map Prod.fst).Nodup ∧ out = found.extend l := by
  rw [← toOption_eq_some_iff, h x found, Option.bind_eq_some_iff]
  simp only [toOption_eq_some_iff, Variables.addAll_eq_ok_iff]

/-- **One step of a scan**: an item `x` adds what it adds by itself, if no name is there before. -/
theorem AddsEntries.eq_ok_iff {x : α} {found out : Bindings} :
    add x found = .ok out ↔
      ∃ m, add x .empty = .ok m ∧ found.Apart m ∧ out = found.union m := by
  -- what the item adds by itself has the names of its entries, and they are what it adds
  have halone {l : List (Text × Text)} (hl : (l.map Prod.fst).Nodup) (x : Text) :
      (Bindings.empty.extend l).get? x = l.lookup x := by
    rw [Bindings.get?_extend hl, Bindings.get?_empty, Option.or_none]
  have hnames {l : List (Text × Text)} (hl : (l.map Prod.fst).Nodup) :
      (Bindings.empty.extend l).names.Perm (l.map Prod.fst) := by
    refine (List.perm_ext_iff_of_nodup (Bindings.nodup_names _) hl).2 fun n => ?_
    rw [Bindings.mem_names_iff, halone hl, Bindings.mem_map_fst_iff]
  have hunion {l : List (Text × Text)} (hl : (l.map Prod.fst).Nodup) :
      found.union (Bindings.empty.extend l) = found.extend l := by
    refine Bindings.ext_get? fun x => ?_
    rw [Bindings.get?_union, halone hl, Bindings.get?_extend hl]
  rw [h.exists_entries_iff]
  constructor
  · rintro ⟨l, hheld, hnodup, rfl⟩
    have hl : (l.map Prod.fst).Nodup := (List.nodup_append.1 hnodup).2.1
    refine ⟨_, h.exists_entries_iff.2 ⟨l, hheld, hl, rfl⟩, ?_, (hunion hl).symm⟩
    exact ((hnames hl).append_left _).nodup_iff.2 hnodup
  · rintro ⟨m, hm, hapart, rfl⟩
    obtain ⟨l, hheld, hl, rfl⟩ := h.exists_entries_iff.1 hm
    exact ⟨l, hheld, ((hnames hl).append_left _).nodup_iff.1 hapart, hunion hl⟩

/-! ## The whole scan -/

/-- **A scan joins what its items add by themselves** (`Alone`), if all names are different. The
induction is on the items. -/
theorem gather_eq_ok_iff {xs : List α} {found out : Bindings} :
    gather add xs found = .ok out ↔
      ∃ maps, Alone add xs maps ∧ (Bindings.allNames (found :: maps)).Nodup ∧
        out = maps.foldl Bindings.union found := by
  induction xs generalizing found with
  | nil =>
    have hnodup : (Bindings.allNames [found]).Nodup := by
      rw [Bindings.allNames, List.flatMap_singleton]
      exact found.nodup_names
    simp [gather, Alone, hnodup, eq_comm]
  | cons x xs ih =>
    rw [gather, bind_eq_ok]
    constructor
    · rintro ⟨between, hx, hxs⟩
      obtain ⟨m, hm, hapart, rfl⟩ := h.eq_ok_iff.1 hx
      obtain ⟨maps, hmaps, hnodup, rfl⟩ := ih.1 hxs
      exact ⟨m :: maps, .cons hm hmaps, Bindings.nodup_allNames_union.1 ⟨hapart, hnodup⟩, rfl⟩
    · rintro ⟨_, hall, hnodup, rfl⟩
      cases hall with
      | @cons _ m _ maps hm hmaps =>
        obtain ⟨hapart, hrest⟩ := Bindings.nodup_allNames_union.2 hnodup
        exact ⟨found.union m, h.eq_ok_iff.2 ⟨m, hm, hapart, rfl⟩, ih.2 ⟨maps, hmaps, hrest, rfl⟩⟩

omit h in
/-- The maps that `Alone` gives for a sublist of the items are among those that it gives for all. -/
theorem exists_alone_of_sublist {xs ys : List α} (hsub : xs.Sublist ys) {maps : List Bindings}
    (hmaps : Alone add ys maps) : ∃ maps', maps'.Sublist maps ∧ Alone add xs maps' := by
  induction hsub generalizing maps with
  | slnil =>
    cases hmaps
    exact ⟨[], .slnil, .nil⟩
  | cons y _ ih =>
    cases hmaps with
    | cons _ hrest =>
      obtain ⟨maps', hsub', halone⟩ := ih hrest
      exact ⟨maps', hsub'.cons _, halone⟩
  | cons_cons y _ ih =>
    cases hmaps with
    | cons hm hrest =>
      obtain ⟨maps', hsub', halone⟩ := ih hrest
      exact ⟨_ :: maps', hsub'.cons_cons _, .cons hm halone⟩

/-- **A scan of some of the items**, in the same order, succeeds if that of all does, and what it
has the other has. -/
theorem exists_gather_of_sublist {xs ys : List α} (hsub : xs.Sublist ys) {found out : Bindings}
    (hout : gather add ys found = .ok out) :
    ∃ part, gather add xs found = .ok part ∧
      ∀ x v, part.get? x = some v → out.get? x = some v := by
  obtain ⟨maps, hmaps, hnodup, rfl⟩ := (gather_eq_ok_iff h).1 hout
  obtain ⟨maps', hsub', hmaps'⟩ := exists_alone_of_sublist hsub hmaps
  have hrow : (found :: maps').Sublist (found :: maps) := hsub'.cons_cons found
  have hnodup' : (Bindings.allNames (found :: maps')).Nodup :=
    (hrow.flatMap Bindings.names).nodup hnodup
  refine ⟨_, (gather_eq_ok_iff h).2 ⟨maps', hmaps', hnodup', rfl⟩, fun x v hv => ?_⟩
  obtain ⟨m, hm, hmv⟩ := (Bindings.get?_foldl_union hnodup').1 hv
  exact (Bindings.get?_foldl_union hnodup).2 ⟨m, hrow.subset hm, hmv⟩

end

/-- A scan that joins what each item gives by itself. -/
structure DisjointUnion {α : Type} (add : α → Bindings → Except Error Bindings) : Prop where
  /-- It succeeds exactly when each item does by itself, and all their names and those that were
  there before are different. -/
  succeeds : ∀ xs found, (∃ out, gather add xs found = .ok out) ↔
    ∃ maps, Alone add xs maps ∧ (Bindings.allNames (found :: maps)).Nodup
  /-- Then a name is bound to what one of the items, or what was there before, binds it to. -/
  result : ∀ xs found out maps, gather add xs found = .ok out → Alone add xs maps →
    ∀ x v, out.get? x = some v ↔ ∃ m ∈ found :: maps, m.get? x = some v
  /-- In another order the items give the same, or fail too. -/
  order : ∀ xs xs' found, xs.Perm xs' →
    (gather add xs found).toOption = (gather add xs' found).toOption

section

variable {α : Type} {add : α → Bindings → Except Error Bindings}
variable {holds : α → Option (List (Text × Text))}

/-- What the items give by themselves, as `Alone` says it, is determined by them. -/
theorem eq_of_alone {xs : List α} {maps maps' : List Bindings} (h : Alone add xs maps)
    (h' : Alone add xs maps') : maps = maps' := by
  induction h generalizing maps' with
  | nil => cases h'; rfl
  | cons hm _ ih =>
    cases h' with
    | cons hm' hrest =>
      rw [hm] at hm'
      rw [Except.ok.inj hm', ih hrest]

/-- The order of the items makes no difference to what is collected. -/
theorem eq_ok_of_perm (h : AddsEntries add holds) {xs xs' : List α} (hperm : xs.Perm xs')
    {found out : Bindings} (hout : gather add xs' found = .ok out) :
    gather add xs found = .ok out := by
  obtain ⟨maps, hmaps, hnodup, rfl⟩ := (gather_eq_ok_iff h).1 hout
  obtain ⟨maps', hmaps', hsame⟩ := List.perm_comp_forall₂ hperm hmaps
  have hrow : (found :: maps').Perm (found :: maps) := hsame.cons found
  have hnodup' : (Bindings.allNames (found :: maps')).Nodup :=
    (hrow.flatMap_right Bindings.names).nodup_iff.2 hnodup
  -- the two unions have the same entries
  refine (gather_eq_ok_iff h).2 ⟨maps', hmaps', hnodup', Bindings.ext_get? fun x => ?_⟩
  ext v
  rw [Bindings.get?_foldl_union hnodup, Bindings.get?_foldl_union hnodup']
  simp only [hrow.mem_iff]

theorem AddsEntries.joins (h : AddsEntries add holds) : DisjointUnion add where
  succeeds xs found := by
    simp only [gather_eq_ok_iff h]
    constructor
    · rintro ⟨out, maps, hmaps, hnodup, -⟩
      exact ⟨maps, hmaps, hnodup⟩
    · rintro ⟨maps, hmaps, hnodup⟩
      exact ⟨_, maps, hmaps, hnodup, rfl⟩
  result xs found out maps hout hmaps x v := by
    obtain ⟨maps', hmaps', hnodup, rfl⟩ := (gather_eq_ok_iff h).1 hout
    obtain rfl := eq_of_alone hmaps hmaps'
    exact Bindings.get?_foldl_union hnodup
  order xs xs' found hperm := by
    ext out
    rw [toOption_eq_some_iff, toOption_eq_some_iff]
    exact ⟨eq_ok_of_perm h hperm.symm, eq_ok_of_perm h hperm⟩

end

/-- Adds what `collect` finds in a file. Line ends count as line feeds. -/
def addFile (w : Workspace) (collect : Text → Bindings → Except Error Bindings) (p : Path)
    (found : Bindings) : Except Error Bindings := do
  let d ← w.read p
  collect (Text.unifyLineEnds d.text) found

/-- Collecting over files is a scan of this kind, where each item reads its file. -/
theorem collectAll_eq_gather (w : Workspace)
    (collect : Text → Bindings → Except Error Bindings) (ps : List Path) (found : Bindings) :
    collectAll w collect ps found = gather (addFile w collect) ps found := by
  induction ps generalizing found with
  | nil => rfl
  | cons p ps ih =>
    rw [collectAll, gather, addFile, bind_assoc]
    simp only [ih]

theorem addsEntries_refs :
    AddsEntries References.collect fun t => References.held none (Piece.ofText t) :=
  References.toOption_collect

theorem addsEntries_vars :
    AddsEntries Variables.collect fun t => some (Variables.declared (Piece.ofText t)) :=
  fun _ _ => rfl

/-- A file adds what its text adds, if it can be read. -/
theorem AddsEntries.addFile {collect : Text → Bindings → Except Error Bindings}
    {holds : Text → Option (List (Text × Text))} (h : AddsEntries collect holds) (w : Workspace) :
    AddsEntries (addFile w collect) fun p =>
      (w.read p).toOption.bind fun d => holds (Text.unifyLineEnds d.text) := by
  intro p found
  show (w.read p >>= fun d => collect (Text.unifyLineEnds d.text) found).toOption =
    ((w.read p).toOption.bind fun d => holds (Text.unifyLineEnds d.text)).bind _
  cases w.read p with
  | error e => rfl
  | ok d => exact h _ found

/-- **A scan is a disjoint union, in any order** (`DisjointUnion`). Collecting the references or the
variables of a list of documents succeeds exactly when it does for each document by itself, and all
names are different, also from those that were there before; the result has what was there before
and what each document has by itself. In any other order of the documents the result is the same, or
there is none either. So it is for the files of a scan, where a file that cannot be read fails by
itself. -/
theorem disjointUnion :
    DisjointUnion References.collect ∧ DisjointUnion Variables.collect ∧
      ∀ w : Workspace, DisjointUnion (addFile w References.collect) ∧
        DisjointUnion (addFile w Variables.collect) ∧
        ∀ collect ps found, collectAll w collect ps found = gather (addFile w collect) ps found :=
  ⟨addsEntries_refs.joins, addsEntries_vars.joins, fun w =>
    ⟨(addsEntries_refs.addFile w).joins, (addsEntries_vars.addFile w).joins,
      fun collect ps found => collectAll_eq_gather w collect ps found⟩⟩

/-- A document with the reference `a`. -/
def oneText : Text := "<!--begin-ref(a)-->x<!--end-ref-->".toList

/-- A document with the reference `b`, and a comment in its body. -/
def otherText : Text := "<!--begin-ref(b)-->y<!--n--><!--end-ref-->".toList

/-- What `oneText` and `otherText` have is joined to what was there, in either order. -/
theorem disjointUnion_twoTexts :
    ∃ out, gather References.collect [oneText, otherText] (Bindings.empty.set ['c'] ['z']) =
        .ok out ∧
      gather References.collect [otherText, oneText] (Bindings.empty.set ['c'] ['z']) = .ok out ∧
      out.get? ['a'] = some ['x'] ∧ out.get? ['c'] = some ['z'] := by
  have hunion := disjointUnion.1
  have hone : References.collect oneText .empty = .ok (Bindings.empty.set ['a'] ['x']) :=
    Fill.eq_ok_of_toOption (by decide +kernel)
  have hother : References.collect otherText .empty = .ok (Bindings.empty.set ['b'] ['y']) :=
    Fill.eq_ok_of_toOption (by decide +kernel)
  have hmaps : Alone References.collect [oneText, otherText]
      [Bindings.empty.set ['a'] ['x'], Bindings.empty.set ['b'] ['y']] :=
    .cons hone (.cons hother .nil)
  obtain ⟨out, hout⟩ := (hunion.succeeds [oneText, otherText] (Bindings.empty.set ['c'] ['z'])).2
    ⟨_, hmaps, by decide⟩
  have hresult := hunion.result _ _ out _ hout hmaps
  have horder := hunion.order _ _ (Bindings.empty.set ['c'] ['z'])
    (List.Perm.swap otherText oneText [])
  rw [hout] at horder
  refine ⟨out, hout, toOption_eq_some_iff.1 horder.symm, ?_, ?_⟩
  · exact (hresult ['a'] ['x']).2 ⟨_, List.mem_cons_of_mem _ List.mem_cons_self, rfl⟩
  · exact (hresult ['c'] ['z']).2 ⟨_, List.mem_cons_self, rfl⟩

end Scan

end Transclude
