import Transclude.Path

/-!
# Directory trees

A tree holds files, directories and links. Every entry has a route: the names from the root down to
it, in bytes. The root is a directory and has the empty route. A file has content, text or bytes
that are not UTF-8, and permission bits.

`Tree.node?` is the view. `node?_put` says what writing an entry does to it: the entry is there, and
every other entry is what it was.

A canonical path is spelled from a route: a slash before every name. Such a path is taken apart
where the route is, for the names of the route are the parts of the path (`IsNamed`).

The entries of a directory tree fit together (`Tree.Valid`): no route has two of them, names are
names, and every entry lies in a directory. A file that is written where a file or nothing was
leaves the tree valid.

Main statements:
- `Path.steps_ofRoute`: the steps of a canonical path go down the route.
- `Path.parent?_ofRoute`, `Path.fileName?_ofRoute`: it is taken apart where the route is.
- `Path.entry_ofRoute`, `Path.withFileName_ofRoute`: and put together.
- `Tree.Valid.put`: writing a file keeps the tree valid.
- `Tree.free_of_find`: of numbered routes a search finds a free one.
-/

namespace Transclude

/-- The names from the root of a tree down to an entry. -/
abbrev Route := List Bytes

/-- The path from the root to an entry. -/
def Path.ofRoute (r : Route) : Path := ⟨slash :: List.intercalate [slash] r⟩

/-- What a file holds. -/
inductive Content where
  | text (t : Text)
  /-- Bytes that are not UTF-8. -/
  | binary (bytes : Bytes)
  deriving DecidableEq, Repr

/-- The content that these bytes are. -/
def Content.ofBytes (bytes : ByteArray) : Content :=
  match String.fromUTF8? bytes with
  | some s => text s.toList
  | none => binary bytes.toList

/-- A file with its permission bits. -/
structure File where
  content : Content
  mode : Nat
  deriving DecidableEq, Repr

/-- An entry of a tree. -/
inductive Node where
  | file (f : File)
  | directory
  | link (target : Path)
  deriving DecidableEq, Repr

/-- A directory tree: its entries below the root, each with its route. -/
structure Tree where
  nodes : List (Route × Node)
  deriving DecidableEq, Repr

namespace Tree

/-- The tree with nothing below the root. -/
def empty : Tree := ⟨[]⟩

/-- The entry with a route. -/
def node? (t : Tree) (r : Route) : Option Node :=
  if r = [] then some .directory else t.nodes.lookup r

/-- Entries with `n` at the route `r`, in the place of what was there. -/
def putNode (r : Route) (n : Node) : List (Route × Node) → List (Route × Node)
  | [] => [(r, n)]
  | (q, m) :: l => if q = r then (r, n) :: l else (q, m) :: putNode r n l

/-- The tree with the entry `n` at the route `r`. -/
def put (t : Tree) (r : Route) (n : Node) : Tree := ⟨putNode r n t.nodes⟩

/-- What a write does to the list of entries, told for every route `q`. -/
theorem lookup_putNode (r q : Route) (n : Node) (l : List (Route × Node)) :
    (putNode r n l).lookup q = if q = r then some n else l.lookup q := by
  have cons (p : Route) (m : Node) (l : List (Route × Node)) :
      ((p, m) :: l).lookup q = if q = p then some m else l.lookup q := by
    by_cases h : q = p
    · simp [h]
    · simp [List.lookup_cons, beq_false_of_ne h, h]
  induction l with
  | nil => rw [putNode, cons]
  | cons e l ih =>
    obtain ⟨p, m⟩ := e
    unfold putNode
    split
    · next h => subst h; rw [cons, cons]; split <;> rfl
    · next h =>
      rw [cons, cons, ih]
      by_cases hq : q = p
      · subst hq; simp [h]
      · simp [hq]

/-- **What writing an entry does**: at `r` is the node `n`, and at every other route `q` what was
there. The root is no entry and cannot be written. -/
theorem node?_put {r : Route} (hr : r ≠ []) (t : Tree) (n : Node) (q : Route) :
    (t.put r n).node? q = if q = r then some n else t.node? q := by
  unfold node? put
  by_cases hq : q = []
  · simp [hq, hr.symm]
  · simp [hq, lookup_putNode]

/-- The tree without the entry at `r` and without all that is below it. -/
def erase (t : Tree) (r : Route) : Tree := ⟨t.nodes.filter fun e => !r.isPrefixOf e.1⟩

/-- The names of the entries directly below `r`, as they come. -/
def found (t : Tree) (r : Route) : List Bytes :=
  t.nodes.filterMap fun e => if e.1.dropLast = r then e.1.getLast? else none

/-- The names of the entries directly below `r`, in the order of their bytes. -/
def names (t : Tree) (r : Route) : List Bytes := (t.found r).mergeSort

/-- The entry and all that is below it, with the routes from there. -/
def below (t : Tree) (r : Route) : List (Route × Node) :=
  t.nodes.filterMap fun e =>
    match r.isPrefixOf? e.1 with
    | some rest => if rest = [] then none else some (rest, e.2)
    | none => none

/-- The routes of all directories. -/
def directories (t : Tree) : List Route :=
  [] :: (t.nodes.filter fun e => e.2 = .directory).map Prod.fst

end Tree

/-! ## Canonical paths -/

/-- Whether a route can be that of an entry. -/
def IsNamed (r : Route) : Prop := ∀ name ∈ r, IsEntryName name

instance (r : Route) : Decidable (IsNamed r) :=
  inferInstanceAs (Decidable (∀ name ∈ r, IsEntryName name))

namespace IsNamed

theorem nil : IsNamed [] := fun _ h => nomatch h

/-- The directory of an entry that is named by entry names is so, too. -/
theorem dropLast {r : Route} (h : IsNamed r) : IsNamed r.dropLast :=
  fun name hname => h name ((List.dropLast_sublist r).subset hname)

theorem concat {r : Route} {name : Bytes} (h : IsNamed r) (hname : IsEntryName name) :
    IsNamed (r ++ [name]) := by
  intro x hx
  rcases List.mem_append.1 hx with hx | hx
  · exact h x hx
  · exact List.mem_singleton.1 hx ▸ hname

theorem getLast {r : Route} (h : IsNamed r) {name : Bytes} (hname : r.getLast? = some name) :
    IsEntryName name := h name (List.mem_of_getLast? hname)

end IsNamed

namespace Path

/-- The bytes of a canonical path, one name further down: a slash and that name. -/
theorem bytes_ofRoute_concat {r : Route} (hr : r ≠ []) (name : Bytes) :
    (ofRoute (r ++ [name])).bytes = (ofRoute r).bytes ++ slash :: name := by
  rw [ofRoute, ofRoute, intercalate_concat slash hr, List.cons_append]

theorem bytes_ofRoute_ne_nil (r : Route) : (ofRoute r).bytes ≠ [] := by simp [ofRoute]

theorem isRooted_ofRoute (r : Route) : (ofRoute r).isRooted = true := by simp [isRooted, ofRoute]

/-- A route but that of the root splits into the names before the last, and the last. -/
theorem exists_concat {r : Route} (hr : r ≠ []) :
    ∃ name, r.getLast? = some name ∧ r = r.dropLast ++ [name] :=
  ⟨r.getLast hr, List.getLast?_eq_some_getLast hr, (List.dropLast_concat_getLast hr).symm⟩

section

variable {r : Route} (hr : r ≠ []) (h : IsNamed r)

include hr

/-- Below the root a canonical path is spelled as the names of its route with an empty part before
them. -/
theorem ofRoute_eq_ofSegments : ofRoute r = ofSegments ([] :: r) := by
  rw [ofRoute, ofSegments, List.intercalate_cons_of_ne_nil hr]
  rfl

/-- The parts of a canonical path are the names of its route, if they hold no slash, behind the
empty part before the first slash. -/
theorem segments_of_slashless (hslash : ∀ s ∈ r, slash ∉ s) : (ofRoute r).segments = [] :: r := by
  rw [ofRoute_eq_ofSegments hr]
  refine List.splitOn_intercalate slash (fun s hs => ?_) (List.cons_ne_nil _ _)
  rcases List.mem_cons.1 hs with rfl | hs
  · exact List.not_mem_nil
  · exact hslash s hs

omit hr in
/-- No slash stands at the end of a canonical path below the root. -/
theorem getLast?_ofRoute_concat (r : Route) {s : Bytes} (hs : s ≠ []) (hslash : slash ∉ s) :
    (ofRoute (r ++ [s])).bytes.getLast? ≠ some slash := by
  obtain ⟨lead, htext⟩ : ∃ lead, (ofRoute (r ++ [s])).bytes = lead ++ s := by
    by_cases hr : r = []
    · exact ⟨[slash], by rw [hr]; simp [ofRoute]⟩
    · exact ⟨(ofRoute r).bytes ++ [slash], by rw [bytes_ofRoute_concat hr]; simp⟩
  have hlast := List.getLast?_eq_some_getLast hs
  rw [htext, List.getLast?_append, hlast]
  intro heq
  exact hslash (List.mem_of_getLast? (hlast.trans heq))

include h

/-- The parts of a canonical path are the names of its route, behind an empty one, since entry names
hold no slash. -/
theorem segments_ofRoute : (ofRoute r).segments = [] :: r :=
  segments_of_slashless hr fun s hs => (h s hs).2.2.2

theorem getLast?_ofRoute : (ofRoute r).bytes.getLast? ≠ some slash := by
  obtain ⟨name, hlast, heq⟩ := exists_concat hr
  have hname := h.getLast hlast
  rw [heq]
  exact getLast?_ofRoute_concat _ hname.1 hname.2.2.2

/-- **The steps of a canonical path** go down its route `r`, name by name. -/
theorem steps_ofRoute : (ofRoute r).steps = r.map .down := by
  have hdown : ∀ {l : Route}, IsNamed l → l.filterMap Step.ofSegment? = l.map .down := by
    intro l hl
    induction l with
    | nil => rfl
    | cons a l ih =>
      rw [List.filterMap_cons, (hl a List.mem_cons_self).ofSegment?,
        ih fun x hx => hl x (List.mem_cons_of_mem _ hx), List.map_cons]
  rw [steps, segments_ofRoute hr h, if_neg (getLast?_ofRoute hr h), List.append_nil,
    List.filterMap_cons]
  exact hdown h

omit h hr in
theorem dropIdle_eq_self (h : IsNamed r) : dropIdle r = r := by
  by_cases hr : r = []
  · rw [hr]
    rfl
  · obtain ⟨name, hlast, heq⟩ := exists_concat hr
    rw [heq, dropIdle_concat (h.getLast hlast).not_isIdle]

theorem trimmed_ofRoute : (ofRoute r).trimmed = ([], r) := by
  rw [trimmed, segments_ofRoute hr h]
  show ([], dropIdle r) = _
  rw [dropIdle_eq_self h]

/-- The name of what a canonical path leads to is the last of its route. -/
theorem fileName?_ofRoute : (ofRoute r).fileName? = r.getLast? := by
  obtain ⟨name, hlast, -⟩ := exists_concat hr
  obtain ⟨a, l, rfl⟩ := List.exists_cons_of_ne_nil hr
  have hdots := (h.getLast hlast).2.2.1
  rw [fileName?, trimmed_ofRoute hr h]
  simp only [hlast]
  simp [hdots]

/-- The parent of a canonical path is that of the route before its last name. -/
theorem parent?_ofRoute : (ofRoute r).parent? = some (ofRoute r.dropLast) := by
  obtain ⟨a, l, rfl⟩ := List.exists_cons_of_ne_nil hr
  rw [parent?, trimmed_ofRoute hr h]
  dsimp only
  rw [dropIdle_eq_self h.dropLast]
  split
  · next hd => rw [hd]; rfl
  · next hd =>
    rw [ofRoute_eq_ofSegments fun hnil => hd rfl hnil]

omit h hr in
/-- The entry of a directory with a canonical path has a canonical path, one name further down. -/
theorem entry_ofRoute (h : IsNamed r) {name : Bytes} (hname : IsEntryName name) :
    (ofRoute r).entry name = ofRoute (r ++ [name]) := by
  rw [entry, join, if_neg (by simp [isRooted_name hname])]
  by_cases hr : r = []
  · subst hr
    rw [if_pos (.inr rfl)]
    simp [ofRoute]
  · have hlast := getLast?_ofRoute hr h
    rw [if_neg (not_or.2 ⟨bytes_ofRoute_ne_nil r, hlast⟩), ← bytes_ofRoute_concat hr]

/-- Another name in place of the last one gives the path of an entry beside the first. -/
theorem withFileName_ofRoute {name : Bytes} (hname : IsEntryName name) :
    (ofRoute r).withFileName name = ofRoute (r.dropLast ++ [name]) := by
  obtain ⟨last, hlast, -⟩ := exists_concat hr
  rw [withFileName, fileName?_ofRoute hr h, parent?_ofRoute hr h, hlast]
  exact entry_ofRoute h.dropLast hname

end

end Path

/-! ## Valid trees -/

namespace Tree

/-- The routes of all entries. -/
def routes (t : Tree) : List Route := t.nodes.map Prod.fst

/-- Whether the entries are those of one tree. -/
structure Valid (t : Tree) : Prop where
  distinct : t.routes.Nodup
  /-- The root is no entry of its own. -/
  named : ∀ e ∈ t.nodes, e.1 ≠ [] ∧ IsNamed e.1
  within : ∀ e ∈ t.nodes, t.node? e.1.dropLast = some .directory

instance (t : Tree) : Decidable t.Valid :=
  decidable_of_iff
    (t.routes.Nodup ∧ (∀ e ∈ t.nodes, e.1 ≠ [] ∧ IsNamed e.1) ∧
      ∀ e ∈ t.nodes, t.node? e.1.dropLast = some .directory)
    ⟨fun ⟨h₁, h₂, h₃⟩ => ⟨h₁, h₂, h₃⟩, fun ⟨h₁, h₂, h₃⟩ => ⟨h₁, h₂, h₃⟩⟩

@[simp] theorem node?_nil (t : Tree) : t.node? [] = some .directory := rfl

/-- What is found in a list of entries is one of them. -/
theorem mem_of_lookup {r : Route} {n : Node} {l : List (Route × Node)} (h : l.lookup r = some n) :
    (r, n) ∈ l := by
  obtain ⟨l₁, l₂, rfl, -⟩ := List.lookup_eq_some_iff.1 h
  simp

theorem mem_of_node? {t : Tree} {r : Route} {n : Node} (hr : r ≠ []) (h : t.node? r = some n) :
    (r, n) ∈ t.nodes := by
  rw [node?, if_neg hr] at h
  exact mem_of_lookup h

/-- A file and a link are not the root, which is a directory. -/
theorem ne_nil_of_node? {t : Tree} {r : Route} {n : Node} (h : t.node? r = some n)
    (hn : n ≠ .directory) : r ≠ [] := by
  rintro rfl
  exact hn (Option.some.inj h).symm

/-- The routes of a tree are those with an entry, besides the root. -/
theorem mem_routes_iff {t : Tree} {r : Route} (hr : r ≠ []) :
    r ∈ t.routes ↔ (t.node? r).isSome = true := by
  rw [node?, if_neg hr, List.lookup_isSome_iff, routes, List.mem_map]
  constructor
  · rintro ⟨e, he, rfl⟩
    exact ⟨e, he, beq_self_eq_true _⟩
  · rintro ⟨e, he, heq⟩
    exact ⟨e, he, (eq_of_beq heq).symm⟩

/-- A directory that is looked up is among the listed ones. For the other direction the tree must be
valid (`node?_of_mem_directories`). -/
theorem mem_directories {t : Tree} {r : Route} (h : t.node? r = some .directory) :
    r ∈ t.directories := by
  by_cases hr : r = []
  · exact hr ▸ List.mem_cons_self
  · refine List.mem_cons_of_mem _ (List.mem_map.2 ⟨(r, .directory), ?_, rfl⟩)
    exact List.mem_filter.2 ⟨mem_of_node? hr h, rfl⟩

/-- Of more routes than there are entries, all different and none the root, one is free. -/
theorem exists_none (t : Tree) {routes : List Route} (hnodup : routes.Nodup)
    (hne : ∀ r ∈ routes, r ≠ []) (hlen : t.nodes.length < routes.length) :
    ∃ r ∈ routes, t.node? r = none := by
  refine Classical.byContradiction fun hno => ?_
  have hsubset : routes ⊆ t.routes := by
    intro r hr
    rw [mem_routes_iff (hne r hr), Option.isSome_iff_ne_none]
    exact fun hnone => hno ⟨r, hr, hnone⟩
  have hle := hnodup.length_le_of_subset hsubset
  rw [Tree.routes, List.length_map] at hle
  omega

/-- **A search through the routes `route 0`, `route 1`, … finds a free one** if it tries as many as
there are entries in the tree, and takes the one behind them if none of these is free. The routes
are different from one another, so entries do not have them all (`exists_none`). What counts as
free is up to the search, as long as a route without entry does. -/
theorem free_of_find (t : Tree) {route : Nat → Route}
    (hroute : ∀ m n, route m = route n → m = n) (hne : ∀ n, route n ≠ []) {free : Nat → Bool}
    (hfree : ∀ n, t.node? (route n) = none → free n = true) :
    free (((List.range t.nodes.length).find? free).getD t.nodes.length) = true := by
  cases hfind : (List.range t.nodes.length).find? free with
  | some n => exact List.find?_some hfind
  | none =>
    have hnodup : ((List.range (t.nodes.length + 1)).map route).Nodup :=
      List.Pairwise.map _ (fun m n hmn heq => hmn (hroute m n heq)) List.nodup_range
    obtain ⟨r, hr, hnone⟩ := t.exists_none hnodup (by simp [hne]) (by simp)
    obtain ⟨n, hn, rfl⟩ := List.mem_map.1 hr
    -- all routes that were tried are taken, so the free one is the one behind them
    have htried : ¬n < t.nodes.length := fun hlt =>
      List.find?_eq_none.1 hfind n (List.mem_range.2 hlt) (hfree n hnone)
    obtain rfl : n = t.nodes.length := by
      have := List.mem_range.1 hn
      omega
    exact hfree _ hnone

namespace Valid

variable {t : Tree} (ht : t.Valid)

include ht

/-- The names on the way to an entry of a valid tree are entry names. -/
theorem isNamed {r : Route} {n : Node} (h : t.node? r = some n) : IsNamed r := by
  by_cases hr : r = []
  · rw [hr]
    exact IsNamed.nil
  · exact (ht.named _ (mem_of_node? hr h)).2

theorem node?_dropLast {r : Route} {n : Node} (h : t.node? r = some n) :
    t.node? r.dropLast = some .directory := by
  by_cases hr : r = []
  · rw [hr]
    rfl
  · exact ht.within _ (mem_of_node? hr h)

/-- Above an entry of a valid tree there are directories only. -/
theorem node?_of_append {r : Route} {s : Route} {n : Node} (h : t.node? (r ++ s) = some n)
    (hs : s ≠ []) : t.node? r = some .directory := by
  induction hlen : s.length generalizing s n with
  | zero => exact absurd (List.length_eq_zero_iff.1 hlen) hs
  | succ k ih =>
    have hdir := ht.node?_dropLast h
    rw [List.dropLast_append_of_ne_nil hs] at hdir
    by_cases hd : s.dropLast = []
    · rwa [hd, List.append_nil] at hdir
    · exact ih hdir hd (by rw [List.length_dropLast, hlen, Nat.add_sub_cancel])

/-- An entry `e` of the list is the one at its route, for no route has two. -/
theorem node?_of_mem {e : Route × Node} (he : e ∈ t.nodes) : t.node? e.1 = some e.2 := by
  obtain ⟨before, after, hnodes⟩ := List.append_of_mem he
  have hdistinct := ht.distinct
  rw [routes, hnodes, List.map_append, List.map_cons, List.nodup_append] at hdistinct
  rw [node?, if_neg (ht.named e he).1, List.lookup_eq_some_iff]
  refine ⟨before, after, hnodes, fun other hother => ?_⟩
  have hne := hdistinct.2.2 other.1 (List.mem_map_of_mem hother) e.1 List.mem_cons_self
  simpa using Ne.symm hne

/-- The listed directories of a valid tree are those that its routes lead to. -/
theorem node?_of_mem_directories {r : Route} (h : r ∈ t.directories) :
    t.node? r = some .directory := by
  rcases List.mem_cons.1 h with rfl | h
  · rfl
  · obtain ⟨e, he, rfl⟩ := List.mem_map.1 h
    obtain ⟨hmem, hdirectory⟩ := List.mem_filter.1 he
    rw [ht.node?_of_mem hmem, of_decide_eq_true hdirectory]

end Valid

/-! ## Writing an entry -/

/-- A write keeps the routes of the entries and their order, and puts a new one last. -/
theorem map_fst_putNode (r : Route) (n : Node) (l : List (Route × Node)) :
    (putNode r n l).map Prod.fst =
      if r ∈ l.map Prod.fst then l.map Prod.fst else l.map Prod.fst ++ [r] := by
  induction l with
  | nil => simp [putNode]
  | cons e l ih =>
    obtain ⟨q, m⟩ := e
    rw [putNode]
    split
    · next h => simp [h]
    · next h =>
      rw [List.map_cons, ih, List.map_cons]
      have hne : r ≠ q := Ne.symm h
      by_cases hr : r ∈ l.map Prod.fst
      · rw [if_pos hr, if_pos (List.mem_cons_of_mem _ hr)]
      · rw [if_neg hr, if_neg (by rw [List.mem_cons]; exact not_or.2 ⟨hne, hr⟩), List.cons_append]

theorem mem_putNode {r : Route} {n : Node} {l : List (Route × Node)} {e : Route × Node}
    (h : e ∈ putNode r n l) : e = (r, n) ∨ e ∈ l := by
  induction l with
  | nil => exact .inl (List.mem_singleton.1 h)
  | cons a l ih =>
    rw [putNode] at h
    split at h
    · rcases List.mem_cons.1 h with h | h
      · exact .inl h
      · exact .inr (List.mem_cons_of_mem _ h)
    · rcases List.mem_cons.1 h with h | h
      · exact .inr (h ▸ List.mem_cons_self)
      · exact (ih h).imp_right (List.mem_cons_of_mem _)

/-- **Writing a file keeps the tree valid**, if its directory is there and it is not written over a
directory. -/
theorem Valid.put {t : Tree} (ht : t.Valid) {r : Route} (hr : r ≠ []) (hnamed : IsNamed r)
    (hparent : t.node? r.dropLast = some .directory) (hn : t.node? r ≠ some .directory)
    (f : File) : (t.put r (.file f)).Valid := by
  have hkeep : ∀ q, t.node? q = some .directory →
      (t.put r (.file f)).node? q = some .directory := by
    intro q hq
    have hne : q ≠ r := by
      rintro rfl
      exact hn hq
    rw [node?_put hr, if_neg hne, hq]
  refine ⟨?_, fun e he => ?_, fun e he => ?_⟩
  · rw [routes, Tree.put, map_fst_putNode]
    split
    · exact ht.distinct
    · next hmem =>
      refine List.nodup_append.2 ⟨ht.distinct, by simp, ?_⟩
      intro a ha b hb heq
      rw [heq, List.mem_singleton.1 hb] at ha
      exact hmem ha
  · rcases mem_putNode he with rfl | he
    · exact ⟨hr, hnamed⟩
    · exact ht.named e he
  · rcases mem_putNode he with rfl | he
    · exact hkeep _ hparent
    · exact hkeep _ (ht.within e he)

/-! ## Taking an entry away -/

/-- An entry that was written goes with whatever was there before it: `erase` takes away all below
`r`. -/
theorem erase_put (t : Tree) (r : Route) (n : Node) : (t.put r n).erase r = t.erase r := by
  refine congrArg Tree.mk ?_
  rw [put]
  dsimp only
  induction t.nodes with
  | nil => simp [putNode]
  | cons e l ih =>
    obtain ⟨q, m⟩ := e
    rw [putNode]
    by_cases hq : q = r
    · rw [if_pos hq]
      simp [hq]
    · rw [if_neg hq, List.filter_cons, List.filter_cons, ih]

/-- Where no entry is there is none below in a valid tree, so there is nothing to take away. -/
theorem Valid.erase_of_none {t : Tree} (ht : t.Valid) {r : Route} (hr : t.node? r = none) :
    t.erase r = t := by
  refine congrArg Tree.mk (List.filter_eq_self.2 fun e he => ?_)
  rw [Bool.not_eq_true', Bool.eq_false_iff, ne_eq, List.isPrefixOf_iff_prefix]
  rintro ⟨s, hs⟩
  have hsome := (mem_routes_iff (ht.named e he).1).1 (List.mem_map_of_mem he)
  obtain ⟨n, hn⟩ := Option.isSome_iff_exists.1 hsome
  rw [← hs] at hn
  by_cases hnil : s = []
  · rw [hnil, List.append_nil, hr] at hn
    cases hn
  · rw [ht.node?_of_append hn hnil] at hr
    cases hr

end Tree

end Transclude
