import Mathlib.Data.List.Basic
import Mathlib.Data.Prod.Lex
import Transclude.Lookup

/-!
# The order of a search

A search looks at one place after the other: from every start, at every level above it, under every
relative path. Each place has its turn, three numbers, and the turns come in lexicographic order
(`Lookup.Turn.key`). The places are spelled from the start part by part, one `..` for each level
(`Lookup.candidate`), so that the levels are counted afresh from every start.

That the first place that is accepted is the one whose turn comes first holds for every list in such
an order (`Lookup.find?_eq_some_iff_first`). So all that is shown of the search itself is that its
list of places is one (`Lookup.pairwise_probes`) and that it has the place of every turn
(`Lookup.mem_probes_iff`).

What the order gives away: more levels add turns in between, and may change what is found, but not
whether something is. More starts add turns at the end, and change nothing that is found.

Main statement: `Lookup.find_least`.
-/

namespace Transclude

namespace Lookup

/-! ## Turns -/

/-- When a search looks at a place: the number of the start, the level above it, and the number of
the relative path. -/
structure Turn where
  start : Nat
  level : Nat
  relative : Nat
  deriving DecidableEq, Repr

/-- Turns come in lexicographic order. -/
def Turn.key (t : Turn) : ℕ ×ₗ ℕ ×ₗ ℕ := toLex (t.start, toLex (t.level, t.relative))

/-- One turn comes before another by its start, then by its level, then by its relative path. -/
theorem Turn.key_lt_iff {s t : Turn} :
    s.key < t.key ↔ s.start < t.start ∨ s.start = t.start ∧
      (s.level < t.level ∨ s.level = t.level ∧ s.relative < t.relative) := by
  rw [key, key, Prod.Lex.toLex_lt_toLex, Prod.Lex.toLex_lt_toLex]

/-- **The first that is accepted** in a list in the order of the turns is the one with the least
turn. -/
theorem find?_eq_some_iff_first {l : List (Turn × Path)}
    (hl : l.Pairwise fun a b => a.1.key < b.1.key) {accept : Path → Bool} {c : Path} :
    (l.map Prod.snd).find? accept = some c ↔
      ∃ turn, (turn, c) ∈ l ∧ accept c = true ∧
        ∀ other ∈ l, accept other.2 = true → turn.key ≤ other.1.key := by
  induction l with
  | nil => simp
  | cons e l ih =>
    obtain ⟨turn, p⟩ := e
    obtain ⟨hfirst, hl⟩ := List.pairwise_cons.1 hl
    rw [List.map_cons, List.find?_cons]
    by_cases hp : accept p = true
    · rw [hp]
      show some p = some c ↔ _
      constructor
      · intro heq
        obtain rfl := Option.some.inj heq
        refine ⟨turn, List.mem_cons_self, hp, ?_⟩
        intro other hother _
        rcases List.mem_cons.1 hother with rfl | hother
        · exact le_refl _
        · exact le_of_lt (hfirst other hother)
      · intro h
        obtain ⟨turn', hmem, -, hleast⟩ := h
        rcases List.mem_cons.1 hmem with heq | hmem
        · rw [(Prod.mk.inj heq).2]
        · -- then its turn is behind that of `p`, which is accepted too
          have hle := hleast (turn, p) List.mem_cons_self hp
          exact absurd hle (not_le_of_gt (hfirst _ hmem))
    · rw [Bool.not_eq_true] at hp
      rw [hp]
      show (l.map Prod.snd).find? accept = some c ↔ _
      rw [ih hl]
      constructor
      · intro h
        obtain ⟨turn', hmem, hc, hleast⟩ := h
        refine ⟨turn', List.mem_cons_of_mem _ hmem, hc, ?_⟩
        intro other hother haccept
        rcases List.mem_cons.1 hother with rfl | hother
        · exact absurd (hp.symm.trans haccept) Bool.false_ne_true
        · exact hleast other hother haccept
      · intro h
        obtain ⟨turn', hmem, hc, hleast⟩ := h
        rcases List.mem_cons.1 hmem with heq | hmem
        · rw [(Prod.mk.inj heq).2, hp] at hc
          exact absurd hc Bool.false_ne_true
        · exact ⟨turn', hmem, hc, fun other hother =>
            hleast other (List.mem_cons_of_mem _ hother)⟩

/-! ## Places -/

/-- The parts that a search puts between an ancestor and the name: one of the relative paths, or
nothing if there are none. -/
def subpaths (relatives : List Path) : List (List Bytes) :=
  if relatives = [] then [[]] else relatives.map fun q => [q.bytes]

/-- The place for a name under the ancestor `level` levels above a start. -/
def candidate (start : Path) (level : Nat) (sub : List Bytes) (name : Text) : Path :=
  (List.replicate level [Path.point, Path.point] ++ sub ++ [name.bytes]).foldl Path.entry start

/-- An ancestor is spelled by one `..` for each level behind the start. -/
theorem above_eq (start : Path) (level : Nat) :
    above start level = (List.replicate level [Path.point, Path.point]).foldl Path.entry start := by
  induction level with
  | zero => rfl
  | succ level ih =>
    rw [above, ih, List.replicate_succ', List.foldl_append]
    rfl

/-- A `candidate` is the ancestor `above start level`, followed by the parts of its relative path
and the name. -/
theorem candidate_eq (start : Path) (level : Nat) (sub : List Bytes) (name : Text) :
    candidate start level sub name =
      (sub.foldl Path.entry (above start level)).entry name.bytes := by
  rw [candidate, List.foldl_append, List.foldl_append, ← above_eq]
  rfl

/-- The places of a search with their turns, in their order. -/
def probes (starts relatives : List Path) (maxUp : Nat) (name : Text) : List (Turn × Path) :=
  starts.zipIdx.flatMap fun s =>
    (List.range (maxUp + 1)).flatMap fun level =>
      (subpaths relatives).zipIdx.map fun sub =>
        (⟨s.2, level, sub.2⟩, candidate s.1 level sub.1 name)

section

variable {starts relatives : List Path} {maxUp : Nat} {name : Text}

/-- **Every place has its turn** in `probes`: each start, each level up to `maxUp`, and each
relative path. -/
theorem mem_probes_iff {turn : Turn} {c : Path} :
    (turn, c) ∈ probes starts relatives maxUp name ↔
      ∃ start sub, starts[turn.start]? = some start ∧ turn.level ≤ maxUp ∧
        (subpaths relatives)[turn.relative]? = some sub ∧
        c = candidate start turn.level sub name := by
  simp only [probes, List.mem_flatMap, List.mem_map, List.mem_range, Prod.mk.injEq]
  constructor
  · intro h
    obtain ⟨s, hs, level, hlevel, sub, hsub, rfl, rfl⟩ := h
    exact ⟨s.1, sub.1, List.mem_zipIdx_iff_getElem?.1 hs, Nat.le_of_lt_succ hlevel,
      List.mem_zipIdx_iff_getElem?.1 hsub, rfl⟩
  · intro h
    obtain ⟨start, sub, hstart, hlevel, hsub, rfl⟩ := h
    exact ⟨(start, turn.start), List.mk_mem_zipIdx_iff_getElem?.2 hstart, turn.level,
      Nat.lt_succ_of_le hlevel, (sub, turn.relative), List.mk_mem_zipIdx_iff_getElem?.2 hsub,
      rfl, rfl⟩

/-- The numbers of a list that is numbered through rise. -/
theorem pairwise_zipIdx {α : Type} (l : List α) : l.zipIdx.Pairwise fun a b => a.2 < b.2 := by
  have hnumbers : (l.zipIdx.map Prod.snd).Pairwise (· < ·) := by
    rw [List.zipIdx_map_snd]
    exact List.pairwise_lt_range' 1
  exact List.pairwise_map.1 hnumbers

/-- **The turns come in their order**: `probes` is sorted by `Turn.key`. -/
theorem pairwise_probes :
    (probes starts relatives maxUp name).Pairwise fun a b => a.1.key < b.1.key := by
  refine List.pairwise_flatMap.2 ⟨fun s _ => List.pairwise_flatMap.2 ⟨fun level _ => ?_, ?_⟩, ?_⟩
  · -- one level above one start
    refine List.pairwise_map.2 ((pairwise_zipIdx _).imp fun h => ?_)
    exact Turn.key_lt_iff.2 (.inr ⟨rfl, .inr ⟨rfl, h⟩⟩)
  · -- two levels above one start
    refine List.pairwise_lt_range.imp fun hlevel a ha b hb => ?_
    obtain ⟨_, _, rfl⟩ := List.mem_map.1 ha
    obtain ⟨_, _, rfl⟩ := List.mem_map.1 hb
    exact Turn.key_lt_iff.2 (.inr ⟨rfl, .inl hlevel⟩)
  · -- two starts
    refine (pairwise_zipIdx starts).imp fun hstart a ha b hb => ?_
    obtain ⟨_, _, ha⟩ := List.mem_flatMap.1 ha
    obtain ⟨_, _, rfl⟩ := List.mem_map.1 ha
    obtain ⟨_, _, hb⟩ := List.mem_flatMap.1 hb
    obtain ⟨_, _, rfl⟩ := List.mem_map.1 hb
    exact Turn.key_lt_iff.2 (.inl hstart)

/-- The places under one ancestor, in the order of the relative paths. Without any the place is the
ancestor itself. -/
theorem map_candidate (start : Path) (level : Nat) :
    ((subpaths relatives).map fun sub => candidate start level sub name) =
      (if relatives = [] then [Path.empty] else relatives).map
        fun q => ((above start level).join q).entry name.bytes := by
  simp only [candidate_eq]
  rw [subpaths]
  split
  · rw [List.map_singleton, List.map_singleton, Path.entry_join_empty]
    rfl
  · rw [List.map_map]
    rfl

/-- **The places that a search goes through**, `candidates`, are those of its turns in `probes`. -/
theorem map_snd_probes :
    (probes starts relatives maxUp name).map Prod.snd =
      candidates starts (if relatives = [] then [Path.empty] else relatives) maxUp name := by
  have hplaces : ∀ start level,
      ((subpaths relatives).zipIdx.map fun sub => candidate start level sub.1 name) =
        (if relatives = [] then [Path.empty] else relatives).map
          fun q => ((above start level).join q).entry name.bytes := by
    intro start level
    calc ((subpaths relatives).zipIdx.map fun sub => candidate start level sub.1 name)
        = ((subpaths relatives).zipIdx.map Prod.fst).map
            fun sub => candidate start level sub name := by
          rw [List.map_map]
          rfl
      _ = (subpaths relatives).map fun sub => candidate start level sub name := by
          rw [List.zipIdx_map_fst]
      _ = _ := map_candidate start level
  rw [probes, candidates, List.map_flatMap]
  simp only [List.map_flatMap, List.map_map]
  conv_rhs => rw [← List.zipIdx_map_fst 0 starts, List.flatMap_map]
  exact List.flatMap_congr fun s _ => List.flatMap_congr fun level _ => hplaces s.1 level

end

/-! ## The search -/

section

variable {accept : Path → Bool} {name : Text} {starts relatives : List Path}

/-- A search for a name that is not blank takes the first place in `probes` that it accepts, if no
relative path starts at the root. -/
theorem find_eq (hname : Text.allBlank name = false)
    (hrelatives : ∀ q ∈ relatives, q.isRooted = false) (maxUp : Nat) :
    find accept name starts relatives maxUp =
      (((probes starts relatives maxUp name).map Prod.snd).find? accept).elim
        (.error (.notFound name)) .ok := by
  have hrooted : relatives.find? Path.isRooted = none := by
    refine List.find?_eq_none.2 fun q hq => ?_
    rw [hrelatives q hq]
    exact Bool.false_ne_true
  rw [find, hname, if_neg Bool.false_ne_true, hrooted, map_snd_probes]
  dsimp only
  generalize (candidates _ _ _ _).find? accept = found
  cases found with
  | none => rfl
  | some c => rfl

end

/-- Whether a search has a hit in a turn: its place, which is accepted. -/
def Hits (accept : Path → Bool) (name : Text) (starts relatives : List Path) (maxUp : Nat)
    (turn : Turn) (c : Path) : Prop :=
  (∃ start sub, starts[turn.start]? = some start ∧ turn.level ≤ maxUp ∧
    (subpaths relatives)[turn.relative]? = some sub ∧ c = candidate start turn.level sub name) ∧
  accept c = true

/-- What a search comes to. -/
structure FindsLeast (accept : Path → Bool) (name : Text) (starts relatives : List Path)
    (maxUp : Nat) : Prop where
  /-- It finds the hit with the least turn. -/
  least : ∀ c, find accept name starts relatives maxUp = .ok c ↔
    ∃ turn, Hits accept name starts relatives maxUp turn c ∧
      ∀ other c', Hits accept name starts relatives maxUp other c' → turn.key ≤ other.key
  /-- It finds something if there is a hit. -/
  found : (∃ c, find accept name starts relatives maxUp = .ok c) ↔
    ∃ turn c, Hits accept name starts relatives maxUp turn c
  /-- It fails otherwise, and then only because nothing is found. -/
  missed : ∀ e, find accept name starts relatives maxUp = .error e ↔
    e = .notFound name ∧ ∀ turn c, ¬Hits accept name starts relatives maxUp turn c
  /-- With more levels it finds something as well. -/
  higher : ∀ more, maxUp ≤ more → (∃ c, find accept name starts relatives maxUp = .ok c) →
    ∃ c, find accept name starts relatives more = .ok c
  /-- With more starts behind the others it finds the same. -/
  further : ∀ more c, find accept name starts relatives maxUp = .ok c →
    find accept name (starts ++ more) relatives maxUp = .ok c

section

variable {accept : Path → Bool} {name : Text} {starts relatives : List Path} {maxUp : Nat}

/-- A turn hits if it is one of the search and its place is accepted. -/
theorem hits_iff {turn : Turn} {c : Path} :
    Hits accept name starts relatives maxUp turn c ↔
      (turn, c) ∈ probes starts relatives maxUp name ∧ accept c = true := by
  rw [Hits, mem_probes_iff]

/-- A hit stays one when the search may go up more levels. -/
theorem Hits.higher {turn : Turn} {c : Path}
    (h : Hits accept name starts relatives maxUp turn c) {more : Nat} (hmore : maxUp ≤ more) :
    Hits accept name starts relatives more turn c := by
  obtain ⟨⟨start, sub, hstart, hlevel, hsub, hc⟩, haccept⟩ := h
  exact ⟨⟨start, sub, hstart, Nat.le_trans hlevel hmore, hsub, hc⟩, haccept⟩

variable (hname : Text.allBlank name = false) (hrelatives : ∀ q ∈ relatives, q.isRooted = false)

include hname hrelatives

theorem find_eq_ok_iff {c : Path} :
    find accept name starts relatives maxUp = .ok c ↔
      ((probes starts relatives maxUp name).map Prod.snd).find? accept = some c := by
  rw [find_eq hname hrelatives]
  cases ((probes starts relatives maxUp name).map Prod.snd).find? accept with
  | none => simp
  | some c' => simp

/-- A search fails only if no turn hits, and then the error shows the name. -/
theorem find_eq_error_iff {e : Error} :
    find accept name starts relatives maxUp = .error e ↔
      e = .notFound name ∧ ∀ turn c, ¬Hits accept name starts relatives maxUp turn c := by
  have hnone : ((probes starts relatives maxUp name).map Prod.snd).find? accept = none ↔
      ∀ turn c, ¬Hits accept name starts relatives maxUp turn c := by
    simp only [List.find?_eq_none, List.mem_map, hits_iff]
    constructor
    · intro h turn c hhit
      exact h c ⟨_, hhit.1, rfl⟩ hhit.2
    · intro h c hc haccept
      obtain ⟨e, hmem, rfl⟩ := hc
      exact h e.1 e.2 ⟨hmem, haccept⟩
  rw [find_eq hname hrelatives, ← hnone]
  cases ((probes starts relatives maxUp name).map Prod.snd).find? accept with
  | none => simp [eq_comm]
  | some c => simp

theorem exists_find_iff :
    (∃ c, find accept name starts relatives maxUp = .ok c) ↔
      ∃ turn c, Hits accept name starts relatives maxUp turn c := by
  constructor
  · intro h
    obtain ⟨c, hc⟩ := h
    obtain ⟨turn, hmem, haccept, -⟩ :=
      (find?_eq_some_iff_first pairwise_probes).1 ((find_eq_ok_iff hname hrelatives).1 hc)
    exact ⟨turn, c, hits_iff.2 ⟨hmem, haccept⟩⟩
  · intro h
    obtain ⟨turn, c, hhit⟩ := h
    cases hfind : find accept name starts relatives maxUp with
    | ok c => exact ⟨c, rfl⟩
    | error e => exact absurd hhit (((find_eq_error_iff hname hrelatives).1 hfind).2 turn c)

/-- **A search finds the least hit**, whatever it accepts: it goes through the starts, then through
the levels above a start, then through the relative paths. All that `FindsLeast` says follows from
the order of `probes`. -/
theorem find_least : FindsLeast accept name starts relatives maxUp where
  least c := by
    rw [find_eq_ok_iff hname hrelatives, find?_eq_some_iff_first pairwise_probes]
    constructor
    · intro h
      obtain ⟨turn, hmem, haccept, hleast⟩ := h
      refine ⟨turn, hits_iff.2 ⟨hmem, haccept⟩, ?_⟩
      intro other c' hother
      exact hleast (other, c') (hits_iff.1 hother).1 (hits_iff.1 hother).2
    · intro h
      obtain ⟨turn, hhit, hleast⟩ := h
      refine ⟨turn, (hits_iff.1 hhit).1, hhit.2, ?_⟩
      intro other hother haccept
      exact hleast other.1 other.2 (hits_iff.2 ⟨hother, haccept⟩)
  found := exists_find_iff hname hrelatives
  missed e := find_eq_error_iff hname hrelatives
  higher more hmore h := by
    obtain ⟨turn, c, hhit⟩ := (exists_find_iff hname hrelatives).1 h
    exact (exists_find_iff hname hrelatives).2 ⟨turn, c, hhit.higher hmore⟩
  further more c h := by
    rw [find_eq_ok_iff hname hrelatives, map_snd_probes, candidates] at h ⊢
    rw [List.flatMap_append, List.find?_append, h]
    rfl

end

/-- A file one level above a directory in which a directory has its name. -/
def shelves : Workspace where
  tree := ⟨[([.ofString "a"], .directory), ([.ofString "a", .ofString "b"], .directory),
    ([.ofString "a", .ofString "b", .ofString "x"], .directory),
    ([.ofString "a", .ofString "x"], .file ⟨.text [], 0o644⟩)]⟩
  cwd := []

/-- On the `shelves` the directory `a/b/x` is passed over, and starts behind the first do not
matter. -/
theorem find_least_shelves :
    find shelves.isFile ['x'] [.ofString "a/b"] [] 1 = .ok (.ofString "a/b/../x") ∧
      ∀ more, find shelves.isFile ['x'] (.ofString "a/b" :: more) [] 1 =
        .ok (.ofString "a/b/../x") := by
  have hleast : FindsLeast shelves.isFile ['x'] [.ofString "a/b"] [] 1 :=
    find_least (by decide) (by decide)
  have hhit : Hits shelves.isFile ['x'] [.ofString "a/b"] [] 1 ⟨0, 1, 0⟩ (.ofString "a/b/../x") :=
    ⟨⟨_, _, rfl, by decide, rfl, by decide +kernel⟩, by decide +kernel⟩
  have hfirst : ∀ other c', Hits shelves.isFile ['x'] [.ofString "a/b"] [] 1 other c' →
      Turn.key ⟨0, 1, 0⟩ ≤ other.key := by
    intro other c' hother
    by_contra hlt
    obtain ⟨start, level, relative⟩ := other
    obtain ⟨⟨_, _, hstart, -, hsub, rfl⟩, haccept⟩ := hother
    have hturn := Turn.key_lt_iff.1 (not_le.1 hlt)
    simp only [Nat.not_lt_zero, false_or, and_false, or_false, Nat.lt_one_iff] at hturn
    obtain ⟨rfl, rfl⟩ := hturn
    have hnone : relative = 0 := by
      have hlength := (List.getElem?_eq_some_iff.1 hsub).1
      have hone : (subpaths []).length = 1 := rfl
      dsimp only at hlength
      omega
    subst hnone
    obtain rfl := Option.some.inj hstart
    obtain rfl := Option.some.inj hsub
    exact absurd haccept (by decide +kernel)
  have hfind := (hleast.least _).2 ⟨_, hhit, hfirst⟩
  exact ⟨hfind, fun more => hleast.further more _ hfind⟩

end Lookup

end Transclude
