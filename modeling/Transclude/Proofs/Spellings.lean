import Transclude.Tree.Storage
import Mathlib.Data.List.Basic
import Mathlib.Logic.Function.Iterate

/-!
# Spellings of a path

A file may be named by many paths: relative ones, and ones with parts `.` and `..`. Its scope is
found from the path alone: the path is made absolute as it is spelled, and then its last parts are
taken away, one for each directory to go up. That is the directory meant as long as the parts that
are taken away are names. Behind `b/..` the directory above is found by taking away the `..`, which
leads into `b`.

The path is looked at as the moves that it makes from the root (`Workspace.moves`). Where no links
are, moves are followed one by one (`Tree.Passes`), and where they lead is a matter of the moves
alone (`Route.after`). So the two sides can be compared: taking away moves from the end, and going
up from the directory that they lead to (`Route.after_take_of_names`).

Main statements:
- `Path.absolute_eq`, `Path.IsLead.climb_eq`: the paths that a scope is found with.
- `Tree.passes_of_take`: what is known of moves that lead to a file.
- `Scope.around_eq`: where the scope of a file lies.
- `Scope.alike_iff`: when that is the scope of its canonical path.
-/

namespace Transclude

/-! ## Paths with given parts -/

namespace Path

/-- Whether steps are moves: none of them stays, and they go down to what can be a name. -/
structure AreMoves (ms : List Step) : Prop where
  moves : .here ∉ ms
  named : AreNamed ms

theorem AreMoves.of_subset {ms ms' : List Step} (h : AreMoves ms) (hsub : ms' ⊆ ms) :
    AreMoves ms' where
  moves hm := h.moves (hsub hm)
  named name hname := h.named name (hsub hname)

/-- What is spelled before the first part of a path from the root: a slash, or two. -/
def IsLead (lead : List Bytes) : Prop := lead = [] ∨ lead = [[]]

/-- The path from the root with some moves as its parts. -/
def ofMoves (lead : List Bytes) (ms : List Step) : Path := ofRoute (lead ++ ms.map Step.bytes)

/-- The path with no moves is the root, however it is spelled. -/
theorem IsLead.ofMoves_nil {lead : List Bytes} (h : IsLead lead) : ofMoves lead [] = ⟨[slash]⟩ := by
  rcases h with rfl | rfl <;> rfl

theorem ofMoves_route (r : Route) : ofMoves [] (r.map .down) = ofRoute r := by
  rw [ofMoves, List.map_map, List.nil_append]
  exact congrArg ofRoute (List.map_id r)

/-- What a move is spelled as. -/
structure IsPart (t : Bytes) : Prop where
  ne_nil : t ≠ []
  not_isIdle : isIdle t = false
  slashless : slash ∉ t

theorem IsPart.isRooted {t : Bytes} (h : IsPart t) : Path.isRooted ⟨t⟩ = false := by
  obtain ⟨c, t, rfl⟩ := List.exists_cons_of_ne_nil h.ne_nil
  have hc : c ≠ slash := by
    rintro rfl
    exact h.slashless List.mem_cons_self
  simp [Path.isRooted, hc]

section

variable {ms : List Step}

theorem AreMoves.isPart {m : Step} (h : AreMoves ms) (hm : m ∈ ms) : IsPart m.bytes := by
  cases m with
  | here => exact absurd hm h.moves
  | up => exact ⟨by simp [Step.bytes], by decide, by decide⟩
  | down name =>
    have hname := h.named name hm
    exact ⟨hname.1, hname.not_isIdle, hname.2.2.2⟩

theorem AreMoves.ofSegment?_bytes {m : Step} (h : AreMoves ms) (hm : m ∈ ms) :
    Step.ofSegment? m.bytes = some m := by
  cases m with
  | here => exact absurd hm h.moves
  | up => rfl
  | down name => exact (h.named name hm).ofSegment?

theorem AreMoves.filterMap_bytes (h : AreMoves ms) :
    (ms.map Step.bytes).filterMap Step.ofSegment? = ms := by
  induction ms with
  | nil => rfl
  | cons m ms ih =>
    rw [List.map_cons, List.filterMap_cons, h.ofSegment?_bytes List.mem_cons_self,
      ih (h.of_subset (List.subset_cons_self m ms))]

variable {lead : List Bytes} (hlead : IsLead lead)

include hlead

theorem IsLead.slashless (h : AreMoves ms) : ∀ s ∈ lead ++ ms.map Step.bytes, slash ∉ s := by
  intro s hs
  rcases List.mem_append.1 hs with hs | hs
  · rcases hlead with rfl | rfl
    · cases hs
    · rw [List.mem_singleton.1 hs]
      exact List.not_mem_nil
  · obtain ⟨m, hm, rfl⟩ := List.mem_map.1 hs
    exact (h.isPart hm).slashless

/-- The parts of `ofMoves lead ms` between its slashes are the names of `lead` and of the moves,
behind an empty one. -/
theorem IsLead.segments_ofMoves (h : AreMoves ms) (hms : ms ≠ []) :
    (ofMoves lead ms).segments = [] :: (lead ++ ms.map Step.bytes) :=
  segments_of_slashless (by simp [hms]) (hlead.slashless h)

omit hlead in
/-- The path `ofMoves` with a move more is spelled as one name more of a canonical path. -/
theorem ofMoves_concat (m : Step) :
    ofMoves lead (ms ++ [m]) = ofRoute ((lead ++ ms.map Step.bytes) ++ [m.bytes]) := by
  rw [ofMoves, List.map_append, List.append_assoc]
  rfl

omit hlead in
theorem getLast?_ofMoves (h : AreMoves ms) (hms : ms ≠ []) :
    (ofMoves lead ms).bytes.getLast? ≠ some slash := by
  rw [← List.dropLast_concat_getLast hms, ofMoves_concat]
  have hpart := h.isPart (List.getLast_mem hms)
  exact getLast?_ofRoute_concat _ hpart.ne_nil hpart.slashless

/-- The steps of `ofMoves lead ms` are its moves, so no part is lost or added. -/
theorem IsLead.steps_ofMoves (h : AreMoves ms) (hms : ms ≠ []) : (ofMoves lead ms).steps = ms := by
  have hidle : lead.filterMap Step.ofSegment? = [] := by
    rcases hlead with rfl | rfl <;> rfl
  rw [steps, hlead.segments_ofMoves h hms, if_neg (getLast?_ofMoves h hms), List.append_nil,
    List.filterMap_cons, List.filterMap_append, hidle, h.filterMap_bytes]
  rfl

theorem IsLead.trimmed_ofMoves {m : Step} (h : AreMoves (ms ++ [m])) :
    (ofMoves lead (ms ++ [m])).trimmed = ([], lead ++ ms.map Step.bytes ++ [m.bytes]) := by
  have hpart := h.isPart (List.mem_append_right _ List.mem_cons_self)
  rw [trimmed, hlead.segments_ofMoves h (by simp), List.map_append, ← List.append_assoc]
  exact congrArg (Prod.mk []) (dropIdle_concat hpart.not_isIdle)

/-- **The parent of a path with moves** has a move less. -/
theorem IsLead.parent?_ofMoves {m : Step} (h : AreMoves (ms ++ [m])) :
    (ofMoves lead (ms ++ [m])).parent? = some (ofMoves lead ms) := by
  obtain ⟨a, l, hl⟩ := List.exists_cons_of_ne_nil
    (List.append_ne_nil_of_right_ne_nil (lead ++ ms.map Step.bytes) (List.cons_ne_nil m.bytes []))
  rw [parent?, hlead.trimmed_ofMoves h, hl]
  dsimp only
  rw [← hl, List.dropLast_concat]
  rcases List.eq_nil_or_concat' ms with rfl | ⟨ms', m', rfl⟩
  · rcases hlead with rfl | rfl <;> rfl
  · have hpart := h.isPart (m := m') (by simp)
    rw [List.map_append, ← List.append_assoc]
    have hidle : dropIdle (lead ++ ms'.map Step.bytes ++ [m'].map Step.bytes) =
        lead ++ ms'.map Step.bytes ++ [m'.bytes] := dropIdle_concat hpart.not_isIdle
    rw [hidle, ofMoves_concat, ofRoute_eq_ofSegments (by simp)]
    split
    · next hnil => simp at hnil
    · rfl

theorem IsLead.parent?_root : (ofMoves lead []).parent? = none := by
  rw [hlead.ofMoves_nil]
  rfl

omit hlead in
/-- An entry of `ofMoves lead ms` has a move more, at the root too if that is one slash. -/
theorem entry_ofMoves {m : Step} (h : AreMoves (ms ++ [m])) (hms : ms ≠ [] ∨ lead = []) :
    (ofMoves lead ms).entry m.bytes = ofMoves lead (ms ++ [m]) := by
  have hpart := h.isPart (List.mem_append_right _ List.mem_cons_self)
  rw [entry, join, if_neg (by simp [hpart.isRooted]), ofMoves_concat]
  by_cases hnil : ms = []
  · obtain rfl := hms.resolve_left (fun hne => hne hnil)
    subst hnil
    rw [if_pos (.inr rfl)]
    simp [ofMoves, ofRoute]
  · have hlast : (ofMoves lead ms).bytes.getLast? ≠ some slash :=
      getLast?_ofMoves (h.of_subset (List.subset_append_left ms [m])) hnil
    have htext : (ofMoves lead ms).bytes ≠ [] := bytes_ofRoute_ne_nil _
    rw [if_neg (not_or.2 ⟨htext, hlast⟩), ofMoves]
    rw [← bytes_ofRoute_concat (by simp [hnil])]

end

/-! ## Climbing -/

/-- **Going up** from such a path `up` times takes that many of its last moves away, whatever they
are. -/
theorem IsLead.climb_eq {lead : List Bytes} (hlead : IsLead lead) {ms : List Step}
    (h : AreMoves ms) (up : Nat) (down : Depth) :
    Scope.climb up (ofMoves lead ms) down =
      (ofMoves lead (ms.take (ms.length - up)), Depth.ascend^[min up ms.length] down) := by
  induction up generalizing ms down with
  | zero => rw [Scope.climb, Nat.sub_zero, List.take_length, Nat.zero_min]; rfl
  | succ up ih =>
    rcases List.eq_nil_or_concat' ms with rfl | ⟨ms', m, rfl⟩
    · rw [Scope.climb, hlead.parent?_root]
      simp
    · rw [Scope.climb, hlead.parent?_ofMoves h]
      dsimp only
      rw [ih (h.of_subset (List.subset_append_left ms' [m])), List.length_append,
        List.length_singleton, Nat.add_sub_add_right, Nat.add_min_add_right,
        Function.iterate_succ_apply,
        List.take_append_of_le_length (Nat.sub_le _ _)]

/-! ## Absolute paths -/

/-- The moves of a path as it is spelled. -/
def moves (p : Path) : List Step := p.steps.filter (· ≠ .here)

/-- The moves of a canonical path go down its route. -/
theorem moves_ofRoute {r : Route} (h : IsNamed r) : (ofRoute r).moves = r.map .down := by
  by_cases hr : r = []
  · rw [hr]
    rfl
  · rw [moves, steps_ofRoute hr h]
    exact List.filter_eq_self.2 fun m hm => by
      obtain ⟨name, -, rfl⟩ := List.mem_map.1 hm
      rfl

/-- The moves of any path are moves: its steps without those that stay. -/
theorem areMoves_moves (p : Path) : AreMoves p.moves where
  moves h := by simpa using (List.mem_filter.1 h).2
  named name h := p.areNamed_steps name (List.mem_filter.1 h).1

theorem areMoves_append {ms ms' : List Step} (h : AreMoves ms) (h' : AreMoves ms') :
    AreMoves (ms ++ ms') where
  moves hm := (List.mem_append.1 hm).elim h.moves h'.moves
  named name hm := (List.mem_append.1 hm).elim (h.named name) (h'.named name)

theorem areMoves_route {r : Route} (h : IsNamed r) : AreMoves (r.map .down) where
  moves hm := by simp at hm
  named name hm := by
    obtain ⟨n, hn, heq⟩ := List.mem_map.1 hm
    cases heq
    exact h _ hn

/-- Parts that are put behind a path one by one are moves behind its moves. -/
theorem foldl_entry {lead : List Bytes} {ms ms' : List Step} (h : AreMoves (ms ++ ms'))
    (hms : ms ≠ [] ∨ lead = []) :
    ms'.foldl (fun dir m => dir.entry m.bytes) (ofMoves lead ms) = ofMoves lead (ms ++ ms') := by
  induction ms' generalizing ms with
  | nil => rw [List.append_nil]; rfl
  | cons m ms' ih =>
    rw [List.append_cons] at h ⊢
    rw [List.foldl_cons, entry_ofMoves (h.of_subset (List.subset_append_left _ _)) hms]
    exact ih h (.inl (by simp))

/-- The first move from a root, which may be spelled with two slashes, and then the others. -/
theorem foldl_entry_root {base : Path} {lead : List Bytes} {ms : List Step} (h : AreMoves ms)
    (hms : ms ≠ []) (hbase : ∀ m ∈ ms, base.entry m.bytes = ofMoves lead [m]) :
    ms.foldl (fun dir m => dir.entry m.bytes) base = ofMoves lead ms := by
  obtain ⟨m, ms', rfl⟩ := List.exists_cons_of_ne_nil hms
  rw [List.foldl_cons, hbase m List.mem_cons_self]
  exact foldl_entry h (.inl (List.cons_ne_nil m []))

theorem AreMoves.entry_slash {ms : List Step} (h : AreMoves ms) :
    ∀ m ∈ ms, (⟨[slash]⟩ : Path).entry m.bytes = ofMoves [] [m] := by
  intro m hm
  have hmove : AreMoves ([] ++ [m]) := h.of_subset (by simpa using hm)
  exact entry_ofMoves hmove (.inr rfl)

theorem AreMoves.entry_slashes {ms : List Step} (h : AreMoves ms) :
    ∀ m ∈ ms, (⟨[slash, slash]⟩ : Path).entry m.bytes = ofMoves [[]] [m] := by
  intro m hm
  have hrooted := (h.isPart hm).isRooted
  rw [entry, join, if_neg (by simp [hrooted]), if_pos (.inr rfl)]
  simp [ofMoves, ofRoute]

/-- **A path made absolute** has the moves of the current directory before its own, if it starts
there. Only its `lead` tells how the root is spelled. -/
theorem absolute_eq {p : Path} (htext : p.bytes ≠ []) (hlast : p.bytes.getLast? ≠ some slash)
    (hmoves : p.moves ≠ []) {cwd : Route} (hcwd : IsNamed cwd) :
    ∃ lead, IsLead lead ∧ p.absolute (.ofRoute cwd) =
      ofMoves lead ((if p.isRooted then [] else cwd.map .down) ++ p.moves) := by
  have hparts : (p.segments.filterMap Step.ofSegment?).filter (· ≠ .here) = p.moves := by
    rw [moves, steps, if_neg hlast, List.append_nil]
  rw [absolute, if_neg htext, if_neg hlast, hparts]
  cases hrooted : p.isRooted with
  | false =>
    refine ⟨[], .inl rfl, ?_⟩
    rw [← ofMoves_route]
    exact foldl_entry (areMoves_append (areMoves_route hcwd) p.areMoves_moves) (.inr rfl)
  | true =>
    simp only [Bool.not_true, Bool.false_eq_true, if_false, if_true, List.nil_append]
    have hmoves' := p.areMoves_moves
    split
    · exact ⟨[], .inl rfl, foldl_entry_root hmoves' hmoves hmoves'.entry_slash⟩
    · exact ⟨[[]], .inr rfl, foldl_entry_root hmoves' hmoves hmoves'.entry_slashes⟩
    · exact ⟨[], .inl rfl, foldl_entry_root hmoves' hmoves hmoves'.entry_slash⟩

/-- A canonical path begins with one slash. -/
theorem bytes_ofRoute_ne_slashes {r : Route} (h : IsNamed r) (rest : Bytes) :
    (ofRoute r).bytes ≠ slash :: slash :: rest := by
  intro heq
  have hhead := congrArg List.head? (List.cons.inj heq).2
  cases r with
  | nil => cases hhead
  | cons n r =>
    obtain ⟨hne, -, -, hslash⟩ := h n List.mem_cons_self
    obtain ⟨c, n, rfl⟩ := List.exists_cons_of_ne_nil hne
    have hc : c = slash := by
      cases r with
      | nil => simpa using hhead
      | cons m r => simpa using hhead
    exact hslash (hc ▸ List.mem_cons_self)

/-- A canonical path is absolute as it is. -/
theorem absolute_ofRoute {r : Route} (hr : r ≠ []) (h : IsNamed r) (cwd : Path) :
    (ofRoute r).absolute cwd = ofRoute r := by
  have hlast := getLast?_ofRoute hr h
  have hmoves := areMoves_route h
  have hparts : ((ofRoute r).segments.filterMap Step.ofSegment?).filter (· ≠ .here) =
      r.map .down := by
    rw [← moves_ofRoute h, moves, steps, if_neg hlast, List.append_nil]
  rw [absolute, if_neg (bytes_ofRoute_ne_nil r), if_neg hlast, hparts, isRooted_ofRoute,
    Bool.not_true, if_neg Bool.false_ne_true]
  split
  · next htext => exact absurd htext (bytes_ofRoute_ne_slashes h _)
  · next htext => exact absurd htext (bytes_ofRoute_ne_slashes h _)
  · rw [← ofMoves_route]
    exact foldl_entry_root hmoves (by simpa using hr) hmoves.entry_slash

end Path

/-! ## Where moves lead -/

/-- Where steps lead that pass directories only. -/
def Route.after (base : Route) : List Path.Step → Route
  | [] => base
  | .here :: rest => after base rest
  | .up :: rest => after base.dropLast rest
  | .down name :: rest => after (base ++ [name]) rest

namespace Route

theorem after_append (base : Route) (a b : List Path.Step) :
    after base (a ++ b) = after (after base a) b := by
  induction a generalizing base with
  | nil => rfl
  | cons step a ih => cases step <;> exact ih _

theorem after_moves (base : Route) (a : List Path.Step) :
    after base (a.filter (· ≠ .here)) = after base a := by
  induction a generalizing base with
  | nil => rfl
  | cons step a ih => cases step <;> exact ih _

theorem after_names (base r : Route) : after base (r.map .down) = base ++ r := by
  induction r generalizing base with
  | nil => rw [List.append_nil]; rfl
  | cons name r ih =>
    rw [List.map_cons, after, ih, List.append_assoc]
    rfl

/-- A move leads one directory down at most. -/
theorem length_after_le (base : Route) (a : List Path.Step) :
    (after base a).length ≤ base.length + a.length := by
  induction a generalizing base with
  | nil => exact Nat.le_refl _
  | cons step a ih =>
    cases step with
    | here =>
      have h := ih base
      rw [after, List.length_cons]
      omega
    | up =>
      have h := ih base.dropLast
      rw [List.length_dropLast] at h
      rw [after, List.length_cons]
      omega
    | down name =>
      have h := ih (base ++ [name])
      rw [List.length_append, List.length_singleton] at h
      rw [after, List.length_cons]
      omega

/-- A move up is one that does not lead down, so fewer names are left. -/
theorem length_after_lt (base : Route) {a : List Path.Step} (h : .up ∈ a) :
    (after base a).length < base.length + a.length := by
  obtain ⟨l, m, rfl⟩ := List.append_of_mem h
  rw [after_append, after]
  have hl := length_after_le base l
  have hm := length_after_le (after base l).dropLast m
  rw [List.length_dropLast] at hm
  rw [List.length_append, List.length_cons]
  omega

end Route

/-- Whether an entry is a link. -/
def Node.isLink : Node → Bool
  | link _ => true
  | _ => false

namespace Tree

/-- Whether no entry is a link. -/
def LinkFree (t : Tree) : Prop := ∀ e ∈ t.nodes, e.2.isLink = false

instance (t : Tree) : Decidable t.LinkFree :=
  inferInstanceAs (Decidable (∀ e ∈ t.nodes, e.2.isLink = false))

theorem LinkFree.not_link {t : Tree} (h : t.LinkFree) (r : Route) (target : Path) :
    t.node? r ≠ some (.link target) := by
  intro hlink
  have hfree := h _ (mem_of_node? (ne_nil_of_node? hlink (by simp)) hlink)
  cases hfree

/-- Whether steps go down to directories only. -/
def Passes (t : Tree) (base : Route) : List Path.Step → Prop
  | [] => True
  | .here :: rest => Passes t base rest
  | .up :: rest => Passes t base.dropLast rest
  | .down name :: rest =>
    t.node? (base ++ [name]) = some .directory ∧ Passes t (base ++ [name]) rest

section

variable {t : Tree} {base : Route} {steps : List Path.Step}

theorem passes_append {a b : List Path.Step} :
    t.Passes base (a ++ b) ↔ t.Passes base a ∧ t.Passes (base.after a) b := by
  induction a generalizing base with
  | nil => exact (iff_of_eq (true_and _)).symm
  | cons step a ih =>
    cases step with
    | here => exact ih
    | up => exact ih
    | down name => rw [List.cons_append, Passes, Passes, ih, and_assoc]; rfl

theorem passes_moves : t.Passes base (steps.filter (· ≠ .here)) ↔ t.Passes base steps := by
  induction steps generalizing base with
  | nil => exact Iff.rfl
  | cons step steps ih =>
    cases step with
    | here => exact ih
    | up => exact ih
    | down name => exact and_congr_right fun _ => ih

/-- **Steps that pass** lead to where they would without a tree, whatever `f` answers for links. -/
theorem Passes.take_eq (h : t.Passes base steps)
    (f : Route → List Path.Step → Except Fault Route) :
    t.take f base steps = .ok (base.after steps) := by
  induction steps generalizing base with
  | nil => rfl
  | cons step steps ih =>
    cases step with
    | here => exact ih h
    | up => exact ih h
    | down name =>
      rw [take_down_directory h.1]
      exact ih h.2

variable (ht : t.Valid)

include ht

theorem passes_names {r : Route} (h : t.node? (base ++ r) = some .directory) :
    t.Passes base (r.map .down) := by
  induction r generalizing base with
  | nil => trivial
  | cons name r ih =>
    rw [List.append_cons] at h
    refine ⟨?_, ih h⟩
    by_cases hr : r = []
    · rwa [hr, List.append_nil] at h
    · exact ht.node?_of_append h hr

theorem Passes.node?_after (h : t.Passes base steps) (hbase : t.node? base = some .directory) :
    t.node? (base.after steps) = some .directory := by
  induction steps generalizing base with
  | nil => exact hbase
  | cons step steps ih =>
    cases step with
    | here => exact ih h hbase
    | up => exact ih h (ht.node?_dropLast hbase)
    | down name => exact ih h.2 h.1

/-- **Steps that lead to a file** pass directories, and go down to the file. -/
theorem passes_of_take (hlinks : t.LinkFree) {f : Route → List Path.Step → Except Fault Route}
    (hbase : t.node? base = some .directory) {r : Route} {file : File}
    (h : t.take f base steps = .ok r) (hr : t.node? r = some (.file file)) :
    ∃ above name, steps = above ++ [.down name] ∧ t.Passes base above ∧
      r = base.after above ++ [name] := by
  induction steps generalizing base with
  | nil =>
    obtain rfl := Except.ok.inj h
    rw [hbase] at hr
    cases hr
  | cons step steps ih =>
    cases step with
    | here =>
      obtain ⟨above, name, rfl, hpasses, rfl⟩ := ih hbase h
      exact ⟨.here :: above, name, rfl, hpasses, rfl⟩
    | up =>
      obtain ⟨above, name, rfl, hpasses, rfl⟩ := ih (ht.node?_dropLast hbase) h
      exact ⟨.up :: above, name, rfl, hpasses, rfl⟩
    | down n =>
      rw [take] at h
      split at h
      · next hn =>
        split at h
        · obtain rfl := Except.ok.inj h
          rw [hn] at hr
          cases hr
        · cases h
      · next hn =>
        obtain ⟨above, name, rfl, hpasses, rfl⟩ := ih hn h
        exact ⟨.down n :: above, name, rfl, ⟨hn, hpasses⟩, rfl⟩
      · split at h
        · next hrest =>
          obtain rfl := Except.ok.inj h
          exact ⟨[], n, by rw [hrest]; rfl, trivial, rfl⟩
        · cases h
      · next target hn => exact absurd hn (hlinks.not_link _ _)

end

end Tree

namespace Workspace

/-- The moves that a path makes from the root, as it is spelled. -/
def moves (w : Workspace) (p : Path) : List Path.Step :=
  (if p.isRooted then [] else w.cwd.map .down) ++ p.moves

section

variable {w : Workspace} (hw : w.Valid)

include hw

theorem areMoves_moves (p : Path) : Path.AreMoves (w.moves p) := by
  refine Path.areMoves_append ?_ p.areMoves_moves
  split
  · exact Path.areMoves_route IsNamed.nil
  · exact Path.areMoves_route (hw.tree.isNamed hw.cwd)

/-- A path with moves that pass leads to where they do. -/
theorem resolve_ofMoves {lead : List Bytes} (hlead : Path.IsLead lead) {ms : List Path.Step}
    (hms : Path.AreMoves ms) (hpasses : w.tree.Passes [] ms) :
    w.resolve (.ofMoves lead ms) = .ok (Route.after [] ms) := by
  by_cases hnil : ms = []
  · rw [hnil, hlead.ofMoves_nil]
    rfl
  · have htext : (Path.ofMoves lead ms).bytes ≠ [] := Path.bytes_ofRoute_ne_nil _
    have hrooted : (Path.ofMoves lead ms).isRooted = true := Path.isRooted_ofRoute _
    rw [resolve, if_neg htext, startOf, if_pos hrooted, hlead.steps_ofMoves hms hnil]
    refine Tree.follow_of_reach ?_ (hpasses.node?_after hw.tree rfl)
    rw [Tree.reach_eq_take]
    exact hpasses.take_eq _

/-- **The moves of a path to a file** pass directories, and go down to the file. -/
theorem moves_of_file (hlinks : w.tree.LinkFree) {p : Path} {r : Route} {f : File}
    (hp : w.resolve p = .ok r) (hf : w.tree.node? r = some (.file f)) :
    ∃ above name, w.moves p = above ++ [.down name] ∧ w.tree.Passes [] above ∧
      r = Route.after [] above ++ [name] ∧
      ∃ lead, Path.IsLead lead ∧ p.absolute w.currentPath = .ofMoves lead (w.moves p) := by
  rw [resolve] at hp
  split at hp
  · cases hp
  next htext =>
  obtain ⟨hreach, -⟩ := Tree.follow_eq_ok_iff.1 hp
  rw [Tree.reach_eq_take] at hreach
  obtain ⟨above, name, hsteps, hpasses, rfl⟩ :=
    Tree.passes_of_take hw.tree hlinks (node?_startOf hw p) hreach hf
  -- a slash at the end would ask for a directory
  have hlast : p.bytes.getLast? ≠ some Path.slash := by
    intro hslash
    rw [Path.steps, if_pos hslash] at hsteps
    cases (List.append_inj' hsteps rfl).2
  have hmoves : p.moves = above.filter (· ≠ .here) ++ [.down name] := by
    rw [Path.moves, hsteps, List.filter_append]
    rfl
  have hstart : Route.after [] (if p.isRooted then [] else w.cwd.map .down) = w.startOf p := by
    rw [startOf]
    split
    · rfl
    · exact Route.after_names [] w.cwd
  have hcwd : w.tree.Passes [] (if p.isRooted then [] else w.cwd.map .down) := by
    split
    · trivial
    · exact Tree.passes_names hw.tree hw.cwd
  refine ⟨(if p.isRooted then [] else w.cwd.map .down) ++ above.filter (· ≠ .here), name, ?_, ?_,
    ?_, ?_⟩
  · rw [moves, hmoves, List.append_assoc]
  · rw [Tree.passes_append, hstart, Tree.passes_moves]
    exact ⟨hcwd, hpasses⟩
  · rw [Route.after_append, hstart, Route.after_moves]
  · exact Path.absolute_eq htext hlast (by rw [hmoves]; simp) (hw.tree.isNamed hw.cwd)

end

end Workspace

namespace Route

/-- **Taking names away** from the end of moves is going up from where they lead. -/
theorem after_take_of_names {ms : List Path.Step} (hms : Path.AreMoves ms) {up : Nat}
    (h : .up ∉ ms.drop (ms.length - up)) :
    after [] (ms.take (ms.length - up)) = (after [] ms).take ((after [] ms).length - up) ∧
      min up ms.length = min up (after [] ms).length := by
  obtain ⟨names, hnames⟩ : ∃ names : Route, ms.drop (ms.length - up) = names.map .down := by
    have hdrop := hms.of_subset (List.drop_subset (ms.length - up) ms)
    generalize ms.drop (ms.length - up) = b at h hdrop
    induction b with
    | nil => exact ⟨[], rfl⟩
    | cons step b ih =>
      obtain ⟨names, rfl⟩ := ih (fun hup => h (List.mem_cons_of_mem _ hup))
        (hdrop.of_subset (List.subset_cons_self step b))
      cases step with
      | here => exact absurd List.mem_cons_self hdrop.moves
      | up => exact absurd List.mem_cons_self h
      | down name => exact ⟨name :: names, rfl⟩
  have hlength : names.length = ms.length - (ms.length - up) := by
    rw [← List.length_drop, hnames, List.length_map]
  have hafter : after [] ms = after [] (ms.take (ms.length - up)) ++ names := by
    conv_lhs => rw [← List.take_append_drop (ms.length - up) ms]
    rw [after_append, hnames, after_names]
  rw [hafter, List.length_append]
  by_cases hle : ms.length ≤ up
  · have htake : ms.take (ms.length - up) = [] := by
      rw [Nat.sub_eq_zero_of_le hle, List.take_zero]
    rw [htake, show after [] [] = [] from rfl, List.nil_append, List.length_nil, Nat.zero_add]
    have hnone : names.length - up = 0 := by omega
    rw [hnone, List.take_zero]
    exact ⟨rfl, by omega⟩
  · have hsub : (after [] (ms.take (ms.length - up))).length + names.length - up =
        (after [] (ms.take (ms.length - up))).length := by omega
    rw [hsub, List.take_left]
    exact ⟨rfl, by omega⟩

end Route

/-! ## Scopes -/

/-- A depth that is widened `k` times has `k` levels more, within 64 bits. -/
theorem Depth.iterate_ascend_levels (n : UInt64) (k : Nat) :
    ascend^[k] (levels n) = levels (n + UInt64.ofNat k) := by
  induction k with
  | zero => exact congrArg levels (UInt64.add_zero n).symm
  | succ k ih =>
    rw [Function.iterate_succ_apply', ih, ascend, UInt64.add_assoc, UInt64.ofNat_add]
    rfl

/-- The number of levels tells how often a depth was widened. -/
theorem Depth.ascend_iterate_inj {m n : Nat} (hm : m < UInt64.size) (hn : n < UInt64.size)
    (h : ascend^[m] (levels 0) = ascend^[n] (levels 0)) : m = n := by
  rw [iterate_ascend_levels, iterate_ascend_levels, UInt64.zero_add, UInt64.zero_add] at h
  have hvalue := congrArg UInt64.toNat (Depth.levels.inj h)
  rwa [UInt64.toNat_ofNat_of_lt' hm, UInt64.toNat_ofNat_of_lt' hn] at hvalue

namespace Scope

/-- The moves of a path that are taken away to find the scope `up` directories above its file. -/
def dropped (w : Workspace) (p : Path) (up : Nat) : List Path.Step :=
  let above := (w.moves p).dropLast
  above.drop (above.length - up)

/-- The root of a scope of the file at `r`. -/
def rootOf (r : Route) (up : Nat) : Route := r.dropLast.take (r.dropLast.length - up)

/-- **The scope of a canonical path** has a canonical path, which is that of `rootOf r up`. -/
theorem around_canonical {r : Route} (hr : r ≠ []) (h : IsNamed r) (cwd : Path) (up : Nat)
    (down : Depth) :
    around cwd (.ofRoute r) up down =
      (.ofRoute (rootOf r up), Depth.ascend^[min up r.dropLast.length] down) := by
  have hlead : Path.IsLead [] := .inl rfl
  rw [around, Path.absolute_ofRoute hr h, Path.directoryOf_ofRoute hr h, ← Path.ofMoves_route,
    hlead.climb_eq (Path.areMoves_route h.dropLast), List.length_map, ← List.map_take,
    Path.ofMoves_route, rootOf]

/-- The root of a scope has as many names less as the scope lies further up. -/
theorem length_rootOf (r : Route) (up : Nat) :
    (rootOf r up).length = r.dropLast.length - up := by
  rw [rootOf, List.length_take]
  omega

theorem rootOf_isPrefix (r : Route) (up : Nat) : rootOf r up <+: r.dropLast := List.take_prefix _ _

/-- The root of a scope is a directory. -/
theorem directory_rootOf {w : Workspace} (hw : w.Valid) {r : Route} {f : File}
    (hf : w.tree.node? r = some (.file f)) (up : Nat) :
    w.tree.node? (rootOf r up) = some .directory := by
  have hr := Tree.ne_nil_of_node? hf (by simp)
  obtain ⟨below, hsplit⟩ := rootOf_isPrefix r up
  have hbelow : rootOf r up ++ (below ++ [r.getLast hr]) = r := by
    rw [← List.append_assoc, hsplit, List.dropLast_append_getLast]
  rw [← hbelow] at hf
  exact hw.tree.node?_of_append hf (by simp)

/-- Whether two paths have the same scope: the same directory, and the same depth. -/
structure Alike (w : Workspace) (p q : Path) (up : Nat) (down : Depth) : Prop where
  depth : (around w.currentPath p up down).2 = (around w.currentPath q up down).2
  root : ∃ r, w.tree.node? r = some .directory ∧
    w.resolve (around w.currentPath p up down).1 = .ok r ∧
    w.resolve (around w.currentPath q up down).1 = .ok r

theorem Alike.symm {w : Workspace} {p q : Path} {up : Nat} {down : Depth}
    (h : Alike w p q up down) : Alike w q p up down := by
  obtain ⟨hdepth, r, hr, hp, hq⟩ := h
  exact ⟨hdepth.symm, r, hr, hq, hp⟩

theorem Alike.trans {w : Workspace} {p q s : Path} {up : Nat} {down : Depth}
    (h : Alike w p q up down) (h' : Alike w q s up down) : Alike w p s up down := by
  obtain ⟨hdepth, r, hr, hp, hq⟩ := h
  obtain ⟨hdepth', r', -, hq', hs⟩ := h'
  obtain rfl := Except.ok.inj (hq.symm.trans hq')
  exact ⟨hdepth.trans hdepth', r, hr, hp, hs⟩

section

variable {w : Workspace} (hw : w.Valid) (hlinks : w.tree.LinkFree) {p : Path} {r : Route}
  {f : File} (hp : w.resolve p = .ok r) (hf : w.tree.node? r = some (.file f))

include hw hlinks hp hf

/-- **Where the scope of a file lies**: where its path leads without its last moves. They are taken
away as they are spelled, be they names or not. -/
theorem around_eq (up : Nat) (down : Depth) :
    ∃ ms, ms = (w.moves p).dropLast ∧ Path.AreMoves ms ∧ r.dropLast = Route.after [] ms ∧
      (around w.currentPath p up down).2 = Depth.ascend^[min up ms.length] down ∧
      w.resolve (around w.currentPath p up down).1 =
        .ok (Route.after [] (ms.take (ms.length - up))) ∧
      w.tree.node? (Route.after [] (ms.take (ms.length - up))) = some .directory := by
  obtain ⟨above, name, hmoves, hpasses, rfl, lead, hlead, habsolute⟩ :=
    Workspace.moves_of_file hw hlinks hp hf
  have hall := Workspace.areMoves_moves hw p
  rw [hmoves] at hall
  have habove : Path.AreMoves above := hall.of_subset (List.subset_append_left above [.down name])
  have hdirectory : directoryOf (p.absolute w.currentPath) = .ofMoves lead above := by
    rw [habsolute, hmoves, directoryOf, hlead.parent?_ofMoves hall]
    exact if_neg (Path.bytes_ofRoute_ne_nil _)
  have hsplit := List.take_append_drop (above.length - up) above
  rw [← hsplit, Tree.passes_append] at hpasses
  refine ⟨above, by rw [hmoves, List.dropLast_concat], habove, List.dropLast_concat, ?_, ?_,
    hpasses.1.node?_after hw.tree rfl⟩
  · rw [around, hdirectory, hlead.climb_eq habove]
  · rw [around, hdirectory, hlead.climb_eq habove]
    exact Workspace.resolve_ofMoves hw hlead (habove.of_subset (List.take_subset _ _)) hpasses.1

omit hlinks hp in
/-- The scope of the canonical path is found by going up from the directory of the file. -/
theorem around_ofRoute (up : Nat) (down : Depth) :
    (around w.currentPath (.ofRoute r) up down).2 =
        Depth.ascend^[min up r.dropLast.length] down ∧
      w.resolve (around w.currentPath (.ofRoute r) up down).1 = .ok (rootOf r up) := by
  rw [around_canonical (Tree.ne_nil_of_node? hf (by simp)) (hw.tree.isNamed hf)]
  exact ⟨rfl, Workspace.resolve_ofRoute hw (directory_rootOf hw hf up) (by simp)⟩

/-- A path has the scope of the canonical path, if the parts that are taken away are names. -/
theorem alike_of_names {up : Nat} (h : .up ∉ dropped w p up) (down : Depth) :
    Alike w p (.ofRoute r) up down := by
  obtain ⟨ms, hms, hmoves, hr, hdepth, hroot, hdirectory⟩ := around_eq hw hlinks hp hf up down
  obtain ⟨hdepth', hroot'⟩ := around_ofRoute hw hf up down
  rw [dropped, ← hms] at h
  obtain ⟨htake, hmin⟩ := Route.after_take_of_names hmoves h
  refine ⟨?_, _, hdirectory, hroot, ?_⟩
  · rw [hdepth, hdepth', hmin, hr]
  · rw [hroot', htake, rootOf, hr]

/-- **When a path has the scope of the canonical path**, with any depth: if and only if the parts
that are taken away are names. Otherwise the two climbs end at different depths or in different
places. -/
theorem alike_iff {up : Nat} (hup : up < UInt64.size) :
    (∀ down, Alike w p (.ofRoute r) up down) ↔ .up ∉ dropped w p up := by
  refine ⟨fun h hmem => ?_, fun h => alike_of_names hw hlinks hp hf h⟩
  obtain ⟨hdepth, q, -, hq, hq'⟩ := h (.levels 0)
  obtain ⟨ms, hms, hmoves, hr, hdepth₁, hroot₁, -⟩ := around_eq hw hlinks hp hf up (.levels 0)
  obtain ⟨hdepth₂, hroot₂⟩ := around_ofRoute hw hf up (.levels 0)
  rw [dropped, ← hms] at hmem
  have hlevels : min up ms.length = min up r.dropLast.length := by
    rw [hdepth₁, hdepth₂] at hdepth
    exact Depth.ascend_iterate_inj (by omega) (by omega) hdepth
  have hroot : Route.after [] (ms.take (ms.length - up)) =
      r.dropLast.take (r.dropLast.length - up) :=
    Except.ok.inj (hroot₁.symm.trans (hq.trans (hq'.symm.trans hroot₂)))
  have hlt := Route.length_after_lt (Route.after [] (ms.take (ms.length - up))) hmem
  rw [← Route.after_append, List.take_append_drop, ← hr, hroot, List.length_take,
    List.length_drop] at hlt
  omega

end

end Scope

end Transclude
