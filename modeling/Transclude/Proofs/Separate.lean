import Transclude.Proofs.Frames
import Transclude.Proofs.LineEnds
import Transclude.Proofs.Settles

/-!
# Separate blocks

Whether a document settles depends on what is made of it. Most documents settle for simple reasons:
the blocks that are filled hold no directives and lie in no reference, and neither do the values
hold directives. `Fill.Separate` says this of a document and of what is filled into it. Then all
directives and all references stay what they are (`Piece.Kept`), and it makes no difference which
blocks are filled first.

Main statement: `Fill.Separate.settles`, such a document settles.
-/

namespace Transclude

namespace Fill

/-- What is put into the blocks of both kinds. -/
def insertedBoth (vars refs : Bindings) (t : Text) : List Text :=
  inserted .var vars none (Piece.ofText t) ++ inserted .inclusion refs none (Piece.ofText t)

/-- A document whose blocks lie apart from its other directives. -/
structure Separate (vars refs : Bindings) (t : Text) : Prop where
  unincluded : ∀ p ∈ Piece.ofText t, p.isIncludeMarker = false
  varsApart : Apart .var vars false none (Piece.ofText t)
  refsApart : Apart .inclusion refs false none (Piece.ofText t)
  undirected : ∀ v ∈ insertedBoth vars refs t, Piece.Undirected v
  varsUnread : ∀ s ∈ Piece.strays (varsRow vars t), Declaration.read? s = none
  bothUnread : ∀ s ∈ Piece.strays (bothRow vars refs t), Declaration.read? s = none
  /-- A backslash before a carriage return may end a declaration when line ends are unified. -/
  unified : ∀ p ∈ Piece.ofText t, p.isDeclaration = true → p.unify.isDeclaration = true

/-- A text `v` without directives closes no block. -/
theorem not_closes_of_undirected {kind : BlockKind} {v : Text} (h : Piece.Undirected v) :
    ¬Closes kind v := by
  rintro ⟨q, hq, hc⟩
  rw [Piece.closes_of_undirected (h q hq)] at hc
  cases hc

/-- A body without directives fits into any block, whatever the state. -/
theorem fits_of_undirected {vars : Bindings} {strict : Bool} {inside : Option Bool}
    {body : List Piece} (h : ∀ p ∈ body, p.directive? = none) : Fits vars strict inside body where
  open_ := by
    intro q hq
    rw [← List.append_nil body, row_undirected h, row, List.append_nil] at hq
    split at hq
    · cases hq
    · exact Piece.closes_of_undirected (h q hq)
  bound := by
    induction body with
    | nil => trivial
    | cons p ps ih =>
      have hp := h p List.mem_cons_self
      rw [Bound, step_of_undirected hp, Piece.opening?_of_undirected hp]
      exact ⟨by simp, ih fun q hq => h q (List.mem_cons_of_mem _ hq)⟩
  after := after_of_not_isMarker fun p hp => Piece.not_isMarker_of_undirected (h p hp)

/-- Blocks without directives in them or in their values do not cross each other. -/
theorem nested_of_apart {vars refs : Bindings} {strict outerRef innerRef : Bool}
    {outer a i : Option Bool} {ps : List Piece} (hvars : Apart .var vars outerRef a ps)
    (hrefs : Apart .inclusion refs innerRef i ps)
    (hvalues : ∀ v ∈ inserted .var vars a ps, Piece.Undirected v)
    (hbodies : ∀ b ∈ inserted .inclusion refs i ps, Piece.Undirected b) (houter : a = outer) :
    Nested vars refs strict outer a i ps := by
  induction ps generalizing outerRef innerRef outer a i with
  | nil => trivial
  | cons p ps ih =>
    obtain ⟨hold, -, hvars⟩ := hvars
    obtain ⟨hold', -, hrefs⟩ := hrefs
    refine ⟨fun ha hc => Piece.not_isMarker_of_undirected (hold ha hc), fun ha v hv q hq =>
      Piece.not_isMarker_of_undirected (hvalues v (mem_inserted_cons.2 (.inl ⟨ha, hv⟩)) q hq),
      fun hi b hb => fits_of_undirected (hbodies b (mem_inserted_cons.2 (.inl ⟨hi, hb⟩))),
      fun _ _ => houter, ih hvars hrefs (fun v hv => hvalues v (mem_inserted_cons.2 (.inr hv)))
        (fun b hb => hbodies b (mem_inserted_cons.2 (.inr hb))) ?_⟩
    split
    · next hi =>
      -- within an old body no piece is a marker of a variable block
      cases hc : p.closes .inclusion with
      | false => rw [step_of_undirected (hold' hi hc), houter]
      | true =>
        rw [step_of_not_isMarker (Piece.not_isMarker (by decide) (.inr hc)), houter]
    · rfl

namespace Separate

variable {vars refs : Bindings} {t : Text} (h : Separate vars refs t)

include h

theorem kept_varsRow : Piece.Kept false (Piece.ofText t) (varsRow vars t) :=
  kept_row (by decide) h.varsApart
    (fun v hv => h.undirected v (List.mem_append_left _ hv)) fun _ => rfl

theorem kept_refsRow :
    Piece.Kept false (Piece.ofText t) (row .inclusion refs none (Piece.ofText t)) :=
  kept_row (by decide) h.refsApart
    (fun v hv => h.undirected v (List.mem_append_right _ hv)) fun _ => rfl

/-- The references that are filled in after the variables hold no directives. -/
theorem undirected_of_mem_varsRow :
    ∀ v ∈ inserted .inclusion refs none (varsRow vars t), Piece.Undirected v := by
  intro v hv
  rw [inserted_kept h.kept_varsRow] at hv
  exact h.undirected v (List.mem_append_right _ hv)

/-- Filling in the references keeps what filling in the variables has made. -/
theorem kept_bothRow : Piece.Kept false (varsRow vars t) (bothRow vars refs t) :=
  kept_row (by decide) ((apart_kept h.kept_varsRow).2 h.refsApart) h.undirected_of_mem_varsRow
    fun _ => rfl

/-- The order of the two fillings makes no difference, so there is nothing to fill in again. -/
theorem againRow_eq : againRow vars refs t = bothRow vars refs t := by
  have hcomm :
      bothRow vars refs t = row .var vars none (row .inclusion refs none (Piece.ofText t)) :=
    row_comm (by decide) h.refsApart h.varsApart
      (fun v hv => h.undirected v (List.mem_append_right _ hv))
      fun v hv => h.undirected v (List.mem_append_left _ hv)
  rw [againRow, hcomm, row_row]
  intro v hv
  rw [inserted_kept h.kept_refsRow] at hv
  exact not_closes_of_undirected (h.undirected v (List.mem_append_left _ hv))

/-- A directive of the filled document is one of the document. -/
theorem mem_of_directive {p : Piece} (hp : p ∈ bothRow vars refs t) (hd : p.directive? ≠ none) :
    p ∈ Piece.ofText t := by
  have hmem : p ∈ Piece.directed (bothRow vars refs t) :=
    List.mem_filter.2 ⟨hp, Option.isSome_iff_ne_none.2 hd⟩
  rw [h.kept_bothRow.directed_eq, h.kept_varsRow.directed_eq] at hmem
  exact (List.mem_filter.1 hmem).1

variable {strict : Bool} (hvars : Complete .var vars strict none (Piece.ofText t))
  (hrefs : Complete .inclusion refs strict none (varsRow vars t))

include hvars hrefs

/-- The pieces that a scan reads of the filled document are its row with unified line ends. -/
theorem scanned_both :
    Piece.scanned (Piece.textOf (bothRow vars refs t)) = (bothRow vars refs t).map Piece.unify := by
  have hpieces := ofText_row hvars h.varsUnread
  have hboth : Piece.ofText (Piece.textOf (bothRow vars refs t)) = bothRow vars refs t := by
    have hunread := h.bothUnread
    rw [bothRow, varsRow, ← hpieces] at hunread ⊢
    rw [varsRow, ← hpieces] at hrefs
    exact ofText_row hrefs hunread
  rw [Piece.scanned, Piece.ofText_unify fun p hp hd => ?_, hboth]
  rw [hboth] at hp
  refine h.unified p (h.mem_of_directive hp ?_) hd
  intro hnone
  rw [Piece.isDeclaration, Piece.declaration?_of_undirected hnone] at hd
  cases hd

/-- **A document with separate blocks settles**: each field of `Settles` follows from the blocks
lying apart. -/
theorem settles : Settles vars refs strict t where
  unincluded := h.unincluded
  bothUnincluded := by
    intro p hp
    cases hd : p.directive? with
    | none => simp [Piece.isIncludeMarker, hd]
    | some d => exact h.unincluded p (h.mem_of_directive hp (by simp [hd]))
  values v hv := not_closes_of_undirected (h.undirected v (List.mem_append_left _ hv))
  nested := nested_of_apart ((apart_kept h.kept_varsRow).2 h.varsApart)
    ((apart_kept h.kept_varsRow).2 h.refsApart)
    (fun v hv => by
      rw [inserted_kept h.kept_varsRow] at hv
      exact h.undirected v (List.mem_append_left _ hv))
    h.undirected_of_mem_varsRow rfl
  varsUnread := h.varsUnread
  bothUnread := h.bothUnread
  againUnread := by
    rw [h.againRow_eq]
    exact h.bothUnread
  declares := by
    rw [h.scanned_both hvars hrefs, Piece.scanned, Piece.ofText_unify h.unified,
      h.kept_bothRow.declared_eq fun _ => Piece.declaration?_unify,
      h.kept_varsRow.declared_eq fun _ => Piece.declaration?_unify]
  holds l hl := by
    rw [h.scanned_both hvars hrefs,
      h.kept_bothRow.held_eq (Piece.opening?_unify .ref) (Piece.closes_unify .ref) rfl,
      h.kept_varsRow.held_eq (Piece.opening?_unify .ref) (Piece.closes_unify .ref) rfl,
      ← Piece.ofText_unify h.unified]
    exact congrArg (Option.map _) hl

end Separate

end Fill

end Transclude
