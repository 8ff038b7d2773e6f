import Transclude.Proofs.Contributions
import Transclude.Proofs.Nestings

/-!
# Documents that settle

A document is filled with the variables around it, and then with the references around it. The
filled document takes the place of the old one; the next time, variables and references are
collected from it. `Fill.Settles` says when this leads to the same document again. There are two
parts to it:

- Filling finds the same blocks: a value does not close the block that shows it, the blocks of both
  kinds are nested, and no stray opener begins a declaration, so what was written is what is read.
- Scans find the same: the filled document declares the same variables, and it holds the same
  references with the same bodies, at least of those references that it shows itself.

Main statements:
- `Fill.Settles.fill_again`: the filled document is filled by itself, also with references that
  have other bodies where it does not show them.
- `Fill.Settles.collect_vars`, `Fill.Settles.collect_refs`: what scans find in it.
-/

namespace Transclude

namespace Fill

section

variable (vars refs : Bindings) (t : Text)

/-- The pieces of the document with its variables filled in. -/
def varsRow : List Piece := row .var vars none (Piece.ofText t)

/-- The pieces of the document with its variables and then its references filled in. -/
def bothRow : List Piece := row .inclusion refs none (varsRow vars t)

/-- The pieces of that document with its variables filled in once more. -/
def againRow : List Piece := row .var vars none (bothRow vars refs t)

/-- The names of the references that the document shows. -/
def refNames : List Text := names .inclusion refs none (varsRow vars t)

end

/-- A document that is the same when it is filled once more. -/
structure Settles (vars refs : Bindings) (strict : Bool) (t : Text) : Prop where
  /-- There is nothing to include, before and afterwards. -/
  unincluded : ∀ p ∈ Piece.ofText t, p.isIncludeMarker = false
  bothUnincluded : ∀ p ∈ bothRow vars refs t, p.isIncludeMarker = false
  /-- No value closes the block that shows it. -/
  values : ∀ v ∈ inserted .var vars none (Piece.ofText t), ¬Closes .var v
  /-- The blocks of the two kinds do not cross each other. -/
  nested : Nested vars refs strict none none none (varsRow vars t)
  /-- What is written is read as it was written. -/
  varsUnread : ∀ s ∈ Piece.strays (varsRow vars t), Declaration.read? s = none
  bothUnread : ∀ s ∈ Piece.strays (bothRow vars refs t), Declaration.read? s = none
  againUnread : ∀ s ∈ Piece.strays (againRow vars refs t), Declaration.read? s = none
  /-- A scan finds the same variables. -/
  declares : Variables.declared (Piece.scanned (Piece.textOf (bothRow vars refs t))) =
    Variables.declared (Piece.scanned t)
  /-- A scan finds the same references, and those that are shown with the same bodies. -/
  holds : ∀ l ∈ References.held none (Piece.scanned t),
    (References.held none (Piece.scanned (Piece.textOf (bothRow vars refs t)))).map
      (Variables.shown (refNames vars refs t)) = some (Variables.shown (refNames vars refs t) l)

theorem settles_iff {vars refs : Bindings} {strict : Bool} {t : Text} :
    Settles vars refs strict t ↔
      (∀ p ∈ Piece.ofText t, p.isIncludeMarker = false) ∧
      (∀ p ∈ bothRow vars refs t, p.isIncludeMarker = false) ∧
      (∀ v ∈ inserted .var vars none (Piece.ofText t), ¬Closes .var v) ∧
      Nested vars refs strict none none none (varsRow vars t) ∧
      (∀ s ∈ Piece.strays (varsRow vars t), Declaration.read? s = none) ∧
      (∀ s ∈ Piece.strays (bothRow vars refs t), Declaration.read? s = none) ∧
      (∀ s ∈ Piece.strays (againRow vars refs t), Declaration.read? s = none) ∧
      Variables.declared (Piece.scanned (Piece.textOf (bothRow vars refs t))) =
        Variables.declared (Piece.scanned t) ∧
      ∀ l ∈ References.held none (Piece.scanned t),
        (References.held none (Piece.scanned (Piece.textOf (bothRow vars refs t)))).map
          (Variables.shown (refNames vars refs t)) =
            some (Variables.shown (refNames vars refs t) l) :=
  ⟨fun ⟨h1, h2, h3, h4, h5, h6, h7, h8, h9⟩ => ⟨h1, h2, h3, h4, h5, h6, h7, h8, h9⟩,
    fun ⟨h1, h2, h3, h4, h5, h6, h7, h8, h9⟩ => ⟨h1, h2, h3, h4, h5, h6, h7, h8, h9⟩⟩

instance (vars refs : Bindings) (strict : Bool) (t : Text) :
    Decidable (Settles vars refs strict t) :=
  decidable_of_iff _ settles_iff.symm

/-- A filled row begins as the row does, since no block begins before its marker. -/
theorem head?_textOf_row {kind : BlockKind} {values : Bindings} :
    ∀ {ps : List Piece}, Piece.Shaped ps →
      (Piece.textOf (row kind values none ps)).head? = (Piece.textOf ps).head?
  | [.plain t], _ => rfl
  | .plain before :: .comment body :: ps, _ => by
    have hplain : (Piece.plain before).directive? = none := rfl
    rw [row, step_of_undirected hplain, emit_of_undirected hplain, row, emit]
    cases before <;> simp [Piece.text, opener]

namespace Settles

variable {vars refs : Bindings} {strict : Bool} {t : Text} (h : Settles vars refs strict t)

include h

section

variable {t' t'' : Text} (hvars : Fill.vars t vars strict = .ok t')
  (hrefs : Fill.refs t' refs strict = .ok t'')

include hvars

/-- The pieces of the document with its variables filled in are `varsRow`. -/
theorem ofText_vars :
    Complete .var vars strict none (Piece.ofText t) ∧ Piece.ofText t' = varsRow vars t := by
  obtain ⟨hcomplete, rfl⟩ := (fillFrom_eq_ok_iff t').1 hvars
  exact ⟨hcomplete, ofText_row hcomplete h.varsUnread⟩

include hrefs

/-- The pieces of the filled document are `bothRow`, and its text is theirs. -/
theorem ofText_both :
    Complete .inclusion refs strict none (varsRow vars t) ∧
      Piece.ofText t'' = bothRow vars refs t ∧ t'' = Piece.textOf (bothRow vars refs t) := by
  obtain ⟨-, hpieces⟩ := h.ofText_vars hvars
  rw [Fill.refs, hpieces] at hrefs
  obtain ⟨hcomplete, rfl⟩ := (fillFrom_eq_ok_iff t'').1 hrefs
  refine ⟨hcomplete, ?_, rfl⟩
  have hstrays := h.bothUnread
  rw [bothRow, ← hpieces] at hstrays
  rw [← hpieces] at hcomplete
  rw [Option.map_none, ← hpieces, ofText_row hcomplete hstrays, bothRow, ← hpieces]

/-- The pieces of the filled document with the variables filled in once more are `againRow`: the
frame for the references is the same. -/
theorem ofText_again : ∃ u, Fill.vars t'' vars strict = .ok u ∧
    Piece.ofText u = againRow vars refs t ∧
    frame .inclusion refs none (againRow vars refs t) =
      frame .inclusion refs none (varsRow vars t) := by
  obtain ⟨hvarsComplete, -⟩ := h.ofText_vars hvars
  obtain ⟨hrefsComplete, hpieces, -⟩ := h.ofText_both hvars hrefs
  have hcomplete : Complete .var vars strict none (bothRow vars refs t) :=
    complete_again h.nested (fun _ => rfl) ((complete_row h.values).2 hvarsComplete) hrefsComplete
  have hframe := frame_again h.nested fun _ => rfl
  rw [varsRow, row_row h.values] at hframe
  refine ⟨Piece.textOf (againRow vars refs t), ?_, ?_, hframe⟩
  · rw [Fill.vars, fillFrom_eq_ok_iff, Option.map_none, hpieces]
    exact ⟨hcomplete, rfl⟩
  · have hstrays := h.againUnread
    rw [againRow, ← hpieces] at hstrays ⊢
    rw [← hpieces] at hcomplete
    exact ofText_row hcomplete hstrays

/-- **The filled document is filled by itself**: filling in the variables and then references that
agree gives it back. -/
theorem fill_again : ∃ u, Fill.vars t'' vars strict = .ok u ∧
    ∀ refs', Bindings.Agree (refNames vars refs t) refs refs' →
      Fill.refs u refs' strict = .ok t'' := by
  obtain ⟨hcomplete, -, htext⟩ := h.ofText_both hvars hrefs
  obtain ⟨u, hu, hpieces, hframe⟩ := h.ofText_again hvars hrefs
  refine ⟨u, hu, fun refs' hagree => ?_⟩
  have hnames : ∀ name ∈ names .inclusion refs none (againRow vars refs t),
      refs'.get? name = refs.get? name := by
    rw [← names_frame, hframe, names_frame]
    exact fun name hname => (hagree name).2 hname
  rw [Fill.refs, fillFrom_eq_ok_iff, Option.map_none, hpieces, complete_congr hnames,
    row_congr hnames, ← complete_frame, ← row_frame, hframe, complete_frame, row_frame]
  exact ⟨hcomplete, htext⟩

theorem unincluded_both : ∀ p ∈ Piece.ofText t'', p.isIncludeMarker = false := by
  obtain ⟨-, hpieces, -⟩ := h.ofText_both hvars hrefs
  rw [hpieces]
  exact h.bothUnincluded

/-- **The filled document declares the same variables**, so a scan collects the same from it. -/
theorem collect_vars (found : Bindings) :
    Variables.collect (Text.unifyLineEnds t'') found =
      Variables.collect (Text.unifyLineEnds t) found := by
  obtain ⟨-, -, rfl⟩ := h.ofText_both hvars hrefs
  exact congrArg (Variables.addAll found) h.declares

/-- **The filled document holds the same references**, as far as it shows them. -/
theorem collect_refs {found found' out : Bindings}
    (hfound : Bindings.Agree (refNames vars refs t) found found')
    (hcollect : References.collect (Text.unifyLineEnds t) found = .ok out) :
    ∃ out', References.collect (Text.unifyLineEnds t'') found' = .ok out' ∧
      Bindings.Agree (refNames vars refs t) out out' := by
  obtain ⟨-, -, rfl⟩ := h.ofText_both hvars hrefs
  exact References.collect_agree h.holds hfound hcollect

/-- The filled document begins with the same character, so no mark appears at its beginning. -/
theorem head?_both : t''.head? = t.head? := by
  obtain ⟨-, hpieces⟩ := h.ofText_vars hvars
  obtain ⟨-, -, htext⟩ := h.ofText_both hvars hrefs
  have hshaped := Piece.shaped_ofText t'
  rw [hpieces] at hshaped
  rw [htext, bothRow, head?_textOf_row hshaped, varsRow, head?_textOf_row (Piece.shaped_ofText t),
    Piece.textOf_ofText]

end

end Settles

end Fill

/-- Without include markers there is nothing to expand. -/
theorem Include.expand_of_unincluded {t : Text}
    (h : ∀ p ∈ Piece.ofText t, p.isIncludeMarker = false)
    (content : Text → Except Error Text) (shown : Text → Text) (strict : Bool) :
    expand t content shown strict = .ok t := by
  have hpieces : ∀ ps : List Piece, (∀ p ∈ ps, p.isIncludeMarker = false) →
      expandPieces content shown strict ps = .ok (Piece.textOf ps) := by
    intro ps hps
    induction ps with
    | nil => rfl
    | cons p ps ih =>
      have hp := hps p List.mem_cons_self
      rw [expandPieces, ih fun q hq => hps q (List.mem_cons_of_mem _ hq)]
      split
      · next name hd => simp [Piece.isIncludeMarker, hd] at hp
      · rfl
  rw [expand, hpieces _ h, Piece.textOf_ofText]

end Transclude
