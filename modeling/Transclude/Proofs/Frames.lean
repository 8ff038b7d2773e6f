import Transclude.Proofs.Contributions

/-!
# What filling leaves alone

A document declares variables, holds references, and shows both. If the blocks that are filled hold
no directives, and neither do the values that are put into them, then all directives stay what they
are and where they are among each other. If no such block lies in a reference, then the references
keep their bodies too. `Piece.Kept` is this relation between the pieces before and after.

All that a reader of directives learns from such pieces is the same before and after: which blocks
are complete, what is put into them, what is declared, and what is referred to. So it makes no
difference in which order the blocks of two kinds are filled (`Fill.row_comm`).

Main statements:
- `Fill.kept_row`: filling keeps the directives and the references.
- `Piece.Kept.held_eq`, `Piece.Kept.declared_eq`: what is collected stays the same.
- `Fill.row_comm`: blocks of two kinds can be filled in either order.
-/

namespace Transclude

namespace Piece

/-- The directives among the pieces. -/
def directed (ps : List Piece) : List Piece := ps.filter fun p => p.directive?.isSome

/-- Whether a text, read as a document, holds no directive. -/
def Undirected (t : Text) : Prop := ∀ p ∈ ofText t, p.directive? = none

instance (t : Text) : Decidable (Undirected t) :=
  inferInstanceAs (Decidable (∀ p ∈ ofText t, p.directive? = none))

/-- Whether a reader of references is within one after a piece. -/
def stepRef : (inside : Bool) → Piece → Bool
  | false, p => (p.opening? .ref).isSome
  | true, p => !p.closes .ref

/-- The second row is the first with other pieces in it, none of them a directive and none of them
in a reference. -/
inductive Kept : (inside : Bool) → List Piece → List Piece → Prop
  | nil (inside : Bool) : Kept inside [] []
  | keep {inside : Bool} {ps qs : List Piece} (p : Piece) :
    Kept (stepRef inside p) ps qs → Kept inside (p :: ps) (p :: qs)
  | drop {ps qs : List Piece} (p : Piece) :
    p.directive? = none → Kept false ps qs → Kept false (p :: ps) qs
  | add {ps qs : List Piece} (p : Piece) :
    p.directive? = none → Kept false ps qs → Kept false ps (p :: qs)

section

variable {kind : BlockKind} {inside : Bool} {p : Piece} {ps qs news : List Piece}

theorem declaration?_of_undirected (h : p.directive? = none) : p.declaration? = none := by
  simp [declaration?, h]

theorem directed_cons_of_none (h : p.directive? = none) : directed (p :: ps) = directed ps := by
  simp [directed, h]

theorem directed_cons_of_some (h : p.directive?.isSome = true) :
    directed (p :: ps) = p :: directed ps := by
  simp [directed, h]

/-- A row with pieces `news` that are no directives in front of it is kept, outside of
references. -/
theorem Kept.add_all (hnews : ∀ p ∈ news, p.directive? = none) (h : Kept false ps qs) :
    Kept false ps (news ++ qs) := by
  induction news with
  | nil => exact h
  | cons p news ih =>
    exact .add p (hnews p List.mem_cons_self) (ih fun q hq => hnews q (List.mem_cons_of_mem _ hq))

/-- The directives are the same in rows of which one is `Kept` in the other. -/
theorem Kept.directed_eq (h : Kept inside ps qs) : directed qs = directed ps := by
  induction h with
  | nil => rfl
  | keep p _ ih =>
    cases hp : p.directive? with
    | none => rw [directed_cons_of_none hp, directed_cons_of_none hp, ih]
    | some d =>
      have hsome : p.directive?.isSome = true := by rw [hp]; rfl
      rw [directed_cons_of_some hsome, directed_cons_of_some hsome, ih]
  | drop p hp _ ih => rw [directed_cons_of_none hp, ih]
  | add p hp _ ih => rw [directed_cons_of_none hp, ih]

end

end Piece

/-! ## What is collected -/

namespace Piece.Kept

variable {g : Piece → Piece} {inside : Bool} {ps qs : List Piece}

/-- **The references stay the same** in rows of which one is kept in the other, also if all pieces
are written in another way `g` that keeps the markers of references. -/
theorem held_eq (h : Kept inside ps qs)
    (hopening : ∀ p, (g p).opening? .ref = p.opening? .ref)
    (hcloses : ∀ p, (g p).closes .ref = p.closes .ref) {reference : Option (Text × Text)}
    (hinside : reference.isSome = inside) :
    References.held reference (qs.map g) = References.held reference (ps.map g) := by
  induction h generalizing reference with
  | nil => rfl
  | keep p _ ih =>
    subst hinside
    rw [List.map_cons, List.map_cons]
    cases reference with
    | none =>
      rw [References.held, References.held, hopening]
      cases hp : p.opening? .ref with
      | none => exact ih (by simp [stepRef, hp])
      | some name => exact ih (by simp [stepRef, hp])
    | some r =>
      obtain ⟨name, body⟩ := r
      rw [References.held, References.held, hcloses]
      cases hp : p.closes .ref with
      | true =>
        rw [if_pos rfl, if_pos rfl, ih (by simp [stepRef, hp])]
      | false =>
        rw [if_neg (by simp), if_neg (by simp)]
        exact ih (by simp [stepRef, hp])
  | drop p hp _ ih =>
    obtain rfl : reference = none := by simpa using hinside
    rw [ih rfl, List.map_cons, References.held, hopening, opening?_of_undirected hp]
  | add p hp _ ih =>
    obtain rfl : reference = none := by simpa using hinside
    rw [List.map_cons, References.held, hopening, opening?_of_undirected hp, ← ih rfl]

/-- **The declared variables stay the same**, also if all pieces are written in another way `g` that
makes no declaration of what is no directive. -/
theorem declared_eq (h : Kept inside ps qs)
    (hdeclaration : ∀ p, p.directive? = none → (g p).declaration? = none) :
    Variables.declared (qs.map g) = Variables.declared (ps.map g) := by
  have hfilter : (qs.map g).filterMap declaration? = (ps.map g).filterMap declaration? := by
    induction h with
    | nil => rfl
    | keep p _ ih => simp only [List.map_cons, List.filterMap_cons, ih]
    | drop p hp _ ih => rw [ih, List.map_cons, List.filterMap_cons, hdeclaration p hp]
    | add p hp _ ih => rw [List.map_cons, List.filterMap_cons, hdeclaration p hp, ih]
  rw [Variables.declared, hfilter]
  rfl

end Piece.Kept

namespace Fill

/-! ## What is filled -/

/-- Whether the blocks that are replaced hold no directive and lie in no reference. -/
def Apart (kind : BlockKind) (values : Bindings) :
    (reference : Bool) → (inside : Option Bool) → List Piece → Prop
  | _, _, [] => True
  | reference, inside, p :: ps =>
    (inside = some true → p.closes kind = false → p.directive? = none) ∧
      (inside = none → (value? kind values p).isSome → reference = false) ∧
      Apart kind values (p.stepRef reference) (step kind values inside p) ps

section

variable {kind : BlockKind} {values : Bindings} {strict reference : Bool} {inside : Option Bool}
variable {p : Piece} {ps qs : List Piece}

theorem value?_of_undirected (h : p.directive? = none) : value? kind values p = none :=
  value?_of_not_isMarker (Piece.not_isMarker_of_undirected h)

theorem stepRef_of_undirected (h : p.directive? = none) : p.stepRef reference = reference := by
  cases reference <;> simp [Piece.stepRef, Piece.opening?_of_undirected h,
    Piece.closes_of_undirected h]

/-- What opens a block with a value is no marker of a reference. -/
theorem stepRef_of_value? (hkind : kind ≠ .ref) (h : (value? kind values p).isSome) :
    p.stepRef reference = reference := by
  obtain ⟨v, hv⟩ := Option.isSome_iff_exists.1 h
  obtain ⟨name, hopen, -⟩ := Option.bind_eq_some_iff.1 hv
  have hdir := Piece.opening?_eq_some_iff.1 hopen
  cases reference <;> simp [Piece.stepRef, Piece.opening?, Piece.closes, hdir, hkind]

/-- **Filling keeps the directives and the references**, if the blocks lie `Apart` from both and the
values hold none. -/
theorem kept_row (hkind : kind ≠ .ref) (hapart : Apart kind values reference inside ps)
    (hvalues : ∀ v ∈ inserted kind values inside ps, Piece.Undirected v)
    (hinside : inside = some true → reference = false) :
    Piece.Kept reference ps (row kind values inside ps) := by
  induction ps generalizing reference inside with
  | nil => exact .nil _
  | cons p ps ih =>
    obtain ⟨hbody, hopen, hrest⟩ := hapart
    have hvalues' : ∀ v ∈ inserted kind values (step kind values inside p) ps,
        Piece.Undirected v := fun v hv => hvalues v (mem_inserted_cons.2 (.inr hv))
    rw [row]
    rcases inside with _ | _ | _
    · rw [emit, List.cons_append]
      cases hv : value? kind values p with
      | none =>
        refine .keep p (ih hrest hvalues' fun hstep => ?_)
        obtain ⟨name, hname, hbound⟩ := Option.map_eq_some_iff.1 hstep
        rw [value?, hname, Option.bind_some] at hv
        rw [hv] at hbound
        cases hbound
      | some v =>
        -- the value goes behind the marker, outside of any reference
        have hsome : (value? kind values p).isSome := by rw [hv]; rfl
        obtain rfl : reference = false := hopen rfl hsome
        have hstep : p.stepRef false = false := stepRef_of_value? hkind hsome
        have hkept := ih hrest hvalues' fun _ => hstep
        have hv' : Piece.Undirected v := hvalues v (mem_inserted_cons.2 (.inl ⟨rfl, hv⟩))
        refine .keep p ?_
        rw [hstep] at hkept ⊢
        simpa using hkept.add_all hv'
    · rw [show emit kind values (some false) p = [p] from rfl]
      refine .keep p (ih hrest hvalues' fun hstep => ?_)
      rw [step] at hstep
      split at hstep <;> cases hstep
    · obtain rfl : reference = false := hinside rfl
      cases hc : p.closes kind with
      | true =>
        rw [emit, hc]
        exact .keep p (ih hrest hvalues' (by simp [step, hc]))
      | false =>
        -- the piece is left out with the old body
        have hdir := hbody rfl hc
        rw [stepRef_of_undirected hdir] at hrest
        rw [emit, hc]
        exact .drop p hdir (ih hrest hvalues' fun _ => rfl)

/-! What a reader of blocks learns, it learns from the directives. -/

/-- The values that are `inserted` depend on the directives of the row only. -/
theorem inserted_directed :
    inserted kind values inside (Piece.directed ps) = inserted kind values inside ps := by
  induction ps generalizing inside with
  | nil => rfl
  | cons p ps ih =>
    cases hp : p.directive? with
    | none =>
      rw [Piece.directed_cons_of_none hp, ih, inserted, step_of_undirected hp,
        value?_of_undirected hp]
      simp
    | some d => rw [Piece.directed_cons_of_some (by rw [hp]; rfl), inserted, inserted, ih]

theorem apart_directed :
    Apart kind values reference inside (Piece.directed ps) ↔
      Apart kind values reference inside ps := by
  induction ps generalizing reference inside with
  | nil => exact Iff.rfl
  | cons p ps ih =>
    cases hp : p.directive? with
    | none =>
      rw [Piece.directed_cons_of_none hp, ih, Apart, step_of_undirected hp,
        stepRef_of_undirected hp, value?_of_undirected hp]
      simp [hp]
    | some d => rw [Piece.directed_cons_of_some (by rw [hp]; rfl), Apart, Apart, ih]

end

section

variable {kind : BlockKind} {values : Bindings} {strict reference outer : Bool}
variable {inside : Option Bool} {ps qs : List Piece} (h : Piece.Kept outer ps qs)

include h

/-- The same values are inserted in rows of which one is `Kept` in the other. -/
theorem inserted_kept :
    inserted kind values inside qs = inserted kind values inside ps := by
  rw [← inserted_directed, h.directed_eq, inserted_directed]

theorem apart_kept :
    Apart kind values reference inside qs ↔ Apart kind values reference inside ps := by
  rw [← apart_directed, h.directed_eq, apart_directed]

end

/-! ## Blocks of two kinds -/

/-- The pieces of a value that are put behind a piece. -/
def news (kind : BlockKind) (values : Bindings) (inside : Option Bool) (p : Piece) : List Piece :=
  if inside = none then (value? kind values p).toList.flatMap Piece.ofText else []

section

variable {kind : BlockKind} {values : Bindings} {inside : Option Bool} {p : Piece}
variable {ps qs : List Piece}

theorem news_of_undirected (h : p.directive? = none) : news kind values inside p = [] := by
  simp [news, value?_of_undirected h]

/-- A piece `p` that is not left out is written, and then what is `news` behind it. -/
theorem emit_eq_news (h : inside = some true → p.closes kind = true) :
    emit kind values inside p = p :: news kind values inside p := by
  rcases inside with _ | _ | _
  · rfl
  · rfl
  · simp [emit, news, h rfl]

/-- Pieces `qs` that are no directives are written as they are, or left out with the body that they
are part of. -/
theorem row_undirected (h : ∀ q ∈ qs, q.directive? = none) (ps : List Piece) :
    row kind values inside (qs ++ ps) =
      (if inside = some true then [] else qs) ++ row kind values inside ps := by
  induction qs with
  | nil => simp
  | cons q qs ih =>
    have hq := h q List.mem_cons_self
    rw [List.cons_append, row, step_of_undirected hq, emit_of_undirected hq,
      ih fun x hx => h x (List.mem_cons_of_mem _ hx)]
    split <;> simp

end

section

variable {k k' : BlockKind} {m m' : Bindings} {s s' : Option Bool} {r r' : Bool} {p : Piece}
variable {ps : List Piece}

/-- What two fillings one after the other write for a piece, each in its own state. -/
def emitBoth (k : BlockKind) (m : Bindings) (s : Option Bool) (k' : BlockKind) (m' : Bindings)
    (s' : Option Bool) (p : Piece) : List Piece :=
  if s = some true ∧ p.closes k = false ∨ s' = some true ∧ p.closes k' = false then []
  else p :: (news k m s p ++ news k' m' s' p)

/-- An opening marker is one of one kind only, so at most one of two fillings writes `news` for
it. -/
theorem news_eq_nil_or (hne : k ≠ k') (m m' : Bindings) (s s' : Option Bool) (p : Piece) :
    news k m s p = [] ∨ news k' m' s' p = [] := by
  cases hopen : p.opening? k with
  | none => exact .inl (by simp [news, value?, hopen])
  | some name =>
    have hdir := Piece.opening?_eq_some_iff.1 hopen
    have hopen' : p.opening? k' = none := by simp [Piece.opening?, hdir, hne]
    exact .inr (by simp [news, value?, hopen'])

/-- At one piece it does not matter which of the two fillings comes first. -/
theorem emitBoth_comm (hne : k ≠ k') : emitBoth k m s k' m' s' p = emitBoth k' m' s' k m s p := by
  have hnews : news k m s p ++ news k' m' s' p = news k' m' s' p ++ news k m s p := by
    rcases news_eq_nil_or hne m m' s s' p with h | h <;> simp [h]
  rw [emitBoth, emitBoth, hnews]
  simp only [or_comm]

/-- Behind an opening marker of another kind, a reader is not within a body that is replaced. -/
theorem step_ne_of_news (hne : k ≠ k') (hstay : s = some true → p.closes k = true)
    (h : news k' m' s' p ≠ []) : step k m s p ≠ some true := by
  cases hopen : p.opening? k' with
  | none => exact absurd (by simp [news, value?, hopen]) h
  | some name =>
    have hdir := Piece.opening?_eq_some_iff.1 hopen
    have hclose : p.closes k = false := by simp [Piece.closes, hdir]
    rcases s with _ | _ | _
    · simp [step, Piece.opening?, hdir, Ne.symm hne]
    · simp [step, hclose]
    · rw [hstay rfl] at hclose
      cases hclose

/-- Within a body that is replaced, and apart from directives, only the closing marker is one. -/
theorem closes_of_directed {d : Directive} (h : p.closes k = false → p.directive? = none)
    (hp : p.directive? = some d) : p.closes k = true := by
  cases hc : p.closes k with
  | true => rfl
  | false =>
    rw [h hc] at hp
    cases hp

/-- One filling reads what the other one writes for a piece, `emit`, and both together write what
`emitBoth` says. -/
theorem row_emit_other (hne : k ≠ k')
    (hs : s = some true → p.closes k = false → p.directive? = none)
    (hs' : s' = some true → p.closes k' = false → p.directive? = none)
    (hvalue : s' = none → ∀ v ∈ value? k' m' p, Piece.Undirected v) (qs : List Piece) :
    row k m s (emit k' m' s' p ++ qs) =
      emitBoth k m s k' m' s' p ++ row k m (step k m s p) qs := by
  cases hp : p.directive? with
  | none =>
    rw [step_of_undirected hp, emit_of_undirected hp, emitBoth, news_of_undirected hp,
      news_of_undirected hp, Piece.closes_of_undirected hp, Piece.closes_of_undirected hp]
    by_cases hin' : s' = some true
    · simp [hin']
    · rw [if_neg hin', row_undirected (by simpa using hp)]
      simp [hin']
  | some d =>
    have hstay : s = some true → p.closes k = true := fun hin => closes_of_directed (hs hin) hp
    have hstay' : s' = some true → p.closes k' = true := fun hin => closes_of_directed (hs' hin) hp
    have hnews : row k m (step k m s p) (news k' m' s' p ++ qs) =
        news k' m' s' p ++ row k m (step k m s p) qs := by
      by_cases hnil : news k' m' s' p = []
      · rw [hnil]
        rfl
      · have hundirected : ∀ q ∈ news k' m' s' p, q.directive? = none := by
          intro q hq
          rw [news] at hq
          split at hq
          · next hout =>
            obtain ⟨v, hv, hq⟩ := List.mem_flatMap.1 hq
            exact hvalue hout v (Option.mem_toList.1 hv) q hq
          · cases hq
        rw [row_undirected hundirected, if_neg (step_ne_of_news hne hstay hnil)]
    have hboth : ¬(s = some true ∧ p.closes k = false ∨ s' = some true ∧ p.closes k' = false) := by
      rintro (⟨hin, hc⟩ | ⟨hin, hc⟩)
      · simp [hstay hin] at hc
      · simp [hstay' hin] at hc
    rw [emit_eq_news hstay', List.cons_append, row, emit_eq_news hstay, hnews, emitBoth,
      if_neg hboth]
    simp

/-- **Blocks of two kinds can be filled in either order**, if they hold no directives (`Apart`), and
neither do their values. The induction is on the row, with the states of both readers. -/
theorem row_comm (hne : k ≠ k') (hapart : Apart k m r s ps) (hapart' : Apart k' m' r' s' ps)
    (hvalues : ∀ v ∈ inserted k m s ps, Piece.Undirected v)
    (hvalues' : ∀ v ∈ inserted k' m' s' ps, Piece.Undirected v) :
    row k m s (row k' m' s' ps) = row k' m' s' (row k m s ps) := by
  induction ps generalizing s s' r r' with
  | nil => rfl
  | cons p ps ih =>
    obtain ⟨hs, -, hrest⟩ := hapart
    obtain ⟨hs', -, hrest'⟩ := hapart'
    have hvalue : s = none → ∀ v ∈ value? k m p, Piece.Undirected v := fun hout v hv =>
      hvalues v (mem_inserted_cons.2 (.inl ⟨hout, hv⟩))
    have hvalue' : s' = none → ∀ v ∈ value? k' m' p, Piece.Undirected v := fun hout v hv =>
      hvalues' v (mem_inserted_cons.2 (.inl ⟨hout, hv⟩))
    have hcomm := ih hrest hrest' (fun v hv => hvalues v (mem_inserted_cons.2 (.inr hv)))
      fun v hv => hvalues' v (mem_inserted_cons.2 (.inr hv))
    rw [row, row, row_emit_other hne hs hs' hvalue', row_emit_other hne.symm hs' hs hvalue, hcomm,
      emitBoth_comm hne]

end

end Fill

end Transclude
