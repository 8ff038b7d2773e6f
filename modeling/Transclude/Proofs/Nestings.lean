import Transclude.Proofs.FillTwice

/-!
# Blocks within blocks

A document is filled twice: with variables, and then with references. A reference body may hold
variable blocks of its own, which are copied as they are. When the result is filled again, its
variables come first, and the copies are filled too; but then the references put the copies back.
So the second filling ends where the first one did, if the two kinds of blocks are nested.

What a filling keeps is `Fill.frame`, the row without the bodies that are replaced, and the filled
row depends on nothing else (`Fill.row_frame`). So if the frame is the same, filling in the
references once more leads to the same row. `Fill.Nested` says that the markers of the two kinds do
not cross each other: where variables are filled in, no marker of a reference comes or goes, and the
body of a reference, the old one as the new one, ends within the variable block in which it begins.

Main statements:
- `Fill.frame_again`: filling in the variables once more leaves the frame for the references.
- `Fill.complete_again`: all blocks are complete again.
-/

namespace Transclude

namespace Piece

/-- A piece is a marker of a kind if it opens or closes a block of it. -/
theorem isMarker_iff {kind : BlockKind} {p : Piece} :
    p.IsMarker kind ↔
      (∃ name, p.directive? = some (.opening kind name)) ∨ p.directive? = some (.closing kind) := by
  simp only [IsMarker, Option.isSome_iff_exists, opening?_eq_some_iff, closes_iff]

/-- A marker is of one kind only. -/
theorem not_isMarker {kind kind' : BlockKind} {p : Piece} (hne : kind ≠ kind')
    (h : p.IsMarker kind) : ¬p.IsMarker kind' := by
  intro h'
  rw [isMarker_iff] at h h'
  rcases h with ⟨name, h⟩ | h <;> rcases h' with ⟨name', h'⟩ | h' <;> rw [h] at h' <;> cases h'
  · exact hne rfl
  · exact hne rfl

end Piece

namespace Fill

/-! ## What a filled row depends on -/

section

variable (kind : BlockKind) (values : Bindings)

/-- The state after a row of pieces. -/
def after (inside : Option Bool) (ps : List Piece) : Option Bool :=
  ps.foldl (step kind values) inside

/-- A row of pieces without the bodies that are replaced. -/
def frame : (inside : Option Bool) → List Piece → List Piece
  | _, [] => []
  | inside, p :: ps =>
    (if inside = some true ∧ p.closes kind = false then [] else [p]) ++
      frame (step kind values inside p) ps

/-- The names of the blocks of a row. -/
def names : (inside : Option Bool) → List Piece → List Text
  | _, [] => []
  | inside, p :: ps =>
    (if inside = none then (p.opening? kind).toList else []) ++
      names (step kind values inside p) ps

/-- A row in which all names of blocks are bound, if that is asked for. -/
def Bound (strict : Bool) : (inside : Option Bool) → List Piece → Prop
  | _, [] => True
  | inside, p :: ps =>
    (strict = true → inside = none → ∀ name ∈ p.opening? kind, (values.get? name).isSome) ∧
      Bound strict (step kind values inside p) ps

instance Bound.decidable (strict : Bool) :
    ∀ (inside : Option Bool) (ps : List Piece), Decidable (Bound kind values strict inside ps)
  | _, [] => isTrue trivial
  | inside, p :: ps =>
    have := Bound.decidable strict (step kind values inside p) ps
    inferInstanceAs (Decidable (_ ∧ _))

end

section

variable {kind : BlockKind} {values values' : Bindings} {strict : Bool}
variable {inside : Option Bool} {p : Piece} {ps qs : List Piece}

@[simp] theorem after_nil : after kind values inside [] = inside := rfl

@[simp] theorem after_cons :
    after kind values inside (p :: ps) = after kind values (step kind values inside p) ps := rfl

/-- The filled row of two parts: the second is filled from the state that the first leaves. -/
theorem row_append :
    row kind values inside (ps ++ qs) =
      row kind values inside ps ++ row kind values (after kind values inside ps) qs := by
  induction ps generalizing inside with
  | nil => rfl
  | cons p ps ih => rw [List.cons_append, row, row, ih, after_cons, List.append_assoc]

theorem frame_append :
    frame kind values inside (ps ++ qs) =
      frame kind values inside ps ++ frame kind values (after kind values inside ps) qs := by
  induction ps generalizing inside with
  | nil => rfl
  | cons p ps ih => rw [List.cons_append, frame, frame, ih, after_cons, List.append_assoc]

/-- Two parts make a complete row if the names in the first are bound and the second is complete
from there on. -/
theorem complete_append :
    Complete kind values strict inside (ps ++ qs) ↔
      Bound kind values strict inside ps ∧
        Complete kind values strict (after kind values inside ps) qs := by
  induction ps generalizing inside with
  | nil => simp [Bound]
  | cons p ps ih => rw [List.cons_append, Complete, Bound, ih, after_cons, and_assoc]

/-- **The filled row depends on the frame only**: bodies that are replaced do not matter. -/
theorem row_frame : row kind values inside (frame kind values inside ps) =
    row kind values inside ps := by
  induction ps generalizing inside with
  | nil => rfl
  | cons p ps ih =>
    rw [frame]
    split
    · next h =>
      obtain ⟨rfl, hc⟩ := h
      have hstep : step kind values (some true) p = some true := step_of_not_closes hc
      rw [row, hstep, List.nil_append, ih]
      simp [emit, hc]
    · rw [List.singleton_append, row, row, ih]

theorem complete_frame : Complete kind values strict inside (frame kind values inside ps) ↔
    Complete kind values strict inside ps := by
  induction ps generalizing inside with
  | nil => exact Iff.rfl
  | cons p ps ih =>
    rw [frame]
    split
    · next h =>
      obtain ⟨rfl, hc⟩ := h
      have hstep : step kind values (some true) p = some true := step_of_not_closes hc
      rw [Complete, hstep, List.nil_append, ih]
      simp
    · rw [List.singleton_append, Complete, Complete, ih]

theorem names_frame : names kind values inside (frame kind values inside ps) =
    names kind values inside ps := by
  induction ps generalizing inside with
  | nil => rfl
  | cons p ps ih =>
    rw [frame]
    split
    · next h =>
      obtain ⟨rfl, hc⟩ := h
      have hstep : step kind values (some true) p = some true := step_of_not_closes hc
      rw [names, hstep, List.nil_append, ih]
      simp
    · rw [List.singleton_append, names, names, ih]

/-- Values matter for the names of the blocks only: with the same value for the name that `p` opens,
the same is written. -/
theorem emit_congr (h : inside = none → ∀ name ∈ p.opening? kind,
    values'.get? name = values.get? name) :
    step kind values' inside p = step kind values inside p ∧
      emit kind values' inside p = emit kind values inside p := by
  cases inside with
  | none =>
    cases hopen : p.opening? kind with
    | none => simp [step, emit, value?, hopen]
    | some name => simp [step, emit, value?, hopen, h rfl name hopen]
  | some replaced => exact ⟨rfl, rfl⟩

/-- The names of the blocks of a row are that of its first piece, outside of a block, and those of
the rest. -/
theorem mem_names_cons {name : Text} :
    name ∈ names kind values inside (p :: ps) ↔
      inside = none ∧ name ∈ p.opening? kind ∨
        name ∈ names kind values (step kind values inside p) ps := by
  rw [names, List.mem_append]
  cases inside <;> simp

/-- Rows are filled alike by values that are the same for the names of their blocks. -/
theorem row_congr (h : ∀ name ∈ names kind values inside ps, values'.get? name = values.get? name) :
    row kind values' inside ps = row kind values inside ps := by
  induction ps generalizing inside with
  | nil => rfl
  | cons p ps ih =>
    obtain ⟨hstep, hemit⟩ := emit_congr fun hout name hname =>
      h name (mem_names_cons.2 (.inl ⟨hout, hname⟩))
    rw [row, row, hstep, hemit, ih fun name hname => h name (mem_names_cons.2 (.inr hname))]

theorem complete_congr
    (h : ∀ name ∈ names kind values inside ps, values'.get? name = values.get? name) :
    Complete kind values' strict inside ps ↔ Complete kind values strict inside ps := by
  induction ps generalizing inside with
  | nil => exact Iff.rfl
  | cons p ps ih =>
    have hnames : ∀ hout : inside = none, ∀ name ∈ p.opening? kind,
        values'.get? name = values.get? name := fun hout name hname =>
      h name (mem_names_cons.2 (.inl ⟨hout, hname⟩))
    obtain ⟨hstep, -⟩ := emit_congr hnames
    rw [Complete, Complete, hstep, ih fun name hname => h name (mem_names_cons.2 (.inr hname))]
    refine and_congr_left fun _ => forall_congr' fun _ => forall_congr' fun hout =>
      forall_congr' fun name => forall_congr' fun hname => ?_
    rw [hnames hout name hname]

/-- Pieces that are no markers of the kind leave the state as it is. -/
theorem after_of_not_isMarker (h : ∀ p ∈ ps, ¬p.IsMarker kind) :
    after kind values inside ps = inside := by
  induction ps with
  | nil => rfl
  | cons p ps ih =>
    rw [after_cons, step_of_not_isMarker (h p List.mem_cons_self),
      ih fun q hq => h q (List.mem_cons_of_mem _ hq)]

/-- Within a body that is replaced, what does not close the block is left out. -/
theorem frame_skip (h : ∀ q ∈ ps, q.closes kind = false) :
    frame kind values (some true) ps = [] ∧ after kind values (some true) ps = some true := by
  induction ps with
  | nil => exact ⟨rfl, rfl⟩
  | cons p ps ih =>
    have hp := h p List.mem_cons_self
    obtain ⟨hframe, hafter⟩ := ih fun q hq => h q (List.mem_cons_of_mem _ hq)
    rw [frame, after_cons, step_of_not_closes hp]
    exact ⟨by simp [hp, hframe], hafter⟩

end

/-! ## Variables and references -/

section

variable (vars refs : Bindings) (strict : Bool)

/-- What is put into an inclusion block: with its own variable blocks filled it closes no inclusion
block, they are complete, and all is well within the variable block in which it begins. -/
structure Fits (inside : Option Bool) (body : List Piece) : Prop where
  open_ : ∀ q ∈ row .var vars inside body, q.closes .inclusion = false
  bound : Bound .var vars strict inside body
  after : after .var vars inside body = inside

instance (inside : Option Bool) (body : List Piece) : Decidable (Fits vars strict inside body) :=
  decidable_of_iff
    ((∀ q ∈ row .var vars inside body, q.closes .inclusion = false) ∧
      Bound .var vars strict inside body ∧ after .var vars inside body = inside)
    ⟨fun ⟨h, h', h''⟩ => ⟨h, h', h''⟩, fun ⟨h, h', h''⟩ => ⟨h, h', h''⟩⟩

/-- Whether variable blocks and inclusion blocks do not cross each other. `a` and `i` are the states
of the two fillings. `outer` is the state for variables at the beginning of an inclusion block whose
body is replaced. -/
def Nested : (outer a i : Option Bool) → List Piece → Prop
  | _, _, _, [] => True
  | outer, a, i, p :: ps =>
    -- no inclusion marker goes with an old value, and none comes with a new one
    (a = some true → p.closes .var = false → ¬p.IsMarker .inclusion) ∧
    (a = none → ∀ v ∈ value? .var vars p, ∀ q ∈ Piece.ofText v, ¬q.IsMarker .inclusion) ∧
    (i = none → ∀ b ∈ value? .inclusion refs p, Fits vars strict a (Piece.ofText b)) ∧
    -- the old body ends where it began
    (i = some true → p.closes .inclusion = true → a = outer) ∧
    Nested (if i = some true then outer else step .var vars a p) (step .var vars a p)
      (step .inclusion refs i p) ps

instance Nested.decidable :
    ∀ (outer a i : Option Bool) (ps : List Piece), Decidable (Nested vars refs strict outer a i ps)
  | _, _, _, [] => isTrue trivial
  | outer, a, i, p :: ps =>
    have := Nested.decidable (if i = some true then outer else step .var vars a p)
      (step .var vars a p) (step .inclusion refs i p) ps
    inferInstanceAs (Decidable (_ ∧ _ ∧ _ ∧ _ ∧ _))

end

section

variable {vars refs : Bindings} {strict : Bool} {outer a i : Option Bool} {p : Piece}
variable {ps : List Piece}

theorem isMarker_of_value? {kind : BlockKind} {values : Bindings} {v : Text}
    (h : value? kind values p = some v) : p.IsMarker kind := by
  obtain ⟨name, hopen, -⟩ := Option.bind_eq_some_iff.1 h
  exact .inl (by rw [hopen]; rfl)

/-- What is written for a piece `p` when variables are filled in leads inclusion blocks where the
piece does, if neither what is left out nor the value has a marker of them. -/
theorem after_emit_var (hdrop : a = some true → p.closes .var = false → ¬p.IsMarker .inclusion)
    (hnew : a = none → ∀ v ∈ value? .var vars p, ∀ q ∈ Piece.ofText v, ¬q.IsMarker .inclusion) :
    after .inclusion refs i (emit .var vars a p) = step .inclusion refs i p := by
  rcases a with _ | _ | _
  · rw [emit, after_cons]
    cases hv : value? .var vars p with
    | none => rfl
    | some v =>
      simp only [Option.toList_some, List.flatMap_cons, List.flatMap_nil, List.append_nil]
      exact after_of_not_isMarker (hnew rfl v hv)
  · rfl
  · cases hc : p.closes .var with
    | true => simp [emit, hc]
    | false => simp [emit, hc, step_of_not_isMarker (hdrop rfl hc)]

/-- An inclusion marker is copied when variables are filled in. -/
theorem emit_var_of_isMarker (vars : Bindings) (hp : p.IsMarker .inclusion)
    (hdrop : a = some true → p.closes .var = false → ¬p.IsMarker .inclusion) :
    emit .var vars a p = [p] ∧ step .var vars a p = a := by
  have hvar : ¬p.IsMarker .var := Piece.not_isMarker (by decide) hp
  have hne : a ≠ some true := fun ha => hdrop ha (Bool.eq_false_iff.2 (not_or.1 hvar).2) hp
  rw [emit_of_not_isMarker hvar, if_neg hne, step_of_not_isMarker hvar]
  exact ⟨rfl, rfl⟩

/-- Within an old body nothing that is written for a piece closes it. -/
theorem not_closes_emit_var (hp : p.closes .inclusion = false)
    (hnew : a = none → ∀ v ∈ value? .var vars p, ∀ q ∈ Piece.ofText v, ¬q.IsMarker .inclusion) :
    ∀ q ∈ emit .var vars a p, q.closes .inclusion = false := by
  intro q hq
  rcases a with _ | _ | _
  · rcases List.mem_cons.1 hq with rfl | hq
    · exact hp
    · obtain ⟨v, hv, hq⟩ := List.mem_flatMap.1 hq
      exact Bool.eq_false_iff.2 (not_or.1 (hnew rfl v (Option.mem_toList.1 hv) q hq)).2
  · obtain rfl := List.mem_singleton.1 hq
    exact hp
  · rw [emit] at hq
    split at hq
    · cases hq
    · obtain rfl := List.mem_singleton.1 hq
      exact hp

/-- What is written for a piece when references are filled in, by the state `i`: nothing within
a replaced body, the closing marker at its end, the piece itself, or the piece with a value
behind it. -/
theorem emit_inclusion_cases (refs : Bindings) (i : Option Bool) (p : Piece) :
    (i = some true ∧ p.closes .inclusion = false ∧ emit .inclusion refs i p = [] ∧
        step .inclusion refs i p = some true) ∨
      (i = some true ∧ p.closes .inclusion = true ∧ emit .inclusion refs i p = [p] ∧
        step .inclusion refs i p = none) ∨
      (i ≠ some true ∧ emit .inclusion refs i p = [p] ∧ step .inclusion refs i p ≠ some true) ∨
      ∃ b, i = none ∧ value? .inclusion refs p = some b ∧
        emit .inclusion refs i p = p :: Piece.ofText b ∧
        step .inclusion refs i p = some true := by
  rcases i with _ | _ | _
  · cases hv : value? .inclusion refs p with
    | some b =>
      obtain ⟨name, hopen, hb⟩ := Option.bind_eq_some_iff.1 hv
      exact .inr (.inr (.inr ⟨b, rfl, rfl, by simp [emit, hv], by simp [step, hopen, hb]⟩))
    | none =>
      refine .inr (.inr (.inl ⟨by simp, by simp [emit, hv], fun hstep => ?_⟩))
      obtain ⟨name, hopen, hbound⟩ := Option.map_eq_some_iff.1 hstep
      obtain ⟨b, hb⟩ := Option.isSome_iff_exists.1 hbound
      rw [value?, hopen, Option.bind_some, hb] at hv
      cases hv
  · refine .inr (.inr (.inl ⟨by simp, rfl, ?_⟩))
    rw [step]
    split <;> simp
  · cases hc : p.closes .inclusion with
    | false => exact .inl ⟨rfl, rfl, by simp [emit, hc], step_of_not_closes hc⟩
    | true => exact .inr (.inl ⟨rfl, rfl, by simp [emit, hc], by simp [step, hc]⟩)

/-- **The frame for the references stays the same** when the variables of the filled row are filled
in. Within an old body only one of the two readers goes on; it comes back to the state of the other
one. -/
theorem frame_again (h : Nested vars refs strict outer a i ps)
    (houter : i ≠ some true → a = outer) :
    frame .inclusion refs i (row .var vars outer (row .inclusion refs i ps)) =
      frame .inclusion refs i (row .var vars a ps) := by
  induction ps generalizing outer a i with
  | nil => rfl
  | cons p ps ih =>
    obtain ⟨hdrop, hnew, hfits, hback, hrest⟩ := h
    have hafter : after .inclusion refs i (emit .var vars a p) = step .inclusion refs i p :=
      after_emit_var hdrop hnew
    rw [row, row, frame_append, hafter]
    rcases emit_inclusion_cases refs i p with
      ⟨rfl, hc, hemit, hstep⟩ | ⟨rfl, hc, hemit, hstep⟩ | ⟨hi, hemit, hstep⟩ |
      ⟨b, rfl, hb, hemit, hstep⟩
    · rw [hstep, if_pos rfl] at hrest
      rw [hemit, hstep, (frame_skip (not_closes_emit_var hc hnew)).1]
      exact ih hrest (by simp)
    · obtain rfl := hback rfl hc
      obtain ⟨hcopy, hsame⟩ := emit_var_of_isMarker vars (.inr hc) hdrop
      rw [hstep, if_pos rfl, hsame] at hrest
      rw [hemit, hstep, List.singleton_append, row, hcopy, hsame, frame_append, after_cons, hstep,
        after_nil, ih hrest fun _ => rfl]
    · obtain rfl := houter hi
      rw [if_neg hi] at hrest
      rw [hemit, List.singleton_append, row, frame_append, hafter, ih hrest fun _ => rfl]
    · obtain rfl := houter (by simp)
      obtain ⟨hopen, -, hsame'⟩ := hfits rfl b hb
      obtain ⟨hcopy, hsame⟩ :=
        emit_var_of_isMarker vars (isMarker_of_value? hb) hdrop
      rw [if_neg (by simp), hsame, hstep] at hrest
      -- the new body is left out, and so is what variables make of it
      rw [hemit, List.cons_append, row, hcopy, hsame, row_append, hsame', hstep,
        frame_append, after_cons, hstep, after_nil, frame_append, (frame_skip hopen).1,
        (frame_skip hopen).2, List.nil_append, ih hrest (by simp)]

/-- **The variable blocks of the filled row are complete**, the copied ones too, if those of the row
and of the values are. -/
theorem complete_again (h : Nested vars refs strict outer a i ps)
    (houter : i ≠ some true → a = outer) (hvars : Complete .var vars strict a ps)
    (hrefs : Complete .inclusion refs strict i ps) :
    Complete .var vars strict outer (row .inclusion refs i ps) := by
  induction ps generalizing outer a i with
  | nil =>
    obtain rfl : i = none := hrefs
    obtain rfl := houter (by simp)
    exact hvars
  | cons p ps ih =>
    obtain ⟨hdrop, hnew, hfits, hback, hrest⟩ := h
    obtain ⟨hbound, hvars⟩ := hvars
    obtain ⟨-, hrefs⟩ := hrefs
    rw [row]
    rcases emit_inclusion_cases refs i p with
      ⟨rfl, hc, hemit, hstep⟩ | ⟨rfl, hc, hemit, hstep⟩ | ⟨hi, hemit, hstep⟩ |
      ⟨b, rfl, hb, hemit, hstep⟩
    · rw [hstep] at hrefs ⊢
      rw [hstep, if_pos rfl] at hrest
      rw [hemit]
      exact ih hrest (by simp) hvars hrefs
    · obtain rfl := hback rfl hc
      obtain ⟨-, hsame⟩ := emit_var_of_isMarker vars (.inr hc) hdrop
      rw [hstep] at hrefs ⊢
      rw [hsame] at hvars
      rw [hstep, if_pos rfl, hsame] at hrest
      rw [hemit, List.singleton_append, Complete, hsame]
      exact ⟨hbound, ih hrest (fun _ => rfl) hvars hrefs⟩
    · obtain rfl := houter hi
      rw [if_neg hi] at hrest
      rw [hemit, List.singleton_append, Complete]
      exact ⟨hbound, ih hrest (fun _ => rfl) hvars hrefs⟩
    · obtain rfl := houter (by simp)
      obtain ⟨-, hbound', hsame'⟩ := hfits rfl b hb
      obtain ⟨-, hsame⟩ := emit_var_of_isMarker vars (isMarker_of_value? hb) hdrop
      rw [hstep] at hrefs ⊢
      rw [hsame] at hvars
      rw [if_neg (by simp), hsame, hstep] at hrest
      rw [hemit, List.cons_append, Complete, hsame, complete_append, hsame']
      exact ⟨hbound, hbound', ih hrest (by simp) hvars hrefs⟩

end

end Fill

end Transclude
