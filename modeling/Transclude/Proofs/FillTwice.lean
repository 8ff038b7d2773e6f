import Transclude.Proofs.Comments
import Transclude.Content

/-!
# The pieces of a filled document

Filling goes through the pieces of a document and writes a text. This file says which pieces it
writes: `Fill.row` puts the pieces of a value in the place of those of the old body. A machine reads
the pieces one by one. Its state is `none` outside any block, and within a block it tells whether
the body is replaced; `Fill.step` is the next state, `Fill.emit` what it writes.

The filled text is a document again, and can be filled again. That its pieces are those of the row
is not sure: a value may hold anything, and with the text around it may be read as something else.
The row always has the shape of a row that was read (`Fill.hasShape_row`), so nothing else is needed
for it than that no stray opener begins a declaration (`Fill.ofText_row`). And filling the row a
second time changes nothing, if no inserted value closes a block of its kind
(`Fill.row_row`).

Main statements:
- `Fill.fillFrom_eq_ok_iff`: filling succeeds on the complete rows, with the text of the row.
- `Fill.vars_vars`: filling in the variables a second time changes nothing, where no value that was
  inserted holds the end of a block, and no stray opener begins a declaration. Both are needed
  (`Fill.vars_vars_ne`).
-/

namespace Transclude

namespace Piece

variable {kind : BlockKind} {p : Piece}

theorem opening?_of_undirected (h : p.directive? = none) : p.opening? kind = none := by
  simp [opening?, h]

theorem closes_of_undirected (h : p.directive? = none) : p.closes kind = false := by
  simp [closes, h]

/-- Whether the piece is a marker of this kind. -/
def IsMarker (kind : BlockKind) (p : Piece) : Prop :=
  (p.opening? kind).isSome = true ∨ p.closes kind = true

instance (kind : BlockKind) (p : Piece) : Decidable (p.IsMarker kind) :=
  inferInstanceAs (Decidable (_ ∨ _))

theorem not_isMarker_of_undirected (h : p.directive? = none) : ¬p.IsMarker kind := by
  rw [IsMarker, opening?_of_undirected h, closes_of_undirected h]
  simp

/-- A piece opens a block if its directive is an opening marker of the kind. -/
theorem opening?_eq_some_iff {name : Text} :
    p.opening? kind = some name ↔ p.directive? = some (.opening kind name) := by
  rw [opening?]
  split
  · next k n h =>
    rw [h]
    by_cases hk : k = kind <;> simp [hk]
  · next h =>
    constructor
    · exact fun h' => nomatch h'
    · exact fun h' => absurd h' (h kind name)

/-- A piece closes a block if its directive is a closing marker of the kind. -/
theorem closes_iff : p.closes kind = true ↔ p.directive? = some (.closing kind) :=
  decide_eq_true_iff

/-- A comment that closes a block is no declaration. -/
theorem isDeclaration_of_closes (h : p.closes kind = true) : p.isDeclaration = false := by
  rw [isDeclaration, declaration?, closes_iff.1 h]
  rfl

/-- Behind an opener, the word that closes a block begins a comment, whatever `x` follows the
body. -/
theorem opens_of_closes {body : Text} (h : (comment body).closes kind = true) (x : Text) :
    Opens (body ++ x) := by
  obtain ⟨g, r, hg, -, rfl⟩ := Directive.exists_of_ofBody?_closing (closes_iff.1 h)
  obtain ⟨w, hword⟩ : ∃ w, kind.endWord = 'e' :: w := by cases kind <;> exact ⟨_, rfl⟩
  rw [opens_iff, hword]
  cases g with
  | nil => simp
  | cons c g =>
    have hc := hg c List.mem_cons_self
    have hne : c ≠ '>' ∧ c ≠ '-' := by constructor <;> rintro rfl <;> revert hc <;> decide
    simp [Ne.symm hne.1, Ne.symm hne.2]

end Piece

namespace Fill

section

variable (kind : BlockKind) (values : Bindings)

/-- What the block shows that a piece opens. -/
def value? (p : Piece) : Option Text := (p.opening? kind).bind values.get?

/-- The state after a piece. -/
def step : (inside : Option Bool) → Piece → Option Bool
  | none, p => (p.opening? kind).map fun name => (values.get? name).isSome
  | some replaced, p => if p.closes kind then none else some replaced

/-- What is written for a piece: the old body is left out, and the new one comes right behind the
opening marker. -/
def emit : (inside : Option Bool) → Piece → List Piece
  | none, p => p :: (value? kind values p).toList.flatMap Piece.ofText
  | some replaced, p => if replaced && !p.closes kind then [] else [p]

/-- The pieces of the filled document. -/
def row : (inside : Option Bool) → List Piece → List Piece
  | _, [] => []
  | inside, p :: ps => emit kind values inside p ++ row (step kind values inside p) ps

/-- The values that are put into blocks, in their order. -/
def inserted : (inside : Option Bool) → List Piece → List Text
  | _, [] => []
  | inside, p :: ps =>
    (if inside = none then (value? kind values p).toList else []) ++
      inserted (step kind values inside p) ps

/-- A row in which all blocks are closed, and all names are bound if that is asked for. -/
def Complete (strict : Bool) : (inside : Option Bool) → List Piece → Prop
  | inside, [] => inside = none
  | inside, p :: ps =>
    (strict = true → inside = none → ∀ name ∈ p.opening? kind, (values.get? name).isSome) ∧
      Complete strict (step kind values inside p) ps

end

section

variable {kind : BlockKind} {key : KeyKind} {values : Bindings} {strict : Bool}
variable {inside : Option Bool} {p : Piece} {ps qs : List Piece}

theorem ofPiece?_eq_none_iff {here : Place} :
    Opening.ofPiece? kind here p = none ↔ p.opening? kind = none := Option.map_eq_none_iff

/-- What `map` makes of a result that is told by an iff. -/
theorem map_eq_ok_iff {r : Except Error Text} {P : Prop} {s : Text}
    (h : ∀ t, r = .ok t ↔ P ∧ t = s) (f : Text → Text) (t : Text) :
    r.map f = .ok t ↔ P ∧ t = f s := by
  cases r with
  | error e =>
    have hP : ¬P := fun hP => nomatch (h s).2 ⟨hP, rfl⟩
    simp [Except.map, hP]
  | ok x =>
    obtain ⟨hP, rfl⟩ := (h x).1 rfl
    simp [Except.map, hP, eq_comm]

/-- **What filling writes**: it succeeds on the rows that are `Complete`, and its text is that of
the filled `row`. -/
theorem fillFrom_eq_ok_iff {here : Place} {inside : Option (Opening × Bool)} (t : Text) :
    fillFrom kind key values strict here inside ps = .ok t ↔
      Complete kind values strict (inside.map (·.2)) ps ∧
        t = Piece.textOf (row kind values (inside.map (·.2)) ps) := by
  fun_induction fillFrom kind key values strict here inside ps generalizing t with
  | case1 => simp [Complete, row, eq_comm]
  | case2 => simp [Complete]
  | case3 here p ps _ ho ih =>
    have hopen := ofPiece?_eq_none_iff.1 ho
    rw [map_eq_ok_iff ih]
    simp [Complete, row, step, emit, value?, hopen]
  | case4 here p ps _ o ho value hvalue ih =>
    obtain ⟨name, hopen, rfl⟩ := Option.map_eq_some_iff.1 ho
    rw [map_eq_ok_iff ih]
    dsimp only at hvalue
    simp [Complete, row, step, emit, value?, hopen, hvalue, Piece.textOf_ofText]
  | case5 here p ps o ho hvalue hstrict =>
    obtain ⟨name, hopen, rfl⟩ := Option.map_eq_some_iff.1 ho
    dsimp only at hvalue
    simp [Complete, hopen, hvalue, hstrict]
  | case6 here p ps _ o ho hvalue hstrict ih =>
    obtain ⟨name, hopen, rfl⟩ := Option.map_eq_some_iff.1 ho
    rw [map_eq_ok_iff ih]
    dsimp only at hvalue
    simp [Complete, row, step, emit, value?, hopen, hvalue, hstrict]
  | case7 here o replaced p ps _ hc ih =>
    rw [map_eq_ok_iff ih]
    simp [Complete, row, step, emit, hc]
  | case8 here o replaced p ps _ hc ih =>
    rw [map_eq_ok_iff ih]
    cases replaced <;> simp [Complete, row, step, emit, hc]

/-! ## A second time -/

/-- Whether a text, read as a document, closes a block of the kind. -/
def Closes (kind : BlockKind) (t : Text) : Prop := ∃ q ∈ Piece.ofText t, q.closes kind = true

instance (kind : BlockKind) (t : Text) : Decidable (Closes kind t) :=
  inferInstanceAs (Decidable (∃ q ∈ Piece.ofText t, q.closes kind = true))

theorem step_of_not_closes {replaced : Bool} (h : p.closes kind = false) :
    step kind values (some replaced) p = some replaced := by
  rw [step, if_neg (by simp [h])]

/-- Within a block whose body is replaced, pieces `qs` that do not close it are left out. -/
theorem row_skip (h : ∀ q ∈ qs, q.closes kind = false) (ps : List Piece) :
    row kind values (some true) (qs ++ ps) = row kind values (some true) ps := by
  induction qs with
  | nil => rfl
  | cons q qs ih =>
    have hq := h q List.mem_cons_self
    rw [List.cons_append, row, step_of_not_closes hq, emit, hq,
      ih fun x hx => h x (List.mem_cons_of_mem _ hx)]
    rfl

/-- Within a block, pieces `qs` that do not close it change nothing about what is `Complete`. -/
theorem complete_skip {replaced : Bool} (h : ∀ q ∈ qs, q.closes kind = false) (ps : List Piece) :
    Complete kind values strict (some replaced) (qs ++ ps) ↔
      Complete kind values strict (some replaced) ps := by
  induction qs with
  | nil => exact Iff.rfl
  | cons q qs ih =>
    rw [List.cons_append, Complete, step_of_not_closes (h q List.mem_cons_self),
      ih fun x hx => h x (List.mem_cons_of_mem _ hx)]
    simp

/-- What is written for a piece is written for it again: where no value that is written for `p`
closes a block, the second filling of `emit` gives `emit`. -/
theorem row_emit (h : inside = none → ∀ v ∈ value? kind values p, ¬Closes kind v)
    (qs : List Piece) :
    row kind values inside (emit kind values inside p ++ qs) =
      emit kind values inside p ++ row kind values (step kind values inside p) qs := by
  cases inside with
  | none =>
    rw [emit, List.cons_append, row, emit, List.cons_append]
    cases hv : value? kind values p with
    | none => rfl
    | some v =>
      obtain ⟨name, hopen, hvalue⟩ := Option.bind_eq_some_iff.1 hv
      have hstep : step kind values none p = some true := by simp [step, hopen, hvalue]
      have hskip : ∀ q ∈ Piece.ofText v, q.closes kind = false := fun q hq =>
        Bool.eq_false_iff.2 fun hc => h rfl v hv ⟨q, hq, hc⟩
      simp [hstep, row_skip hskip]
  | some replaced =>
    cases hc : p.closes kind with
    | true => simp [row, emit, step, hc]
    | false =>
      cases replaced with
      | true => simp [emit, step, hc]
      | false => simp [row, emit, step, hc]

/-- The pieces that `emit` writes are `Complete` as the piece `p` that they are written for. -/
theorem complete_emit (h : inside = none → ∀ v ∈ value? kind values p, ¬Closes kind v)
    (qs : List Piece) :
    Complete kind values strict inside (emit kind values inside p ++ qs) ↔
      (strict = true → inside = none → ∀ name ∈ p.opening? kind, (values.get? name).isSome) ∧
        Complete kind values strict (step kind values inside p) qs := by
  cases inside with
  | none =>
    rw [emit, List.cons_append, Complete]
    cases hv : value? kind values p with
    | none => rfl
    | some v =>
      obtain ⟨name, hopen, hvalue⟩ := Option.bind_eq_some_iff.1 hv
      have hstep : step kind values none p = some true := by simp [step, hopen, hvalue]
      have hskip : ∀ q ∈ Piece.ofText v, q.closes kind = false := fun q hq =>
        Bool.eq_false_iff.2 fun hc => h rfl v hv ⟨q, hq, hc⟩
      simp [hstep, complete_skip hskip]
  | some replaced =>
    cases hc : p.closes kind with
    | true => simp [Complete, emit, step, hc]
    | false =>
      cases replaced with
      | true => simp [emit, step, hc]
      | false => simp [Complete, emit, step, hc]

/-- The values that a row inserts are that of its first piece `p`, outside of a block, and those of
the rest. -/
theorem mem_inserted_cons {v : Text} :
    v ∈ inserted kind values inside (p :: ps) ↔
      inside = none ∧ v ∈ value? kind values p ∨
        v ∈ inserted kind values (step kind values inside p) ps := by
  rw [inserted, List.mem_append]
  cases inside <;> simp

/-- **Filling a row a second time changes nothing**, if no inserted value closes a block. The
induction is on the row, with the state `inside` generalized. -/
theorem row_row (h : ∀ v ∈ inserted kind values inside ps, ¬Closes kind v) :
    row kind values inside (row kind values inside ps) = row kind values inside ps := by
  induction ps generalizing inside with
  | nil => rfl
  | cons p ps ih =>
    rw [row, row_emit fun hout v hv => h v (mem_inserted_cons.2 (.inl ⟨hout, hv⟩)),
      ih fun v hv => h v (mem_inserted_cons.2 (.inr hv))]

/-- If no inserted value closes a block, the filled row is `Complete` exactly if the row is. -/
theorem complete_row (h : ∀ v ∈ inserted kind values inside ps, ¬Closes kind v) :
    Complete kind values strict inside (row kind values inside ps) ↔
      Complete kind values strict inside ps := by
  induction ps generalizing inside with
  | nil => exact Iff.rfl
  | cons p ps ih =>
    rw [row, complete_emit fun hout v hv => h v (mem_inserted_cons.2 (.inl ⟨hout, hv⟩)),
      ih fun v hv => h v (mem_inserted_cons.2 (.inr hv)), Complete]

/-! ## The shape of the row -/

/-- What is no marker of the `kind` changes no state. -/
theorem step_of_not_isMarker (h : ¬p.IsMarker kind) : step kind values inside p = inside := by
  obtain ⟨hopen, hclose⟩ := not_or.1 h
  cases inside with
  | none => rw [step, Option.not_isSome_iff_eq_none.1 hopen, Option.map_none]
  | some replaced => exact step_of_not_closes (Bool.eq_false_iff.2 hclose)

theorem value?_of_not_isMarker (h : ¬p.IsMarker kind) : value? kind values p = none := by
  rw [value?, Option.not_isSome_iff_eq_none.1 (not_or.1 h).1]
  rfl

/-- What is no marker of the kind is copied, or left out with the body that it is part of. -/
theorem emit_of_not_isMarker (h : ¬p.IsMarker kind) :
    emit kind values inside p = if inside = some true then [] else [p] := by
  cases inside with
  | none => simp [emit, value?_of_not_isMarker h]
  | some replaced => cases replaced <;> simp [emit, Bool.eq_false_iff.2 (not_or.1 h).2]

theorem step_of_undirected (h : p.directive? = none) : step kind values inside p = inside :=
  step_of_not_isMarker (Piece.not_isMarker_of_undirected h)

theorem emit_of_undirected (h : p.directive? = none) :
    emit kind values inside p = if inside = some true then [] else [p] :=
  emit_of_not_isMarker (Piece.not_isMarker_of_undirected h)

/-- A comment that closes a block can stand behind any row `qs` and before any row `ps`. -/
theorem shaped_append_closing {body : Text} (hbody : (Piece.comment body).closes kind = true)
    (hclean : ¬opener <:+: body ∧ ¬closer <:+: body) (hps : Piece.Shaped ps) :
    ∀ {qs : List Piece}, Piece.Shaped qs → Piece.Shaped (qs ++ .comment body :: ps)
  | [.plain _], hqs => ⟨⟨hqs, fun _ => Piece.opens_of_closes hbody closer, .inr hclean⟩, hps⟩
  | .plain _ :: .comment _ :: _, ⟨hjoins, hqs⟩ =>
    ⟨hjoins, shaped_append_closing hbody hclean hps hqs⟩

/-- What the rest of a row is like: within a block whose body is replaced it goes on with the
closing marker. -/
def HasShape (kind : BlockKind) : (inside : Option Bool) → List Piece → Prop
  | some true, ps => ∃ body qs, ps = .comment body :: qs ∧ (Piece.comment body).closes kind = true ∧
      (¬opener <:+: body ∧ ¬closer <:+: body) ∧ Piece.Shaped qs
  | _, ps => Piece.Shaped ps

theorem hasShape_of_ne (h : inside ≠ some true) : HasShape kind inside ps ↔ Piece.Shaped ps := by
  rcases inside with _ | _ | _
  · exact Iff.rfl
  · exact Iff.rfl
  · exact absurd rfl h

/-- The pieces `qs` of a value, and the rest of the row behind them, have the right shape
together. -/
theorem shaped_append_rest (h : HasShape kind (some true) ps) (hqs : Piece.Shaped qs) :
    Piece.Shaped (qs ++ ps) := by
  obtain ⟨body, rest, rfl, hbody, hclean, hrest⟩ := h
  exact shaped_append_closing hbody hclean hrest hqs

/-- A comment and what is written behind it have the right shape, if the rest has. -/
theorem hasShape_comment {before body : Text} (hjoins : Piece.Joins before body)
    (hps : HasShape kind (step kind values inside (.comment body)) ps) :
    HasShape kind inside ((if inside = some true then [] else [.plain before]) ++
      (emit kind values inside (.comment body) ++ ps)) := by
  cases inside with
  | none =>
    refine ⟨hjoins, ?_⟩
    cases hv : value? kind values (.comment body) with
    | none =>
      have hne : step kind values none (.comment body) ≠ some true := by
        intro hstep
        obtain ⟨name, hopen, hbound⟩ := Option.map_eq_some_iff.1 hstep
        obtain ⟨v, hvalue⟩ := Option.isSome_iff_exists.1 hbound
        rw [value?, hopen, Option.bind_some, hvalue] at hv
        cases hv
      exact (hasShape_of_ne hne).1 hps
    | some v =>
      obtain ⟨name, hopen, hvalue⟩ := Option.bind_eq_some_iff.1 hv
      rw [step, hopen, Option.map_some, hvalue, Option.isSome_some] at hps
      simpa using shaped_append_rest hps (Piece.shaped_ofText v)
  | some replaced =>
    cases hc : (Piece.comment body).closes kind with
    | true =>
      rw [step, if_pos hc] at hps
      cases replaced with
      | true =>
        have hclean := hjoins.clean.resolve_left (by simp [Piece.isDeclaration_of_closes hc])
        exact ⟨body, ps, by simp [emit, hc], hc, hclean, hps⟩
      | false =>
        have hshaped : Piece.Shaped (.plain before :: .comment body :: ps) := ⟨hjoins, hps⟩
        exact hshaped
    | false =>
      rw [step_of_not_closes hc] at hps
      cases replaced with
      | true => simpa [emit, hc] using hps
      | false =>
        have hshaped : Piece.Shaped (.plain before :: .comment body :: ps) := ⟨hjoins, hps⟩
        exact hshaped

/-- **A filled row has the shape of a row that was read.** The recursion takes a plain piece and the
comment behind it at a time, as `Piece.Shaped` does. -/
theorem hasShape_row : ∀ {ps : List Piece} {inside : Option Bool}, Piece.Shaped ps →
    Complete kind values strict inside ps → HasShape kind inside (row kind values inside ps)
  | [.plain t], inside, hps, hcomplete => by
    have hstep : step kind values inside (.plain t) = inside := step_of_undirected rfl
    obtain rfl : inside = none := hstep ▸ hcomplete.2
    exact hps
  | .plain before :: .comment body :: ps, inside, ⟨hjoins, hps⟩, ⟨_, hcomplete⟩ => by
    have hplain : (Piece.plain before).directive? = none := rfl
    rw [step_of_undirected hplain] at hcomplete
    rw [row, row, step_of_undirected hplain, emit_of_undirected hplain]
    exact hasShape_comment hjoins (hasShape_row hps hcomplete.2)

variable {t : Text}

/-- **The pieces of a filled document** are those of the `row`, if no stray opener in the row begins
a declaration. -/
theorem ofText_row (hcomplete : Complete kind values strict none (Piece.ofText t))
    (hstrays : ∀ s ∈ Piece.strays (row kind values none (Piece.ofText t)),
      Declaration.read? s = none) :
    Piece.ofText (Piece.textOf (row kind values none (Piece.ofText t))) =
      row kind values none (Piece.ofText t) :=
  Piece.ofText_of_shaped (hasShape_row (Piece.shaped_ofText t) hcomplete) hstrays

/-- Filling a document `t` a second time gives what the first time gave, under the two conditions on
values and stray openers. -/
theorem fill_fill {t' : Text}
    (h : fillFrom kind key values strict .first none (Piece.ofText t) = .ok t')
    (hvalues : ∀ v ∈ inserted kind values none (Piece.ofText t), ¬Closes kind v)
    (hstrays : ∀ s ∈ Piece.strays (row kind values none (Piece.ofText t)),
      Declaration.read? s = none) :
    fillFrom kind key values strict .first none (Piece.ofText t') = .ok t' := by
  obtain ⟨hcomplete, rfl⟩ := (fillFrom_eq_ok_iff t').1 h
  rw [Option.map_none] at *
  rw [fillFrom_eq_ok_iff, Option.map_none, ofText_row hcomplete hstrays, row_row hvalues]
  exact ⟨(complete_row hvalues).2 hcomplete, rfl⟩

end

/-! ## Variables -/

theorem eq_ok_of_toOption {ε α : Type} {r : Except ε α} {a : α} (h : r.toOption = some a) :
    r = .ok a := by
  cases r with
  | error e => cases h
  | ok b => exact congrArg Except.ok (Option.some.inj h)

/-- **Filling in the variables a second time changes nothing**, where no value that was `inserted`
holds the end of a block, and no stray opener of the filled `row` begins a declaration. -/
theorem vars_vars {t t' : Text} {values : Bindings} {strict : Bool}
    (h : vars t values strict = .ok t')
    (hvalues : ∀ v ∈ inserted .var values none (Piece.ofText t), ¬Closes .var v)
    (hstrays : ∀ s ∈ Piece.strays (row .var values none (Piece.ofText t)),
      Declaration.read? s = none) :
    vars t' values strict = .ok t' :=
  fill_fill h hvalues hstrays

/-- A block within another, and an opener without a closer. -/
def nestedText : Text :=
  "<!--begin-var(a)--><!--begin-var(b)--><!--end-var--> <!--end-var--> ".toList ++
    "<!--begin-var(b)--><!--end-var--> <!--".toList

/-- Values with a comment and with an opening marker in them. -/
def nestedValues : Bindings :=
  (Bindings.empty.set "a".toList "1 <!-- one -->".toList).set "b".toList
    "<!--begin-var(a)-->".toList

/-- That document with its blocks filled. -/
def nestedFilled : Text :=
  "<!--begin-var(a)-->1 <!-- one --><!--end-var--> <!--end-var--> <!--begin-var(b)-->".toList ++
    "<!--begin-var(a)--><!--end-var--> <!--".toList

/-- The document `nestedText` can be filled again. -/
theorem vars_vars_nestedText :
    vars nestedText nestedValues true = .ok nestedFilled ∧
      (∀ v ∈ inserted .var nestedValues none (Piece.ofText nestedText), ¬Closes .var v) ∧
      (∀ s ∈ Piece.strays (row .var nestedValues none (Piece.ofText nestedText)),
        Declaration.read? s = none) ∧
      vars nestedFilled nestedValues true = .ok nestedFilled := by
  have hfill : vars nestedText nestedValues true = .ok nestedFilled :=
    eq_ok_of_toOption (by decide +kernel)
  have hvalues : ∀ v ∈ inserted .var nestedValues none (Piece.ofText nestedText),
      ¬Closes .var v := by
    decide +kernel
  have hstrays : ∀ s ∈ Piece.strays (row .var nestedValues none (Piece.ofText nestedText)),
      Declaration.read? s = none := by
    decide +kernel
  exact ⟨hfill, hvalues, hstrays, vars_vars hfill hvalues hstrays⟩

/-- A declaration whose value ends a block, and goes on. -/
def endedText : Text :=
  "<!-- var(a)=\"<!-- end-var -->x\" --><!-- begin-var(a) --><!-- end-var -->".toList

/-- That value. -/
def endedValues : Bindings := Bindings.empty.set "a".toList "<!-- end-var -->x".toList

/-- That document with its block filled. -/
def endedFilled : Text :=
  "<!-- var(a)=\"<!-- end-var -->x\" --><!-- begin-var(a) --><!-- end-var -->x".toList ++
    "<!-- end-var -->".toList

/-- A block behind an opener whose declaration is not finished. -/
def capturedText : Text := "<!-- var(z)=\" <!-- begin-var(a) --><!-- end-var -->".toList

/-- A value that finishes it and opens another block, and a value for that one. -/
def capturedValues : Bindings :=
  (Bindings.empty.set "a".toList "\" --><!-- begin-var(b) -->".toList).set "b".toList "x".toList

/-- That document with its block filled. -/
def capturedFilled : Text :=
  "<!-- var(z)=\" <!-- begin-var(a) -->\" --><!-- begin-var(b) --><!-- end-var -->".toList

/-- **Both conditions are needed.** A value that holds the end of a block leaves its rest behind,
each time once more. And without one, a value that finishes what a stray opener begins may open a
block. -/
theorem vars_vars_ne :
    (vars endedText endedValues true = .ok endedFilled ∧
      vars endedFilled endedValues true ≠ .ok endedFilled) ∧
    (vars capturedText capturedValues true = .ok capturedFilled ∧
      vars capturedFilled capturedValues true ≠ .ok capturedFilled ∧
      ∀ v ∈ inserted .var capturedValues none (Piece.ofText capturedText), ¬Closes .var v) := by
  refine ⟨⟨eq_ok_of_toOption (by decide +kernel), fun h => ?_⟩,
    eq_ok_of_toOption (by decide +kernel), fun h => ?_, by decide +kernel⟩
  · exact absurd (congrArg Except.toOption h) (by decide +kernel)
  · exact absurd (congrArg Except.toOption h) (by decide +kernel)

end Fill

end Transclude
