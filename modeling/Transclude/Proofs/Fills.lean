import Transclude.Proofs.Comments
import Transclude.Content

/-!
# Filling blocks is splicing

`Fill.fillFrom` copies a document piece by piece. On its way it looks up names, notices unresolved
names and blocks without an end, and leaves out the bodies that it replaces. This file shows that it
does what can be said without going through the document: find the blocks (`Block.paired`), refuse
the first unresolved name, else the block that is never closed, else splice the new bodies in.

The blocks are found up to the first opening marker that no closing marker follows, because the
names before it are looked up, and may be unresolved, before its end is missed.

The proof follows the pieces. Between two blocks the text since the last spliced body has been
copied (`Fill.Outside`); within a block it has been copied up to the opening marker, and then either
the new body or the old one so far (`Fill.Replaced`, `Fill.Kept`). One piece more leads from one of
these situations to another (`Fill.outside_cons`, `Fill.replaced_cons`, `Fill.kept_cons`).

Main statements:
- `Block.pairFrom_eq`: pairing all blocks fails exactly when one is never closed.
- `Block.cuts_paired`: the bodies of the blocks lie in the document, in order, between characters.
- `Fill.fill_eq`: the outcome of filling, told by the blocks.
- `Fill.splices`: filling fails as pairing the blocks does, or it splices their bodies.
-/

namespace Transclude

namespace Text

/-- Whether the spans lie in the text from byte `cursor` on, in order, between characters and
without overlap. -/
def Cuts (t : Text) (cursor : Nat) : List Span → Prop
  | [] => cursor ≤ width t
  | s :: spans => cursor ≤ s.start ∧ (∃ x, s.Holds t x) ∧ Cuts t s.stop spans

end Text

namespace Block

/-- The span of the body. -/
def inner (b : Block) : Span := ⟨b.opening.stop, b.closing.start⟩

/-- The blocks of a kind, up to the first that is never closed, and the opening marker of that
one. -/
def pairedFrom (kind : BlockKind) (here : Place) :
    Option Opening → List Piece → List Block × Option Opening
  | inside, [] => ([], inside)
  | none, p :: ps => pairedFrom kind (here.after p.text) (Opening.ofPiece? kind here p) ps
  | some o, p :: ps =>
    if p.closes kind then
      let (blocks, last) := pairedFrom kind (here.after p.text) none ps
      (⟨kind, o.name, o.span, here.span p.text⟩ :: blocks, last)
    else pairedFrom kind (here.after p.text) (some o) ps

/-- The blocks of a kind in a document, up to the first that is never closed, and the opening marker
of that one. -/
def paired (kind : BlockKind) (t : Text) : List Block × Option Opening :=
  pairedFrom kind .first none (Piece.ofText t)

/-- The names of blocks, and of an opening marker after them. -/
def names (blocks : List Block × Option Opening) : List Text :=
  blocks.1.map (·.name) ++ blocks.2.toList.map (·.name)

/-- Pairing all blocks fails exactly when one of them is never closed, and then with the error for
that opening (`Opening.unclosed`). -/
theorem pairFrom_eq (kind : BlockKind) (here : Place) (inside : Option Opening) (ps : List Piece) :
    pairFrom kind here inside ps =
      match (pairedFrom kind here inside ps).2 with
      | some o => .error (o.unclosed kind)
      | none => .ok (pairedFrom kind here inside ps).1 := by
  fun_induction pairFrom kind here inside ps with
  | case1 => rfl
  | case2 => rfl
  | case3 here p ps ih =>
    rw [ih]
    rfl
  | case4 here o p ps hc block ih =>
    rw [ih, pairedFrom, if_pos hc]
    cases (pairedFrom kind (here.after p.text) none ps).2 <;> rfl
  | case5 here o p ps hc ih => rw [ih, pairedFrom, if_neg hc]

theorem pair_eq (kind : BlockKind) (t : Text) :
    pair kind t =
      match (paired kind t).2 with
      | some o => .error (o.unclosed kind)
      | none => .ok (paired kind t).1 := pairFrom_eq kind .first none _

/-- Within a block its name comes first, whether or not it is closed. -/
theorem exists_names_cons (kind : BlockKind) (here : Place) (o : Opening) (ps : List Piece) :
    ∃ ns, names (pairedFrom kind here (some o) ps) = o.name :: ns := by
  induction ps generalizing here with
  | nil => exact ⟨[], rfl⟩
  | cons p ps ih =>
    rw [pairedFrom]
    split
    · exact ⟨_, rfl⟩
    · exact ih _

/-- A reader of blocks stands before the pieces `ps`, outside any block or behind an opening marker
that ends with the text `a`; `cursor` is not past the body that it may find next. -/
def Stands (t : Text) (cursor : Nat) (here : Place) (ps : List Piece) : Option Opening → Prop
  | none => ∃ a, t = a ++ Piece.textOf ps ∧ here.offset = Text.width a ∧ cursor ≤ Text.width a
  | some o => ∃ a y, t = a ++ (y ++ Piece.textOf ps) ∧ o.span.stop = Text.width a ∧
      here.offset = Text.width (a ++ y) ∧ cursor ≤ Text.width a

/-- One piece `p` further, outside of any block: the reader `Stands` behind it, inside a block if
`p` is an opening marker. -/
theorem Stands.outside {t : Text} {cursor : Nat} {here : Place} {p : Piece} {ps : List Piece}
    (h : Stands t cursor here (p :: ps) none) (kind : BlockKind) :
    Stands t cursor (here.after p.text) ps (Opening.ofPiece? kind here p) := by
  obtain ⟨a, ht, hoffset, hcursor⟩ := h
  rw [Piece.textOf_cons, ← List.append_assoc] at ht
  have hwidth := Place.offset_after hoffset p.text
  have hle : cursor ≤ Text.width (a ++ p.text) := by
    rw [Text.width_append]
    omega
  cases ho : Opening.ofPiece? kind here p with
  | none => exact ⟨a ++ p.text, ht, hwidth, hle⟩
  | some o =>
    obtain ⟨name, -, rfl⟩ := Option.map_eq_some_iff.1 ho
    exact ⟨a ++ p.text, [], ht, hwidth, by rw [List.append_nil]; exact hwidth, hle⟩

theorem Stands.inside {t : Text} {cursor : Nat} {here : Place} {o : Opening} {p : Piece}
    {ps : List Piece} (h : Stands t cursor here (p :: ps) (some o)) :
    Stands t cursor (here.after p.text) ps (some o) := by
  obtain ⟨a, y, ht, hstop, hoffset, hcursor⟩ := h
  refine ⟨a, y ++ p.text, ?_, hstop, ?_, hcursor⟩
  · rw [ht, Piece.textOf_cons, List.append_assoc]
  · rw [← List.append_assoc]
    exact Place.offset_after hoffset p.text

/-- At the closing marker the body is known, and the reader is outside again, with its `cursor` at
the end of the body. -/
theorem Stands.closed {t : Text} {cursor : Nat} {here : Place} {o : Opening} {p : Piece}
    {ps : List Piece} (h : Stands t cursor here (p :: ps) (some o)) :
    cursor ≤ o.span.stop ∧ (∃ x, Span.Holds t ⟨o.span.stop, here.offset⟩ x) ∧
      Stands t here.offset (here.after p.text) ps none := by
  obtain ⟨a, y, rfl, hstop, hoffset, hcursor⟩ := h
  refine ⟨hstop ▸ hcursor, ⟨y, ?_⟩, a ++ y ++ p.text, ?_, Place.offset_after hoffset p.text, ?_⟩
  · rw [hstop, hoffset, Text.width_append]
    exact Span.holds_span a y _
  · simp
  · rw [hoffset, Text.width_append (a ++ y)]
    exact Nat.le_add_right _ _

/-- The bodies of the blocks that are paired from a place on can be cut out, one after the other. -/
theorem cuts_pairedFrom {t : Text} {cursor : Nat} {kind : BlockKind} {here : Place}
    {inside : Option Opening} {ps : List Piece} (h : Stands t cursor here ps inside) :
    t.Cuts cursor ((pairedFrom kind here inside ps).1.map inner) := by
  fun_induction pairedFrom kind here inside ps generalizing cursor with
  | case1 here inside =>
    cases inside with
    | none =>
      obtain ⟨a, rfl, -, hcursor⟩ := h
      exact Nat.le_trans hcursor (by rw [Text.width_append]; exact Nat.le_add_right _ _)
    | some o =>
      obtain ⟨a, y, rfl, -, -, hcursor⟩ := h
      exact Nat.le_trans hcursor (by rw [Text.width_append]; exact Nat.le_add_right _ _)
  | case2 here p ps ih => exact ih (h.outside kind)
  | case3 here o p ps hc blocks last hrest ih =>
    obtain ⟨hcursor, hholds, hstands⟩ := h.closed
    rw [hrest] at ih
    exact ⟨hcursor, hholds, ih hstands⟩
  | case4 here o p ps hc ih => exact ih h.inside

/-- **The bodies of the blocks** lie in the document, in order, at boundaries between characters. -/
theorem cuts_paired (kind : BlockKind) (t : Text) : t.Cuts 0 ((paired kind t).1.map inner) :=
  cuts_pairedFrom ⟨[], (Piece.textOf_ofText t).symm, rfl, Nat.zero_le _⟩

end Block

namespace Fill

/-- The first name that fails: none, unless unresolved names are refused. -/
def refused? (values : Bindings) (strict : Bool) (names : List Text) : Option Text :=
  if strict then names.find? fun name => (values.get? name).isNone else none

/-- New bodies for the blocks whose names are bound. -/
def edits (values : Bindings) (blocks : List Block) : List (Span × Text) :=
  blocks.filterMap fun b => (values.get? b.name).map fun value => (b.inner, value)

/-- The document `t` from byte `cursor` on with its blocks filled, or what prevents it: a name that
is refused, or else a block that is never closed. -/
def outcome (kind : BlockKind) (key : KeyKind) (values : Bindings) (strict : Bool) (t : Text)
    (cursor : Nat) (blocks : List Block × Option Opening) : Except Error Text :=
  match refused? values strict (Block.names blocks), blocks.2 with
  | some name, _ => .error (.unresolvedKey key name)
  | none, some o => .error (o.unclosed kind)
  | none, none => .ok (t.splice cursor (edits values blocks.1))

section

variable {kind : BlockKind} {key : KeyKind} {values : Bindings} {strict : Bool} {t : Text}

theorem refused?_cons_bound {name value : Text} (h : values.get? name = some value)
    (names : List Text) :
    refused? values strict (name :: names) = refused? values strict names := by
  unfold refused?
  split
  · rw [List.find?_cons, h]
    rfl
  · rfl

/-- In a strict filling the first of the names that is not bound is `refused?`. -/
theorem refused?_cons_unbound {name : Text} (h : values.get? name = none) (names : List Text) :
    refused? values true (name :: names) = some name := by
  rw [refused?, if_pos rfl, List.find?_cons, h]
  rfl

theorem refused?_nil : refused? values strict [] = none := by
  cases strict <;> rfl

/-- The outcome of a block `b` with a new body: the text up to the body, the value, and the outcome
of what is behind. -/
theorem outcome_cons_bound {b : Block} {value : Text} (h : values.get? b.name = some value)
    (cursor : Nat) (blocks : List Block × Option Opening) :
    outcome kind key values strict t cursor (b :: blocks.1, blocks.2) =
      (outcome kind key values strict t b.inner.stop blocks).map fun rest =>
        t.slice cursor b.inner.start ++ value ++ rest := by
  have hnames : Block.names (b :: blocks.1, blocks.2) = b.name :: Block.names blocks := rfl
  rw [outcome, outcome, hnames, refused?_cons_bound h]
  cases refused? values strict (Block.names blocks) with
  | some name => rfl
  | none =>
    cases blocks.2 with
    | some o => rfl
    | none => simp only [edits, List.filterMap_cons, h, Option.map_some, Text.splice, Except.map]

/-- The outcome of a block `b` that keeps its body is that of the blocks behind it. -/
theorem outcome_cons_unbound {b : Block} (h : values.get? b.name = none) (cursor : Nat)
    (blocks : List Block × Option Opening) :
    outcome kind key values false t cursor (b :: blocks.1, blocks.2) =
      outcome kind key values false t cursor blocks := by
  rw [outcome, outcome]
  simp only [refused?, edits, List.filterMap_cons, h, Option.map_none, Bool.false_eq_true, if_false]

/-- What is put in front of a result twice can be put in front at once. -/
theorem map_append (r : Except Error Text) (x y : Text) :
    (r.map (y ++ ·)).map (x ++ ·) = r.map (x ++ y ++ ·) := by
  cases r with
  | error e => rfl
  | ok t => simp [Except.map]

end

/-! ## One piece after the other

The three situations in which the pieces `ps` can come next. In each of them `a` is the text up to
the end of the last body that was replaced, and `x` what was copied since. -/

section

variable (kind : BlockKind) (key : KeyKind) (values : Bindings) (strict : Bool) (t : Text)

/-- Outside any block. -/
def Outside (ps : List Piece) : Prop :=
  ∀ (here : Place) (a x : Text), t = a ++ (x ++ Piece.textOf ps) →
    here.offset = Text.width (a ++ x) →
    (fillFrom kind key values strict here none ps).map (x ++ ·) =
      outcome kind key values strict t (Text.width a) (Block.pairedFrom kind here none ps)

/-- In a block that keeps its body. -/
def Kept (ps : List Piece) : Prop :=
  ∀ (here : Place) (o : Opening) (a x : Text), t = a ++ (x ++ Piece.textOf ps) →
    here.offset = Text.width (a ++ x) → values.get? o.name = none → strict = false →
    (fillFrom kind key values strict here (some (o, false)) ps).map (x ++ ·) =
      outcome kind key values strict t (Text.width a) (Block.pairedFrom kind here (some o) ps)

/-- In a block with a new body, which was put behind the opening marker. Of the old one `y` was left
out so far. -/
def Replaced (ps : List Piece) : Prop :=
  ∀ (here : Place) (o : Opening) (value a x y : Text), t = a ++ (x ++ (y ++ Piece.textOf ps)) →
    o.span.stop = Text.width (a ++ x) → here.offset = Text.width (a ++ (x ++ y)) →
    values.get? o.name = some value →
    (fillFrom kind key values strict here (some (o, true)) ps).map (x ++ value ++ ·) =
      outcome kind key values strict t (Text.width a) (Block.pairedFrom kind here (some o) ps)

variable {kind key values strict t}

theorem outside_nil : Outside kind key values strict t [] := by
  rintro here a x rfl hoffset
  have hsplice := Text.splice_nil a x
  rw [Piece.textOf_nil, List.append_nil] at *
  simp only [fillFrom, Except.map, outcome, Block.pairedFrom, Block.names, refused?, edits,
    List.filterMap_nil, hsplice]
  cases strict <;> simp

theorem kept_nil : Kept kind key values strict t [] := by
  rintro here o a x - - hname rfl
  rfl

theorem replaced_nil : Replaced kind key values strict t [] := by
  intro here o value a x y _ _ _ hvalue
  have hnames : Block.names (Block.pairedFrom kind here (some o) []) = [o.name] := rfl
  rw [outcome, hnames, refused?_cons_bound hvalue, refused?_nil]
  rfl

variable {p : Piece} {ps : List Piece}

/-- A piece more outside of blocks. If it opens one, what follows is `Kept` or `Replaced`. -/
theorem outside_cons (outside : Outside kind key values strict t ps)
    (kept : Kept kind key values strict t ps) (replaced : Replaced kind key values strict t ps) :
    Outside kind key values strict t (p :: ps) := by
  intro here a x ht hoffset
  have ht' : t = a ++ (x ++ p.text ++ Piece.textOf ps) := by
    rw [ht, Piece.textOf_cons, List.append_assoc x]
  have hoffset' := Place.offset_after hoffset p.text
  rw [List.append_assoc] at hoffset'
  rw [fillFrom, Block.pairedFrom]
  cases ho : Opening.ofPiece? kind here p with
  | none =>
    -- no opening marker: the piece is copied
    dsimp only
    rw [map_append]
    exact outside _ a (x ++ p.text) ht' hoffset'
  | some o =>
    dsimp only
    cases hvalue : values.get? o.name with
    | some value =>
      -- the new body goes behind the opening marker
      have hstop : o.span.stop = Text.width (a ++ (x ++ p.text)) := by
        obtain ⟨name, -, rfl⟩ := Option.map_eq_some_iff.1 ho
        exact hoffset'
      have h := replaced _ o value a (x ++ p.text) [] ht' hstop
        (by rw [List.append_nil]; exact hoffset') hvalue
      dsimp only
      rw [map_append, ← List.append_assoc]
      exact h
    | none =>
      dsimp only
      cases strict with
      | true =>
        -- the name is refused, before the end of the block is looked for
        obtain ⟨ns, hns⟩ := Block.exists_names_cons kind (here.after p.text) o ps
        rw [if_pos rfl, outcome, hns, refused?_cons_unbound hvalue]
        rfl
      | false =>
        rw [if_neg (by decide), map_append]
        exact kept _ o a (x ++ p.text) ht' hoffset' hvalue rfl

/-- A piece more in a block that keeps its body. If it closes it, what follows is `Outside`. -/
theorem kept_cons (outside : Outside kind key values strict t ps)
    (kept : Kept kind key values strict t ps) : Kept kind key values strict t (p :: ps) := by
  rintro here o a x ht hoffset hname rfl
  have ht' : t = a ++ (x ++ p.text ++ Piece.textOf ps) := by
    rw [ht, Piece.textOf_cons, List.append_assoc x]
  have hoffset' := Place.offset_after hoffset p.text
  rw [List.append_assoc] at hoffset'
  rw [fillFrom, Block.pairedFrom]
  dsimp only
  split
  · -- the block ends, and has no edit
    rw [outcome_cons_unbound hname, map_append]
    exact outside _ a (x ++ p.text) ht' hoffset'
  · rw [if_neg (by decide), map_append]
    exact kept _ o a (x ++ p.text) ht' hoffset' hname rfl

theorem replaced_cons (outside : Outside kind key values strict t ps)
    (replaced : Replaced kind key values strict t ps) :
    Replaced kind key values strict t (p :: ps) := by
  intro here o value a x y ht hstop hoffset hvalue
  have ht' : t = a ++ (x ++ (y ++ p.text ++ Piece.textOf ps)) := by
    rw [ht, Piece.textOf_cons, List.append_assoc y]
  have hoffset' := Place.offset_after hoffset p.text
  rw [fillFrom, Block.pairedFrom]
  dsimp only
  split
  · -- the block ends: the next edit is counted from its closing marker
    have hslice : t.slice (Text.width a) o.span.stop = x := by
      rw [hstop, ht, Text.width_append]
      exact Text.slice_append a x _
    have h := outside (here.after p.text) (a ++ (x ++ y)) p.text (by simp [ht]) hoffset'
    rw [← hoffset] at h
    rw [outcome_cons_bound hvalue]
    show _ = (outcome kind key values strict t here.offset _).map fun rest =>
      t.slice (Text.width a) o.span.stop ++ value ++ rest
    rw [← h, hslice]
  · -- the piece is part of the old body and left out
    rw [List.append_assoc, List.append_assoc] at hoffset'
    have h := replaced (here.after p.text) o value a x (y ++ p.text) ht' hstop hoffset' hvalue
    rw [← h, map_append, if_pos rfl, List.append_nil]

/-- **Filling goes on like this** whatever pieces `ps` are left. The three statements, one for each
state of the reader, are proved in one induction, since each piece can lead from one state to
another. -/
theorem fillFrom_eq (ps : List Piece) :
    Outside kind key values strict t ps ∧ Kept kind key values strict t ps ∧
      Replaced kind key values strict t ps := by
  induction ps with
  | nil => exact ⟨outside_nil, kept_nil, replaced_nil⟩
  | cons p ps ih =>
    obtain ⟨outside, kept, replaced⟩ := ih
    exact ⟨outside_cons outside kept replaced, kept_cons outside kept,
      replaced_cons outside replaced⟩

/-- Filling all blocks of a document has the `outcome` that its blocks determine. -/
theorem fill_eq :
    fillFrom kind key values strict .first none (Piece.ofText t) =
      outcome kind key values strict t 0 (Block.paired kind t) := by
  have houtside : Outside kind key values strict t (Piece.ofText t) := (fillFrom_eq _).1
  have h := houtside .first [] [] (Piece.textOf_ofText t).symm rfl
  rw [show (fun rest : Text => [] ++ rest) = id from rfl, Except.map_id] at h
  exact h

/-- Without edits a splice changes nothing. -/
theorem splice_nil_eq : t.splice 0 [] = t := Text.splice_nil [] t

end

/-- A function that fills the blocks of a kind by splicing. -/
structure Splices (kind : BlockKind) (key : KeyKind)
    (fill : Text → Bindings → Bool → Except Error Text) : Prop where
  /-- It refuses the first unresolved name, or fails as pairing the blocks does, or splices the
  bodies. -/
  result : ∀ t values strict,
    fill t values strict =
      match refused? values strict (Block.names (Block.paired kind t)), Block.pair kind t with
      | some name, _ => .error (.unresolvedKey key name)
      | none, .error e => .error e
      | none, .ok blocks => .ok (t.splice 0 (edits values blocks))
  /-- A document with no opening marker stays as it is. -/
  unopened : ∀ t values strict, (∀ p ∈ Piece.ofText t, p.opening? kind = none) →
    fill t values strict = .ok t
  /-- So does one in which no name is resolved, where that is allowed and all blocks are closed. -/
  unresolved : ∀ t values blocks, Block.pair kind t = .ok blocks →
    (∀ b ∈ blocks, values.get? b.name = none) → fill t values false = .ok t

/-- The outcome, told by `Block.pair`: a refused name comes first, then a block that is never
closed, and otherwise the bodies are replaced. -/
theorem fill_eq_pair (kind : BlockKind) (key : KeyKind) (values : Bindings) (strict : Bool)
    (t : Text) :
    fillFrom kind key values strict .first none (Piece.ofText t) =
      match refused? values strict (Block.names (Block.paired kind t)), Block.pair kind t with
      | some name, _ => .error (.unresolvedKey key name)
      | none, .error e => .error e
      | none, .ok blocks => .ok (t.splice 0 (edits values blocks)) := by
  rw [fill_eq, outcome, Block.pair_eq]
  cases refused? values strict (Block.names (Block.paired kind t)) with
  | some name => rfl
  | none => cases (Block.paired kind t).2 <;> rfl

/-- Without an opening marker there is no block, open or not. -/
theorem paired_of_unopened {kind : BlockKind} {ps : List Piece}
    (h : ∀ p ∈ ps, p.opening? kind = none) (here : Place) :
    Block.pairedFrom kind here none ps = ([], none) := by
  induction ps generalizing here with
  | nil => rfl
  | cons p ps ih =>
    have hp : Opening.ofPiece? kind here p = none := by
      rw [Opening.ofPiece?, h p List.mem_cons_self]
      rfl
    rw [Block.pairedFrom, hp]
    exact ih (fun q hq => h q (List.mem_cons_of_mem _ hq)) _

/-- Filling the blocks of any kind, with the key that its errors name, is a splice (`Splices`). -/
theorem splices (kind : BlockKind) (key : KeyKind) :
    Splices kind key fun t values strict =>
      fillFrom kind key values strict .first none (Piece.ofText t) where
  result t values strict := fill_eq_pair kind key values strict t
  unopened t values strict h := by
    rw [fill_eq, Block.paired, paired_of_unopened h, outcome]
    show (match refused? values strict [], none with
      | some name, _ => .error (.unresolvedKey key name)
      | none, some o => .error (Opening.unclosed kind o)
      | none, none => .ok (t.splice 0 [])) = Except.ok t
    rw [refused?_nil, splice_nil_eq]
  unresolved t values blocks hpair h := by
    have hedits : edits values blocks = [] := by
      rw [edits, List.filterMap_eq_nil_iff]
      intro b hb
      rw [h b hb]
      rfl
    rw [fill_eq_pair, hpair]
    show Except.ok (t.splice 0 (edits values blocks)) = Except.ok t
    rw [hedits, splice_nil_eq]

/-- **References and variables are filled in by splicing** (`Splices`). The blocks are those that
can be paired, up to an opening marker that no closing marker follows; with such a marker pairing
fails. Their bodies lie in the document one after the other. The first unresolved name is refused,
if names are refused; else the marker without an end is an error; else the bodies of the blocks with
resolved names are replaced, and all other bytes are copied. -/
theorem refs_vars_splice :
    Splices .inclusion .ref refs ∧ Splices .var .var vars ∧
      ∀ kind t, t.Cuts 0 ((Block.paired kind t).1.map Block.inner) ∧
        Block.pair kind t =
          match (Block.paired kind t).2 with
          | some o => .error (o.unclosed kind)
          | none => .ok (Block.paired kind t).1 :=
  ⟨splices .inclusion .ref, splices .var .var,
    fun kind t => ⟨Block.cuts_paired kind t, Block.pair_eq kind t⟩⟩

/-- A document with one block. -/
def blockText : Text := "<!--begin-include(a)-->x<!--end-include-->".toList

theorem ofText_blockText :
    Piece.ofText blockText =
      [.plain [], .comment "begin-include(a)".toList, .plain ['x'], .comment "end-include".toList,
        .plain []] := by
  have hfirst : Piece.firstComment? blockText =
      some ([] ++ [], "begin-include(a)".toList, "x<!--end-include-->".toList) :=
    Piece.firstComment?_of_cutAt? rfl (Piece.afterOpener?_closed rfl rfl)
  have hsecond : Piece.firstComment? "x<!--end-include-->".toList =
      some (['x'] ++ [], "end-include".toList, []) :=
    Piece.firstComment?_of_cutAt? (u := "end-include-->".toList) rfl
      (Piece.afterOpener?_closed rfl rfl)
  rw [Piece.ofText_some hfirst, Piece.ofText_some hsecond, Piece.ofText_none (t := []) rfl]
  rfl

/-- The block that an opening marker `a` and a closing marker `b` enclose. -/
theorem pairFrom_markers {kind : BlockKind} {name a b t : Text}
    (ha : Directive.ofBody? a = some (.opening kind name))
    (hb : Directive.ofBody? b = some (.closing kind)) (here : Place) :
    Block.pairFrom kind here none [.comment a, .plain t, .comment b, .plain []] =
      .ok [⟨kind, name, here.span (Piece.comment a).text,
        ((here.after (Piece.comment a).text).after t).span (Piece.comment b).text⟩] := by
  simp [Block.pairFrom, Opening.ofPiece?, Piece.opening?, Piece.closes, Piece.directive?, ha, hb,
    Piece.text, Except.map]

theorem pair_blockText :
    Block.pair .inclusion blockText = .ok [⟨.inclusion, ['a'], ⟨0, 23⟩, ⟨24, 42⟩⟩] := by
  have hopen : Directive.ofBody? "begin-include(a)".toList = some (.opening .inclusion ['a']) :=
    @Directive.ofBody?_opening .inclusion ['a'] rfl
  rw [Block.pair, ofText_blockText, Block.pairFrom]
  exact (pairFrom_markers hopen (Directive.ofBody?_closing .inclusion) _).trans rfl

/-- Where no name is bound, the document `blockText` stays as it is. -/
theorem refs_vars_splice_blockText :
    Block.pair .inclusion blockText = .ok [⟨.inclusion, ['a'], ⟨0, 23⟩, ⟨24, 42⟩⟩] ∧
      refs blockText .empty false = .ok blockText :=
  ⟨pair_blockText, refs_vars_splice.1.unresolved _ _ _ pair_blockText fun _ _ => rfl⟩

end Fill

end Transclude
