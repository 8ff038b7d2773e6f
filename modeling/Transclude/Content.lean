import Transclude.Markup.Block
import Transclude.Bindings
import Transclude.Text.Blank

/-!
# Collecting and showing content

A document holds content for others in its reference blocks, and shows content in three kinds of
places: blocks that show a reference, blocks that show a variable, and include markers, which give
way to the content of a file.

- `References.collect` (`collect_refs`) collects the bodies of the blocks of kind `ref`, without
  their comments, in one pass over the pieces. A name that is bound already is refused when its
  opening marker is met, before the closing marker is looked for. Which name that is does not depend
  on the texts: `References.firstTaken?` tells it for a list of names, here and for variables.
- `Fill.refs` and `Fill.vars` (`apply_refs`, `apply_vars`) give the blocks of one kind new bodies: a
  block whose name is bound shows the text bound to it. All else stays as it is, the markers
  included. An unbound name is an error if `strict` is set; it is noticed at the opening marker,
  before the closing marker is looked for. Otherwise the block keeps its body.
- `Include.expand` (`apply_include_files`) replaces include markers by content, either as it is or
  as a box: with a lead before every line. A blank line of a box shows the lead without the blanks
  at its end. The content comes from a function of the file's name. Content that it does not find
  leaves the marker in place, or is an error if `strict` is set; any other failure is passed on.

The program finds the blocks first and goes through them; here one pass over the pieces does both.
`Fill.refs_vars_splice`, in the theory of filling, shows that it comes to the same.

Main statements:
- `References.firstTaken?_eq_some_iff`, `References.firstTaken?_eq_none_iff`: which name is refused.
- `Include.splitOn_box`: the line feeds of a box cut it where those of its content cut the content.
-/

namespace Transclude

/-! ## References -/

namespace References

/-- Adds the references of a row of pieces that begins at `here`. `inside` is the opening marker of
the block that is open there, with the text of its body so far. -/
def collectFrom (here : Place) :
    (inside : Option (Opening × Text)) → List Piece → Bindings → Except Error Bindings
  | none, [], refs => .ok refs
  | some (o, _), [], _ => .error (o.unclosed .ref)
  | none, p :: ps, refs =>
    match Opening.ofPiece? .ref here p with
    | none => collectFrom (here.after p.text) none ps refs
    | some o =>
      if refs.contains o.name then .error (.duplicateKey .ref o.name)
      else collectFrom (here.after p.text) (some (o, [])) ps refs
  | some (o, body), p :: ps, refs =>
    if p.closes .ref then
      collectFrom (here.after p.text) none ps (refs.set o.name (Piece.strip body))
    else collectFrom (here.after p.text) (some (o, body ++ p.text)) ps refs

/-- All references of a document, on top of `previous`. -/
def collect (t : Text) (previous : Bindings) : Except Error Bindings :=
  collectFrom .first none (Piece.ofText t) previous

/-- The first name that is taken, or that stands in the list before. -/
def firstTaken? (taken : Text → Bool) : List Text → Option Text
  | [] => none
  | n :: ns => if taken n then some n else firstTaken? (fun x => x == n || taken x) ns

/-- Names that are all different, and none of them taken. -/
def Fresh (taken : Text → Bool) (names : List Text) : Prop :=
  names.Nodup ∧ ∀ n ∈ names, taken n = false

theorem fresh_nil (taken : Text → Bool) : Fresh taken [] :=
  ⟨List.nodup_nil, fun _ h => nomatch h⟩

/-- The names `n :: ns` are `Fresh` if `n` is not taken, and `ns` are fresh where `n` counts as
taken too. -/
theorem fresh_cons_iff {taken : Text → Bool} {n : Text} {ns : List Text} :
    Fresh taken (n :: ns) ↔ taken n = false ∧ Fresh (fun x => x == n || taken x) ns := by
  simp only [Fresh, List.nodup_cons, List.forall_mem_cons, Bool.or_eq_false_iff,
    beq_eq_false_iff_ne]
  constructor
  · rintro ⟨⟨hnot, hns⟩, hn, hall⟩
    exact ⟨hn, hns, fun x hx => ⟨fun heq => hnot (heq ▸ hx), hall x hx⟩⟩
  · rintro ⟨hn, hns, hall⟩
    exact ⟨⟨fun hmem => (hall n hmem).1 rfl, hns⟩, hn, fun x hx => (hall x hx).2⟩

/-- **Which name is refused**: the first one that is taken, or that stands among the fresh names
`before` it. -/
theorem firstTaken?_eq_some_iff {taken : Text → Bool} {names : List Text} {name : Text} :
    firstTaken? taken names = some name ↔
      ∃ before after, names = before ++ name :: after ∧ Fresh taken before ∧
        (taken name = true ∨ name ∈ before) := by
  induction names generalizing taken with
  | nil => simp [firstTaken?]
  | cons n ns ih =>
    rw [firstTaken?]
    split
    · next hn =>
      rw [Option.some.injEq]
      constructor
      · rintro rfl
        exact ⟨[], ns, rfl, fresh_nil taken, .inl hn⟩
      · rintro ⟨before, after, heq, hfresh, -⟩
        cases before with
        | nil => exact (List.cons.inj heq).1
        | cons m before =>
          obtain ⟨rfl, -⟩ := List.cons.inj heq
          rw [(fresh_cons_iff.1 hfresh).1] at hn
          cases hn
    · next hn =>
      rw [ih]
      constructor
      · rintro ⟨before, after, rfl, hfresh, htaken⟩
        refine ⟨n :: before, after, rfl, fresh_cons_iff.2 ⟨by simpa using hn, hfresh⟩, ?_⟩
        simpa [or_assoc, or_comm, or_left_comm] using htaken
      · rintro ⟨before, after, heq, hfresh, htaken⟩
        cases before with
        | nil =>
          obtain ⟨rfl, -⟩ := List.cons.inj heq
          exact absurd (htaken.resolve_right List.not_mem_nil) hn
        | cons m before =>
          obtain ⟨rfl, rfl⟩ := List.cons.inj heq
          refine ⟨before, after, rfl, (fresh_cons_iff.1 hfresh).2, ?_⟩
          simpa [or_assoc, or_comm, or_left_comm] using htaken

/-- The search `firstTaken?` refuses no name exactly when all of `names` are `Fresh`. -/
theorem firstTaken?_eq_none_iff {taken : Text → Bool} {names : List Text} :
    firstTaken? taken names = none ↔ Fresh taken names := by
  induction names generalizing taken with
  | nil => simp [firstTaken?, fresh_nil]
  | cons n ns ih =>
    rw [firstTaken?, fresh_cons_iff]
    split
    · next hn => simp [hn]
    · next hn => simp [hn, ih]

/-- Names that are fresh beside what is bound: no two are equal, and none of them is bound by
`b`. -/
theorem fresh_contains_iff {b : Bindings} {names : List Text} :
    Fresh b.contains names ↔ names.Nodup ∧ ∀ n ∈ names, b.get? n = none := by
  simp only [Fresh, Bindings.contains, Option.isSome_eq_false_iff, Option.isNone_iff_eq_none]

end References

/-! ## Filling blocks -/

namespace Fill

/-- Fills the blocks of a row of pieces that begins at `here`. `inside` is the opening marker of the
block that is open there; its flag tells whether the body is replaced. -/
def fillFrom (kind : BlockKind) (key : KeyKind) (values : Bindings) (strict : Bool) (here : Place) :
    (inside : Option (Opening × Bool)) → List Piece → Except Error Text
  | none, [] => .ok []
  | some (o, _), [] => .error (o.unclosed kind)
  | none, p :: ps =>
    let here' := here.after p.text
    match Opening.ofPiece? kind here p with
    | none => (fillFrom kind key values strict here' none ps).map (p.text ++ ·)
    | some o =>
      match values.get? o.name with
      | some value =>
        (fillFrom kind key values strict here' (some (o, true)) ps).map (p.text ++ value ++ ·)
      | none =>
        if strict then .error (.unresolvedKey key o.name)
        else (fillFrom kind key values strict here' (some (o, false)) ps).map (p.text ++ ·)
  | some (o, replaced), p :: ps =>
    let here' := here.after p.text
    if p.closes kind then (fillFrom kind key values strict here' none ps).map (p.text ++ ·)
    else
      (fillFrom kind key values strict here' (some (o, replaced)) ps).map
        ((if replaced then [] else p.text) ++ ·)

/-- The document in which blocks of kind `inclusion` show references. -/
def refs (t : Text) (values : Bindings) (strict : Bool) : Except Error Text :=
  fillFrom .inclusion .ref values strict .first none (Piece.ofText t)

/-- The document in which blocks of kind `var` show variables. -/
def vars (t : Text) (values : Bindings) (strict : Bool) : Except Error Text :=
  fillFrom .var .var values strict .first none (Piece.ofText t)

end Fill

/-! ## Included files -/

/-- How included content is shown. -/
inductive IncludeMode where
  | raw
  | box
  deriving DecidableEq, Repr

namespace IncludeMode

/-- The word for a mode in settings. -/
def name : IncludeMode → String
  | raw => "raw"
  | box => "box"

/-- The mode with this word. -/
def ofName? (word : Text) : Option IncludeMode :=
  [raw, box].find? fun mode => mode.name.toList = word

end IncludeMode

namespace Include

/-- The lead before every line in a box, unless another is chosen. -/
def defaultLead : Text := ['>', ' ']

/-- A line of a box. -/
def boxLine (lead line : Text) : Text :=
  if Text.allBlank line then Text.trimEnd lead else lead ++ line

/-- Content in a box. -/
def box (lead content : Text) : Text :=
  let shown := List.intercalate ['\n'] ((Text.lines content).map (boxLine lead))
  if content.getLast? = some '\n' then shown ++ ['\n'] else shown

/-- Content as a mode shows it. -/
def format (mode : IncludeMode) (lead content : Text) : Text :=
  match mode with
  | .raw => content
  | .box => box lead content

/-- The pieces with their include markers replaced. -/
def expandPieces (content : Text → Except Error Text) (shown : Text → Text) (strict : Bool) :
    List Piece → Except Error Text
  | [] => .ok []
  | p :: ps =>
    match p.directive? with
    | some (.includeFile name) =>
      match content name with
      | .ok c => (expandPieces content shown strict ps).map (shown c ++ ·)
      | .error (.notFound _) =>
        if strict then .error (.unresolvedKey .file name)
        else (expandPieces content shown strict ps).map (p.text ++ ·)
      | .error e => .error e
    | _ => (expandPieces content shown strict ps).map (p.text ++ ·)

/-- The document with its include markers replaced. -/
def expand (t : Text) (content : Text → Except Error Text) (shown : Text → Text) (strict : Bool) :
    Except Error Text :=
  expandPieces content shown strict (Piece.ofText t)

/-! ### The lines of a box

The line feeds of a content cut it into pieces, one more than there are of them, and each piece is
shown in its place. The piece behind the last line feed is no line if it is empty, and then it stays
empty; all others are lines, and have the lead before them. -/

section

variable {lead content last : Text} {front : List Text}

/-- A box is made of the pieces of its content between line feeds. Each is a line with `lead` before
it, but nothing is made of an empty last piece. -/
theorem box_eq_intercalate (h : content.splitOn '\n' = front ++ [last]) :
    box lead content = List.intercalate ['\n']
      (front.map (fun piece => boxLine lead (Text.dropReturn piece)) ++
        [if last = [] then [] else boxLine lead last]) := by
  rw [box, Text.lines_of_splitOn h, List.map_append, List.map_map]
  by_cases hlast : last = []
  · rw [if_pos hlast, if_pos hlast, List.map_nil, List.append_nil]
    by_cases hfront : front = []
    · rw [if_neg fun hend => ((Text.getLast?_eq_newline_iff h).1 hend).1 hfront, hfront]
      rfl
    · rw [if_pos ((Text.getLast?_eq_newline_iff h).2 ⟨hfront, hlast⟩),
        intercalate_concat '\n' (by simpa using hfront)]
      rfl
  · rw [if_neg hlast, if_neg hlast,
      if_neg fun hend => hlast ((Text.getLast?_eq_newline_iff h).1 hend).2]
    rfl

theorem newline_not_mem_boxLine {line : Text} (hlead : '\n' ∉ lead) (hline : '\n' ∉ line) :
    '\n' ∉ boxLine lead line := by
  unfold boxLine
  split
  · exact Text.newline_not_mem_trimEnd hlead
  · exact List.not_mem_append hlead hline

/-- **The pieces of a box** between line feeds are the lines made by `boxLine` of the pieces of its
content, one for each, in their order. For this `lead` must have no line feed. -/
theorem splitOn_box (hlead : '\n' ∉ lead) (h : content.splitOn '\n' = front ++ [last]) :
    (box lead content).splitOn '\n' =
      front.map (fun piece => boxLine lead (Text.dropReturn piece)) ++
        [if last = [] then [] else boxLine lead last] := by
  have hfree : ∀ piece ∈ front ++ [last], '\n' ∉ piece := fun piece hpiece =>
    not_mem_of_mem_splitOn (h ▸ hpiece)
  rw [box_eq_intercalate h]
  refine List.splitOn_intercalate '\n' (fun piece hpiece => ?_) (List.concat_ne_nil _ _)
  rcases List.mem_append.1 hpiece with hmem | hmem
  · obtain ⟨part, hpart, rfl⟩ := List.mem_map.1 hmem
    exact newline_not_mem_boxLine hlead
      (Text.newline_not_mem_dropReturn (hfree part (List.mem_append_left _ hpart)))
  · rw [List.mem_singleton.1 hmem]
    split
    · exact List.not_mem_nil
    · exact newline_not_mem_boxLine hlead (hfree last (by simp))

end

end Include

end Transclude
