import Transclude.Markup.Token
import Transclude.Error

/-!
# Blocks

A block reaches from an opening marker to the first closing marker of the same kind after it.
Markers of other kinds, and opening markers inside a block, are part of its body.

`Block.pair` (`parse_blocks`) finds all blocks of a kind at once. A `Scanner` (`BlockScanner`) goes
from marker to marker, for readers that decide at an opening marker what to do next: it only moves
forward, and a marker that it has passed it never returns. The program counts the tokens that it has
passed; here a scanner holds the pieces that are left, with the place where they begin.
-/

namespace Transclude

namespace Piece

/-- The name in an opening marker of this kind. -/
def opening? (kind : BlockKind) (p : Piece) : Option Text :=
  match p.directive? with
  | some (.opening k name) => if k = kind then some name else none
  | _ => none

/-- Whether the piece is a closing marker of this kind. -/
def closes (kind : BlockKind) (p : Piece) : Bool := p.directive? = some (.closing kind)

end Piece

/-- An opening marker, with its span and the line on which it starts. -/
structure Opening where
  name : Text
  span : Span
  line : Nat
  deriving DecidableEq, Repr

/-- A block, with the spans of its two markers. -/
structure Block where
  kind : BlockKind
  name : Text
  opening : Span
  closing : Span
  deriving DecidableEq, Repr

/-- The error of a block that is never closed. -/
def Opening.unclosed (kind : BlockKind) (o : Opening) : Error := .missingEnd kind o.name o.line

/-- The opening marker that a piece is, if it is one of this kind. -/
def Opening.ofPiece? (kind : BlockKind) (here : Place) (p : Piece) : Option Opening :=
  (p.opening? kind).map fun name => ⟨name, here.span p.text, here.line⟩

namespace Block

/-- The text between the two markers of a block of the document `t`. -/
def body (b : Block) (t : Text) : Text := Text.slice t b.opening.stop b.closing.start

/-- The blocks of a kind in a row of pieces that begins at `here`, inside the block with the opening
marker `inside` or outside any block. -/
def pairFrom (kind : BlockKind) (here : Place) :
    Option Opening → List Piece → Except Error (List Block)
  | none, [] => .ok []
  | some o, [] => .error (o.unclosed kind)
  | none, p :: ps => pairFrom kind (here.after p.text) (Opening.ofPiece? kind here p) ps
  | some o, p :: ps =>
    if p.closes kind then
      let block : Block := ⟨kind, o.name, o.span, here.span p.text⟩
      (pairFrom kind (here.after p.text) none ps).map (block :: ·)
    else pairFrom kind (here.after p.text) (some o) ps

/-- The blocks of a kind in a document; an error if one of them is never closed. -/
def pair (kind : BlockKind) (t : Text) : Except Error (List Block) :=
  pairFrom kind .first none (Piece.ofText t)

end Block

/-- A reader of the markers of one kind: the pieces that it has not passed, and where they begin. -/
structure Scanner where
  kind : BlockKind
  here : Place
  rest : List Piece
  deriving DecidableEq, Repr

namespace Scanner

/-- A scanner at the beginning of a document. -/
def ofText (kind : BlockKind) (t : Text) : Scanner := ⟨kind, .first, Piece.ofText t⟩

/-- The first opening marker in a row of pieces, and the scanner after it. -/
def openingIn (kind : BlockKind) (here : Place) : List Piece → Option Opening × Scanner
  | [] => (none, ⟨kind, here, []⟩)
  | p :: ps =>
    match Opening.ofPiece? kind here p with
    | some o => (some o, ⟨kind, here.after p.text, ps⟩)
    | none => openingIn kind (here.after p.text) ps

/-- The span of the first closing marker in a row of pieces, and the scanner after it. -/
def closingIn (kind : BlockKind) (here : Place) : List Piece → Option Span × Scanner
  | [] => (none, ⟨kind, here, []⟩)
  | p :: ps =>
    if p.closes kind then (some (here.span p.text), ⟨kind, here.after p.text, ps⟩)
    else closingIn kind (here.after p.text) ps

/-- Moves past the next opening marker, or to the end if there is none. -/
def nextOpening (s : Scanner) : Option Opening × Scanner := openingIn s.kind s.here s.rest

/-- Moves past the next closing marker, and takes it as the end of the block that `o` opens. Without
one the block stays open, and the scanner is at the end. -/
def close (s : Scanner) (o : Opening) : Except Error Block × Scanner :=
  match closingIn s.kind s.here s.rest with
  | (some closing, s') => (.ok ⟨s.kind, o.name, o.span, closing⟩, s')
  | (none, s') => (.error (o.unclosed s.kind), s')

end Scanner

end Transclude
