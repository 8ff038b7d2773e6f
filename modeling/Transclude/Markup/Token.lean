import Transclude.Markup.Piece
import Transclude.Markup.Directive

/-!
# Tokens

A token is a directive of a document together with the place of its comment (`tokenize`). Places are
measured in bytes of the UTF-8 form, by adding up the widths of the pieces before: the program reads
the document by position instead.

Readers lose nothing, so a document is the text before a part of it, that part, and the text after
it. The second half of this file relates that view to the other one, where the part is known by the
bytes at which it starts and stops. A span holds a text (`Span.Holds`) when both of its ends fall
between characters of the document, and the bytes between them are those of the text. A document is
changed by splicing: the stretches between some spans are kept, and the spans get new texts
(`Text.splice`).

Main statements:
- `Span.holds_span`: the span of a part of the document holds that part.
- `Text.splice_append`: a splice goes on behind its first span.
-/

namespace Transclude

/-- A stretch of a document from byte `start` up to byte `stop`, the latter not included. -/
structure Span where
  start : Nat
  stop : Nat
  deriving DecidableEq, Repr

/-- A place in a document: the bytes before it, and its line, counted from one. -/
structure Place where
  offset : Nat
  line : Nat
  deriving DecidableEq, Repr

namespace Place

/-- The beginning of a document. -/
def first : Place := ⟨0, 1⟩

/-- The place after a text that begins here. -/
def after (p : Place) (t : Text) : Place := ⟨p.offset + Text.width t, p.line + Text.newlines t⟩

/-- The span of a text that begins here. -/
def span (p : Place) (t : Text) : Span := ⟨p.offset, p.offset + Text.width t⟩

end Place

/-- The directive that a piece holds: plain text holds none. -/
def Piece.directive? : Piece → Option Directive
  | .plain _ => none
  | .comment body => Directive.ofBody? body

/-- A directive with the body of its comment and the offset at which the comment starts. -/
structure Token where
  directive : Directive
  body : Text
  start : Nat
  deriving DecidableEq, Repr

namespace Token

/-- The span of the whole comment. -/
def span (t : Token) : Span := ⟨t.start, t.start + Text.width (Piece.comment t.body).text⟩

/-- The span of the quoted value of a declaration, with its quotes. -/
def valueSpan (t : Token) (quote : Char) (raw : Text) : Span :=
  let before := opener ++ Lexeme.textOf (Lexeme.beforeQuoted (Lexeme.ofText t.body))
  Place.span ⟨t.start + Text.width before, 0⟩ (Lexeme.quoted quote raw).text

/-- The tokens of a row of pieces that begins at a given offset. -/
def ofPieces (offset : Nat) : List Piece → List Token
  | [] => []
  | p :: ps =>
    let rest := ofPieces (offset + Text.width p.text) ps
    match p with
    | .plain _ => rest
    | .comment body =>
      match Directive.ofBody? body with
      | some d => ⟨d, body, offset⟩ :: rest
      | none => rest

/-- The tokens of a document, in their order. -/
def ofText (t : Text) : List Token := ofPieces 0 (Piece.ofText t)

end Token

/-- The spans of all comments of a row of pieces that begins at a given offset. -/
def Piece.commentSpans (offset : Nat) : List Piece → List Span
  | [] => []
  | p :: ps =>
    let rest := commentSpans (offset + Text.width p.text) ps
    match p with
    | .plain _ => rest
    | .comment _ => Place.span ⟨offset, 0⟩ p.text :: rest

/-! ## Slices of a document -/

namespace Text

/-- Whether byte `n` of a text is the beginning of a character, or the end of the text. -/
def IsBoundary (t : Text) (n : Nat) : Prop := ∃ a b, t = a ++ b ∧ n = width a

theorem IsBoundary.le {t : Text} {n : Nat} (h : IsBoundary t n) : n ≤ width t := by
  obtain ⟨a, b, rfl, rfl⟩ := h
  rw [width_append]
  exact Nat.le_add_right _ _

/-- The slice of a text between the places behind `a` and behind `x` is `x`. Places are given by the
widths of what is before them. -/
theorem slice_append (a x b : Text) :
    slice (a ++ (x ++ b)) (width a) (width a + width x) = x := by
  rw [slice, dropBytes_width, Nat.add_sub_cancel_left, takeBytes_width]

/-- The document with new texts in place of some spans: what stands between the spans is copied,
from byte `cursor` on. -/
def splice (t : Text) (cursor : Nat) : List (Span × Text) → Text
  | [] => slice t cursor (width t)
  | (s, new) :: edits => slice t cursor s.start ++ new ++ splice t s.stop edits

theorem splice_nil (a b : Text) : splice (a ++ b) (width a) [] = b := by
  have h := slice_append a b []
  rw [List.append_nil] at h
  rw [splice, width_append, h]

/-- A splice copies the text `x` up to its first span, puts `new` in place of what the span holds,
and goes on behind it. -/
theorem splice_append (a x y b new : Text) (edits : List (Span × Text)) :
    splice (a ++ (x ++ (y ++ b))) (width a)
        ((⟨width (a ++ x), width (a ++ (x ++ y))⟩, new) :: edits) =
      x ++ new ++ splice (a ++ (x ++ (y ++ b))) (width (a ++ (x ++ y))) edits := by
  rw [splice, width_append a x, slice_append]

end Text

theorem Place.offset_after {here : Place} {a : Text} (h : here.offset = Text.width a) (x : Text) :
    (here.after x).offset = Text.width (a ++ x) := by
  rw [after, h, Text.width_append]

/-- What a span of a document holds: both of its ends are boundaries between characters. -/
structure Span.Holds (t : Text) (s : Span) (x : Text) : Prop where
  start : Text.IsBoundary t s.start
  stop : Text.IsBoundary t s.stop
  ordered : s.start ≤ s.stop
  slice : Text.slice t s.start s.stop = x

/-- The span of a part `x` of a document holds that part: it lies within the document, at
boundaries, and the slice there is `x`. -/
theorem Span.holds_span (a x b : Text) :
    Span.Holds (a ++ (x ++ b)) ⟨Text.width a, Text.width a + Text.width x⟩ x where
  start := ⟨a, x ++ b, rfl, rfl⟩
  stop := ⟨a ++ x, b, by rw [List.append_assoc], by rw [Text.width_append]⟩
  ordered := Nat.le_add_right _ _
  slice := Text.slice_append a x b

end Transclude
