import Transclude.Proofs.Comments
import Transclude.Proofs.ByteReader

/-!
# The comments and tokens of a document

The pieces of a document determine where its comments are (`Piece.commentSpans`) and what its tokens
are (`Token.ofText`). Every reader and every change of a document slices it at these places. This
file shows that the slices exist and hold what they are taken to hold.

The step from a place to the text around it is `Piece.exists_split_of_mem_commentSpans`: a comment
span of the document is a comment among its pieces, with the pieces before and after it. What is
known of that comment (`Piece.commentAt_of_split`) then says how its span came about.

Main statements:
- `Piece.commentSpan_of_mem`: a comment span lies between characters, holds a comment, and ends
  where the declaration at its opener ends, or else has neither mark in its body.
- `Token.wellFormed_of_mem`: the span of a token is that of a comment, its name is a name, and the
  span of its value holds the quoted value.
-/

namespace Transclude

namespace Piece

/-! ## The spans of comments -/

theorem commentSpans_plain (n : Nat) (t : Text) (ps : List Piece) :
    commentSpans n (plain t :: ps) = commentSpans (n + Text.width t) ps := rfl

theorem commentSpans_comment (n : Nat) (body : Text) (ps : List Piece) :
    commentSpans n (comment body :: ps) =
      Place.span ⟨n, 0⟩ (comment body).text ::
        commentSpans (n + Text.width (comment body).text) ps := rfl

/-- A comment span is that of a comment among the pieces, behind a part `l` of the row. -/
theorem exists_split_of_mem_commentSpans {n : Nat} {ps : List Piece} {s : Span}
    (h : s ∈ commentSpans n ps) :
    ∃ l body r, ps = l ++ comment body :: r ∧
      s = Place.span ⟨n + Text.width (textOf l), 0⟩ (comment body).text := by
  induction ps generalizing n with
  | nil => cases h
  | cons p ps ih =>
    have hlater (h : s ∈ commentSpans (n + Text.width p.text) ps) :
        ∃ l body r, p :: ps = l ++ comment body :: r ∧
          s = Place.span ⟨n + Text.width (textOf l), 0⟩ (comment body).text := by
      obtain ⟨l, body, r, rfl, rfl⟩ := ih h
      refine ⟨p :: l, body, r, rfl, ?_⟩
      rw [textOf_cons, Text.width_append, Nat.add_assoc]
    cases p with
    | plain t => exact hlater h
    | comment body =>
      rw [commentSpans_comment, List.mem_cons] at h
      rcases h with rfl | h
      · exact ⟨[], body, ps, rfl, rfl⟩
      · exact hlater h

theorem le_start_of_mem_commentSpans {n : Nat} {ps : List Piece} {s : Span}
    (h : s ∈ commentSpans n ps) : n ≤ s.start := by
  obtain ⟨l, body, r, -, rfl⟩ := exists_split_of_mem_commentSpans h
  exact Nat.le_add_right _ _

/-- Each comment ends before the next begins. -/
theorem pairwise_commentSpans (n : Nat) (ps : List Piece) :
    (commentSpans n ps).Pairwise fun a b => a.stop ≤ b.start := by
  induction ps generalizing n with
  | nil => exact .nil
  | cons p ps ih =>
    cases p with
    | plain t => exact ih _
    | comment body =>
      rw [commentSpans_comment]
      exact .cons (fun s hs => le_start_of_mem_commentSpans hs) (ih _)

/-- What is known of a comment among the pieces of a document: the reader at its opener found it
there, with all the text behind it. -/
theorem commentAt_of_split {t body : Text} {l r : List Piece}
    (h : ofText t = l ++ comment body :: r) :
    CommentAt body (textOf r) := by
  fun_induction ofText t generalizing l with
  | case1 t hf =>
    cases l with
    | nil => cases h
    | cons p l => simp at h
  | case2 t before b rest hf ih =>
    rcases l with _ | ⟨p, _ | ⟨q, l⟩⟩
    · cases h
    · simp only [List.cons_append, List.nil_append, List.cons.injEq, comment.injEq] at h
      obtain ⟨-, rfl, rfl⟩ := h
      rw [textOf_ofText]
      exact (firstComment?_eq_some_iff.1 hf).2.2
    · -- it is a comment of the text behind the first one
      refine ih (l := l) ?_
      simp only [List.cons_append, List.cons.injEq] at h
      exact h.2.2

/-- A comment is what the reader at its opener finds, or the reader finds nothing and there is no
mark in the body. -/
theorem read?_of_commentAt {body rest : Text} (h : CommentAt body rest) :
    (∃ d : Declaration, d.WellFormed ∧ d.body = body ∧
        Declaration.read? (body ++ (closer ++ rest)) = some (d, rest)) ∨
      (comment body).isDeclaration = false ∧ Declaration.read? (body ++ (closer ++ rest)) = none ∧
        ¬opener <:+: body ∧ ¬closer <:+: body := by
  have hread {d : Declaration} (hd : d.WellFormed) (hb : d.body = body) :
      Declaration.read? (body ++ (closer ++ rest)) = some (d, rest) :=
    Declaration.read?_eq_some_iff.2 ⟨hd, by rw [hb, List.append_assoc]⟩
  rcases h with ⟨d, hd, hb⟩ | ⟨hnone, ho, hc⟩
  · exact .inl ⟨d, hd, hb, hread hd hb⟩
  · refine .inr ⟨?_, hnone, ho, hc⟩
    cases hdecl : (comment body).isDeclaration with
    | false => rfl
    | true =>
      obtain ⟨d, hd, hb⟩ := isDeclaration_iff.1 hdecl
      rw [hread hd hb] at hnone
      cases hnone

/-- Where the reader of bytes stops at an opener, told in widths by what the reader of characters
finds. -/
theorem stopAt?_comment (a body rest : Text) :
    Declaration.stopAt? (a ++ ((comment body).text ++ rest)) (Text.width a) =
      (Declaration.read? (body ++ (closer ++ rest))).map fun p =>
        Text.width (a ++ ((comment body).text ++ rest)) - Text.width p.2 := by
  have htext : (comment body).text ++ rest = opener ++ (body ++ (closer ++ rest)) := by simp [text]
  rw [htext, Declaration.stopAt?_width]

/-- What the span of a comment is like. -/
structure CommentSpan (t : Text) (s : Span) (body : Text) : Prop where
  /-- It holds the comment with its marks, which do not overlap. -/
  whole : s.Holds t (opener ++ body ++ closer)
  marks : s.start + opener.length + closer.length ≤ s.stop
  /-- Between the marks stands the body. -/
  inner : Span.Holds t ⟨s.start + opener.length, s.stop - closer.length⟩ body
  /-- It ends with the declaration that its opener begins, or it has no mark in its body. -/
  ends : (Declaration.stopAt? t s.start = some s.stop ∧ (comment body).isDeclaration = true) ∨
    Declaration.stopAt? t s.start = none ∧ (comment body).isDeclaration = false ∧
      ¬opener <:+: body ∧ ¬closer <:+: body

/-- A comment behind a part `l` of a document has the span that begins at the width of `l`, and
`CommentSpan` holds of it. -/
theorem commentSpan_of_split {t body : Text} {l r : List Piece}
    (h : ofText t = l ++ comment body :: r) :
    CommentSpan t (Place.span ⟨Text.width (textOf l), 0⟩ (comment body).text) body := by
  have ht : t = textOf l ++ ((comment body).text ++ textOf r) := by
    rw [← textOf_ofText t, h, textOf_append, textOf_cons]
  have hcomment := commentAt_of_split h
  have hopen : Text.width opener = opener.length := rfl
  have hclose : Text.width closer = closer.length := rfl
  have hwidth : Text.width (comment body).text =
      opener.length + Text.width body + closer.length := by
    rw [text, Text.width_append, Text.width_append, hopen, hclose]
  refine ⟨?_, ?_, ?_, ?_⟩
  · rw [ht]
    exact Span.holds_span _ _ _
  · show Text.width (textOf l) + opener.length + closer.length ≤
      Text.width (textOf l) + Text.width (comment body).text
    rw [hwidth]
    omega
  · have hinner := Span.holds_span (textOf l ++ opener) body (closer ++ textOf r)
    rw [Text.width_append, hopen] at hinner
    have hstop : Text.width (textOf l) + Text.width (comment body).text - closer.length =
        Text.width (textOf l) + opener.length + Text.width body := by
      rw [hwidth]
      omega
    rw [Place.span, hstop, ht, text]
    simpa using hinner
  · have hstop := stopAt?_comment (textOf l) body (textOf r)
    rw [← ht] at hstop
    rcases read?_of_commentAt hcomment with ⟨d, hd, hb, hread⟩ | ⟨hdecl, hread, hmarks⟩
    · -- the reader at the opener ends where the comment does
      left
      refine ⟨?_, isDeclaration_iff.2 ⟨d, hd, hb⟩⟩
      rw [hread] at hstop
      refine hstop.trans (congrArg some ?_)
      show Text.width t - Text.width (textOf r) =
        Text.width (textOf l) + Text.width (comment body).text
      rw [ht, Text.width_append, Text.width_append]
      omega
    · right
      rw [hread] at hstop
      exact ⟨hstop, hdecl, hmarks⟩

/-- A comment is a declaration exactly if its directive is one. -/
theorem isDeclaration_iff_ofBody? {body : Text} :
    (comment body).isDeclaration = true ↔
      ∃ name quote raw, Directive.ofBody? body = some (.declaration name quote raw) := by
  rw [isDeclaration_iff]
  constructor
  · rintro ⟨d, hd, rfl⟩
    exact ⟨d.name, d.quote, d.raw, Directive.ofBody?_body hd⟩
  · rintro ⟨name, quote, raw, h⟩
    obtain ⟨d, hd, hb, -⟩ := Directive.exists_of_ofBody? h
    exact ⟨d, hd, hb⟩

theorem CommentSpan.slice_body {t body : Text} {s : Span} (h : CommentSpan t s body) :
    Text.slice t (s.start + 4) (s.stop - 3) = body := h.inner.slice

/-- A comment is a declaration exactly if the reader of bytes stops at the end of its span. -/
theorem CommentSpan.isDeclaration_iff_stopAt? {t body : Text} {s : Span}
    (h : CommentSpan t s body) :
    (comment body).isDeclaration = true ↔ Declaration.stopAt? t s.start = some s.stop := by
  rcases h.ends with ⟨hstop, hdecl⟩ | ⟨hstop, hdecl, -⟩
  · exact iff_of_true hdecl hstop
  · rw [hstop, hdecl]
    simp

/-- What the reader of bytes passes over at the opener of a declaration are the bytes of its
parts. -/
theorem read?_bytes_of_split {t : Text} {d : Declaration} {l r : List Piece}
    (hd : d.WellFormed) (h : ofText t = l ++ comment d.body :: r) :
    Bytes.read? (t.bytes.drop (Text.width (textOf l) + opener.length)) =
      some (d.bytes, Text.bytes (textOf r)) := by
  have ht : t = textOf l ++ (opener ++ (d.body ++ closer ++ textOf r)) := by
    rw [← textOf_ofText t, h]
    simp [text]
  rw [ht, Declaration.drop_opener, Bytes.read?_bytes, Declaration.read?_eq_some_iff.2 ⟨hd, rfl⟩]
  rfl

/-- **Every comment span** of a document is as `CommentSpan` describes it. -/
theorem commentSpan_of_mem {t : Text} {s : Span} (h : s ∈ commentSpans 0 (ofText t)) :
    ∃ body, CommentSpan t s body := by
  obtain ⟨l, body, r, hsplit, rfl⟩ := exists_split_of_mem_commentSpans h
  rw [Nat.zero_add]
  exact ⟨body, commentSpan_of_split hsplit⟩

end Piece

/-! ## Tokens -/

namespace Token

/-- A token is a comment among the pieces that says something. -/
theorem exists_split_of_mem_ofPieces {n : Nat} {ps : List Piece} {k : Token}
    (h : k ∈ ofPieces n ps) :
    ∃ l r, ps = l ++ Piece.comment k.body :: r ∧ Directive.ofBody? k.body = some k.directive ∧
      k.start = n + Text.width (Piece.textOf l) := by
  induction ps generalizing n with
  | nil => cases h
  | cons p ps ih =>
    have hlater (h : k ∈ ofPieces (n + Text.width p.text) ps) :
        ∃ l r, p :: ps = l ++ Piece.comment k.body :: r ∧
          Directive.ofBody? k.body = some k.directive ∧
          k.start = n + Text.width (Piece.textOf l) := by
      obtain ⟨l, r, rfl, hd, hstart⟩ := ih h
      refine ⟨p :: l, r, rfl, hd, ?_⟩
      rw [hstart, Piece.textOf_cons, Text.width_append, Nat.add_assoc]
    cases p with
    | plain t => exact hlater h
    | comment body =>
      simp only [ofPieces] at h
      split at h
      · next d hd =>
        rcases List.mem_cons.1 h with rfl | h
        · exact ⟨[], ps, rfl, hd, rfl⟩
        · exact hlater h
      · exact hlater h

/-- The spans of the tokens are among those of the comments, in the same order. -/
theorem sublist_spans (n : Nat) (ps : List Piece) :
    ((ofPieces n ps).map span).Sublist (Piece.commentSpans n ps) := by
  induction ps generalizing n with
  | nil => exact .slnil
  | cons p ps ih =>
    cases p with
    | plain t => exact ih _
    | comment body =>
      rw [Piece.commentSpans_comment]
      simp only [ofPieces]
      split
      · exact (ih _).cons_cons _
      · exact (ih _).cons _

/-- What a token of a document is like. -/
structure WellFormed (t : Text) (k : Token) : Prop where
  /-- Its span is that of a comment, with its body. -/
  comment : Piece.CommentSpan t k.span k.body
  directive : Directive.ofBody? k.body = some k.directive
  name : ∀ name, k.directive.name? = some name → isName name = true
  /-- The span of the value of a declaration lies in it, and holds the quoted value. -/
  value : ∀ name quote raw, k.directive = .declaration name quote raw →
    k.span.start ≤ (k.valueSpan quote raw).start ∧ (k.valueSpan quote raw).stop ≤ k.span.stop ∧
      (k.valueSpan quote raw).Holds t (quote :: raw ++ [quote])

/-- The place of the quoted value of a declaration, counted from the `start` of its token. -/
theorem valueSpan_eq {d : Declaration} (hd : d.WellFormed) (k : Directive) (start : Nat) :
    valueSpan ⟨k, d.body, start⟩ d.quote d.raw =
      ⟨start + Text.width (opener ++ d.head),
        start + Text.width (opener ++ d.head) + Text.width (d.quote :: d.raw ++ [d.quote])⟩ := by
  rw [valueSpan, Declaration.textOf_beforeQuoted hd]
  rfl

/-- The place of the quoted value as `valueSpan_eq` gives it, counted in the bytes of the parts. -/
theorem valueSpan_eq_bytes {d : Declaration} (hd : d.WellFormed) (k : Directive) (start : Nat) :
    valueSpan ⟨k, d.body, start⟩ d.quote d.raw =
      ⟨start + 4 + d.bytes.head.length,
        start + 4 + d.bytes.head.length + (1 + d.bytes.raw.length + 1)⟩ := by
  have hbefore : Text.width (opener ++ d.head) = 4 + d.bytes.head.length := by
    rw [Text.width_append, Declaration.bytes, Text.length_bytes]
    rfl
  have hquote : Text.width [d.quote] = 1 := by
    rw [← Text.length_bytes, Text.bytes_ascii (Bytes.ascii_of_isQuote hd.quote).1]
    rfl
  have hquoted : Text.width (d.quote :: d.raw ++ [d.quote]) = 1 + d.bytes.raw.length + 1 := by
    rw [← List.singleton_append, Text.width_append, Text.width_append, hquote, Declaration.bytes,
      Text.length_bytes]
  rw [valueSpan_eq hd, hbefore, hquoted, ← Nat.add_assoc start]

theorem wellFormed_of_mem {t : Text} {k : Token} (h : k ∈ ofText t) : k.WellFormed t := by
  obtain ⟨directive, body, start⟩ := k
  obtain ⟨l, r, hsplit, hd, rfl⟩ := exists_split_of_mem_ofPieces h
  rw [Nat.zero_add]
  have hspan := Piece.commentSpan_of_split hsplit
  refine ⟨hspan, hd, fun name hn => Directive.isName_of_ofBody? hd hn, ?_⟩
  rintro name quote raw rfl
  obtain ⟨d, hwell, rfl, rfl, rfl, rfl⟩ := Directive.exists_of_ofBody? hd
  rw [valueSpan_eq hwell]
  have ht : t = Piece.textOf l ++ (opener ++ d.head) ++
      ((d.quote :: d.raw ++ [d.quote]) ++ (d.tail ++ closer ++ Piece.textOf r)) := by
    rw [← Piece.textOf_ofText t, hsplit]
    simp [Piece.text, Declaration.body]
  refine ⟨Nat.le_add_right _ _, ?_, ?_⟩
  · show _ ≤ Text.width (Piece.textOf l) + Text.width (Piece.comment d.body).text
    simp only [Piece.text, Declaration.body, Text.width_append, Text.width_cons, Text.width_nil]
    omega
  · have hvalue := Span.holds_span (Piece.textOf l ++ (opener ++ d.head))
      (d.quote :: d.raw ++ [d.quote]) (d.tail ++ closer ++ Piece.textOf r)
    rwa [← ht, Text.width_append] at hvalue

theorem mem_ofPieces {n : Nat} {l r : List Piece} {body : Text} {d : Directive}
    (h : Directive.ofBody? body = some d) :
    ⟨d, body, n + Text.width (Piece.textOf l)⟩ ∈ ofPieces n (l ++ Piece.comment body :: r) := by
  induction l generalizing n with
  | nil => simp [ofPieces, h]
  | cons p l ih =>
    have hrest := ih (n := n + Text.width p.text)
    rw [Nat.add_assoc, ← Text.width_append, ← Piece.textOf_cons] at hrest
    simp only [List.cons_append, ofPieces]
    split
    · exact hrest
    · split
      · exact List.mem_cons_of_mem _ hrest
      · exact hrest

end Token

namespace Piece

/-- The text that a document keeps of a piece when its comments are removed. -/
def stripped : Piece → Text
  | plain t => t
  | comment _ => []

/-- Removing the comments is a splice. In the induction `x` is the text copied so far since the last
comment. -/
theorem flatMap_stripped (a x : Text) (ps : List Piece) :
    x ++ ps.flatMap stripped =
      Text.splice (a ++ (x ++ textOf ps)) (Text.width a)
        ((commentSpans (Text.width (a ++ x)) ps).map fun s => (s, [])) := by
  induction ps generalizing a x with
  | nil =>
    rw [commentSpans, List.map_nil, Text.splice_nil]
    rfl
  | cons p ps ih =>
    cases p with
    | plain t =>
      rw [commentSpans_plain, ← Text.width_append, List.append_assoc]
      have h := ih a (x ++ t)
      simpa [stripped, text] using h
    | comment body =>
      -- what was copied ends here, and copying goes on behind the comment
      rw [commentSpans_comment, List.map_cons, textOf_cons, Place.span, ← Text.width_append,
        List.append_assoc, Text.splice_append, List.append_nil]
      have h := ih (a ++ (x ++ (comment body).text)) []
      simp only [List.nil_append, List.append_nil, List.append_assoc] at h ⊢
      rw [List.flatMap_cons, stripped, List.nil_append, h]

theorem strip_eq_splice (t : Text) :
    strip t = Text.splice t 0 ((commentSpans 0 (ofText t)).map fun s => (s, [])) := by
  have h := flatMap_stripped [] [] (ofText t)
  rw [textOf_ofText] at h
  exact h

end Piece

/-! ## The two results -/

/-- **The tokens of a document are well formed.** The spans of the comments are in order and do not
overlap; each lies in the document, between characters, and holds a comment whose marks do not
overlap, which is a declaration or has no mark in its body. The tokens have some of these spans, in
order, and are as described in `Token.WellFormed`. So every slice that is taken at these spans
exists, those of the stretches between the comments included. -/
theorem Token.ofText_wellFormed (t : Text) :
    let spans := Piece.commentSpans 0 (Piece.ofText t)
    (spans.Pairwise fun a b => a.stop ≤ b.start) ∧
    (∀ s ∈ spans, s.start + 7 ≤ s.stop ∧ s.stop ≤ Text.width t ∧
      ∃ body, Piece.CommentSpan t s body) ∧
    ((Token.ofText t).map Token.span).Sublist spans ∧
    (∀ k ∈ Token.ofText t, k.WellFormed t) ∧
    Piece.strip t = Text.splice t 0 (spans.map fun s => (s, [])) := by
  refine ⟨Piece.pairwise_commentSpans 0 _, fun s hs => ?_, sublist_spans 0 _,
    fun k hk => wellFormed_of_mem hk, Piece.strip_eq_splice t⟩
  obtain ⟨body, hspan⟩ := Piece.commentSpan_of_mem hs
  exact ⟨hspan.marks, hspan.whole.stop.le, body, hspan⟩

/-- The case of a value with a backslash before a character of two bytes, and a closer. -/
theorem Token.ofText_wellFormed_escape :
    let t := opener ++ " var(x)=\"\\é-->\" -->".toList
    let k : Token := ⟨.declaration ['x'] '"' "\\é-->".toList, " var(x)=\"\\é-->\" ".toList, 0⟩
    k ∈ Token.ofText t ∧ k.WellFormed t ∧ (⟨0, 24⟩ : Span) ∈ Piece.commentSpans 0 (Piece.ofText t) ∧
      ∃ body, Piece.CommentSpan t ⟨0, 24⟩ body := by
  have hread : Declaration.read? " var(x)=\"\\é-->\" -->".toList =
      some (⟨" var(x)=".toList, ['x'], '"', "\\é-->".toList, [' ']⟩, []) := rfl
  have hwell := (Declaration.read?_eq_some_iff.1 hread).1
  have hpieces := Piece.ofText_of_read? hread
  rw [Piece.ofText_none (t := []) rfl] at hpieces
  have hspan : (⟨0, 24⟩ : Span) ∈
      Piece.commentSpans 0 (Piece.ofText (opener ++ " var(x)=\"\\é-->\" -->".toList)) := by
    rw [hpieces]
    decide
  have htoken := Token.mem_ofPieces (n := 0) (l := [.plain []]) (r := [.plain []])
    (Directive.ofBody?_body hwell)
  have hk : (⟨.declaration ['x'] '"' "\\é-->".toList, " var(x)=\"\\é-->\" ".toList, 0⟩ : Token) ∈
      Token.ofText (opener ++ " var(x)=\"\\é-->\" -->".toList) := by
    rw [Token.ofText, hpieces]
    exact htoken
  have hall := Token.ofText_wellFormed (opener ++ " var(x)=\"\\é-->\" -->".toList)
  exact ⟨hk, hall.2.2.2.1 _ hk, hspan, (hall.2.1 _ hspan).2.2⟩

/-- **The two readers of declarations agree** on every comment of a document. The lexemes of its
body are those of a declaration exactly when the reader of bytes, started at the opener, stops where
the comment stops; and then name, quote, written value and the place of the value are what that
reader passed over, and the declaration is a token of the document. Where the reader of bytes does
not stop there, it reads no declaration at all, and the comment has no mark in its body. -/
theorem Declaration.readers_agree (t : Text) :
    ∀ s ∈ Piece.commentSpans 0 (Piece.ofText t),
      let body := Text.slice t (s.start + 4) (s.stop - 3)
      ((∃ name quote raw, Directive.ofBody? body = some (.declaration name quote raw)) ↔
        stopAt? t s.start = some s.stop) ∧
      (∀ name quote raw, Directive.ofBody? body = some (.declaration name quote raw) →
        (⟨.declaration name quote raw, body, s.start⟩ : Token) ∈ Token.ofText t ∧
        ∃ p rest, Bytes.read? (t.bytes.drop (s.start + 4)) = some (p, rest) ∧
          p.name = name.bytes ∧ [p.quote] = Text.bytes [quote] ∧ p.raw = raw.bytes ∧
          Token.valueSpan ⟨.declaration name quote raw, body, s.start⟩ quote raw =
            ⟨s.start + 4 + p.head.length, s.start + 4 + p.head.length + (1 + p.raw.length + 1)⟩) ∧
      (stopAt? t s.start = some s.stop ∨
        stopAt? t s.start = none ∧ ¬opener <:+: body ∧ ¬closer <:+: body) := by
  intro s hs
  obtain ⟨l, body, r, hsplit, hs⟩ := Piece.exists_split_of_mem_commentSpans hs
  rw [Nat.zero_add] at hs
  have hspan : Piece.CommentSpan t s body := hs ▸ Piece.commentSpan_of_split hsplit
  have hstart : s.start = Text.width (Piece.textOf l) := congrArg Span.start hs
  rw [hspan.slice_body]
  refine ⟨?_, ?_, ?_⟩
  · rw [← hspan.isDeclaration_iff_stopAt?, Piece.isDeclaration_iff_ofBody?]
  · intro name quote raw hdirective
    obtain ⟨d, hd, rfl, rfl, rfl, rfl⟩ := Directive.exists_of_ofBody? hdirective
    have htoken := Token.mem_ofPieces (n := 0) (l := l) (r := r) hdirective
    rw [Nat.zero_add, ← hsplit, ← hstart] at htoken
    -- the reader of bytes passes over the bytes of the parts of `d`
    have hread := Piece.read?_bytes_of_split hd hsplit
    rw [← hstart] at hread
    have hquote := (Bytes.ascii_of_isQuote hd.quote).1
    exact ⟨htoken, d.bytes, _, hread, rfl, (Text.bytes_ascii hquote []).symm, rfl,
      Token.valueSpan_eq_bytes hd _ _⟩
  · rcases hspan.ends with ⟨hstop, -⟩ | ⟨hstop, -, hmarks⟩
    · exact .inl hstop
    · exact .inr ⟨hstop, hmarks⟩

/-- The case of a declaration whose value is a closer. -/
theorem Declaration.readers_agree_closer :
    let t := "<!-- var(x)=\"-->\" -->".toList
    (⟨0, 21⟩ : Span) ∈ Piece.commentSpans 0 (Piece.ofText t) ∧ stopAt? t 0 = some 21 ∧
      ∃ name quote raw,
        Directive.ofBody? (Text.slice t 4 18) = some (.declaration name quote raw) := by
  have hread : read? " var(x)=\"-->\" -->".toList =
      some (⟨" var(x)=".toList, ['x'], '"', closer, [' ']⟩, []) := rfl
  have hpieces := Piece.ofText_of_read? hread
  rw [Piece.ofText_none (t := []) rfl] at hpieces
  have hspan : (⟨0, 21⟩ : Span) ∈
      Piece.commentSpans 0 (Piece.ofText (opener ++ " var(x)=\"-->\" -->".toList)) := by
    rw [hpieces]
    decide
  have hagree := readers_agree _ _ hspan
  have hstop : stopAt? (opener ++ " var(x)=\"-->\" -->".toList) 0 = some 21 := rfl
  exact ⟨hspan, hstop, hagree.1.2 hstop⟩

end Transclude
