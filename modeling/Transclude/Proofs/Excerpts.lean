import Transclude.Proofs.Tokens
import Transclude.Proofs.Fills

/-!
# The comments of a part of a document

The body of a block is cut out of its document and then read as a document of its own. The reader of
comments looks ahead as far as it needs to, and goes back to an inner opener, so what it finds could
depend on where the text ends. Between two comments it does not: a text that is cut out from the end
of one comment to the beginning of another has the comments that the document has there.

The pieces show why. Those between two comments have the right shape by themselves
(`Piece.shaped_split`), because a closer behind an opener would have ended the stretch before the
second comment. And an opener that begins no declaration begins none in a shorter text.

Main statements:
- `Piece.ofText_between`: the pieces between two comments are those of their own text.
- `Piece.commentSpans_slice`: so the comment spans of such a part are those of the document, counted
  from the beginning of the part.
- `Piece.comments_between`: the same with what follows for the bodies of blocks, and for the
  stretches between two comments.
-/

namespace Transclude

/-- The span as it is counted from byte `n` on. -/
def Span.countedFrom (n : Nat) (s : Span) : Span := ⟨s.start - n, s.stop - n⟩

namespace Piece

/-! ## Cutting a row at its comments -/

/-- On both sides of a comment in a `Shaped` row the row is so. -/
theorem shaped_split {body : Text} {r : List Piece} :
    ∀ {l : List Piece}, Shaped (l ++ comment body :: r) → Shaped l ∧ Shaped r
  | [plain _], ⟨hjoins, hr⟩ => ⟨hjoins.unclosed, hr⟩
  | plain before :: comment b :: l, ⟨hjoins, h⟩ => by
    obtain ⟨hl, hr⟩ := shaped_split h
    exact ⟨⟨hjoins, hl⟩, hr⟩

/-- A stray opener of a row `l` is one of a longer row, with more text behind it. -/
theorem mem_strays_append_left {s : Text} {l : List Piece} (h : s ∈ strays l) (r : List Piece) :
    s ++ textOf r ∈ strays (l ++ r) := by
  induction l with
  | nil => cases h
  | cons p l ih =>
    rw [List.cons_append, mem_strays_cons]
    rcases mem_strays_cons.1 h with ⟨hp, b, hb, rfl⟩ | h
    · exact .inl ⟨hp, b, hb, by rw [textOf_append, List.append_assoc]⟩
    · exact .inr (ih h)

/-- Whether a row is empty or ends with a comment. -/
def EndsWithComment (l : List Piece) : Prop := l = [] ∨ ∃ l' body, l = l' ++ [comment body]

/-- Whether a row is empty or begins with a comment. -/
def BeginsWithComment (r : List Piece) : Prop := r = [] ∨ ∃ body r', r = comment body :: r'

/-- **The pieces between two comments** of a document, `m`, are those of their own text. -/
theorem ofText_between {t : Text} {l m r : List Piece} (h : ofText t = l ++ (m ++ r))
    (hl : EndsWithComment l) (hr : BeginsWithComment r) : ofText (textOf m) = m := by
  have hshaped := shaped_ofText t
  have hread : ∀ s ∈ strays (ofText t), Declaration.read? s = none := fun s hs =>
    read?_of_mem_strays hs
  rw [h] at hshaped hread
  have hright : Shaped (m ++ r) := by
    rcases hl with rfl | ⟨l', body, rfl⟩
    · exact hshaped
    · rw [List.append_assoc] at hshaped
      exact (shaped_split hshaped).2
  have hmiddle : Shaped m := by
    rcases hr with rfl | ⟨body, r', rfl⟩
    · rwa [List.append_nil] at hright
    · exact (shaped_split hright).1
  refine ofText_of_shaped hmiddle fun s hs => ?_
  have hlonger := hread _ (mem_strays_append_right (mem_strays_append_left hs r))
  exact Declaration.read?_eq_none_of_append hlonger

/-! ## The same in places -/

/-- The comment spans of a row in two parts `l` and `r`: those of the second are counted from where
the first ends. -/
theorem commentSpans_append (n : Nat) (l r : List Piece) :
    commentSpans n (l ++ r) = commentSpans n l ++ commentSpans (n + Text.width (textOf l)) r := by
  induction l generalizing n with
  | nil => rfl
  | cons p l ih =>
    have hplace : n + Text.width p.text + Text.width (textOf l) =
        n + Text.width (textOf (p :: l)) := by
      rw [textOf_cons, Text.width_append, Nat.add_assoc]
    cases p with
    | plain t =>
      rw [List.cons_append, commentSpans_plain, commentSpans_plain, ih]
      exact congrArg (fun k => _ ++ commentSpans k r) hplace
    | comment body =>
      rw [List.cons_append, commentSpans_comment, commentSpans_comment, ih, hplace,
        List.cons_append]

/-- Spans that are counted from where the row begins (`Span.countedFrom`) do not depend on where
that is. -/
theorem map_countedFrom (n k : Nat) (ps : List Piece) :
    (commentSpans (n + k) ps).map (Span.countedFrom n) = commentSpans k ps := by
  induction ps generalizing k with
  | nil => rfl
  | cons p ps ih =>
    cases p with
    | plain t => rw [commentSpans_plain, commentSpans_plain, Nat.add_assoc, ih]
    | comment body =>
      rw [commentSpans_comment, commentSpans_comment, Nat.add_assoc, List.map_cons, ih]
      simp only [Span.countedFrom, Place.span, Nat.add_assoc, Nat.add_sub_cancel_left]

/-- A span behind the first piece is one of the whole row. -/
theorem mem_commentSpans_cons {n : Nat} {p : Piece} {ps : List Piece} {s : Span}
    (h : s ∈ commentSpans (n + Text.width p.text) ps) : s ∈ commentSpans n (p :: ps) := by
  cases p with
  | plain t => exact h
  | comment body => exact List.mem_cons_of_mem _ h

theorem width_comment_pos (body : Text) : 0 < Text.width (comment body).text := by
  have hopen : Text.width opener = 4 := rfl
  rw [text, Text.width_append, Text.width_append, hopen]
  omega

/-- A comment span has at least one byte. -/
theorem start_lt_stop {n : Nat} {ps : List Piece} {s : Span} (h : s ∈ commentSpans n ps) :
    s.start < s.stop := by
  obtain ⟨l, body, r, -, rfl⟩ := exists_split_of_mem_commentSpans h
  exact Nat.lt_add_of_pos_right (width_comment_pos body)

/-- A comment span does not reach over the end of the row `ps`, which begins at `n`. -/
theorem stop_le_of_mem_commentSpans {n : Nat} {ps : List Piece} {s : Span}
    (h : s ∈ commentSpans n ps) : s.stop ≤ n + Text.width (textOf ps) := by
  obtain ⟨l, body, r, rfl, rfl⟩ := exists_split_of_mem_commentSpans h
  rw [textOf_append, textOf_cons, Text.width_append, Text.width_append]
  show n + Text.width (textOf l) + Text.width (comment body).text ≤ _
  omega

section

variable {t : Text} {a b : Nat}

/-- A place `a` behind a comment, or the beginning, cuts the row in two, with the text of the first
part `l` before it. -/
theorem exists_split_behind (ha : a = 0 ∨ ∃ s ∈ commentSpans 0 (ofText t), s.stop = a) :
    ∃ l x, ofText t = l ++ x ∧ EndsWithComment l ∧ Text.width (textOf l) = a := by
  rcases ha with rfl | ⟨s, hs, rfl⟩
  · exact ⟨[], ofText t, rfl, .inl rfl, rfl⟩
  · obtain ⟨l, body, r, hsplit, rfl⟩ := exists_split_of_mem_commentSpans hs
    refine ⟨l ++ [comment body], r, by rw [hsplit, List.append_assoc]; rfl,
      .inr ⟨l, body, rfl⟩, ?_⟩
    rw [textOf_append, Text.width_append, textOf_cons, textOf_nil, List.append_nil, Nat.zero_add]
    rfl

/-- A place `b` before a comment, or the end, cuts the row in two, with the comment at the beginning
of the second part `r`. -/
theorem exists_split_before (hb : b = Text.width t ∨ ∃ s ∈ commentSpans 0 (ofText t), s.start = b) :
    ∃ y r, ofText t = y ++ r ∧ BeginsWithComment r ∧ Text.width (textOf y) = b := by
  rcases hb with rfl | ⟨s, hs, rfl⟩
  · exact ⟨ofText t, [], (List.append_nil _).symm, .inl rfl, by rw [textOf_ofText]⟩
  · obtain ⟨l, body, r, hsplit, rfl⟩ := exists_split_of_mem_commentSpans hs
    exact ⟨l, comment body :: r, hsplit, .inr ⟨body, r, rfl⟩, (Nat.zero_add _).symm⟩

/-- A place `a` behind a comment and a place `b` before one, in this order, have a row of pieces `m`
between them. -/
theorem exists_between (ha : a = 0 ∨ ∃ s ∈ commentSpans 0 (ofText t), s.stop = a)
    (hb : b = Text.width t ∨ ∃ s ∈ commentSpans 0 (ofText t), s.start = b) (hab : a ≤ b) :
    ∃ l m r, ofText t = l ++ (m ++ r) ∧ EndsWithComment l ∧ BeginsWithComment r ∧
      Text.width (textOf l) = a ∧ a + Text.width (textOf m) = b := by
  obtain ⟨l, x, hleft, hl, rfl⟩ := exists_split_behind ha
  obtain ⟨y, r, hright, hr, rfl⟩ := exists_split_before hb
  have hsame : l ++ x = y ++ r := hleft.symm.trans hright
  rcases List.append_eq_append_iff.1 hsame with ⟨m, rfl, rfl⟩ | ⟨m, rfl, rfl⟩
  · exact ⟨l, m, r, hleft, hl, hr, rfl, by rw [textOf_append, Text.width_append]⟩
  · -- `m` stands between the two places in the wrong order, so nothing is in it
    rw [textOf_append, Text.width_append] at hab
    have hnil : m = [] := by
      rcases hr with hr | ⟨body, r', hr⟩
      · exact (List.append_eq_nil_iff.1 hr).1
      · cases m with
        | nil => rfl
        | cons p m =>
          obtain rfl : p = comment body := (List.cons.inj hr).1
          have hpos := width_comment_pos body
          rw [textOf_cons, Text.width_append] at hab
          omega
    subst hnil
    rw [List.append_nil] at hl
    refine ⟨y, [], x, by rw [hleft, List.append_nil]; rfl, hl, hr, ?_, ?_⟩
    · rw [List.append_nil]
    · rw [List.append_nil]
      rfl

/-- **The comment spans of a part** that is cut out between two comments, from `a` to `b`: those of
the document that lie in it, counted from where it begins. -/
theorem commentSpans_slice (ha : a = 0 ∨ ∃ s ∈ commentSpans 0 (ofText t), s.stop = a)
    (hb : b = Text.width t ∨ ∃ s ∈ commentSpans 0 (ofText t), s.start = b) (hab : a ≤ b) :
    commentSpans 0 (ofText (t.slice a b)) =
      ((commentSpans 0 (ofText t)).filter fun s => a ≤ s.start ∧ s.stop ≤ b).map
        (Span.countedFrom a) := by
  obtain ⟨l, m, r, hsplit, hl, hr, rfl, rfl⟩ := exists_between ha hb hab
  have ht : t = textOf l ++ (textOf m ++ textOf r) := by
    rw [← textOf_append, ← textOf_append, ← hsplit, textOf_ofText]
  have hslice : t.slice (Text.width (textOf l)) (Text.width (textOf l) + Text.width (textOf m)) =
      textOf m := by
    conv => lhs; rw [ht]
    exact Text.slice_append _ _ _
  -- before the part nothing is kept, in it everything is, and behind it nothing
  have hleft : ∀ s ∈ commentSpans 0 l, ¬Text.width (textOf l) ≤ s.start := by
    intro s hs
    have hlt := start_lt_stop hs
    have hle := stop_le_of_mem_commentSpans hs
    omega
  have hmiddle : ∀ s ∈ commentSpans (Text.width (textOf l)) m,
      Text.width (textOf l) ≤ s.start ∧
        s.stop ≤ Text.width (textOf l) + Text.width (textOf m) := fun s hs =>
    ⟨le_start_of_mem_commentSpans hs, stop_le_of_mem_commentSpans hs⟩
  have hright : ∀ s ∈ commentSpans (Text.width (textOf l) + Text.width (textOf m)) r,
      ¬s.stop ≤ Text.width (textOf l) + Text.width (textOf m) := by
    intro s hs
    have hlt := start_lt_stop hs
    have hle := le_start_of_mem_commentSpans hs
    omega
  rw [hslice, ofText_between hsplit hl hr, hsplit, commentSpans_append, commentSpans_append,
    Nat.zero_add, List.filter_append, List.filter_append,
    List.filter_eq_nil_iff.2 fun s hs => by simp [hleft s hs],
    List.filter_eq_self.2 fun s hs => by simp [hmiddle s hs],
    List.filter_eq_nil_iff.2 fun s hs => by simp [hright s hs], List.nil_append, List.append_nil]
  exact (map_countedFrom _ 0 m).symm

/-- Between two comments `s` and `s'` that follow each other there is none, for every other span
ends before the first of the two or begins behind the second. -/
theorem commentSpans_gap {s s' : Span} {before after : List Span}
    (h : commentSpans 0 (ofText t) = before ++ s :: s' :: after) :
    commentSpans 0 (ofText (t.slice s.stop s'.start)) = [] := by
  have hs : s ∈ commentSpans 0 (ofText t) := by rw [h]; simp
  have hs' : s' ∈ commentSpans 0 (ofText t) := by rw [h]; simp
  have hordered := pairwise_commentSpans 0 (ofText t)
  rw [h, List.pairwise_append, List.pairwise_cons, List.pairwise_cons] at hordered
  obtain ⟨-, ⟨hbehind, hafter, -⟩, hbefore⟩ := hordered
  rw [commentSpans_slice (.inr ⟨s, hs, rfl⟩) (.inr ⟨s', hs', rfl⟩)
    (hbehind s' List.mem_cons_self), List.map_eq_nil_iff, List.filter_eq_nil_iff]
  intro x hx
  have hlt := start_lt_stop hx
  have hfirst := start_lt_stop hs
  have hsecond := start_lt_stop hs'
  rw [h, List.mem_append, List.mem_cons, List.mem_cons] at hx
  simp only [decide_eq_true_eq]
  rcases hx with hx | rfl | rfl | hx
  · have hle := hbefore x hx s List.mem_cons_self
    omega
  · omega
  · omega
  · have hle := hafter x hx
    omega

end

end Piece

/-! ## The bodies of blocks -/

namespace Block

theorem exists_comment_of_closes {kind : BlockKind} {p : Piece} (h : p.closes kind = true) :
    ∃ body, p = .comment body := by
  cases p with
  | plain t => cases h
  | comment body => exact ⟨body, rfl⟩

theorem exists_comment_of_opening {kind : BlockKind} {p : Piece} {name : Text}
    (h : p.opening? kind = some name) : ∃ body, p = .comment body := by
  cases p with
  | plain t => cases h
  | comment body => exact ⟨body, rfl⟩

/-- The span of a comment `p` is the first of the comment spans from its place on. -/
theorem span_mem_commentSpans {here : Place} {p : Piece} {body : Text} (hp : p = .comment body)
    (ps : List Piece) : here.span p.text ∈ Piece.commentSpans here.offset (p :: ps) := by
  subst hp
  exact List.mem_cons_self

/-- The markers of a block are comments, the closing one behind the opening one. The opening one can
stand before the pieces, where `inside` says. -/
theorem spans_of_mem_pairedFrom {kind : BlockKind} {here : Place} {inside : Option Opening}
    {ps : List Piece} {b : Block} (h : b ∈ (pairedFrom kind here inside ps).1) :
    b.closing ∈ Piece.commentSpans here.offset ps ∧
      ((∃ o ∈ inside, b.opening = o.span) ∨
        b.opening ∈ Piece.commentSpans here.offset ps ∧ b.opening.stop ≤ b.closing.start) := by
  fun_induction pairedFrom kind here inside ps with
  | case1 => cases h
  | case2 here p ps ih =>
    obtain ⟨hclosing, hopening⟩ := ih h
    refine ⟨Piece.mem_commentSpans_cons hclosing, .inr ?_⟩
    rcases hopening with ⟨o, ho, hspan⟩ | ⟨hmem, hle⟩
    · -- this piece is the opening marker
      obtain ⟨name, hname, rfl⟩ := Option.map_eq_some_iff.1 ho
      obtain ⟨body, hp⟩ := exists_comment_of_opening hname
      rw [hspan]
      exact ⟨span_mem_commentSpans hp ps, Piece.le_start_of_mem_commentSpans hclosing⟩
    · exact ⟨Piece.mem_commentSpans_cons hmem, hle⟩
  | case3 here o p ps hc blocks last hrest ih =>
    rcases List.mem_cons.1 h with rfl | h
    · obtain ⟨body, hp⟩ := exists_comment_of_closes hc
      exact ⟨span_mem_commentSpans hp ps, .inl ⟨o, rfl, rfl⟩⟩
    · rw [hrest] at ih
      obtain ⟨hclosing, hopening⟩ := ih h
      refine ⟨Piece.mem_commentSpans_cons hclosing, .inr ?_⟩
      rcases hopening with ⟨o', ho', -⟩ | ⟨hmem, hle⟩
      · cases ho'
      · exact ⟨Piece.mem_commentSpans_cons hmem, hle⟩
  | case4 here o p ps hc ih =>
    obtain ⟨hclosing, hopening⟩ := ih h
    exact ⟨Piece.mem_commentSpans_cons hclosing,
      hopening.imp_right (And.imp_left Piece.mem_commentSpans_cons)⟩

/-- Both markers of a block `b` of a document are comments of it, and its body is cut out between
them. -/
theorem spans_of_mem_pair {kind : BlockKind} {t : Text} {blocks : List Block} {b : Block}
    (h : pair kind t = .ok blocks) (hb : b ∈ blocks) :
    b.opening ∈ Piece.commentSpans 0 (Piece.ofText t) ∧
      b.closing ∈ Piece.commentSpans 0 (Piece.ofText t) ∧ b.opening.stop ≤ b.closing.start := by
  rw [pair_eq] at h
  split at h
  · cases h
  · obtain rfl := Except.ok.inj h
    obtain ⟨hclosing, ho | ⟨hopening, hle⟩⟩ := spans_of_mem_pairedFrom hb
    · obtain ⟨o, ho, -⟩ := ho
      cases ho
    · exact ⟨hopening, hclosing, hle⟩

end Block

/-- **The comments of a part of a document.** A text that is cut out from the beginning or the end
of a comment to the end or the beginning of a comment has the comment spans that the document has
there. So what is stripped from the body of a block are the comments that the document has in it,
and between two comments that follow each other there is none. -/
theorem Piece.comments_between (t : Text) :
    let spans := commentSpans 0 (ofText t)
    (∀ a b, (a = 0 ∨ ∃ s ∈ spans, s.stop = a) → (b = Text.width t ∨ ∃ s ∈ spans, s.start = b) →
      a ≤ b →
      commentSpans 0 (ofText (t.slice a b)) =
        (spans.filter fun s => a ≤ s.start ∧ s.stop ≤ b).map (Span.countedFrom a)) ∧
    (∀ kind blocks, Block.pair kind t = .ok blocks → ∀ b ∈ blocks,
      strip (b.body t) = (b.body t).splice 0
        ((spans.filter fun s => b.opening.stop ≤ s.start ∧ s.stop ≤ b.closing.start).map
          fun s => (s.countedFrom b.opening.stop, []))) ∧
    ∀ before s s' after, spans = before ++ s :: s' :: after →
      commentSpans 0 (ofText (t.slice s.stop s'.start)) = [] := by
  refine ⟨fun a b ha hb hab => commentSpans_slice ha hb hab, fun kind blocks hpair b hb => ?_,
    fun before s s' after hspans => commentSpans_gap hspans⟩
  obtain ⟨hopening, hclosing, hle⟩ := Block.spans_of_mem_pair hpair hb
  have hslice := commentSpans_slice (.inr ⟨_, hopening, rfl⟩) (.inr ⟨_, hclosing, rfl⟩) hle
  rw [strip_eq_splice, Block.body, hslice, List.map_map]
  rfl

/-- A block with a stray opener, a comment and the text of another in its body. -/
def bodyText : Text := "<!--begin-ref(a)-->x <!-- <!--n--> y-->z<!--end-ref-->".toList

/-- The body of the block of `bodyText` has one comment, the one that the document has there,
counted from where the body begins. -/
theorem Piece.comments_between_bodyText :
    Block.pair .ref bodyText = .ok [⟨.ref, ['a'], ⟨0, 19⟩, ⟨40, 54⟩⟩] ∧
      commentSpans 0 (ofText bodyText) = [⟨0, 19⟩, ⟨26, 34⟩, ⟨40, 54⟩] ∧
      commentSpans 0 (ofText (bodyText.slice 19 40)) = [⟨7, 15⟩] ∧
      strip (bodyText.slice 19 40) = "x <!--  y-->z".toList ∧
      commentSpans 0 (ofText (bodyText.slice 34 40)) = [] := by
  have hpair : Block.pair .ref bodyText = .ok [⟨.ref, ['a'], ⟨0, 19⟩, ⟨40, 54⟩⟩] := by
    have hpaired : Block.paired .ref bodyText = ([⟨.ref, ['a'], ⟨0, 19⟩, ⟨40, 54⟩⟩], none) := by
      decide +kernel
    rw [Block.pair_eq, hpaired]
  have hspans : commentSpans 0 (ofText bodyText) = [⟨0, 19⟩, ⟨26, 34⟩, ⟨40, 54⟩] := by
    decide +kernel
  obtain ⟨hparts, hbodies, hgaps⟩ := comments_between bodyText
  rw [hspans] at hparts hbodies hgaps
  refine ⟨hpair, hspans, ?_, ?_, hgaps [⟨0, 19⟩] ⟨26, 34⟩ ⟨40, 54⟩ [] rfl⟩
  · exact hparts 19 40 (.inr ⟨⟨0, 19⟩, by decide, rfl⟩) (.inr ⟨⟨40, 54⟩, by decide, rfl⟩)
      (by decide)
  · exact hbodies .ref _ hpair _ List.mem_cons_self

end Transclude
