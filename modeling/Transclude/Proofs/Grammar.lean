import Transclude.Proofs.LineStyles

/-!
# The grammar of directives

A comment is read by its lexemes, the longest first, and a row of lexemes has a shape or none. This
file writes the four shapes down as texts (`Directive.Written`): a closing marker is a word between
gaps, and the other three begin with a word and a name in parentheses, gaps allowed before and after
every part. An include marker takes anything behind its parenthesis, an opening marker a gap, and a
declaration an equals sign and a quoted value.

What may stand between the quotes is said from left to right. A backslash that is not itself escaped
escapes the character behind it (`Value.escapes`). The value ends at the first quote that is not
escaped, and no line feed is escaped (`Value.Quoted`). A line feed behind an escaped backslash is
part of a value like any other character.

Main statements:
- `Value.isWritten_iff_quoted`: what the readers take for a written value.
- `Directive.ofBody?_eq_some_iff`: a body is read as a directive exactly when the directive is
  written there, so no body is read in two ways.
- `Token.ofText_written`: the tokens of a document are the comments in which a directive is written.
-/

namespace Transclude

/-! ## Quoted values -/

namespace Value

/-- Whether the character behind a text is escaped: a backslash is before it that is not itself
escaped. -/
def escapes (t : Text) : Bool := t.foldl (fun escaped c => !escaped && c == '\\') false

/-- A backslash takes the next character `d` with it, so neither is looked at by itself. -/
theorem escapes_escape (d : Char) (t : Text) : escapes ('\\' :: d :: t) = escapes t := rfl

theorem escapes_cons_of_ne {c : Char} (hc : c ≠ '\\') (t : Text) :
    escapes (c :: t) = escapes t := by
  rw [escapes, List.foldl_cons, beq_false_of_ne hc]
  rfl

/-- A text that ends before a quote: this quote is the first that is not escaped, and no line feed
is escaped. -/
structure Quoted (quote : Char) (raw : Text) : Prop where
  closed : escapes raw = false
  first : ∀ a b, raw = a ++ quote :: b → escapes a = true
  feed : ∀ a b, raw = a ++ '\\' :: '\n' :: b → escapes a = true

theorem quoted_nil (quote : Char) : Quoted quote [] where
  closed := rfl
  first _ _ h := absurd h (by simp)
  feed _ _ h := absurd h (by simp)

/-- An escaped character `d` may be any but a line feed. -/
theorem quoted_escape_iff {quote : Char} (hq : isQuote quote = true) {d : Char} {t : Text} :
    Quoted quote ('\\' :: d :: t) ↔ d ≠ '\n' ∧ Quoted quote t := by
  have hslash : '\\' ≠ quote := (ne_of_isQuote hq rfl).symm
  constructor
  · intro h
    refine ⟨?_, ?_, fun a b hab => ?_, fun a b hab => ?_⟩
    · rintro rfl
      exact absurd (h.feed [] t rfl) (by decide)
    · rw [← escapes_escape d]
      exact h.closed
    · rw [← escapes_escape d]
      exact h.first ('\\' :: d :: a) b (by rw [hab]; rfl)
    · rw [← escapes_escape d]
      exact h.feed ('\\' :: d :: a) b (by rw [hab]; rfl)
  · rintro ⟨hd, h⟩
    -- a cut stands before the backslash, behind it, or behind the character that it escapes
    refine ⟨(escapes_escape d t).trans h.closed, fun a b hab => ?_, fun a b hab => ?_⟩
    · rcases a with _ | ⟨c, _ | ⟨e, a⟩⟩
      · exact absurd (List.cons.inj hab).1 hslash
      · obtain ⟨rfl, -⟩ := List.cons.inj hab
        rfl
      · obtain ⟨rfl, htail⟩ := List.cons.inj hab
        obtain ⟨rfl, hrest⟩ := List.cons.inj htail
        exact (escapes_escape d a).trans (h.first a b hrest)
    · rcases a with _ | ⟨c, _ | ⟨e, a⟩⟩
      · exact absurd (List.cons.inj (List.cons.inj hab).2).1 hd
      · obtain ⟨rfl, -⟩ := List.cons.inj hab
        rfl
      · obtain ⟨rfl, htail⟩ := List.cons.inj hab
        obtain ⟨rfl, hrest⟩ := List.cons.inj htail
        exact (escapes_escape d a).trans (h.feed a b hrest)

/-- A character `c` that is no backslash may be any but the quote. -/
theorem quoted_cons_iff {quote c : Char} (hc : c ≠ '\\') {t : Text} :
    Quoted quote (c :: t) ↔ c ≠ quote ∧ Quoted quote t := by
  constructor
  · intro h
    refine ⟨?_, ?_, fun a b hab => ?_, fun a b hab => ?_⟩
    · rintro rfl
      exact absurd (h.first [] t rfl) (by decide)
    · rw [← escapes_cons_of_ne hc]
      exact h.closed
    · rw [← escapes_cons_of_ne hc]
      exact h.first (c :: a) b (by rw [hab]; rfl)
    · rw [← escapes_cons_of_ne hc]
      exact h.feed (c :: a) b (by rw [hab]; rfl)
  · rintro ⟨hne, h⟩
    refine ⟨(escapes_cons_of_ne hc t).trans h.closed, fun a b hab => ?_, fun a b hab => ?_⟩
    · cases a with
      | nil => exact absurd (List.cons.inj hab).1 hne
      | cons e a =>
        obtain ⟨rfl, hrest⟩ := List.cons.inj hab
        exact (escapes_cons_of_ne hc a).trans (h.first a b hrest)
    · cases a with
      | nil => exact absurd (List.cons.inj hab).1 hc
      | cons e a =>
        obtain ⟨rfl, hrest⟩ := List.cons.inj hab
        exact (escapes_cons_of_ne hc a).trans (h.feed a b hrest)

/-- **What the readers take for a written value** is what the grammar calls `Quoted`: it ends before
the first quote that is not escaped, and has no escaped line feed. -/
theorem isWritten_iff_quoted {quote : Char} (hq : isQuote quote = true) {raw : Text} :
    isWritten quote raw = true ↔ Quoted quote raw := by
  fun_induction isWritten quote raw with
  | case1 => exact iff_of_true rfl (quoted_nil quote)
  | case2 c =>
    by_cases hc : c = '\\'
    · subst hc
      exact iff_of_false (by simp) fun h => absurd h.closed (by decide)
    · rw [quoted_cons_iff hc]
      simp [hc, quoted_nil]
  | case3 d t ih => rw [quoted_escape_iff hq, ← ih, Bool.and_eq_true, bne_iff_ne]
  | case4 c d t hc ih => rw [quoted_cons_iff hc, ← ih, Bool.and_eq_true, bne_iff_ne]

end Value

/-! ## Directives -/

namespace Directive

/-- How directives are written between the marks of a comment. -/
inductive Written : Directive → Text → Prop
  /-- A closing marker, `end-kind`. -/
  | closing {kind : BlockKind} {g h : Text} : IsGap g → IsGap h →
      Written (closing kind) (g ++ (kind.endWord ++ h))
  /-- An opening marker, `begin-kind(name)`. -/
  | opening {kind : BlockKind} {name t g : Text} : IsCall kind.beginWord name t → IsGap g →
      Written (opening kind name) (t ++ ')' :: g)
  /-- A declaration, `var(name)="value"`. -/
  | declaration {name t g h raw tail : Text} {quote : Char} : IsCall declarationWord name t →
      IsGap g → IsGap h → isQuote quote = true → Value.Quoted quote raw → IsGap tail →
      Written (declaration name quote raw)
        (t ++ ')' :: (g ++ '=' :: (h ++ (quote :: raw ++ quote :: tail))))
  /-- An include marker, `include-file(name)`, with anything behind it. -/
  | includeFile {name t : Text} (x : Text) : IsCall includeWord name t →
      Written (includeFile name) (t ++ ')' :: x)

/-- The lexemes of an opening marker are the opening word of its kind and a name in parentheses. -/
theorem ofLexemes?_eq_opening_iff {ls : List Lexeme} {kind : BlockKind} {name : Text} :
    ofLexemes? ls = some (opening kind name) ↔
      ls = [.word kind.beginWord, .openParen, .word name, .closeParen] := by
  constructor
  · intro h
    unfold ofLexemes? at h
    split at h
    · simp at h
    · next w n tail =>
      split at h
      · simp at h
      · split at h
        · obtain ⟨k, hk, heq⟩ := Option.map_eq_some_iff.1 h
          obtain ⟨rfl, rfl⟩ := opening.inj heq
          have hword := List.find?_some (p := fun k : BlockKind => k.beginWord = w) hk
          rw [of_decide_eq_true hword]
        · split at h <;> simp at h
        · cases h
    · cases h
  · rintro rfl
    cases kind <;> rfl

/-- A body is an opening marker exactly if it is written as a call with a gap behind it. -/
theorem ofBody?_eq_opening_iff {b name : Text} {kind : BlockKind} :
    ofBody? b = some (opening kind name) ↔
      ∃ t g, IsCall kind.beginWord name t ∧ IsGap g ∧ b = t ++ ')' :: g := by
  show ofLexemes? (Lexeme.significantOf b) = _ ↔ _
  rw [ofLexemes?_eq_opening_iff]
  constructor
  · intro hls
    obtain ⟨t, g, ht, rfl, hg⟩ := exists_call_of_significantOf hls
    exact ⟨t, g, ht, Lexeme.isGap_of_significantOf_nil hg, rfl⟩
  · rintro ⟨t, g, ht, hg, rfl⟩
    rw [significantOf_call (isName_beginWord kind) ht, ← List.append_nil g,
      Lexeme.significantOf_gap hg, Lexeme.significantOf_nil]

/-- **A body is read as a directive** exactly when the directive is `Written` there. -/
theorem ofBody?_eq_some_iff {b : Text} {d : Directive} : ofBody? b = some d ↔ Written d b := by
  constructor
  · intro h
    cases d with
    | declaration name quote raw =>
      obtain ⟨d, hd, rfl, rfl, rfl, rfl⟩ := exists_of_ofBody? h
      obtain ⟨t, g₄, g₅, ht, h₄, h₅, hhead⟩ := Declaration.isHead_iff.1 hd.head
      have hraw := (Value.isWritten_iff_quoted hd.quote).1 hd.raw
      have hbody : d.body =
          t ++ ')' :: (g₄ ++ '=' :: (g₅ ++ (d.quote :: d.raw ++ d.quote :: d.tail))) := by
        rw [Declaration.body, hhead]
        simp
      rw [hbody]
      exact .declaration ht h₄ h₅ hd.quote hraw hd.tail
    | opening kind name =>
      obtain ⟨t, g, ht, hg, rfl⟩ := ofBody?_eq_opening_iff.1 h
      exact .opening ht hg
    | closing kind =>
      obtain ⟨g, h, hg, hh, rfl⟩ := ofBody?_eq_closing_iff.1 h
      exact .closing hg hh
    | includeFile name =>
      obtain ⟨t, x, ht, rfl⟩ := ofBody?_eq_includeFile_iff.1 h
      exact .includeFile x ht
  · intro h
    cases h with
    | closing hg hh => exact ofBody?_eq_closing_iff.2 ⟨_, _, hg, hh, rfl⟩
    | opening ht hg => exact ofBody?_eq_opening_iff.2 ⟨_, _, ht, hg, rfl⟩
    | includeFile x ht => exact ofBody?_eq_includeFile_iff.2 ⟨_, x, ht, rfl⟩
    | @declaration name t g h raw tail quote ht hg hh hq hraw htail =>
      have hhead : Declaration.IsHead name (t ++ ')' :: (g ++ '=' :: h)) :=
        Declaration.isHead_iff.2 ⟨t, g, h, ht, hg, hh, rfl⟩
      refine ofBody?_eq_declaration_iff.2 ⟨⟨_, name, quote, raw, tail⟩,
        ⟨hhead, hq, (Value.isWritten_iff_quoted hq).2 hraw, htail⟩, ?_, rfl, rfl, rfl⟩
      simp [Declaration.body]

/-- No text `b` is written in two ways: it is read as at most one directive. -/
theorem Written.unique {b : Text} {d d' : Directive} (h : Written d b) (h' : Written d' b) :
    d = d' :=
  Option.some.inj ((ofBody?_eq_some_iff.2 h).symm.trans (ofBody?_eq_some_iff.2 h'))

end Directive

/-! ## Tokens -/

namespace Token

/-- A comment with span `s` holds a token with the directive that its body is read as. The body is
the slice between the marks of the comment. -/
theorem exists_at_iff {t : Text} {s : Span} (hs : s ∈ Piece.commentSpans 0 (Piece.ofText t))
    {d : Directive} :
    (∃ k ∈ ofText t, k.span = s ∧ k.directive = d) ↔
      Directive.ofBody? (t.slice (s.start + 4) (s.stop - 3)) = some d := by
  constructor
  · rintro ⟨k, hk, rfl, rfl⟩
    have hwell := wellFormed_of_mem hk
    rw [hwell.comment.slice_body]
    exact hwell.directive
  · intro hd
    obtain ⟨l, body, r, hsplit, rfl⟩ := Piece.exists_split_of_mem_commentSpans hs
    rw [Nat.zero_add] at hd ⊢
    rw [(Piece.commentSpan_of_split hsplit).slice_body] at hd
    have hmem := mem_ofPieces (n := 0) (l := l) (r := r) hd
    rw [← hsplit, Nat.zero_add] at hmem
    exact ⟨_, hmem, rfl, rfl⟩

/-- **The tokens are what the grammar says.** In every document, a comment is a token exactly when a
directive is `Written` between its marks, and then it is a token with this directive; and no text is
written in two ways. -/
theorem ofText_written (t : Text) :
    (∀ s ∈ Piece.commentSpans 0 (Piece.ofText t), ∀ d,
      (∃ k ∈ ofText t, k.span = s ∧ k.directive = d) ↔
        Directive.Written d (t.slice (s.start + 4) (s.stop - 3))) ∧
      ∀ b d d', Directive.Written d b → Directive.Written d' b → d = d' :=
  ⟨fun _ hs _ => (exists_at_iff hs).trans Directive.ofBody?_eq_some_iff,
    fun _ _ _ h h' => h.unique h'⟩

/-- A declaration whose value holds an escaped backslash and behind it a line feed. -/
def feedText : Text := "<!-- var(x)=\"\\\\\n\" -->".toList

theorem mem_commentSpans_feedText :
    (⟨0, 21⟩ : Span) ∈ Piece.commentSpans 0 (Piece.ofText feedText) := by decide +kernel

/-- The comment of `feedText` is a token, with a backslash pair before the line feed. -/
theorem exists_token_feedText :
    ∃ k ∈ ofText feedText, k.span = ⟨0, 21⟩ ∧
      k.directive = .declaration ['x'] '"' ['\\', '\\', '\n'] :=
  ⟨⟨.declaration ['x'] '"' ['\\', '\\', '\n'], feedText.slice 4 18, 0⟩,
    by decide +kernel, by decide +kernel, rfl⟩

/-- Between the marks of that comment the declaration is `Written`. -/
theorem ofText_written_feedText :
    (⟨0, 21⟩ : Span) ∈ Piece.commentSpans 0 (Piece.ofText feedText) ∧
      Directive.Written (.declaration ['x'] '"' ['\\', '\\', '\n']) (feedText.slice 4 18) :=
  ⟨mem_commentSpans_feedText,
    ((ofText_written feedText).1 _ mem_commentSpans_feedText _).1 exists_token_feedText⟩

/-- A grammar that lets no backslash stand before a line feed misses the token of `feedText`. -/
theorem not_ofText_written_feedText :
    ¬∀ t : Text, ∀ s ∈ Piece.commentSpans 0 (Piece.ofText t), ∀ d,
      (∃ k ∈ ofText t, k.span = s ∧ k.directive = d) ↔
        Directive.Written d (t.slice (s.start + 4) (s.stop - 3)) ∧
          ∀ name quote raw, d = .declaration name quote raw → ¬['\\', '\n'] <:+: raw := by
  intro h
  have hno := ((h feedText _ mem_commentSpans_feedText _).1 exists_token_feedText).2 _ _ _ rfl
  exact hno ⟨['\\'], [], rfl⟩

end Token

end Transclude
