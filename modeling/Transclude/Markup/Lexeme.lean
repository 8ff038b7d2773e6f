import Transclude.Markup.Declaration

/-!
# Lexemes of a comment body

The body of a comment is read as a row of lexemes: gaps, words, three marks and quoted values. A
lexeme is the longest that can be read, and a character that begins none stands alone as
`unknown`. Keywords and names are both words. This is the program's `RawToken` with its rules.

The lexemes that say something (`Lexeme.significantOf`) can be composed: a gap adds none, and a
word, a mark or a quoted value adds itself in front (`Lexeme.significantOf_gap`,
`Lexeme.significantOf_word`, `Lexeme.significantOf_mark`, `Lexeme.significantOf_quoted`). And they
can be taken apart: a body with a first significant lexeme is a gap, the text of that lexeme, and a
body with the others (`Lexeme.exists_of_significantOf_cons`).

Main statements:
- `Lexeme.textOf_ofText`: the lexemes of a body make up the body.
- `Lexeme.ofText_append`: a text without quotes is cut into lexemes by itself, whatever stands
  behind it, if its last lexeme cannot go on there.
-/

namespace Transclude

/-- The smallest parts of a comment body. -/
inductive Lexeme where
  | gap (text : Text)
  | word (text : Text)
  | openParen
  | closeParen
  | equals
  | quoted (quote : Char) (raw : Text)
  | unknown (c : Char)
  deriving DecidableEq, Repr

namespace Lexeme

/-- The lexeme as it stands in the body. -/
def text : Lexeme → Text
  | gap t => t
  | word t => t
  | openParen => ['(']
  | closeParen => [')']
  | equals => ['=']
  | quoted quote raw => quote :: raw ++ [quote]
  | unknown c => [c]

/-- The first lexeme of a text that begins with `c`, and the text after it. -/
def first (c : Char) (t : Text) : Lexeme × Text :=
  if isGap c then (gap (c :: t.takeWhile isGap), t.dropWhile isGap)
  else if isNameChar c then (word (c :: t.takeWhile isNameChar), t.dropWhile isNameChar)
  else if c = '(' then (openParen, t)
  else if c = ')' then (closeParen, t)
  else if c = '=' then (equals, t)
  else if c = '"' ∨ c = '\'' then
    match Value.upToQuote? c t with
    | some (raw, rest) => (quoted c raw, rest)
    | none => (unknown c, t)
  else (unknown c, t)

/-- Nothing is lost by `first`: the text of the first lexeme and what is left behind it make up the
body `c :: t`. -/
theorem text_first (c : Char) (t : Text) : (first c t).1.text ++ (first c t).2 = c :: t := by
  unfold first
  repeat' split
  all_goals simp_all [text, List.takeWhile_append_dropWhile]
  next h => simp [Value.eq_of_upToQuote? h]

/-- What `first` leaves is shorter, so cutting a body into lexemes ends. -/
theorem length_first_lt (c : Char) (t : Text) : (first c t).2.length < t.length + 1 := by
  have h := congrArg List.length (text_first c t)
  have : 0 < (first c t).1.text.length := by
    unfold first
    repeat' split
    all_goals simp [text]
  simp at h
  omega

/-- The lexemes of a comment body. -/
def ofText : Text → List Lexeme
  | [] => []
  | c :: t => (first c t).1 :: ofText (first c t).2
termination_by t => t.length
decreasing_by exact length_first_lt c t

/-- The text of a row of lexemes. -/
def textOf (ls : List Lexeme) : Text := ls.flatMap text

/-- **Nothing is lost** by `ofText`: the texts of the lexemes of a body, one after the other, are
the body. -/
theorem textOf_ofText (t : Text) : textOf (ofText t) = t := by
  fun_induction ofText t with
  | case1 => rfl
  | case2 c t ih =>
    rw [← text_first c t]
    simpa [textOf] using ih

/-- Whether a lexeme is a gap. -/
def isGapLexeme : Lexeme → Bool
  | gap _ => true
  | _ => false

/-- The lexemes that say something: all but the gaps. -/
def significant (ls : List Lexeme) : List Lexeme := ls.filter fun l => !l.isGapLexeme

/-- The lexemes before the first quoted value. -/
def beforeQuoted : List Lexeme → List Lexeme
  | [] => []
  | quoted _ _ :: _ => []
  | l :: ls => l :: beforeQuoted ls

/-- Every quoted value replaced by `f` of its quote. -/
def requote (f : Char → Text) : Lexeme → Lexeme
  | quoted quote _ => quoted quote (f quote)
  | l => l

/-! ## The lexemes that say something -/

/-- The lexemes of a comment body that are no gaps. -/
def significantOf (body : Text) : List Lexeme := significant (ofText body)

theorem significantOf_nil : significantOf [] = [] := by
  rw [significantOf, ofText]
  rfl

theorem ofText_cons (c : Char) (t : Text) :
    ofText (c :: t) = (first c t).1 :: ofText (first c t).2 := by
  rw [ofText]

/-- The lexeme that `first` takes at a gap character is a gap, as long as it can be. -/
theorem first_gap {c : Char} (hc : isGap c = true) (t : Text) :
    first c t = (gap (c :: t.takeWhile isGap), t.dropWhile isGap) := by
  rw [first, if_pos hc]

/-- The lexeme that `first` takes at a name character is a word, as long as it can be. -/
theorem first_word {c : Char} (hc : isNameChar c = true) (t : Text) :
    first c t = (word (c :: t.takeWhile isNameChar), t.dropWhile isNameChar) := by
  rw [first, if_neg (by simp [not_isGap_of_isNameChar hc]), if_pos hc]

/-- The lexeme that `first` takes at a quote is a quoted value if one can be read from there, and
otherwise the unknown character `c` by itself. -/
theorem first_quote {c : Char} (hc : isQuote c = true) (t : Text) :
    first c t = match Value.upToQuote? c t with
      | some (raw, rest) => (quoted c raw, rest)
      | none => (unknown c, t) := by
  rcases isQuote_iff.1 hc with rfl | rfl <;> rfl

/-- A gap at the beginning of a body adds nothing to `significantOf`, also where it runs into
another. -/
theorem significantOf_afterGap (t : Text) : significantOf t = significantOf (afterGap t) := by
  cases t with
  | nil => rfl
  | cons c t =>
    cases hc : isGap c with
    | false => rw [afterGap_cons hc]
    | true =>
      rw [significantOf, ofText_cons, first_gap hc, afterGap, List.dropWhile_cons, if_pos hc]
      rfl

/-- A gap `g` that is put in front of a body adds nothing to `significantOf` either. -/
theorem significantOf_gap {g : Text} (hg : IsGap g) (t : Text) :
    significantOf (g ++ t) = significantOf t := by
  rw [significantOf_afterGap, afterGap_append hg, ← significantOf_afterGap]

/-- A name `w` that stands alone is one word. It stands alone if the body `t` behind it does not
begin with one more name character. -/
theorem significantOf_word {w t : Text} (hw : isName w = true)
    (ht : ∀ c ∈ t.head?, isNameChar c = false) :
    significantOf (w ++ t) = word w :: significantOf t := by
  obtain ⟨c, w, rfl⟩ := List.exists_cons_of_ne_nil (Declaration.ne_nil_of_isName hw)
  have hc : isNameChar c = true := Declaration.mem_of_isName hw c List.mem_cons_self
  have htake := Declaration.takeWhile_name hw ht
  have hdrop := Declaration.dropWhile_name hw ht
  rw [List.cons_append, List.takeWhile_cons, if_pos hc] at htake
  rw [List.cons_append, List.dropWhile_cons, if_pos hc] at hdrop
  rw [List.cons_append, significantOf, ofText_cons, first_word hc, htake, hdrop]
  rfl

/-- A written value `raw` between two quotes is one lexeme, whatever body `t` follows. -/
theorem significantOf_quoted {q : Char} (hq : isQuote q = true) {raw : Text}
    (hraw : Value.isWritten q raw = true) (t : Text) :
    significantOf (q :: raw ++ q :: t) = quoted q raw :: significantOf t := by
  rw [List.cons_append, significantOf, ofText_cons, first_quote hq,
    Value.upToQuote?_of_isWritten (ne_of_isQuote hq rfl) hraw]
  rfl

/-- One of the three marks, as the lexeme that it is. -/
def IsMark (c : Char) (l : Lexeme) : Prop :=
  c = '(' ∧ l = openParen ∨ c = ')' ∧ l = closeParen ∨ c = '=' ∧ l = equals

/-- Each of the marks of a directive is a lexeme by itself. -/
theorem significantOf_mark {c : Char} {l : Lexeme} (h : IsMark c l) (t : Text) :
    significantOf (c :: t) = l :: significantOf t := by
  rcases h with ⟨rfl, rfl⟩ | ⟨rfl, rfl⟩ | ⟨rfl, rfl⟩ <;> rw [significantOf, ofText_cons] <;> rfl

/-- What the reader of lexemes can give out. -/
def Valid : Lexeme → Prop
  | gap t => IsGap t
  | word w => isName w = true
  | quoted q raw => isQuote q = true ∧ Value.isWritten q raw = true
  | _ => True

/-- The lexemes that are cut are `Valid`: a gap consists of gap characters, a word is a name, and a
quoted value could be written so. -/
theorem valid_first (c : Char) (t : Text) : (first c t).1.Valid := by
  unfold first
  split
  · next hc =>
    intro x hx
    rcases List.mem_cons.1 hx with rfl | hx
    · exact hc
    · exact isGap_gapOf t x hx
  split
  · next hc => simp [Valid, isName, hc, List.all_takeWhile]
  split
  · trivial
  split
  · trivial
  split
  · trivial
  split
  · next hq =>
    split
    · next h => exact ⟨isQuote_iff.2 hq, Value.isWritten_of_upToQuote? h⟩
    · trivial
  · trivial

theorem valid_of_mem_ofText {t : Text} {l : Lexeme} (h : l ∈ ofText t) : l.Valid := by
  fun_induction ofText t with
  | case1 => cases h
  | case2 c t ih =>
    rcases List.mem_cons.1 h with rfl | h
    · exact valid_first c t
    · exact ih h

/-- The significant lexemes of a body are its first lexeme, unless that is a gap, and those of what
`first` leaves. -/
theorem significantOf_cons (c : Char) (t : Text) :
    significantOf (c :: t) =
      if (first c t).1.isGapLexeme then significantOf (first c t).2
      else (first c t).1 :: significantOf (first c t).2 := by
  rw [significantOf, ofText_cons, significant, List.filter_cons]
  cases (first c t).1.isGapLexeme <;> rfl

theorem isGap_append {g h : Text} (hg : IsGap g) (hh : IsGap h) : IsGap (g ++ h) := by
  intro c hc
  rcases List.mem_append.1 hc with hc | hc
  · exact hg c hc
  · exact hh c hc

/-- The text of a gap lexeme is a gap, by `Valid`. -/
theorem isGap_text {l : Lexeme} (hl : l.Valid) (hg : l.isGapLexeme = true) : IsGap l.text := by
  cases l with
  | gap t => exact hl
  | _ => simp [isGapLexeme] at hg

/-- A body without significant lexemes is a gap. -/
theorem isGap_of_significantOf_nil {t : Text} (h : significantOf t = []) : IsGap t := by
  fun_induction ofText t with
  | case1 => exact isGap_nil
  | case2 c t ih =>
    rw [significantOf_cons] at h
    split at h
    · next hg =>
      rw [← text_first c t]
      exact isGap_append (isGap_text (valid_first c t) hg) (ih h)
    · cases h

/-- A body whose first significant lexeme is `l` is a gap `g`, the text of `l`, and a body `r` with
the other lexemes `ls`. -/
theorem exists_of_significantOf_cons {t : Text} {l : Lexeme} {ls : List Lexeme}
    (h : significantOf t = l :: ls) :
    ∃ g r, IsGap g ∧ t = g ++ (l.text ++ r) ∧ significantOf r = ls ∧ l.Valid := by
  fun_induction ofText t with
  | case1 =>
    rw [significantOf_nil] at h
    cases h
  | case2 c t ih =>
    rw [significantOf_cons] at h
    split at h
    · next hg =>
      -- the text of a gap lexeme goes in front of the gap that is found
      obtain ⟨g, r, hgap, hr, hls, hl⟩ := ih h
      refine ⟨(first c t).1.text ++ g, r, isGap_append (isGap_text (valid_first c t) hg) hgap,
        ?_, hls, hl⟩
      rw [List.append_assoc, ← hr, text_first]
    · obtain ⟨rfl, rfl⟩ := List.cons.inj h
      exact ⟨[], (first c t).2, isGap_nil, (text_first c t).symm, rfl, valid_first c t⟩

/-! ## Lexemes before a quoted value -/

/-- A run of characters that `p` holds of ends at the latest in front of a `t` that begins with
none. -/
theorem takeWhile_append_of_head {p : Char → Bool} {t : Text} (ht : ∀ c ∈ t.head?, p c = false)
    (s : Text) : (s ++ t).takeWhile p = s.takeWhile p := by
  have hnil : t.takeWhile p = [] := by
    cases t with
    | nil => rfl
    | cons c t => rw [List.takeWhile_cons, if_neg (by simp [ht c rfl])]
  rw [List.takeWhile_append, hnil, List.append_nil]
  split
  · next hlen => exact (List.takeWhile_prefix p).eq_of_length hlen |>.symm
  · rfl

/-- What `dropWhile` leaves is then `t` with the rest of `s` in front of it. -/
theorem dropWhile_append_of_head {p : Char → Bool} {t : Text} (ht : ∀ c ∈ t.head?, p c = false)
    (s : Text) : (s ++ t).dropWhile p = s.dropWhile p ++ t := by
  have h := List.takeWhile_append_dropWhile (p := p) (l := s ++ t)
  rw [takeWhile_append_of_head ht] at h
  refine List.append_cancel_left (h.trans ?_)
  rw [← List.append_assoc, List.takeWhile_append_dropWhile]

/-- A lexeme that is no quoted value ends before a character that can go on neither with a gap nor
with a word. So what follows, `t`, does not matter to it. -/
theorem first_append {c : Char} (hc : isQuote c = false) {t : Text}
    (ht : ∀ c ∈ t.head?, isGap c = false ∧ isNameChar c = false) (s : Text) :
    first c (s ++ t) = ((first c s).1, (first c s).2 ++ t) := by
  have hq : ¬(c = '"' ∨ c = '\'') := fun h => by simp [isQuote_iff.2 h] at hc
  unfold first
  simp only [takeWhile_append_of_head fun c h => (ht c h).1,
    takeWhile_append_of_head fun c h => (ht c h).2, dropWhile_append_of_head fun c h => (ht c h).1,
    dropWhile_append_of_head fun c h => (ht c h).2, if_neg hq]
  repeat' split
  all_goals rfl

/-- A text `s` without quotes, before one that goes on neither with a gap nor with a word, is cut
into lexemes by itself. Behind a quote the cut could reach over the end of `s`. -/
theorem ofText_append {s t : Text} (hs : ∀ c ∈ s, isQuote c = false)
    (ht : ∀ c ∈ t.head?, isGap c = false ∧ isNameChar c = false) :
    ofText (s ++ t) = ofText s ++ ofText t := by
  fun_induction ofText s with
  | case1 => rfl
  | case2 c s ih =>
    -- what is left of `s` behind its first lexeme has no quotes either
    have hrest : ∀ x ∈ (first c s).2, isQuote x = false := by
      intro x hx
      refine hs x ?_
      rw [← text_first c s]
      exact List.mem_append_right _ hx
    rw [List.cons_append, ofText_cons, first_append (hs c List.mem_cons_self) ht, ih hrest]
    rfl

/-- No quoted value is cut from a text `s` without quotes. -/
theorem ne_quoted_of_mem_ofText {s : Text} (hs : ∀ c ∈ s, isQuote c = false) {l : Lexeme}
    (hl : l ∈ ofText s) (q : Char) (raw : Text) : l ≠ quoted q raw := by
  rintro rfl
  have hmem : q ∈ s := by
    rw [← textOf_ofText s]
    exact List.mem_flatMap.2 ⟨_, hl, by simp [text]⟩
  exact absurd (valid_of_mem_ofText hl).1 (by simp [hs q hmem])

/-- Lexemes without a quoted value among them are left as they are by `requote`. -/
theorem map_requote_of_ne {f : Char → Text} {ls : List Lexeme}
    (h : ∀ l ∈ ls, ∀ q raw, l ≠ quoted q raw) : ls.map (requote f) = ls := by
  refine (List.map_congr_left fun l hl => ?_).trans (List.map_id ls)
  cases l with
  | quoted q raw => exact absurd rfl (h _ hl q raw)
  | _ => rfl

/-- The lexemes `ls` before the first quoted value, where it is known that none of them is one. -/
theorem beforeQuoted_append {ls : List Lexeme} (h : ∀ l ∈ ls, ∀ q raw, l ≠ quoted q raw)
    (q : Char) (raw : Text) (ms : List Lexeme) :
    beforeQuoted (ls ++ quoted q raw :: ms) = ls := by
  induction ls with
  | nil => rfl
  | cons l ls ih =>
    have hrest := ih fun m hm => h m (List.mem_cons_of_mem _ hm)
    cases l with
    | quoted q' raw' => exact absurd rfl (h _ List.mem_cons_self q' raw')
    | _ =>
      rw [List.cons_append, beforeQuoted, hrest]
      simp

end Lexeme

end Transclude
