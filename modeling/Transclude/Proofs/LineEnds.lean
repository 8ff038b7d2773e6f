import Transclude.Proofs.FillTwice

/-!
# Unified line ends

Scans read a document with its line ends unified. Nothing that markup is made of is a line end, and
where a line end may stand any other may. So the pieces are the same, each with its own line ends
unified (`Piece.ofText_unify`), with one exception: a backslash in a quoted value may stand before
a carriage return but not before a line feed, and a declaration that has one there is none
afterwards.

A cut of the unified text that is not before a line feed comes from a cut of the text
(`Text.exists_split_unify`). All that is said here about marks, gaps and declarations follows.

Main statements:
- `Value.isWritten_unify_iff`: what can stand between quotes before and afterwards.
- `Declaration.read?_unify`: what is read as a declaration afterwards is read as one before.
- `Piece.opening?_unify`, `Piece.closes_unify`: markers stay what they are.
- `Piece.ofText_unify`: the pieces of the unified text, if declarations stay declarations.
-/

namespace Transclude

namespace Text

/-- Whether a text does not begin with a line feed. -/
def NoFeed (t : Text) : Prop := ∀ c ∈ t.head?, c ≠ '\n'

theorem noFeed_nil : NoFeed [] := fun _ h => nomatch h

/-- A text that begins with another character than a line feed may be cut off from what is before
it. -/
theorem noFeed_cons {c : Char} (hc : c ≠ '\n') (t : Text) : NoFeed (c :: t) := by
  rintro d hd
  rwa [← Option.some.inj hd]

@[simp] theorem unify_nil : unifyLineEnds [] = [] := rfl

/-- One character `c` more, if it is not a carriage return before a line feed: a carriage return
becomes a line feed, and any other character stays. -/
theorem unify_cons {c : Char} {t : Text} (h : ∀ u, c = '\r' → t = '\n' :: u → False) :
    unifyLineEnds (c :: t) = (if c = '\r' then '\n' else c) :: unifyLineEnds t := by
  rw [unifyLineEnds]
  exact h

theorem unify_cons_of_ne {c : Char} (hc : c ≠ '\r') (t : Text) :
    unifyLineEnds (c :: t) = c :: unifyLineEnds t := by
  rw [unify_cons fun _ h => absurd h hc, if_neg hc]

/-- A carriage return always gives a line feed, together with the line feed behind it if there is
one. -/
theorem exists_unify_return (t : Text) : ∃ u, unifyLineEnds ('\r' :: t) = '\n' :: u := by
  by_cases h : ∃ u, t = '\n' :: u
  · obtain ⟨u, rfl⟩ := h
    exact ⟨unifyLineEnds u, by rw [unifyLineEnds]⟩
  · exact ⟨unifyLineEnds t, by rw [unify_cons fun u _ hu => h ⟨u, hu⟩, if_pos rfl]⟩

/-- The first character of `unifyLineEnds t` is that of the text, with a line feed for a carriage
return. -/
theorem head?_unify (t : Text) :
    (unifyLineEnds t).head? = t.head?.map fun c => if c = '\r' then '\n' else c := by
  fun_cases unifyLineEnds t <;> rfl

/-- Line ends do not reach over a cut that is not before a line feed, so `a` and `x` can be unified
apart. -/
theorem unify_append {x : Text} (hx : NoFeed x) (a : Text) :
    unifyLineEnds (a ++ x) = unifyLineEnds a ++ unifyLineEnds x := by
  fun_induction unifyLineEnds a with
  | case1 => rfl
  | case2 a ih => rw [List.cons_append, List.cons_append, unifyLineEnds, ih, List.cons_append]
  | case3 c a hc ih =>
    rw [List.cons_append, unify_cons, ih, List.cons_append]
    rintro u rfl hu
    cases a with
    | nil => exact hx '\n' (by rw [List.nil_append] at hu; rw [hu]; rfl) rfl
    | cons d a =>
      obtain ⟨rfl, -⟩ := List.cons.inj hu
      exact hc a rfl rfl

/-- **Every cut comes from a cut of the text**, unless it is before a line feed: the parts `a` and
`x` of the unified text are those of the parts `b` and `y`. -/
theorem exists_split_unify {t a x : Text} (h : unifyLineEnds t = a ++ x) (hx : NoFeed x) :
    ∃ b y, t = b ++ y ∧ unifyLineEnds b = a ∧ unifyLineEnds y = x := by
  fun_induction unifyLineEnds t generalizing a with
  | case1 =>
    obtain ⟨rfl, rfl⟩ := List.append_eq_nil_iff.1 h.symm
    exact ⟨[], [], rfl, rfl, rfl⟩
  | case2 t ih =>
    cases a with
    | nil => exact absurd rfl (hx '\n' (by rw [List.nil_append] at h; rw [← h]; rfl))
    | cons d a =>
      obtain ⟨rfl, hrest⟩ := List.cons.inj h
      obtain ⟨b, y, rfl, rfl, rfl⟩ := ih hrest
      exact ⟨'\r' :: '\n' :: b, y, rfl, by rw [unifyLineEnds], rfl⟩
  | case3 c t hc ih =>
    cases a with
    | nil => exact ⟨[], c :: t, rfl, rfl, (unify_cons hc).trans h⟩
    | cons d a =>
      obtain ⟨rfl, hrest⟩ := List.cons.inj h
      obtain ⟨b, y, rfl, rfl, rfl⟩ := ih hrest
      refine ⟨c :: b, y, rfl, unify_cons ?_, rfl⟩
      rintro u rfl rfl
      exact hc (u ++ y) rfl rfl

/-- What markup is made of: no line ends. -/
def IsInk (t : Text) : Prop := ∀ c ∈ t, c ≠ '\n' ∧ c ≠ '\r'

instance (t : Text) : Decidable (IsInk t) :=
  List.decidableBAll (fun c => c ≠ '\n' ∧ c ≠ '\r') t

/-- A mark that is ink (`IsInk`) does not begin with a line feed. -/
theorem noFeed_ink {mark : Text} (h : IsInk mark) (hne : mark ≠ []) (t : Text) :
    NoFeed (mark ++ t) := by
  obtain ⟨c, mark, rfl⟩ := List.exists_cons_of_ne_nil hne
  exact noFeed_cons (h c List.mem_cons_self).1 _

theorem unify_ink {mark : Text} (h : IsInk mark) (t : Text) :
    unifyLineEnds (mark ++ t) = mark ++ unifyLineEnds t := by
  induction mark with
  | nil => rfl
  | cons c mark ih =>
    rw [List.cons_append, unify_cons_of_ne (h c List.mem_cons_self).2,
      ih fun d hd => h d (List.mem_cons_of_mem _ hd), List.cons_append]

/-- Line ends do not reach over a mark that is ink, so what is before it, `a`, and what is behind
it, `x`, can be unified apart. -/
theorem unify_append_ink {mark : Text} (h : IsInk mark) (hne : mark ≠ []) (a x : Text) :
    unifyLineEnds (a ++ (mark ++ x)) = unifyLineEnds a ++ (mark ++ unifyLineEnds x) := by
  rw [unify_append (noFeed_ink h hne x), unify_ink h]

theorem unify_append_char {c : Char} (h : IsInk [c]) (a x : Text) :
    unifyLineEnds (a ++ c :: x) = unifyLineEnds a ++ c :: unifyLineEnds x :=
  unify_append_ink h (List.cons_ne_nil c []) a x

/-- Ink at the beginning of the unified text is at the beginning of the text, with a `y` behind it
that is unified to `x`. -/
theorem exists_ink_unify {t x : Text} (mark : Text) (h : unifyLineEnds t = mark ++ x)
    (hmark : IsInk mark) :
    ∃ y, t = mark ++ y ∧ unifyLineEnds y = x := by
  fun_induction unifyLineEnds t generalizing mark with
  | case1 =>
    obtain ⟨rfl, rfl⟩ := List.append_eq_nil_iff.1 h.symm
    exact ⟨[], rfl, rfl⟩
  | case2 t ih =>
    cases mark with
    | nil => exact ⟨_, rfl, h⟩
    | cons d mark => exact absurd (List.cons.inj h).1.symm (hmark d List.mem_cons_self).1
  | case3 c t hc ih =>
    cases mark with
    | nil => exact ⟨_, rfl, (unify_cons hc).trans h⟩
    | cons d mark =>
      obtain ⟨hhead, hrest⟩ := List.cons.inj h
      obtain ⟨y, rfl, hy⟩ := ih _ hrest fun e he => hmark e (List.mem_cons_of_mem _ he)
      split at hhead
      · exact absurd hhead.symm (hmark d List.mem_cons_self).1
      · exact ⟨y, by rw [hhead]; rfl, hy⟩

theorem mem_unify {c : Char} {t : Text} (hc : c ≠ '\r') (h : c ∈ t) : c ∈ unifyLineEnds t := by
  fun_induction unifyLineEnds t with
  | case1 => cases h
  | case2 t ih =>
    rcases List.mem_cons.1 h with h | h
    · exact absurd h hc
    rcases List.mem_cons.1 h with rfl | h
    · exact List.mem_cons_self
    · exact List.mem_cons_of_mem _ (ih h)
  | case3 d t _ ih =>
    rcases List.mem_cons.1 h with rfl | h
    · rw [if_neg hc]
      exact List.mem_cons_self
    · exact List.mem_cons_of_mem _ (ih h)

theorem isInk_opener : IsInk opener := by decide

theorem isInk_closer : IsInk closer := by decide

/-- What follows a mark in the unified text, `s`, is what followed it in the text, `b`, unified. -/
theorem suffix_unify {mark s t : Text} (hmark : IsInk mark) (hne : mark ≠ [])
    (h : mark ++ s <:+ unifyLineEnds t) : ∃ b, mark ++ b <:+ t ∧ unifyLineEnds b = s := by
  obtain ⟨a, ha⟩ := h
  obtain ⟨b, y, rfl, -, hy⟩ := exists_split_unify ha.symm (noFeed_ink hmark hne s)
  obtain ⟨z, rfl, hz⟩ := exists_ink_unify _ hy hmark
  exact ⟨z, List.suffix_append b _, hz⟩

/-- A mark that is ink is in the unified text exactly if it is in the text. -/
theorem infix_unify {mark t : Text} (hmark : IsInk mark) (hne : mark ≠ []) :
    mark <:+: unifyLineEnds t ↔ mark <:+: t := by
  constructor
  · intro h
    obtain ⟨s, hs⟩ := infix_iff_exists_suffix.1 h
    obtain ⟨b, hb, -⟩ := suffix_unify hmark hne hs
    exact infix_iff_exists_suffix.2 ⟨b, hb⟩
  · rintro ⟨a, b, rfl⟩
    rw [List.append_assoc, unify_append (noFeed_ink hmark hne b), unify_ink hmark]
    exact ⟨unifyLineEnds a, unifyLineEnds b, List.append_assoc _ _ _⟩

/-- A mark that the unified text begins with is what the text begins with. -/
theorem prefix_unify {mark t : Text} (hmark : IsInk mark) (h : mark <+: unifyLineEnds t) :
    mark <+: t := by
  obtain ⟨x, hx⟩ := h
  obtain ⟨y, rfl, -⟩ := exists_ink_unify _ hx.symm hmark
  exact List.prefix_append mark y

end Text

/-! ## Gaps, values and declarations -/

/-- A gap of the unified text was a gap, since both kinds of line ends are gap characters. -/
theorem isGap_of_unify {t : Text} (h : IsGap (Text.unifyLineEnds t)) : IsGap t := by
  fun_induction Text.unifyLineEnds t with
  | case1 => exact isGap_nil
  | case2 t ih =>
    have ht := ih fun c hc => h c (List.mem_cons_of_mem _ hc)
    rintro c hc
    rcases List.mem_cons.1 hc with rfl | hc
    · rfl
    rcases List.mem_cons.1 hc with rfl | hc
    · rfl
    · exact ht c hc
  | case3 c t hc ih =>
    have ht := ih fun d hd => h d (List.mem_cons_of_mem _ hd)
    rintro d hd
    rcases List.mem_cons.1 hd with rfl | hd
    · have hd := h _ List.mem_cons_self
      split at hd
      · next hr => rw [hr]; rfl
      · exact hd
    · exact ht d hd

theorem isGap_unify {t : Text} (h : IsGap t) : IsGap (Text.unifyLineEnds t) := by
  fun_induction Text.unifyLineEnds t with
  | case1 => exact isGap_nil
  | case2 t ih =>
    have ht := ih fun c hc => h c (List.mem_cons_of_mem _ (List.mem_cons_of_mem _ hc))
    rintro c hc
    rcases List.mem_cons.1 hc with rfl | hc
    · rfl
    · exact ht c hc
  | case3 c t hc ih =>
    have ht := ih fun d hd => h d (List.mem_cons_of_mem _ hd)
    rintro d hd
    rcases List.mem_cons.1 hd with rfl | hd
    · split
      · rfl
      · exact h _ List.mem_cons_self
    · exact ht d hd

/-- What follows a gap does not begin with a line feed, for that would belong to the gap. -/
theorem noFeed_afterGap (t : Text) : Text.NoFeed (afterGap t) := by
  intro c hc
  have hgap := List.head?_dropWhile_not isGap t
  rw [← afterGap, hc] at hgap
  rintro rfl
  exact absurd hgap (by decide)

namespace Value

/-- Whether a backslash takes a carriage return with it. -/
def escapesReturn : Text → Bool
  | [] => false
  | [_] => false
  | c :: d :: t => if c = '\\' then d == '\r' || escapesReturn t else escapesReturn (d :: t)

/-- **What can stand between quotes** afterwards could before, and what could before still can
exactly if no carriage return is escaped (`escapesReturn`). -/
theorem isWritten_unify_iff {quote : Char} (hq : isQuote quote = true) {t : Text} :
    isWritten quote (Text.unifyLineEnds t) = true ↔
      isWritten quote t = true ∧ escapesReturn t = false := by
  have hreturn : '\r' ≠ quote := (ne_of_isQuote hq rfl).symm
  have hfeed : '\n' ≠ quote := (ne_of_isQuote hq rfl).symm
  fun_induction isWritten quote t with
  | case1 => simp [isWritten, escapesReturn]
  | case2 c =>
    rw [Text.unify_cons (by simp), Text.unify_nil]
    by_cases hc : c = '\r' <;> simp [isWritten, escapesReturn, hc, hfeed, hreturn]
  | case3 d t ih =>
    rw [Text.unify_cons_of_ne (by decide), escapesReturn, if_pos rfl]
    by_cases hd : d = '\r'
    · -- it becomes a line feed, which a backslash must not stand before
      obtain ⟨u, hu⟩ := Text.exists_unify_return t
      simp [hd, hu, isWritten_escape]
    · rw [Text.unify_cons_of_ne hd, isWritten_escape]
      simp [hd, ih, and_assoc]
  | case4 c d t hc ih =>
    rw [escapesReturn, if_neg hc, Bool.and_eq_true, and_assoc]
    refine Iff.trans ?_ (and_congr_right' ih)
    by_cases hcr : c = '\r'
    · subst hcr
      by_cases hd : d = '\n'
      · -- the two become one line feed
        subst hd
        have hpair : Text.unifyLineEnds ('\r' :: '\n' :: t) = Text.unifyLineEnds ('\n' :: t) := by
          rw [Text.unify_cons_of_ne (show '\n' ≠ '\r' by decide), Text.unifyLineEnds]
        simp [hpair, hreturn]
      · rw [Text.unify_cons (by simp [hd]), if_pos rfl, isWritten_cons_of_ne (by decide)]
        simp [hfeed, hreturn]
    · rw [Text.unify_cons_of_ne hcr, isWritten_cons_of_ne hc, Bool.and_eq_true]

end Value

/-- A gap `g` and ink behind it come from a gap and the same ink. -/
theorem exists_gap_ink {t g x : Text} (mark : Text)
    (h : Text.unifyLineEnds t = g ++ (mark ++ x)) (hg : IsGap g) (hmark : Text.IsInk mark)
    (hne : mark ≠ []) :
    ∃ g' y, IsGap g' ∧ t = g' ++ (mark ++ y) ∧ Text.unifyLineEnds y = x := by
  obtain ⟨b, y, rfl, rfl, hy⟩ := Text.exists_split_unify h (Text.noFeed_ink hmark hne x)
  obtain ⟨z, rfl, hz⟩ := Text.exists_ink_unify _ hy hmark
  exact ⟨b, z, isGap_of_unify hg, rfl, hz⟩

theorem isInk_name {name : Text} (h : isName name = true) : Text.IsInk name := by
  intro c hc
  have hn := Declaration.mem_of_isName h c hc
  constructor <;> rintro rfl <;> revert hn <;> decide

theorem isInk_quote {quote : Char} (h : isQuote quote = true) : Text.IsInk [quote] := by
  rcases isQuote_iff.1 h with rfl | rfl <;> decide

/-! ## Words with a name in parentheses -/

namespace Directive

/-- `word(name`, with gaps before its parts and after it. -/
def IsCall (word name t : Text) : Prop :=
  ∃ g₀ g₁ g₂ g₃ : Text, (IsGap g₀ ∧ IsGap g₁ ∧ IsGap g₂ ∧ IsGap g₃) ∧ isName name = true ∧
    t = g₀ ++ (word ++ (g₁ ++ '(' :: (g₂ ++ (name ++ g₃))))

/-- The lexemes of a word with a name in parentheses come before those of the text `x` that
follows. -/
theorem significantOf_call {word name t : Text} (hword : isName word = true)
    (h : IsCall word name t) (x : Text) :
    Lexeme.significantOf (t ++ ')' :: x) =
      .word word :: .openParen :: .word name :: .closeParen :: Lexeme.significantOf x := by
  obtain ⟨g₀, g₁, g₂, g₃, ⟨h₀, h₁, h₂, h₃⟩, hn, rfl⟩ := h
  have hopen : Lexeme.IsMark '(' .openParen := .inl ⟨rfl, rfl⟩
  have hclose : Lexeme.IsMark ')' .closeParen := .inr (.inl ⟨rfl, rfl⟩)
  simp only [List.append_assoc, List.cons_append]
  rw [Lexeme.significantOf_gap h₀,
    Lexeme.significantOf_word hword (Declaration.head?_gap_append h₁ rfl _),
    Lexeme.significantOf_gap h₁, Lexeme.significantOf_mark hopen, Lexeme.significantOf_gap h₂,
    Lexeme.significantOf_word hn (Declaration.head?_gap_append h₃ rfl _),
    Lexeme.significantOf_gap h₃, Lexeme.significantOf_mark hclose]

/-- A body with these lexemes begins with a word and a name in parentheses, and has the lexemes `ls`
behind them. -/
theorem exists_call_of_significantOf {word name b : Text} {ls : List Lexeme}
    (h : Lexeme.significantOf b =
      .word word :: .openParen :: .word name :: .closeParen :: ls) :
    ∃ t x, IsCall word name t ∧ b = t ++ ')' :: x ∧ Lexeme.significantOf x = ls := by
  -- one lexeme after the other is taken off, each with the gap before it
  obtain ⟨g₀, r₀, h₀, e₀, hls, -⟩ := Lexeme.exists_of_significantOf_cons h
  obtain ⟨g₁, r₁, h₁, e₁, hls, -⟩ := Lexeme.exists_of_significantOf_cons hls
  obtain ⟨g₂, r₂, h₂, e₂, hls, hn⟩ := Lexeme.exists_of_significantOf_cons hls
  obtain ⟨g₃, x, h₃, e₃, hx, -⟩ := Lexeme.exists_of_significantOf_cons hls
  subst e₀ e₁ e₂ e₃
  exact ⟨_, x, ⟨g₀, g₁, g₂, g₃, ⟨h₀, h₁, h₂, h₃⟩, hn, rfl⟩, by simp [Lexeme.text], hx⟩

section

variable {word name t : Text} (hword : isName word = true)

include hword

/-- A word with a name in parentheses (`IsCall`) stays one, with other line ends in its gaps. -/
theorem isCall_unify (h : IsCall word name t) : IsCall word name (Text.unifyLineEnds t) := by
  obtain ⟨g₀, g₁, g₂, g₃, ⟨h₀, h₁, h₂, h₃⟩, hname, rfl⟩ := h
  refine ⟨_, _, _, _, ⟨isGap_unify h₀, isGap_unify h₁, isGap_unify h₂, isGap_unify h₃⟩, hname, ?_⟩
  rw [Text.unify_append_ink (isInk_name hword) (Declaration.ne_nil_of_isName hword),
    Text.unify_append_char (by decide),
    Text.unify_append_ink (isInk_name hname) (Declaration.ne_nil_of_isName hname)]

/-- What is a word with a name in parentheses afterwards was one before, but for the line ends in
its gaps. -/
theorem exists_isCall_of_unify {b x : Text} (h : IsCall word name t)
    (hb : Text.unifyLineEnds b = t ++ ')' :: x) :
    ∃ t' y, IsCall word name t' ∧ b = t' ++ ')' :: y ∧ Text.unifyLineEnds y = x := by
  obtain ⟨g₀, g₁, g₂, g₃, ⟨h₀, h₁, h₂, h₃⟩, hname, rfl⟩ := h
  simp only [List.append_assoc, List.cons_append] at hb
  obtain ⟨g₀, y, h₀, rfl, e₀⟩ :=
    exists_gap_ink _ hb h₀ (isInk_name hword) (Declaration.ne_nil_of_isName hword)
  obtain ⟨g₁, y, h₁, rfl, e₁⟩ := exists_gap_ink ['('] e₀ h₁ (by decide) (by decide)
  obtain ⟨g₂, y, h₂, rfl, e₂⟩ :=
    exists_gap_ink _ e₁ h₂ (isInk_name hname) (Declaration.ne_nil_of_isName hname)
  obtain ⟨g₃, y, h₃, rfl, e₃⟩ := exists_gap_ink [')'] e₂ h₃ (by decide) (by decide)
  exact ⟨_, y, ⟨g₀, g₁, g₂, g₃, ⟨h₀, h₁, h₂, h₃⟩, hname, rfl⟩, by simp, e₃⟩

end

end Directive

/-! ## Declarations -/

namespace Declaration

/-- A head is the declaration word with a name in parentheses (`IsCall`), and an equals sign with
gaps around it. -/
theorem isHead_iff {name head : Text} :
    IsHead name head ↔ ∃ t g₄ g₅, Directive.IsCall declarationWord name t ∧ IsGap g₄ ∧ IsGap g₅ ∧
      head = t ++ ')' :: (g₄ ++ '=' :: g₅) := by
  constructor
  · rintro ⟨g₀, g₁, g₂, g₃, g₄, g₅, ⟨h₀, h₁, h₂, h₃, h₄, h₅⟩, hname, rfl⟩
    exact ⟨_, g₄, g₅, ⟨g₀, g₁, g₂, g₃, ⟨h₀, h₁, h₂, h₃⟩, hname, rfl⟩, h₄, h₅, by simp⟩
  · rintro ⟨_, g₄, g₅, ⟨g₀, g₁, g₂, g₃, ⟨h₀, h₁, h₂, h₃⟩, hname, rfl⟩, h₄, h₅, rfl⟩
    exact ⟨g₀, g₁, g₂, g₃, g₄, g₅, ⟨h₀, h₁, h₂, h₃, h₄, h₅⟩, hname, by simp⟩

/-- A declaration `d` at the beginning of the unified text comes from a declaration `e` at the
beginning of the text. -/
theorem exists_unify_body {t x : Text} {d : Declaration} (hd : d.WellFormed)
    (h : Text.unifyLineEnds t = d.body ++ x) (hx : Text.NoFeed x) :
    ∃ (e : Declaration) (y : Text), e.WellFormed ∧ t = e.body ++ y ∧ Text.unifyLineEnds y = x := by
  obtain ⟨t₀, g₄, g₅, ht, h₄, h₅, hhead⟩ := isHead_iff.1 hd.head
  have hquote := isInk_quote hd.quote
  -- one part after the other is taken off, from the front
  rw [body, hhead] at h
  simp only [List.append_assoc, List.cons_append] at h
  obtain ⟨t₀, y, ht, rfl, e₃⟩ := Directive.exists_isCall_of_unify isName_declarationWord ht h
  obtain ⟨g₄, y, h₄, rfl, e₄⟩ := exists_gap_ink ['='] e₃ h₄ (by decide) (by decide)
  obtain ⟨g₅, y, h₅, rfl, e₅⟩ := exists_gap_ink [d.quote] e₄ h₅ hquote (by simp)
  obtain ⟨raw, y, rfl, hraw, e₆⟩ :=
    Text.exists_split_unify e₅ (Text.noFeed_ink hquote (by simp) (d.tail ++ x))
  obtain ⟨y, rfl, e₇⟩ := Text.exists_ink_unify [d.quote] e₆ hquote
  obtain ⟨tail, y, rfl, htail, e₈⟩ := Text.exists_split_unify e₇ hx
  have hhead' : IsHead d.name _ := isHead_iff.2 ⟨t₀, g₄, g₅, ht, h₄, h₅, rfl⟩
  refine ⟨⟨_, d.name, d.quote, raw, tail⟩, y, ⟨hhead', hd.quote, ?_, ?_⟩, ?_, e₈⟩
  · exact ((Value.isWritten_unify_iff hd.quote).1 (hraw ▸ hd.raw)).1
  · exact isGap_of_unify (htail ▸ hd.tail)
  · simp [body]

/-- **What is read as a declaration afterwards** is read as one before: unifying line ends makes no
declaration. -/
theorem read?_unify {t : Text} (h : read? t = none) : read? (Text.unifyLineEnds t) = none := by
  cases hr : read? (Text.unifyLineEnds t) with
  | none => rfl
  | some p =>
    obtain ⟨d, rest⟩ := p
    obtain ⟨hd, heq⟩ := read?_eq_some_iff.1 hr
    rw [List.append_assoc] at heq
    obtain ⟨e, y, he, rfl, hy⟩ :=
      exists_unify_body hd heq (Text.noFeed_ink Text.isInk_closer (by decide) rest)
    obtain ⟨z, rfl, -⟩ := Text.exists_ink_unify _ hy Text.isInk_closer
    rw [← List.append_assoc, read?_eq_some_iff.2 ⟨he, rfl⟩] at h
    cases h

end Declaration

/-! ## Markers -/

namespace Lexeme

/-- A body whose significant lexemes are words and parentheses holds no quotes. -/
theorem not_isQuote_of_significantOf {b : Text}
    (h : ∀ l ∈ significantOf b, (∃ w, l = word w) ∨ l = openParen ∨ l = closeParen) :
    ∀ c ∈ b, isQuote c = false := by
  intro c hc
  rw [← textOf_ofText b, textOf, List.mem_flatMap] at hc
  obtain ⟨l, hl, hc⟩ := hc
  have hvalid := valid_of_mem_ofText hl
  cases hgap : l.isGapLexeme with
  | true =>
    have := isGap_text hvalid hgap c hc
    cases hq : isQuote c with
    | false => rfl
    | true => rw [not_isGap_of_isQuote hq] at this; cases this
  | false =>
    have hsig : l ∈ significantOf b := List.mem_filter.2 ⟨hl, by simp [hgap]⟩
    rcases h l hsig with ⟨w, rfl⟩ | rfl | rfl
    · have hn := Declaration.mem_of_isName hvalid c hc
      cases hq : isQuote c with
      | false => rfl
      | true => rcases isQuote_iff.1 hq with rfl | rfl <;> revert hn <;> decide
    · rw [List.mem_singleton.1 hc]; rfl
    · rw [List.mem_singleton.1 hc]; rfl

/-- A character `c` that is neither part of a gap or a word nor a quote is a lexeme by itself. -/
theorem first_alone {c : Char} (hgap : isGap c = false) (hname : isNameChar c = false)
    (hquote : isQuote c = false) (t : Text) : first c t = ((first c []).1, t) := by
  have hquote' : ¬(c = '"' ∨ c = '\'') := fun h => by rw [isQuote_iff.2 h] at hquote; cases hquote
  unfold first
  simp only [hgap, hname, hquote', Bool.false_eq_true, if_false]
  split
  · rfl
  split
  · rfl
  split <;> rfl

/-- Without quotes in it, a body has the same significant lexemes with unified line ends. -/
theorem significantOf_unify {b : Text} (hb : ∀ c ∈ b, isQuote c = false) :
    significantOf (Text.unifyLineEnds b) = significantOf b := by
  fun_induction ofText b with
  | case1 => rfl
  | case2 c t ih =>
    have hrest : ∀ d ∈ (first c t).2, isQuote d = false := fun d hd =>
      hb d (by rw [← text_first c t]; exact List.mem_append_right _ hd)
    replace ih := ih hrest
    by_cases hgap : isGap c = true
    · have hafter : afterGap (c :: t) = (first c t).2 := by
        rw [first_gap hgap, afterGap, List.dropWhile_cons, if_pos hgap]
      obtain ⟨g, hg, heq⟩ := exists_gap (c :: t)
      rw [heq, Text.unify_append (noFeed_afterGap _), significantOf_gap (isGap_unify hg),
        significantOf_gap hg, hafter, ih]
    · by_cases hname : isNameChar c = true
      · -- a word, and what follows it begins with no name character either way
        have hword : isName (first c t).1.text = true := by
          have := valid_first c t
          rwa [first_word hname] at this ⊢
        have hstop : ∀ d ∈ (first c t).2.head?, isNameChar d = false := by
          intro d hd
          have := List.head?_dropWhile_not isNameChar t
          rw [first_word hname] at hd
          rw [hd] at this
          simpa using this
        have hstop' : ∀ d ∈ (Text.unifyLineEnds (first c t).2).head?, isNameChar d = false := by
          intro d hd
          rw [Text.head?_unify] at hd
          obtain ⟨e, he, rfl⟩ := Option.map_eq_some_iff.1 hd
          split
          · rfl
          · exact hstop e he
        rw [first_word hname] at hword hstop hstop' ih
        have htext := text_first c t
        rw [first_word hname] at htext
        rw [← htext, Text.unify_ink (isInk_name hword), significantOf_word hword hstop',
          significantOf_word hword hstop, ih]
      · have hne : c ≠ '\r' := by
          rintro rfl
          exact hgap rfl
        have halone := first_alone (Bool.eq_false_iff.2 hgap) (Bool.eq_false_iff.2 hname)
          (hb c List.mem_cons_self)
        rw [halone t] at ih
        rw [Text.unify_cons_of_ne hne, significantOf_cons, significantOf_cons, halone t,
          halone (Text.unifyLineEnds t)]
        dsimp only
        rw [ih]

end Lexeme

namespace Directive

/-- The significant lexemes of a marker of a block are words and parentheses. -/
theorem significantOf_marker {b : Text} {d : Directive} (h : ofBody? b = some d)
    (hd : (∃ kind name, d = opening kind name) ∨ ∃ kind, d = closing kind) :
    ∀ l ∈ Lexeme.significantOf b,
      (∃ w, l = .word w) ∨ l = .openParen ∨ l = .closeParen := by
  have hls : ofLexemes? (Lexeme.significantOf b) = some d := h
  generalize Lexeme.significantOf b = ls at hls
  unfold ofLexemes? at hls
  split at hls
  · simp
  · next w name tail =>
    -- of the longer shapes, only an opening marker ends here
    suffices htail : tail = [] by simp [htail]
    split at hls
    · obtain rfl := Option.some.inj hls
      simp at hd
    · split at hls
      · rfl
      · split at hls
        · obtain rfl := Option.some.inj hls
          simp at hd
        · cases hls
      · cases hls
  · cases hls

/-- **Markers of blocks stay what they are** under `unifyLineEnds`, and nothing becomes one. -/
theorem ofBody?_unify {b : Text} {d : Directive}
    (hd : (∃ kind name, d = opening kind name) ∨ ∃ kind, d = closing kind) :
    ofBody? (Text.unifyLineEnds b) = some d ↔ ofBody? b = some d := by
  have hsame {b : Text} (hb : ∀ c ∈ b, isQuote c = false) :
      ofBody? (Text.unifyLineEnds b) = ofBody? b :=
    congrArg ofLexemes? (Lexeme.significantOf_unify hb)
  constructor
  · intro h
    have hquote := Lexeme.not_isQuote_of_significantOf (significantOf_marker h hd)
    have hb : ∀ c ∈ b, isQuote c = false := by
      intro c hc
      by_cases hr : c = '\r'
      · rw [hr]; rfl
      · exact hquote c (Text.mem_unify hr hc)
    rwa [hsame hb] at h
  · intro h
    rwa [hsame (Lexeme.not_isQuote_of_significantOf (significantOf_marker h hd))]

end Directive

namespace Piece

/-- The piece with unified line ends. -/
def unify : Piece → Piece
  | plain t => plain (Text.unifyLineEnds t)
  | comment body => comment (Text.unifyLineEnds body)

section

variable {kind : BlockKind} {p : Piece}

@[simp] theorem opening?_unify (kind : BlockKind) (p : Piece) :
    p.unify.opening? kind = p.opening? kind := by
  cases p with
  | plain t => rfl
  | comment body =>
    ext name
    rw [opening?_eq_some_iff, opening?_eq_some_iff]
    exact Directive.ofBody?_unify (.inl ⟨kind, name, rfl⟩)

@[simp] theorem closes_unify (kind : BlockKind) (p : Piece) :
    p.unify.closes kind = p.closes kind := by
  cases p with
  | plain t => rfl
  | comment body =>
    rw [Bool.eq_iff_iff, closes_iff, closes_iff]
    exact Directive.ofBody?_unify (.inr ⟨kind, rfl⟩)

theorem isDeclaration_of_unify (h : p.unify.isDeclaration = true) : p.isDeclaration = true := by
  cases p with
  | plain t => exact h
  | comment body =>
    obtain ⟨d, hd, hbody⟩ := isDeclaration_iff.1 h
    have hcut : Text.unifyLineEnds body = d.body ++ [] := by rw [List.append_nil, hbody]
    obtain ⟨e, y, he, rfl, hy⟩ := Declaration.exists_unify_body hd hcut Text.noFeed_nil
    obtain rfl : y = [] := by
      have hhead := Text.head?_unify y
      rw [hy] at hhead
      exact List.head?_eq_none_iff.1 (Option.map_eq_none_iff.1 hhead.symm)
    exact isDeclaration_iff.2 ⟨e, he, (List.append_nil _).symm⟩

theorem declaration?_unify (h : p.directive? = none) : p.unify.declaration? = none := by
  have hno : p.isDeclaration = false := by simp [isDeclaration, declaration?, h]
  cases hd : p.unify.declaration? with
  | none => rfl
  | some d =>
    have hyes : p.unify.isDeclaration = true := by rw [isDeclaration, hd]; rfl
    rw [isDeclaration_of_unify hyes] at hno
    cases hno

theorem unify_comment_append (body rest : Text) :
    Text.unifyLineEnds ((comment body).text ++ rest) =
      (comment body).unify.text ++ Text.unifyLineEnds rest := by
  have hcloser := Text.noFeed_ink Text.isInk_closer (by decide) rest
  simp only [text, unify, List.append_assoc]
  rw [Text.unify_ink Text.isInk_opener, Text.unify_append hcloser, Text.unify_ink Text.isInk_closer]

section

variable {before body rest : Text}

/-- Neighbours stay joined (`Joins`), if the comment stays a declaration where it is one. -/
theorem joins_unify (h : Joins before body)
    (hdecl : (comment body).isDeclaration = true → (comment body).unify.isDeclaration = true) :
    Joins (Text.unifyLineEnds before) (Text.unifyLineEnds body) where
  unclosed s hs hin := by
    obtain ⟨b, hb, rfl⟩ := Text.suffix_unify Text.isInk_opener (by decide) hs
    exact h.unclosed b hb ((Text.infix_unify Text.isInk_closer (by decide)).1 hin)
  opens hin := by
    have hopens := h.opens ((Text.infix_unify Text.isInk_opener (by decide)).1 hin)
    have hcloser : Text.unifyLineEnds (body ++ closer) = Text.unifyLineEnds body ++ closer :=
      Text.unify_append (Text.noFeed_cons (by decide) _) body
    rw [← hcloser, opens_iff]
    rw [opens_iff] at hopens
    exact ⟨fun hp => hopens.1 (Text.prefix_unify (by decide) hp),
      fun hp => hopens.2 (Text.prefix_unify (by decide) hp)⟩
  clean := by
    rcases h.clean with hd | ⟨hopen, hclose⟩
    · exact .inl (hdecl hd)
    · exact .inr ⟨mt (Text.infix_unify Text.isInk_opener (by decide)).1 hopen,
        mt (Text.infix_unify Text.isInk_closer (by decide)).1 hclose⟩

/-- The first comment of the unified text is that of the text, if it stays a declaration where it is
one. -/
theorem firstComment?_unify {t : Text} (h : firstComment? t = some (before, body, rest))
    (hdecl : (comment body).isDeclaration = true → (comment body).unify.isDeclaration = true) :
    firstComment? (Text.unifyLineEnds t) =
      some (Text.unifyLineEnds before, Text.unifyLineEnds body, Text.unifyLineEnds rest) := by
  have ht := eq_of_firstComment? h
  rw [List.append_assoc] at ht
  rw [ht] at h
  obtain ⟨hjoins, hbefore, hbody⟩ := firstComment?_iff_joins.1 h
  have hopener : Text.NoFeed ((comment body).text ++ rest) := by
    rw [text, List.append_assoc, List.append_assoc]
    exact Text.noFeed_ink Text.isInk_opener (by decide) _
  have hcloser := Text.noFeed_ink Text.isInk_closer (by decide) rest
  rw [ht, Text.unify_append hopener, unify_comment_append]
  refine firstComment?_iff_joins.2 ⟨joins_unify hjoins hdecl, fun s hs => ?_, fun hno => ?_⟩
  · obtain ⟨b, hb, rfl⟩ := Text.suffix_unify Text.isInk_opener (by decide) hs
    have hread := Declaration.read?_unify (hbefore b hb)
    rwa [Text.unify_append hopener, unify_comment_append] at hread
  · have hno' : (comment body).isDeclaration = false :=
      Bool.eq_false_iff.2 fun hd => Bool.eq_false_iff.1 hno (hdecl hd)
    have hread := Declaration.read?_unify (hbody hno')
    rwa [Text.unify_append hcloser, Text.unify_ink Text.isInk_closer] at hread

end

/-- **The pieces of the unified text** are those of the text, if declarations stay declarations. The
induction is on the comments, from the first one on. -/
theorem ofText_unify {t : Text}
    (h : ∀ p ∈ ofText t, p.isDeclaration = true → p.unify.isDeclaration = true) :
    ofText (Text.unifyLineEnds t) = (ofText t).map unify := by
  fun_induction ofText t with
  | case1 t hnone =>
    refine ofText_none (firstComment?_eq_none_iff.2 fun s hs hin => ?_)
    obtain ⟨b, hb, rfl⟩ := Text.suffix_unify Text.isInk_opener (by decide) hs
    exact firstComment?_eq_none_iff.1 hnone b hb
      ((Text.infix_unify Text.isInk_closer (by decide)).1 hin)
  | case2 t before body rest hfirst ih =>
    rw [ofText_some (firstComment?_unify hfirst (h _ (by simp))), ih fun p hp => h p (by simp [hp])]
    rfl

end

end Piece

end Transclude
