import Transclude.Proofs.Edits

/-!
# What an exposed opener makes of a value

Where an opener is exposed, some value ends the declaration that it begins: the value closes the
quote, or is closed in by the opening quote before it, and goes on with a closer. The document then
has a declaration that begins before the edited one, and all the rest of the value is read as text
of the document. This file writes such a value for every exposed opener
(`Declaration.exists_capture`), with a declaration of any other variable in that rest.

Main statement: `Piece.exists_declares_edit`, where an opener is exposed, some value brings a
declaration of any given variable into the document.
-/

namespace Transclude

/-- The first occurrence of a mark for which what follows it has the property `P`, if there is any:
nothing that follows a later one is longer. -/
theorem Text.exists_first_mark {mark t : Text} {P : Text → Prop}
    (h : ∃ b, mark ++ b <:+ t ∧ P b) :
    ∃ a b, t = a ++ (mark ++ b) ∧ P b ∧ ∀ b', mark ++ b' <:+ t → P b' → b'.length ≤ b.length := by
  induction t with
  | nil =>
    obtain ⟨b, hb, hP⟩ := h
    have heq : mark ++ b = [] := List.suffix_nil.1 hb
    refine ⟨[], b, heq.symm, hP, fun b' hb' _ => ?_⟩
    have heq' : mark ++ b' = [] := List.suffix_nil.1 hb'
    rw [(List.append_eq_nil_iff.1 heq').2]
    exact Nat.zero_le _
  | cons c t ih =>
    by_cases hhere : ∃ b, mark ++ b = c :: t ∧ P b
    · obtain ⟨b, hb, hP⟩ := hhere
      refine ⟨[], b, hb.symm, hP, fun b' hb' _ => ?_⟩
      have hlen := congrArg List.length hb
      have hlen' := hb'.length_le
      simp only [List.length_append] at hlen hlen'
      omega
    · obtain ⟨b, hb, hP⟩ := h
      rw [List.suffix_cons_iff] at hb
      obtain ⟨a, b, rfl, hP, hfirst⟩ :=
        ih ⟨b, hb.resolve_left fun heq => hhere ⟨b, heq, hP⟩, hP⟩
      refine ⟨c :: a, b, rfl, hP, fun b' hb' hP' => ?_⟩
      rw [List.suffix_cons_iff] at hb'
      exact hfirst b' (hb'.resolve_left fun heq => hhere ⟨b', heq, hP'⟩) hP'

namespace Value

/-- A character that gets no backslash between two quotes. -/
def IsPlain (quote c : Char) : Prop := c ≠ '\\' ∧ c ≠ '\n' ∧ c ≠ '\t' ∧ c ≠ quote

theorem isPlain_quote {quote c : Char} (hc : isQuote c = true) (hne : c ≠ quote) :
    IsPlain quote c := by
  exact ⟨ne_of_isQuote hc rfl, ne_of_isQuote hc rfl, ne_of_isQuote hc rfl, hne⟩

/-- Most of what directives are made of gets none: name characters, parentheses, the equals sign and
the parts of marks. -/
theorem isPlain_mark {quote c : Char} (hquote : isQuote quote = true)
    (hc : isNameChar c = true ∨ c ∈ ['(', ')', '=', '<', '!', '>']) : IsPlain quote c := by
  refine ⟨?_, ?_, ?_, ?_⟩
  · rintro rfl
    revert hc
    decide
  · rintro rfl
    revert hc
    decide
  · rintro rfl
    revert hc
    decide
  · rintro rfl
    rcases isQuote_iff.1 hquote with rfl | rfl <;> revert hc <;> decide

/-- Text of characters that are `IsPlain` is written as it is. -/
theorem encode_eq_self {quote : Char} {t : Text} (h : ∀ c ∈ t, IsPlain quote c) :
    encode quote t = t := by
  induction t with
  | nil => rfl
  | cons c t ih =>
    obtain ⟨hslash, hlf, htab, hquote⟩ := h c List.mem_cons_self
    rw [encode, if_neg hslash, if_neg hlf, if_neg htab, if_neg hquote,
      ih fun x hx => h x (List.mem_cons_of_mem _ hx)]

end Value

namespace Declaration

/-- A declaration with the same gap before its word and after its value, and no other. -/
def write (gap name : Text) (quote : Char) (value : Text) : Declaration :=
  ⟨gap ++ (declarationWord ++ '(' :: (name ++ [')', '='])), name, quote, Value.encode quote value,
    gap⟩

/-- What `write` makes from a gap, a name and a quote is well formed, for every value. -/
theorem wellFormed_write {gap name : Text} {quote : Char} (hgap : IsGap gap)
    (hname : isName name = true) (hquote : isQuote quote = true) (value : Text) :
    (write gap name quote value).WellFormed where
  head := ⟨gap, [], [], [], [], [], ⟨hgap, isGap_nil, isGap_nil, isGap_nil, isGap_nil, isGap_nil⟩,
    hname, rfl⟩
  quote := hquote
  raw := Value.isWritten_encode hquote value
  tail := hgap

/-- The other of the two quotes. -/
def otherQuote (c : Char) : Char := if c = '"' then '\'' else '"'

theorem isQuote_otherQuote (c : Char) : isQuote (otherQuote c) = true := by
  unfold otherQuote
  split <;> rfl

theorem otherQuote_ne (c : Char) : otherQuote c ≠ c := by
  unfold otherQuote
  split
  · next h => rw [h]; decide
  · next h => exact Ne.symm h

/-- What has to stand at the beginning of a value so that a `quote` opened before the declaration
`d` is closed there: nothing, if `d` has the same quote, and otherwise one quote of that kind. -/
theorem exists_lead {d : Declaration} (hd : d.WellFormed) {quote : Char}
    (hquote : isQuote quote = true) :
    ∃ lead middle, (∀ c ∈ lead, c = quote ∧ quote ≠ d.quote) ∧
      Value.isWritten quote middle = true ∧ d.head ++ d.quote :: lead = middle ++ [quote] := by
  have hhead : Value.isWritten quote d.head = true := by
    obtain ⟨-, hdouble, hsingle, hslash⟩ := not_mem_head hd.head
    refine Value.isWritten_of_forall fun c hc => ⟨fun h => hslash (h ▸ hc), fun h => ?_⟩
    rcases isQuote_iff.1 hquote with hq | hq
    · exact hdouble (hq ▸ h ▸ hc)
    · exact hsingle (hq ▸ h ▸ hc)
  by_cases heq : quote = d.quote
  · exact ⟨[], d.head, by simp, hhead, by rw [heq]⟩
  · refine ⟨[quote], d.head ++ [d.quote], ?_, Value.isWritten_append hhead ?_, by simp⟩
    · intro c hc
      exact ⟨List.mem_singleton.1 hc, heq⟩
    · have hslash : d.quote ≠ '\\' := ne_of_isQuote hd.quote rfl
      simp [Value.isWritten, hslash, Ne.symm heq]

/-- A short declaration between the quotes other than `quote` gets no backslash between those. -/
theorem isPlain_of_mem_write {name : Text} (hname : isName name = true) {quote : Char}
    (hquote : isQuote quote = true) :
    ∀ c ∈ (write [] name (otherQuote quote) []).body, Value.IsPlain quote c := by
  have hother := Value.isPlain_quote (isQuote_otherQuote quote) (otherQuote_ne quote)
  have hword := mem_of_isName isName_declarationWord
  intro c hc
  simp only [body, write, Value.encode, List.nil_append, List.append_assoc, List.cons_append,
    List.mem_append, List.mem_cons, List.not_mem_nil, or_false] at hc
  rcases hc with hc | rfl | hc | rfl | rfl | rfl | rfl
  · exact Value.isPlain_mark hquote (.inl (hword c hc))
  · exact Value.isPlain_mark hquote (.inr (by simp))
  · exact Value.isPlain_mark hquote (.inl (mem_of_isName hname c hc))
  · exact Value.isPlain_mark hquote (.inr (by simp))
  · exact Value.isPlain_mark hquote (.inr (by simp))
  · exact hother
  · exact hother

/-- **What captures a value**: a text `s` that is unfinished at the opener of a declaration `d`
becomes a declaration `e` with some value of that one, and a declaration `f` of any variable follows
it, whatever `x` comes behind. -/
theorem exists_capture {s : Text} (hs : unfinished (s ++ opener) = true) {d : Declaration}
    (hd : d.WellFormed) {name : Text} (hname : isName name = true) :
    ∃ (value : Text) (e f : Declaration), e.WellFormed ∧ f.WellFormed ∧ f.name = name ∧
      ∀ x, ∃ y, s ++ (opener ++ ((d.withValue value).body ++ (closer ++ x))) =
        e.body ++ (closer ++ (opener ++ (f.body ++ (closer ++ y)))) := by
  obtain ⟨other, head, quote, raw, hhead, hquote, hraw, heq⟩ := unfinished_iff.1 hs
  obtain ⟨lead, middle, hlead, hmiddle, hjoin⟩ := exists_lead hd hquote
  -- the declaration of the other variable; its quotes get no backslash between those of `d`
  let f := write [] name (otherQuote d.quote) []
  have hf : f.WellFormed := wellFormed_write isGap_nil hname (isQuote_otherQuote _) []
  -- what the text before becomes: its value goes on to where the new value closes it
  let e : Declaration := ⟨head, other, quote, raw ++ middle, []⟩
  have he : e.WellFormed := ⟨hhead, hquote, Value.isWritten_append hraw hmiddle, isGap_nil⟩
  -- the value ends `e`, and then holds `f` as a comment of its own
  let value := lead ++ (closer ++ (opener ++ (f.body ++ closer)))
  have hvalue : Value.encode d.quote value = value := by
    have hmark : ∀ c ∈ opener ++ closer,
        isNameChar c = true ∨ c ∈ ['(', ')', '=', '<', '!', '>'] := by
      intro c hc
      by_cases hdash : c = '-'
      · exact .inl (hdash ▸ rfl)
      · simp only [opener, closer, List.cons_append, List.nil_append, List.mem_cons] at hc ⊢
        grind
    refine Value.encode_eq_self fun c hc => ?_
    rcases List.mem_append.1 hc with hc | hc
    · obtain ⟨rfl, hne⟩ := hlead c hc
      exact Value.isPlain_quote hquote hne
    simp only [List.mem_append] at hc hmark
    rcases hc with hc | hc | hc | hc
    · exact Value.isPlain_mark hd.quote (hmark c (.inr hc))
    · exact Value.isPlain_mark hd.quote (hmark c (.inl hc))
    · exact isPlain_of_mem_write hname hd.quote c hc
    · exact Value.isPlain_mark hd.quote (hmark c (.inr hc))
  refine ⟨value, e, f, he, hf, rfl, fun x => ⟨d.quote :: (d.tail ++ (closer ++ x)), ?_⟩⟩
  have hjoin' (z : Text) : d.head ++ d.quote :: (lead ++ z) = middle ++ quote :: z := by
    have h := congrArg (· ++ z) hjoin
    simpa using h
  rw [← List.append_assoc, heq, withValue, hvalue]
  simp [body, e, value, hjoin']

end Declaration

namespace Piece

section

variable {name other : Text}

/-- An opener that captures a value, behind a text `a` in which nothing else is read, lets a
declaration of `other` come out of some value. -/
theorem exists_declares_capture {a s : Text} (hs : Declaration.unfinished (s ++ opener) = true)
    {d : Declaration} (hd : d.WellFormed) (hother : isName other = true)
    (hread : ∀ b, opener ++ b <:+ a → ∀ z,
      Declaration.read? (b ++ (opener ++ (s ++ (opener ++ z)))) = none)
    (hunclosed : ∀ b, opener ++ b <:+ a → ¬closer <:+: b) :
    ∃ value, ∀ x, (ofText (a ++ (opener ++ (s ++
      (opener ++ ((d.withValue value).body ++ (closer ++ x))))))).any (declares other) = true := by
  obtain ⟨value, e, f, he, hf, rfl, htext⟩ := Declaration.exists_capture hs hd hother
  refine ⟨value, fun x => ?_⟩
  obtain ⟨y, hy⟩ := htext x
  have hfirst : firstComment? (a ++ (opener ++ (s ++
      (opener ++ ((d.withValue value).body ++ (closer ++ x)))))) =
      some (a, e.body, opener ++ (f.body ++ (closer ++ y))) := by
    refine firstComment?_eq_some_iff.2 ⟨by rw [hy], ⟨fun b hb => ?_, hunclosed, fun _ => ?_⟩, ?_⟩
    · rw [← hy]
      exact hread b hb _
    · exact Declaration.opens_body he _
    · exact .inl ⟨e, he, rfl⟩
  -- and what follows that comment begins with the other declaration
  have hread : Declaration.read? (f.body ++ (closer ++ y)) = some (f, y) :=
    Declaration.read?_eq_some_iff.2 ⟨hf, by rw [List.append_assoc]⟩
  rw [ofText_some hfirst, ofText_of_read? hread]
  simp [declares_comment hf]

/-- A comment that is found before any opener that captures something stays what it is under `edit`:
the text `before` it, the comment, and the pieces `ps` behind it are found again. -/
theorem ofText_edit_cons {before body value : Text} {ps : List Piece} (hjoins : Joins before body)
    (hbefore : ∀ b, opener ++ b <:+ before →
      Declaration.read? (b ++ textOf ((comment body :: ps).map (edit name value))) = none)
    (hbody : (comment body).isDeclaration = false →
      Declaration.read? (body ++ closer ++ textOf (ps.map (edit name value))) = none) :
    ofText (textOf ((plain before :: comment body :: ps).map (edit name value))) =
      plain before :: edit name value (comment body) ::
        ofText (textOf (ps.map (edit name value))) := by
  obtain ⟨body', hedit, hjoins'⟩ : ∃ body', edit name value (comment body) = comment body' ∧
      Joins before body' := joins_edit hjoins value
  rw [List.map_cons, hedit, textOf_cons] at hbefore
  have hfirst :
      firstComment? (before ++ ((comment body').text ++ textOf (ps.map (edit name value)))) =
        some (before, body', textOf (ps.map (edit name value))) := by
    refine firstComment?_iff_joins.2 ⟨hjoins', hbefore, fun hno => ?_⟩
    rw [← hedit, isDeclaration_edit] at hno
    rw [edit_of_not_declares (declares_of_not_isDeclaration hno)] at hedit
    obtain rfl : body = body' := comment.inj hedit
    rw [← List.append_assoc]
    exact hbody hno
  rw [List.map_cons, List.map_cons, hedit, textOf_cons, textOf_cons]
  exact ofText_some hfirst

/-- Where an opener in the plain text `before` is exposed, the first of them captures some value. -/
theorem exists_declares_edit_plain {before : Text} {ps : List Piece} (hother : isName other = true)
    (hread : ∀ b, opener ++ b <:+ before →
      Declaration.read? (strayTo (declares name) b ps).1 = none)
    (hunclosed : ∀ b, opener ++ b <:+ before → ¬closer <:+: b)
    (hexposed : ∃ b, opener ++ b <:+ before ∧ IsExposed (strayTo (declares name) b ps)) :
    ∃ value,
      (ofText (before ++ textOf (ps.map (edit name value)))).any (declares other) = true := by
  obtain ⟨a, b, rfl, ⟨hto, hu⟩, hfirst⟩ := Text.exists_first_mark hexposed
  obtain ⟨d, r, hd, htext⟩ := exists_of_textTo hto
  -- an opener in `a` is an opener in the plain text, and stands before the first one exposed
  have hsuffix {b' : Text} (hb : opener ++ b' <:+ a) :
      opener ++ (b' ++ (opener ++ b)) <:+ a ++ (opener ++ b) := by
    obtain ⟨c, rfl⟩ := hb
    exact ⟨c, by simp⟩
  have hread' : ∀ b', opener ++ b' <:+ a → ∀ z,
      Declaration.read? (b' ++ (opener ++ ((strayTo (declares name) b ps).1 ++ (opener ++ z)))) =
        none := by
    intro b' hb z
    have hnot : ¬IsExposed (strayTo (declares name) (b' ++ (opener ++ b)) ps) := by
      intro h
      have hlen := hfirst _ (hsuffix hb) h
      simp [opener] at hlen
      omega
    have h := Declaration.read?_opener_eq_none (hread _ (hsuffix hb)) (fun hu' => hnot ⟨hto, hu'⟩) z
    simpa [strayTo] using h
  have hunclosed' : ∀ b', opener ++ b' <:+ a → ¬closer <:+: b' := fun b' hb hin =>
    hunclosed _ (hsuffix hb) (hin.trans (List.prefix_append _ _).isInfix)
  obtain ⟨value, hvalue⟩ := exists_declares_capture hu hd hother hread' hunclosed'
  refine ⟨value, ?_⟩
  rw [htext value]
  simpa [strayTo] using hvalue (textOf (r.map (edit name value)))

/-- Where the opener of a comment is exposed, while no opener in the text `before` it is, it
captures some value. -/
theorem exists_declares_edit_comment {before body : Text} {ps : List Piece}
    (hother : isName other = true) (hjoins : Joins before body)
    (hread : ∀ b, opener ++ b <:+ before →
      Declaration.read? (strayTo (declares name) b (comment body :: ps)).1 = none)
    (hbefore : ∀ b, opener ++ b <:+ before →
      ¬IsExposed (strayTo (declares name) b (comment body :: ps)))
    (hdecl : (comment body).isDeclaration = false)
    (hexposed : IsExposed (strayTo (declares name) (body ++ closer) ps)) :
    ∃ value, (ofText (before ++ textOf ((comment body :: ps).map (edit name value)))).any
      (declares other) = true := by
  obtain ⟨hto, hu⟩ := hexposed
  obtain ⟨d, r, hd, htext⟩ := exists_of_textTo hto
  have hsame : (comment body).declares name = false := declares_of_not_isDeclaration hdecl
  -- the openers before the comment reach over it, for it does not declare the variable
  have hstray (b : Text) : strayTo (declares name) b (comment body :: ps) =
      strayTo (declares name) (b ++ (comment body).text) ps := by
    rw [strayTo, textTo, hsame, strayTo, List.append_assoc]
    rfl
  have hread' : ∀ b, opener ++ b <:+ before → ∀ z,
      Declaration.read? (b ++ (opener ++
        ((strayTo (declares name) (body ++ closer) ps).1 ++ (opener ++ z)))) = none := by
    intro b hb z
    have hnone := hread b hb
    have hnot := hbefore b hb
    rw [hstray] at hnone hnot
    have h := Declaration.read?_opener_eq_none hnone (fun hu' => hnot ⟨hto, hu'⟩) z
    simpa [strayTo, text] using h
  obtain ⟨value, hvalue⟩ := exists_declares_capture hu hd hother hread' hjoins.unclosed
  refine ⟨value, ?_⟩
  rw [List.map_cons, edit_of_not_declares hsame, textOf_cons, htext value]
  simpa [strayTo, text] using hvalue (textOf (r.map (edit name value)))

/-- Of the openers that a comment holds without its own dashes, none is ever exposed. So only the
comment's own opener counts, with the text `body ++ closer` behind it. -/
theorem eq_of_isExposed {body b : Text} {ps : List Piece} (hbody : ¬opener <:+: body)
    (hb : opener ++ b <:+ (comment body).text)
    (hexposed : IsExposed (strayTo (declares name) b ps)) : b = body ++ closer := by
  rw [text, List.append_assoc] at hb
  rcases opener_suffix_cons hb with rfl | hb
  · rfl
  · have hunfinished := hexposed.2
    rcases not_opens_iff.1 (not_opens_of_suffix hbody hb) with ⟨r, rfl⟩ | ⟨r, rfl⟩
    · cases hunfinished
    · cases hunfinished

/-- **An exposed opener captures some value**, and a declaration of `other` comes out of it. The
induction is on the pieces up to the first opener that is exposed; before it everything is read as
before. -/
theorem exists_declares_edit (hother : isName other = true) :
    ∀ {ps : List Piece}, Shaped ps →
      (∀ s ∈ straysTo (declares name) ps, Declaration.read? s.1 = none) → Exposed name ps →
      ∃ value, (ofText (textOf (ps.map (edit name value)))).any (declares other) = true
  | [plain t], _, _, hexposed => by
    obtain ⟨s, hs, htrue, -⟩ := hexposed
    rcases mem_straysTo_cons.1 hs with ⟨-, b, -, rfl⟩ | hs
    · cases htrue
    · cases hs
  | plain before :: comment body :: ps, ⟨hjoins, hps⟩, hunread, hexposed => by
    have hrest := exists_declares_edit hother hps fun s hs =>
      hunread s (mem_straysTo_cons.2 (.inr (mem_straysTo_cons.2 (.inr hs))))
    have hplain : ∀ b, opener ++ b <:+ before →
        Declaration.read? (strayTo (declares name) b (comment body :: ps)).1 = none := fun b hb =>
      hunread _ (mem_straysTo_cons.2 (.inl ⟨rfl, b, hb, rfl⟩))
    by_cases hbefore : ∃ b, opener ++ b <:+ before ∧
        IsExposed (strayTo (declares name) b (comment body :: ps))
    · exact exists_declares_edit_plain hother hplain hjoins.unclosed hbefore
    have hbefore' : ∀ b, opener ++ b <:+ before →
        ¬IsExposed (strayTo (declares name) b (comment body :: ps)) := fun b hb h =>
      hbefore ⟨b, hb, h⟩
    by_cases hcomment : (comment body).isDeclaration = false ∧
        IsExposed (strayTo (declares name) (body ++ closer) ps)
    · exact exists_declares_edit_comment hother hjoins hplain hbefore' hcomment.1 hcomment.2
    -- what is exposed stands behind the comment, which is read as before
    have hlater : Exposed name ps := by
      obtain ⟨s, hs, hs'⟩ := hexposed
      rcases mem_straysTo_cons.1 hs with ⟨-, b, hb, rfl⟩ | hs
      · exact absurd hs' (hbefore' b hb)
      rcases mem_straysTo_cons.1 hs with ⟨hdecl, b, hb, rfl⟩ | hs
      · have hbody := (hjoins.clean.resolve_left (by simp [hdecl])).1
        rw [eq_of_isExposed hbody hb hs'] at hs'
        exact absurd ⟨hdecl, hs'⟩ hcomment
      · exact ⟨s, hs, hs'⟩
    obtain ⟨value, hvalue⟩ := hrest hlater
    refine ⟨value, ?_⟩
    rw [ofText_edit_cons hjoins (fun b hb => read?_edit (hplain b hb) (hbefore' b hb) value)
      fun hdecl => ?_]
    · simp [hvalue]
    · have hread : Declaration.read? (strayTo (declares name) (body ++ closer) ps).1 = none :=
        hunread _ (mem_straysTo_cons.2 (.inr (mem_straysTo_cons.2 (.inl
          ⟨hdecl, body ++ closer, ⟨[], by simp [text]⟩, rfl⟩))))
      exact read?_edit hread (fun h => hcomment ⟨hdecl, h⟩) value

end

end Piece

end Transclude
