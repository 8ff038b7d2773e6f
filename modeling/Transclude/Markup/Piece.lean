import Transclude.Markup.Declaration

/-!
# Pieces of a document

A document is a row of pieces: plain text and comments. `Piece.ofText` finds them, as
`comment_spans` does, which gives their places instead. `Piece.strip` leaves the plain text
(`strip_comments`).

Where an opener stands alone, its comment ends at the first closer after it. Where another opener
stands before that closer, the comment begins at the later opener, and the earlier one is plain
text; so the body of such a comment holds neither mark. An opener that begins a declaration
(`Declaration.read?`) begins a comment at once, and its quoted value may hold both marks. An opener
without a closer ends the search: from there on all is plain text.

What stands ahead in the body of a comment is found by `Ahead.find?`, the nearer of closer and
opener. Two marks of a comment can overlap, as in `<!-->`: an opener whose dashes are part of a
closer opens nothing (`Piece.Opens`), and most of the small lemmas are about these.

Main statements:
- `Piece.textOf_ofText`: the pieces of a document make up the document.
- `Piece.Ahead.found_find?`: what the search for the nearer mark says about the text.
-/

namespace Transclude

/-- A stretch of plain text, or a comment with its body. -/
inductive Piece where
  | plain (text : Text)
  | comment (body : Text)
  deriving DecidableEq, Repr

namespace Piece

/-- The piece as it stands in the document, a comment with its marks. -/
def text : Piece → Text
  | plain t => t
  | comment body => opener ++ body ++ closer

/-- What stands ahead in the body of a comment: its closer, with the body up to there, or another
opener before it, with the text up to that one. -/
inductive Ahead where
  | closed (body rest : Text)
  | opened (skipped rest : Text)
  deriving DecidableEq, Repr

namespace Ahead

/-- With one more character before it. -/
def cons (c : Char) : Ahead → Ahead
  | closed body rest => closed (c :: body) rest
  | opened skipped rest => opened (c :: skipped) rest

/-- The text that is ahead. -/
def text : Ahead → Text
  | closed body rest => body ++ closer ++ rest
  | opened skipped rest => skipped ++ opener ++ rest

/-- What follows an opener at the beginning of a text, within the body of a comment. The dashes of
`<!-->` and `<!--->` close the comment that they stand in, so neither is an opener there. -/
def innerOpener? (t : Text) : Option Text :=
  match Text.after? opener t with
  | some ('>' :: _) => none
  | some ('-' :: '>' :: _) => none
  | rest => rest

/-- The nearer of closer and opener; none if there is neither. -/
def find? : Text → Option Ahead
  | [] => none
  | c :: t =>
    match Text.after? closer (c :: t) with
    | some rest => some (closed [] rest)
    | none =>
      match innerOpener? (c :: t) with
      | some rest => some (opened [] rest)
      | none => (find? t).map (cons c)

theorem text_cons (c : Char) (a : Ahead) : (a.cons c).text = c :: a.text := by
  cases a <;> simp [cons, text]

theorem eq_of_innerOpener? {t rest : Text} (h : innerOpener? t = some rest) :
    t = opener ++ rest := by
  unfold innerOpener? at h
  split at h
  · simp at h
  · simp at h
  · exact Text.after?_eq_some_iff.1 h

/-- Nothing is lost when the next mark is found: what was skipped, the mark and the rest are all of
`t`. -/
theorem text_of_find? {t : Text} {a : Ahead} (h : find? t = some a) : a.text = t := by
  induction t generalizing a with
  | nil => simp [find?] at h
  | cons c t ih =>
    unfold find? at h
    split at h
    · next rest hr =>
      simp only [Option.some.injEq] at h
      subst h
      simp [text, Text.after?_eq_some_iff.1 hr]
    · split at h
      · next rest hr =>
        simp only [Option.some.injEq] at h
        subst h
        simp [text, eq_of_innerOpener? hr]
      · simp only [Option.map_eq_some_iff] at h
        obtain ⟨b, hb, rfl⟩ := h
        rw [text_cons, ih hb]

end Ahead

/-- From just after an opener: the text before the comment that this opener leads to, where the
comment begins at a later opener; the body of the comment; and the text after it. -/
def afterOpener? (t : Text) : Option (Text × Text × Text) :=
  match Declaration.read? t with
  | some (d, rest) => some ([], d.body, rest)
  | none =>
    match _h : Ahead.find? t with
    | none => none
    | some (.closed body rest) => some ([], body, rest)
    | some (.opened skipped rest) =>
      (afterOpener? rest).map fun (before, body, r) => (opener ++ skipped ++ before, body, r)
termination_by t.length
decreasing_by
  have := congrArg List.length (Ahead.text_of_find? _h)
  simp [Ahead.text, opener] at this
  omega

/-- An opener before a declaration `d` begins a comment with the body of `d`, even if there are
openers or closers in its value. -/
theorem afterOpener?_declaration {t rest : Text} {d : Declaration}
    (h : Declaration.read? t = some (d, rest)) : afterOpener? t = some ([], d.body, rest) := by
  rw [afterOpener?]
  simp [h]

/-- An opener that a closer is found for, before another opener, begins a comment with the text
between them as its `body`. -/
theorem afterOpener?_closed {t body rest : Text} (hd : Declaration.read? t = none)
    (h : Ahead.find? t = some (.closed body rest)) : afterOpener? t = some ([], body, rest) := by
  rw [afterOpener?]
  split <;> simp_all
  split <;> simp_all

/-- An opener that another one is found behind, before a closer, begins no comment. The search goes
on in `rest`, behind the inner opener, and what was `skipped` belongs to the text before the
comment. -/
theorem afterOpener?_opened {t skipped rest : Text} (hd : Declaration.read? t = none)
    (h : Ahead.find? t = some (.opened skipped rest)) :
    afterOpener? t = (afterOpener? rest).map fun (before, body, r) =>
      (opener ++ skipped ++ before, body, r) := by
  rw [afterOpener?]
  split <;> simp_all
  split <;> simp_all

/-- Nothing is lost behind an opener: the text before the comment, the comment with its marks, and
`rest`. -/
theorem eq_of_afterOpener? {t before body rest : Text}
    (h : afterOpener? t = some (before, body, rest)) :
    opener ++ t = before ++ (opener ++ body ++ closer) ++ rest := by
  fun_induction afterOpener? t generalizing before with
  | case1 t d r hd =>
    simp only [Option.some.injEq, Prod.mk.injEq] at h
    obtain ⟨rfl, rfl, rfl⟩ := h
    simp [Declaration.eq_of_read? hd]
  | case2 => simp at h
  | case3 t _ b r ha =>
    simp only [Option.some.injEq, Prod.mk.injEq] at h
    obtain ⟨rfl, rfl, rfl⟩ := h
    simp [← Ahead.text_of_find? ha, Ahead.text]
  | case4 t _ skipped r ha ih =>
    simp only [Option.map_eq_some_iff, Prod.mk.injEq, Prod.exists] at h
    obtain ⟨b, _, _, hb, rfl, rfl, rfl⟩ := h
    have := ih hb
    simp only [List.append_assoc] at this
    simp [← Ahead.text_of_find? ha, Ahead.text, this]

/-- The first comment of a text: the text before it, its body, and the text after it. -/
def firstComment? (t : Text) : Option (Text × Text × Text) := do
  let (before, t) ← Text.cutAt? opener t
  let (skipped, body, rest) ← afterOpener? t
  return (before ++ skipped, body, rest)

/-- Nothing is lost by `firstComment?`: the text `before` the comment, the comment with its marks,
and `rest` make up the document. -/
theorem eq_of_firstComment? {t before body rest : Text}
    (h : firstComment? t = some (before, body, rest)) :
    t = before ++ (comment body).text ++ rest := by
  simp only [firstComment?, Option.bind_eq_bind, Option.bind_eq_some_iff, Option.pure_def,
    Option.some.injEq, Prod.mk.injEq, Prod.exists] at h
  obtain ⟨b, s, hs, skipped, _, _, hc, rfl, rfl, rfl⟩ := h
  have := eq_of_afterOpener? hc
  simp only [List.append_assoc] at this
  simp [Text.eq_of_cutAt? hs, text, this]

/-- The pieces of a document, plain text and comments by turns, the first and the last of them
plain and possibly empty. -/
def ofText (t : Text) : List Piece :=
  match _h : firstComment? t with
  | none => [plain t]
  | some (before, body, rest) => plain before :: comment body :: ofText rest
termination_by t.length
decreasing_by
  have := congrArg List.length (eq_of_firstComment? _h)
  simp [text, opener] at this
  omega

theorem ofText_none {t : Text} (h : firstComment? t = none) : ofText t = [plain t] := by
  rw [ofText]
  split <;> simp_all

/-- A document with a comment is the plain text `before` the first one, that comment, and the pieces
of the `rest`. -/
theorem ofText_some {t before body rest : Text} (h : firstComment? t = some (before, body, rest)) :
    ofText t = plain before :: comment body :: ofText rest := by
  rw [ofText]
  split <;> simp_all

/-- The text of a row of pieces. -/
def textOf (ps : List Piece) : Text := ps.flatMap text

@[simp] theorem textOf_nil : textOf [] = [] := rfl

@[simp] theorem textOf_cons (p : Piece) (ps : List Piece) :
    textOf (p :: ps) = p.text ++ textOf ps := rfl

/-- **Nothing is lost** by `ofText`: the texts of the pieces of a document, one after the other, are
the document. -/
theorem textOf_ofText (t : Text) : textOf (ofText t) = t := by
  fun_induction ofText t with
  | case1 => simp [text]
  | case2 t before body rest h ih =>
    rw [textOf_cons, textOf_cons, ih]
    simpa [text] using (eq_of_firstComment? h).symm

/-- The text without its comments. -/
def strip (t : Text) : Text :=
  (ofText t).flatMap fun
    | plain s => s
    | comment _ => []

/-! ## Occurrences of the two marks

Neither mark can overlap itself, and an opener begins with the one character that occurs nowhere
else in the marks. So an occurrence that reaches over the beginning of an opener does not exist, and
one that reaches over its end is a closer that begins with the dashes of the opener. -/

theorem lt_not_mem_closer : '<' ∉ closer := by decide

/-- A closer does not reach over the beginning `<` of an opener, so it ends within `s`. -/
theorem closer_prefix_of_append {s z : Text} (h : closer <+: s ++ '<' :: z) : closer <+: s := by
  obtain ⟨r, hr⟩ := h
  obtain ⟨s', rfl, -⟩ := Declaration.exists_append_of_not_mem hr lt_not_mem_closer
  exact ⟨s', rfl⟩

/-- An opener that begins at `c` does not reach over the beginning of another. -/
theorem opener_prefix_of_append {c : Char} {s z : Text} (h : opener <+: c :: s ++ '<' :: z) :
    opener <+: c :: s := by
  obtain ⟨r, hr⟩ := h
  obtain ⟨rfl, htail⟩ := List.cons.inj hr
  have hmem : '<' ∉ ['!', '-', '-'] := by decide
  obtain ⟨s', rfl, -⟩ := Declaration.exists_append_of_not_mem htail hmem
  exact ⟨s', rfl⟩

/-- The end of a text that an opener is the end of: where `s` has no openers, and `y` does not go on
with one that begins in `s`, the opener stands in `y`. -/
theorem opener_suffix_of_append {b s y : Text} (hs : ¬opener <:+: s)
    (hy : y = [] ∨ ∃ y', y = '<' :: y') (h : opener ++ b <:+ s ++ y) : opener ++ b <:+ y := by
  induction s with
  | nil => exact h
  | cons c s ih =>
    have hs' : ¬opener <:+: s := fun hin => hs (List.infix_cons hin)
    rw [List.cons_append, List.suffix_cons_iff] at h
    rcases h with h | h
    · have hpre : opener <+: c :: s := by
        rcases hy with rfl | ⟨y', rfl⟩
        · exact ⟨b, by simpa using h⟩
        · exact opener_prefix_of_append ⟨b, by simpa using h⟩
      exact absurd hpre.isInfix hs
    · exact ih hs' h

/-- An opener in a text that begins with one is this one, or it stands in the text `b` behind it. -/
theorem opener_suffix_cons {b b' : Text} (h : opener ++ b' <:+ opener ++ b) :
    b' = b ∨ opener ++ b' <:+ b := by
  simp only [opener, List.cons_append, List.nil_append, List.suffix_cons_iff, List.cons.injEq] at h
  rcases h with h | h | h | h | h
  · exact .inl h.2.2.2.2
  · exact absurd h.1 (by decide)
  · exact absurd h.1 (by decide)
  · exact absurd h.1 (by decide)
  · exact .inr h

/-- A closer in a text with an opener stands in front of it, or behind it, where the dashes of the
opener may be its own. -/
theorem closer_infix_append {s b : Text} (h : closer <:+: s ++ (opener ++ b)) :
    closer <:+: s ∨ closer <:+: '-' :: '-' :: b := by
  induction s with
  | nil =>
    simp only [opener, List.cons_append, List.nil_append] at h
    rcases List.infix_cons_iff.1 h with h | h
    · simp [closer] at h
    · rcases List.infix_cons_iff.1 h with h | h
      · simp [closer] at h
      · exact .inr h
  | cons c s ih =>
    rcases List.infix_cons_iff.1 h with h | h
    · exact .inl (closer_prefix_of_append (s := c :: s) h).isInfix
    · exact (ih h).imp_left List.infix_cons

/-- Whether the dashes of an opener close no comment with what follows it. -/
def Opens (u : Text) : Prop := Ahead.innerOpener? (opener ++ u) = some u

/-- An opener opens unless its dashes and the characters `u` behind it make up a closer: `<!-->` or
`<!--->`. -/
theorem opens_iff {u : Text} : Opens u ↔ ¬['>'] <+: u ∧ ¬['-', '>'] <+: u := by
  rw [Opens, Ahead.innerOpener?, Text.after?_append]
  split
  · next r hr =>
    obtain rfl : u = '>' :: r := Option.some.inj hr
    simp
  · next r hr =>
    obtain rfl : u = '-' :: '>' :: r := Option.some.inj hr
    simp
  · next h₁ h₂ =>
    refine iff_of_true rfl ⟨?_, ?_⟩
    · rintro ⟨r, rfl⟩
      exact h₁ r rfl
    · rintro ⟨r, rfl⟩
      exact h₂ r rfl

/-- An opener that does not open (`Opens`) shares one or both of its dashes with a closer. -/
theorem not_opens_iff {u : Text} :
    ¬Opens u ↔ (∃ r, u = '>' :: r) ∨ ∃ r, u = '-' :: '>' :: r := by
  have hprefix (a : Text) : a <+: u ↔ ∃ r, u = a ++ r :=
    ⟨fun ⟨r, h⟩ => ⟨r, h.symm⟩, fun ⟨r, h⟩ => ⟨r, h.symm⟩⟩
  rw [opens_iff, Classical.not_and_iff_not_or_not, Classical.not_not, Classical.not_not,
    hprefix, hprefix]
  rfl

/-- The first two characters of `u` decide, so what is behind them, `x`, does not matter. -/
theorem opens_append {u : Text} (hu : 2 ≤ u.length) (x : Text) : Opens (u ++ x) ↔ Opens u := by
  match u, hu with
  | c :: d :: u, _ => simp [opens_iff]

theorem opens_lt (z : Text) : Opens ('<' :: z) := by
  simp [opens_iff]

/-- An opener directly before a closer opens, and its comment is empty. -/
theorem opens_closer (z : Text) : Opens (closer ++ z) := by
  simp [opens_iff, closer]

/-- An opener that no closer begins at the dashes of opens, whatever `x` follows that itself could
stand behind one. -/
theorem opens_of_not_closer {b x : Text} (hb : ¬closer <:+: '-' :: '-' :: b) (hx : Opens x) :
    Opens (b ++ x) := by
  rw [opens_iff] at hx ⊢
  constructor
  · intro h
    cases b with
    | nil => exact hx.1 h
    | cons c b =>
      obtain rfl : '>' = c := by simpa using h
      exact hb ⟨[], b, rfl⟩
  · intro h
    cases b with
    | nil => exact hx.2 h
    | cons c b =>
      obtain ⟨rfl, hb'⟩ : '-' = c ∧ ['>'] <+: b ++ x := by simpa using h
      cases b with
      | nil => exact hx.1 hb'
      | cons d b =>
        obtain rfl : '>' = d := by simpa using hb'
        exact hb ⟨['-'], b, rfl⟩

/-- An opener that opens adds no closer to the text `b` behind it by its dashes. -/
theorem not_closer_of_opens {b x : Text} (hb : ¬closer <:+: b) (hx : Opens (b ++ x)) :
    ¬closer <:+: '-' :: '-' :: b := by
  rw [opens_iff] at hx
  intro hin
  rcases List.infix_cons_iff.1 hin with ⟨r, hr⟩ | hin
  · obtain ⟨r, rfl⟩ : ∃ r, b = '>' :: r := by
      simp only [closer, List.cons_append, List.cons.injEq, true_and, List.nil_append] at hr
      exact ⟨r, hr.symm⟩
    exact hx.1 ⟨r ++ x, rfl⟩
  · rcases List.infix_cons_iff.1 hin with ⟨r, hr⟩ | hin
    · obtain ⟨r, rfl⟩ : ∃ r, b = '-' :: '>' :: r := by
        simp only [closer, List.cons_append, List.cons.injEq, true_and, List.nil_append] at hr
        exact ⟨r, hr.symm⟩
      exact hx.2 ⟨r ++ x, rfl⟩
    · exact hb hin

/-! ## The nearer of closer and opener -/

namespace Ahead

theorem find?_cons {c : Char} {t : Text} (hc : ¬closer <+: c :: t)
    (ho : innerOpener? (c :: t) = none) : find? (c :: t) = (find? t).map (cons c) := by
  rw [find?, Text.after?_eq_none_iff.2 hc, ho]

/-- The search `innerOpener?` fails where there is no opener, or where it opens nothing because its
dashes are part of a closer. -/
theorem innerOpener?_eq_none_iff {t : Text} :
    innerOpener? t = none ↔ ∀ u, t = opener ++ u → ¬Opens u := by
  constructor
  · rintro h u rfl hu
    rw [hu] at h
    cases h
  · intro h
    cases hr : innerOpener? t with
    | none => rfl
    | some u =>
      have ht := eq_of_innerOpener? hr
      subst ht
      exact absurd hr (h u rfl)

theorem find?_opener {u : Text} (hu : Opens u) : find? (opener ++ u) = some (opened [] u) := by
  have hc : Text.after? closer ('<' :: '!' :: '-' :: '-' :: u) = none := rfl
  have ho : innerOpener? ('<' :: '!' :: '-' :: '-' :: u) = some u := hu
  show find? ('<' :: '!' :: '-' :: '-' :: u) = _
  rw [find?, hc, ho]

theorem find?_closer (u : Text) : find? (closer ++ u) = some (closed [] u) := by
  have hc : Text.after? closer ('-' :: '-' :: '>' :: u) = some u := Text.after?_append closer u
  show find? ('-' :: '-' :: '>' :: u) = _
  rw [find?, hc]

/-- An opener that opens is found behind a text `s` with neither mark in it. -/
theorem find?_opened {s u : Text} (hc : ¬closer <:+: s) (ho : ¬opener <:+: s) (hu : Opens u) :
    find? (s ++ (opener ++ u)) = some (opened s u) := by
  induction s with
  | nil => exact find?_opener hu
  | cons c s ih =>
    have hc' : ¬closer <+: c :: (s ++ (opener ++ u)) := fun h =>
      hc (closer_prefix_of_append (s := c :: s) h).isInfix
    have ho' : innerOpener? (c :: (s ++ (opener ++ u))) = none := by
      rw [innerOpener?_eq_none_iff]
      intro v hv _
      exact ho (opener_prefix_of_append (s := s) ⟨v, hv.symm⟩).isInfix
    rw [List.cons_append, find?_cons hc' ho', ih (fun h => hc (List.infix_cons h))
      fun h => ho (List.infix_cons h)]
    rfl

/-- A closer does not end where another begins, so one that begins at `c` ends within `s`. -/
theorem closer_prefix_of_closer {c : Char} {s u : Text} (h : closer <+: c :: s ++ (closer ++ u)) :
    closer <+: c :: s := by
  match s with
  | [] => simp [closer] at h
  | [d] => simp [closer] at h
  | d :: e :: s =>
    obtain ⟨r, hr⟩ := h
    simp only [closer, List.cons_append, List.cons.injEq, List.nil_append] at hr
    obtain ⟨rfl, rfl, rfl, -⟩ := hr
    exact ⟨s, rfl⟩

/-- An opener that reaches into a closer opens nothing: if this one opens, it ends before the closer
begins. -/
theorem opener_prefix_of_closer {c : Char} {s u v : Text}
    (h : c :: s ++ (closer ++ u) = opener ++ v) (hv : Opens v) : opener <+: c :: s := by
  match s with
  | [] => simp [closer, opener] at h
  | [d] =>
    simp only [closer, opener, List.cons_append, List.nil_append, List.cons.injEq, true_and] at h
    rw [opens_iff] at hv
    exact absurd ⟨u, h.2.2⟩ hv.1
  | [d, e] =>
    simp only [closer, opener, List.cons_append, List.nil_append, List.cons.injEq, true_and] at h
    rw [opens_iff] at hv
    exact absurd ⟨u, h.2.2.2⟩ hv.2
  | d :: e :: f :: s =>
    simp only [opener, List.cons_append, List.cons.injEq, List.nil_append] at h
    obtain ⟨rfl, rfl, rfl, rfl, -⟩ := h
    exact ⟨s, rfl⟩

/-- A closer is found behind a text `s` with neither mark in it. -/
theorem find?_closed {s u : Text} (hc : ¬closer <:+: s) (ho : ¬opener <:+: s) :
    find? (s ++ (closer ++ u)) = some (closed s u) := by
  induction s with
  | nil => exact find?_closer u
  | cons c s ih =>
    have hc' : ¬closer <+: c :: (s ++ (closer ++ u)) := fun h =>
      hc (closer_prefix_of_closer h).isInfix
    have ho' : innerOpener? (c :: (s ++ (closer ++ u))) = none := by
      rw [innerOpener?_eq_none_iff]
      intro v hv hopens
      exact ho (opener_prefix_of_closer hv hopens).isInfix
    rw [List.cons_append, find?_cons hc' ho', ih (fun h => hc (List.infix_cons h))
      fun h => ho (List.infix_cons h)]
    rfl

/-- What an answer of the search says about the text that it was given. -/
def Found (t : Text) : Option Ahead → Prop
  | some (opened s u) => t = s ++ (opener ++ u) ∧ ¬closer <:+: s ∧ ¬opener <:+: s ∧ Opens u
  | some (closed s u) => t = s ++ (closer ++ u) ∧ ¬closer <:+: s ∧ ¬opener <:+: s
  | none => ¬closer <:+: t ∧ ¬opener <:+: t

/-- One more character `c` in front, with neither mark at it, does not change what `Found` says
about an answer. -/
theorem found_cons {c : Char} {t : Text} {a : Option Ahead} (hc : ¬closer <+: c :: t)
    (ho : innerOpener? (c :: t) = none) (h : Found t a) : Found (c :: t) (a.map (cons c)) := by
  rw [innerOpener?_eq_none_iff] at ho
  -- an opener at `c` whose text goes on with `x` would have a closer at its dashes
  have key {s v x : Text} (hs : ¬closer <:+: s) (hx : Opens x) (ht : t = s ++ x)
      (hv : opener ++ v = c :: s) : False := by
    obtain ⟨rfl, rfl⟩ := List.cons.inj hv
    refine ho (v ++ x) (by rw [ht]; rfl) (opens_of_not_closer (fun hin => hs ?_) hx)
    exact List.infix_cons hin
  have hclose {s x : Text} (hs : ¬closer <:+: s) (ht : t = s ++ x) : ¬closer <:+: c :: s := by
    intro hin
    rcases List.infix_cons_iff.1 hin with hpre | hin
    · exact hc (ht ▸ hpre.trans (List.prefix_append (c :: s) x))
    · exact hs hin
  have hopen {s x : Text} (hs : ¬closer <:+: s) (hs' : ¬opener <:+: s) (hx : Opens x)
      (ht : t = s ++ x) : ¬opener <:+: c :: s := by
    intro hin
    rcases List.infix_cons_iff.1 hin with ⟨v, hv⟩ | hin
    · exact key hs hx ht hv
    · exact hs' hin
  match a with
  | some (opened s u) =>
    obtain ⟨ht, hs, hs', hu⟩ := h
    exact ⟨by rw [ht]; rfl, hclose hs ht, hopen hs hs' (opens_lt _) ht, hu⟩
  | some (closed s u) =>
    obtain ⟨ht, hs, hs'⟩ := h
    exact ⟨by rw [ht]; rfl, hclose hs ht, hopen hs hs' (opens_closer u) ht⟩
  | none =>
    obtain ⟨hs, hs'⟩ := h
    have ht : t = t ++ [] := (List.append_nil t).symm
    exact ⟨hclose hs ht, hopen hs hs' (by simp [opens_iff]) ht⟩

/-- **What `find?` answers**: the first of the two marks with the text before it, which has neither
mark in it, or that there is none. The recursion of `find?` is opened here and nowhere else. -/
theorem found_find? (t : Text) : Found t (find? t) := by
  induction t with
  | nil => simp [find?, Found, closer, opener]
  | cons c t ih =>
    rw [find?]
    split
    · next u hu =>
      have ht := Text.after?_eq_some_iff.1 hu
      simp [Found, ht, closer, opener]
    · next hc =>
      rw [Text.after?_eq_none_iff] at hc
      split
      · next u hu =>
        have ht := eq_of_innerOpener? hu
        refine ⟨ht, by simp [closer], by simp [opener], ?_⟩
        rw [Opens, ← ht, hu]
      · next ho => exact found_cons hc ho ih

end Ahead

end Piece

namespace Declaration

/-- A head begins with a gap character or with the `v` of its word. -/
theorem exists_head_cons {name head : Text} (h : IsHead name head) :
    ∃ c t, head = c :: t ∧ (isGap c = true ∨ c = 'v') := by
  obtain ⟨g₀, g₁, g₂, g₃, g₄, g₅, ⟨h₀, -⟩, -, rfl⟩ := h
  cases g₀ with
  | nil => exact ⟨_, _, rfl, .inr rfl⟩
  | cons c g₀ => exact ⟨_, _, rfl, .inl (h₀ c List.mem_cons_self)⟩

/-- An opener always opens before the body of a declaration `d`, since a head does not begin with a
character of a closer. -/
theorem opens_body {d : Declaration} (h : d.WellFormed) (x : Text) : Piece.Opens (d.body ++ x) := by
  obtain ⟨c, t, hhead, hc⟩ := exists_head_cons h.head
  have hne : c ≠ '>' ∧ c ≠ '-' := by
    rcases hc with hc | rfl
    · constructor <;> rintro rfl <;> revert hc <;> decide
    · decide
  rw [Piece.opens_iff, body, hhead]
  simp [Ne.symm hne.1, Ne.symm hne.2]

end Declaration

end Transclude
