import Transclude.Text.Basic

/-!
# Names, gaps and quoted values

The parts that directives are made of.

- References, variables and included files are named by runs of letters, digits and the four
  characters `_`, `.`, `/` and `-`, all of them ASCII (`isName`, the program's `is_valid_name`).
- Between the parts of a directive may stand gaps: spaces, tabs and line ends (`IsGap`). `gapOf` and
  `afterGap` split a text behind the gap at its beginning.
- A value stands in a document between two quotes. `Value.encode` (`escape_value`) writes it so that
  it can stand there: backslashes, line feeds, tabs and the quote itself get a backslash.
  `Value.decode` (`unescape_value`) reads a written value; a backslash before any other character
  stands for itself, so reading never fails.

Main statements:
- `Value.decode_encode`: what is written between single or double quotes reads back.
- `Value.upToQuote?_eq_some_iff`: the reader of quoted values in running text stops at the first
  quote that no backslash takes with it. The forms that it reads are those that `Value.isWritten`
  accepts.
-/

namespace Transclude

/-- A character that a name may hold. -/
def isNameChar (c : Char) : Bool :=
  c.isAlphanum || c == '_' || c == '.' || c == '/' || c == '-'

/-- A character that may stand between the parts of a directive. -/
def isGap (c : Char) : Bool :=
  c == ' ' || c == '\t' || c == '\r' || c == '\n'

/-- Whether a text is a name: it is not empty and holds name characters only. -/
def isName (t : Text) : Bool := t ≠ [] && t.all isNameChar

/-- No character is both: a name (`isNameChar`) ends where a gap (`isGap`) begins. -/
theorem not_isGap_of_isNameChar {c : Char} (h : isNameChar c = true) : isGap c = false := by
  cases hg : isGap c with
  | false => rfl
  | true =>
    simp only [isGap, Bool.or_eq_true, beq_iff_eq] at hg
    rcases hg with ((rfl | rfl) | rfl) | rfl <;> simp [isNameChar] at h

/-! ## Gaps -/

/-- The gap at the beginning of a text. -/
def gapOf (t : Text) : Text := t.takeWhile isGap

/-- What follows the gap at the beginning of a text. -/
def afterGap (t : Text) : Text := t.dropWhile isGap

/-- The gap at the beginning of `t` and what `afterGap` leaves are all of `t`. -/
theorem gapOf_append_afterGap (t : Text) : gapOf t ++ afterGap t = t :=
  List.takeWhile_append_dropWhile

/-- Nothing but gap characters. -/
def IsGap (t : Text) : Prop := ∀ c ∈ t, isGap c = true

theorem isGap_iff {t : Text} : IsGap t ↔ t.all isGap = true := List.all_eq_true.symm

theorem isGap_nil : IsGap [] := fun _ h => nomatch h

/-- A gap `g` in front of `t` runs together with the gap that `t` begins with, and both are
dropped. -/
theorem afterGap_append {g : Text} (hg : IsGap g) (t : Text) : afterGap (g ++ t) = afterGap t := by
  induction g with
  | nil => rfl
  | cons c g ih =>
    have hc : isGap c = true := hg c List.mem_cons_self
    rw [List.cons_append, afterGap, List.dropWhile_cons, if_pos hc]
    exact ih fun x hx => hg x (List.mem_cons_of_mem _ hx)

theorem afterGap_cons {c : Char} (hc : isGap c = false) (t : Text) :
    afterGap (c :: t) = c :: t := by
  rw [afterGap, List.dropWhile_cons, if_neg (by simp [hc])]

theorem isGap_gapOf (t : Text) : IsGap (gapOf t) := by
  intro c hc
  induction t with
  | nil => cases hc
  | cons d t ih =>
    rw [gapOf, List.takeWhile_cons] at hc
    split at hc
    · next hd =>
      rcases List.mem_cons.1 hc with rfl | hc
      · exact hd
      · exact ih hc
    · cases hc

/-- Every text is a gap `g`, perhaps the empty one, and what `afterGap` leaves. -/
theorem exists_gap (t : Text) : ∃ g, IsGap g ∧ t = g ++ afterGap t :=
  ⟨gapOf t, isGap_gapOf t, (gapOf_append_afterGap t).symm⟩

/-! ## Values -/

/-- A character that may stand at both ends of a value. -/
def isQuote (c : Char) : Bool := c == '"' || c == '\''

theorem isQuote_iff {c : Char} : isQuote c = true ↔ c = '"' ∨ c = '\'' := by
  simp [isQuote]

/-- A character that is no quote is none of the two quotes. -/
theorem ne_of_isQuote {q c : Char} (hq : isQuote q = true) (hc : isQuote c = false) : q ≠ c := by
  intro h
  rw [h, hc] at hq
  cases hq

theorem not_isGap_of_isQuote {q : Char} (hq : isQuote q = true) : isGap q = false := by
  rcases isQuote_iff.1 hq with rfl | rfl
  · rfl
  · rfl

namespace Value

/-- The written form of a value between two characters `quote`. -/
def encode (quote : Char) : Text → Text
  | [] => []
  | c :: t =>
    if c = '\\' then '\\' :: '\\' :: encode quote t
    else if c = '\n' then '\\' :: 'n' :: encode quote t
    else if c = '\t' then '\\' :: 't' :: encode quote t
    else if c = quote then '\\' :: c :: encode quote t
    else c :: encode quote t

/-- The character that a backslash before `c` stands for. -/
def escaped? (c : Char) : Option Char :=
  if c = '"' ∨ c = '\'' ∨ c = '\\' then some c
  else if c = 'n' then some '\n'
  else if c = 't' then some '\t'
  else none

/-- The value of a written form. -/
def decode : Text → Text
  | [] => []
  | [c] => [c]
  | c :: d :: t =>
    if c = '\\' then
      match escaped? d with
      | some e => e :: decode t
      | none => c :: d :: decode t
    else c :: decode (d :: t)

theorem decode_cons_of_ne {c : Char} (h : c ≠ '\\') (t : Text) :
    decode (c :: t) = c :: decode t := by
  cases t <;> simp [decode, h]

/-- **A written value reads back**: `decode` takes `encode` back, whichever of the two quotes it was
written for. Other characters in place of the quote could clash with `n` and `t`. -/
theorem decode_encode {quote : Char} (hq : quote = '"' ∨ quote = '\'') (t : Text) :
    decode (encode quote t) = t := by
  induction t with
  | nil => rfl
  | cons c t ih =>
    unfold encode
    split
    · next h => simp [decode, escaped?, ih, h]
    split
    · next h => simp [decode, escaped?, ih, h]
    split
    · next h => simp [decode, escaped?, ih, h]
    split
    · next h =>
      subst h
      rcases hq with rfl | rfl <;> simp [decode, escaped?, ih]
    · next h _ _ _ => rw [decode_cons_of_ne h, ih]

/-- Reads a quoted value from just after its opening quote: the written form up to the first
`quote` that no backslash precedes, and the text after that quote. A backslash takes the next
character with it; a backslash before a line feed or at the end is no part of a quoted value. -/
def upToQuote? (quote : Char) : Text → Option (Text × Text)
  | [] => none
  | [c] => if c = '\\' then none else if c = quote then some ([], []) else none
  | c :: d :: t =>
    if c = '\\' then
      if d = '\n' then none
      else (upToQuote? quote t).map fun (raw, rest) => (c :: d :: raw, rest)
    else if c = quote then some ([], d :: t)
    else (upToQuote? quote (d :: t)).map fun (raw, rest) => (c :: raw, rest)

/-- Nothing is lost by `upToQuote?`: the written form `raw`, the quote and the text `rest` after it
make up `t`. -/
theorem eq_of_upToQuote? {quote : Char} {t raw rest : Text}
    (h : upToQuote? quote t = some (raw, rest)) : t = raw ++ quote :: rest := by
  fun_induction upToQuote? quote t generalizing raw with
  | case1 => simp at h
  | case2 => simp at h
  | case3 => simp_all
  | case4 => simp at h
  | case5 => simp at h
  | case6 d t hd ih =>
    simp only [Option.map_eq_some_iff, Prod.mk.injEq, Prod.exists] at h
    obtain ⟨_, _, h, rfl, rfl⟩ := h
    simp [ih h]
  | case7 => simp_all
  | case8 c d t hc hq ih =>
    simp only [Option.map_eq_some_iff, Prod.mk.injEq, Prod.exists] at h
    obtain ⟨_, _, h, rfl, rfl⟩ := h
    simp [ih h]

/-- Whether a text can stand between two quotes: no `quote` in it, but for those that a backslash
takes with it, and no backslash before a line feed or at the end. -/
def isWritten (quote : Char) : Text → Bool
  | [] => true
  | [c] => c != '\\' && c != quote
  | c :: d :: t =>
    if c = '\\' then d != '\n' && isWritten quote t
    else c != quote && isWritten quote (d :: t)

/-- A backslash takes the next character `d` with it, unless that is a line feed. -/
theorem isWritten_escape (quote d : Char) (t : Text) :
    isWritten quote ('\\' :: d :: t) = (d != '\n' && isWritten quote t) := by
  rw [isWritten, if_pos rfl]

/-- Any other character `c` than a backslash can be written as it is, but for the quote itself. -/
theorem isWritten_cons_of_ne {quote c : Char} (hc : c ≠ '\\') (t : Text) :
    isWritten quote (c :: t) = (c != quote && isWritten quote t) := by
  cases t with
  | nil => simp [isWritten, hc]
  | cons d t => rw [isWritten, if_neg hc]

/-- The reader goes past a backslash and the character behind it, as `isWritten` does. -/
theorem upToQuote?_escape {quote d : Char} (t : Text) (hd : d ≠ '\n') :
    upToQuote? quote ('\\' :: d :: t) =
      (upToQuote? quote t).map fun (raw, rest) => ('\\' :: d :: raw, rest) := by
  rw [upToQuote?, if_pos rfl, if_neg hd]

/-- The reader stops at the first bare quote. Here it is the first character, and `raw` is empty. -/
theorem upToQuote?_quote {quote : Char} (hq : quote ≠ '\\') (t : Text) :
    upToQuote? quote (quote :: t) = some ([], t) := by
  cases t with
  | nil => rw [upToQuote?, if_neg hq, if_pos rfl]
  | cons d t => rw [upToQuote?, if_neg hq, if_pos rfl]

theorem upToQuote?_cons_of_ne {quote c : Char} (hc : c ≠ '\\') (hq : c ≠ quote) (t : Text) :
    upToQuote? quote (c :: t) =
      (upToQuote? quote t).map fun (raw, rest) => (c :: raw, rest) := by
  cases t with
  | nil => simp [upToQuote?, hc, hq]
  | cons d t => rw [upToQuote?, if_neg hc, if_neg hq]

/-- What is read up to a quote could stand between two of them: `isWritten` holds of it. -/
theorem isWritten_of_upToQuote? {quote : Char} {t raw rest : Text}
    (h : upToQuote? quote t = some (raw, rest)) : isWritten quote raw = true := by
  fun_induction upToQuote? quote t generalizing raw with
  | case1 => cases h
  | case2 => cases h
  | case3 => simp_all [isWritten]
  | case4 => cases h
  | case5 => cases h
  | case6 d t hd ih =>
    simp only [Option.map_eq_some_iff, Prod.mk.injEq, Prod.exists] at h
    obtain ⟨r, s, hr, rfl, rfl⟩ := h
    rw [isWritten_escape, ih hr]
    simp [hd]
  | case7 => simp_all [isWritten]
  | case8 c d t hc hq ih =>
    simp only [Option.map_eq_some_iff, Prod.mk.injEq, Prod.exists] at h
    obtain ⟨r, s, hr, rfl, rfl⟩ := h
    rw [isWritten_cons_of_ne hc, ih hr]
    simp [hq]

/-- A written value is read up to the quote that ends it, whatever `rest` follows. The quote must
not be a backslash, which would be read as the beginning of an escape. -/
theorem upToQuote?_of_isWritten {quote : Char} (hq : quote ≠ '\\') {raw : Text}
    (h : isWritten quote raw = true) (rest : Text) :
    upToQuote? quote (raw ++ quote :: rest) = some (raw, rest) := by
  fun_induction isWritten quote raw with
  | case1 => exact upToQuote?_quote hq rest
  | case2 c =>
    simp only [Bool.and_eq_true, bne_iff_ne, ne_eq] at h
    rw [List.cons_append, upToQuote?_cons_of_ne h.1 h.2, List.nil_append, upToQuote?_quote hq]
    rfl
  | case3 d t ih =>
    simp only [Bool.and_eq_true, bne_iff_ne, ne_eq] at h
    rw [List.cons_append, List.cons_append, upToQuote?_escape _ h.1, ih h.2]
    rfl
  | case4 c d t hc ih =>
    simp only [Bool.and_eq_true, bne_iff_ne, ne_eq] at h
    rw [List.cons_append, upToQuote?_cons_of_ne hc h.1, ih h.2]
    rfl

/-- **Where a quoted value ends**: at the first quote that no backslash takes with it. This is
`upToQuote?` told without its recursion, by `isWritten` and the cut of `t`. -/
theorem upToQuote?_eq_some_iff {quote : Char} (hq : quote ≠ '\\') {t raw rest : Text} :
    upToQuote? quote t = some (raw, rest) ↔
      isWritten quote raw = true ∧ t = raw ++ quote :: rest := by
  constructor
  · intro h
    exact ⟨isWritten_of_upToQuote? h, eq_of_upToQuote? h⟩
  · rintro ⟨h, rfl⟩
    exact upToQuote?_of_isWritten hq h rest

/-- The beginning `s` of a written value could itself be one, unless it is cut behind a backslash,
which would take the closing quote with it. -/
theorem isWritten_of_append {quote : Char} {s t : Text} (h : isWritten quote (s ++ t) = true)
    (hs : s.getLast? ≠ some '\\') : isWritten quote s = true := by
  fun_induction isWritten quote s with
  | case1 => rfl
  | case2 c =>
    have hc : c ≠ '\\' := fun hc => hs (by rw [hc]; rfl)
    rw [List.cons_append, isWritten_cons_of_ne hc] at h
    simp only [Bool.and_eq_true, bne_iff_ne, ne_eq] at h ⊢
    exact ⟨hc, h.1⟩
  | case3 d s ih =>
    rw [List.cons_append, List.cons_append, isWritten_escape] at h
    simp only [Bool.and_eq_true, bne_iff_ne, ne_eq] at h ⊢
    refine ⟨h.1, ?_⟩
    cases s with
    | nil => rfl
    | cons c s => exact ih h.2 (by simpa [List.getLast?_cons_cons] using hs)
  | case4 c d s hc ih =>
    rw [List.cons_append, isWritten_cons_of_ne hc] at h
    simp only [Bool.and_eq_true, bne_iff_ne, ne_eq] at h ⊢
    exact ⟨h.1, ih h.2 (by simpa [List.getLast?_cons_cons] using hs)⟩

/-- Written values can be joined: `isWritten` looks at no more than one escape at a time. -/
theorem isWritten_append {quote : Char} {s t : Text} (hs : isWritten quote s = true)
    (ht : isWritten quote t = true) : isWritten quote (s ++ t) = true := by
  fun_induction isWritten quote s with
  | case1 => exact ht
  | case2 c =>
    simp only [Bool.and_eq_true, bne_iff_ne, ne_eq] at hs
    rw [List.cons_append, isWritten_cons_of_ne hs.1, List.nil_append, ht]
    simp [hs.2]
  | case3 d s ih =>
    simp only [Bool.and_eq_true, bne_iff_ne, ne_eq] at hs
    rw [List.cons_append, List.cons_append, isWritten_escape, ih hs.2]
    simp [hs.1]
  | case4 c d s hc ih =>
    simp only [Bool.and_eq_true, bne_iff_ne, ne_eq] at hs
    rw [List.cons_append, isWritten_cons_of_ne hc, ih hs.2]
    simp [hs.1]

/-- Text in which no `c` is a backslash or the quote can stand between quotes as it is. -/
theorem isWritten_of_forall {quote : Char} {t : Text} (h : ∀ c ∈ t, c ≠ '\\' ∧ c ≠ quote) :
    isWritten quote t = true := by
  induction t with
  | nil => rfl
  | cons c t ih =>
    have hc := h c List.mem_cons_self
    rw [isWritten_cons_of_ne hc.1, ih fun x hx => h x (List.mem_cons_of_mem _ hx)]
    simp [hc.2]

/-- What `encode` writes for a quote can stand between two of them: no quote is left bare, and no
backslash stands before a line feed. -/
theorem isWritten_encode {quote : Char} (hq : isQuote quote = true) (t : Text) :
    isWritten quote (encode quote t) = true := by
  have hlf : quote ≠ '\n' := ne_of_isQuote hq rfl
  induction t with
  | nil => rfl
  | cons c t ih =>
    unfold encode
    split
    · rw [isWritten_escape, ih]
      rfl
    · next hslash =>
      split
      · rw [isWritten_escape, ih]
        rfl
      · split
        · rw [isWritten_escape, ih]
          rfl
        · split
          · next hc =>
            -- the quote itself; a backslash protects it, for it is no line feed
            rw [isWritten_escape, ih, hc]
            simp [hlf]
          · next hc =>
            rw [isWritten_cons_of_ne hslash, ih]
            simp [hc]

end Value

end Transclude
