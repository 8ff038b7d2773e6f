import Transclude.Markup.Value

/-!
# Declarations

A declaration is a comment `<!-- var(name)="value" -->`. It is the one kind of comment whose end
does not depend on the first `-->`, because its quoted value may hold any text. So the reader of
comments has to know a declaration when it sees one (`var_declaration_end`): `Declaration.read?`
reads it from just after the opener and gives back what it passed over, part by part.

The reader says what it found, not what it looks for. A declaration is well formed
(`Declaration.WellFormed`) when its head is `var(name)=` with gaps between the parts
(`Declaration.IsHead`), its value is written between two equal quotes (`Value.isWritten`), and only
a gap follows.

Main statements:
- `Declaration.read?_eq_some_iff`: a declaration is read exactly when the text begins with the body
  of a well formed one and a closer. So whether a declaration is read is decided by the text up to
  its closer, and what follows cannot change it (`Declaration.read?_append`).
- `Declaration.completes_or_unfinished`: where an opener stands in the text that was read, either
  the declaration ended before it, or it stands within the quoted value. This is the one way in
  which a text can come to be part of a declaration that begins before it.
-/

namespace Transclude

/-- The mark that opens a comment. -/
def opener : Text := ['<', '!', '-', '-']

/-- The mark that closes a comment. -/
def closer : Text := ['-', '-', '>']

/-- The word that begins a declaration. -/
def declarationWord : Text := ['v', 'a', 'r']

/-- The body of a declaration comment, in its parts. -/
structure Declaration where
  /-- Everything before the quoted value. -/
  head : Text
  name : Text
  quote : Char
  /-- The written form of the value. -/
  raw : Text
  /-- The gap after the quoted value. -/
  tail : Text
  deriving DecidableEq, Repr

namespace Declaration

/-- The text between the marks of the comment. -/
def body (d : Declaration) : Text := d.head ++ d.quote :: d.raw ++ d.quote :: d.tail

/-- Reads `var(name)=` with its gaps: the name, and what follows. -/
def readName? (t : Text) : Option (Text × Text) := do
  let t ← Text.after? declarationWord (afterGap t)
  let t ← Text.after? ['('] (afterGap t)
  let t := afterGap t
  let name := t.takeWhile isNameChar
  if name = [] then none
  let t ← Text.after? [')'] (afterGap (t.dropWhile isNameChar))
  let t ← Text.after? ['='] (afterGap t)
  return (name, afterGap t)

/-- Reads a quoted value, the gap after it and the closer: quote, written form, gap, and the text
after the closer. -/
def readValue? (t : Text) : Option (Char × Text × Text × Text) :=
  match t with
  | [] => none
  | quote :: t =>
    if quote = '"' ∨ quote = '\'' then do
      let (raw, t) ← Value.upToQuote? quote t
      let rest ← Text.after? closer (afterGap t)
      return (quote, raw, gapOf t, rest)
    else none

/-- Reads a declaration from just after an opener: the declaration, and the text after the closer
that ends its comment. -/
def read? (t : Text) : Option (Declaration × Text) := do
  let (name, value) ← readName? t
  let (quote, raw, tail, rest) ← readValue? value
  return (⟨t.take (t.length - value.length), name, quote, raw, tail⟩, rest)

/-! ## What the readers find -/

/-- `var(name)=`, with gaps between its parts and after it. -/
def IsHead (name head : Text) : Prop :=
  ∃ g₀ g₁ g₂ g₃ g₄ g₅ : Text,
    (IsGap g₀ ∧ IsGap g₁ ∧ IsGap g₂ ∧ IsGap g₃ ∧ IsGap g₄ ∧ IsGap g₅) ∧ isName name = true ∧
    head =
      g₀ ++ (declarationWord ++ (g₁ ++ '(' :: (g₂ ++ (name ++ (g₃ ++ ')' :: (g₄ ++ '=' :: g₅))))))

/-- What can be read as a declaration. -/
structure WellFormed (d : Declaration) : Prop where
  head : IsHead d.name d.head
  quote : isQuote d.quote = true
  raw : Value.isWritten d.quote d.raw = true
  tail : IsGap d.tail

theorem mem_of_isName {name : Text} (h : isName name = true) : ∀ c ∈ name, isNameChar c = true := by
  simp only [isName, Bool.and_eq_true, List.all_eq_true] at h
  exact h.2

theorem isName_declarationWord : isName declarationWord = true := rfl

theorem ne_nil_of_isName {name : Text} (h : isName name = true) : name ≠ [] := by
  simp only [isName, Bool.and_eq_true, decide_eq_true_eq] at h
  exact h.1

/-- A run of name characters ends where a gap `g` begins, and if that is empty at the character `m`
behind it. -/
theorem head?_gap_append {g : Text} (hg : IsGap g) {m : Char} (hm : isNameChar m = false)
    (t : Text) : ∀ c ∈ (g ++ m :: t).head?, isNameChar c = false := by
  intro c hc
  cases g with
  | nil =>
    obtain rfl : m = c := by simpa using hc
    exact hm
  | cons d g =>
    obtain rfl : d = c := by simpa using hc
    cases hd : isNameChar d with
    | false => rfl
    | true => exact absurd (hg d List.mem_cons_self) (by simp [not_isGap_of_isNameChar hd])

/-- The run of name characters at the beginning of a text is the name that stands there, if the text
`t` behind it does not go on with one more. -/
theorem takeWhile_name {name t : Text} (hn : isName name = true)
    (ht : ∀ c ∈ t.head?, isNameChar c = false) : (name ++ t).takeWhile isNameChar = name := by
  rw [List.takeWhile_append_of_pos (mem_of_isName hn)]
  cases t with
  | nil => simp
  | cons c t => rw [List.takeWhile_cons, if_neg (by simp [ht c rfl]), List.append_nil]

theorem dropWhile_name {name t : Text} (hn : isName name = true)
    (ht : ∀ c ∈ t.head?, isNameChar c = false) : (name ++ t).dropWhile isNameChar = t := by
  rw [List.dropWhile_append_of_pos (mem_of_isName hn)]
  cases t with
  | nil => rfl
  | cons c t => rw [List.dropWhile_cons, if_neg (by simp [ht c rfl])]

/-- A name begins with no gap, so `afterGap` leaves it where it is. -/
theorem afterGap_name {name : Text} (hn : isName name = true) (t : Text) :
    afterGap (name ++ t) = name ++ t := by
  obtain ⟨c, name, rfl⟩ := List.exists_cons_of_ne_nil (ne_nil_of_isName hn)
  exact afterGap_cons (not_isGap_of_isNameChar (mem_of_isName hn c List.mem_cons_self)) _

/-- A head, which is the word, the name and the marks of a declaration with their gaps, is read by
`readName?` as its name, and the gap after it is dropped. -/
theorem readName?_append {name head : Text} (h : IsHead name head) (t : Text) :
    readName? (head ++ t) = some (name, afterGap t) := by
  obtain ⟨g₀, g₁, g₂, g₃, g₄, g₅, ⟨h₀, h₁, h₂, h₃, h₄, h₅⟩, hn, rfl⟩ := h
  have hword (x : Text) : afterGap (declarationWord ++ x) = declarationWord ++ x :=
    afterGap_cons rfl _
  have hmark {c : Char} (hc : isGap c = false) (x : Text) :
      Text.after? [c] (afterGap (c :: x)) = some x := by
    rw [afterGap_cons hc]
    exact Text.after?_append [c] x
  -- the name stops at the gap or the parenthesis behind it
  have hstop := head?_gap_append h₃ (m := ')') rfl (g₄ ++ '=' :: (g₅ ++ t))
  simp only [readName?, List.append_assoc, List.cons_append, afterGap_append h₀,
    afterGap_append h₁, afterGap_append h₂, afterGap_append h₃, afterGap_append h₄,
    afterGap_append h₅, hword, Text.after?_append, Option.bind_eq_bind, Option.bind_some,
    hmark (c := '(') rfl, hmark (c := ')') rfl, hmark (c := '=') rfl, afterGap_name hn,
    takeWhile_name hn hstop, dropWhile_name hn hstop, if_neg (ne_nil_of_isName hn),
    Option.pure_def]

/-- What `readName?` reads is a head, except that it drops the gap after it too. -/
theorem isHead_of_readName? {t name value : Text} (h : readName? t = some (name, value)) :
    ∃ head, IsHead name head ∧ t = head ++ value := by
  simp only [readName?, Option.bind_eq_bind, Option.bind_eq_some_iff, Option.pure_def] at h
  obtain ⟨t₁, h₁, t₂, h₂, h⟩ := h
  split at h
  · cases h
  next hne =>
  simp only [Option.bind_eq_some_iff, Option.some.injEq, Prod.mk.injEq] at h
  obtain ⟨t₃, h₃, t₄, h₄, rfl, rfl⟩ := h
  obtain ⟨g₀, hg₀, e₀⟩ := exists_gap t
  obtain ⟨g₁, hg₁, e₁⟩ := exists_gap t₁
  obtain ⟨g₂, hg₂, e₂⟩ := exists_gap t₂
  obtain ⟨g₃, hg₃, e₃⟩ := exists_gap ((afterGap t₂).dropWhile isNameChar)
  obtain ⟨g₄, hg₄, e₄⟩ := exists_gap t₃
  obtain ⟨g₅, hg₅, e₅⟩ := exists_gap t₄
  refine ⟨_, ⟨g₀, g₁, g₂, g₃, g₄, g₅, ⟨hg₀, hg₁, hg₂, hg₃, hg₄, hg₅⟩, ?_, rfl⟩, ?_⟩
  · simp [isName, hne, List.all_takeWhile]
  · -- the parts are put together from the inside, so that every text is named by its end
    rw [Text.after?_eq_some_iff] at h₁ h₂ h₃ h₄
    rw [h₁] at e₀
    rw [h₂] at e₁
    rw [h₃] at e₃
    rw [h₄] at e₄
    simp only [List.append_assoc, List.cons_append, List.nil_append] at e₁ e₃ e₄ ⊢
    rw [← e₅, ← e₄, ← e₃, List.takeWhile_append_dropWhile, ← e₂, ← e₁, ← e₀]

/-- **What the reader of a value finds**: a quote, a written form `raw` up to the same quote, the
gap `tail` after it, and the closer before `rest`. -/
theorem readValue?_eq_some_iff {t raw tail rest : Text} {quote : Char} :
    readValue? t = some (quote, raw, tail, rest) ↔
      isQuote quote = true ∧ Value.isWritten quote raw = true ∧ IsGap tail ∧
        t = quote :: raw ++ quote :: tail ++ closer ++ rest := by
  constructor
  · intro h
    unfold readValue? at h
    split at h
    · cases h
    next c t =>
    split at h
    next hc =>
      simp only [Option.bind_eq_bind, Option.bind_eq_some_iff, Option.pure_def, Option.some.injEq,
        Prod.mk.injEq, Prod.exists] at h
      obtain ⟨r, s, hr, s', hs, rfl, rfl, rfl, rfl⟩ := h
      have hquote : isQuote c = true := isQuote_iff.2 hc
      obtain ⟨hraw, rfl⟩ := (Value.upToQuote?_eq_some_iff (ne_of_isQuote hquote rfl)).1 hr
      refine ⟨hquote, hraw, isGap_gapOf s, ?_⟩
      have hgap := gapOf_append_afterGap s
      rw [Text.after?_eq_some_iff.1 hs] at hgap
      generalize gapOf s = gap at hgap ⊢
      simp [← hgap]
    next => cases h
  · intro ⟨hquote, hraw, htail, ht⟩
    have hne : quote ≠ '\\' := ne_of_isQuote hquote rfl
    have hread := (Value.upToQuote?_eq_some_iff hne).2
      ⟨hraw, (rfl : raw ++ quote :: (tail ++ (closer ++ rest)) = _)⟩
    have hgap : gapOf (tail ++ (closer ++ rest)) = tail := by
      rw [gapOf, List.takeWhile_append_of_pos htail]
      exact List.append_nil _
    have hafter : afterGap (tail ++ (closer ++ rest)) = closer ++ rest := by
      rw [afterGap_append htail]
      exact afterGap_cons rfl _
    rw [ht]
    simp only [List.cons_append, List.append_assoc, readValue?, if_pos (isQuote_iff.1 hquote),
      hread, Option.bind_eq_bind, Option.bind_some, hafter, Text.after?_append, hgap,
      Option.pure_def]

/-- **What is read** by `read?`: a declaration `d` that is well formed, its body and the closer, and
the text `rest` that is left. So the reader and `WellFormed` say the same, and `d` is determined by
the text. -/
theorem read?_eq_some_iff {t rest : Text} {d : Declaration} :
    read? t = some (d, rest) ↔ d.WellFormed ∧ t = d.body ++ closer ++ rest := by
  constructor
  · intro h
    simp only [read?, Option.bind_eq_bind, Option.bind_eq_some_iff, Option.pure_def,
      Option.some.injEq, Prod.mk.injEq, Prod.exists] at h
    obtain ⟨name, value, hn, quote, raw, tail, r, hv, rfl, rfl⟩ := h
    obtain ⟨head, hhead, rfl⟩ := isHead_of_readName? hn
    -- behind the head stand the quoted value and the gap after it
    obtain ⟨hquote, hraw, htail, rfl⟩ := readValue?_eq_some_iff.1 hv
    refine ⟨⟨?_, hquote, hraw, htail⟩, ?_⟩
    · simpa using hhead
    · simp [body]
  · rintro ⟨h, rfl⟩
    have hgap := not_isGap_of_isQuote h.quote
    have hname : readName? (d.body ++ closer ++ rest) =
        some (d.name, d.quote :: d.raw ++ d.quote :: d.tail ++ closer ++ rest) := by
      simp only [body, List.append_assoc, readName?_append h.head]
      rw [List.cons_append, afterGap_cons hgap]
    have hvalue := readValue?_eq_some_iff.2 ⟨h.quote, h.raw, h.tail,
      (rfl : d.quote :: d.raw ++ d.quote :: d.tail ++ closer ++ rest = _)⟩
    rw [read?, hname]
    simp only [Option.bind_eq_bind, Option.bind_some, hvalue, Option.pure_def]
    simp [body]

/-- Nothing is lost: the body of `d`, the closer and `rest` make up the text. -/
theorem eq_of_read? {t rest : Text} {d : Declaration} (h : read? t = some (d, rest)) :
    t = d.body ++ closer ++ rest := (read?_eq_some_iff.1 h).2

/-- A declaration is read whatever `x` follows. What comes behind its closer is not looked at. -/
theorem read?_append {t rest : Text} {d : Declaration} (h : read? t = some (d, rest)) (x : Text) :
    read? (t ++ x) = some (d, rest ++ x) := by
  obtain ⟨hd, rfl⟩ := read?_eq_some_iff.1 h
  exact read?_eq_some_iff.2 ⟨hd, List.append_assoc _ _ _⟩

/-- What is read as no declaration has no beginning that is one. This is `read?_append` told from
the other side. -/
theorem read?_eq_none_of_append {t x : Text} (h : read? (t ++ x) = none) : read? t = none := by
  cases hr : read? t with
  | none => rfl
  | some p => rw [read?_append hr x] at h; cases h

/-! ## Openers within a declaration -/

/-- Every character `c` of a head belongs to a gap, to a word or name, or is one of the three
marks. -/
theorem mem_head {name head : Text} (h : IsHead name head) {c : Char} (hc : c ∈ head) :
    isGap c = true ∨ isNameChar c = true ∨ c = '(' ∨ c = ')' ∨ c = '=' := by
  obtain ⟨g₀, g₁, g₂, g₃, g₄, g₅, ⟨h₀, h₁, h₂, h₃, h₄, h₅⟩, hn, rfl⟩ := h
  simp only [List.mem_append, List.mem_cons] at hc
  rcases hc with hc | hc | hc | rfl | hc | hc | hc | rfl | hc | rfl | hc
  · exact .inl (h₀ c hc)
  · exact .inr (.inl (mem_of_isName isName_declarationWord c hc))
  · exact .inl (h₁ c hc)
  · simp
  · exact .inl (h₂ c hc)
  · exact .inr (.inl (mem_of_isName hn c hc))
  · exact .inl (h₃ c hc)
  · simp
  · exact .inl (h₄ c hc)
  · simp
  · exact .inl (h₅ c hc)

/-- A head has no character that begins a comment, none that is a quote, and no backslash, by
`mem_head`. -/
theorem not_mem_head {name head : Text} (h : IsHead name head) :
    '<' ∉ head ∧ '"' ∉ head ∧ '\'' ∉ head ∧ '\\' ∉ head := by
  refine ⟨?_, ?_, ?_, ?_⟩ <;> intro hc <;> have := mem_head h hc <;> revert this <;> decide

/-- Whether a text begins a declaration and stops within its quoted value. -/
def unfinished (t : Text) : Bool :=
  match readName? t with
  | some (_, quote :: raw) => isQuote quote && Value.isWritten quote raw
  | _ => false

/-- A text is `unfinished` if it is the head of a declaration and the beginning of its quoted value.
Such a text may be completed to a declaration, and it may not. -/
theorem unfinished_iff {t : Text} :
    unfinished t = true ↔ ∃ name head quote raw, IsHead name head ∧ isQuote quote = true ∧
      Value.isWritten quote raw = true ∧ t = head ++ quote :: raw := by
  constructor
  · intro h
    unfold unfinished at h
    split at h
    next name quote raw hn =>
      obtain ⟨head, hhead, rfl⟩ := isHead_of_readName? hn
      simp only [Bool.and_eq_true] at h
      exact ⟨name, head, quote, raw, hhead, h.1, h.2, rfl⟩
    next => cases h
  · rintro ⟨name, head, quote, raw, hhead, hq, hraw, rfl⟩
    rw [unfinished, readName?_append hhead, afterGap_cons (not_isGap_of_isQuote hq)]
    simp [hq, hraw]

/-- Where two splits of a text meet: a character `c` that the first part `a` of one does not have
stands behind that part, so `b` has all from there on. -/
theorem exists_append_of_not_mem {a b s z : Text} {c : Char} (h : a ++ b = s ++ c :: z)
    (hc : c ∉ a) : ∃ s', s = a ++ s' ∧ b = s' ++ c :: z := by
  rcases List.append_eq_append_iff.1 h with ⟨s', hs, hb⟩ | ⟨a', ha, hz⟩
  · exact ⟨s', hs, hb⟩
  · cases a' with
    | nil => exact ⟨[], by simpa using ha.symm, by simpa using hz.symm⟩
    | cons d a' =>
      -- what `a` has more than `s` begins with `c`
      obtain ⟨rfl, -⟩ := List.cons.inj hz
      exact absurd (by simp [ha]) hc

/-- **An opener in a declaration that is read** either stands behind its end, so that `s` alone is
read as the same declaration `d`, or it stands within the quoted value, so that the text up to the
opener is unfinished. -/
theorem completes_or_unfinished {s z rest : Text} {d : Declaration}
    (h : read? (s ++ opener ++ z) = some (d, rest)) :
    (∃ r, read? s = some (d, r)) ∨ unfinished (s ++ opener) = true := by
  obtain ⟨hd, he⟩ := read?_eq_some_iff.1 h
  have hquote {c : Char} (hc : isQuote c = false) : d.quote ≠ c := ne_of_isQuote hd.quote hc
  simp only [body, opener, List.append_assoc, List.cons_append, List.nil_append] at he
  -- the head and the opening quote stand before the opener
  obtain ⟨s₁, rfl, h₁⟩ := exists_append_of_not_mem he.symm (not_mem_head hd.head).1
  obtain ⟨s₂, rfl, h₂⟩ : ∃ s₂, s₁ = d.quote :: s₂ ∧ d.raw ++ d.quote :: (d.tail ++ (closer ++ rest))
      = s₂ ++ '<' :: '!' :: '-' :: '-' :: z := by
    cases s₁ with
    | nil => exact absurd (List.cons.inj h₁).1 (hquote rfl)
    | cons c s₂ =>
      obtain ⟨rfl, h₂⟩ := List.cons.inj h₁
      exact ⟨s₂, rfl, h₂⟩
  rcases List.append_eq_append_iff.1 h₂ with ⟨a, rfl, h₃⟩ | ⟨raw, hraw, h₃⟩
  · -- the closing quote stands before it too, and so does the closer
    left
    obtain ⟨a, rfl, h₄⟩ : ∃ a', a = d.quote :: a' ∧ d.tail ++ closer ++ rest
        = a' ++ '<' :: '!' :: '-' :: '-' :: z := by
      cases a with
      | nil => exact absurd (List.cons.inj h₃).1 (hquote rfl)
      | cons c a =>
        obtain ⟨rfl, h₄⟩ := List.cons.inj h₃
        exact ⟨a, rfl, by simpa using h₄⟩
    have hlt : '<' ∉ d.tail ++ closer := by
      rw [List.mem_append]
      rintro (hc | hc)
      · exact absurd (hd.tail _ hc) (by decide)
      · exact absurd hc (by decide)
    obtain ⟨r, rfl, -⟩ := exists_append_of_not_mem h₄ hlt
    exact ⟨r, read?_eq_some_iff.2 ⟨hd, by simp [body]⟩⟩
  · -- the value holds the whole opener, for the closing quote is no character of it
    right
    obtain ⟨raw, rfl, h₄⟩ : ∃ raw', raw = '<' :: raw' ∧ ['!', '-', '-'] ++ z
        = raw' ++ d.quote :: (d.tail ++ (closer ++ rest)) := by
      cases raw with
      | nil => exact absurd (List.cons.inj h₃).1.symm (hquote rfl)
      | cons c raw =>
        obtain ⟨rfl, h₄⟩ := List.cons.inj h₃
        exact ⟨raw, rfl, h₄⟩
    have hmarks : d.quote ∉ ['!', '-', '-'] := by
      simp [hquote (c := '!') rfl, hquote (c := '-') rfl]
    obtain ⟨raw, rfl, -⟩ := exists_append_of_not_mem h₄ hmarks
    refine unfinished_iff.2 ⟨d.name, d.head, d.quote, s₂ ++ opener, hd.head, hd.quote, ?_, by simp⟩
    refine Value.isWritten_of_append (t := raw) ?_ (by simp [opener])
    rw [← hd.raw, hraw]
    simp [opener]

/-- By `completes_or_unfinished`, a text `s` that is neither a declaration nor unfinished at an
opener is none, however it goes on behind that opener. -/
theorem read?_opener_eq_none {s : Text} (hs : read? s = none)
    (hunfinished : ¬unfinished (s ++ opener) = true) (z : Text) :
    read? (s ++ (opener ++ z)) = none := by
  cases hread : read? (s ++ (opener ++ z)) with
  | none => rfl
  | some p =>
    rw [← List.append_assoc] at hread
    rcases completes_or_unfinished hread with ⟨r, hr⟩ | hu
    · rw [hs] at hr
      cases hr
    · exact absurd hu hunfinished

end Declaration

end Transclude
