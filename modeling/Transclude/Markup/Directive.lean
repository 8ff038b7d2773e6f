import Transclude.Markup.Lexeme

/-!
# Directives

A comment is a directive when the lexemes of its body, gaps aside, have one of four shapes: a
declaration `var(name)="value"`, an opening marker `begin-ref(name)`, a closing marker `end-ref`, or
an include marker `include-file(name)` with anything after it. Opening and closing markers come in
three kinds of block.

The grammar of a declaration is known twice: the reader of comments passes over it character by
character (`Declaration.read?`), and the body of a comment is cut into lexemes, of which one shape
is a declaration (`Directive.ofBody?`). The two agree.

Main statements:
- `Directive.ofBody?_eq_declaration_iff`: a body is a declaration with this name, quote and value
  exactly when it is the body of a well formed declaration with these parts.
- `Directive.ofBody?_eq_closing_iff`: what closes a block is one word, with gaps around it.
- `Declaration.ofText_body`: the lexemes of the body of a declaration, gaps included, are those of
  its head, the quoted value, and those of its tail.
-/

namespace Transclude

/-- The kinds of block that an opening and a closing marker enclose. -/
inductive BlockKind where
  /-- Content to be used elsewhere. -/
  | ref
  /-- A place that shows the value of a variable. -/
  | var
  /-- A place that shows the content of a reference. -/
  | inclusion
  deriving DecidableEq, Repr

namespace BlockKind

/-- All kinds. -/
def all : List BlockKind := [ref, var, inclusion]

/-- The name of a kind, as markers and messages show it. -/
def name : BlockKind → String
  | ref => "ref"
  | var => "var"
  | inclusion => "include"

/-- The word of an opening marker. -/
def beginWord (kind : BlockKind) : Text := "begin-".toList ++ kind.name.toList

/-- The word of a closing marker. -/
def endWord (kind : BlockKind) : Text := "end-".toList ++ kind.name.toList

/-- The kind of the opening marker with this word. -/
def ofBeginWord? (word : Text) : Option BlockKind := all.find? fun kind => kind.beginWord = word

/-- The kind of the closing marker with this word. -/
def ofEndWord? (word : Text) : Option BlockKind := all.find? fun kind => kind.endWord = word

end BlockKind

/-- What a comment can tell. -/
inductive Directive where
  /-- A variable with its value as written between two characters `quote`. -/
  | declaration (name : Text) (quote : Char) (raw : Text)
  | opening (kind : BlockKind) (name : Text)
  | closing (kind : BlockKind)
  | includeFile (name : Text)
  deriving DecidableEq, Repr

namespace Directive

/-- The word that begins an include marker. -/
def includeWord : Text := "include-file".toList

/-- The directive with these lexemes, none of them a gap. -/
def ofLexemes? : List Lexeme → Option Directive
  | [.word w] => (BlockKind.ofEndWord? w).map closing
  | .word w :: .openParen :: .word name :: .closeParen :: tail =>
    if w = includeWord then some (includeFile name)
    else
      match tail with
      | [] => (BlockKind.ofBeginWord? w).map (opening · name)
      | [.equals, .quoted quote raw] =>
        if w = declarationWord then some (declaration name quote raw) else none
      | _ => none
  | _ => none

/-- The directive that the body of a comment holds. -/
def ofBody? (body : Text) : Option Directive := ofLexemes? (Lexeme.significant (Lexeme.ofText body))

/-! ## The shapes -/

/-- The lexemes `ls` of a declaration are the word of declarations, the name in parentheses, an
equals sign and the quoted value. No other lexemes are read as one. -/
theorem ofLexemes?_eq_declaration_iff {ls : List Lexeme} {name raw : Text} {quote : Char} :
    ofLexemes? ls = some (declaration name quote raw) ↔
      ls = [.word declarationWord, .openParen, .word name, .closeParen, .equals,
        .quoted quote raw] := by
  constructor
  · intro h
    unfold ofLexemes? at h
    split at h
    · simp at h
    · split at h
      · simp at h
      · split at h
        · simp at h
        · split at h
          · simp_all
          · cases h
        · cases h
    · cases h
  · rintro rfl
    rfl

/-- The name that a directive gives. A closing marker gives none. -/
def name? : Directive → Option Text
  | declaration name _ _ => some name
  | opening _ name => some name
  | closing _ => none
  | includeFile name => some name

theorem word_mem_of_ofLexemes? {ls : List Lexeme} {d : Directive} {name : Text}
    (h : ofLexemes? ls = some d) (hn : d.name? = some name) : Lexeme.word name ∈ ls := by
  unfold ofLexemes? at h
  split at h
  · obtain ⟨kind, -, rfl⟩ := Option.map_eq_some_iff.1 h
    cases hn
  · next w n tail =>
    -- of the longer shapes, the second word is the name
    suffices hname : d.name? = some n by
      obtain rfl : n = name := Option.some.inj (hname.symm.trans hn)
      simp
    split at h
    · rw [← Option.some.inj h]
      rfl
    · split at h
      · obtain ⟨kind, -, rfl⟩ := Option.map_eq_some_iff.1 h
        rfl
      · split at h
        · rw [← Option.some.inj h]
          rfl
        · cases h
      · cases h
  · cases h

/-- Whatever a directive that was read names, it names by a name: the lexeme is `Valid`. -/
theorem isName_of_ofBody? {body name : Text} {d : Directive} (h : ofBody? body = some d)
    (hn : d.name? = some name) : isName name = true := by
  have hmem := word_mem_of_ofLexemes? h hn
  exact Lexeme.valid_of_mem_ofText (List.mem_filter.1 hmem).1

theorem isName_beginWord (kind : BlockKind) : isName kind.beginWord = true := by
  cases kind <;> rfl

theorem isName_endWord (kind : BlockKind) : isName kind.endWord = true := by
  cases kind <;> rfl

/-- The word `kind.beginWord` and a name in parentheses open a block of that kind. -/
theorem ofBody?_opening (kind : BlockKind) {name : Text} (hn : isName name = true) :
    ofBody? (kind.beginWord ++ '(' :: (name ++ [')'])) = some (opening kind name) := by
  have hstop {c : Char} (hc : isNameChar c = false) (t : Text) :
      ∀ x ∈ (c :: t).head?, isNameChar x = false := by
    intro x hx
    rwa [← Option.some.inj hx]
  show ofLexemes? (Lexeme.significantOf _) = _
  rw [Lexeme.significantOf_word (isName_beginWord kind) (hstop rfl _),
    Lexeme.significantOf_mark (.inl ⟨rfl, rfl⟩), Lexeme.significantOf_word hn (hstop rfl _),
    Lexeme.significantOf_mark (.inr (.inl ⟨rfl, rfl⟩)), Lexeme.significantOf_nil]
  cases kind <;> rfl

/-- A body that closes a block is the word of a closing marker with the gaps `g` and `r` around
it. -/
theorem exists_of_ofBody?_closing {b : Text} {kind : BlockKind}
    (h : ofBody? b = some (closing kind)) :
    ∃ g r, IsGap g ∧ IsGap r ∧ b = g ++ (kind.endWord ++ r) := by
  have hls : Lexeme.significantOf b = [.word kind.endWord] := by
    unfold ofBody? ofLexemes? at h
    split at h
    · next w hw =>
      obtain ⟨k, hk, hkind⟩ := Option.map_eq_some_iff.1 h
      obtain rfl := closing.inj hkind
      have hword := List.find?_some (p := fun k : BlockKind => k.endWord = w) hk
      rw [of_decide_eq_true hword]
      exact hw
    · split at h
      · cases h
      · split at h
        · obtain ⟨k, -, hk⟩ := Option.map_eq_some_iff.1 h
          cases hk
        · split at h <;> cases h
        · cases h
    · cases h
  obtain ⟨g, r, hg, rfl, hr, -⟩ := Lexeme.exists_of_significantOf_cons hls
  exact ⟨g, r, hg, Lexeme.isGap_of_significantOf_nil hr, rfl⟩

/-- **What closes a block**: the word `kind.endWord` with gaps around it, and nothing else. -/
theorem ofBody?_eq_closing_iff {b : Text} {kind : BlockKind} :
    ofBody? b = some (closing kind) ↔
      ∃ g r, IsGap g ∧ IsGap r ∧ b = g ++ (kind.endWord ++ r) := by
  refine ⟨exists_of_ofBody?_closing, ?_⟩
  rintro ⟨g, r, hg, hr, rfl⟩
  have hstop : ∀ c ∈ r.head?, isNameChar c = false := by
    intro c hc
    have hgap : isGap c = true := hr c (List.mem_of_mem_head? hc)
    cases hname : isNameChar c with
    | false => rfl
    | true =>
      rw [not_isGap_of_isNameChar hname] at hgap
      cases hgap
  show ofLexemes? (Lexeme.significantOf _) = _
  rw [Lexeme.significantOf_gap hg, Lexeme.significantOf_word (isName_endWord kind) hstop,
    ← List.append_nil r, Lexeme.significantOf_gap hr, Lexeme.significantOf_nil]
  cases kind <;> rfl

theorem ofBody?_closing (kind : BlockKind) : ofBody? kind.endWord = some (closing kind) :=
  ofBody?_eq_closing_iff.2 ⟨[], [], isGap_nil, isGap_nil, (List.append_nil _).symm⟩

/-- The body of a well formed declaration `d` is read as that declaration, by lexemes too. -/
theorem ofBody?_body {d : Declaration} (h : d.WellFormed) :
    ofBody? d.body = some (declaration d.name d.quote d.raw) := by
  obtain ⟨g₀, g₁, g₂, g₃, g₄, g₅, ⟨h₀, h₁, h₂, h₃, h₄, h₅⟩, hn, he⟩ := h.head
  refine ofLexemes?_eq_declaration_iff.2 ?_
  show Lexeme.significantOf d.body = _
  -- one lexeme after the other is put in front, from the tail on
  have hopen : Lexeme.IsMark '(' .openParen := .inl ⟨rfl, rfl⟩
  have hclose : Lexeme.IsMark ')' .closeParen := .inr (.inl ⟨rfl, rfl⟩)
  have hequals : Lexeme.IsMark '=' .equals := .inr (.inr ⟨rfl, rfl⟩)
  rw [Declaration.body, he]
  simp only [List.append_assoc, List.cons_append]
  rw [Lexeme.significantOf_gap h₀,
    Lexeme.significantOf_word rfl (Declaration.head?_gap_append h₁ rfl _),
    Lexeme.significantOf_gap h₁, Lexeme.significantOf_mark hopen, Lexeme.significantOf_gap h₂,
    Lexeme.significantOf_word hn (Declaration.head?_gap_append h₃ rfl _),
    Lexeme.significantOf_gap h₃, Lexeme.significantOf_mark hclose, Lexeme.significantOf_gap h₄,
    Lexeme.significantOf_mark hequals, Lexeme.significantOf_gap h₅,
    ← List.cons_append, Lexeme.significantOf_quoted h.quote h.raw, ← List.append_nil d.tail,
    Lexeme.significantOf_gap h.tail, Lexeme.significantOf_nil]

/-- A body that is read as a declaration is the body of a well formed `d`, which has the name, the
quote and the written form that were read. -/
theorem exists_of_ofBody? {b name raw : Text} {quote : Char}
    (h : ofBody? b = some (declaration name quote raw)) :
    ∃ d : Declaration, d.WellFormed ∧ d.body = b ∧ d.name = name ∧ d.quote = quote ∧
      d.raw = raw := by
  have hls : Lexeme.significantOf b = _ := ofLexemes?_eq_declaration_iff.1 h
  -- one lexeme after the other is taken off, each with the gap before it
  obtain ⟨g₀, r₀, h₀, e₀, hls, -⟩ := Lexeme.exists_of_significantOf_cons hls
  obtain ⟨g₁, r₁, h₁, e₁, hls, -⟩ := Lexeme.exists_of_significantOf_cons hls
  obtain ⟨g₂, r₂, h₂, e₂, hls, hn⟩ := Lexeme.exists_of_significantOf_cons hls
  obtain ⟨g₃, r₃, h₃, e₃, hls, -⟩ := Lexeme.exists_of_significantOf_cons hls
  obtain ⟨g₄, r₄, h₄, e₄, hls, -⟩ := Lexeme.exists_of_significantOf_cons hls
  obtain ⟨g₅, tail, h₅, e₅, hls, hq⟩ := Lexeme.exists_of_significantOf_cons hls
  have htail := Lexeme.isGap_of_significantOf_nil hls
  subst e₀ e₁ e₂ e₃ e₄ e₅
  have hhead : Declaration.IsHead name _ :=
    ⟨g₀, g₁, g₂, g₃, g₄, g₅, ⟨h₀, h₁, h₂, h₃, h₄, h₅⟩, hn, rfl⟩
  refine ⟨⟨_, name, quote, raw, tail⟩, ⟨hhead, hq.1, hq.2, htail⟩, ?_, rfl, rfl, rfl⟩
  simp [Declaration.body, Lexeme.text]

/-- **The two readers agree**: `ofBody?`, which goes by lexemes, reads the body of a comment as a
declaration exactly when `Declaration.read?`, which goes by characters, would accept it. -/
theorem ofBody?_eq_declaration_iff {b name raw : Text} {quote : Char} :
    ofBody? b = some (declaration name quote raw) ↔
      ∃ d : Declaration, d.WellFormed ∧ d.body = b ∧ d.name = name ∧ d.quote = quote ∧
        d.raw = raw := by
  constructor
  · exact exists_of_ofBody?
  · rintro ⟨d, hd, rfl, rfl, rfl, rfl⟩
    exact ofBody?_body hd

end Directive

/-! ## The lexemes of a declaration -/

namespace Declaration

/-- There is no quote in the head of a well formed declaration. -/
theorem isQuote_of_mem_head {d : Declaration} (h : d.WellFormed) :
    ∀ c ∈ d.head, isQuote c = false := by
  intro c hc
  obtain ⟨-, hdouble, hsingle, -⟩ := not_mem_head h.head
  cases hq : isQuote c with
  | false => rfl
  | true =>
    rcases isQuote_iff.1 hq with rfl | rfl
    · exact absurd hc hdouble
    · exact absurd hc hsingle

/-- There is no quote in the gap behind its value either, so the value is the only quoted lexeme. -/
theorem isQuote_of_mem_tail {d : Declaration} (h : d.WellFormed) :
    ∀ c ∈ d.tail, isQuote c = false := by
  intro c hc
  have hgap := h.tail c hc
  cases hq : isQuote c with
  | false => rfl
  | true =>
    rw [not_isGap_of_isQuote hq] at hgap
    cases hgap

/-- **The lexemes of a declaration** `d` are those of `d.head`, the quoted value, and those of the
gap `d.tail` behind it. -/
theorem ofText_body {d : Declaration} (h : d.WellFormed) :
    Lexeme.ofText d.body =
      Lexeme.ofText d.head ++ .quoted d.quote d.raw :: Lexeme.ofText d.tail := by
  have hstop : ∀ c ∈ (d.quote :: d.raw ++ d.quote :: d.tail).head?,
      isGap c = false ∧ isNameChar c = false := by
    intro c hc
    obtain rfl : d.quote = c := by simpa using hc
    rcases isQuote_iff.1 h.quote with hq | hq <;> rw [hq] <;> decide
  rw [body, List.append_assoc, Lexeme.ofText_append (isQuote_of_mem_head h) hstop,
    List.cons_append, Lexeme.ofText_cons, Lexeme.first_quote h.quote,
    Value.upToQuote?_of_isWritten (ne_of_isQuote h.quote rfl) h.raw]

/-- The text before the quoted value, as `beforeQuoted` takes it from the lexemes, is the head of
the declaration. -/
theorem textOf_beforeQuoted {d : Declaration} (h : d.WellFormed) :
    Lexeme.textOf (Lexeme.beforeQuoted (Lexeme.ofText d.body)) = d.head := by
  rw [ofText_body h, Lexeme.beforeQuoted_append
    fun l hl => Lexeme.ne_quoted_of_mem_ofText (isQuote_of_mem_head h) hl]
  exact Lexeme.textOf_ofText d.head

/-- Another value put between the quotes by `requote` changes the written form and nothing else. -/
theorem textOf_requote {d : Declaration} (h : d.WellFormed) (f : Char → Text) :
    Lexeme.textOf ((Lexeme.ofText d.body).map (Lexeme.requote f)) =
      { d with raw := f d.quote }.body := by
  have hhead := Lexeme.textOf_ofText d.head
  have htail := Lexeme.textOf_ofText d.tail
  rw [ofText_body h, List.map_append, List.map_cons,
    Lexeme.map_requote_of_ne fun l hl => Lexeme.ne_quoted_of_mem_ofText (isQuote_of_mem_head h) hl,
    Lexeme.map_requote_of_ne fun l hl => Lexeme.ne_quoted_of_mem_ofText (isQuote_of_mem_tail h) hl]
  rw [Lexeme.textOf] at hhead htail ⊢
  rw [List.flatMap_append, List.flatMap_cons, hhead, htail]
  simp [body, Lexeme.requote, Lexeme.text]

end Declaration

end Transclude
