import Transclude.Proofs.Store
import Transclude.Proofs.LineStyles

/-!
# A declaration in front of a document

A declaration that is written in front of a text is the first thing that is read there: whatever its
value holds, the reader of declarations stops at its closer, and behind it the text is read as if it
stood alone. So the tokens are that of the declaration and those of the text, which have moved by as
many bytes as stand before them (`Token.ofText_front`). A gap between the two changes nothing else,
for no opener begins in a gap (`Piece.ofText_gap`).

The parts of a declaration that agree on this are the encoder of values, the two readers of quoted
values and the three grammars of names; `Declaration.spaced` writes a declaration with any gaps
between its parts.

Main statements:
- `Declaration.reads_back`: what is written as a declaration reads back, part by part.
- `Variables.set_first`: a variable that is new in a document without include markers is declared in
  front of it. The rest stays as it is, and the declaration can be changed and taken out again.
-/

namespace Transclude

/-- The span behind `n` more bytes. -/
def Span.moved (n : Nat) (s : Span) : Span := ⟨n + s.start, n + s.stop⟩

namespace Declaration

/-- A declaration with a gap at each of the seven places where one can stand. -/
def spaced (gap : Fin 7 → Text) (name : Text) (quote : Char) (value : Text) : Declaration where
  head := gap 0 ++ (declarationWord ++ (gap 1 ++
    '(' :: (gap 2 ++ (name ++ (gap 3 ++ ')' :: (gap 4 ++ '=' :: gap 5))))))
  name := name
  quote := quote
  raw := Value.encode quote value
  tail := gap 6

/-- A declaration with any gaps between its parts is well formed, for every value. -/
theorem wellFormed_spaced {gap : Fin 7 → Text} (hgap : ∀ i, IsGap (gap i)) {name : Text}
    (hname : isName name = true) {quote : Char} (hquote : isQuote quote = true) (value : Text) :
    (spaced gap name quote value).WellFormed where
  head := ⟨_, _, _, _, _, _, ⟨hgap 0, hgap 1, hgap 2, hgap 3, hgap 4, hgap 5⟩, hname, rfl⟩
  quote := hquote
  raw := Value.isWritten_encode hquote value
  tail := hgap 6

end Declaration

/-! ## Text that moves -/

namespace Piece

/-- A gap `g` in front of a row adds no stray opener, since it has no openers. -/
theorem strays_prepend {g : Text} (hg : IsGap g) {ps : List Piece} (hps : Shaped ps) {s : Text}
    (h : s ∈ strays (prepend g ps)) : s ∈ strays ps := by
  match ps, hps with
  | plain t :: ps, _ =>
    rw [prepend, mem_strays_plain] at h
    rw [mem_strays_plain]
    apply h.imp_left
    intro ⟨b, hb, hs⟩
    exact ⟨b, opener_suffix_of_gap hg hb, hs⟩

/-- **A gap in front of a text** is read as a gap in front of what the text is read as. -/
theorem ofText_gap {g : Text} (hg : IsGap g) (t : Text) :
    ofText (g ++ t) = prepend g (ofText t) := by
  have hshaped := shaped_ofText t
  have hread := ofText_of_shaped (shaped_prepend hg hshaped) fun s hs =>
    read?_of_mem_strays (strays_prepend hg hshaped hs)
  rw [textOf_prepend, textOf_ofText] at hread
  exact hread

/-- A declaration `d` in front of a text, with a gap `g` between the two, is read as itself, and the
text behind it as it would be alone. -/
theorem ofText_front {d : Declaration} (hd : d.WellFormed) {g : Text} (hg : IsGap g) (t : Text) :
    ofText ((comment d.body).text ++ (g ++ t)) =
      plain [] :: comment d.body :: prepend g (ofText t) := by
  have hread : Declaration.read? (d.body ++ closer ++ (g ++ t)) = some (d, g ++ t) :=
    Declaration.read?_eq_some_iff.2 ⟨hd, rfl⟩
  have htext : (comment d.body).text ++ (g ++ t) = opener ++ (d.body ++ closer ++ (g ++ t)) := by
    rw [text, List.append_assoc, List.append_assoc, List.append_assoc]
  rw [htext, ofText_of_read? hread, ofText_gap hg]

end Piece

namespace Token

/-- The token behind `n` more bytes. -/
def moved (n : Nat) (k : Token) : Token := { k with start := n + k.start }

theorem span_moved (n : Nat) (k : Token) : (k.moved n).span = k.span.moved n := by
  show Span.mk _ _ = Span.mk _ _
  rw [moved, Nat.add_assoc]
  rfl

theorem valueSpan_moved (n : Nat) (k : Token) (quote : Char) (raw : Text) :
    (k.moved n).valueSpan quote raw = (k.valueSpan quote raw).moved n := by
  unfold valueSpan Place.span Span.moved moved
  dsimp only
  rw [Nat.add_assoc, Nat.add_assoc, Nat.add_assoc]

/-- Pieces that begin `n` bytes later have their tokens moved by `n`. -/
theorem ofPieces_add (n m : Nat) (ps : List Piece) :
    ofPieces (n + m) ps = (ofPieces m ps).map (moved n) := by
  induction ps generalizing m with
  | nil => rfl
  | cons p ps ih =>
    have hrest := ih (m + Text.width p.text)
    rw [← Nat.add_assoc] at hrest
    unfold ofPieces
    rw [hrest]
    cases p with
    | plain t => rfl
    | comment body =>
      dsimp only
      cases Directive.ofBody? body <;> rfl

/-- A gap in front moves the tokens by its width, and has none of its own. -/
theorem ofPieces_prepend (n : Nat) (g : Text) (ps : List Piece) :
    ofPieces n (Piece.prepend g ps) = ofPieces (n + Text.width g) ps := by
  unfold Piece.prepend
  split
  · next t ps =>
    show ofPieces (n + Text.width (g ++ t)) ps = ofPieces (n + Text.width g + Text.width t) ps
    rw [Text.width_append, Nat.add_assoc]
  · rfl

/-- The token of a declaration that the document begins with. -/
def front (d : Declaration) : Token := ⟨.declaration d.name d.quote d.raw, d.body, 0⟩

/-- **The tokens behind a declaration** are those of the text alone, moved by what stands before
it. -/
theorem ofText_front {d : Declaration} (hd : d.WellFormed) {g : Text} (hg : IsGap g) (t : Text) :
    ofText ((Piece.comment d.body).text ++ (g ++ t)) =
      front d :: (ofText t).map (moved (Text.width ((Piece.comment d.body).text ++ g))) := by
  have hempty : Text.width (Piece.plain []).text = 0 := rfl
  rw [ofText, Piece.ofText_front hd hg, ofPieces, ofPieces, Directive.ofBody?_body hd]
  dsimp only
  rw [hempty, Nat.zero_add, Nat.zero_add, ofPieces_prepend, Text.width_append, ofText,
    ← ofPieces_add, Nat.add_zero]
  rfl

/-- The first token, `front d`, covers the whole comment. -/
theorem span_front (d : Declaration) :
    (front d).span = ⟨0, Text.width (Piece.comment d.body).text⟩ := by
  show Span.mk 0 (0 + _) = _
  rw [Nat.zero_add]
  rfl

/-- The value of the token `front d` is the quoted part of the declaration, which stands behind its
`head`. -/
theorem valueSpan_front {d : Declaration} (hd : d.WellFormed) :
    (front d).valueSpan d.quote d.raw =
      ⟨Text.width (opener ++ d.head),
        Text.width (opener ++ d.head) + Text.width (d.quote :: d.raw ++ [d.quote])⟩ := by
  have hspan := valueSpan_eq hd (.declaration d.name d.quote d.raw) 0
  rw [Nat.zero_add] at hspan
  exact hspan

/-- A directive that no token has is that of no piece. -/
theorem directive?_ne_of_tokens {t : Text} {d : Directive} (h : ∀ k ∈ ofText t, k.directive ≠ d) :
    ∀ p ∈ Piece.ofText t, p.directive? ≠ some d := by
  intro p hp hd
  have hmem : d ∈ directives t := by
    rw [directives_eq]
    exact List.mem_filterMap.2 ⟨p, hp, hd⟩
  obtain ⟨k, hk, hkd⟩ := List.mem_map.1 hmem
  exact h k hk hkd

end Token

/-! ## What is written reads back -/

namespace Declaration

/-- The reader of bytes stops behind a declaration at the beginning of a text, whatever the
`rest`. -/
theorem stopAt?_front {d : Declaration} (hd : d.WellFormed) (rest : Text) :
    stopAt? ((Piece.comment d.body).text ++ rest) 0 =
      some (Text.width (Piece.comment d.body).text) := by
  have hstop := Piece.stopAt?_comment [] d.body rest
  rw [read?_eq_some_iff.2 ⟨hd, (List.append_assoc _ _ _).symm⟩] at hstop
  refine hstop.trans (congrArg some ?_)
  show Text.width (_ ++ rest) - Text.width rest = _
  rw [Text.width_append, Nat.add_sub_cancel]

/-- **A written declaration reads back.** A value is what its written form between either quote is
read as. Whatever the value, the gaps between the parts and the text that follows are, if the name
is a name then the first token is the declaration with that name, quote and written form, the span
of its value is that of the quoted part, its own span is what was written, and the reader of bytes
stops there; the other tokens are those of the text that follows. If the name is none, no token of a
declaration that is written for it declares it. -/
theorem reads_back {gap : Fin 7 → Text} (hgap : ∀ i, IsGap (gap i)) {quote : Char}
    (hquote : quote = '"' ∨ quote = '\'') (name value rest : Text) :
    let raw := Value.encode quote value
    let d := spaced gap name quote value
    let written := opener ++ d.body ++ closer
    let before := opener ++ d.head
    Value.decode raw = value ∧
    (isName name = true →
      ∃ k, Token.ofText (written ++ rest) =
          k :: (Token.ofText rest).map (Token.moved (Text.width written)) ∧
        k.directive = .declaration name quote raw ∧
        k.span = ⟨0, Text.width written⟩ ∧
        k.valueSpan quote raw =
          ⟨Text.width before, Text.width before + Text.width (quote :: raw ++ [quote])⟩ ∧
        stopAt? (written ++ rest) 0 = some (Text.width written)) ∧
    (isName name = false →
      ∀ k ∈ Token.ofText (Variables.declarationText name value), ∀ quote raw,
        k.directive ≠ .declaration name quote raw) := by
  intro raw d written before
  refine ⟨Value.decode_encode hquote value, ?_, ?_⟩
  · intro hname
    have hd : d.WellFormed := wellFormed_spaced hgap hname (isQuote_iff.2 hquote) value
    have htokens := Token.ofText_front hd isGap_nil rest
    rw [List.nil_append, List.append_nil] at htokens
    exact ⟨Token.front d, htokens, rfl, Token.span_front d, Token.valueSpan_front hd,
      stopAt?_front hd rest⟩
  · intro hname k hk quote raw hdirective
    -- a token has only names that are names
    have hvalid := (Token.wellFormed_of_mem hk).name name (by rw [hdirective]; rfl)
    rw [hname] at hvalid
    cases hvalid

/-- The gaps of a declaration on several lines. -/
def gapsAcross : Fin 7 → Text
  | 0 => ['\n']
  | 1 => [' ']
  | 2 => ['\t']
  | 3 => []
  | 4 => [' ', ' ']
  | 5 => ['\r', '\n']
  | 6 => ['\n']

/-- The case of a value that holds a quote, a line feed and both marks of a comment. -/
theorem reads_back_across :
    let value := "it's\n--> é <!--".toList
    let d := spaced gapsAcross ['n'] '\'' value
    (∀ i, IsGap (gapsAcross i)) ∧ isName ['n'] = true ∧ Value.decode d.raw = value ∧
      ∃ k, (Token.ofText (opener ++ d.body ++ closer ++ "-->".toList)).head? = some k ∧
        k.directive = .declaration ['n'] '\'' d.raw := by
  have hgap : ∀ i, IsGap (gapsAcross i) := by
    intro i
    rw [isGap_iff]
    revert i
    decide
  have hback := reads_back hgap (.inr rfl) ['n'] "it's\n--> é <!--".toList "-->".toList
  obtain ⟨k, htokens, hdirective, -⟩ := hback.2.1 rfl
  refine ⟨hgap, rfl, hback.1, k, ?_, hdirective⟩
  rw [htokens]
  rfl

end Declaration

/-! ## A new variable -/

namespace Variables

open Piece

variable {t name : Text}

/-- Without a piece of the kind there is no last one. -/
theorem splitAfterLast?_eq_none {f : Piece → Bool} {ps : List Piece} (h : ∀ p ∈ ps, f p = false) :
    splitAfterLast? f ps = none := by
  induction ps with
  | nil => rfl
  | cons p ps ih =>
    rw [splitAfterLast?, ih fun q hq => h q (List.mem_cons_of_mem p hq)]
    simp [h p List.mem_cons_self]

theorem not_isIncludeMarker_of_tokens
    (h : ∀ k ∈ Token.ofText t, ∀ file, k.directive ≠ .includeFile file) :
    ∀ p ∈ ofText t, p.isIncludeMarker = false := by
  intro p hp
  unfold isIncludeMarker
  split
  · next file hd => exact absurd hd (Token.directive?_ne_of_tokens (fun k hk => h k hk file) p hp)
  · rfl

/-- A document without tokens of declarations of `name` has no pieces that declare it. -/
theorem not_declares_of_tokens
    (h : ∀ k ∈ Token.ofText t, ∀ quote raw, k.directive ≠ .declaration name quote raw) :
    ∀ p ∈ ofText t, p.declares name = false := by
  intro p hp
  cases hdeclares : p.declares name with
  | false => rfl
  | true =>
    obtain ⟨d, hd, rfl, rfl⟩ := exists_of_declares hdeclares
    exact absurd (Directive.ofBody?_body hd)
      (Token.directive?_ne_of_tokens (fun k hk => h k hk d.quote d.raw) _ hp)

/-- The text of a new declaration is that of the slot, with its value. -/
theorem text_new (hname : isName name = true) (value : Text) :
    (comment ((slot name).withValue value).body).text = declarationText name value := by
  rw [← text_edit_slot hname]
  exact congrArg Piece.text (edit_comment (wellFormed_slot hname)).symm

/-- A new declaration goes to the front, with one or two line ends after it. -/
theorem set_new (hname : isName name = true) (hmarkers : ∀ p ∈ ofText t, p.isIncludeMarker = false)
    (hnew : ∀ p ∈ ofText t, p.declares name = false) (value : Text) :
    set t name value = .ok (declarationText name value ++ (gapBefore t ++ t)) := by
  have hnone : ¬(ofText t).any (declares name) = true := by
    rw [Bool.not_eq_true, List.any_eq_false]
    intro p hp
    rw [hnew p hp]
    exact Bool.false_ne_true
  have hcheck : checkName name = .ok () := if_pos hname
  rw [set, hcheck]
  show (if (ofText t).any (declares name) = true then _ else _) = _
  rw [if_neg hnone, insert, splitAfterLast?_eq_none hmarkers]
  dsimp only
  rw [textOf_ofText, List.nil_append, List.append_assoc]
  rfl

section

variable {g : Text} (hname : isName name = true) (hg : IsGap g)

include hname hg

/-- A document with a new declaration in front, as pieces: an empty plain one, the declaration, and
those of the document with the line ends before them. -/
theorem ofText_declarationText (t value : Text) :
    ofText (declarationText name value ++ (g ++ t)) =
      plain [] :: comment ((slot name).withValue value).body :: prepend g (ofText t) := by
  rw [← text_new hname]
  exact ofText_front ((wellFormed_slot hname).withValue value) hg t

variable (hnew : ∀ p ∈ ofText t, p.declares name = false)

include hnew

/-- Setting the variable again changes the declaration in front only. -/
theorem set_front (value value' : Text) :
    set (declarationText name value ++ (g ++ t)) name value' =
      .ok (declarationText name value' ++ (g ++ t)) := by
  have hwell := (wellFormed_slot hname).withValue value
  have hdeclares : (comment ((slot name).withValue value).body).declares name = true :=
    declares_comment hwell
  have hedit : edit name value' (comment ((slot name).withValue value).body) =
      comment ((slot name).withValue value').body := edit_comment hwell
  rw [set_eq hname, places, ofText_declarationText hname hg]
  rw [if_pos (by rw [List.any_cons, List.any_cons, hdeclares, Bool.true_or, Bool.or_true])]
  rw [List.map_cons, List.map_cons, hedit,
    map_edit_of_not_declares (not_declares_of_mem_prepend hnew), textOf_cons, textOf_cons,
    textOf_prepend, textOf_ofText, text_new hname]
  rfl

/-- Erasing the variable takes out the declaration in front only, and leaves the line ends. -/
theorem erase_front (value : Text) :
    erase (declarationText name value ++ (g ++ t)) name = .ok (g ++ t) := by
  have hplain : (plain []).declares name = false := rfl
  have hdeclares : (comment ((slot name).withValue value).body).declares name = true :=
    declares_comment ((wellFormed_slot hname).withValue value)
  have hkept :
      (prepend g (ofText t)).filter (fun p => !p.declares name) = prepend g (ofText t) := by
    rw [List.filter_eq_self]
    intro p hp
    rw [not_declares_of_mem_prepend hnew p hp]
    rfl
  rw [erase, checkName, if_pos hname, ofText_declarationText hname hg, List.filter_cons,
    List.filter_cons, hplain, hdeclares, hkept]
  show Except.ok (textOf (plain [] :: prepend g (ofText t))) = _
  rw [textOf_cons, textOf_prepend, textOf_ofText]
  rfl

end

/-- **A new variable disturbs nothing and can be undone.** In a document without include markers a
variable that is not declared there is declared in front of the document, with one line end after
the declaration if the document is empty or begins with one, and with two otherwise. The tokens are
that of the declaration and those of the document, moved by what was put in. Erasing the variable
gives the document back, but for the line ends, and setting it to another value gives what setting
it to that value in the first place would have given. -/
theorem set_first (hname : isName name = true)
    (hmarkers : ∀ k ∈ Token.ofText t, ∀ file, k.directive ≠ .includeFile file)
    (hnew : ∀ k ∈ Token.ofText t, ∀ quote raw, k.directive ≠ .declaration name quote raw)
    (value value' : Text) :
    let written := declarationText name value
    let sep : Text := if t = [] ∨ t.head? = some '\n' then ['\n'] else ['\n', '\n']
    let n := Text.width (written ++ sep)
    let raw := Value.encode '"' value
    let before := opener ++ " var(".toList ++ name ++ ")=".toList
    set t name value = .ok (written ++ (sep ++ t)) ∧
    (∃ k, Token.ofText (written ++ (sep ++ t)) = k :: (Token.ofText t).map (Token.moved n) ∧
      k.directive = .declaration name '"' raw ∧ k.span = ⟨0, Text.width written⟩ ∧
      k.valueSpan '"' raw =
        ⟨Text.width before, Text.width before + Text.width ('"' :: raw ++ ['"'])⟩) ∧
    (∀ k : Token, (k.moved n).span = k.span.moved n ∧
      ∀ quote raw, (k.moved n).valueSpan quote raw = (k.valueSpan quote raw).moved n) ∧
    erase (written ++ (sep ++ t)) name = .ok (sep ++ t) ∧
    set (written ++ (sep ++ t)) name value' = set t name value' := by
  intro written sep n raw before
  have hgap : IsGap sep := isGap_gapBefore t
  have hmarkers' := not_isIncludeMarker_of_tokens hmarkers
  have hnew' := not_declares_of_tokens hnew
  refine ⟨set_new hname hmarkers' hnew' value, ?_, ?_, ?_, ?_⟩
  · have hwell := (wellFormed_slot hname).withValue value
    have htokens := Token.ofText_front hwell hgap t
    have hspan := Token.span_front ((slot name).withValue value)
    have hbefore : opener ++ ((slot name).withValue value).head = before := by
      simp [slot, Declaration.withValue, Declaration.write, declarationWord, before]
    have hvalue := Token.valueSpan_front hwell
    rw [text_new hname] at htokens hspan
    rw [hbefore] at hvalue
    exact ⟨_, htokens, rfl, hspan, hvalue⟩
  · intro k
    exact ⟨Token.span_moved n k, fun quote raw => Token.valueSpan_moved n k quote raw⟩
  · exact erase_front hname hgap hnew' value
  · rw [set_front hname hgap hnew' value value', set_new hname hmarkers' hnew' value']
    rfl

/-- A document with an unfinished declaration, a block, and a comment that is not closed. -/
def openText : Text := "é <!-- var(x)=\"<!-- begin-ref(a) --><!-- end-ref --> <!--".toList

/-- The case of a value with both marks of a comment, in a document with openers of its own. -/
theorem set_first_openText :
    isName ['x'] = true ∧
      (∀ k ∈ Token.ofText openText, ∀ file, k.directive ≠ .includeFile file) ∧
      (∀ k ∈ Token.ofText openText, ∀ quote raw, k.directive ≠ .declaration ['x'] quote raw) ∧
      (∃ t', set openText ['x'] "--> \" <!--".toList = .ok t' ∧
        erase t' ['x'] = .ok ("\n\n".toList ++ openText)) := by
  have hdirectives : (Token.ofText openText).map Token.directive =
      [.opening .ref ['a'], .closing .ref] := by decide +kernel
  have hother {k : Token} (hk : k ∈ Token.ofText openText) {d : Directive}
      (hd : d ∉ [Directive.opening .ref ['a'], .closing .ref]) : k.directive ≠ d := by
    intro heq
    apply hd
    rw [← hdirectives, ← heq]
    exact List.mem_map_of_mem hk
  have hmarkers : ∀ k ∈ Token.ofText openText, ∀ file, k.directive ≠ .includeFile file :=
    fun k hk file => hother hk (by simp)
  have hnew : ∀ k ∈ Token.ofText openText, ∀ quote raw,
      k.directive ≠ .declaration ['x'] quote raw := fun k hk quote raw => hother hk (by simp)
  obtain ⟨hset, -, -, herase, -⟩ := set_first rfl hmarkers hnew "--> \" <!--".toList []
  exact ⟨rfl, hmarkers, hnew, _, hset, herase⟩

end Variables

end Transclude
