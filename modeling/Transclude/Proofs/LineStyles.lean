import Mathlib.Data.List.Basic
import Transclude.Proofs.Excerpts
import Transclude.Proofs.LineEnds

/-!
# The line ends of a document

Whether a document ends its lines with line feeds, with carriage returns or with both does not
matter for what it says: with unified line ends it has the same directives, in the same order, and
the written values are the same but for their line ends.

The one exception is a backslash before a carriage return. In a quoted value a backslash takes the
next character with it, whatever it is, but it must not stand before a line feed. So a declaration
with a backslash before a carriage return in its value (`Value.escapesReturn`) is none any more when
line ends are unified. Every other directive stays one (`Piece.directive?_unify`).

Main statement: `Token.directives_unify_iff`, the directives are the same exactly when no
declaration has such a value, and then so are the variables and the blocks.
-/

namespace Transclude

namespace Directive

/-! ## Include markers -/

/-- The lexemes of an include marker are its word and a name in parentheses, and then any others. -/
theorem ofLexemes?_eq_includeFile_iff {ls : List Lexeme} {name : Text} :
    ofLexemes? ls = some (includeFile name) ↔
      ∃ tail, ls = .word includeWord :: .openParen :: .word name :: .closeParen :: tail := by
  constructor
  · intro h
    unfold ofLexemes? at h
    split at h
    · simp at h
    · next w n tail =>
      split at h
      · next hw =>
        obtain rfl := includeFile.inj (Option.some.inj h)
        exact ⟨tail, by rw [hw]⟩
      · split at h
        · simp at h
        · split at h <;> simp at h
        · cases h
    · cases h
  · rintro ⟨tail, rfl⟩
    unfold ofLexemes?
    exact if_pos rfl

theorem isName_includeWord : isName includeWord = true := by decide

/-- **What an include marker is**: its word with a name in parentheses. Anything may follow. -/
theorem ofBody?_eq_includeFile_iff {b name : Text} :
    ofBody? b = some (includeFile name) ↔ ∃ t x, IsCall includeWord name t ∧ b = t ++ ')' :: x := by
  show ofLexemes? (Lexeme.significantOf b) = _ ↔ _
  rw [ofLexemes?_eq_includeFile_iff]
  constructor
  · rintro ⟨tail, hls⟩
    obtain ⟨t, x, ht, hb, -⟩ := exists_call_of_significantOf hls
    exact ⟨t, x, ht, hb⟩
  · rintro ⟨t, x, ht, rfl⟩
    exact ⟨_, significantOf_call isName_includeWord ht x⟩

/-- Include markers stay what they are under `unifyLineEnds`, and nothing becomes one. -/
theorem ofBody?_unify_includeFile {b name : Text} :
    ofBody? (Text.unifyLineEnds b) = some (includeFile name) ↔
      ofBody? b = some (includeFile name) := by
  rw [ofBody?_eq_includeFile_iff, ofBody?_eq_includeFile_iff]
  constructor
  · rintro ⟨t, x, ht, hb⟩
    obtain ⟨t', y, ht', hb', -⟩ := exists_isCall_of_unify isName_includeWord ht hb
    exact ⟨t', y, ht', hb'⟩
  · rintro ⟨t, x, ht, rfl⟩
    exact ⟨_, _, isCall_unify isName_includeWord ht, Text.unify_append_char (by decide) t x⟩

end Directive

/-! ## Declarations -/

namespace Declaration

/-- The declaration with unified line ends. -/
def unify (d : Declaration) : Declaration :=
  { d with
    head := Text.unifyLineEnds d.head
    raw := Text.unifyLineEnds d.raw
    tail := Text.unifyLineEnds d.tail }

/-- The body of a declaration with unified line ends is that of `d.unify`, which has unified gaps
and a unified value. -/
theorem unify_body {d : Declaration} (h : d.WellFormed) :
    Text.unifyLineEnds d.body = d.unify.body := by
  have hquote := isInk_quote h.quote
  rw [body, List.append_assoc, List.cons_append, Text.unify_append_char hquote,
    Text.unify_append_char hquote]
  simp [body, unify]

/-- The declaration `d.unify` is well formed, if no carriage return is escaped in the value of
`d`. -/
theorem WellFormed.unify {d : Declaration} (h : d.WellFormed)
    (hraw : Value.escapesReturn d.raw = false) : d.unify.WellFormed where
  head := by
    obtain ⟨t, g₄, g₅, ht, h₄, h₅, hhead⟩ := isHead_iff.1 h.head
    refine isHead_iff.2 ⟨_, _, _, Directive.isCall_unify isName_declarationWord ht, isGap_unify h₄,
      isGap_unify h₅, ?_⟩
    show Text.unifyLineEnds d.head = _
    rw [hhead, Text.unify_append_char (by decide), Text.unify_append_char (by decide)]
  quote := h.quote
  raw := (Value.isWritten_unify_iff h.quote).2 ⟨h.raw, hraw⟩
  tail := isGap_unify h.tail

end Declaration

/-! ## Directives -/

namespace Directive

/-- The directive with unified line ends in its written value. -/
def unify : Directive → Directive
  | declaration name quote raw => declaration name quote (Text.unifyLineEnds raw)
  | d => d

/-- Whether a carriage return is escaped in its written value. -/
def escapesReturn : Directive → Bool
  | declaration _ _ raw => Value.escapesReturn raw
  | _ => false

end Directive

namespace Piece

/-- **Every directive stays one** under `Piece.unify`, unless it is a declaration with an escaped
carriage return. -/
theorem directive?_unify {p : Piece} (h : ∀ d ∈ p.directive?, d.escapesReturn = false) :
    p.unify.directive? = p.directive?.map Directive.unify := by
  cases p with
  | plain t => rfl
  | comment body =>
    show Directive.ofBody? (Text.unifyLineEnds body) = (Directive.ofBody? body).map _
    cases hd : Directive.ofBody? body with
    | some d =>
      cases d with
      | declaration name quote raw =>
        obtain ⟨d, hwell, rfl, rfl, rfl, rfl⟩ := Directive.exists_of_ofBody? hd
        rw [Declaration.unify_body hwell]
        exact Directive.ofBody?_body (hwell.unify (h _ hd))
      | opening kind name => exact (Directive.ofBody?_unify (.inl ⟨kind, name, rfl⟩)).2 hd
      | closing kind => exact (Directive.ofBody?_unify (.inr ⟨kind, rfl⟩)).2 hd
      | includeFile name => exact Directive.ofBody?_unify_includeFile.2 hd
    | none =>
      -- what is a directive afterwards was one before
      have hnone {d : Directive} (hbefore : Directive.ofBody? body = some d) : False := by
        rw [hd] at hbefore
        cases hbefore
      cases hu : Directive.ofBody? (Text.unifyLineEnds body) with
      | none => rfl
      | some d =>
        cases d with
        | declaration name quote raw =>
          have hp : (comment body).directive? = none := hd
          have hno : (comment (Text.unifyLineEnds body)).declaration? = none :=
            declaration?_unify hp
          rw [declaration?, directive?, hu] at hno
          cases hno
        | opening kind name =>
          exact (hnone ((Directive.ofBody?_unify (.inl ⟨kind, name, rfl⟩)).1 hu)).elim
        | closing kind => exact (hnone ((Directive.ofBody?_unify (.inr ⟨kind, rfl⟩)).1 hu)).elim
        | includeFile name => exact (hnone (Directive.ofBody?_unify_includeFile.1 hu)).elim

/-- Name and written value of a declaration are kept with it, the value with unified line ends. -/
theorem declaration?_unify_map {p : Piece} (h : ∀ d ∈ p.directive?, d.escapesReturn = false) :
    p.unify.declaration? = p.declaration?.map fun d => (d.1, Text.unifyLineEnds d.2) := by
  rw [declaration?, declaration?, directive?_unify h]
  cases p.directive? with
  | none => rfl
  | some d => cases d <;> rfl

/-- The text of the unified pieces is the unified text, since a line end never reaches over a
mark. -/
theorem textOf_unify : ∀ {ps : List Piece}, Shaped ps →
    textOf (ps.map unify) = Text.unifyLineEnds (textOf ps)
  | [plain t], _ => by simp [unify, text]
  | plain t :: comment body :: ps, ⟨_, hps⟩ => by
    have hrest : textOf (ps.map unify) = Text.unifyLineEnds (textOf ps) := textOf_unify hps
    have hopener : Text.NoFeed ((comment body).text ++ textOf ps) := Text.noFeed_cons (by decide) _
    rw [List.map_cons, List.map_cons, textOf_cons, textOf_cons, textOf_cons, textOf_cons, hrest,
      text, Text.unify_append hopener, unify_comment_append]
    rfl

end Piece

/-! ## Blocks -/

namespace Block

/-- Names and bodies of the blocks of a kind in a row of pieces, and the name of one that is never
closed. `inside` is the name of the block that is open, with the pieces of its body so far. -/
def contentsFrom (kind : BlockKind) :
    (inside : Option (Text × List Piece)) → List Piece → List (Text × Text) × Option Text
  | inside, [] => ([], inside.map Prod.fst)
  | none, p :: ps => contentsFrom kind ((p.opening? kind).map fun name => (name, [])) ps
  | some (name, body), p :: ps =>
    if p.closes kind then
      let (blocks, last) := contentsFrom kind none ps
      ((name, Piece.textOf body) :: blocks, last)
    else contentsFrom kind (some (name, body ++ [p])) ps

/-- Names and bodies of the blocks of a kind in a document, and the name of one that is never
closed. -/
def contents (kind : BlockKind) (t : Text) : List (Text × Text) × Option Text :=
  ((paired kind t).1.map fun b => (b.name, b.body t), (paired kind t).2.map (·.name))

/-- A reader of blocks stands before the pieces `ps`, outside any block or behind an opening marker
and the pieces of a body. -/
def Reading (t : Text) (here : Place) (ps : List Piece) : Option (Opening × List Piece) → Prop
  | none => ∃ a, t = a ++ Piece.textOf ps ∧ here.offset = Text.width a
  | some (o, body) => ∃ a, t = a ++ (Piece.textOf body ++ Piece.textOf ps) ∧
      o.span.stop = Text.width a ∧ here.offset = Text.width (a ++ Piece.textOf body)

/-- The body of a block is what stands between its markers. The pieces read since the opening marker
are those of the slice from there on (`Reading`). -/
theorem contentsFrom_eq {t : Text} {kind : BlockKind} {here : Place} {ps : List Piece}
    {inside : Option (Opening × List Piece)} (h : Reading t here ps inside) :
    contentsFrom kind (inside.map fun o => (o.1.name, o.2)) ps =
      ((pairedFrom kind here (inside.map Prod.fst) ps).1.map fun b => (b.name, b.body t),
        (pairedFrom kind here (inside.map Prod.fst) ps).2.map (·.name)) := by
  induction ps generalizing here inside with
  | nil => cases inside <;> rfl
  | cons p ps ih =>
    cases inside with
    | none =>
      obtain ⟨a, ht, hoffset⟩ := h
      rw [Piece.textOf_cons, ← List.append_assoc] at ht
      have hwidth := Place.offset_after hoffset p.text
      show contentsFrom kind none (p :: ps) = _
      rw [contentsFrom, Option.map_none, pairedFrom, Opening.ofPiece?]
      cases p.opening? kind with
      | none =>
        have hreading : Reading t (here.after p.text) ps none := ⟨a ++ p.text, ht, hwidth⟩
        exact ih hreading
      | some name =>
        have hreading : Reading t (here.after p.text) ps
            (some (⟨name, here.span p.text, here.line⟩, [])) :=
          ⟨a ++ p.text, ht, hwidth, by rw [Piece.textOf_nil, List.append_nil]; exact hwidth⟩
        exact ih hreading
    | some o =>
      obtain ⟨o, body⟩ := o
      obtain ⟨a, ht, hstop, hoffset⟩ := h
      rw [Piece.textOf_cons] at ht
      show contentsFrom kind (some (o.name, body)) (p :: ps) = _
      rw [contentsFrom, Option.map_some, pairedFrom]
      split
      · -- the closing marker, and the body up to it
        have hreading : Reading t (here.after p.text) ps none :=
          ⟨a ++ Piece.textOf body ++ p.text, by rw [ht]; simp, Place.offset_after hoffset p.text⟩
        have hbody : Text.slice t o.span.stop here.offset = Piece.textOf body := by
          rw [ht, hstop, hoffset, Text.width_append]
          exact Text.slice_append a _ _
        have hrest := ih hreading
        rw [Option.map_none, Option.map_none] at hrest
        rw [hrest, ← hbody]
        rfl
      · have hreading : Reading t (here.after p.text) ps (some (o, body ++ [p])) := by
          refine ⟨a, ?_, hstop, ?_⟩
          · rw [ht]
            simp
          · rw [Piece.textOf_append, ← List.append_assoc]
            simpa using Place.offset_after hoffset p.text
        exact ih hreading

theorem contents_eq (kind : BlockKind) (t : Text) :
    contents kind t = contentsFrom kind none (Piece.ofText t) := by
  have h : Reading t .first (Piece.ofText t) none := ⟨[], (Piece.textOf_ofText t).symm, rfl⟩
  exact (contentsFrom_eq h).symm

/-- The contents with unified line ends. -/
def unifyContents (c : List (Text × Text) × Option Text) : List (Text × Text) × Option Text :=
  (c.1.map fun b => (b.1, Text.unifyLineEnds b.2), c.2)

/-- A reader of blocks stands in pieces of the right shape. -/
def Within (ps : List Piece) : Option (Text × List Piece) → Prop
  | none => ∃ l, Piece.Shaped (l ++ ps)
  | some (_, body) => Piece.Shaped (body ++ ps)

/-- The blocks of the unified pieces are those of the pieces, with unified bodies. -/
theorem contentsFrom_unify {kind : BlockKind} {ps : List Piece}
    {inside : Option (Text × List Piece)} (h : Within ps inside) :
    contentsFrom kind (inside.map fun o => (o.1, o.2.map Piece.unify)) (ps.map Piece.unify) =
      unifyContents (contentsFrom kind inside ps) := by
  fun_induction contentsFrom kind inside ps with
  | case1 inside => cases inside <;> rfl
  | case2 p ps ih =>
    obtain ⟨l, hl⟩ := h
    rw [List.map_cons, Option.map_none, contentsFrom, Piece.opening?_unify]
    cases ho : p.opening? kind with
    | none =>
      rw [ho] at ih
      have hwithin : Within ps none := ⟨l ++ [p], by simpa using hl⟩
      exact ih hwithin
    | some name =>
      rw [ho] at ih
      obtain ⟨marker, rfl⟩ := exists_comment_of_opening ho
      have hwithin : Within ps (some (name, [])) := (Piece.shaped_split hl).2
      exact ih hwithin
  | case3 name body p ps hc blocks last hrest ih =>
    obtain ⟨marker, rfl⟩ := exists_comment_of_closes hc
    obtain ⟨hbody, hps⟩ := Piece.shaped_split h
    have hwithin : Within ps none := ⟨[], hps⟩
    have ih := ih hwithin
    rw [hrest, Option.map_none] at ih
    rw [List.map_cons, Option.map_some, contentsFrom, Piece.closes_unify, if_pos hc, ih,
      Piece.textOf_unify hbody]
    rfl
  | case4 name body p ps hc ih =>
    have hwithin : Within ps (some (name, body ++ [p])) := by
      show Piece.Shaped _
      rw [List.append_assoc]
      exact h
    rw [List.map_cons, Option.map_some, contentsFrom, Piece.closes_unify, if_neg hc]
    have ih := ih hwithin
    rw [Option.map_some, List.map_append] at ih
    exact ih

end Block

/-! ## The whole document -/

namespace Token

/-- The directives of the tokens are those of the pieces, wherever these begin. -/
theorem map_directive_ofPieces (n : Nat) (ps : List Piece) :
    (ofPieces n ps).map directive = ps.filterMap Piece.directive? := by
  induction ps generalizing n with
  | nil => rfl
  | cons p ps ih =>
    cases p with
    | plain t => exact ih _
    | comment body =>
      show (ofPieces n (Piece.comment body :: ps)).map directive = _
      rw [ofPieces, List.filterMap_cons, Piece.directive?]
      cases Directive.ofBody? body with
      | none => exact ih _
      | some d => rw [List.map_cons, ih]

/-- The directives of a document, in their order. -/
def directives (t : Text) : List Directive := (ofText t).map directive

theorem directives_eq (t : Text) : directives t = (Piece.ofText t).filterMap Piece.directive? :=
  map_directive_ofPieces 0 _

end Token

/-- No declaration of the document has an escaped carriage return in its value. -/
def Text.KeepsReturns (t : Text) : Prop := ∀ d ∈ Token.directives t, d.escapesReturn = false

instance (t : Text) : Decidable t.KeepsReturns :=
  inferInstanceAs (Decidable (∀ d ∈ Token.directives t, d.escapesReturn = false))

/-- In a text that `KeepsReturns` no piece is a declaration with an escaped carriage return. -/
theorem Piece.keeps_of_mem {t : Text} (h : t.KeepsReturns) {p : Piece} (hp : p ∈ ofText t) :
    ∀ d ∈ p.directive?, d.escapesReturn = false := by
  intro d hd
  refine h d ?_
  rw [Token.directives_eq]
  exact List.mem_filterMap.2 ⟨p, hp, hd⟩

theorem Piece.ofText_unify_of_keeps {t : Text} (h : t.KeepsReturns) :
    ofText (Text.unifyLineEnds t) = (ofText t).map unify := by
  refine ofText_unify fun p hp hdecl => ?_
  rw [isDeclaration, declaration?_unify_map (keeps_of_mem h hp), Option.isSome_map]
  exact hdecl

namespace Token

/-- What is a declaration afterwards has no escaped carriage return in its value. So if all
directives stay, the text `KeepsReturns`. -/
theorem keeps_of_directives_unify {t : Text}
    (h : directives (Text.unifyLineEnds t) = (directives t).map Directive.unify) :
    t.KeepsReturns := by
  intro d hd
  have hunified : d.unify ∈ directives (Text.unifyLineEnds t) := by
    rw [h]
    exact List.mem_map.2 ⟨d, hd, rfl⟩
  cases d with
  | declaration name quote raw =>
    obtain ⟨k, hk, hdirective⟩ := List.mem_map.1 hd
    obtain ⟨k', hk', hdirective'⟩ := List.mem_map.1 hunified
    have hbody := (wellFormed_of_mem hk).directive
    have hbody' := (wellFormed_of_mem hk').directive
    rw [hdirective] at hbody
    rw [hdirective', Directive.unify] at hbody'
    obtain ⟨e, he, -, rfl, rfl, rfl⟩ := Directive.exists_of_ofBody? hbody
    obtain ⟨e', he', -, -, hquote, hraw⟩ := Directive.exists_of_ofBody? hbody'
    have hwritten := he'.raw
    rw [hquote, hraw] at hwritten
    exact ((Value.isWritten_unify_iff he.quote).1 hwritten).2
  | opening kind name => rfl
  | closing kind => rfl
  | includeFile name => rfl

/-- **Line ends do not change what a document says.** With unified line ends it has the same
directives in the same order, and the written values with unified line ends, exactly when it
`KeepsReturns`: no backslash stands before a carriage return in the value of a declaration. Then
it also declares the same variables, and has the same blocks, with unified line ends in their
bodies. -/
theorem directives_unify_iff (t : Text) :
    (directives (Text.unifyLineEnds t) = (directives t).map Directive.unify ↔ t.KeepsReturns) ∧
      (t.KeepsReturns →
        Variables.declared (Piece.ofText (Text.unifyLineEnds t)) =
            ((Piece.ofText t).filterMap Piece.declaration?).map
              (fun d => (d.1, Value.decode (Text.unifyLineEnds d.2))) ∧
          ∀ kind, Block.contents kind (Text.unifyLineEnds t) =
            Block.unifyContents (Block.contents kind t)) := by
  refine ⟨⟨keeps_of_directives_unify, fun h => ?_⟩, fun h => ⟨?_, fun kind => ?_⟩⟩
  · rw [directives_eq, directives_eq, Piece.ofText_unify_of_keeps h, List.filterMap_map,
      List.map_filterMap]
    exact List.filterMap_congr fun p hp => Piece.directive?_unify (Piece.keeps_of_mem h hp)
  · have hdeclared : (Piece.ofText (Text.unifyLineEnds t)).filterMap Piece.declaration? =
        ((Piece.ofText t).filterMap Piece.declaration?).map
          fun d => (d.1, Text.unifyLineEnds d.2) := by
      rw [Piece.ofText_unify_of_keeps h, List.filterMap_map, List.map_filterMap]
      exact List.filterMap_congr fun p hp =>
        Piece.declaration?_unify_map (Piece.keeps_of_mem h hp)
    rw [Variables.declared, hdeclared, List.map_map]
    rfl
  · have hwithin : Block.Within (Piece.ofText t) none := ⟨[], Piece.shaped_ofText t⟩
    rw [Block.contents_eq, Block.contents_eq, Piece.ofText_unify_of_keeps h]
    exact Block.contentsFrom_unify hwithin

/-- A document with line ends of all kinds, one of them in a value. -/
def mixedText : Text :=
  "<!-- begin-ref(a)\r\n-->x\r<!-- var(y)=\"1\r\n2\" -->\n<!-- end-ref -->".toList

theorem directives_unify_mixedText :
    mixedText.KeepsReturns ∧
      directives (Text.unifyLineEnds mixedText) =
        [.opening .ref ['a'], .declaration ['y'] '"' ['1', '\n', '2'], .closing .ref] ∧
      Variables.declared (Piece.ofText (Text.unifyLineEnds mixedText)) =
        [(['y'], ['1', '\n', '2'])] ∧
      Block.contents .ref (Text.unifyLineEnds mixedText) =
        ([(['a'], "x\n<!-- var(y)=\"1\n2\" -->\n".toList)], none) := by
  obtain ⟨hiff, hsame⟩ := directives_unify_iff mixedText
  have hkeeps : mixedText.KeepsReturns := by decide +kernel
  obtain ⟨hdeclared, hcontents⟩ := hsame hkeeps
  refine ⟨hkeeps, ?_, ?_, ?_⟩
  · rw [hiff.2 hkeeps]
    decide +kernel
  · rw [hdeclared]
    decide +kernel
  · rw [hcontents]
    decide +kernel

/-- A document with a backslash before a line end in a value, written with a carriage return. -/
def returnText : Text := "<!-- var(x)=\"a\\\r\nb\" -->".toList

/-- With unified line ends `returnText` declares nothing: a backslash must not stand before a line
feed. -/
theorem directives_unify_returnText :
    directives returnText = [.declaration ['x'] '"' "a\\\r\nb".toList] ∧
      Variables.get? returnText ['x'] = some "a\\\r\nb".toList ∧
      directives (Text.unifyLineEnds returnText) = [] ∧
      Variables.get? (Text.unifyLineEnds returnText) ['x'] = none := by
  refine ⟨?_, ?_, ?_, ?_⟩
  · decide +kernel
  · decide +kernel
  · decide +kernel
  · decide +kernel

end Token

end Transclude
