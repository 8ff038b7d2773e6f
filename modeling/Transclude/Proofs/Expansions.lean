import Transclude.Proofs.Fills
import Transclude.Proofs.Tokens

/-!
# Expanding include markers is splicing

`Include.expandPieces` copies a document piece by piece and asks for the content of a file at each
include marker. This file says the same without going through the document: take the include markers
that the document has (`Include.markers`), end with the first one whose answer ends the expansion
(`Include.failure?`), and otherwise splice what is shown of the content in. What is inserted is not
looked at again, for only the markers of the document are asked about.

A function that answers cannot tell who asked. So expanding is also written for answers that come
with an effect (`Include.expandVia`). With answers that leave a note of the question it comes to the
same outcome, and shows which names were asked for, and in which order (`Include.run_noting`).

The proof of each fact follows the pieces. A marker that is skipped is copied like other text, so
all the text since the last marker that was replaced waits to be copied, `x` in
`Include.map_expandPieces`.

How content is shown is up to the mode. A box is made from the lines of its content, and told by the
pieces between line feeds it has one piece for each (`Include.IsBox`), for any lead without a line
feed: such a lead adds none, so that the pieces of the box are found again.

Main statements:
- `Include.expand_splices`: the outcome of an expansion, and which names are asked for.
- `Include.box_pieces`: a box has as many pieces as its content, and what each of them is.
-/

namespace Transclude

namespace Include

/-! ## The markers -/

/-- The span of a token and the name of its file, if it is an include marker. -/
def marker? (k : Token) : Option (Span × Text) :=
  match k.directive with
  | .includeFile name => some (k.span, name)
  | _ => none

/-- The include markers of a row of pieces that begins at a given offset. -/
def markersFrom (offset : Nat) (ps : List Piece) : List (Span × Text) :=
  (Token.ofPieces offset ps).filterMap marker?

/-- The include markers of a document in their order, each with its span and the name in it. -/
def markers (t : Text) : List (Span × Text) := (Token.ofText t).filterMap marker?

/-- The names in the include markers of a row of pieces. -/
def names (ps : List Piece) : List Text := (markersFrom 0 ps).map Prod.snd

/-- The error that ends the expansion at a marker with this name, if the answer for it does. -/
def failure? (content : Text → Except Error Text) (strict : Bool) (name : Text) : Option Error :=
  match content name with
  | .ok _ => none
  | .error (.notFound _) => if strict then some (.unresolvedKey .file name) else none
  | .error e => some e

/-- What is shown in the place of each marker for which there is content. -/
def edits (content : Text → Except Error Text) (shown : Text → Text) (ms : List (Span × Text)) :
    List (Span × Text) :=
  ms.filterMap fun m =>
    match content m.2 with
    | .ok c => some (m.1, shown c)
    | .error _ => none

/-- The document `t` from byte `cursor` on with its markers replaced, or the first failure. -/
def outcome (content : Text → Except Error Text) (shown : Text → Text) (strict : Bool) (t : Text)
    (cursor : Nat) (ms : List (Span × Text)) : Except Error Text :=
  match (ms.map Prod.snd).findSome? (failure? content strict) with
  | some e => .error e
  | none => .ok (t.splice cursor (edits content shown ms))

/-! ## Asking -/

/-- Expands with answers that come with an effect. -/
def expandVia {m : Type → Type} [Monad m] (ask : Text → m (Except Error Text))
    (shown : Text → Text) (strict : Bool) : List Piece → m (Except Error Text)
  | [] => pure (.ok [])
  | p :: ps =>
    match p.directive? with
    | some (.includeFile name) => do
      match ← ask name with
      | .ok c => return (← expandVia ask shown strict ps).map (shown c ++ ·)
      | .error (.notFound _) =>
        if strict then return .error (.unresolvedKey .file name)
        else return (← expandVia ask shown strict ps).map (p.text ++ ·)
      | .error e => return .error e
    | _ => return (← expandVia ask shown strict ps).map (p.text ++ ·)

/-- Answers and notes down the name. -/
def noting (content : Text → Except Error Text) (name : Text) :
    StateM (List Text) (Except Error Text) := do
  modify (· ++ [name])
  return content name

/-- The names that are asked for: those up to the first failure, that one included. -/
def asked (content : Text → Except Error Text) (strict : Bool) (names : List Text) : List Text :=
  names.take (names.findIdx (fun name => (failure? content strict name).isSome) + 1)

section

variable {content : Text → Except Error Text} {shown : Text → Text} {strict : Bool} {p : Piece}
  {ps : List Piece} {name : Text}

/-! ## One piece after the other -/

/-- Induction over pieces that tells the include markers from all others. -/
@[elab_as_elim]
theorem marker_induction {motive : List Piece → Prop} (nil : motive [])
    (marker : ∀ p ps name, p.directive? = some (.includeFile name) → motive ps → motive (p :: ps))
    (other : ∀ p ps, (∀ name, p.directive? ≠ some (.includeFile name)) → motive ps →
      motive (p :: ps)) (ps : List Piece) : motive ps := by
  induction ps with
  | nil => exact nil
  | cons p ps ih =>
    by_cases hp : ∃ name, p.directive? = some (.includeFile name)
    · obtain ⟨name, hname⟩ := hp
      exact marker p ps name hname ih
    · exact other p ps (fun name hname => hp ⟨name, hname⟩) ih

theorem markersFrom_nil (n : Nat) : markersFrom n [] = [] := rfl

/-- An include marker `p` comes before those of the pieces after it, with its own span. -/
theorem markersFrom_marker (h : p.directive? = some (.includeFile name)) (n : Nat) :
    markersFrom n (p :: ps) =
      (⟨n, n + Text.width p.text⟩, name) :: markersFrom (n + Text.width p.text) ps := by
  cases p with
  | plain t => cases h
  | comment body =>
    have hbody : Directive.ofBody? body = some (.includeFile name) := h
    rw [markersFrom, Token.ofPieces, hbody]
    rfl

/-- Any other piece `p` adds none, and the markers behind it stand further on by its width. -/
theorem markersFrom_other (h : ∀ name, p.directive? ≠ some (.includeFile name)) (n : Nat) :
    markersFrom n (p :: ps) = markersFrom (n + Text.width p.text) ps := by
  cases p with
  | plain t => rfl
  | comment body =>
    rw [markersFrom, Token.ofPieces]
    cases hbody : Directive.ofBody? body with
    | none => rfl
    | some d =>
      have hnone : marker? ⟨d, body, n⟩ = none := by
        cases d with
        | includeFile name => exact absurd hbody (h name)
        | _ => rfl
      dsimp only
      rw [List.filterMap_cons_none hnone]
      rfl

/-- The names of the markers do not depend on where the row begins, `n`. -/
theorem map_snd_markersFrom (n : Nat) : (markersFrom n ps).map Prod.snd = names ps := by
  unfold names
  generalize 0 = k
  induction ps using marker_induction generalizing n k with
  | nil => rfl
  | marker p ps name hname ih =>
    rw [markersFrom_marker hname, markersFrom_marker hname, List.map_cons, List.map_cons,
      ih _ (k + Text.width p.text)]
  | other p ps hother ih =>
    rw [markersFrom_other hother, markersFrom_other hother, ih _ (k + Text.width p.text)]

theorem names_marker (h : p.directive? = some (.includeFile name)) :
    names (p :: ps) = name :: names ps := by
  rw [names, markersFrom_marker h, List.map_cons, map_snd_markersFrom]

theorem names_other (h : ∀ name, p.directive? ≠ some (.includeFile name)) :
    names (p :: ps) = names ps := by
  rw [names, markersFrom_other h, map_snd_markersFrom]

/-- The names that are asked for: the first one, `name`, and unless the answer to it is a failure
(`failure?`) those behind it. Behind a failure nobody asks. -/
theorem asked_cons (name : Text) (ns : List Text) :
    asked content strict (name :: ns) =
      name :: (if (failure? content strict name).isSome then [] else asked content strict ns) := by
  unfold asked
  rw [List.findIdx_cons, List.take_succ_cons]
  cases (failure? content strict name).isSome with
  | true => simp
  | false => simp

/-- What comes of a marker, by its answer: the expansion ends with a failure (`failure?`), or it
goes on behind what is written for the marker. That is the content as it is `shown`, or the marker
itself. -/
theorem expandPieces_marker (h : p.directive? = some (.includeFile name)) :
    expandPieces content shown strict (p :: ps) =
      match failure? content strict name, content name with
      | some e, _ => .error e
      | none, .ok c => (expandPieces content shown strict ps).map (shown c ++ ·)
      | none, .error _ => (expandPieces content shown strict ps).map (p.text ++ ·) := by
  rw [expandPieces, h]
  dsimp only
  unfold failure?
  cases content name with
  | ok c => rfl
  | error e =>
    cases e with
    | notFound what => cases strict <;> rfl
    | _ => rfl

theorem expandPieces_other (h : ∀ name, p.directive? ≠ some (.includeFile name)) :
    expandPieces content shown strict (p :: ps) =
      (expandPieces content shown strict ps).map (p.text ++ ·) := by
  rw [expandPieces]
  split
  · next name hname => exact absurd hname (h name)
  · rfl

/-! ## Splicing -/

variable {t : Text}

/-- The outcome at a marker with span `s`, by its answer, which is looked at as in
`expandPieces_marker`. -/
theorem outcome_cons (cursor : Nat) (s : Span) (ms : List (Span × Text)) :
    outcome content shown strict t cursor ((s, name) :: ms) =
      match failure? content strict name, content name with
      | some e, _ => .error e
      | none, .ok c => (outcome content shown strict t s.stop ms).map fun rest =>
          t.slice cursor s.start ++ shown c ++ rest
      | none, .error _ => outcome content shown strict t cursor ms := by
  rw [outcome, List.map_cons, List.findSome?_cons]
  cases hfail : failure? content strict name with
  | some e => rfl
  | none =>
    cases hc : content name with
    | ok c =>
      unfold outcome
      dsimp only
      rw [edits, List.filterMap_cons, hc]
      cases (ms.map Prod.snd).findSome? (failure? content strict) <;> rfl
    | error e =>
      unfold outcome
      dsimp only
      rw [edits, List.filterMap_cons, hc]
      rfl

/-- **Expanding is splicing.** Up to the end of `a` the document is written, and `x` was read since
then. The induction is on the pieces that are still to come. -/
theorem map_expandPieces (a x : Text) (ht : t = a ++ (x ++ Piece.textOf ps)) :
    (expandPieces content shown strict ps).map (x ++ ·) =
      outcome content shown strict t (Text.width a) (markersFrom (Text.width (a ++ x)) ps) := by
  induction ps using marker_induction generalizing a x with
  | nil =>
    rw [Piece.textOf_nil, List.append_nil] at ht
    rw [ht, markersFrom_nil]
    show Except.ok (x ++ []) = Except.ok (Text.splice (a ++ x) (Text.width a) [])
    rw [Text.splice_nil, List.append_nil]
  | marker p ps name hname ih =>
    rw [expandPieces_marker hname, markersFrom_marker hname, outcome_cons]
    cases failure? content strict name with
    | some e => rfl
    | none =>
      cases content name with
      | error e =>
        -- the marker joins the text that waits to be copied
        have hcopy := ih a (x ++ p.text) (by rw [ht, Piece.textOf_cons, List.append_assoc])
        rw [← List.append_assoc, Text.width_append (a ++ x)] at hcopy
        show ((expandPieces content shown strict ps).map (p.text ++ ·)).map (x ++ ·) = _
        rw [Fill.map_append, hcopy]
      | ok c =>
        -- what waited is copied, and copying goes on behind the marker
        have hbehind := ih (a ++ (x ++ p.text)) []
          (by rw [ht, Piece.textOf_cons]; simp only [List.append_assoc, List.nil_append])
        rw [List.append_nil, ← List.append_assoc, Text.width_append (a ++ x)] at hbehind
        have hslice : t.slice (Text.width a) (Text.width (a ++ x)) = x := by
          rw [ht, Text.width_append a x]
          exact Text.slice_append a x _
        show ((expandPieces content shown strict ps).map (shown c ++ ·)).map (x ++ ·) = _
        rw [Fill.map_append]
        dsimp only
        rw [← hbehind, hslice]
        cases expandPieces content shown strict ps <;> rfl
  | other p ps hother ih =>
    have hcopy := ih a (x ++ p.text) (by rw [ht, Piece.textOf_cons, List.append_assoc])
    rw [← List.append_assoc, Text.width_append (a ++ x)] at hcopy
    rw [expandPieces_other hother, markersFrom_other hother, Fill.map_append, hcopy]

theorem expand_eq_outcome (t : Text) :
    expand t content shown strict = outcome content shown strict t 0 (markers t) := by
  have h : (expandPieces content shown strict (Piece.ofText t)).map ([] ++ ·) =
      outcome content shown strict t 0 (markers t) :=
    map_expandPieces [] [] (Piece.textOf_ofText t).symm
  rw [← h, expand]
  cases expandPieces content shown strict (Piece.ofText t) <;> rfl

/-- The markers lie in the document, in order, at boundaries between characters and apart from each
other. -/
theorem cuts_markersFrom {cursor : Nat} (a : Text) (ht : t = a ++ Piece.textOf ps)
    (hcursor : cursor ≤ Text.width a) :
    t.Cuts cursor ((markersFrom (Text.width a) ps).map Prod.fst) := by
  induction ps using marker_induction generalizing a cursor with
  | nil =>
    show cursor ≤ Text.width t
    rw [ht, Text.width_append]
    omega
  | marker p ps name hname ih =>
    rw [Piece.textOf_cons] at ht
    have hrest : t = a ++ p.text ++ Piece.textOf ps := by rw [ht, List.append_assoc]
    have hlater := ih (a ++ p.text) hrest (Nat.le_refl _)
    rw [Text.width_append] at hlater
    rw [markersFrom_marker hname]
    refine ⟨hcursor, ⟨p.text, ?_⟩, hlater⟩
    rw [ht]
    exact Span.holds_span a p.text _
  | other p ps hother ih =>
    rw [Piece.textOf_cons] at ht
    have hrest : t = a ++ p.text ++ Piece.textOf ps := by rw [ht, List.append_assoc]
    rw [markersFrom_other hother, ← Text.width_append]
    apply ih (a ++ p.text) hrest
    rw [Text.width_append]
    omega

/-! ## What is asked for -/

section

variable {m : Type → Type} [Monad m] {ask : Text → m (Except Error Text)}

/-- The name of a marker is asked for first, whatever the effect `m` of asking, and then the pieces
behind it are expanded unless the answer is a failure. -/
theorem expandVia_marker [LawfulMonad m] (h : p.directive? = some (.includeFile name)) :
    expandVia ask shown strict (p :: ps) = (do
      let answer ← ask name
      match failure? (fun _ => answer) strict name, answer with
      | some e, _ => return .error e
      | none, .ok c => return (← expandVia ask shown strict ps).map (shown c ++ ·)
      | none, .error _ => return (← expandVia ask shown strict ps).map (p.text ++ ·)) := by
  rw [expandVia, h]
  dsimp only
  apply bind_congr
  intro answer
  unfold failure?
  cases answer with
  | ok c => rfl
  | error e =>
    cases e with
    | notFound what => cases strict <;> rfl
    | _ => rfl

theorem expandVia_other (h : ∀ name, p.directive? ≠ some (.includeFile name)) :
    expandVia ask shown strict (p :: ps) =
      (return (← expandVia ask shown strict ps).map (p.text ++ ·)) := by
  rw [expandVia]
  split
  · next name hname => exact absurd hname (h name)
  · rfl

end

/-- **The notes of an expansion** are the names up to the first failure, in their order, behind
those that stood in the `log` before. What it gives is what an expansion without notes gives. -/
theorem run_noting (ps : List Piece) (log : List Text) :
    (expandVia (noting content) shown strict ps).run log =
      (expandPieces content shown strict ps, log ++ asked content strict (names ps)) := by
  induction ps using marker_induction generalizing log with
  | nil =>
    show (Except.ok [], log) = (Except.ok [], log ++ [])
    rw [List.append_nil]
  | marker p ps name hname ih =>
    rw [expandVia_marker hname, expandPieces_marker hname, names_marker hname, asked_cons]
    -- the note is written before the answer is looked at
    show StateT.run (match failure? content strict name, content name with
      | some e, _ => _
      | none, .ok c => _
      | none, .error _ => _) (log ++ [name]) = _
    have hnotes : log ++ name :: asked content strict (names ps) =
        log ++ [name] ++ asked content strict (names ps) := by
      rw [List.append_assoc, List.singleton_append]
    cases failure? content strict name with
    | some e => rfl
    | none =>
      cases content name with
      | ok c =>
        dsimp only
        rw [StateT.run_bind, ih, Option.isSome_none, if_neg Bool.false_ne_true, hnotes]
        rfl
      | error e =>
        dsimp only
        rw [StateT.run_bind, ih, Option.isSome_none, if_neg Bool.false_ne_true, hnotes]
        rfl
  | other p ps hother ih =>
    rw [expandVia_other hother, expandPieces_other hother, names_other hother, StateT.run_bind,
      ih]
    rfl

/-- An expansion depends on the answers to the names that are asked for, and on no others: another
`content` with the same answers to these gives the same. -/
theorem expandPieces_congr {content' : Text → Except Error Text}
    (h : ∀ name ∈ asked content strict (names ps), content' name = content name) :
    expandPieces content' shown strict ps = expandPieces content shown strict ps := by
  induction ps using marker_induction with
  | nil => rfl
  | marker p ps name hname ih =>
    rw [names_marker hname, asked_cons] at h
    have hhere : content' name = content name := h name List.mem_cons_self
    have hfailure : failure? content' strict name = failure? content strict name := by
      unfold failure?
      rw [hhere]
    rw [expandPieces_marker hname, expandPieces_marker hname, hfailure, hhere]
    cases hfail : failure? content strict name with
    | some e => rfl
    | none =>
      rw [hfail] at h
      rw [ih fun name hmem => h name (List.mem_cons_of_mem _ hmem)]
  | other p ps hother ih =>
    rw [names_other hother] at h
    rw [expandPieces_other hother, expandPieces_other hother, ih h]

/-- The name in a marker is a valid one. -/
theorem isName_of_mem_markers {m : Span × Text} (hm : m ∈ markers t) : isName m.2 = true := by
  obtain ⟨k, hk, hmarker⟩ := List.mem_filterMap.mp hm
  have hname := (Token.wellFormed_of_mem hk).name
  unfold marker? at hmarker
  split at hmarker
  · next name hdirective =>
    rw [← Option.some.inj hmarker]
    apply hname
    rw [hdirective]
    rfl
  · cases hmarker

end

/-- **Expanding is an exact splice, up to the first failure.** Take the include markers of the
document in their order (`markers`). If the answer for one of them is a failure (`failure?`), then
the first such failure is the outcome: a missing file in strict expansion, or what else went wrong.
Otherwise the outcome is the document with the spans of the markers that are answered replaced by
what is shown of the content, and nothing else changed; the spans lie in the document, in order and
apart from each other. The names that are asked for (`asked`) are those of the markers up to the
first failure, in order and each as often as it stands there. Answers to other names do not matter.
All of them are valid names. -/
theorem expand_splices (t : Text) (content : Text → Except Error Text) (shown : Text → Text)
    (strict : Bool) :
    let ms := markers t
    let names := ms.map Prod.snd
    (expand t content shown strict =
      match names.findSome? (failure? content strict) with
      | some e => .error e
      | none => .ok (t.splice 0 (edits content shown ms))) ∧
    t.Cuts 0 (ms.map Prod.fst) ∧
    (expandVia (noting content) shown strict (Piece.ofText t)).run [] =
      (expand t content shown strict, asked content strict names) ∧
    (∀ content', (∀ name ∈ asked content strict names, content' name = content name) →
      expand t content' shown strict = expand t content shown strict) ∧
    ∀ name ∈ names, isName name = true := by
  intro ms names
  refine ⟨expand_eq_outcome t, ?_, run_noting (Piece.ofText t) [], ?_, ?_⟩
  · exact cuts_markersFrom [] (Piece.textOf_ofText t).symm (Nat.le_refl 0)
  · intro content' hanswers
    exact expandPieces_congr hanswers
  · intro name hname
    obtain ⟨m, hm, rfl⟩ := List.mem_map.mp hname
    exact isName_of_mem_markers hm

/-! ## Boxes -/

/-- What the lines of a box are, told by the pieces between line feeds. -/
structure IsBox (lead content boxed : Text) : Prop where
  /-- No line is lost, added or split. -/
  count : (boxed.splitOn '\n').length = (content.splitOn '\n').length
  /-- A piece with a line feed behind it is shown as a line, without the carriage return at its
  end. -/
  followed : ∀ {i : Nat} {piece : Text}, (content.splitOn '\n')[i]? = some piece →
    i + 1 < (content.splitOn '\n').length →
    (boxed.splitOn '\n')[i]? = some (if Text.allBlank (Text.dropReturn piece) then
      Text.trimEnd lead else lead ++ Text.dropReturn piece)
  /-- Without a line feed at the end, the last piece is shown as a line with all that it has. -/
  last : ∀ {i : Nat} {piece : Text}, (content.splitOn '\n')[i]? = some piece →
    i + 1 = (content.splitOn '\n').length → content ≠ [] → content.getLast? ≠ some '\n' →
    (boxed.splitOn '\n')[i]? = some (if Text.allBlank piece then Text.trimEnd lead
      else lead ++ piece)
  /-- Without any content, or with a line feed at its end, the last piece is empty and stays so. -/
  ended : content = [] ∨ content.getLast? = some '\n' →
    (content.splitOn '\n').getLast? = some [] ∧ (boxed.splitOn '\n').getLast? = some []

/-- **The lines of a box are those of its content** (`IsBox`), each in its place and with the lead
before it, for any `lead` without a line feed. -/
theorem box_pieces {lead : Text} (hlead : '\n' ∉ lead) (content : Text) :
    IsBox lead content (format .box lead content) := by
  have hne := List.splitOn_ne_nil '\n' content
  have h := (List.dropLast_concat_getLast hne).symm
  generalize (content.splitOn '\n').dropLast = front at h
  generalize (content.splitOn '\n').getLast hne = last at h
  have hboxed : (format .box lead content).splitOn '\n' = _ := splitOn_box hlead h
  have hlast := Text.last_eq_nil_iff h
  refine ⟨?_, fun {i piece} hpiece hi => ?_, fun {i piece} hpiece hi hnil hend => ?_,
    fun hend => ?_⟩
  · rw [hboxed, h]
    simp
  · rw [h, List.length_append, List.length_singleton] at hi
    rw [h, List.getElem?_append_left (by omega)] at hpiece
    rw [hboxed, List.getElem?_append_left (by simpa using hi), List.getElem?_map, hpiece]
    rfl
  · rw [h, List.length_append, List.length_singleton] at hi
    obtain rfl : i = front.length := by omega
    rw [h, List.getElem?_concat_length] at hpiece
    obtain rfl := Option.some.inj hpiece
    have hlength : front.length =
        (front.map fun piece => boxLine lead (Text.dropReturn piece)).length := by
      rw [List.length_map]
    rw [hboxed, hlength, List.getElem?_concat_length, if_neg fun h => (hlast.1 h).elim hnil hend]
    rfl
  · have hnone := hlast.2 hend
    rw [hboxed, h, List.getLast?_concat, List.getLast?_concat, if_pos hnone, hnone]
    exact ⟨rfl, rfl⟩

/-- Carriage returns: with a line feed behind it, with blanks only before it, and without one. -/
def returnContent : Text := "a\r\n \r\n\rb\r".toList

/-- The box of a content with a blank line, a carriage return before a line feed and one that stands
alone. -/
theorem box_pieces_returnContent :
    '\n' ∉ defaultLead ∧ IsBox defaultLead returnContent (format .box defaultLead returnContent) ∧
      (format .box defaultLead returnContent).splitOn '\n' =
        ["> a".toList, ">".toList, "> \rb\r".toList] := by
  have hlead : '\n' ∉ defaultLead := by decide
  exact ⟨hlead, box_pieces hlead returnContent, by decide⟩

end Include

end Transclude
