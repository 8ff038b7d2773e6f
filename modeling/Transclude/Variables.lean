import Transclude.Markup.Block
import Transclude.Bindings

/-!
# Variables

A document stores variables in its declaration comments. This module looks them up (`get_var`),
lists them (`get_vars`), and changes the document so that a variable has another value or none
(`set_var`, `del_var`).

Setting a variable replaces the value in every declaration of it and leaves all else as it is. A
variable that is not declared yet gets a declaration of its own, after the last include marker or at
the top, with an empty line between it and the text that follows. The program writes through the
spans of the tokens; here the pieces are changed, and the text is that of the changed pieces.

The second half is about the pieces alone, before their text is read again: `Piece.edit` changes the
declarations of one variable, and the lookup in the changed pieces gives the new value
(`Piece.lookup_declared_edit_self`) and every other variable the value it had
(`Piece.lookup_declared_edit_of_ne`).
-/

namespace Transclude

namespace Piece

/-- Name and written value, if the piece is a declaration. -/
def declaration? (p : Piece) : Option (Text × Text) :=
  match p.directive? with
  | some (.declaration name _ raw) => some (name, raw)
  | _ => none

/-- Whether the piece declares the variable `name`. -/
def declares (name : Text) (p : Piece) : Bool := p.declaration?.any fun d => d.1 = name

/-- Whether the piece is an include marker. -/
def isIncludeMarker (p : Piece) : Bool :=
  match p.directive? with
  | some (.includeFile _) => true
  | _ => false

/-- The piece with its quoted values replaced by the written form of `value`. -/
def withValue (value : Text) : Piece → Piece
  | plain t => plain t
  | comment body =>
    let written (quote : Char) : Text := Value.encode quote value
    comment (Lexeme.textOf ((Lexeme.ofText body).map (Lexeme.requote written)))

/-- The pieces up to and including the last that satisfies `f`, and those after it. -/
def splitAfterLast? (f : Piece → Bool) : List Piece → Option (List Piece × List Piece)
  | [] => none
  | p :: ps =>
    match splitAfterLast? f ps with
    | some (head, tail) => some (p :: head, tail)
    | none => if f p then some ([p], ps) else none

/-- Nothing is lost by a split behind the last piece that `f` accepts. -/
theorem eq_of_splitAfterLast? {f : Piece → Bool} {ps head tail : List Piece}
    (h : splitAfterLast? f ps = some (head, tail)) : ps = head ++ tail := by
  induction ps generalizing head with
  | nil => simp [splitAfterLast?] at h
  | cons p ps ih =>
    unfold splitAfterLast? at h
    split at h
    · next hs =>
      simp only [Option.some.injEq, Prod.mk.injEq] at h
      obtain ⟨rfl, rfl⟩ := h
      simp [ih hs]
    · split at h
      · simp only [Option.some.injEq, Prod.mk.injEq] at h
        obtain ⟨rfl, rfl⟩ := h
        rfl
      · simp at h

end Piece

namespace Variables

/-- The declared variables in the order of their declarations. -/
def declared (ps : List Piece) : List (Text × Text) :=
  (ps.filterMap Piece.declaration?).map fun d => (d.1, Value.decode d.2)

/-- Bindings with more entries, none of which may be bound before. -/
def addAll : Bindings → List (Text × Text) → Except Error Bindings
  | vars, [] => .ok vars
  | vars, (name, value) :: l =>
    if vars.contains name then .error (.duplicateKey .var name) else addAll (vars.set name value) l

/-- All variables of a document, on top of `previous`. Declaring a name twice is an error. -/
def collect (t : Text) (previous : Bindings) : Except Error Bindings :=
  addAll previous (declared (Piece.ofText t))

/-- The value in the first declaration of a variable. -/
def get? (t : Text) (name : Text) : Option Text := (declared (Piece.ofText t)).lookup name

/-- A declaration of its own, between double quotes. -/
def declarationText (name value : Text) : Text :=
  opener ++ " var(".toList ++ name ++ ")=\"".toList ++ Value.encode '"' value ++ "\" ".toList ++
    closer

/-- The document with a new declaration. -/
def insert (name value : Text) (ps : List Piece) : Text :=
  let (head, tail) :=
    match Piece.splitAfterLast? Piece.isIncludeMarker ps with
    | some (head, tail) => (Piece.textOf head ++ ['\n'], Piece.textOf tail)
    | none => ([], Piece.textOf ps)
  let gap := if tail = [] ∨ tail.head? = some '\n' then ['\n'] else ['\n', '\n']
  head ++ declarationText name value ++ gap ++ tail

/-- Refuses what is not a name. -/
def checkName (name : Text) : Except Error Unit :=
  if isName name then .ok () else .error (.validation (.variableName name))

/-- The document in which the variable has the given value. -/
def set (t name value : Text) : Except Error Text := do
  checkName name
  let ps := Piece.ofText t
  if ps.any (Piece.declares name) then
    return Piece.textOf (ps.map fun p => if p.declares name then p.withValue value else p)
  else return insert name value ps

/-- The document without the declarations of the variable. -/
def erase (t name : Text) : Except Error Text := do
  checkName name
  return Piece.textOf ((Piece.ofText t).filter fun p => !p.declares name)

end Variables

/-! ## Declarations with another value -/

namespace Declaration

/-- The declaration with another value, written between the same quotes. -/
def withValue (d : Declaration) (value : Text) : Declaration :=
  { d with raw := Value.encode d.quote value }

@[simp] theorem withValue_name (d : Declaration) (value : Text) :
    (d.withValue value).name = d.name := rfl

/-- Another value between the quotes leaves a declaration well formed, since what `encode` writes
can stand there. -/
theorem WellFormed.withValue {d : Declaration} (h : d.WellFormed) (value : Text) :
    (d.withValue value).WellFormed where
  head := h.head
  quote := h.quote
  raw := Value.isWritten_encode h.quote value
  tail := h.tail

end Declaration

namespace Piece

/-- Whether the piece is a declaration. -/
def isDeclaration (p : Piece) : Bool := p.declaration?.isSome

/-- The pieces that are declarations are the comments with the body of a well formed one. -/
theorem isDeclaration_iff {body : Text} :
    (comment body).isDeclaration = true ↔ ∃ d : Declaration, d.WellFormed ∧ d.body = body := by
  rw [isDeclaration, Option.isSome_iff_exists]
  constructor
  · rintro ⟨⟨name, raw⟩, h⟩
    unfold declaration? at h
    split at h
    · next n q r hd =>
      obtain ⟨d, hwell, hbody, -⟩ := Directive.ofBody?_eq_declaration_iff.1 hd
      exact ⟨d, hwell, hbody⟩
    · cases h
  · rintro ⟨d, hwell, rfl⟩
    refine ⟨(d.name, d.raw), ?_⟩
    rw [declaration?, directive?, Directive.ofBody?_body hwell]

/-- The piece with another value, if it declares the variable. -/
def edit (name value : Text) (p : Piece) : Piece :=
  if p.declares name then p.withValue value else p

section Edit

variable {name value : Text} {p : Piece}

/-- A well formed declaration declares its name, with the written form between its quotes. -/
theorem declaration?_comment {d : Declaration} (h : d.WellFormed) :
    (comment d.body).declaration? = some (d.name, d.raw) := by
  rw [declaration?, directive?, Directive.ofBody?_body h]

/-- A piece that declares `name` is the comment of a well formed declaration `d` of it. -/
theorem exists_of_declares (h : p.declares name = true) :
    ∃ d : Declaration, d.WellFormed ∧ d.name = name ∧ p = comment d.body := by
  cases p with
  | plain t => cases h
  | comment body =>
    have hdecl : (comment body).isDeclaration = true := by
      obtain ⟨e, he, -⟩ := (Option.any_eq_true _ _).1 h
      rw [isDeclaration, he]
      rfl
    obtain ⟨d, hd, rfl⟩ := isDeclaration_iff.1 hdecl
    rw [declares, declaration?_comment hd] at h
    exact ⟨d, hd, by simpa using h, rfl⟩

theorem isDeclaration_of_declares (h : p.declares name = true) : p.isDeclaration = true := by
  obtain ⟨d, hd, -, rfl⟩ := exists_of_declares h
  exact isDeclaration_iff.2 ⟨d, hd, rfl⟩

theorem declares_of_not_isDeclaration (h : p.isDeclaration = false) : p.declares name = false := by
  cases hd : p.declares name with
  | false => rfl
  | true =>
    rw [isDeclaration_of_declares hd] at h
    cases h

/-- Editing a variable leaves every piece alone that does not declare it. -/
theorem edit_of_not_declares (h : p.declares name = false) : edit name value p = p := by
  rw [edit, if_neg (by simp [h])]

theorem map_edit_of_not_declares {ps : List Piece} (h : ∀ p ∈ ps, p.declares name = false) :
    ps.map (edit name value) = ps :=
  (List.map_congr_left fun p hp => edit_of_not_declares (h p hp)).trans (List.map_id ps)

theorem declares_comment {d : Declaration} (h : d.WellFormed) :
    (comment d.body).declares d.name = true := by
  rw [declares, declaration?_comment h]
  simp

/-- Editing a declaration puts the written form of `value` between its quotes, and keeps its head,
its gaps and the kind of the quotes. -/
theorem edit_comment {d : Declaration} (h : d.WellFormed) :
    edit d.name value (comment d.body) = comment (d.withValue value).body := by
  rw [edit, if_pos (declares_comment h), withValue, Declaration.textOf_requote h]
  rfl

/-- A declaration stays one under an edit, and no other piece becomes one. -/
theorem isDeclaration_edit : (edit name value p).isDeclaration = p.isDeclaration := by
  cases h : p.declares name with
  | false => rw [edit_of_not_declares h]
  | true =>
    obtain ⟨d, hd, rfl, rfl⟩ := exists_of_declares h
    rw [edit_comment hd, isDeclaration_iff.2 ⟨_, hd.withValue value, rfl⟩,
      isDeclaration_iff.2 ⟨_, hd, rfl⟩]

end Edit

/-! ## What the edited pieces declare -/

/-- What the pieces of a document declare, from the first piece on. Values are decoded. -/
theorem declared_cons (p : Piece) (ps : List Piece) :
    Variables.declared (p :: ps) =
      (p.declaration?.map fun d => (d.1, Value.decode d.2)).toList ++ Variables.declared ps := by
  rw [Variables.declared, Variables.declared, List.filterMap_cons]
  cases p.declaration? <;> rfl

theorem declared_append (ps qs : List Piece) :
    Variables.declared (ps ++ qs) = Variables.declared ps ++ Variables.declared qs := by
  rw [Variables.declared, List.filterMap_append, List.map_append]
  rfl

/-- What a declaration `d` adds in front of `ps`: its name has its value, whatever is declared for
it later. -/
theorem lookup_declared_comment {d : Declaration} (h : d.WellFormed) (ps : List Piece) (m : Text) :
    (Variables.declared (comment d.body :: ps)).lookup m =
      if m = d.name then some (Value.decode d.raw) else (Variables.declared ps).lookup m := by
  rw [declared_cons, declaration?_comment h]
  exact Bindings.lookup_cons_eq _ _ _ _

/-- A piece that does not declare `m` is not seen by a look for it. -/
theorem lookup_declared_of_not_declares {p : Piece} {m : Text} (h : p.declares m = false)
    (ps : List Piece) :
    (Variables.declared (p :: ps)).lookup m = (Variables.declared ps).lookup m := by
  rw [declared_cons]
  cases hd : p.declaration? with
  | none => rfl
  | some d =>
    obtain ⟨n, raw⟩ := d
    have hne : m ≠ n := by
      rintro rfl
      rw [declares, hd] at h
      simp at h
    exact (Bindings.lookup_cons_eq _ _ _ _).trans (if_neg hne)

/-- A variable that is declared somewhere in a document has a value. -/
theorem lookup_declared_of_any {m : Text} {ps : List Piece} (h : ps.any (declares m) = true) :
    (Variables.declared ps).lookup m ≠ none := by
  induction ps with
  | nil => cases h
  | cons p ps ih =>
    cases hp : p.declares m with
    | false =>
      rw [List.any_cons, hp, Bool.false_or] at h
      rw [lookup_declared_of_not_declares hp]
      exact ih h
    | true =>
      obtain ⟨d, hd, rfl, rfl⟩ := exists_of_declares hp
      rw [lookup_declared_comment hd, if_pos rfl]
      exact Option.some_ne_none _

/-- Editing `name` leaves the values of the other variables `m` as they are. -/
theorem lookup_declared_edit_of_ne {name m : Text} (h : m ≠ name) (value : Text) (ps : List Piece) :
    (Variables.declared (ps.map (edit name value))).lookup m =
      (Variables.declared ps).lookup m := by
  induction ps with
  | nil => rfl
  | cons p ps ih =>
    rw [List.map_cons]
    cases hp : p.declares name with
    | false =>
      rw [edit_of_not_declares hp, declared_cons, declared_cons, List.lookup_append,
        List.lookup_append, ih]
    | true =>
      obtain ⟨d, hd, rfl, rfl⟩ := exists_of_declares hp
      rw [edit_comment hd, lookup_declared_comment (hd.withValue value), lookup_declared_comment hd,
        ih, Declaration.withValue_name, if_neg h, if_neg h]

/-- The edited variable has the new value, if there is a declaration of it. All its declarations are
edited, so it does not matter which comes first. -/
theorem lookup_declared_edit_self {name : Text} {ps : List Piece} (value : Text)
    (h : ps.any (declares name) = true) :
    (Variables.declared (ps.map (edit name value))).lookup name = some value := by
  induction ps with
  | nil => cases h
  | cons p ps ih =>
    rw [List.map_cons]
    cases hp : p.declares name with
    | false =>
      rw [List.any_cons, hp, Bool.false_or] at h
      rw [edit_of_not_declares hp, lookup_declared_of_not_declares hp, ih h]
    | true =>
      obtain ⟨d, hd, rfl, rfl⟩ := exists_of_declares hp
      have hraw : Value.decode (d.withValue value).raw = value :=
        Value.decode_encode (isQuote_iff.1 hd.quote) value
      rw [edit_comment hd, lookup_declared_comment (hd.withValue value), Declaration.withValue_name,
        if_pos rfl, hraw]

end Piece

end Transclude
