import Transclude.Proofs.Comments

/-!
# Giving a variable another value

Setting a variable changes the quoted value in every declaration of it, and then the document is
read again from its text. The new value can hold any text, so it can turn an opener that began
nothing into the beginning of a declaration. This file says when that happens.

An opener before a declaration of the variable is exposed (`Piece.Exposed`) when the text from it to
that declaration begins another declaration and stops within its quoted value. For every other
opener the outcome is decided before the new value is reached
(`Declaration.completes_or_unfinished`).

Main statement: `Piece.ofText_edit`, where no opener is exposed, the edited document has the edited
pieces, whatever the value is.
-/

namespace Transclude

namespace Piece

/-! ## What the edited pieces leave to be read -/

/-- The text before the first piece that satisfies `f`, and whether there is such a piece. Without
one it is the text of all pieces. -/
def textTo (f : Piece → Bool) : List Piece → Text × Bool
  | [] => ([], false)
  | p :: ps => if f p then ([], true) else (p.text ++ (textTo f ps).1, (textTo f ps).2)

/-- A stray opener with the text `b` behind it in its piece and the pieces `ps` after that: what
follows it up to the next piece that satisfies `f`, and whether there is such a piece. -/
def strayTo (f : Piece → Bool) (b : Text) (ps : List Piece) : Text × Bool :=
  (b ++ (textTo f ps).1, (textTo f ps).2)

/-- The stray openers of a row of pieces, each up to the next piece that satisfies `f`. -/
def straysTo (f : Piece → Bool) : List Piece → List (Text × Bool)
  | [] => []
  | p :: ps =>
    (if p.isDeclaration then [] else (Text.afterEach opener p.text).map fun b => strayTo f b ps) ++
      straysTo f ps

/-- The stray openers of `p :: ps` are those of `p`, if it is no declaration, and those of `ps`. -/
theorem mem_straysTo_cons {f : Piece → Bool} {p : Piece} {s : Text × Bool} {ps : List Piece} :
    s ∈ straysTo f (p :: ps) ↔
      (p.isDeclaration = false ∧ ∃ b, opener ++ b <:+ p.text ∧ s = strayTo f b ps) ∨
        s ∈ straysTo f ps := by
  rw [straysTo, List.mem_append]
  cases p.isDeclaration with
  | true => simp
  | false => simp [Text.mem_afterEach, eq_comm]

/-- The text up to a piece that satisfies `f` is a beginning of the whole text. -/
theorem textTo_prefix (f : Piece → Bool) (ps : List Piece) : (textTo f ps).1 <+: textOf ps := by
  induction ps with
  | nil => exact List.nil_prefix
  | cons p ps ih =>
    rw [textTo]
    split
    · exact List.nil_prefix
    · exact (List.prefix_append_right_inj p.text).2 ih

/-- Stray openers that begin no declaration begin none in a shorter text either. -/
theorem read?_of_mem_straysTo {f : Piece → Bool} {ps : List Piece}
    (h : ∀ s ∈ strays ps, Declaration.read? s = none) :
    ∀ s ∈ straysTo f ps, Declaration.read? s.1 = none := by
  induction ps with
  | nil => exact fun _ hs => nomatch hs
  | cons p ps ih =>
    intro s hs
    rcases mem_straysTo_cons.1 hs with ⟨hp, b, hb, rfl⟩ | hs
    · obtain ⟨z, hz⟩ := textTo_prefix f ps
      have hread := h _ (mem_strays_cons.2 (.inl ⟨hp, b, hb, rfl⟩))
      rw [← hz, ← List.append_assoc] at hread
      exact Declaration.read?_eq_none_of_append hread
    · exact ih (fun s' hs' => h s' (mem_strays_cons.2 (.inr hs'))) s hs

section Edited

variable {name : Text}

/-- Where a declaration of the variable follows, the edited text goes on with its opener behind
`textTo`, whatever the value. -/
theorem exists_of_textTo {ps : List Piece} (h : (textTo (declares name) ps).2 = true) :
    ∃ (d : Declaration) (r : List Piece), d.WellFormed ∧ ∀ value,
      textOf (ps.map (edit name value)) = (textTo (declares name) ps).1 ++
        (opener ++ ((d.withValue value).body ++ (closer ++ textOf (r.map (edit name value))))) := by
  induction ps with
  | nil => cases h
  | cons p ps ih =>
    rw [textTo] at h ⊢
    cases hp : p.declares name with
    | true =>
      -- it is this piece, and the text goes on with its opener
      obtain ⟨d, hd, rfl, rfl⟩ := exists_of_declares hp
      refine ⟨d, ps, hd, fun value => ?_⟩
      rw [List.map_cons, textOf_cons, edit_comment hd]
      simp [text]
    | false =>
      simp only [hp, Bool.false_eq_true, if_false] at h ⊢
      obtain ⟨d, r, hd, htext⟩ := ih h
      refine ⟨d, r, hd, fun value => ?_⟩
      rw [List.map_cons, textOf_cons, edit_of_not_declares hp, htext, List.append_assoc]

/-- Where no declaration of the variable follows, the edited text is the text as it was. -/
theorem textOf_of_textTo {ps : List Piece} (h : (textTo (declares name) ps).2 = false)
    (value : Text) :
    textOf (ps.map (edit name value)) = (textTo (declares name) ps).1 := by
  induction ps with
  | nil => rfl
  | cons p ps ih =>
    rw [textTo] at h ⊢
    cases hp : p.declares name with
    | true =>
      rw [hp] at h
      cases h
    | false =>
      simp only [hp, Bool.false_eq_true, if_false] at h ⊢
      rw [List.map_cons, textOf_cons, edit_of_not_declares hp, ih h]

/-- An opener before a declaration of the variable is exposed if it begins another declaration that
is still within its quoted value where the one of the variable is opened. -/
def IsExposed (s : Text × Bool) : Prop :=
  s.2 = true ∧ Declaration.unfinished (s.1 ++ opener) = true

/-- A stray opener that is not exposed begins no declaration in the edited text, for any `value`. -/
theorem read?_edit {b : Text} {ps : List Piece}
    (hread : Declaration.read? (strayTo (declares name) b ps).1 = none)
    (hexposed : ¬IsExposed (strayTo (declares name) b ps)) (value : Text) :
    Declaration.read? (b ++ textOf (ps.map (edit name value))) = none := by
  cases hto : (textTo (declares name) ps).2 with
  | false => rwa [textOf_of_textTo hto]
  | true =>
    -- what is read here is decided at the opener of that declaration
    obtain ⟨d, r, -, htext⟩ := exists_of_textTo hto
    rw [htext value, ← List.append_assoc]
    exact Declaration.read?_opener_eq_none hread (fun hu => hexposed ⟨hto, hu⟩) _

/-- The stray openers of the edited pieces are those of the pieces, each with edited text behind it,
as `strayTo` tells them. -/
theorem exists_of_mem_strays_edit {value s : Text} {ps : List Piece}
    (h : s ∈ strays (ps.map (edit name value))) :
    ∃ (b : Text) (qs : List Piece), s = b ++ textOf (qs.map (edit name value)) ∧
      strayTo (declares name) b qs ∈ straysTo (declares name) ps := by
  induction ps with
  | nil => cases h
  | cons p ps ih =>
    rw [List.map_cons] at h
    rcases mem_strays_cons.1 h with ⟨hp, b, hb, rfl⟩ | h
    · rw [isDeclaration_edit] at hp
      rw [edit_of_not_declares (declares_of_not_isDeclaration hp)] at hb
      exact ⟨b, ps, rfl, mem_straysTo_cons.2 (.inl ⟨hp, b, hb, rfl⟩)⟩
    · obtain ⟨b, qs, rfl, hmem⟩ := ih h
      exact ⟨b, qs, rfl, mem_straysTo_cons.2 (.inr hmem)⟩

/-- The body of a declaration can stand wherever that of another one can, so editing keeps two
neighbours joined. -/
theorem joins_edit {before body : Text} (h : Joins before body) (value : Text) :
    ∃ body', edit name value (comment body) = comment body' ∧ Joins before body' := by
  cases hp : (comment body).declares name with
  | false => exact ⟨body, edit_of_not_declares hp, h⟩
  | true =>
    obtain ⟨d, hd, rfl, hbody⟩ := exists_of_declares hp
    have hd' := hd.withValue value
    refine ⟨(d.withValue value).body, by rw [hbody, edit_comment hd], h.unclosed, fun _ => ?_, ?_⟩
    · exact Declaration.opens_body hd' closer
    · exact .inl (isDeclaration_iff.2 ⟨_, hd', rfl⟩)

/-- Editing keeps a row `Shaped`. -/
theorem shaped_edit (value : Text) :
    ∀ {ps : List Piece}, Shaped ps → Shaped (ps.map (edit name value))
  | [plain t], h => h
  | plain before :: comment body :: ps, ⟨hjoins, hps⟩ => by
    obtain ⟨body', hbody, hjoins'⟩ := joins_edit hjoins value
    rw [List.map_cons, List.map_cons, hbody]
    exact ⟨hjoins', shaped_edit value hps⟩

/-- Pieces that can be edited: they have the shape of pieces that were read, and up to the next
declaration of the variable no stray opener begins a declaration. -/
structure Ready (name : Text) (ps : List Piece) : Prop where
  shaped : Shaped ps
  unread : ∀ s ∈ straysTo (declares name) ps, Declaration.read? s.1 = none

theorem ready_ofText (name t : Text) : Ready name (ofText t) where
  shaped := shaped_ofText t
  unread := read?_of_mem_straysTo fun _ hs => read?_of_mem_strays hs

/-- Whether an opener is exposed. -/
def Exposed (name : Text) (ps : List Piece) : Prop :=
  ∃ s ∈ straysTo (declares name) ps, IsExposed s

/-- **Where no opener is exposed** (`Exposed`), no value is read as anything but a value: the edited
pieces are the pieces of the edited text. -/
theorem ofText_edit {ps : List Piece} (h : Ready name ps) (hexposed : ¬Exposed name ps)
    (value : Text) :
    ofText (textOf (ps.map (edit name value))) = ps.map (edit name value) := by
  refine ofText_of_shaped (shaped_edit value h.shaped) fun s hs => ?_
  obtain ⟨b, qs, rfl, hmem⟩ := exists_of_mem_strays_edit hs
  exact read?_edit (h.unread _ hmem) (fun hu => hexposed ⟨_, hmem, hu⟩) value

end Edited

end Piece

end Transclude
