import Transclude.Proofs.Edits
import Transclude.Proofs.FillTwice

/-!
# Taking a variable out of a document

Erasing a variable drops its declarations from the row of pieces, and the document is read again
from the text that is left. What stood on the two sides of a declaration stands together then. An
opener can come out of that, and an opener that began nothing can have a declaration behind it now.

Which declarations a text has does not depend on its other comments: they are found by going from
opener to opener and trying a declaration at each (`Piece.declarationsIn`). So for a row of pieces
with no two plain stretches side by side there is one condition: its text declares what the row
declares, each declaration at its place, exactly when no stray opener begins a declaration
(`Piece.declarationsIn_textOf_iff`).

Main statement: `Variables.get?_erase`, the law of erasing for what is left (`Piece.without`) under
this condition, and that the condition says exactly that nothing appears, vanishes or moves.
-/

namespace Transclude

namespace Piece

/-! ## The declarations of a text -/

/-- The declaration at the beginning of a text, and the text after its comment. -/
def beginning? (t : Text) : Option (Declaration × Text) :=
  (Text.after? opener t).bind Declaration.read?

/-- At an opener a declaration begins if one is read behind it. -/
theorem beginning?_opener (t : Text) : beginning? (opener ++ t) = Declaration.read? t := by
  rw [beginning?, Text.after?_append, Option.bind_some]

theorem beginning?_eq_some_iff {t rest : Text} {d : Declaration} :
    beginning? t = some (d, rest) ↔ d.WellFormed ∧ t = (comment d.body).text ++ rest := by
  rw [beginning?, Option.bind_eq_some_iff]
  simp only [Text.after?_eq_some_iff, Declaration.read?_eq_some_iff, text, List.append_assoc]
  constructor
  · rintro ⟨s, rfl, hd, rfl⟩
    exact ⟨hd, rfl⟩
  · rintro ⟨hd, rfl⟩
    exact ⟨_, rfl, hd, rfl⟩

/-- The declarations of a text, each with the text after it: at every place a declaration is tried,
and where there is none the search goes on with the next character. -/
def declarationsIn (t : Text) : List (Piece × Text) :=
  match _h : beginning? t with
  | some (d, rest) => (comment d.body, rest) :: declarationsIn rest
  | none =>
    match t with
    | [] => []
    | _ :: t => declarationsIn t
termination_by t.length
decreasing_by
  · rw [(beginning?_eq_some_iff.1 _h).2]
    simp [text, opener]
    omega
  · simp

theorem declarationsIn_nil : declarationsIn [] = [] := by
  rw [declarationsIn]
  rfl

/-- At a declaration `declarationsIn` lists that one with the text behind it, and then those that
begin in `rest`. -/
theorem declarationsIn_read {d : Declaration} (hd : d.WellFormed) (rest : Text) :
    declarationsIn ((comment d.body).text ++ rest) =
      (comment d.body, rest) :: declarationsIn rest := by
  have h : beginning? ((comment d.body).text ++ rest) = some (d, rest) :=
    beginning?_eq_some_iff.2 ⟨hd, rfl⟩
  rw [declarationsIn]
  split <;> simp_all

theorem declarationsIn_skip {c : Char} {t : Text} (h : beginning? (c :: t) = none) :
    declarationsIn (c :: t) = declarationsIn t := by
  rw [declarationsIn]
  split <;> simp_all

/-- A text `a` in which no declaration begins, whatever is behind it there, can be passed over. -/
theorem declarationsIn_append {a x : Text}
    (h : ∀ u, u <:+ a → u ≠ [] → beginning? (u ++ x) = none) :
    declarationsIn (a ++ x) = declarationsIn x := by
  induction a with
  | nil => rfl
  | cons c a ih =>
    have hc := h (c :: a) List.suffix_rfl (List.cons_ne_nil c a)
    rw [List.cons_append] at hc ⊢
    rw [declarationsIn_skip hc]
    exact ih fun u hu => h u (hu.trans (List.suffix_cons c a))

/-- The converse of `declarationsIn_append`: if all that is listed for `a ++ x` are declarations
that stand in `x`, then none begins in `a`. -/
theorem beginning?_eq_none_of_declarationsIn {a x : Text} {l : List (Piece × Text)}
    (hl : ∀ e ∈ l, e.1.text ++ e.2 <:+ x) (h : declarationsIn (a ++ x) = l) :
    ∀ u, u <:+ a → u ≠ [] → beginning? (u ++ x) = none := by
  induction a with
  | nil =>
    intro u hu hne
    exact absurd (List.suffix_nil.1 hu) hne
  | cons c a ih =>
    have hnone : beginning? (c :: a ++ x) = none := by
      cases hread : beginning? (c :: a ++ x) with
      | none => rfl
      | some p =>
        -- it would be listed, and it has more text from its opener on than is behind `a`
        obtain ⟨d, rest⟩ := p
        obtain ⟨hd, htext⟩ := beginning?_eq_some_iff.1 hread
        rw [htext, declarationsIn_read hd] at h
        have hlen := (hl (comment d.body, rest) (by rw [← h]; exact List.mem_cons_self)).length_le
        rw [← htext, List.length_append, List.length_cons] at hlen
        omega
    intro u hu hne
    rcases List.suffix_cons_iff.1 hu with rfl | hu
    · exact hnone
    · rw [List.cons_append] at h hnone
      rw [declarationsIn_skip hnone] at h
      exact ih h u hu hne

/-! ## The declarations of a row of pieces -/

/-- The declarations of a row of pieces, each with the text after it. -/
def declarations : List Piece → List (Piece × Text)
  | [] => []
  | p :: ps => (if p.isDeclaration then [(p, textOf ps)] else []) ++ declarations ps

/-- The declarations of a row are parts of its text, with the text behind them. -/
theorem suffix_of_mem_declarations {ps : List Piece} :
    ∀ e ∈ declarations ps, e.1.text ++ e.2 <:+ textOf ps := by
  induction ps with
  | nil => exact fun _ he => nomatch he
  | cons p ps ih =>
    intro e he
    rw [declarations, List.mem_append] at he
    rcases he with he | he
    · split at he
      · obtain rfl := List.mem_singleton.1 he
        exact List.suffix_rfl
      · cases he
    · exact (ih e he).trans (List.suffix_append _ _)

/-- What a row declares is what its `declarations` declare, since name and value of a declaration do
not depend on what stands around it. -/
theorem declared_eq_of_declarations (ps : List Piece) :
    Variables.declared ps = Variables.declared ((declarations ps).map Prod.fst) := by
  induction ps with
  | nil => rfl
  | cons p ps ih =>
    rw [declarations]
    cases hp : p.isDeclaration with
    | true =>
      rw [if_pos rfl, List.singleton_append, List.map_cons, declared_cons, declared_cons, ih]
    | false =>
      have hnone : p.declaration? = none :=
        Option.not_isSome_iff_eq_none.1 (by rw [← isDeclaration, hp]; decide)
      rw [declared_cons, hnone, ih]
      rfl

/-- No two plain stretches stand side by side. -/
def Tidy : List Piece → Prop
  | plain _ :: plain _ :: _ => False
  | _ :: ps => Tidy ps
  | [] => True

/-- A row that was read is `Tidy`: plain stretches do not follow each other. -/
theorem tidy_of_shaped : ∀ {ps : List Piece}, Shaped ps → Tidy ps
  | [plain _], _ => trivial
  | plain _ :: comment _ :: _, h => by
    have hps := tidy_of_shaped h.2
    exact hps

theorem Tidy.of_cons {p : Piece} {ps : List Piece} (h : Tidy (p :: ps)) : Tidy ps := by
  cases p with
  | comment body => exact h
  | plain t =>
    cases ps with
    | nil => trivial
    | cons q qs =>
      cases q with
      | plain s => exact h.elim
      | comment body => exact h

/-- An opener that begins in a piece ends in it, if no plain stretch follows one. -/
theorem opener_prefix_of_suffix {p : Piece} {ps : List Piece} (h : Tidy (p :: ps)) {u : Text}
    (hu : u <:+ p.text) (hne : u ≠ []) (hpre : opener <+: u ++ textOf ps) : opener <+: u := by
  obtain ⟨c, u, rfl⟩ := List.exists_cons_of_ne_nil hne
  cases p with
  | plain t =>
    match ps, h with
    | [], _ => simpa using hpre
    | comment body :: ps, _ => exact opener_prefix_of_append hpre
  | comment body =>
    by_cases hlen : opener.length ≤ (c :: u).length
    · exact List.prefix_of_prefix_length_le hpre (List.prefix_append _ _) hlen
    · -- then it would begin within the closer
      have hcloser : closer <:+ (comment body).text := List.suffix_append _ _
      have hu' : c :: u <:+ closer :=
        List.suffix_of_suffix_length_le hu hcloser (by simp [opener, closer] at hlen ⊢; omega)
      obtain ⟨s, hs⟩ := hpre
      obtain ⟨rfl, -⟩ := List.cons.inj hs
      exact absurd (hu'.subset List.mem_cons_self) lt_not_mem_closer

/-- No declaration begins in a piece exactly when none begins at its openers. -/
theorem beginning?_eq_none_iff {p : Piece} {ps : List Piece} (h : Tidy (p :: ps)) :
    (∀ u, u <:+ p.text → u ≠ [] → beginning? (u ++ textOf ps) = none) ↔
      ∀ b, opener ++ b <:+ p.text → Declaration.read? (b ++ textOf ps) = none := by
  constructor
  · intro hnone b hb
    have hread := hnone (opener ++ b) hb (by simp [opener])
    rwa [List.append_assoc, beginning?_opener] at hread
  · intro hnone u hu hne
    cases hread : beginning? (u ++ textOf ps) with
    | none => rfl
    | some e =>
      obtain ⟨s, hs, -⟩ := Option.bind_eq_some_iff.1 hread
      obtain ⟨b, rfl⟩ := opener_prefix_of_suffix h hu hne ⟨s, (Text.after?_eq_some_iff.1 hs).symm⟩
      rw [List.append_assoc, beginning?_opener, hnone b hu] at hread
      cases hread

/-- **Where declarations are found**: the text of a row of pieces has the declarations of the row
and no others exactly when no stray opener begins one. -/
theorem declarationsIn_textOf_iff {ps : List Piece} (h : Tidy ps) :
    declarationsIn (textOf ps) = declarations ps ↔
      ∀ s ∈ strays ps, Declaration.read? s = none := by
  induction ps with
  | nil => simp [declarationsIn_nil, declarations, strays]
  | cons p ps ih =>
    have ih := ih h.of_cons
    cases hp : p.isDeclaration with
    | true =>
      obtain ⟨body, rfl⟩ : ∃ body, p = comment body := by
        cases p with
        | plain t => cases hp
        | comment body => exact ⟨body, rfl⟩
      obtain ⟨d, hd, rfl⟩ := isDeclaration_iff.1 hp
      rw [textOf_cons, declarationsIn_read hd, declarations, strays, if_pos hp, if_pos hp]
      simpa using ih
    | false =>
      have hrow : declarations (p :: ps) = declarations ps := by
        rw [declarations, if_neg (by simp [hp])]
        rfl
      have hstrays : (∀ s ∈ strays (p :: ps), Declaration.read? s = none) ↔
          (∀ b, opener ++ b <:+ p.text → Declaration.read? (b ++ textOf ps) = none) ∧
            ∀ s ∈ strays ps, Declaration.read? s = none := by
        simp only [mem_strays_cons, hp, true_and, or_imp, forall_and, forall_exists_index, and_imp]
        exact and_congr_left' ⟨fun hs b hb => hs _ b hb rfl, fun hs s b hb he => he ▸ hs b hb⟩
      rw [hrow, hstrays, ← beginning?_eq_none_iff h, ← ih, textOf_cons]
      constructor
      · intro hscan
        have hnone := beginning?_eq_none_of_declarationsIn suffix_of_mem_declarations hscan
        rw [declarationsIn_append hnone] at hscan
        exact ⟨hnone, hscan⟩
      · rintro ⟨hnone, hscan⟩
        rw [declarationsIn_append hnone, hscan]

/-- The declarations among the pieces of a document are those that are found in its text: comments
that are no declarations do not matter for those that are. -/
theorem declarations_ofText (t : Text) : declarations (ofText t) = declarationsIn t := by
  have h := (declarationsIn_textOf_iff (tidy_of_shaped (shaped_ofText t))).2
    fun _ hs => read?_of_mem_strays hs
  rw [← h, textOf_ofText]

/-! ## Rows with declarations taken out -/

/-- A piece in front of a row. Of two plain stretches it makes one. -/
def attach : Piece → List Piece → List Piece
  | plain t, plain s :: ps => plain (t ++ s) :: ps
  | p, ps => p :: ps

/-- The row with plain stretches made one where they stand side by side. -/
def join (ps : List Piece) : List Piece := ps.foldr attach []

theorem join_cons (p : Piece) (ps : List Piece) : join (p :: ps) = attach p (join ps) := rfl

/-- Joining plain text to the piece before it changes nothing in the text. -/
theorem textOf_attach (p : Piece) (ps : List Piece) :
    textOf (attach p ps) = p.text ++ textOf ps := by
  unfold attach
  split
  · simp [text]
  · rfl

/-- A tidy row with one more piece attached in front is tidy. -/
theorem tidy_attach (p : Piece) {ps : List Piece} (h : Tidy ps) : Tidy (attach p ps) := by
  match p, ps, h with
  | comment body, _, h => exact h
  | plain t, [], _ => trivial
  | plain t, plain s :: [], _ => trivial
  | plain t, plain s :: comment body :: ps, h => exact h
  | plain t, comment body :: ps, h => exact h

theorem declared_attach (p : Piece) (ps : List Piece) :
    Variables.declared (attach p ps) = Variables.declared (p :: ps) := by
  unfold attach
  split
  · rfl
  · rfl

theorem textOf_join (ps : List Piece) : textOf (join ps) = textOf ps := by
  induction ps with
  | nil => rfl
  | cons p ps ih => rw [join_cons, textOf_attach, ih, textOf_cons]

theorem tidy_join (ps : List Piece) : Tidy (join ps) := by
  induction ps with
  | nil => trivial
  | cons p ps ih => exact tidy_attach p ih

theorem declared_join (ps : List Piece) :
    Variables.declared (join ps) = Variables.declared ps := by
  induction ps with
  | nil => rfl
  | cons p ps ih => rw [join_cons, declared_attach, declared_cons, declared_cons, ih]

/-- The row without the declarations of a variable. -/
def without (name : Text) (ps : List Piece) : List Piece :=
  join (ps.filter fun p => !p.declares name)

theorem lookup_declared_without (name m : Text) (ps : List Piece) :
    (Variables.declared (without name ps)).lookup m =
      if m = name then none else (Variables.declared ps).lookup m := by
  rw [without, declared_join]
  induction ps with
  | nil => simp [Variables.declared]
  | cons p ps ih =>
    cases hp : p.declares name with
    | true =>
      obtain ⟨d, hd, rfl, rfl⟩ := exists_of_declares hp
      rw [List.filter_cons_of_neg (by simp [hp]), ih, lookup_declared_comment hd]
      split <;> rfl
    | false =>
      rw [List.filter_cons_of_pos (by simp [hp]), declared_cons, declared_cons, List.lookup_append,
        List.lookup_append, ih]
      split
      · next hm =>
        -- what the piece declares is not the variable
        subst hm
        have hnone := lookup_declared_of_not_declares hp []
        rw [declared_cons] at hnone
        simpa [Variables.declared] using hnone
      · rfl

/-- No stray opener of the row begins a declaration. -/
def Unread (ps : List Piece) : Prop := ∀ s ∈ strays ps, Declaration.read? s = none

instance (ps : List Piece) : Decidable (Unread ps) :=
  inferInstanceAs (Decidable (∀ s ∈ strays ps, Declaration.read? s = none))

end Piece

namespace Variables

open Piece

variable {name : Text}

/-- Erasing a variable leaves the text of the pieces without its declarations. -/
theorem erase_eq (hname : isName name = true) (t : Text) :
    erase t name = .ok (textOf (without name (ofText t))) := by
  rw [erase, checkName, if_pos hname, without, textOf_join]
  rfl

/-- A document that does not declare `name` is left as it is by `erase`. -/
theorem erase_of_get?_eq_none (hname : isName name = true) {t : Text} (h : get? t name = none) :
    erase t name = .ok t := by
  have hkept : (ofText t).filter (fun p => !p.declares name) = ofText t := by
    refine List.filter_eq_self.2 fun p hp => ?_
    cases hd : p.declares name with
    | false => rfl
    | true => exact absurd h (lookup_declared_of_any (List.any_eq_true.2 ⟨p, hp, hd⟩))
  rw [erase_eq hname, without, textOf_join, hkept, textOf_ofText]

/-- **The law of erasing.** Erasing a variable always succeeds and takes out its declarations. What
is left declares what it did before, each declaration at its place and nothing else, exactly when no
stray opener begins a declaration in it (`Unread`). Then the variable is gone, all others have the
values that they had, and erasing it again changes nothing. -/
theorem get?_erase (hname : isName name = true) (t : Text) :
    ∃ t', erase t name = .ok t' ∧
      (declarations (ofText t') = declarations (without name (ofText t)) ↔
        Unread (without name (ofText t))) ∧
      (Unread (without name (ofText t)) →
        (∀ m, get? t' m = if m = name then none else get? t m) ∧ erase t' name = .ok t') := by
  have hiff : declarations (ofText (textOf (without name (ofText t)))) =
      declarations (without name (ofText t)) ↔ Unread (without name (ofText t)) := by
    rw [declarations_ofText]
    exact declarationsIn_textOf_iff (tidy_join _)
  refine ⟨_, erase_eq hname t, hiff, fun hunread => ?_⟩
  have hget (m : Text) : get? (textOf (without name (ofText t))) m =
      if m = name then none else get? t m := by
    rw [get?, declared_eq_of_declarations, hiff.2 hunread, ← declared_eq_of_declarations,
      lookup_declared_without]
    rfl
  exact ⟨hget, erase_of_get?_eq_none hname (by rw [hget, if_pos rfl])⟩

/-- A document with an opener that does not begin anything, before a variable and behind it. -/
def looseText : Text := "<!-- a <!-- var(x)=\"1\" --> <!-<!-- var(y)=\"2\" -->".toList

/-- Without `x` the document has `y` as before. -/
theorem get?_erase_looseText :
    ∃ t', erase looseText ['x'] = .ok t' ∧ get? t' ['x'] = none ∧ get? t' ['y'] = some ['2'] ∧
      erase t' ['x'] = .ok t' := by
  have hname : isName ['x'] = true := rfl
  obtain ⟨t', ht', -, hlaw⟩ := get?_erase hname looseText
  obtain ⟨hget, hagain⟩ := hlaw (by decide +kernel)
  refine ⟨t', ht', by rw [hget]; rfl, ?_, hagain⟩
  rw [hget, if_neg (by decide)]
  decide +kernel

/-! ## What can happen to the text that is left -/

/-- Two parts of an opener stand around the first declaration, and the rest of another behind it. -/
def splitText : Text := "<!-<!-- var(x)=\"1\" -->- var(x)=\"2\" -->".toList

/-- The same with another variable behind it. -/
def splitOtherText : Text := "<!-<!-- var(x)=\"1\" -->- var(y)=\"2\" -->".toList

/-- An opener that begins an unfinished value. Behind the variable stand another one, and the end of
that value. -/
def coveringText : Text :=
  "<!-- var(z)=\"<!-- var(x)=\"1\" --><!-- var(y)='2' -->\" -->".toList

/-- **Erasing joins the text on both sides.** The variable can be declared again by what is left,
another one can come to be declared, and one can vanish into the value of another. -/
theorem erase_joins :
    (∃ t', erase splitText ['x'] = .ok t' ∧ get? t' ['x'] = some ['2'] ∧
      erase t' ['x'] = .ok []) ∧
    (∃ t', erase splitOtherText ['x'] = .ok t' ∧ get? splitOtherText ['y'] = none ∧
      get? t' ['y'] = some ['2']) ∧
    ∃ t', erase coveringText ['x'] = .ok t' ∧ get? coveringText ['y'] = some ['2'] ∧
      get? t' ['y'] = none ∧ get? coveringText ['z'] = none ∧ get? t' ['z'] ≠ none := by
  refine ⟨⟨"<!-- var(x)=\"2\" -->".toList, ?_, ?_, ?_⟩,
    ⟨"<!-- var(y)=\"2\" -->".toList, ?_, ?_, ?_⟩,
    ⟨"<!-- var(z)=\"<!-- var(y)='2' -->\" -->".toList, ?_, ?_, ?_, ?_, ?_⟩⟩
  · exact Fill.eq_ok_of_toOption (by decide +kernel)
  · decide +kernel
  · exact Fill.eq_ok_of_toOption (by decide +kernel)
  · exact Fill.eq_ok_of_toOption (by decide +kernel)
  · decide +kernel
  · decide +kernel
  · exact Fill.eq_ok_of_toOption (by decide +kernel)
  · decide +kernel
  · decide +kernel
  · decide +kernel
  · decide +kernel

end Variables

end Transclude
