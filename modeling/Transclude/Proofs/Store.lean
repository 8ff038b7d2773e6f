import Transclude.Proofs.Capture

/-!
# The store law

Setting a variable and reading it back should give the value, and every other variable should read
as before. Both ways of setting a variable, in the declarations that there are and in a new one, are
the same edit: a new declaration is first put into the document without a value
(`Variables.places`), and then edited like any other (`Variables.set_eq`).

The law holds for a document and a variable, whatever the value, exactly when no opener before a
declaration of the variable is exposed. For that direction see `Piece.ofText_edit`. Where an opener
is exposed, `Piece.exists_declares_edit` brings a declaration of a variable into the document that
it did not have.

Main statements:
- `Variables.set_eq`: setting a variable is one edit of its places.
- `Variables.lawful_of_not_exposed`, `Variables.not_lawful_of_exposed`: when the law holds.
-/

namespace Transclude

namespace Declaration

/-- A gap `g` behind a text cannot be what a declaration lacks, for that ends with a closer. -/
theorem read?_append_gap {t g : Text} (h : read? t = none) (hg : IsGap g) :
    read? (t ++ g) = none := by
  cases hread : read? (t ++ g) with
  | none => rfl
  | some p =>
    obtain ⟨d, rest⟩ := p
    obtain ⟨hd, heq⟩ := read?_eq_some_iff.1 hread
    rcases List.append_eq_append_iff.1 heq with ⟨a, ha, hrest⟩ | ⟨a, ha, -⟩
    · -- the closer would have to end within the gap
      cases hlast : a.getLast? with
      | none =>
        rw [List.getLast?_eq_none_iff] at hlast
        rw [hlast, List.append_nil] at ha
        rw [read?_eq_some_iff.2 ⟨hd, by rw [← ha, List.append_nil]⟩] at h
        cases h
      | some c =>
        have hc : (d.body ++ closer).getLast? = some c := by
          rw [ha, List.getLast?_append, hlast]
          rfl
        have hc' : c = '>' := by simpa [closer] using hc.symm
        have hmem : c ∈ g := by
          rw [hrest]
          exact List.mem_append_left _ (List.mem_of_getLast? hlast)
        exact absurd (hg c hmem) (by rw [hc']; decide)
    · rw [read?_eq_some_iff.2 ⟨hd, ha⟩] at h
      cases h

end Declaration

namespace Piece

/-- An opener does not begin in a gap, so it is in the text behind the gap. -/
theorem opener_suffix_of_gap {g b t : Text} (hg : IsGap g) (h : opener ++ b <:+ g ++ t) :
    opener ++ b <:+ t := by
  induction g with
  | nil => exact h
  | cons c g ih =>
    rw [List.cons_append, List.suffix_cons_iff] at h
    rcases h with h | h
    · have hc : c = '<' := (List.cons.inj h).1.symm
      exact absurd (hg c List.mem_cons_self) (by rw [hc]; decide)
    · exact ih (fun x hx => hg x (List.mem_cons_of_mem _ hx)) h

theorem not_opener_suffix_of_gap {g b : Text} (hg : IsGap g) : ¬opener ++ b <:+ g := by
  intro h
  rw [← List.append_nil g] at h
  simpa [opener] using opener_suffix_of_gap hg h

/-- The pieces with more plain text in front. -/
def prepend (g : Text) : List Piece → List Piece
  | plain t :: ps => plain (g ++ t) :: ps
  | ps => plain g :: ps

theorem textOf_prepend (g : Text) (ps : List Piece) : textOf (prepend g ps) = g ++ textOf ps := by
  unfold prepend
  split
  · simp [text]
  · rfl

theorem declared_prepend (g : Text) (ps : List Piece) :
    Variables.declared (prepend g ps) = Variables.declared ps := by
  unfold prepend
  split <;> rfl

theorem not_declares_of_mem_prepend {name g : Text} {ps : List Piece}
    (h : ∀ p ∈ ps, p.declares name = false) : ∀ p ∈ prepend g ps, p.declares name = false := by
  intro p hp
  unfold prepend at hp
  split at hp
  · rcases List.mem_cons.1 hp with rfl | hp
    · rfl
    · exact h p (List.mem_cons_of_mem _ hp)
  · rcases List.mem_cons.1 hp with rfl | hp
    · rfl
    · exact h p hp

theorem shaped_prepend {g : Text} (hg : IsGap g) :
    ∀ {ps : List Piece}, Shaped ps → Shaped (prepend g ps)
  | [plain t], h => fun b hb => h b (opener_suffix_of_gap hg hb)
  | plain before :: comment body :: ps, ⟨hjoins, hps⟩ => by
    refine ⟨⟨fun b hb => hjoins.unclosed b (opener_suffix_of_gap hg hb), fun hin => ?_,
      hjoins.clean⟩, hps⟩
    obtain ⟨b, hb⟩ := Text.infix_iff_exists_suffix.1 hin
    exact hjoins.opens (Text.infix_iff_exists_suffix.2 ⟨b, opener_suffix_of_gap hg hb⟩)

theorem straysTo_prepend {f : Piece → Bool} {g : Text} (hg : IsGap g) {ps : List Piece}
    (hps : Shaped ps) {s : Text × Bool} (h : s ∈ straysTo f (prepend g ps)) :
    s ∈ straysTo f ps := by
  match ps, hps with
  | plain t :: ps, _ =>
    rcases mem_straysTo_cons.1 h with ⟨hp, b, hb, rfl⟩ | h
    · exact mem_straysTo_cons.2 (.inl ⟨hp, b, opener_suffix_of_gap hg hb, rfl⟩)
    · exact mem_straysTo_cons.2 (.inr h)

/-- Cutting after the last piece that `f` accepts, a comment, cuts the shape in two: the tail has
it, and so has the head with any row behind it. -/
theorem shaped_splitAfterLast? {f : Piece → Bool} (hf : ∀ t, f (plain t) = false) :
    ∀ {ps head tail : List Piece}, Shaped ps → splitAfterLast? f ps = some (head, tail) →
      Shaped tail ∧ ∀ {qs : List Piece}, Shaped qs → Shaped (head ++ qs)
  | [plain t], head, tail, _, h => by simp [splitAfterLast?, hf] at h
  | plain before :: comment body :: ps, head, tail, ⟨hjoins, hps⟩, h => by
    rw [splitAfterLast?, splitAfterLast?] at h
    cases hsplit : splitAfterLast? f ps with
    | some p =>
      obtain ⟨head', tail'⟩ := p
      rw [hsplit] at h
      simp only [Option.some.injEq, Prod.mk.injEq] at h
      obtain ⟨rfl, rfl⟩ := h
      obtain ⟨htail, hhead⟩ := shaped_splitAfterLast? hf hps hsplit
      exact ⟨htail, fun hqs => ⟨hjoins, hhead hqs⟩⟩
    | none =>
      rw [hsplit] at h
      cases hc : f (comment body) with
      | true =>
        simp only [hc, if_true, Option.some.injEq, Prod.mk.injEq] at h
        obtain ⟨rfl, rfl⟩ := h
        exact ⟨hps, fun hqs => ⟨hjoins, hqs⟩⟩
      | false => simp [hc, hf] at h

section Insert

variable {name : Text}

/-- Where no piece of `l` satisfies `f`, the text up to the next that does goes on behind `l`. -/
theorem textTo_append {f : Piece → Bool} {l : List Piece} (hl : ∀ p ∈ l, f p = false)
    (qs : List Piece) : textTo f (l ++ qs) = (textOf l ++ (textTo f qs).1, (textTo f qs).2) := by
  induction l with
  | nil => rfl
  | cons p l ih =>
    rw [List.cons_append, textTo, if_neg (by simp [hl p List.mem_cons_self]),
      ih fun q hq => hl q (List.mem_cons_of_mem _ hq), textOf_cons, List.append_assoc]

/-- If the strays of `l ++ r` begin no declaration, then those of `l` begin none either when a gap
and a declaration of `name` are put behind `l`. -/
theorem read?_of_mem_straysTo_insert {l r : List Piece} {sep : Text} {slot : Piece}
    {qs : List Piece} (hsep : IsGap sep) (hslot : slot.declares name = true)
    (hl : ∀ p ∈ l, p.declares name = false)
    (hread : ∀ s ∈ strays (l ++ r), Declaration.read? s = none)
    (hqs : ∀ s ∈ straysTo (declares name) qs, Declaration.read? s.1 = none) :
    ∀ s ∈ straysTo (declares name) (l ++ plain sep :: slot :: qs),
      Declaration.read? s.1 = none := by
  induction l with
  | nil =>
    intro s hs
    rcases mem_straysTo_cons.1 hs with ⟨-, b, hb, -⟩ | hs
    · exact absurd hb (not_opener_suffix_of_gap hsep)
    -- a declaration has no stray openers
    rcases mem_straysTo_cons.1 hs with ⟨hdecl, -⟩ | hs
    · rw [isDeclaration_of_declares hslot] at hdecl
      cases hdecl
    · exact hqs s hs
  | cons p l ih =>
    intro s hs
    rcases mem_straysTo_cons.1 hs with ⟨hp, b, hb, rfl⟩ | hs
    · -- up to the new declaration the text goes on as before, but for the gap
      have hstray : Declaration.read? (b ++ textOf (l ++ r)) = none :=
        hread _ (mem_strays_cons.2 (.inl ⟨hp, b, hb, rfl⟩))
      have hto :
          textTo (declares name) (l ++ plain sep :: slot :: qs) = (textOf l ++ sep, true) := by
        have hplain : (plain sep).declares name = false := rfl
        rw [textTo_append fun q hq => hl q (List.mem_cons_of_mem _ hq), textTo, hplain,
          if_neg (by decide), textTo, if_pos hslot, text, List.append_nil]
      rw [textOf_append, ← List.append_assoc] at hstray
      show Declaration.read?
        (b ++ (textTo (declares name) (l ++ plain sep :: slot :: qs)).1) = none
      rw [hto, ← List.append_assoc]
      exact Declaration.read?_append_gap (Declaration.read?_eq_none_of_append hstray) hsep
    · exact ih (fun q hq => hl q (List.mem_cons_of_mem _ hq))
        (fun s' hs' => hread s' (mem_strays_cons.2 (.inr hs'))) s hs

end Insert

end Piece

namespace Variables

/-- Where a new declaration goes: the pieces before it, the text between, and the pieces after
it. -/
structure Cut where
  head : List Piece
  sep : Text
  tail : List Piece

/-- After the last include marker, or at the top. -/
def cut (ps : List Piece) : Cut :=
  match Piece.splitAfterLast? Piece.isIncludeMarker ps with
  | some (head, tail) => ⟨head, ['\n'], tail⟩
  | none => ⟨[], [], ps⟩

/-- The line ends after a new declaration. -/
def gapBefore (t : Text) : Text := if t = [] ∨ t.head? = some '\n' then ['\n'] else ['\n', '\n']

/-- A declaration of the variable without a value. -/
def slot (name : Text) : Declaration := .write [' '] name '"' []

/-- The pieces of a document with a declaration of the variable, but for its value, put in. -/
def withSlot (name : Text) (ps : List Piece) : List Piece :=
  (cut ps).head ++ .plain (cut ps).sep :: .comment (slot name).body ::
    Piece.prepend (gapBefore (Piece.textOf (cut ps).tail)) (cut ps).tail

/-- The pieces of a document in which the variable is set: a declaration is put in if there is
none. -/
def places (name : Text) (ps : List Piece) : List Piece :=
  if ps.any (Piece.declares name) then ps else withSlot name ps

theorem isGap_gapBefore (t : Text) : IsGap (gapBefore t) := by
  unfold gapBefore
  split <;> exact isGap_iff.2 rfl

theorem isGap_sep (ps : List Piece) : IsGap (cut ps).sep := by
  unfold cut
  split
  · exact isGap_iff.2 rfl
  · exact isGap_nil

/-- The cut at the place of a new declaration loses nothing. -/
theorem head_append_tail (ps : List Piece) : (cut ps).head ++ (cut ps).tail = ps := by
  unfold cut
  split
  · next h => exact (Piece.eq_of_splitAfterLast? h).symm
  · rfl

theorem shaped_cut {ps : List Piece} (h : Piece.Shaped ps) :
    Piece.Shaped (cut ps).tail ∧
      ∀ {qs : List Piece}, Piece.Shaped qs → Piece.Shaped ((cut ps).head ++ qs) := by
  unfold cut
  split
  · next hsplit => exact Piece.shaped_splitAfterLast? (fun _ => rfl) h hsplit
  · exact ⟨h, fun hqs => hqs⟩

section

variable {name : Text} (hname : isName name = true)

include hname

/-- The declaration that is put in first, with an empty value, is well formed. -/
theorem wellFormed_slot : (slot name).WellFormed :=
  Declaration.wellFormed_write (isGap_iff.2 rfl) hname rfl []

theorem declares_slot : (Piece.comment (slot name).body).declares name = true :=
  Piece.declares_comment (wellFormed_slot hname)

/-- A row without declarations of the variable is `Ready` for an edit once one was put in. -/
theorem ready_withSlot {ps : List Piece} (hps : ∀ p ∈ ps, p.declares name = false)
    (hshaped : Piece.Shaped ps) (hread : ∀ s ∈ Piece.strays ps, Declaration.read? s = none) :
    Piece.Ready name (withSlot name ps) := by
  obtain ⟨htail, hhead⟩ := shaped_cut hshaped
  have hgap := isGap_gapBefore (Piece.textOf (cut ps).tail)
  have hsplit := head_append_tail ps
  have htailRead : ∀ s ∈ Piece.strays (cut ps).tail, Declaration.read? s = none := fun s hs =>
    hread s (hsplit ▸ Piece.mem_strays_append_right hs)
  refine ⟨hhead ⟨⟨fun b hb => ?_, fun hin => ?_, ?_⟩, Piece.shaped_prepend hgap htail⟩, ?_⟩
  · exact absurd hb (Piece.not_opener_suffix_of_gap (isGap_sep ps))
  · obtain ⟨b, hb⟩ := Text.infix_iff_exists_suffix.1 hin
    exact absurd hb (Piece.not_opener_suffix_of_gap (isGap_sep ps))
  · exact .inl (Piece.isDeclaration_of_declares (declares_slot hname))
  · refine Piece.read?_of_mem_straysTo_insert (isGap_sep ps) (declares_slot hname) (fun p hp => ?_)
      (by rw [hsplit]; exact hread) fun s hs => ?_
    · exact hps p (by rw [← hsplit]; exact List.mem_append_left _ hp)
    · exact Piece.read?_of_mem_straysTo htailRead s (Piece.straysTo_prepend hgap htail hs)

/-- The places of a variable in a document are ready for an edit, whether or not it was declared
there. -/
theorem ready_places (t : Text) : Piece.Ready name (places name (Piece.ofText t)) := by
  unfold places
  split
  · exact Piece.ready_ofText name t
  · next hnone =>
    refine ready_withSlot hname (fun p hp => ?_) (Piece.shaped_ofText t) fun s hs =>
      Piece.read?_of_mem_strays hs
    simpa using List.any_eq_false.1 (by simpa using hnone) p hp

/-- The variable is declared in its places. -/
theorem any_places (ps : List Piece) : (places name ps).any (Piece.declares name) = true := by
  unfold places
  split
  · next h => exact h
  · simp [withSlot, declares_slot hname]

/-- The new declaration, as a piece: editing the one that was put in gives its text. -/
theorem text_edit_slot (value : Text) :
    (Piece.edit name value (.comment (slot name).body)).text = declarationText name value := by
  have hedit : Piece.edit name value (.comment (slot name).body) =
      .comment ((slot name).withValue value).body := Piece.edit_comment (wellFormed_slot hname)
  rw [hedit]
  simp [Piece.text, Declaration.body, Declaration.withValue, slot, Declaration.write,
    declarationText, declarationWord]

/-- Inserting a declaration is editing the one that was put in. -/
theorem insert_eq {ps : List Piece} (hps : ∀ p ∈ ps, p.declares name = false) (value : Text) :
    insert name value ps = Piece.textOf ((withSlot name ps).map (Piece.edit name value)) := by
  have hsplit := head_append_tail ps
  have hhead : (cut ps).head.map (Piece.edit name value) = (cut ps).head :=
    Piece.map_edit_of_not_declares fun p hp =>
      hps p (by rw [← hsplit]; exact List.mem_append_left _ hp)
  -- only the new declaration is one of the variable
  have htail : (Piece.prepend (gapBefore (Piece.textOf (cut ps).tail)) (cut ps).tail).map
      (Piece.edit name value) = _ :=
    Piece.map_edit_of_not_declares <| Piece.not_declares_of_mem_prepend fun p hp =>
      hps p (by rw [← hsplit]; exact List.mem_append_right _ hp)
  rw [withSlot, List.map_append, List.map_cons, List.map_cons, hhead, htail, Piece.textOf_append,
    Piece.textOf_cons, Piece.textOf_cons, Piece.textOf_prepend, text_edit_slot hname,
    Piece.edit_of_not_declares rfl, insert, cut]
  cases Piece.splitAfterLast? Piece.isIncludeMarker ps with
  | none => simp [Piece.text, gapBefore]
  | some p => simp [Piece.text, gapBefore]

/-- **Setting a variable is one edit** of its places, whether or not it was declared before. -/
theorem set_eq (t value : Text) :
    set t name value =
      .ok (Piece.textOf ((places name (Piece.ofText t)).map (Piece.edit name value))) := by
  have hcheck : checkName name = .ok () := if_pos hname
  rw [set, hcheck, places]
  show (if (Piece.ofText t).any (Piece.declares name) = true then _ else _) = _
  split
  · rfl
  · next hnone =>
    rw [insert_eq hname fun p hp => by simpa using List.any_eq_false.1 (by simpa using hnone) p hp]
    rfl

/-- A declaration that is put in changes no other variable `m`. -/
theorem lookup_declared_places {m : Text} (hm : m ≠ name) (ps : List Piece) :
    (declared (places name ps)).lookup m = (declared ps).lookup m := by
  unfold places
  split
  · rfl
  · have hslot : (Piece.comment (slot name).body).declares m = false := by
      rw [Piece.declares, Piece.declaration?_comment (wellFormed_slot hname)]
      simpa [slot, Declaration.write] using Ne.symm hm
    have htail : declared (Piece.prepend (gapBefore (Piece.textOf (cut ps).tail)) (cut ps).tail) =
        declared (cut ps).tail := Piece.declared_prepend _ _
    conv => rhs; rw [← head_append_tail ps]
    rw [withSlot, Piece.declared_append, Piece.declared_append, List.lookup_append,
      List.lookup_append, Piece.lookup_declared_of_not_declares rfl,
      Piece.lookup_declared_of_not_declares hslot, htail]

/-- What the edited pieces declare: the variable has the new value, every other one what it had. -/
theorem lookup_declared_edit (ps : List Piece) (value m : Text) :
    (declared ((places name ps).map (Piece.edit name value))).lookup m =
      if m = name then some value else (declared ps).lookup m := by
  split
  · next h =>
    rw [h]
    exact Piece.lookup_declared_edit_self value (any_places hname ps)
  · next h => rw [Piece.lookup_declared_edit_of_ne h, lookup_declared_places hname h]

end

/-- There is a name outside any list. -/
theorem exists_name_not_mem (l : List Text) : ∃ m, isName m = true ∧ m ∉ l := by
  obtain ⟨k, hk⟩ : ∃ k, ∀ x ∈ l, x.length ≤ k := by
    induction l with
    | nil => exact ⟨0, fun x hx => nomatch hx⟩
    | cons x l ih =>
      obtain ⟨k, hk⟩ := ih
      refine ⟨max x.length k, fun y hy => ?_⟩
      rcases List.mem_cons.1 hy with rfl | hy
      · exact Nat.le_max_left _ _
      · exact Nat.le_trans (hk y hy) (Nat.le_max_right _ _)
  -- a name longer than all of them
  refine ⟨List.replicate (k + 1) 'a', ?_, fun hm => ?_⟩
  · simp [isName, isNameChar]
  · have hlen := hk _ hm
    rw [List.length_replicate] at hlen
    omega

/-- The store law for a document and a variable: after setting it to any value, it has that value
and every other variable has the one that it had. -/
def Lawful (t name : Text) : Prop :=
  ∀ value, ∃ t', set t name value = .ok t' ∧
    ∀ m, get? t' m = if m = name then some value else get? t m

/-- Where no opener is `Exposed`, the store law (`Lawful`) holds for all values. -/
theorem lawful_of_not_exposed {t name : Text} (hname : isName name = true)
    (h : ¬Piece.Exposed name (places name (Piece.ofText t))) : Lawful t name := by
  intro value
  refine ⟨_, set_eq hname t value, fun m => ?_⟩
  rw [get?, Piece.ofText_edit (ready_places hname t) h value, lookup_declared_edit hname]
  rfl

/-- Where an opener is `Exposed`, it captures some value, and there the store law fails. -/
theorem not_lawful_of_exposed {t name : Text} (hname : isName name = true)
    (h : Piece.Exposed name (places name (Piece.ofText t))) : ¬Lawful t name := by
  intro hlaw
  have hready := ready_places hname t
  -- a variable that is neither the one set nor declared in the document
  obtain ⟨other, hother, hnot⟩ :=
    exists_name_not_mem (name :: (declared (Piece.ofText t)).map Prod.fst)
  rw [List.mem_cons, not_or] at hnot
  obtain ⟨value, hvalue⟩ := Piece.exists_declares_edit hother hready.shaped hready.unread h
  obtain ⟨t', ht', hget⟩ := hlaw value
  rw [set_eq hname] at ht'
  obtain rfl := Except.ok.inj ht'
  have hnone : get? t other = none := by
    rw [get?, List.lookup_eq_none_iff]
    intro p hp
    rw [bne_iff_ne]
    rintro rfl
    exact hnot.2 (List.mem_map_of_mem hp)
  have hother' := hget other
  rw [if_neg hnot.1, hnone] at hother'
  exact Piece.lookup_declared_of_any hvalue hother'

/-- **When the store law holds.** Setting a variable always succeeds. For a document, the law holds
for all values exactly when no opener before a declaration of the variable, or before the place of a
new one, begins a declaration that is unfinished there. -/
theorem get?_set_iff {name : Text} (hname : isName name = true) (t : Text) :
    (∀ value, ∃ t', set t name value = .ok t') ∧
      (Lawful t name ↔ ¬Piece.Exposed name (places name (Piece.ofText t))) :=
  ⟨fun value => ⟨_, set_eq hname t value⟩,
    fun h hexposed => not_lawful_of_exposed hname hexposed h, lawful_of_not_exposed hname⟩

/-- A document with an opener that is exposed: it begins a declaration of `z` that is unfinished
where the declaration of `x` begins. -/
def unfinishedText : Text := "<!-- var(z)=\" <!-- var(x)=\"a\" -->".toList

/-- The declaration of `x` in it. -/
def unfinishedText.declaration : Declaration := ⟨" var(x)=".toList, ['x'], '"', ['a'], [' ']⟩

theorem read?_unfinishedText :
    Declaration.read? " var(x)=\"a\" -->".toList = some (unfinishedText.declaration, []) := rfl

theorem wellFormed_unfinishedText : unfinishedText.declaration.WellFormed :=
  (Declaration.read?_eq_some_iff.1 read?_unfinishedText).1

theorem ofText_unfinishedText :
    Piece.ofText unfinishedText =
      [.plain "<!-- var(z)=\" ".toList, .comment unfinishedText.declaration.body, .plain []] := by
  have hcut : Text.cutAt? opener unfinishedText =
      some ([], " var(z)=\" <!-- var(x)=\"a\" -->".toList) := rfl
  have hnone : Declaration.read? " var(z)=\" <!-- var(x)=\"a\" -->".toList = none := rfl
  have hahead : Piece.Ahead.find? " var(z)=\" <!-- var(x)=\"a\" -->".toList =
      some (.opened " var(z)=\" ".toList " var(x)=\"a\" -->".toList) := rfl
  have hafter : Piece.afterOpener? " var(z)=\" <!-- var(x)=\"a\" -->".toList =
      some (opener ++ " var(z)=\" ".toList ++ [], unfinishedText.declaration.body, []) := by
    rw [Piece.afterOpener?_opened hnone hahead, Piece.afterOpener?_declaration read?_unfinishedText,
      Option.map_some]
  have hfirst := Piece.firstComment?_of_cutAt? hcut hafter
  rw [Piece.ofText_some hfirst, Piece.ofText_none (t := []) rfl]
  rfl

theorem places_unfinishedText :
    places ['x'] (Piece.ofText unfinishedText) = Piece.ofText unfinishedText := by
  have hdeclares : (Piece.comment unfinishedText.declaration.body).declares ['x'] = true :=
    Piece.declares_comment wellFormed_unfinishedText
  rw [places, ofText_unfinishedText, if_pos]
  simp [hdeclares]

/-- The store law fails for `unfinishedText` and the variable `x`: its first opener is exposed. -/
theorem not_lawful_unfinishedText : isName ['x'] = true ∧ ¬Lawful unfinishedText ['x'] := by
  refine ⟨rfl, fun hlaw => (get?_set_iff rfl unfinishedText).2.1 hlaw ?_⟩
  have hdeclares : (Piece.comment unfinishedText.declaration.body).declares ['x'] = true :=
    Piece.declares_comment wellFormed_unfinishedText
  have hto : Piece.strayTo (Piece.declares ['x']) " var(z)=\" ".toList
      [.comment unfinishedText.declaration.body, .plain []] = (" var(z)=\" ".toList, true) := by
    rw [Piece.strayTo, Piece.textTo, if_pos hdeclares, List.append_nil]
  have hopener : opener ++ " var(z)=\" ".toList <:+ "<!-- var(z)=\" ".toList := List.suffix_rfl
  rw [places_unfinishedText, ofText_unfinishedText]
  refine ⟨_, Piece.mem_straysTo_cons.2 (.inl ⟨rfl, _, hopener, rfl⟩), ?_⟩
  rw [hto]
  exact ⟨rfl, rfl⟩

/-- With a closer as its value `x` is no variable any more, and `z` is one. -/
theorem set_unfinishedText :
    set unfinishedText ['x'] closer = .ok "<!-- var(z)=\" <!-- var(x)=\"-->\" -->".toList ∧
      get? "<!-- var(z)=\" <!-- var(x)=\"-->\" -->".toList ['x'] = none ∧
      get? "<!-- var(z)=\" <!-- var(x)=\"-->\" -->".toList ['z'] = some " <!-- var(x)=".toList ∧
      get? unfinishedText ['z'] = none := by
  have hread : Declaration.read? " var(z)=\" <!-- var(x)=\"-->\" -->".toList =
      some (⟨" var(z)=".toList, ['z'], '"', " <!-- var(x)=".toList, []⟩, "\" -->".toList) := rfl
  have hwell := (Declaration.read?_eq_some_iff.1 hread).1
  have hpieces := Piece.ofText_of_read? hread
  have hrest : Piece.firstComment? "\" -->".toList = none := rfl
  rw [Piece.ofText_none hrest] at hpieces
  have hget (m : Text) : get? "<!-- var(z)=\" <!-- var(x)=\"-->\" -->".toList m =
      if m = ['z'] then some " <!-- var(x)=".toList else none := by
    have htext : "<!-- var(z)=\" <!-- var(x)=\"-->\" -->".toList =
        opener ++ " var(z)=\" <!-- var(x)=\"-->\" -->".toList := rfl
    rw [get?, htext, hpieces, Piece.lookup_declared_of_not_declares rfl,
      Piece.lookup_declared_comment hwell, Piece.lookup_declared_of_not_declares rfl]
    rfl
  have hedit : Piece.edit ['x'] closer (.comment unfinishedText.declaration.body) = _ :=
    Piece.edit_comment wellFormed_unfinishedText
  refine ⟨?_, ?_, ?_, ?_⟩
  · rw [set_eq rfl, places_unfinishedText, ofText_unfinishedText, List.map_cons, List.map_cons,
      hedit]
    rfl
  · rw [hget]
    rfl
  · rw [hget]
    rfl
  · rw [get?, ofText_unfinishedText, Piece.lookup_declared_of_not_declares rfl,
      Piece.lookup_declared_comment wellFormed_unfinishedText,
      Piece.lookup_declared_of_not_declares rfl]
    rfl

end Variables

end Transclude
