import Transclude.Variables

/-!
# Where the comments of a document are

The reader of comments goes from opener to opener. At each it tries a declaration, and otherwise
looks ahead for the nearer of a closer and another opener, so that what it finds behind one opener
depends on all the text that follows. This file says without a reader which comments it finds.

The first comment is described by the openers that lead to it (`Piece.Leads`): no declaration begins
at any of them, and no closer follows before the next.

Then the description is taken apart. How the pieces are shaped can be seen from each plain stretch
and the comment after it (`Piece.Shaped`); only whether an opener begins a declaration depends on
what comes later. The openers that must begin none are the stray ones (`Piece.strays`).

Main statements:
- `Piece.firstComment?_eq_some_iff`, `Piece.firstComment?_eq_none_iff`: where the first comment of a
  text is, and when there is none.
- `Piece.ofText_textOf_iff`: a row of pieces is that of its text exactly when it has the right shape
  and no stray opener begins a declaration.
-/

namespace Transclude

namespace Piece

/-! ## The first comment -/

/-- The body of a comment, with the text after its closer: a declaration, or a text with neither
mark in it that begins no declaration. -/
def CommentAt (body rest : Text) : Prop :=
  (∃ d : Declaration, d.WellFormed ∧ d.body = body) ∨
    Declaration.read? (body ++ (closer ++ rest)) = none ∧ ¬opener <:+: body ∧ ¬closer <:+: body

/-- What may stand before the opener of a comment that goes on with `u`: openers, as long as none of
them begins a declaration, no closer follows any, and the last comment mark is the opener itself. -/
structure Leads (before u : Text) : Prop where
  unread : ∀ b, opener ++ b <:+ before → Declaration.read? (b ++ (opener ++ u)) = none
  unclosed : ∀ b, opener ++ b <:+ before → ¬closer <:+: b
  opens : opener <:+: before → Opens u

theorem Leads.nil (u : Text) : Leads [] u where
  unread b h := by simp [opener] at h
  unclosed b h := by simp [opener] at h
  opens h := by simp [opener] at h

/-- What leads to a comment (`Leads`) still does when its beginning is cut off. -/
theorem Leads.suffix {before s u : Text} (h : Leads before u) (hs : s <:+ before) : Leads s u where
  unread b hb := h.unread b (hb.trans hs)
  unclosed b hb := h.unclosed b (hb.trans hs)
  opens hin := h.opens (hin.trans hs.isInfix)

/-- Text `p` without openers in front changes nothing, if what is behind it is empty or begins with
an opener. -/
theorem Leads.append {p s u : Text} (h : Leads s u) (hp : ¬opener <:+: p)
    (hs : s = [] ∨ ∃ b, s = opener ++ b) : Leads (p ++ s) u := by
  have hlt : s = [] ∨ ∃ y, s = '<' :: y := by
    rcases hs with rfl | ⟨b, rfl⟩
    · exact .inl rfl
    · exact .inr ⟨_, rfl⟩
  refine ⟨fun b hb => h.unread b ?_, fun b hb => h.unclosed b ?_, fun hin => ?_⟩
  · exact opener_suffix_of_append hp hlt hb
  · exact opener_suffix_of_append hp hlt hb
  · obtain ⟨b, hb⟩ := Text.infix_iff_exists_suffix.1 hin
    exact h.opens (Text.infix_iff_exists_suffix.2 ⟨b, opener_suffix_of_append hp hlt hb⟩)

/-- One more opener in front of what leads to `u` leads there too, if it begins no declaration, no
closer follows it, and the opener at `u` opens. -/
theorem Leads.cons {b u : Text} (h : Leads b u)
    (hread : Declaration.read? (b ++ (opener ++ u)) = none) (hclose : ¬closer <:+: b)
    (hopens : Opens u) : Leads (opener ++ b) u := by
  refine ⟨fun b' hb => ?_, fun b' hb => ?_, fun _ => hopens⟩
  · rcases opener_suffix_cons hb with rfl | hb
    · exact hread
    · exact h.unread b' hb
  · rcases opener_suffix_cons hb with rfl | hb
    · exact hclose
    · exact h.unclosed b' hb

/-- What `afterOpener?` finds is a comment (`CommentAt`), and what it passed over leads to it
(`Leads`). The induction is on the openers that it passes. -/
theorem leads_of_afterOpener? {t before body rest : Text}
    (h : afterOpener? t = some (before, body, rest)) :
    (before = [] ∨ ∃ b, before = opener ++ b) ∧
      opener ++ t = before ++ (opener ++ (body ++ (closer ++ rest))) ∧
      Leads before (body ++ (closer ++ rest)) ∧ CommentAt body rest := by
  fun_induction afterOpener? t generalizing before with
  | case1 t d r hd =>
    simp only [Option.some.injEq, Prod.mk.injEq] at h
    obtain ⟨rfl, rfl, rfl⟩ := h
    obtain ⟨hwell, rfl⟩ := Declaration.read?_eq_some_iff.1 hd
    -- a declaration begins at this opener
    exact ⟨.inl rfl, by simp, .nil _, .inl ⟨d, hwell, rfl⟩⟩
  | case2 => simp at h
  | case3 t hd b r ha =>
    simp only [Option.some.injEq, Prod.mk.injEq] at h
    obtain ⟨rfl, rfl, rfl⟩ := h
    have hfound := Ahead.found_find? t
    rw [ha] at hfound
    obtain ⟨rfl, hc, ho⟩ := hfound
    -- the closer is nearer than any other opener
    exact ⟨.inl rfl, rfl, .nil _, .inr ⟨hd, ho, hc⟩⟩
  | case4 t hd skipped r ha ih =>
    simp only [Option.map_eq_some_iff, Prod.mk.injEq, Prod.exists] at h
    obtain ⟨b, c, u, hb, rfl, rfl, rfl⟩ := h
    obtain ⟨hfront, heq, hleads, hcomment⟩ := ih hb
    have hfound := Ahead.found_find? t
    rw [ha] at hfound
    obtain ⟨rfl, hc, ho, hopens⟩ := hfound
    -- another opener is nearer: this one is passed over, and leads to the comment too
    have hboth : ¬closer <:+: skipped ++ b ∧ Opens (c ++ (closer ++ u)) := by
      rcases hfront with rfl | ⟨b, rfl⟩
      · rw [List.append_nil]
        rw [List.nil_append, List.append_cancel_left_eq] at heq
        exact ⟨hc, heq ▸ hopens⟩
      · rw [List.append_assoc, List.append_cancel_left_eq] at heq
        refine ⟨fun hin => ?_, hleads.opens ⟨[], b, rfl⟩⟩
        rw [heq] at hopens
        rcases closer_infix_append hin with hin | hin
        · exact hc hin
        · exact not_closer_of_opens (hleads.unclosed b List.suffix_rfl) hopens hin
    refine ⟨.inr ⟨skipped ++ b, List.append_assoc _ _ _⟩, ?_, ?_, hcomment⟩
    · rw [heq]
      simp
    · rw [List.append_assoc]
      refine (hleads.append ho hfront).cons ?_ hboth.1 hboth.2
      rw [List.append_assoc, ← heq, hd]

/-- A cut is made at the first opener: `s` has none. -/
theorem cutAt?_opener {s : Text} (hs : ¬opener <:+: s) (u : Text) :
    Text.cutAt? opener (s ++ (opener ++ u)) = some (s, u) := by
  induction s with
  | nil =>
    have h : Text.after? opener ('<' :: '!' :: '-' :: '-' :: u) = some u :=
      Text.after?_append opener u
    show Text.cutAt? opener ('<' :: '!' :: '-' :: '-' :: u) = _
    rw [Text.cutAt?, h]
  | cons c s ih =>
    have hnone : Text.after? opener (c :: (s ++ (opener ++ u))) = none := by
      rw [Text.after?_eq_none_iff]
      intro h
      exact hs (opener_prefix_of_append (s := s) h).isInfix
    rw [List.cons_append, Text.cutAt?, hnone, ih fun h => hs (List.infix_cons h)]
    rfl

/-- A text with openers has a first one, with a text `s` before it that has none. -/
theorem exists_first_opener {t : Text} (h : opener <:+: t) :
    ∃ s u, t = s ++ (opener ++ u) ∧ ¬opener <:+: s := by
  induction t with
  | nil => simp [opener] at h
  | cons c t ih =>
    by_cases hc : opener <+: c :: t
    · obtain ⟨u, hu⟩ := hc
      exact ⟨[], u, hu.symm, by simp [opener]⟩
    · obtain ⟨s, u, rfl, hs⟩ := ih ((List.infix_cons_iff.1 h).resolve_left hc)
      refine ⟨c :: s, u, rfl, fun hin => ?_⟩
      rcases List.infix_cons_iff.1 hin with hpre | hin
      · exact hc (hpre.trans (List.prefix_append (c :: s) _))
      · exact hs hin

/-- The cut of a text at its first opener, told without the search. -/
theorem cutAt?_opener_iff {t s u : Text} :
    Text.cutAt? opener t = some (s, u) ↔ t = s ++ (opener ++ u) ∧ ¬opener <:+: s := by
  constructor
  · intro h
    have ht := Text.eq_of_cutAt? h
    obtain ⟨p, v, hp, hno⟩ := exists_first_opener (t := t) ⟨s, u, ht.symm⟩
    rw [hp, cutAt?_opener hno] at h
    obtain ⟨rfl, rfl⟩ := Prod.mk.inj (Option.some.inj h)
    exact ⟨hp, hno⟩
  · rintro ⟨rfl, hs⟩
    exact cutAt?_opener hs u

/-- The reader behind an opener passes over what leads to a comment, `b`, and finds the comment. -/
theorem afterOpener?_of_leads {b body rest : Text}
    (h : Leads (opener ++ b) (body ++ (closer ++ rest)))
    (hc : afterOpener? (body ++ (closer ++ rest)) = some ([], body, rest)) :
    afterOpener? (b ++ (opener ++ (body ++ (closer ++ rest)))) =
      some (opener ++ b, body, rest) := by
  have hread := h.unread b List.suffix_rfl
  have hclose := h.unclosed b List.suffix_rfl
  have hopens := h.opens ⟨[], b, rfl⟩
  by_cases hin : opener <:+: b
  · -- the next opener is passed over in the same way, with less text to the comment
    obtain ⟨s, b', hb, hs⟩ := exists_first_opener hin
    have hleads : Leads (opener ++ b') (body ++ (closer ++ rest)) :=
      h.suffix ⟨opener ++ s, by simp [hb]⟩
    have hs' : ¬closer <:+: s := fun h => hclose (h.trans ⟨[], opener ++ b', hb.symm⟩)
    have hb' : ¬closer <:+: '-' :: '-' :: b' := fun h =>
      hclose (h.trans ⟨s ++ ['<', '!'], [], by simp [hb, opener]⟩)
    have hlen : b'.length < b.length := by
      rw [hb, List.length_append, List.length_append, opener, List.length_cons]
      omega
    rw [hb, List.append_assoc, List.append_assoc] at hread ⊢
    have hopens' : Opens (b' ++ (opener ++ (body ++ (closer ++ rest)))) :=
      opens_of_not_closer hb' (opens_lt _)
    rw [afterOpener?_opened hread (Ahead.find?_opened hs' hs hopens'),
      afterOpener?_of_leads hleads hc]
    simp
  · -- the next opener is that of the comment
    rw [afterOpener?_opened hread (Ahead.find?_opened hclose hin hopens), hc]
    simp
termination_by b.length

/-- A comment is found at its own opener by `afterOpener?`, with nothing passed over. -/
theorem afterOpener?_of_commentAt {body rest : Text} (h : CommentAt body rest) :
    afterOpener? (body ++ (closer ++ rest)) = some ([], body, rest) := by
  rcases h with ⟨d, hd, rfl⟩ | ⟨hread, ho, hc⟩
  · exact afterOpener?_declaration (Declaration.read?_eq_some_iff.2 ⟨hd, by simp⟩)
  · exact afterOpener?_closed hread (Ahead.find?_closed hc ho)

/-- The first comment of a text, from the two searches that find it. -/
theorem firstComment?_of_cutAt? {t before u skipped body rest : Text}
    (hcut : Text.cutAt? opener t = some (before, u))
    (hc : afterOpener? u = some (skipped, body, rest)) :
    firstComment? t = some (before ++ skipped, body, rest) := by
  rw [firstComment?, hcut]
  simp only [Option.bind_eq_bind, Option.bind_some, hc]
  rfl

/-- **Where the first comment is**: at an opener that only openers of the allowed kind lead to
(`Leads`), and up to the end of a declaration or, if none begins there, to the first closer
(`CommentAt`). -/
theorem firstComment?_eq_some_iff {t before body rest : Text} :
    firstComment? t = some (before, body, rest) ↔
      t = before ++ (opener ++ (body ++ (closer ++ rest))) ∧
        Leads before (body ++ (closer ++ rest)) ∧ CommentAt body rest := by
  constructor
  · intro h
    simp only [firstComment?, Option.bind_eq_bind, Option.bind_eq_some_iff, Option.pure_def,
      Option.some.injEq, Prod.mk.injEq, Prod.exists] at h
    obtain ⟨p, s, hs, skipped, b, r, hc, rfl, rfl, rfl⟩ := h
    obtain ⟨hfront, heq, hleads, hcomment⟩ := leads_of_afterOpener? hc
    obtain ⟨rfl, hp⟩ := cutAt?_opener_iff.1 hs
    refine ⟨?_, hleads.append hp hfront, hcomment⟩
    rw [heq, List.append_assoc]
  · rintro ⟨rfl, hleads, hcomment⟩
    have hc := afterOpener?_of_commentAt hcomment
    by_cases hin : opener <:+: before
    · obtain ⟨p, b, rfl, hp⟩ := exists_first_opener hin
      have hb := afterOpener?_of_leads (hleads.suffix (List.suffix_append p _)) hc
      rw [List.append_assoc, List.append_assoc]
      exact firstComment?_of_cutAt? (cutAt?_opener hp _) hb
    · rw [firstComment?_of_cutAt? (cutAt?_opener hin _) hc, List.append_nil]

/-- Where the reader behind an opener finds nothing, there is no closer in the text `t`. -/
theorem not_closer_of_afterOpener? {t : Text} (h : afterOpener? t = none) : ¬closer <:+: t := by
  have hfound := Ahead.found_find? t
  fun_induction afterOpener? t with
  | case1 => cases h
  | case2 t hd ha =>
    rw [ha] at hfound
    exact hfound.1
  | case3 => cases h
  | case4 t hd skipped r ha ih =>
    rw [ha] at hfound
    obtain ⟨rfl, hc, -, hopens⟩ := hfound
    have hr := ih (Option.map_eq_none_iff.1 h) (Ahead.found_find? r)
    intro hin
    rcases closer_infix_append hin with hin | hin
    · exact hc hin
    · exact not_closer_of_opens (x := []) hr (by rwa [List.append_nil]) hin

/-- A text `t` without comments is one in which no closer follows an opener. -/
theorem firstComment?_eq_none_iff {t : Text} :
    firstComment? t = none ↔ ∀ b, opener ++ b <:+ t → ¬closer <:+: b := by
  constructor
  · intro h b hb
    obtain ⟨s, u, rfl, hs⟩ := exists_first_opener (Text.infix_iff_exists_suffix.2 ⟨b, hb⟩)
    have hu : afterOpener? u = none := by
      cases hc : afterOpener? u with
      | none => rfl
      | some p => simp [firstComment?, cutAt?_opener hs, hc] at h
    have hbu : b <:+ u := by
      rcases opener_suffix_cons (opener_suffix_of_append hs (.inr ⟨_, rfl⟩) hb) with rfl | hb
      · exact List.suffix_rfl
      · exact (List.suffix_append opener b).trans hb
    exact fun hin => not_closer_of_afterOpener? hu (hin.trans hbu.isInfix)
  · intro h
    cases hf : firstComment? t with
    | none => rfl
    | some p =>
      obtain ⟨before, body, rest⟩ := p
      obtain ⟨rfl, -, -⟩ := firstComment?_eq_some_iff.1 hf
      exact absurd ⟨body, rest, by simp⟩ (h _ (List.suffix_append before _))

/-! ## The pieces -/

@[simp] theorem textOf_append (ps qs : List Piece) : textOf (ps ++ qs) = textOf ps ++ textOf qs :=
  List.flatMap_append

/-- The texts behind the stray openers of a row of pieces, each to the end of the row. An opener is
stray if it is not part of a declaration. -/
def strays : List Piece → List Text
  | [] => []
  | p :: ps =>
    (if p.isDeclaration then [] else (Text.afterEach opener p.text).map (· ++ textOf ps)) ++
      strays ps

/-- A plain stretch and a comment after it, as far as these two tell whether a reader would find
them. -/
structure Joins (before body : Text) : Prop where
  unclosed : ∀ b, opener ++ b <:+ before → ¬closer <:+: b
  opens : opener <:+: before → Opens (body ++ closer)
  clean : (comment body).isDeclaration = true ∨ ¬opener <:+: body ∧ ¬closer <:+: body

/-- Plain stretches and comments by turns, each of them as a reader would find it, as far as can be
seen without looking for declarations. -/
def Shaped : List Piece → Prop
  | [plain t] => ∀ b, opener ++ b <:+ t → ¬closer <:+: b
  | plain before :: comment body :: ps => Joins before body ∧ Shaped ps
  | _ => False

/-- The opener of a comment opens or not by its body and its own closer, whatever `rest` follows. -/
theorem opens_body (body rest : Text) :
    Opens (body ++ (closer ++ rest)) ↔ Opens (body ++ closer) := by
  rw [← List.append_assoc]
  exact opens_append (by simp [closer]) rest

/-- What leads to a comment, said of two neighbouring pieces: they join (`Joins`), and neither the
openers in `before` nor the comment's own begin a declaration that the text goes on to. -/
theorem firstComment?_iff_joins {before body rest : Text} :
    firstComment? (before ++ ((comment body).text ++ rest)) = some (before, body, rest) ↔
      Joins before body ∧ (∀ b, opener ++ b <:+ before →
        Declaration.read? (b ++ ((comment body).text ++ rest)) = none) ∧
      ((comment body).isDeclaration = false →
        Declaration.read? (body ++ (closer ++ rest)) = none) := by
  rw [firstComment?_eq_some_iff]
  have htext : (comment body).text ++ rest = opener ++ (body ++ (closer ++ rest)) := by simp [text]
  rw [htext]
  constructor
  · rintro ⟨-, hleads, hcomment⟩
    refine ⟨⟨hleads.unclosed, fun hin => (opens_body _ _).1 (hleads.opens hin), ?_⟩,
      hleads.unread, ?_⟩
    · exact hcomment.imp isDeclaration_iff.2 And.right
    · intro hno
      rcases hcomment with hd | hc
      · rw [isDeclaration_iff.2 hd] at hno
        cases hno
      · exact hc.1
  · rintro ⟨hjoins, hunread, hread⟩
    refine ⟨rfl, ⟨hunread, hjoins.unclosed, fun hin => (opens_body _ _).2 (hjoins.opens hin)⟩, ?_⟩
    cases hd : (comment body).isDeclaration with
    | true => exact .inl (isDeclaration_iff.1 hd)
    | false => exact .inr ⟨hread hd, hjoins.clean.resolve_left (by simp [hd])⟩

/-- What follows an opener without a closer after it is no declaration for `Declaration.read?`. -/
theorem read?_eq_none_of_unclosed {b : Text} (h : ¬closer <:+: b) : Declaration.read? b = none := by
  cases hr : Declaration.read? b with
  | none => rfl
  | some p =>
    obtain ⟨d, rest⟩ := p
    obtain ⟨-, rfl⟩ := Declaration.read?_eq_some_iff.1 hr
    exact absurd ⟨d.body, rest, rfl⟩ h

/-- What follows an opener that does not open (`Opens`) is no declaration: it begins with the end of
a closer. -/
theorem read?_eq_none_of_not_opens {b : Text} (h : ¬Opens b) (x : Text) :
    Declaration.read? (b ++ x) = none := by
  rcases not_opens_iff.1 h with ⟨r, rfl⟩ | ⟨r, rfl⟩
  · rfl
  · rfl

/-- An opener that reaches over the end of a comment, into its closer, opens nothing. -/
theorem not_opens_of_suffix {s b : Text} (hs : ¬opener <:+: s) (h : opener ++ b <:+ s ++ closer) :
    ¬Opens b := by
  induction s with
  | nil => simp [opener, closer, List.suffix_cons_iff] at h
  | cons c s ih =>
    rw [List.cons_append, List.suffix_cons_iff] at h
    rcases h with h | h
    · intro hb
      have h' : c :: s ++ (closer ++ []) = opener ++ b := by rw [List.append_nil]; exact h.symm
      exact hs (Ahead.opener_prefix_of_closer h' hb).isInfix
    · exact ih (fun hin => hs (List.infix_cons hin)) h

/-- The stray openers of a row are those of the first piece `p`, if it is no declaration, and the
others. Each counts with the text of all pieces behind it. -/
theorem mem_strays_cons {p : Piece} {s : Text} {ps : List Piece} :
    s ∈ strays (p :: ps) ↔
      (p.isDeclaration = false ∧ ∃ b, opener ++ b <:+ p.text ∧ s = b ++ textOf ps) ∨
        s ∈ strays ps := by
  rw [strays, List.mem_append]
  cases p.isDeclaration with
  | true => simp
  | false => simp [Text.mem_afterEach, eq_comm]

/-- The stray openers of the end of a row are among those of the row. -/
theorem mem_strays_append_right {s : Text} {l r : List Piece} (h : s ∈ strays r) :
    s ∈ strays (l ++ r) := by
  induction l with
  | nil => exact h
  | cons p l ih => exact mem_strays_cons.2 (.inr ih)

theorem mem_strays_plain {t s : Text} {ps : List Piece} :
    s ∈ strays (plain t :: ps) ↔
      (∃ b, opener ++ b <:+ t ∧ s = b ++ textOf ps) ∨ s ∈ strays ps := by
  rw [mem_strays_cons]
  exact or_congr_left (and_iff_right rfl)

/-- The stray openers of a comment that is no declaration are its own, and in its body none that
counts. So if what its own goes on with is no declaration, no `b` behind one of the others is. -/
theorem read?_of_stray_comment {body rest : Text} (hbody : ¬opener <:+: body)
    (hread : Declaration.read? (body ++ (closer ++ rest)) = none) {b : Text}
    (hb : opener ++ b <:+ (comment body).text) : Declaration.read? (b ++ rest) = none := by
  rw [text, List.append_assoc] at hb
  rcases opener_suffix_cons hb with rfl | hb
  · rwa [List.append_assoc]
  · exact read?_eq_none_of_not_opens (not_opens_of_suffix hbody hb) rest

/-- The pieces of a document are `Shaped`: plain and comment in turn, with joins that the reader
could make. -/
theorem shaped_ofText (t : Text) : Shaped (ofText t) := by
  fun_induction ofText t with
  | case1 t h => exact firstComment?_eq_none_iff.1 h
  | case2 t before body rest h ih =>
    have ht := eq_of_firstComment? h
    rw [List.append_assoc] at ht
    rw [ht] at h
    exact ⟨(firstComment?_iff_joins.1 h).1, ih⟩

/-- No stray opener of a document begins a declaration, for `ofText` would have found it. -/
theorem read?_of_mem_strays {t s : Text} (hs : s ∈ strays (ofText t)) :
    Declaration.read? s = none := by
  fun_induction ofText t with
  | case1 t h =>
    rcases mem_strays_plain.1 hs with ⟨b, hb, rfl⟩ | hs
    · rw [textOf_nil, List.append_nil]
      exact read?_eq_none_of_unclosed (firstComment?_eq_none_iff.1 h b hb)
    · cases hs
  | case2 t before body rest h ih =>
    have ht := eq_of_firstComment? h
    rw [List.append_assoc] at ht
    rw [ht] at h
    obtain ⟨hjoins, hunread, hread⟩ := firstComment?_iff_joins.1 h
    rcases mem_strays_plain.1 hs with ⟨b, hb, rfl⟩ | hs
    · rw [textOf_cons, textOf_ofText]
      exact hunread b hb
    · rcases mem_strays_cons.1 hs with ⟨hno, b, hb, rfl⟩ | hs
      · rw [textOf_ofText]
        exact read?_of_stray_comment (hjoins.clean.resolve_left (by simp [hno])).1 (hread hno) hb
      · exact ih hs

/-- Conversely the reader finds the pieces of a row that is `Shaped` and has no stray opener that
begins a declaration. The recursion takes a plain piece and the comment behind it at a time. -/
theorem ofText_of_shaped : ∀ {ps : List Piece}, Shaped ps →
    (∀ s ∈ strays ps, Declaration.read? s = none) → ofText (textOf ps) = ps
  | [plain t], h, _ => by
    rw [textOf_cons, textOf_nil, List.append_nil]
    exact ofText_none (firstComment?_eq_none_iff.2 h)
  | plain before :: comment body :: ps, ⟨hjoins, hps⟩, hs => by
    have hrest := ofText_of_shaped hps fun s h =>
      hs s (mem_strays_plain.2 (.inr (mem_strays_cons.2 (.inr h))))
    have hfirst : firstComment? (before ++ ((comment body).text ++ textOf ps)) =
        some (before, body, textOf ps) := by
      refine firstComment?_iff_joins.2 ⟨hjoins, fun b hb => ?_, fun hno => ?_⟩
      · exact hs _ (mem_strays_plain.2 (.inl ⟨b, hb, rfl⟩))
      · -- the comment's own opener is a stray one, if it is no declaration
        refine hs _ (mem_strays_plain.2 (.inr (mem_strays_cons.2 (.inl
          ⟨hno, body ++ closer, ?_, ?_⟩))))
        · exact ⟨[], by simp [text]⟩
        · rw [List.append_assoc]
    rw [textOf_cons, textOf_cons, text, ofText_some hfirst, hrest]

/-- A document that begins with a declaration `d` has an empty plain piece before it. -/
theorem ofText_of_read? {t rest : Text} {d : Declaration}
    (h : Declaration.read? t = some (d, rest)) :
    ofText (opener ++ t) = plain [] :: comment d.body :: ofText rest := by
  have hcut : Text.cutAt? opener ([] ++ (opener ++ t)) = some ([], t) :=
    cutAt?_opener (by simp [opener]) t
  exact ofText_some (firstComment?_of_cutAt? hcut (afterOpener?_declaration h))

/-- **The pieces that a reader finds**: a row `ps` is that of its text exactly when it is `Shaped`
and none of its stray openers (`strays`) begins a declaration. -/
theorem ofText_textOf_iff {ps : List Piece} :
    ofText (textOf ps) = ps ↔ Shaped ps ∧ ∀ s ∈ strays ps, Declaration.read? s = none := by
  constructor
  · intro h
    rw [← h]
    exact ⟨shaped_ofText _, fun s hs => read?_of_mem_strays hs⟩
  · rintro ⟨hshaped, hs⟩
    exact ofText_of_shaped hshaped hs

end Piece

end Transclude
