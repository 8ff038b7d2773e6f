import Mathlib.Logic.Function.Iterate
import Transclude.Proofs.Collections
import Transclude.Proofs.Frames
import Transclude.Proofs.LineStyles
import Transclude.Proofs.Nestings
import Transclude.Proofs.Removals

/-!
# What stripping leaves

Stripping takes out the comments of a text in one pass, and what stood around them stands together
then. The innermost opener begins a comment, so an opener before it is left, and the closer behind
it may be left too. Or an opener comes out of the two parts that stood around a comment. So the text
that is left can have a comment again.

It has none exactly when no closer stands behind an opener in it (`Piece.Clean`), and then it is
left as it is when it is stripped again. The stretches between the comments are clean, each by
itself; the text that they make together is, if no opener begins in a stretch with a comment behind
it (`Piece.Quiet`).

A clean text holds no directive. Put into a document where a reference is shown, it adds none,
unless it has the beginning of a declaration in it: then what stands behind the place can become
part of that declaration.

Main statements:
- `Piece.strip_eq_self_iff`, `Piece.commentSpans_eq_nil_iff`: when a text has no comment.
- `Piece.clean_strip`: when stripping leaves none.
- `Fill.directed_row`, `Fill.contentsFrom_row`: values without directives neither add nor close a
  block.
- `References.strip_leftovers`: the three together, for what is stripped, stored and shown.
-/

namespace Transclude

namespace Piece

/-! ## Texts without comments -/

/-- Whether a text has no opener with a closer behind it. -/
def Clean (t : Text) : Prop := ∀ b, opener ++ b <:+ t → ¬closer <:+: b

instance (t : Text) : Decidable (Clean t) :=
  decidable_of_iff ((firstComment? t).isNone = true)
    (Option.isNone_iff_eq_none.trans firstComment?_eq_none_iff)

theorem ofText_of_clean {t : Text} (h : Clean t) : ofText t = [plain t] :=
  ofText_none (firstComment?_eq_none_iff.2 h)

/-- A text that is not `Clean` has a comment, and its pieces begin with the plain text before the
first one. -/
theorem exists_of_not_clean {t : Text} (h : ¬Clean t) :
    ∃ before body rest, t = before ++ ((comment body).text ++ rest) ∧
      ofText t = plain before :: comment body :: ofText rest := by
  cases hfirst : firstComment? t with
  | none => exact absurd (firstComment?_eq_none_iff.1 hfirst) h
  | some c =>
    obtain ⟨before, body, rest⟩ := c
    exact ⟨before, body, rest, by rw [eq_of_firstComment? hfirst, List.append_assoc],
      ofText_some hfirst⟩

theorem commentSpans_eq_nil_iff {t : Text} : commentSpans 0 (ofText t) = [] ↔ Clean t := by
  constructor
  · intro h
    by_contra hnot
    obtain ⟨before, body, rest, -, hpieces⟩ := exists_of_not_clean hnot
    rw [hpieces] at h
    cases h
  · intro h
    rw [ofText_of_clean h]
    rfl

/-- A `Clean` text holds no directive, since directives are comments. -/
theorem undirected_of_clean {t : Text} (h : Clean t) : Undirected t := by
  intro p hp
  rw [ofText_of_clean h, List.mem_singleton] at hp
  rw [hp]
  rfl

/-! ## Stripping again -/

theorem strip_eq_flatMap (t : Text) : strip t = (ofText t).flatMap stripped := rfl

theorem length_stripped_le (ps : List Piece) :
    (ps.flatMap stripped).length ≤ (textOf ps).length := by
  induction ps with
  | nil => exact Nat.le_refl 0
  | cons p ps ih =>
    have hp : p.stripped.length ≤ p.text.length := by
      cases p with
      | plain t => exact Nat.le_refl _
      | comment body => exact Nat.zero_le _
    rw [List.flatMap_cons, textOf_cons, List.length_append, List.length_append]
    exact Nat.add_le_add hp ih

theorem length_strip_lt {t : Text} (h : ¬Clean t) : (strip t).length < t.length := by
  obtain ⟨before, body, rest, rfl, hpieces⟩ := exists_of_not_clean h
  have hrest := length_stripped_le (ofText rest)
  rw [textOf_ofText] at hrest
  have hstrip : strip (before ++ ((comment body).text ++ rest)) =
      before ++ (ofText rest).flatMap stripped := by
    rw [strip_eq_flatMap, hpieces]
    rfl
  rw [hstrip]
  simp only [List.length_append, text, opener, closer, List.length_cons, List.length_nil]
  omega

/-- **Stripping changes nothing** exactly where there is no comment (`Clean`). -/
theorem strip_eq_self_iff {t : Text} : strip t = t ↔ Clean t := by
  constructor
  · intro h
    by_contra hnot
    have hlt := length_strip_lt hnot
    rw [h] at hlt
    exact Nat.lt_irrefl _ hlt
  · intro h
    rw [strip_eq_flatMap, ofText_of_clean h]
    exact List.append_nil t

/-- Stripped again and again, a text ends `Clean`, for it gets shorter each time that it has a
comment. -/
theorem exists_clean_iterate (t : Text) : ∃ n, Clean (strip^[n] t) := by
  by_cases h : Clean t
  · exact ⟨0, h⟩
  · obtain ⟨n, hn⟩ := exists_clean_iterate (strip t)
    exact ⟨n + 1, hn⟩
termination_by t.length
decreasing_by exact length_strip_lt h

/-! ## When stripping leaves no comment -/

/-- Whether no opener begins in a text, whatever stands behind it. -/
def Quiet (t : Text) : Prop := ∀ u, u <:+ t → u ≠ [] → ¬opener <+: u ∧ ¬u <+: opener

/-- The openers of a text that begins with a quiet stretch `s` are all in what stands behind it. -/
theorem Quiet.opener_suffix {s x b : Text} (hs : Quiet s) (h : opener ++ b <:+ s ++ x) :
    opener ++ b <:+ x := by
  obtain ⟨a, ha⟩ := h
  rcases List.append_eq_append_iff.1 ha with ⟨u, hsu, hu⟩ | ⟨u, -, hx⟩
  · by_cases hne : u = []
    · exact ⟨[], by rw [hu, hne]; rfl⟩
    · obtain ⟨hlong, hshort⟩ := hs u ⟨a, hsu.symm⟩ hne
      rcases List.append_eq_append_iff.1 hu with ⟨c, hc, -⟩ | ⟨c, hc, -⟩
      · exact absurd ⟨c, hc.symm⟩ hlong
      · exact absurd ⟨c, hc.symm⟩ hshort
  · exact ⟨u, hx.symm⟩

/-- **Stripping leaves no comment**, where every stretch with a comment behind it is `Quiet`: no
opener begins in it. The recursion takes such a stretch and its comment at a time. -/
theorem clean_stripped : ∀ {ps : List Piece}, Shaped ps →
    (∀ l s body r, ps = l ++ plain s :: comment body :: r → Quiet s) →
    Clean (ps.flatMap stripped)
  | [plain t], h, _ => by
    have hclean : Clean t := h
    simpa [stripped] using hclean
  | plain s :: comment body :: ps, ⟨_, hps⟩, hquiet => by
    intro b hb
    have hs : Quiet s := hquiet [] s body ps rfl
    have hrest : Clean (ps.flatMap stripped) :=
      clean_stripped hps fun l s' body' r hsplit =>
        hquiet (plain s :: comment body :: l) s' body' r (by rw [hsplit]; rfl)
    exact hrest b (hs.opener_suffix hb)

theorem clean_strip {t : Text}
    (h : ∀ l s body r, ofText t = l ++ plain s :: comment body :: r → Quiet s) :
    Clean (strip t) := clean_stripped (shaped_ofText t) h

/-- Every plain stretch `s` of a row that was read is clean by itself. -/
theorem clean_of_mem : ∀ {ps : List Piece}, Shaped ps → ∀ s, plain s ∈ ps → Clean s
  | [plain t], h, s, hs => by
    obtain rfl : s = t := by simpa using hs
    exact h
  | plain before :: comment body :: ps, ⟨hjoins, hps⟩, s, hs => by
    rcases List.mem_cons.1 hs with hs | hs
    · obtain rfl := plain.inj hs
      exact hjoins.unclosed
    · exact clean_of_mem hps s (by simpa using hs)

end Piece

/-! ## Values put into blocks -/

namespace Fill

open Piece

section

variable {kind : BlockKind} {values : Bindings} {inside : Option Bool} {ps : List Piece}

/-- **No directive is added**: those of the filled row are those of `frame`, which is the row
without the bodies that are replaced. -/
theorem directed_row (h : ∀ v ∈ inserted kind values inside ps, Undirected v) :
    directed (row kind values inside ps) = directed (frame kind values inside ps) := by
  induction ps generalizing inside with
  | nil => rfl
  | cons p ps ih =>
    have hrest := ih fun v hv => h v (mem_inserted_cons.2 (.inr hv))
    have happend (l r : List Piece) : directed (l ++ r) = directed l ++ directed r :=
      List.filter_append ..
    rw [row, frame, happend, happend, hrest]
    refine congrArg (· ++ _) ?_
    rcases inside with _ | _ | _
    · -- behind the piece come those of a value, which are no directives
      have hvalue : directed ((value? kind values p).toList.flatMap ofText) = [] := by
        rw [directed, List.filter_eq_nil_iff]
        intro q hq
        obtain ⟨v, hv, hqv⟩ := List.mem_flatMap.1 hq
        have hundirected := h v (mem_inserted_cons.2 (.inl ⟨rfl, by simpa using hv⟩)) q hqv
        simp [hundirected]
      rw [emit, ← List.singleton_append, happend, hvalue]
      simp
    · rfl
    · cases hc : p.closes kind <;> simp [emit, hc]

/-! ## The blocks of a filled document -/

/-- The pieces of a body when its block is filled. -/
def shown (values : Bindings) (name : Text) (body : List Piece) : List Piece :=
  match values.get? name with
  | some v => ofText v
  | none => body

/-- The text of a body that is `shown` is the value, or what was there if there is none. -/
theorem textOf_shown (values : Bindings) (name : Text) (body : List Piece) :
    textOf (shown values name body) = (values.get? name).getD (textOf body) := by
  rw [shown]
  cases values.get? name with
  | none => rfl
  | some v => exact textOf_ofText v

/-- The contents of blocks when they are filled. -/
def fillContents (values : Bindings) (c : List (Text × Text) × Option Text) :
    List (Text × Text) × Option Text :=
  (c.1.map fun b => (b.1, (values.get? b.1).getD b.2), c.2)

/-- Pieces `qs` that do not close a block are part of its body. -/
theorem contentsFrom_skip {name : Text} {qs : List Piece}
    (h : ∀ q ∈ qs, q.closes kind = false) (body ps : List Piece) :
    Block.contentsFrom kind (some (name, body)) (qs ++ ps) =
      Block.contentsFrom kind (some (name, body ++ qs)) ps := by
  induction qs generalizing body with
  | nil => rw [List.nil_append, List.append_nil]
  | cons q qs ih =>
    rw [List.cons_append, Block.contentsFrom, if_neg (by simp [h q List.mem_cons_self]),
      ih fun x hx => h x (List.mem_cons_of_mem _ hx), List.append_assoc]
    rfl

/-- Behind an opening marker `p` comes the value, if there is one. -/
theorem shown_nil {p : Piece} {name : Text} (h : p.opening? kind = some name) :
    (value? kind values p).toList.flatMap ofText = shown values name [] := by
  rw [value?, h, Option.bind_some, shown]
  cases values.get? name <;> simp

section

variable {p : Piece} {name : Text} (qs : List Piece)

/-- Outside any block, a piece `p` that opens none stays as it is. -/
theorem contentsFrom_outside (h : p.opening? kind = none) :
    Block.contentsFrom kind none (emit kind values none p ++ qs) =
      Block.contentsFrom kind none qs := by
  have hvalue : value? kind values p = none := by rw [value?, h, Option.bind_none]
  rw [emit, hvalue, List.cons_append, Block.contentsFrom, h]
  rfl

/-- Behind an opening marker `p`, the pieces of the value begin the body. -/
theorem contentsFrom_open (h : p.opening? kind = some name)
    (hvalue : ∀ v ∈ value? kind values p, Undirected v) :
    Block.contentsFrom kind none (emit kind values none p ++ qs) =
      Block.contentsFrom kind (some (name, shown values name [])) qs := by
  have hskip : ∀ q ∈ shown values name [], q.closes kind = false := by
    intro q hq
    rw [← shown_nil h] at hq
    obtain ⟨v, hv, hqv⟩ := List.mem_flatMap.1 hq
    exact closes_of_undirected (hvalue v (by simpa using hv) q hqv)
  rw [emit, List.cons_append, Block.contentsFrom, h, shown_nil h, Option.map_some,
    contentsFrom_skip hskip, List.nil_append]

/-- A piece `p` of a body: one that is replaced stays as it is, and one that is kept has the
piece. -/
theorem contentsFrom_within (h : p.closes kind = false) (body : List Piece) :
    Block.contentsFrom kind (some (name, shown values name body))
        (emit kind values (some (values.get? name).isSome) p ++ qs) =
      Block.contentsFrom kind (some (name, shown values name (body ++ [p]))) qs := by
  rw [emit, h]
  cases hv : values.get? name with
  | none => simp [shown, hv, Block.contentsFrom, h]
  | some v => simp [shown, hv]

/-- The end of a block gives its name and the body that was shown, and the blocks behind it. -/
theorem contentsFrom_close (h : p.closes kind = true) (body : List Piece) :
    Block.contentsFrom kind (some (name, shown values name body))
        (emit kind values (some (values.get? name).isSome) p ++ qs) =
      ((name, (values.get? name).getD (textOf body)) :: (Block.contentsFrom kind none qs).1,
        (Block.contentsFrom kind none qs).2) := by
  have hemit : emit kind values (some (values.get? name).isSome) p = [p] := by simp [emit, h]
  rw [hemit, List.singleton_append, Block.contentsFrom, if_pos h, textOf_shown]

end

/-- **No block is added or closed**: a filled row has the blocks of the row, with the values in
place of the bodies that are replaced (`fillContents`). The four lemmas before are the cases, by the
state of the reader and what the piece is. -/
theorem contentsFrom_row (reference : Option (Text × List Piece))
    (h : ∀ v ∈ inserted kind values (reference.map fun r => (values.get? r.1).isSome) ps,
      Undirected v) :
    Block.contentsFrom kind (reference.map fun r => (r.1, shown values r.1 r.2))
        (row kind values (reference.map fun r => (values.get? r.1).isSome) ps) =
      fillContents values (Block.contentsFrom kind reference ps) := by
  induction ps generalizing reference with
  | nil => cases reference <;> rfl
  | cons p ps ih =>
    have hlater := fun v hv => h v (mem_inserted_cons.2 (.inr hv))
    rw [row]
    cases reference with
    | none =>
      rw [Option.map_none] at h hlater ⊢
      rw [Option.map_none, Block.contentsFrom]
      cases hopen : p.opening? kind with
      | none =>
        rw [contentsFrom_outside _ hopen]
        rw [step, hopen] at hlater ⊢
        exact ih none hlater
      | some name =>
        have hvalue : ∀ v ∈ value? kind values p, Undirected v :=
          fun v hv => h v (mem_inserted_cons.2 (.inl ⟨rfl, hv⟩))
        rw [contentsFrom_open _ hopen hvalue]
        rw [step, hopen] at hlater ⊢
        exact ih (some (name, [])) hlater
    | some r =>
      obtain ⟨name, body⟩ := r
      rw [Option.map_some] at hlater ⊢
      rw [Option.map_some, Block.contentsFrom]
      cases hc : p.closes kind with
      | true =>
        have hstep : step kind values (some (values.get? name).isSome) p = none := if_pos hc
        rw [hstep] at hlater ⊢
        have hrest := ih none hlater
        rw [Option.map_none, Option.map_none] at hrest
        rw [contentsFrom_close _ hc, hrest, if_pos rfl]
        rfl
      | false =>
        have hstep : step kind values (some (values.get? name).isSome) p =
            some (values.get? name).isSome := step_of_not_closes hc
        rw [hstep] at hlater ⊢
        rw [contentsFrom_within _ hc, if_neg Bool.false_ne_true]
        exact ih (some (name, body ++ [p])) hlater

end

end Fill

/-! ## Stripped, stored and shown -/

/-- What stripping leaves of a text. -/
structure Piece.Leaves (t : Text) : Prop where
  /-- No comment is left exactly when no closer stands behind an opener in what is left. -/
  spans : commentSpans 0 (ofText (strip t)) = [] ↔ Clean (strip t)
  /-- Exactly then it is left as it is when it is stripped again. -/
  again : strip (strip t) = strip t ↔ Clean (strip t)
  /-- So it is, if no opener begins in a stretch with a comment behind it. -/
  quiet : (∀ l s body r, ofText t = l ++ plain s :: comment body :: r → Quiet s) → Clean (strip t)
  /-- A comment can only come out of several stretches. -/
  stretches : ∀ s, plain s ∈ ofText t → Clean s
  /-- Stripped often enough, every text ends without comments. -/
  iterate : ∃ n, Clean (strip^[n] t)

theorem Piece.leaves (t : Text) : Leaves t where
  spans := commentSpans_eq_nil_iff
  again := strip_eq_self_iff
  quiet := clean_strip
  stretches := clean_of_mem (shaped_ofText t)
  iterate := exists_clean_iterate t

/-- What showing references in the document `u` leaves alone, if it makes the document `u'`. -/
structure Fill.Keeps (values : Bindings) (u u' : Text) : Prop where
  /-- The directives are those that there were, but for the bodies that are replaced. -/
  directives : Piece.directed (Piece.ofText u') =
    Piece.directed (frame .inclusion values none (Piece.ofText u))
  /-- The blocks are those that there were, and show what the names are bound to. -/
  blocks : Block.contents .inclusion u' = fillContents values (Block.contents .inclusion u)

/-- Filling in references without directives adds no block and closes none (`Keeps`), if no stray
opener of the filled row begins a declaration. -/
theorem Fill.keeps {u u' : Text} {values : Bindings} {strict : Bool}
    (h : refs u values strict = .ok u')
    (hvalues : ∀ v ∈ inserted .inclusion values none (Piece.ofText u), Piece.Undirected v)
    (hunread : Piece.Unread (row .inclusion values none (Piece.ofText u))) :
    Keeps values u u' := by
  obtain ⟨hcomplete, rfl⟩ := (fillFrom_eq_ok_iff _).1 h
  rw [Option.map_none] at *
  have hpieces := ofText_row hcomplete hunread
  refine ⟨?_, ?_⟩
  · rw [hpieces, directed_row hvalues]
  · rw [Block.contents_eq, Block.contents_eq, hpieces]
    exact contentsFrom_row none hvalues

namespace References

open Piece

/-- A reference that is collected was there before, or is the stripped body of a block. -/
theorem exists_of_collect {t : Text} {previous out : Bindings} (h : collect t previous = .ok out)
    {name text : Text} (hget : out.get? name = some text) :
    previous.get? name = some text ∨
      ∃ b ∈ (Block.paired .ref t).1, b.name = name ∧ text = strip (b.body t) := by
  rw [collect_eq_outcome] at h
  obtain ⟨⟨hnodup, hnew⟩, rfl⟩ := exists_of_outcome_eq_ok h
  rw [← map_fst_entries t] at hnodup
  rw [Bindings.get?_extend hnodup] at hget
  cases hlook : (entries t (Block.paired .ref t).1).lookup name with
  | none =>
    rw [hlook] at hget
    exact .inl hget
  | some v =>
    rw [hlook] at hget
    obtain rfl : v = text := Option.some.inj hget
    rw [Bindings.lookup_eq_some_iff_mem hnodup, entries, List.mem_map] at hlook
    obtain ⟨b, hb, heq⟩ := hlook
    obtain ⟨rfl, rfl⟩ := Prod.mk.inj heq
    exact .inr ⟨b, hb, rfl, rfl⟩

/-- **What stripping leaves, and what it is good for.** For every text it is known when stripping
leaves no comment (`Leaves`). Every reference is the stripped body of a block, and without a comment
in it it holds no directive. Where references without directives are shown, and no stray opener of
the new document begins a declaration, no block is added and none is closed (`Fill.Keeps`). -/
theorem strip_leftovers :
    (∀ t, Leaves t) ∧
    (∀ t previous out, collect t previous = .ok out → ∀ name text, out.get? name = some text →
      (previous.get? name = some text ∨
        ∃ b ∈ (Block.paired .ref t).1, b.name = name ∧ text = strip (b.body t)) ∧
      (Clean text → Undirected text)) ∧
    ∀ u values strict u', Fill.refs u values strict = .ok u' →
      (∀ v ∈ Fill.inserted .inclusion values none (ofText u), Undirected v) →
      Unread (Fill.row .inclusion values none (ofText u)) → Fill.Keeps values u u' :=
  ⟨leaves, fun _ _ _ h _ _ hget => ⟨exists_of_collect h hget, undirected_of_clean⟩,
    fun _ _ _ _ h hvalues hunread => Fill.keeps h hvalues hunread⟩

/-- A reference with a comment in its body, and behind it an opener that has no closer. -/
def looseBody : Text := "<!--begin-ref(r)-->x<!--n-->> <!-- y<!--end-ref-->".toList

/-- A place for that reference, with half a block in the old body. -/
def loosePlace : Text :=
  "<!--begin-include(r)--><!--begin-var(a)--><!--end-include--><!--end-var-->".toList

theorem strip_leftovers_looseBody :
    ∃ out u', collect looseBody .empty = .ok out ∧ out.get? ['r'] = some "x> <!-- y".toList ∧
      Undirected "x> <!-- y".toList ∧ Fill.refs loosePlace out true = .ok u' ∧
      Fill.Keeps out loosePlace u' := by
  have hout : collect looseBody .empty = .ok (Bindings.empty.set ['r'] "x> <!-- y".toList) :=
    Fill.eq_ok_of_toOption (by decide +kernel)
  have hfill : Fill.refs loosePlace (Bindings.empty.set ['r'] "x> <!-- y".toList) true =
      .ok "<!--begin-include(r)-->x> <!-- y<!--end-include--><!--end-var-->".toList :=
    Fill.eq_ok_of_toOption (by decide +kernel)
  obtain ⟨-, hstored, hshown⟩ := strip_leftovers
  exact ⟨_, _, hout, rfl, (hstored _ _ _ hout ['r'] _ rfl).2 (by decide +kernel), hfill,
    hshown _ _ _ _ hfill (by decide +kernel) (by decide +kernel)⟩

/-- An opener in two parts, with a comment between them. -/
def splitBody : Text := "<!--begin-ref(r)--><!-<!--n-->- end-include --><!--end-ref-->".toList

/-- The beginning of a declaration. -/
def openBody : Text := "<!--begin-ref(r)--><!-- var(z)=\"<!--end-ref-->".toList

/-- **Stripping can leave a comment.** With the one around it a comment leaves another. A reference
can hold the end of a block that way, and show nothing where it is put in. And without a comment in
it, a reference can make a declaration of the end of the block that it is put into. -/
theorem strip_leftovers_ne :
    (strip "<!-- a <!-- b --> -->".toList = "<!-- a  -->".toList ∧
      commentSpans 0 (ofText "<!-- a  -->".toList) ≠ [] ∧ strip "<!-- a  -->".toList = []) ∧
    (∃ out u', collect splitBody .empty = .ok out ∧
      out.get? ['r'] = some "<!-- end-include -->".toList ∧
      ¬Undirected "<!-- end-include -->".toList ∧
      Fill.refs "<!--begin-include(r)--><!--end-include-->".toList out true = .ok u' ∧
      Block.contents .inclusion u' = ([(['r'], [])], none)) ∧
    ∃ out u', collect openBody .empty = .ok out ∧
      out.get? ['r'] = some "<!-- var(z)=\"".toList ∧ Clean "<!-- var(z)=\"".toList ∧
      Fill.refs "<!--begin-include(r)--><!--end-include-->\" -->".toList out true = .ok u' ∧
      Block.contents .inclusion u' = ([], some ['r']) := by
  refine ⟨⟨by decide +kernel, by decide +kernel, by decide +kernel⟩,
    ⟨Bindings.empty.set ['r'] "<!-- end-include -->".toList,
      "<!--begin-include(r)--><!-- end-include --><!--end-include-->".toList, ?_, rfl,
      by decide +kernel, ?_, by decide +kernel⟩,
    ⟨Bindings.empty.set ['r'] "<!-- var(z)=\"".toList,
      "<!--begin-include(r)--><!-- var(z)=\"<!--end-include-->\" -->".toList, ?_, rfl,
      by decide +kernel, ?_, by decide +kernel⟩⟩
  · exact Fill.eq_ok_of_toOption (by decide +kernel)
  · exact Fill.eq_ok_of_toOption (by decide +kernel)
  · exact Fill.eq_ok_of_toOption (by decide +kernel)
  · exact Fill.eq_ok_of_toOption (by decide +kernel)

end References

end Transclude
