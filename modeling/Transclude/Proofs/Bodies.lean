import Transclude.Proofs.Excerpts
import Transclude.Proofs.Removals
import Transclude.Proofs.Store
import Transclude.Proofs.Unions

/-!
# References under edits of the variables

A declaration is a comment, and comments are stripped from the bodies of references. So a reader of
references does not see declarations come, go or change. What it does see is the plain text around
them: the line ends that come with a new declaration, and the text on the two sides of a declaration
that is taken out.

Such a reader is a machine. Between two pieces it knows the reference that is open, with the
stripped text of its body so far (`References.step`), and at a closing marker it gives this
reference out (`References.emit`). That the bodies are stripped piece by piece, and not as a text
that is read again, is `Piece.ofText_between`. A declaration changes nothing for the machine
(`References.step_of_silent`), and plain text is added to the body that is open.

Main statements:
- `References.collect_eq_ok_iff`: collecting adds what the machine gives out.
- `References.stored_edit`, `References.stored_without`, `References.stored_withSlot`: what it gives
  out from the pieces of a document when a variable gets another value, is erased, or is declared.
- `References.collect_edits`: the references of a document before and after.
-/

namespace Transclude

namespace References

open Piece

/-! ## The reader as a machine -/

/-- The reference that is open behind a piece, with its text so far. -/
def step : (inside : Option (Text × Text)) → Piece → Option (Text × Text)
  | none, p => (p.opening? .ref).map fun name => (name, [])
  | some (name, body), p => if p.closes .ref then none else some (name, body ++ p.stripped)

/-- The reference that a piece closes. -/
def emit : (inside : Option (Text × Text)) → Piece → Option (Text × Text)
  | none, _ => none
  | some r, p => if p.closes .ref then some r else none

/-- The reference that is open behind a row of pieces. -/
def openIn (inside : Option (Text × Text)) (ps : List Piece) : Option (Text × Text) :=
  ps.foldl step inside

/-- The references that are closed in a row of pieces. -/
def closedIn : (inside : Option (Text × Text)) → List Piece → List (Text × Text)
  | _, [] => []
  | inside, p :: ps => (emit inside p).toList ++ closedIn (step inside p) ps

/-- The references of a row of pieces, unless one of them is never closed. -/
def stored (inside : Option (Text × Text)) (ps : List Piece) : Option (List (Text × Text)) :=
  if openIn inside ps = none then some (closedIn inside ps) else none

section

variable {inside : Option (Text × Text)} {p : Piece} {ps qs : List Piece}

/-- What the machine gives out for `p :: ps` is what `p` makes it give out, and then what the rest
does, from the state that `p` leaves. -/
theorem stored_cons : stored inside (p :: ps) =
    (stored (step inside p) ps).map ((emit inside p).toList ++ ·) := by
  show (if openIn (step inside p) ps = none then _ else _) = _
  rw [stored]
  split <;> rfl

theorem stored_cons_of_emit (h : emit inside p = none) :
    stored inside (p :: ps) = stored (step inside p) ps := by
  rw [stored_cons, h]
  exact Option.map_id'

/-- A closing marker gives the open reference `r` out, and none is open behind it. -/
theorem stored_of_closes (h : p.closes .ref = true) (r : Text × Text) :
    stored (some r) (p :: ps) = (stored none ps).map (r :: ·) := by
  rw [stored_cons, step, emit, if_pos h, if_pos h]
  rfl

/-- Every other piece `p` leaves its stripped text in the body that is open. -/
theorem stored_of_not_closes (h : p.closes .ref = false) (name body : Text) :
    stored (some (name, body)) (p :: ps) = stored (some (name, body ++ p.stripped)) ps := by
  have hemit : emit (some (name, body)) p = none := if_neg (by simp [h])
  rw [stored_cons_of_emit hemit, step, if_neg (by simp [h])]

/-- A row in two parts is read one after the other, the second from the state `openIn` that the
first leaves. -/
theorem stored_append (l : List Piece) :
    stored inside (l ++ ps) =
      (stored (openIn inside l) ps).map (closedIn inside l ++ ·) := by
  induction l generalizing inside with
  | nil => exact Option.map_id'.symm
  | cons p l ih =>
    rw [List.cons_append, stored_cons, ih, Option.map_map]
    refine congrFun (congrArg _ ?_) _
    funext k
    exact (List.append_assoc _ _ _).symm

/-- Rows that are read alike from every state are so with a piece `p` in front of them. -/
theorem stored_cons_congr (p : Piece) (h : ∀ i, stored i ps = stored i qs) :
    stored inside (p :: ps) = stored inside (p :: qs) := by
  rw [stored_cons, stored_cons, h]

/-- The stripped text `x` of an open body comes first in what it is closed with, and whatever stands
there instead comes first then. -/
theorem exists_of_stored_some {name : Text} {l : List (Text × Text)} {x : Text}
    (h : stored (some (name, x)) ps = some l) :
    ∃ b l', l = (name, x ++ b) :: l' ∧
      ∀ y, stored (some (name, y)) ps = some ((name, y ++ b) :: l') := by
  induction ps generalizing x l with
  | nil => cases h
  | cons p ps ih =>
    cases hp : p.closes .ref with
    | true =>
      rw [stored_of_closes hp] at h
      obtain ⟨l', hl', rfl⟩ := Option.map_eq_some_iff.1 h
      refine ⟨[], l', by rw [List.append_nil], fun y => ?_⟩
      rw [stored_of_closes hp, hl', List.append_nil]
      rfl
    | false =>
      rw [stored_of_not_closes hp] at h
      obtain ⟨b, l', rfl, hall⟩ := ih h
      refine ⟨p.stripped ++ b, l', by rw [List.append_assoc], fun y => ?_⟩
      rw [stored_of_not_closes hp, hall, List.append_assoc]

end

/-! ## What a document holds -/

/-- A reader stands before the pieces `ps` of a document, outside any reference or behind an opening
marker and the pieces of a body. -/
def StandsIn (t : Text) (ps : List Piece) : Option (Text × List Piece) → Prop
  | none => ∃ l, ofText t = l ++ ps
  | some (_, body) => ∃ l, EndsWithComment l ∧ ofText t = l ++ (body ++ ps)

/-- The text of a body, read again by `held` and stripped as a document of its own, is the stripped
text of its pieces, as `stored` gives it. -/
theorem held_eq_stored {t : Text} {ps : List Piece} {inside : Option (Text × List Piece)}
    (h : StandsIn t ps inside) :
    held (inside.map fun r => (r.1, textOf r.2)) ps =
      stored (inside.map fun r => (r.1, r.2.flatMap stripped)) ps := by
  induction ps generalizing inside with
  | nil => cases inside <;> rfl
  | cons p ps ih =>
    cases inside with
    | none =>
      obtain ⟨l, hl⟩ := h
      have hsplit : ofText t = (l ++ [p]) ++ ps := by rw [hl]; simp
      rw [Option.map_none, Option.map_none, stored_cons_of_emit rfl, held, step]
      cases ho : p.opening? .ref with
      | none =>
        have hnext : StandsIn t ps none := ⟨_, hsplit⟩
        exact ih hnext
      | some name =>
        obtain ⟨body, rfl⟩ := Block.exists_comment_of_opening ho
        have hnext : StandsIn t ps (some (name, [])) := ⟨_, .inr ⟨l, body, rfl⟩, hsplit⟩
        exact ih hnext
    | some r =>
      obtain ⟨name, m⟩ := r
      obtain ⟨l, hl, hsplit⟩ := h
      rw [Option.map_some, Option.map_some, held]
      cases hc : p.closes .ref with
      | true =>
        obtain ⟨body, rfl⟩ := Block.exists_comment_of_closes hc
        have hbody : strip (textOf m) = m.flatMap stripped := by
          have hpieces := ofText_between hsplit hl (.inr ⟨body, ps, rfl⟩)
          conv => rhs; rw [← hpieces]
          rfl
        have hnext : StandsIn t ps none := ⟨l ++ m ++ [comment body], by rw [hsplit]; simp⟩
        have hrest : held none ps = stored none ps := ih hnext
        rw [if_pos rfl, stored_of_closes hc, hbody, hrest]
      | false =>
        have hnext : StandsIn t ps (some (name, m ++ [p])) := ⟨l, hl, by rw [hsplit]; simp⟩
        have hrest := ih hnext
        rw [if_neg (by simp), stored_of_not_closes hc]
        simpa using hrest

/-- **Collecting adds what the machine gives out** (`stored`) from the pieces of the document to
`previous`, unless a name is bound twice. -/
theorem collect_eq_ok_iff {t : Text} {previous r : Bindings} :
    collect t previous = .ok r ↔
      ∃ l, stored none (ofText t) = some l ∧ Variables.addAll previous l = .ok r := by
  have hstands : StandsIn t (ofText t) none := ⟨[], rfl⟩
  have hheld : held none (ofText t) = stored none (ofText t) := held_eq_stored hstands
  rw [← toOption_eq_some_iff, toOption_collect, hheld, Option.bind_eq_some_iff]
  simp only [toOption_eq_some_iff]

/-! ## Declarations and plain text -/

/-- A piece that leaves no text in a body and is no marker of a reference. -/
structure Silent (p : Piece) : Prop where
  stripped : p.stripped = []
  opening : p.opening? .ref = none
  closes : p.closes .ref = false

section

variable {name : Text} {inside : Option (Text × Text)} {p : Piece}

/-- A declaration is `Silent`: for a reader of references it is a comment like others. -/
theorem silent_of_declares (h : p.declares name = true) : Silent p := by
  obtain ⟨d, hd, rfl, rfl⟩ := exists_of_declares h
  have hdirective : (comment d.body).directive? = some (.declaration d.name d.quote d.raw) :=
    Directive.ofBody?_body hd
  exact ⟨rfl, by rw [opening?, hdirective], by rw [Piece.closes, hdirective]; rfl⟩

theorem step_of_silent (h : Silent p) : step inside p = inside := by
  cases inside with
  | none => rw [step, h.opening, Option.map_none]
  | some r => rw [step, if_neg (by simp [h.closes]), h.stripped, List.append_nil]

theorem emit_of_silent (h : Silent p) : emit inside p = none := by
  cases inside with
  | none => rfl
  | some r => rw [emit, if_neg (by simp [h.closes])]

/-- **A declaration changes nothing** for a reader of references, nor does any other comment that is
`Silent`. -/
theorem stored_cons_of_silent (h : Silent p) (ps : List Piece) :
    stored inside (p :: ps) = stored inside ps := by
  rw [stored_cons_of_emit (emit_of_silent h), step_of_silent h]

/-- Plain text `s` is added to the body that is open. -/
theorem stored_plain (s : Text) (ps : List Piece) :
    stored inside (plain s :: ps) = stored (inside.map fun r => (r.1, r.2 ++ s)) ps := by
  cases inside with
  | none => exact stored_cons_of_emit rfl
  | some r => exact stored_of_not_closes rfl r.1 r.2

/-- Two stretches of plain text are added like one, so it does not matter where plain text is
cut. -/
theorem stored_plain_append (s s' : Text) (ps : List Piece) :
    stored inside (plain (s ++ s') :: ps) = stored inside (plain s :: plain s' :: ps) := by
  rw [stored_plain, stored_plain, stored_plain]
  cases inside with
  | none => rfl
  | some r => rw [Option.map_some, Option.map_some, Option.map_some, List.append_assoc]

theorem stored_edit (name value : Text) (ps : List Piece) :
    stored inside (ps.map (edit name value)) = stored inside ps := by
  induction ps generalizing inside with
  | nil => rfl
  | cons p ps ih =>
    rw [List.map_cons]
    cases hp : p.declares name with
    | true =>
      obtain ⟨d, hd, rfl, rfl⟩ := exists_of_declares hp
      have hedited : (edit d.name value (comment d.body)).declares d.name = true := by
        rw [edit_comment hd]
        exact declares_comment (hd.withValue value)
      rw [stored_cons_of_silent (silent_of_declares hp),
        stored_cons_of_silent (silent_of_declares hedited), ih]
    | false =>
      rw [edit_of_not_declares hp]
      exact stored_cons_congr p fun _ => ih

/-- It does not matter to `stored` whether plain text is joined to the piece before it by
`attach`. -/
theorem stored_attach (p : Piece) (ps : List Piece) :
    stored inside (attach p ps) = stored inside (p :: ps) := by
  unfold attach
  split
  · exact stored_plain_append _ _ _
  · rfl

/-- A row in which neighbouring plain pieces are joined by `join` is read alike. -/
theorem stored_join (ps : List Piece) : stored inside (join ps) = stored inside ps := by
  induction ps generalizing inside with
  | nil => rfl
  | cons p ps ih =>
    rw [join_cons, stored_attach]
    exact stored_cons_congr p fun _ => ih

theorem stored_without (name : Text) (ps : List Piece) :
    stored inside (without name ps) = stored inside ps := by
  rw [without, stored_join]
  induction ps generalizing inside with
  | nil => rfl
  | cons p ps ih =>
    cases hp : p.declares name with
    | true =>
      rw [List.filter_cons_of_neg (by simp [hp]), ih,
        stored_cons_of_silent (silent_of_declares hp)]
    | false =>
      rw [List.filter_cons_of_pos (by simp [hp])]
      exact stored_cons_congr p fun _ => ih

/-- Text put in front of a row is read as a plain piece in front of it. -/
theorem stored_prepend (s : Text) (ps : List Piece) :
    stored inside (prepend s ps) = stored inside (plain s :: ps) := by
  unfold prepend
  split
  · exact stored_plain_append _ _ _
  · rfl

end

/-! ## A new declaration -/

/-- The line ends that come with a new declaration behind an include marker. -/
def lineEnds (ps : List Piece) : Text :=
  '\n' :: Variables.gapBefore (textOf (Variables.cut ps).tail)

/-- In a reference `r`, a new declaration is put behind an include marker, so a line end comes
before it. -/
theorem sep_of_openIn {ps : List Piece} {r : Text × Text}
    (h : openIn none (Variables.cut ps).head = some r) : (Variables.cut ps).sep = ['\n'] := by
  unfold Variables.cut at h ⊢
  split at h
  · rfl
  · cases h

/-- A new declaration adds its line ends (`lineEnds`) to the body that it is put in, if one is open
there, and nothing else. -/
theorem stored_withSlot {name : Text} (hname : isName name = true) (ps : List Piece) :
    stored none (Variables.withSlot name ps) =
      (stored ((openIn none (Variables.cut ps).head).map fun r => (r.1, r.2 ++ lineEnds ps))
        (Variables.cut ps).tail).map (closedIn none (Variables.cut ps).head ++ ·) := by
  have hslot := silent_of_declares (Variables.declares_slot hname)
  rw [Variables.withSlot, stored_append, stored_plain, stored_cons_of_silent hslot, stored_prepend,
    stored_plain]
  cases hopen : openIn none (Variables.cut ps).head with
  | none => rfl
  | some r => simp [lineEnds, sep_of_openIn hopen]

/-- The reference in whose body a new declaration of the variable is put, with the stripped text of
the body up to there. -/
def around? (name : Text) (ps : List Piece) : Option (Text × Text) :=
  if ps.any (declares name) then none else openIn none (Variables.cut ps).head

section

variable {name : Text} {ps : List Piece} {l : List (Text × Text)}

/-- Where the place of a new declaration is outside of all references, so that `around?` finds none,
setting a variable changes none. -/
theorem stored_places (hname : isName name = true) (h : around? name ps = none) :
    stored none (Variables.places name ps) = stored none ps := by
  rw [Variables.places]
  rw [around?] at h
  split
  · rfl
  · next hnot =>
    rw [if_neg hnot] at h
    conv => rhs; rw [← Variables.head_append_tail ps]
    rw [stored_withSlot hname, stored_append, h]
    rfl

/-- Where that place is in the body of a reference `m`, behind its text `a`, the line ends are added
there. The references before and after it are as they were. -/
theorem exists_of_stored_places (hname : isName name = true) {m a : Text}
    (h : around? name ps = some (m, a)) (hl : stored none ps = some l) :
    ∃ b before after, l = before ++ (m, a ++ b) :: after ∧
      stored none (Variables.places name ps) =
        some (before ++ (m, a ++ lineEnds ps ++ b) :: after) := by
  rw [around?] at h
  split at h
  · cases h
  · next hnot =>
    rw [← Variables.head_append_tail ps, stored_append, h] at hl
    obtain ⟨l', hl', rfl⟩ := Option.map_eq_some_iff.1 hl
    obtain ⟨b, after, rfl, hall⟩ := exists_of_stored_some hl'
    refine ⟨b, _, after, rfl, ?_⟩
    rw [Variables.places, if_neg hnot, stored_withSlot hname, h, Option.map_some, hall]
    rfl

end

/-- Another text `y` in one of the entries that are added: its name is bound to `y` in place of
`x`. -/
theorem addAll_replace {previous r : Bindings} {before after : List (Text × Text)} {m x : Text}
    (h : Variables.addAll previous (before ++ (m, x) :: after) = .ok r) (y : Text) :
    r.get? m = some x ∧
      Variables.addAll previous (before ++ (m, y) :: after) = .ok (r.set m y) := by
  obtain ⟨hnodup, rfl⟩ := Variables.addAll_eq_ok_iff.1 h
  -- the names are the same, so only one text is another
  have hsame : (before ++ (m, y) :: after).map Prod.fst =
      (before ++ (m, x) :: after).map Prod.fst := by
    simp
  have hlookup {l : List (Text × Text)} (v : Text) (hl : l = before ++ (m, v) :: after) (n : Text) :
      l.lookup n = (before.lookup n).or (if n = m then some v else after.lookup n) := by
    rw [hl, List.lookup_append, Bindings.lookup_cons_eq]
  have hx := (List.nodup_append.1 hnodup).2.1
  have hy : ((before ++ (m, y) :: after).map Prod.fst).Nodup := hsame ▸ hx
  have hmx : (before ++ (m, x) :: after).lookup m = some x :=
    (Bindings.lookup_eq_some_iff_mem hx).2 (by simp)
  have hmy : (before ++ (m, y) :: after).lookup m = some y :=
    (Bindings.lookup_eq_some_iff_mem hy).2 (by simp)
  refine ⟨by rw [Bindings.get?_extend hx, hmx]; rfl, ?_⟩
  refine Variables.addAll_eq_ok_iff.2 ⟨hsame ▸ hnodup, Bindings.ext_get? fun n => ?_⟩
  rw [Bindings.get?_set, Bindings.get?_extend hx, Bindings.get?_extend hy]
  split
  · next hn => rw [hn, hmy]; rfl
  · next hn => rw [hlookup x rfl, hlookup y rfl, if_neg hn, if_neg hn]

/-- **References under edits of the variables**, in every document whose references can be
collected. Setting and erasing a variable always succeed. Where the new text is read as the pieces
that the edit makes, a declaration that is edited in its place or taken out leaves all references as
they are, and so does a new one outside of all references. A new one in the body of a reference adds
its line ends to this body, behind the include marker, and leaves the other references as they are.

The new text is read so when a variable is set and no opener is exposed to the value, and when one
is erased and the pieces that are left have the right shape with no stray opener that begins a
declaration. -/
theorem collect_edits {name : Text} (hname : isName name = true) {t : Text} {previous r : Bindings}
    (hr : collect t previous = .ok r) :
    (∀ value, ∃ t', Variables.set t name value = .ok t' ∧
      (ofText t' = (Variables.places name (ofText t)).map (edit name value) →
        (around? name (ofText t) = none → collect t' previous = .ok r) ∧
        ∀ m a, around? name (ofText t) = some (m, a) → ∃ b, r.get? m = some (a ++ b) ∧
          collect t' previous = .ok (r.set m (a ++ lineEnds (ofText t) ++ b))) ∧
      (¬Exposed name (Variables.places name (ofText t)) →
        ofText t' = (Variables.places name (ofText t)).map (edit name value))) ∧
    ∃ t', Variables.erase t name = .ok t' ∧
      (ofText t' = without name (ofText t) → collect t' previous = .ok r) ∧
      (ofText t' = without name (ofText t) ↔
        Shaped (without name (ofText t)) ∧ Unread (without name (ofText t))) := by
  obtain ⟨l, hl, hadd⟩ := collect_eq_ok_iff.1 hr
  refine ⟨fun value => ⟨_, Variables.set_eq hname t value, fun hread => ⟨fun hnone => ?_, ?_⟩,
    fun hexposed => ofText_edit (Variables.ready_places hname t) hexposed value⟩,
    _, Variables.erase_eq hname t, fun hread => ?_, ofText_textOf_iff⟩
  · rw [collect_eq_ok_iff, hread, stored_edit, stored_places hname hnone]
    exact ⟨l, hl, hadd⟩
  · intro m a haround
    obtain ⟨b, before, after, rfl, hplaces⟩ := exists_of_stored_places hname haround hl
    obtain ⟨hm, hset⟩ := addAll_replace hadd (a ++ lineEnds (ofText t) ++ b)
    refine ⟨b, hm, ?_⟩
    rw [collect_eq_ok_iff, hread, stored_edit]
    exact ⟨_, hplaces, hset⟩
  · rw [collect_eq_ok_iff, hread, stored_without]
    exact ⟨l, hl, hadd⟩

/-- A document with a variable, and an include marker in the body of a reference. -/
def markedText : Text :=
  "<!-- var(y)=\"1\" --><!--begin-ref(r)--><!--include-file(f)-->x<!--end-ref-->".toList

theorem collect_markedText :
    collect markedText .empty = .ok (Bindings.empty.set ['r'] ['x']) :=
  Fill.eq_ok_of_toOption (by decide +kernel)

/-- The variable can be given a closer as its value, and be erased. A new one adds line ends. -/
theorem collect_edits_markedText :
    (∃ t', Variables.set markedText ['y'] closer = .ok t' ∧
      collect t' .empty = .ok (Bindings.empty.set ['r'] ['x'])) ∧
    (∃ t', Variables.erase markedText ['y'] = .ok t' ∧
      collect t' .empty = .ok (Bindings.empty.set ['r'] ['x'])) ∧
    ∃ t', Variables.set markedText ['z'] closer = .ok t' ∧
      collect t' .empty = .ok (Bindings.empty.set ['r'] ['\n', '\n', '\n', 'x']) := by
  have hy : isName ['y'] = true := rfl
  have hz : isName ['z'] = true := rfl
  obtain ⟨hset, t₂, h₂, hkept, -⟩ := collect_edits hy collect_markedText
  obtain ⟨t₁, h₁, hedited, -⟩ := hset closer
  obtain ⟨t₃, h₃, hadded, -⟩ := (collect_edits hz collect_markedText).1 closer
  obtain rfl := Except.ok.inj ((Variables.set_eq rfl _ _).symm.trans h₁)
  obtain rfl := Except.ok.inj ((Variables.erase_eq rfl _).symm.trans h₂)
  obtain rfl := Except.ok.inj ((Variables.set_eq rfl _ _).symm.trans h₃)
  refine ⟨⟨_, h₁, (hedited (by decide +kernel)).1 (by decide +kernel)⟩,
    ⟨_, h₂, hkept (by decide +kernel)⟩, _, h₃, ?_⟩
  obtain ⟨b, hb, hcollect⟩ := (hadded (by decide +kernel)).2 ['r'] [] (by decide +kernel)
  obtain rfl : b = ['x'] := (Option.some.inj hb).symm
  rw [hcollect]
  exact congrArg Except.ok (by decide +kernel)

/-- Two parts of an opener stand around a variable, and the rest of an opening marker behind it. -/
def joinedText : Text := "<!-<!-- var(x)=\"1\" -->- begin-ref(s) --><!-- end-ref -->".toList

/-- **Edits of the variables can change references.** A new declaration of `z` brings line ends into
the body that it is put in, and erasing `x` brings the reference `s` about. -/
theorem collect_edits_ne :
    (∃ t', collect markedText .empty = .ok (Bindings.empty.set ['r'] ['x']) ∧
      Variables.set markedText ['z'] ['1'] = .ok t' ∧
      collect t' .empty = .ok (Bindings.empty.set ['r'] ['\n', '\n', '\n', 'x'])) ∧
    ∃ t', collect joinedText .empty = .ok .empty ∧ Variables.erase joinedText ['x'] = .ok t' ∧
      collect t' .empty = .ok (Bindings.empty.set ['s'] []) := by
  refine ⟨⟨"<!-- var(y)=\"1\" --><!--begin-ref(r)--><!--include-file(f)-->\n".toList ++
    "<!-- var(z)=\"1\" -->\n\nx<!--end-ref-->".toList, collect_markedText, ?_, ?_⟩,
    "<!-- begin-ref(s) --><!-- end-ref -->".toList, ?_, ?_, ?_⟩
  · exact Fill.eq_ok_of_toOption (by decide +kernel)
  · exact Fill.eq_ok_of_toOption (by decide +kernel)
  · exact Fill.eq_ok_of_toOption (by decide +kernel)
  · exact Fill.eq_ok_of_toOption (by decide +kernel)
  · exact Fill.eq_ok_of_toOption (by decide +kernel)

end References

end Transclude
