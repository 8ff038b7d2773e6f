import Transclude.Proofs.Collections
import Transclude.Proofs.Excerpts

/-!
# A scanner goes forward

A scanner can be used in any way. The next opening marker and the end of a block are asked for in
any order, and the end may be that of an opening marker returned long ago, or asked for twice
(`Scanner.Call`). The two calls share one place in the document, and what they return lies in order
all the same.

The invariant is `Scanner.InUse`: a scanner stands between two pieces of its document, and every
opening marker that it has returned lies before that place. One call finds the first marker of the
sort it is asked for behind the place, and goes on behind it; or it finds none, and then the scanner
is at the end for good (`Scanner.Moves`). All that is said of a run follows from this one step.

Main statements:
- `Scanner.InUse.nextOpening`, `Scanner.InUse.close`: what one call does.
- `Scanner.trace_answers`: a run is a chain of such calls.
- `Scanner.answers_inOrder`: what a run of any length returns.
-/

namespace Transclude

namespace Scanner

/-! ## Runs -/

/-- What a scanner is asked for. -/
inductive Call where
  /-- The next opening marker. -/
  | next
  /-- The end of the block of the `n`th opening marker that it has returned. -/
  | close (n : Nat)
  deriving DecidableEq, Repr

/-- What a scanner returns. -/
inductive Answer where
  | opening (o : Option Opening)
  | closed (o : Opening) (b : Block)
  /-- The block that `o` opens has no end. -/
  | unclosed (o : Opening) (e : Error)
  deriving DecidableEq, Repr

/-- The span of the marker that is returned, if one was found. -/
def Answer.marker? : Answer → Option Span
  | opening o => o.map (·.span)
  | closed _ b => some b.closing
  | unclosed .. => none

/-- The end of a block is asked for with its opening marker. -/
def Answer.ofClose (o : Opening) : Except Error Block → Answer
  | .ok b => closed o b
  | .error e => unclosed o e

/-- What a scanner that has returned the opening markers `found` answers to calls. An opening marker
that has not been returned cannot be asked for. -/
def answers (s : Scanner) (found : List Opening) : List Call → List Answer
  | [] => []
  | .next :: calls =>
    let (o, s') := s.nextOpening
    .opening o :: answers s' (found ++ o.toList) calls
  | .close n :: calls =>
    match found[n]? with
    | none => answers s found calls
    | some o =>
      let (b, s') := s.close o
      .ofClose o b :: answers s' found calls

/-! ## What is said of the answers -/

/-- Whether a token is of the sort that was asked for. -/
def Answer.Seeks (kind : BlockKind) (k : Token) : Answer → Prop
  | opening _ => ∃ name, k.directive = .opening kind name
  | _ => k.directive = .closing kind

/-- What is known of a block that is returned for the opening marker `o`. -/
structure Encloses (kind : BlockKind) (t : Text) (o : Opening) (b : Block) : Prop where
  name : b.name = o.name
  opening : b.opening = o.span
  ofKind : b.kind = kind
  closing : ∃ k ∈ Token.ofText t, k.directive = .closing kind ∧ k.span = b.closing
  /-- The body lies behind the opening marker and before the closing marker, between characters. -/
  body : b.inner.Holds t (b.body t)

/-- What is known of a single answer: a marker is a token of the document and of the kind, and what
fails is the block that was asked for. -/
def Answer.Sound (kind : BlockKind) (t : Text) : Answer → Prop
  | opening o => ∀ o' ∈ o, o'.Located t ∧
      ∃ k ∈ Token.ofText t, k.directive = .opening kind o'.name ∧ k.span = o'.span
  | closed o b => Encloses kind t o b
  | unclosed o e => o.Located t ∧ e = .missingEnd kind o.name o.line

/-- The spans of the markers among the answers. -/
def markers (as : List Answer) : List Span := as.filterMap Answer.marker?

/-- How far the markers reach, from byte `n` on. -/
def reached (n : Nat) (as : List Answer) : Nat := (markers as).foldl (fun _ s => s.stop) n

/-- What is known of the answers of a run. -/
structure InOrder (kind : BlockKind) (t : Text) (as : List Answer) : Prop where
  /-- Each marker lies behind those that were returned before it. -/
  markers : (markers as).Pairwise fun a b => a.start < b.start ∧ a.stop ≤ b.start
  sound : ∀ a ∈ as, a.Sound kind t
  /-- Once nothing was found, nothing is found any more. -/
  ended : as.Pairwise fun a b => a.marker? = none → b.marker? = none
  /-- Until then no marker is passed over that was asked for. -/
  nearest : ∀ before a after, as = before ++ a :: after → (∀ b ∈ before, b.marker? ≠ none) →
    ∀ k ∈ Token.ofText t, a.Seeks kind k → reached 0 before ≤ k.start →
      ∃ s ∈ a.marker?, s.start ≤ k.start

/-! ## Where a scanner stands -/

/-- A scanner stands behind the pieces `l` of its document. -/
structure Behind (t : Text) (s : Scanner) (l : List Piece) : Prop where
  pieces : Piece.ofText t = l ++ s.rest
  here : s.here = Place.first.after (Piece.textOf l)

/-- The document is the text of the pieces `l` behind a scanner and of those that are left to it. -/
theorem Behind.text {t : Text} {s : Scanner} {l : List Piece} (h : Behind t s l) :
    t = Piece.textOf l ++ Piece.textOf s.rest := by
  rw [← Piece.textOf_append, ← h.pieces, Piece.textOf_ofText]

/-- The offset of a scanner is the width of what is behind it. -/
theorem Behind.offset {t : Text} {s : Scanner} {l : List Piece} (h : Behind t s l) :
    s.here.offset = Text.width (Piece.textOf l) := by
  rw [h.here]
  exact Nat.zero_add _

/-- A token `k` that does not begin before a place between the pieces is one of those behind it. -/
theorem exists_split_of_le {t : Text} {l rest : List Piece} (ht : Piece.ofText t = l ++ rest)
    {k : Token} (hk : k ∈ Token.ofText t) (hle : Text.width (Piece.textOf l) ≤ k.start) :
    ∃ m r, rest = m ++ .comment k.body :: r ∧
      k.start = Text.width (Piece.textOf (l ++ m)) := by
  obtain ⟨l', r, hsplit, -, hstart⟩ := Token.exists_split_of_mem_ofPieces hk
  rw [Nat.zero_add] at hstart
  rcases List.append_eq_append_iff.1 (ht.symm.trans hsplit) with
    ⟨m, rfl, hrest⟩ | ⟨m, rfl, hrest⟩
  · exact ⟨m, r, hrest, hstart⟩
  · cases m with
    | nil => exact ⟨[], r, hrest.symm, by simpa using hstart⟩
    | cons p m =>
      -- the token would lie before the place
      obtain ⟨rfl, -⟩ := List.cons.inj hrest
      have hpos := Piece.width_comment_pos k.body
      rw [hstart, Piece.textOf_append, Piece.textOf_cons, Text.width_append,
        Text.width_append] at hle
      omega

/-- Of the tokens behind a place that a search `f` accepts, none begins before the first one. -/
theorem le_start_of_first {t : Text} {l m r : List Piece} {p : Piece} {f : Piece → Bool}
    (ht : Piece.ofText t = l ++ (m ++ p :: r)) (hm : ∀ q ∈ m, f q = false) {k : Token}
    (hk : k ∈ Token.ofText t) (hf : f (.comment k.body) = true)
    (hle : Text.width (Piece.textOf l) ≤ k.start) :
    Text.width (Piece.textOf (l ++ m)) ≤ k.start := by
  obtain ⟨m', r', hsplit, hstart⟩ := exists_split_of_le ht hk hle
  rw [hstart, Piece.textOf_append, Piece.textOf_append, Text.width_append, Text.width_append]
  refine Nat.add_le_add_left ?_ _
  rcases List.append_eq_append_iff.1 hsplit with ⟨x, rfl, -⟩ | ⟨x, rfl, hx⟩
  · rw [Piece.textOf_append, Text.width_append]
    exact Nat.le_add_right _ _
  · cases x with
    | nil => simp
    | cons q x =>
      obtain ⟨rfl, -⟩ := List.cons.inj hx
      rw [hm _ (by simp)] at hf
      cases hf

/-- If a search `f` accepts none of the pieces that are left, the tokens that it would accept all
begin before them. -/
theorem lt_of_none {t : Text} {l rest : List Piece} {f : Piece → Bool}
    (ht : Piece.ofText t = l ++ rest) (hrest : ∀ q ∈ rest, f q = false) {k : Token}
    (hk : k ∈ Token.ofText t) (hf : f (.comment k.body) = true) :
    k.start < Text.width (Piece.textOf l) := by
  refine Nat.lt_of_not_le fun hle => ?_
  obtain ⟨m, r, rfl, -⟩ := exists_split_of_le ht hk hle
  rw [hrest _ (by simp)] at hf
  cases hf

/-! ## One call -/

section

variable {kind : BlockKind} {here : Place} {m r : List Piece} {p : Piece}

/-- Where no piece of `ps` opens a block, the search for an opening marker ends behind all of
them. -/
theorem openingIn_of_none {ps : List Piece} (h : ∀ q ∈ ps, q.opening? kind = none) :
    openingIn kind here ps = (none, ⟨kind, here.after (Piece.textOf ps), []⟩) := by
  induction ps generalizing here with
  | nil => rfl
  | cons p ps ih =>
    rw [openingIn, Opening.ofPiece?, h p List.mem_cons_self, Piece.textOf_cons, Place.after_append]
    exact ih fun q hq => h q (List.mem_cons_of_mem _ hq)

/-- The first opening marker `p` of a row is found, and the scanner stands behind it. -/
theorem openingIn_append (h : ∀ q ∈ m, q.opening? kind = none) {name : Text}
    (hp : p.opening? kind = some name) :
    openingIn kind here (m ++ p :: r) =
      (some ⟨name, (here.after (Piece.textOf m)).span p.text, (here.after (Piece.textOf m)).line⟩,
        ⟨kind, here.after (Piece.textOf (m ++ [p])), r⟩) := by
  rw [Piece.textOf_append, Piece.textOf_cons, Piece.textOf_nil, List.append_nil,
    Place.after_append]
  induction m generalizing here with
  | nil =>
    rw [List.nil_append, openingIn, Opening.ofPiece?, hp]
    rfl
  | cons q m ih =>
    rw [List.cons_append, openingIn, Opening.ofPiece?, h q List.mem_cons_self, Piece.textOf_cons,
      Place.after_append]
    exact ih fun x hx => h x (List.mem_cons_of_mem _ hx)

/-- Where no piece of `ps` closes a block, the search for a closing marker ends behind all of
them. -/
theorem closingIn_of_none {ps : List Piece} (h : ∀ q ∈ ps, q.closes kind = false) :
    closingIn kind here ps = (none, ⟨kind, here.after (Piece.textOf ps), []⟩) := by
  induction ps generalizing here with
  | nil => rfl
  | cons p ps ih =>
    rw [closingIn, if_neg (by simp [h p]), Piece.textOf_cons, Place.after_append]
    exact ih fun q hq => h q (List.mem_cons_of_mem _ hq)

/-- The first closing marker `p` of a row is found, and the scanner stands behind it. -/
theorem closingIn_append (h : ∀ q ∈ m, q.closes kind = false) (hp : p.closes kind = true) :
    closingIn kind here (m ++ p :: r) =
      (some ((here.after (Piece.textOf m)).span p.text),
        ⟨kind, here.after (Piece.textOf (m ++ [p])), r⟩) := by
  rw [Piece.textOf_append, Piece.textOf_cons, Piece.textOf_nil, List.append_nil,
    Place.after_append]
  induction m generalizing here with
  | nil => rw [List.nil_append, closingIn, if_pos hp]; rfl
  | cons q m ih =>
    rw [List.cons_append, closingIn, if_neg (by simp [h q]), Piece.textOf_cons,
      Place.after_append]
    exact ih fun x hx => h x (List.mem_cons_of_mem _ hx)

end

/-- A scanner of a kind that has returned the opening markers `found` of a document. -/
structure InUse (kind : BlockKind) (t : Text) (s : Scanner) (found : List Opening) : Prop where
  ofKind : s.kind = kind
  behind : ∃ l, Behind t s l
  /-- It stands behind each of them. -/
  found : ∀ o ∈ found, o.Located t ∧ Block.Stands t 0 s.here s.rest (some o)

/-- What a call does that takes a scanner from `s` to `s'` and returns `a`. -/
structure Moves (kind : BlockKind) (t : Text) (s : Scanner) (a : Answer) (s' : Scanner) :
    Prop where
  marker : ∀ m ∈ a.marker?,
    s.here.offset ≤ m.start ∧ m.start < m.stop ∧ s'.here.offset = m.stop
  nearest : ∀ k ∈ Token.ofText t, a.Seeks kind k → s.here.offset ≤ k.start →
    ∃ m ∈ a.marker?, m.start ≤ k.start
  ended : a.marker? = none → s'.rest = []
  stays : s.rest = [] → a.marker? = none
  sound : a.Sound kind t

/-- Past some pieces `m` a reader is still behind the opening marker. -/
theorem stands_skip {t : Text} {here : Place} {o : Opening} {m ps : List Piece}
    (h : Block.Stands t 0 here (m ++ ps) (some o)) :
    Block.Stands t 0 (here.after (Piece.textOf m)) ps (some o) := by
  induction m generalizing here with
  | nil => exact h
  | cons p m ih =>
    rw [Piece.textOf_cons, Place.after_append]
    exact ih h.inside

section

variable {kind : BlockKind} {t : Text} {s : Scanner} {found : List Opening}

/-- Past some of its pieces, `m`, a scanner is in use (`InUse`) as before. -/
theorem InUse.skip (h : InUse kind t s found) {m r : List Piece} (hrest : s.rest = m ++ r) :
    InUse kind t ⟨kind, s.here.after (Piece.textOf m), r⟩ found := by
  obtain ⟨-, ⟨l, hl⟩, hfound⟩ := h
  refine ⟨rfl, ⟨l ++ m, ?_, ?_⟩, fun o ho => ?_⟩
  · rw [hl.pieces, hrest, List.append_assoc]
  · rw [hl.here, Piece.textOf_append, Place.after_append]
  · obtain ⟨hlocated, hstands⟩ := hfound o ho
    rw [hrest] at hstands
    exact ⟨hlocated, stands_skip hstands⟩

/-- A token that an answer with an opening marker seeks is one. -/
theorem opening?_of_token {k : Token} (hk : k ∈ Token.ofText t) {o : Option Opening}
    (hseek : (Answer.opening o).Seeks kind k) :
    ((Piece.comment k.body).opening? kind).isSome = true := by
  obtain ⟨name, hname⟩ := hseek
  have hd := (Token.wellFormed_of_mem hk).directive
  rw [hname] at hd
  simp [Piece.opening?, Piece.directive?, hd]

/-- A token that is a closing marker closes blocks of its kind. -/
theorem closes_of_token {k : Token} (hk : k ∈ Token.ofText t)
    (hclosing : k.directive = .closing kind) : (Piece.comment k.body).closes kind = true := by
  have hd := (Token.wellFormed_of_mem hk).directive
  rw [hclosing] at hd
  simp [Piece.closes, Piece.directive?, hd]

/-- The place behind some pieces `m`, in bytes. -/
theorem Behind.offset_after {l : List Piece} (h : Behind t s l) (m : List Piece) :
    (s.here.after (Piece.textOf m)).offset = Text.width (Piece.textOf (l ++ m)) := by
  rw [Piece.textOf_append]
  exact Place.offset_after h.offset _

/-- A marker behind some pieces is a token of the document, with the span that the scanner gives
it. -/
theorem Behind.mem_tokens {l m r : List Piece} {body : Text} (h : Behind t s l)
    (hrest : s.rest = m ++ .comment body :: r) {d : Directive}
    (hd : Directive.ofBody? body = some d) : ∃ k ∈ Token.ofText t, k.directive = d ∧
      k.span = (s.here.after (Piece.textOf m)).span (Piece.comment body).text := by
  have hmem := Token.mem_ofPieces (n := 0) (l := l ++ m) (r := r) hd
  have hpieces : Piece.ofText t = l ++ m ++ .comment body :: r := by
    rw [h.pieces, hrest, List.append_assoc]
  rw [Nat.zero_add, ← h.offset_after m, ← hpieces] at hmem
  exact ⟨_, hmem, rfl, rfl⟩

/-- The bytes of a marker `p` behind some pieces begin where these end, and end where the scanner
stands behind it. -/
theorem span_after (here : Place) (m : List Piece) {p : Piece} (hp : 0 < Text.width p.text) :
    here.offset ≤ ((here.after (Piece.textOf m)).span p.text).start ∧
      ((here.after (Piece.textOf m)).span p.text).start <
        ((here.after (Piece.textOf m)).span p.text).stop ∧
      (here.after (Piece.textOf (m ++ [p]))).offset =
        ((here.after (Piece.textOf m)).span p.text).stop := by
  refine ⟨Nat.le_add_right _ _, Nat.lt_add_of_pos_right hp, ?_⟩
  rw [Piece.textOf_append, Place.after_append, Piece.textOf_cons, Piece.textOf_nil,
    List.append_nil]
  rfl

/-- An opening marker that begins where the scanner stands is located in the document, and the
reader stands behind it. -/
theorem Behind.opened {l r : List Piece} {p : Piece} (h : Behind t s l) (hrest : s.rest = p :: r)
    {o : Opening} (ho : Opening.ofPiece? kind s.here p = some o) :
    o.Located t ∧ Block.Stands t 0 (s.here.after p.text) r (some o) := by
  constructor
  · rw [h.here] at ho
    exact Block.located_ofPiece? h.text ho
  · have hstands : Block.Stands t 0 s.here (p :: r) none :=
      ⟨Piece.textOf l, hrest ▸ h.text, h.offset, Nat.zero_le _⟩
    have hnext := hstands.outside kind
    rwa [ho] at hnext

/-- A call that finds no marker leads to the end of the document, and moves the scanner as `Moves`
says. -/
theorem Behind.moves_end {l : List Piece} (h : Behind t s l) {f : Piece → Bool}
    (hnone : ∀ q ∈ s.rest, f q = false) {a : Answer}
    (hseeks : ∀ k ∈ Token.ofText t, a.Seeks kind k → f (.comment k.body) = true)
    (hmarker : a.marker? = none) (hsound : a.Sound kind t) :
    Moves kind t s a ⟨kind, s.here.after (Piece.textOf s.rest), []⟩ where
  marker m hm := by
    rw [hmarker] at hm
    cases hm
  nearest k hk hseek hle := by
    have hlt := lt_of_none h.pieces hnone hk (hseeks k hk hseek)
    rw [h.offset] at hle
    exact absurd hle (Nat.not_le_of_lt hlt)
  ended _ := rfl
  stays _ := hmarker
  sound := hsound

/-- A call that finds a marker leads behind it, and moves the scanner as `Moves` says. -/
theorem Behind.moves_first {l m r : List Piece} (h : Behind t s l) {body : Text}
    (hrest : s.rest = m ++ .comment body :: r) {f : Piece → Bool} (hm : ∀ q ∈ m, f q = false)
    {a : Answer} (hseeks : ∀ k ∈ Token.ofText t, a.Seeks kind k → f (.comment k.body) = true)
    (hmarker : a.marker? =
      some ((s.here.after (Piece.textOf m)).span (Piece.comment body).text))
    (hsound : a.Sound kind t) :
    Moves kind t s a ⟨kind, s.here.after (Piece.textOf (m ++ [.comment body])), r⟩ where
  marker x hx := by
    obtain rfl := Option.some.inj (hmarker.symm.trans hx)
    exact span_after s.here m (Piece.width_comment_pos body)
  nearest k hk hseek hle := by
    have hpieces := h.pieces
    rw [hrest] at hpieces
    rw [h.offset] at hle
    have hfirst := le_start_of_first hpieces hm hk (hseeks k hk hseek) hle
    rw [← h.offset_after m] at hfirst
    exact ⟨_, hmarker, hfirst⟩
  ended hnone := by
    rw [hmarker] at hnone
    cases hnone
  stays hnil := by
    rw [hrest] at hnil
    simp at hnil
  sound := hsound

/-- An opening marker that was returned just now is one of the `found` ones. -/
theorem InUse.concat {s' : Scanner} (h : InUse kind t s' found) {o : Opening}
    (hlocated : o.Located t) (hstands : Block.Stands t 0 s'.here s'.rest (some o)) :
    InUse kind t s' (found ++ [o]) := by
  refine ⟨h.ofKind, h.behind, fun o' ho' => ?_⟩
  rcases List.mem_append.1 ho' with ho' | ho'
  · exact h.found o' ho'
  · obtain rfl := List.mem_singleton.1 ho'
    exact ⟨hlocated, hstands⟩

/-- **Asking for the next opening marker** moves the scanner (`Moves`), and leaves it in use with
that marker found. -/
theorem InUse.nextOpening (h : InUse kind t s found) :
    Moves kind t s (.opening s.nextOpening.1) s.nextOpening.2 ∧
      InUse kind t s.nextOpening.2 (found ++ s.nextOpening.1.toList) := by
  obtain ⟨l, hl⟩ := h.behind
  rw [Scanner.nextOpening, h.ofKind]
  cases hfind : s.rest.find? fun q => (q.opening? kind).isSome with
  | none =>
    have hnone : ∀ q ∈ s.rest, q.opening? kind = none := by
      simpa using List.find?_eq_none.1 hfind
    rw [openingIn_of_none hnone]
    refine ⟨hl.moves_end (f := fun q => (q.opening? kind).isSome)
      (fun q hq => by rw [hnone q hq]; rfl) (fun k hk => opening?_of_token hk) rfl
      (by simp [Answer.Sound]), ?_⟩
    rw [Option.toList_none, List.append_nil]
    exact h.skip (List.append_nil _).symm
  | some p =>
    obtain ⟨hp, m, r, hrest, hm⟩ := List.find?_eq_some_iff_append.1 hfind
    obtain ⟨name, hname⟩ := Option.isSome_iff_exists.1 hp
    have hnone : ∀ q ∈ m, q.opening? kind = none := by simpa using hm
    obtain ⟨body, rfl⟩ := Block.exists_comment_of_opening hname
    -- the scanner before the marker, and behind it
    obtain ⟨l', hat⟩ := (h.skip hrest).behind
    obtain ⟨hlocated, hstands⟩ := hat.opened rfl
      (show Opening.ofPiece? kind _ _ = some ⟨name, _, _⟩ by rw [Opening.ofPiece?, hname]; rfl)
    have hnext : InUse kind t
        ⟨kind, s.here.after (Piece.textOf (m ++ [Piece.comment body])), r⟩ found :=
      h.skip (by rw [hrest]; simp)
    rw [hrest, openingIn_append hnone hname]
    refine ⟨hl.moves_first hrest (f := fun q => (q.opening? kind).isSome)
      (fun q hq => by rw [hnone q hq]; rfl) (fun k hk => opening?_of_token hk) rfl ?_,
      hnext.concat hlocated ?_⟩
    · rintro _ ⟨⟩
      exact ⟨hlocated, hl.mem_tokens hrest (Piece.opening?_eq_some_iff.1 hname)⟩
    · rw [Piece.textOf_append, Place.after_append, Piece.textOf_cons, Piece.textOf_nil,
        List.append_nil]
      exact hstands

/-- **Asking for the end of a block** moves the scanner (`Moves`), and leaves it in use, whichever
of the openings `found` so far is asked for. -/
theorem InUse.close (h : InUse kind t s found) {o : Opening} (ho : o ∈ found) :
    Moves kind t s (.ofClose o (s.close o).1) (s.close o).2 ∧
      InUse kind t (s.close o).2 found := by
  obtain ⟨l, hl⟩ := h.behind
  rw [Scanner.close, h.ofKind]
  cases hfind : s.rest.find? fun q => q.closes kind with
  | none =>
    have hnone : ∀ q ∈ s.rest, q.closes kind = false := by
      simpa using List.find?_eq_none.1 hfind
    rw [closingIn_of_none hnone]
    exact ⟨hl.moves_end hnone (fun k hk => closes_of_token hk) rfl ⟨(h.found o ho).1, rfl⟩,
      h.skip (List.append_nil _).symm⟩
  | some p =>
    obtain ⟨hp, m, r, hrest, hm⟩ := List.find?_eq_some_iff_append.1 hfind
    have hnone : ∀ q ∈ m, q.closes kind = false := by simpa using hm
    obtain ⟨body, rfl⟩ := Block.exists_comment_of_closes hp
    obtain ⟨-, ⟨x, hx⟩, -⟩ := ((h.skip hrest).found o ho).2.closed
    rw [hrest, closingIn_append hnone hp]
    refine ⟨hl.moves_first hrest hnone (fun k hk => closes_of_token hk) rfl ?_,
      h.skip (by rw [hrest]; simp)⟩
    exact ⟨rfl, rfl, rfl, hl.mem_tokens hrest (Piece.closes_iff.1 hp),
      ⟨hx.start, hx.stop, hx.ordered, rfl⟩⟩

end

/-! ## Runs of any length -/

/-- A run of a scanner from `s` on that returns the answers `as`, call by call. -/
inductive Trace (kind : BlockKind) (t : Text) : Scanner → List Answer → Prop where
  | nil (s : Scanner) : Trace kind t s []
  | cons {s s' : Scanner} {a : Answer} {as : List Answer} (move : Moves kind t s a s')
      (run : Trace kind t s' as) : Trace kind t s (a :: as)

/-- A scanner in use stays in use, whatever it is asked for. Each call is one step of the
`Trace`. -/
theorem trace_answers {kind : BlockKind} {t : Text} {s : Scanner} {found : List Opening}
    (h : InUse kind t s found) (calls : List Call) : Trace kind t s (answers s found calls) := by
  induction calls generalizing s found with
  | nil => exact .nil s
  | cons call calls ih =>
    cases call with
    | next => exact .cons h.nextOpening.1 (ih h.nextOpening.2)
    | close n =>
      rw [answers]
      cases ho : found[n]? with
      | none => exact ih h
      | some o =>
        have hclose := h.close (List.mem_of_getElem? ho)
        exact .cons hclose.1 (ih hclose.2)

/-- A new scanner has returned nothing. -/
theorem inUse_ofText (kind : BlockKind) (t : Text) : InUse kind t (ofText kind t) [] :=
  ⟨rfl, ⟨[], rfl, rfl⟩, fun _ ho => nomatch ho⟩

namespace Trace

variable {kind : BlockKind} {t : Text} {s : Scanner} {as : List Answer}

/-- Every answer of a trace is `Sound`: what it says is there in the document. -/
theorem sound (h : Trace kind t s as) : ∀ a ∈ as, a.Sound kind t := by
  induction h with
  | nil s => exact fun _ ha => nomatch ha
  | cons move run ih =>
    intro a ha
    rcases List.mem_cons.1 ha with rfl | ha
    · exact move.sound
    · exact ih a ha

/-- At the end of its document a scanner finds nothing, whatever it is asked for. -/
theorem marker?_of_end (h : Trace kind t s as) (hs : s.rest = []) :
    ∀ a ∈ as, a.marker? = none := by
  induction h with
  | nil s => exact fun _ ha => nomatch ha
  | cons move run ih =>
    intro a ha
    rcases List.mem_cons.1 ha with rfl | ha
    · exact move.stays hs
    · exact ih (move.ended (move.stays hs)) a ha

theorem ended (h : Trace kind t s as) :
    as.Pairwise fun a b => a.marker? = none → b.marker? = none := by
  induction h with
  | nil s => exact .nil
  | cons move run ih =>
    exact .cons (fun b hb hnone => run.marker?_of_end (move.ended hnone) b hb) ih

theorem markers_of_end (h : Trace kind t s as) (hs : s.rest = []) : markers as = [] := by
  rw [markers, List.filterMap_eq_nil_iff]
  exact h.marker?_of_end hs

/-- No marker is found before the place where the scanner stands. -/
theorem le_start (h : Trace kind t s as) : ∀ m ∈ markers as, s.here.offset ≤ m.start := by
  induction h with
  | nil s => exact fun _ hm => nomatch hm
  | @cons s s' a as move run ih =>
    intro m hm
    cases ha : a.marker? with
    | none =>
      rw [markers, List.filterMap_cons_none ha] at hm
      have hnil := run.markers_of_end (move.ended ha)
      rw [markers] at hnil
      rw [hnil] at hm
      cases hm
    | some first =>
      obtain ⟨hle, hlt, hbehind⟩ := move.marker first ha
      rw [markers, List.filterMap_cons_some ha] at hm
      rcases List.mem_cons.1 hm with rfl | hm
      · exact hle
      · have hnext := ih m hm
        omega

theorem pairwise_markers (h : Trace kind t s as) :
    (markers as).Pairwise fun a b => a.start < b.start ∧ a.stop ≤ b.start := by
  induction h with
  | nil s => exact .nil
  | @cons s s' a as move run ih =>
    cases ha : a.marker? with
    | none =>
      rw [markers, List.filterMap_cons_none ha]
      exact ih
    | some first =>
      obtain ⟨-, hlt, hbehind⟩ := move.marker first ha
      rw [markers, List.filterMap_cons_some ha]
      refine .cons (fun m hm => ?_) ih
      have hnext := run.le_start m hm
      omega

/-- The scanner stands behind the last marker that it has found, and finds the first one from there
on: no token `k` that the answer seeks comes before. -/
theorem nearest (h : Trace kind t s as) {before after : List Answer} {a : Answer}
    (has : as = before ++ a :: after) (hbefore : ∀ b ∈ before, b.marker? ≠ none) {k : Token}
    (hk : k ∈ Token.ofText t) (hseeks : a.Seeks kind k)
    (hle : reached s.here.offset before ≤ k.start) : ∃ m ∈ a.marker?, m.start ≤ k.start := by
  induction h generalizing before with
  | nil s => simp at has
  | @cons s s' b as move run ih =>
    cases before with
    | nil =>
      obtain ⟨rfl, rfl⟩ := List.cons.inj has
      exact move.nearest k hk hseeks hle
    | cons b' before =>
      obtain ⟨rfl, rfl⟩ := List.cons.inj has
      obtain ⟨m, hm⟩ := Option.ne_none_iff_exists'.1 (hbefore b List.mem_cons_self)
      refine ih rfl (fun c hc => hbefore c (List.mem_cons_of_mem _ hc)) ?_
      rw [reached, markers, List.filterMap_cons_some hm] at hle
      rw [(move.marker m hm).2.2]
      exact hle

end Trace

/-- **The calls of a scanner go forward** (`InOrder`). Whatever a scanner of a document is asked
for, also for the end of an old block, and of one block twice: the markers that it finds lie one
behind the other, each is a token of its kind, and each block reaches from the opening marker that
was given to a closing marker behind it. Once nothing was found, nothing is found any more. -/
theorem answers_inOrder (kind : BlockKind) (t : Text) (calls : List Call) :
    InOrder kind t (answers (ofText kind t) [] calls) :=
  have h := trace_answers (inUse_ofText kind t) calls
  { markers := h.pairwise_markers
    sound := h.sound
    ended := h.ended
    nearest := fun _ _ _ has hbefore _ hk hseeks hle => h.nearest has hbefore hk hseeks hle }

end Scanner

end Transclude
