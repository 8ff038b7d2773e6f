import Transclude.Command.Run
import Transclude.Proofs.Fills
import Transclude.Proofs.Unions

/-!
# Collecting, told without going through the document

References are collected from marker to marker. At an opening marker a name that is bound is
refused, then the end of the block is looked for, then the name is bound. This file says what comes
out without going through the document: take the blocks (`Block.paired`), and the names of them and
of the one that is never closed. The first of these names that is bound before, or that another
block has before it, is refused (`References.firstTaken?`). Otherwise the block that is never closed
is an error. Otherwise each block adds its body without the comments. A name is refused before the
end of its block is missed, so the name of the block that is never closed counts among the names.

Variables are collected from their declarations. Two readers go through these. One lists all
variables, on top of what is bound before, and refuses a name that is there already. The other looks
for one variable and stops at its first declaration. They agree: what the listing binds is what the
other finds, and a name that the listing does not bind is not found. It cannot be said the other way
round. A document in which a name is declared twice has a value for it, that of the first
declaration, and no listing. So the agreement rests on when a listing fails: exactly when a name is
bound before or declared before, and then with the first such name (`Variables.addAll_eq`). Where it
does not fail, every name is declared once, and its first declaration is the only one.

Main statements:
- `References.collectFrom_eq`: collecting goes on with the outcome that the blocks determine.
- `References.collect_blocks`: the whole outcome, with what the bindings hold in the end.
- `Variables.collect_agrees`: listing variables and looking one up, in documents, and in the
  commands that list the variables of a file and get one.
-/

namespace Transclude

/-! ## Where an opening marker stands -/

/-- An opening marker stands at its place in the document, and has the number of its line. -/
def Opening.Located (t : Text) (o : Opening) : Prop :=
  ∃ before after, t = before ++ after ∧ o.span.start = Text.width before ∧
    o.line = 1 + Text.newlines before

/-- A place moved over `s` and then over `t` is moved over both. -/
theorem Place.after_append (p : Place) (s t : Text) : p.after (s ++ t) = (p.after s).after t := by
  simp [Place.after, Text.width_append, Text.newlines, List.count_append, Nat.add_assoc]

namespace Block

/-- An opening marker that is read at its place in `t` is where it says. -/
theorem located_ofPiece? {kind : BlockKind} {t a b : Text} {p : Piece} {o : Opening}
    (ht : t = a ++ b) (ho : Opening.ofPiece? kind (Place.first.after a) p = some o) :
    o.Located t := by
  obtain ⟨name, -, rfl⟩ := Option.map_eq_some_iff.1 ho
  exact ⟨a, b, ht, Nat.zero_add _, rfl⟩

/-- A block that is never closed is opened where its opening marker says, in a row that is read from
the place behind `a`. -/
theorem located_pairedFrom {kind : BlockKind} {t a : Text} {inside : Option Opening}
    {ps : List Piece} (ht : t = a ++ Piece.textOf ps) (hinside : ∀ o ∈ inside, o.Located t) :
    ∀ o ∈ (pairedFrom kind (Place.first.after a) inside ps).2, o.Located t := by
  induction ps generalizing a inside with
  | nil =>
    cases inside <;> exact hinside
  | cons p ps ih =>
    have hnext : t = a ++ p.text ++ Piece.textOf ps := by rw [ht, Piece.textOf_cons]; simp
    cases inside with
    | none =>
      rw [pairedFrom, ← Place.after_append]
      exact ih hnext fun o ho => located_ofPiece? ht ho
    | some o =>
      rw [pairedFrom, ← Place.after_append]
      split
      · exact ih hnext (by simp)
      · exact ih hnext hinside

theorem located_paired (kind : BlockKind) (t : Text) : ∀ o ∈ (paired kind t).2, o.Located t :=
  located_pairedFrom (a := []) (Piece.textOf_ofText t).symm fun _ ho => nomatch ho

/-- One more piece `p` of the body: the slice from the opening marker grows by its text. -/
theorem Stands.slice_after {t : Text} {cursor : Nat} {here : Place} {o : Opening} {p : Piece}
    {ps : List Piece} (h : Stands t cursor here (p :: ps) (some o)) :
    t.slice o.span.stop (here.after p.text).offset =
      t.slice o.span.stop here.offset ++ p.text := by
  obtain ⟨a, y, rfl, hstop, hoffset, -⟩ := h
  have hnext := Place.offset_after hoffset p.text
  rw [List.append_assoc] at hnext
  rw [hnext, hoffset, hstop, Text.width_append, Text.width_append a, Text.slice_append,
    Piece.textOf_cons, ← List.append_assoc y, Text.slice_append]

theorem slice_self (t : Text) (n : Nat) : t.slice n n = [] := by
  rw [Text.slice, Nat.sub_self, Text.takeBytes_zero]

end Block

namespace Bindings

section

variable {b : Bindings} {l : List (Text × Text)}

/-- Entries `l` with new names are joined to what `b` binds: a name has its text from before or from
the entries. -/
theorem get?_extend_eq_some_iff (hl : (l.map Prod.fst).Nodup)
    (hnew : ∀ n ∈ l.map Prod.fst, b.get? n = none) {name text : Text} :
    (b.extend l).get? name = some text ↔ b.get? name = some text ∨ (name, text) ∈ l := by
  rw [get?_extend hl, ← lookup_eq_some_iff_mem hl]
  cases hlook : l.lookup name with
  | none => simp
  | some v => simp [hnew name (mem_map_fst_iff.2 (by rw [hlook]; rfl))]

/-- The names that `b.extend l` binds are those of `b` and those of the entries `l`. -/
theorem perm_names_extend (hl : (l.map Prod.fst).Nodup)
    (hnew : ∀ n ∈ l.map Prod.fst, b.get? n = none) :
    (b.extend l).names.Perm (b.names ++ l.map Prod.fst) := by
  have hapart : (b.names ++ l.map Prod.fst).Nodup :=
    nodup_append_iff.2 (References.fresh_contains_iff.2 ⟨hl, hnew⟩)
  refine (List.perm_ext_iff_of_nodup (nodup_names _) hapart).2 fun n => ?_
  rw [mem_names_iff, get?_extend hl, List.mem_append, mem_names_iff, mem_map_fst_iff]
  cases l.lookup n <;> simp

end

end Bindings

namespace References

/-! ## The outcome -/

/-- What the blocks of a document add: the body of each, without its comments. -/
def entries (t : Text) (blocks : List Block) : List (Text × Text) :=
  blocks.map fun b => (b.name, Piece.strip (b.body t))

/-- What collecting comes to with blocks that come next, and the one that is never closed. -/
def outcome (t : Text) (refs : Bindings) (blocks : List Block × Option Opening) :
    Except Error Bindings :=
  match firstTaken? refs.contains (Block.names blocks) with
  | some name => .error (.duplicateKey .ref name)
  | none =>
    match blocks.2 with
    | some o => .error (o.unclosed .ref)
    | none => .ok (refs.extend (entries t blocks.1))

section

variable {t : Text} {refs : Bindings} {blocks : List Block × Option Opening}

/-- A name that `refs` binds is refused at once, before any block behind it is looked at. -/
theorem outcome_taken {name : Text} {ns : List Text} (hnames : Block.names blocks = name :: ns)
    (h : refs.contains name = true) :
    outcome t refs blocks = .error (.duplicateKey .ref name) := by
  rw [outcome, hnames, firstTaken?, if_pos h]

/-- A block `b` with a new name adds its stripped body, and the others are collected on top of
it. -/
theorem outcome_cons {b : Block} (h : refs.contains b.name = false) :
    outcome t refs (b :: blocks.1, blocks.2) =
      outcome t (refs.set b.name (Piece.strip (b.body t))) blocks := by
  have hnames : Block.names (b :: blocks.1, blocks.2) = b.name :: Block.names blocks := rfl
  rw [outcome, outcome, hnames, firstTaken?, if_neg (by simp [h]),
    Bindings.contains_set]
  rfl

/-- **Collecting goes on like this** whatever pieces are left: the outcome is that of the blocks
that pairing makes of them. The invariant is that the reader `Stands` behind the pieces before, and
that the body read so far is the slice from the opening marker on. -/
theorem collectFrom_eq {cursor : Nat} {here : Place} {inside : Option (Opening × Text)}
    {ps : List Piece} (h : Block.Stands t cursor here ps (inside.map Prod.fst))
    (hbody : ∀ o ∈ inside, o.2 = t.slice o.1.span.stop here.offset)
    (hnew : ∀ o ∈ inside, refs.contains o.1.name = false) :
    collectFrom here inside ps refs =
      outcome t refs (Block.pairedFrom .ref here (inside.map Prod.fst) ps) := by
  fun_induction collectFrom here inside ps refs generalizing cursor with
  | case1 here refs => rfl
  | case2 here o body refs =>
    -- the name is not refused, so the end is missed
    have ho : refs.contains o.name = false := hnew (o, body) rfl
    have hnames : Block.names ([], some o) = [o.name] := rfl
    show _ = outcome t refs ([], some o)
    rw [outcome, hnames, firstTaken?, if_neg (by simp [ho]), firstTaken?]
  | case3 here p ps refs ho ih =>
    have hnext := Block.Stands.outside h .ref
    rw [ho] at hnext
    rw [Option.map_none, Block.pairedFrom, ho]
    exact ih hnext (by simp) (by simp)
  | case4 here p ps refs o ho hbound =>
    obtain ⟨ns, hns⟩ := Block.exists_names_cons .ref (here.after p.text) o ps
    rw [Option.map_none, Block.pairedFrom, ho, outcome_taken hns hbound]
  | case5 here p ps refs o ho hbound ih =>
    have hnext := Block.Stands.outside h .ref
    rw [ho] at hnext
    rw [Option.map_none, Block.pairedFrom, ho]
    refine ih hnext ?_ ?_
    · rintro _ ⟨⟩
      obtain ⟨name, -, rfl⟩ := Option.map_eq_some_iff.1 ho
      exact (Block.slice_self t _).symm
    · rintro _ ⟨⟩
      simpa using hbound
  | case6 here o body p ps refs hc ih =>
    have ho : refs.contains o.name = false := hnew (o, body) rfl
    obtain rfl : body = t.slice o.span.stop here.offset := hbody (o, body) rfl
    obtain ⟨-, -, hnext⟩ := Block.Stands.closed h
    rw [Option.map_some, Block.pairedFrom, if_pos hc, outcome_cons ho]
    exact ih hnext (by simp) (by simp)
  | case7 here o body p ps refs hc ih =>
    rw [Option.map_some, Block.pairedFrom, if_neg hc]
    have hinner : body = t.slice o.span.stop here.offset := hbody (o, body) rfl
    refine ih (Block.Stands.inside h) ?_ ?_
    · rintro _ ⟨⟩
      rw [Block.Stands.slice_after h, ← hinner]
    · rintro _ ⟨⟩
      exact hnew (o, body) rfl

/-- From the beginning of a document, what is collected is the `outcome` of all its blocks. -/
theorem collect_eq_outcome (t : Text) (previous : Bindings) :
    collect t previous = outcome t previous (Block.paired .ref t) :=
  collectFrom_eq ⟨[], (Piece.textOf_ofText t).symm, rfl, Nat.zero_le _⟩ (fun _ h => nomatch h)
    fun _ h => nomatch h

end

/-- Whether all blocks are closed, pairing them decides: a closed document has the blocks that
`Block.pair` finds, and otherwise pairing fails with the error that collecting ends with. -/
theorem outcome_eq_pair (t : Text) (refs : Bindings) :
    outcome t refs (Block.paired .ref t) =
      match firstTaken? refs.contains (Block.names (Block.paired .ref t)), Block.pair .ref t with
      | some name, _ => .error (.duplicateKey .ref name)
      | none, .error e => .error e
      | none, .ok blocks => .ok (refs.extend (entries t blocks)) := by
  rw [outcome, Block.pair_eq]
  cases firstTaken? refs.contains (Block.names (Block.paired .ref t)) with
  | some name => rfl
  | none => cases (Block.paired .ref t).2 <;> rfl

theorem map_fst_entries (t : Text) (blocks : List Block) :
    (entries t blocks).map Prod.fst = blocks.map (·.name) := by
  rw [entries, List.map_map]
  rfl

/-- Collecting succeeds only with names that are `Fresh` and blocks that are closed, and then it
adds the entries of the blocks. -/
theorem exists_of_outcome_eq_ok {t : Text} {refs out : Bindings}
    {blocks : List Block × Option Opening} (h : outcome t refs blocks = .ok out) :
    Fresh refs.contains (blocks.1.map (·.name)) ∧ out = refs.extend (entries t blocks.1) := by
  obtain ⟨closed, last⟩ := blocks
  rw [outcome] at h
  cases htaken : firstTaken? refs.contains (Block.names (closed, last)) with
  | some name =>
    rw [htaken] at h
    cases h
  | none =>
    rw [htaken] at h
    cases last with
    | some o => cases h
    | none =>
      have hnames : Block.names (closed, none) = closed.map (·.name) := List.append_nil _
      rw [firstTaken?_eq_none_iff, hnames] at htaken
      exact ⟨htaken, (Except.ok.inj h).symm⟩

/-- What collecting the references of a document on top of `previous` comes to. -/
structure Collects (t : Text) (previous : Bindings) : Prop where
  /-- A name is refused, or else pairing the blocks fails, or else the blocks add their bodies. -/
  result : collect t previous =
    match firstTaken? previous.contains (Block.names (Block.paired .ref t)),
      Block.pair .ref t with
    | some name, _ => .error (.duplicateKey .ref name)
    | none, .error e => .error e
    | none, .ok blocks => .ok (previous.extend (entries t blocks))
  /-- The refused name is the first, among the names of the blocks and of the one that is never
  closed, that is bound before or that another block has before it. -/
  refused : ∀ name,
    firstTaken? previous.contains (Block.names (Block.paired .ref t)) = some name ↔
      ∃ before after, Block.names (Block.paired .ref t) = before ++ name :: after ∧
        Fresh previous.contains before ∧ (previous.contains name = true ∨ name ∈ before)
  /-- Pairing fails with the opening marker that is never closed. -/
  pair : Block.pair .ref t =
    match (Block.paired .ref t).2 with
    | some o => .error (.missingEnd .ref o.name o.line)
    | none => .ok (Block.paired .ref t).1
  /-- The line of that marker is counted from the beginning of the document. -/
  located : ∀ o ∈ (Block.paired .ref t).2, o.Located t
  /-- What was bound stays bound to its text, and every block adds one entry. -/
  added : ∀ out, collect t previous = .ok out →
    (∀ name text, out.get? name = some text ↔
      previous.get? name = some text ∨ (name, text) ∈ entries t (Block.paired .ref t).1) ∧
    out.names.Perm (previous.names ++ (Block.paired .ref t).1.map (·.name))

/-- **References are collected block by block**, from every document `t` and on top of all bindings
`previous`. -/
theorem collect_blocks (t : Text) (previous : Bindings) : Collects t previous where
  result := by rw [collect_eq_outcome, outcome_eq_pair]
  refused _ := firstTaken?_eq_some_iff
  pair := Block.pair_eq .ref t
  located := Block.located_paired .ref t
  added out hout := by
    rw [collect_eq_outcome] at hout
    obtain ⟨⟨hnodup, hnew⟩, rfl⟩ := exists_of_outcome_eq_ok hout
    rw [← map_fst_entries t] at hnodup hnew ⊢
    have hunbound : ∀ n ∈ (entries t (Block.paired .ref t).1).map Prod.fst,
        previous.get? n = none := fun n hn =>
      Option.not_isSome_iff_eq_none.1 (by simpa [Bindings.contains] using hnew n hn)
    exact ⟨fun name text => Bindings.get?_extend_eq_some_iff hnodup hunbound,
      Bindings.perm_names_extend hnodup hunbound⟩

/-- A closing marker that closes nothing comes first, the body of `a` holds an opening marker and a
comment, and the block of `b` is never closed. -/
def openText : Text :=
  "<!--end-ref--><!--begin-ref(a)-->x<!--begin-ref(b)--><!--n-->y<!--end-ref-->".toList ++
    "\n\n<!--begin-ref(b)-->".toList

/-- The missing end is found in line 3. With `b` bound before, the name is refused instead. With a
closing marker behind, both blocks add their bodies. -/
theorem collect_blocks_openText :
    collect openText .empty = .error (.missingEnd .ref ['b'] 3) ∧
      collect openText (Bindings.empty.set ['b'] []) = .error (.duplicateKey .ref ['b']) ∧
      ∃ out, collect (openText ++ "<!--end-ref-->".toList) .empty = .ok out ∧
        out.get? ['a'] = some ['x', 'y'] ∧ out.get? ['b'] = some [] := by
  have hlast : (Block.paired .ref openText).2 = some ⟨['b'], ⟨78, 97⟩, 3⟩ := by decide +kernel
  have hnames : Block.names (Block.paired .ref openText) = [['a'], ['b']] := by decide +kernel
  have hclosed : collect (openText ++ "<!--end-ref-->".toList) .empty =
      .ok ((Bindings.empty.set ['a'] ['x', 'y']).set ['b'] []) :=
    Fill.eq_ok_of_toOption (by decide +kernel)
  have hadded := ((collect_blocks _ _).added _ hclosed).1
  refine ⟨?_, ?_, _, hclosed, (hadded _ _).2 (.inr ?_), (hadded _ _).2 (.inr ?_)⟩
  · rw [(collect_blocks openText .empty).result, hnames, (collect_blocks openText .empty).pair,
      hlast]
    rfl
  · rw [(collect_blocks openText _).result, hnames]
    rfl
  · decide +kernel
  · decide +kernel

end References

/-! ## Listing variables and looking one up -/

namespace Variables

open References (Fresh firstTaken? firstTaken?_eq_some_iff fresh_contains_iff)

/-- The names of the declarations of a document, in their order. -/
def declaredNames (t : Text) : List Text := (declared (Piece.ofText t)).map Prod.fst

/-- A listing of variables adds what is `declared`, or refuses the first name that is not fresh. -/
theorem collect_eq (t : Text) (previous : Bindings) :
    collect t previous =
      match firstTaken? previous.contains (declaredNames t) with
      | some name => .error (.duplicateKey .var name)
      | none => .ok (previous.extend (declared (Piece.ofText t))) :=
  addAll_eq previous (declared (Piece.ofText t))

/-- A listing succeeds exactly with names that are `Fresh`, and adds what is `declared`. -/
theorem collect_eq_ok_iff {t : Text} {previous vars : Bindings} :
    collect t previous = .ok vars ↔
      Fresh previous.contains (declaredNames t) ∧
        vars = previous.extend (declared (Piece.ofText t)) :=
  addAll_eq_ok_iff_fresh

/-- **What a listing binds**: what was bound in `previous`, and else what `get?` finds for the name
in the document. -/
theorem get?_collect {t : Text} {previous vars : Bindings} (h : collect t previous = .ok vars)
    (name : Text) : vars.get? name = (previous.get? name).or (get? t name) := by
  obtain ⟨hfresh, rfl⟩ := collect_eq_ok_iff.1 h
  obtain ⟨hnodup, hnew⟩ := fresh_contains_iff.1 hfresh
  rw [Bindings.get?_extend hnodup]
  show ((get? t name).or (previous.get? name)) = _
  cases hfound : get? t name with
  | none => rw [Option.none_or, Option.or_none]
  | some value =>
    -- a declared name was not bound before
    have hmem : name ∈ declaredNames t := Bindings.mem_map_fst_iff.2 (by
      show (get? t name).isSome = true
      rw [hfound]
      rfl)
    rw [hnew name hmem, Option.some_or, Option.none_or]

/-- Listing the variables of a document, on top of what is bound before, and looking one up. -/
structure Agrees (t : Text) (previous : Bindings) : Prop where
  /-- The listing succeeds exactly when each name is declared once and none was bound before. -/
  succeeds : (∃ vars, collect t previous = .ok vars) ↔
    (declaredNames t).Nodup ∧ ∀ name ∈ declaredNames t, previous.get? name = none
  /-- Otherwise it refuses the first name, in the order of the document, that was bound before or
  that is declared before. -/
  refuses : ∀ e, collect t previous = .error e ↔
    ∃ name before after, e = .duplicateKey .var name ∧
      declaredNames t = before ++ name :: after ∧
      before.Nodup ∧ (∀ n ∈ before, previous.get? n = none) ∧
      ((previous.get? name).isSome = true ∨ name ∈ before)
  /-- A listing has what was bound before, and else what looking the name up finds. -/
  result : ∀ vars, collect t previous = .ok vars →
    ∀ name, vars.get? name = (previous.get? name).or (get? t name)

/-- In every document, and on top of all bindings, listing variables and looking one up agree as
`Agrees` says: about which names are listed, with which values, and which name is refused. -/
theorem agrees (t : Text) (previous : Bindings) : Agrees t previous where
  succeeds := by
    simp only [collect_eq_ok_iff, exists_and_left, exists_eq, and_true, fresh_contains_iff]
  refuses e := by
    have herror : collect t previous = .error e ↔ ∃ name, e = .duplicateKey .var name ∧
        firstTaken? previous.contains (declaredNames t) = some name := by
      rw [collect_eq]
      cases firstTaken? previous.contains (declaredNames t) with
      | none => simp
      | some name => simp [eq_comm]
    simp only [herror, firstTaken?_eq_some_iff, fresh_contains_iff, Bindings.contains, and_assoc,
      exists_and_left]
  result _ := get?_collect

end Variables

/-- Whether the commands for a file agree: what a listing of its variables shows is what getting a
variable gives, and what it does not show cannot be got. -/
def Command.ListsAlike (w : Workspace) (file : Path) : Prop :=
  ∀ format told, (useVariables w file (.list format)).1 = .ok told →
    ∃ vars : Bindings,
      (told = match format with
        | .text => .vars vars
        | .json => .json vars) ∧
      ∀ name, (useVariables w file (.get name)).1 =
        match vars.get? name with
        | some value => .ok (.value value)
        | none => .error (.unresolvedKey .var name)

/-- The two commands agree (`ListsAlike`) for every `file`: what the one shows is what the other
gives, name by name. -/
theorem Command.listsAlike (w : Workspace) (file : Path) : ListsAlike w file := by
  intro format told h
  unfold useVariables at h ⊢
  cases hread : w.read file with
  | error e =>
    rw [hread] at h
    cases h
  | ok d =>
    rw [hread] at h
    dsimp only at h ⊢
    cases hvars : Variables.collect d.text .empty with
    | error e =>
      rw [hvars] at h
      cases h
    | ok vars =>
      rw [hvars] at h
      refine ⟨vars, (Except.ok.inj h).symm, fun name => ?_⟩
      rw [Variables.get?_collect hvars, Bindings.get?_empty, Option.none_or]
      cases Variables.get? d.text name <;> rfl

/-- **Listing variables and looking one up agree** (`Agrees`), in every document and on top of all
bindings, and so do the commands that do it (`Command.ListsAlike`), for every file that can be
listed. -/
theorem Variables.collect_agrees :
    (∀ t previous, Agrees t previous) ∧ ∀ w file, Command.ListsAlike w file :=
  ⟨agrees, Command.listsAlike⟩

end Transclude
