import Transclude.Proofs.FillTwice

/-!
# What a document adds to a scan

A scan goes from document to document and adds the references of each to those that it has. What a
document adds does not depend on what is there: `References.held` lists its references with their
bodies, and collecting adds this list (`References.toOption_collect`). It fails if one of the names
is there already, whatever its text.

So two scans that agree on the names, and on the texts of some of them, go on to agree
(`References.collect_agree`).
-/

namespace Transclude

namespace Bindings

/-- The same names are bound, those in `names` to the same texts. -/
def Agree (names : List Text) (b b' : Bindings) : Prop :=
  ∀ n, b'.contains n = b.contains n ∧ (n ∈ names → b'.get? n = b.get? n)

theorem agree_refl (names : List Text) (b : Bindings) : Agree names b b :=
  fun _ => ⟨rfl, fun _ => rfl⟩

/-- Setting a name in both keeps bindings in agreement, if the two texts are equal where the name is
one of `names`. -/
theorem Agree.set {names : List Text} {b b' : Bindings} (h : Agree names b b') {n v v' : Text}
    (hv : n ∈ names → v' = v) : Agree names (b.set n v) (b'.set n v') := by
  intro x
  rw [contains, contains, get?_set, get?_set]
  by_cases hx : x = n
  · rw [if_pos hx, if_pos hx]
    exact ⟨rfl, fun hmem => congrArg some (hv (hx ▸ hmem))⟩
  · rw [if_neg hx, if_neg hx]
    exact h x

end Bindings

/-- The entries, with the texts of the names in `names` only. -/
def Variables.shown (names : List Text) (l : List (Text × Text)) : List (Text × Option Text) :=
  l.map fun e => (e.1, if names.contains e.1 then some e.2 else none)

/-- Adding entries to bindings that agree leads to bindings that agree, if the entries are the same
as far as `shown` shows them. -/
theorem Variables.addAll_agree {names : List Text} {l l' : List (Text × Text)}
    (hl : shown names l' = shown names l) {b b' out : Bindings} (hb : Bindings.Agree names b b')
    (h : addAll b l = .ok out) :
    ∃ out', addAll b' l' = .ok out' ∧ Bindings.Agree names out out' := by
  induction l generalizing l' b b' with
  | nil =>
    obtain rfl : l' = [] := List.map_eq_nil_iff.1 hl
    cases h
    exact ⟨b', rfl, hb⟩
  | cons e l ih =>
    obtain ⟨n, v⟩ := e
    cases l' with
    | nil => cases hl
    | cons e' l' =>
      obtain ⟨n', v'⟩ := e'
      obtain ⟨he, hrest⟩ := List.cons.inj hl
      obtain ⟨rfl, hv⟩ := Prod.mk.inj he
      rw [addAll] at h ⊢
      rw [(hb n').1]
      split at h
      · cases h
      · next hbound =>
        rw [if_neg hbound]
        refine ih hrest (hb.set fun hmem => ?_) h
        rw [if_pos (List.contains_iff_mem.2 hmem), if_pos (List.contains_iff_mem.2 hmem)] at hv
        exact Option.some.inj hv

/-- The pieces that a scan reads. -/
def Piece.scanned (t : Text) : List Piece := ofText (Text.unifyLineEnds t)

/-- A document `t` without declarations adds no variables to `vars`, and collecting from it does not
fail. -/
theorem Variables.collect_of_nil {t : Text} (h : declared (Piece.scanned t) = [])
    (vars : Bindings) : collect (Text.unifyLineEnds t) vars = .ok vars := by
  rw [collect, ← Piece.scanned, h, addAll]

namespace References

/-- The references of a row of pieces, in their order. `inside` is the name of the reference that is
open, with the text of its body so far. -/
def held : (inside : Option (Text × Text)) → List Piece → Option (List (Text × Text))
  | none, [] => some []
  | some _, [] => none
  | none, p :: ps =>
    match p.opening? .ref with
    | none => held none ps
    | some name => held (some (name, [])) ps
  | some (name, body), p :: ps =>
    if p.closes .ref then (held none ps).map ((name, Piece.strip body) :: ·)
    else held (some (name, body ++ p.text)) ps

/-- The reference that is open comes first in what `held` gives. -/
theorem held_inside {name body : Text} {ps : List Piece} {l : List (Text × Text)}
    (h : held (some (name, body)) ps = some l) : ∃ v l', l = (name, v) :: l' := by
  induction ps generalizing body with
  | nil => cases h
  | cons p ps ih =>
    rw [held] at h
    split at h
    · obtain ⟨l', -, rfl⟩ := Option.map_eq_some_iff.1 h
      exact ⟨_, l', rfl⟩
    · exact ih h

/-- What collecting comes to, but for its errors, told by `held` and the entries that are added. The
name of an open reference must not be there yet, since the reader looks for it where the reference
is opened. -/
theorem toOption_collectFrom (here : Place) (inside : Option (Opening × Text)) (ps : List Piece)
    (refs : Bindings) (hnew : ∀ o ∈ inside, refs.contains o.1.name = false) :
    (collectFrom here inside ps refs).toOption =
      (held (inside.map fun o => (o.1.name, o.2)) ps).bind fun l =>
        (Variables.addAll refs l).toOption := by
  fun_induction collectFrom here inside ps refs with
  | case1 => rfl
  | case2 => rfl
  | case3 here p ps refs ho ih =>
    rw [ih (by simp), Option.map_none, held, Fill.ofPiece?_eq_none_iff.1 ho]
  | case4 here p ps refs o ho hbound =>
    obtain ⟨name, hopen, rfl⟩ := Option.map_eq_some_iff.1 ho
    rw [Option.map_none, held, hopen]
    dsimp only
    cases hheld : held (some (name, [])) ps with
    | none => rfl
    | some l =>
      obtain ⟨v, l', rfl⟩ := held_inside hheld
      have hfail : Variables.addAll refs ((name, v) :: l') = .error (.duplicateKey .var name) := by
        rw [Variables.addAll, if_pos hbound]
      rw [Option.bind_some, hfail]
      rfl
  | case5 here p ps refs o ho hbound ih =>
    obtain ⟨name, hopen, rfl⟩ := Option.map_eq_some_iff.1 ho
    rw [ih (by rintro _ ⟨⟩; simpa using hbound), Option.map_none, held, hopen]
    rfl
  | case6 here o body p ps refs hc ih =>
    have hbound : refs.contains o.name = false := hnew (o, body) rfl
    rw [ih (by simp), Option.map_none, Option.map_some, held, if_pos hc, Option.bind_map]
    refine Option.bind_congr fun l _ => ?_
    rw [Function.comp_apply, Variables.addAll, hbound]
    rfl
  | case7 here o body p ps refs hc ih =>
    have hbound : refs.contains o.name = false := hnew (o, body) rfl
    rw [ih (by rintro _ ⟨⟩; exact hbound), Option.map_some, Option.map_some, held, if_neg hc]

/-- **Collecting adds what a document holds**, and fails where the document holds nothing that could
be added. -/
theorem toOption_collect (t : Text) (refs : Bindings) :
    (collect t refs).toOption =
      (held none (Piece.ofText t)).bind fun l => (Variables.addAll refs l).toOption :=
  toOption_collectFrom .first none (Piece.ofText t) refs (by simp)

/-- A document `t` in which nothing is `held` adds no references, and collecting from it does not
fail. -/
theorem collect_of_nil {t : Text} (h : held none (Piece.scanned t) = some []) (refs : Bindings) :
    collect (Text.unifyLineEnds t) refs = .ok refs := by
  refine Fill.eq_ok_of_toOption ?_
  rw [toOption_collect, ← Piece.scanned, h]
  rfl

/-- **Scans that agree go on to agree** (`Bindings.Agree`), with documents `t` and `t'` that hold
the same references as far as they are `shown` for `names`. -/
theorem collect_agree {names : List Text} {t t' : Text}
    (h : ∀ l ∈ held none (Piece.ofText t),
      (held none (Piece.ofText t')).map (Variables.shown names) = some (Variables.shown names l))
    {refs refs' out : Bindings} (hrefs : Bindings.Agree names refs refs')
    (hcollect : collect t refs = .ok out) :
    ∃ out', collect t' refs' = .ok out' ∧ Bindings.Agree names out out' := by
  have hout := toOption_collect t refs
  rw [hcollect] at hout
  obtain ⟨l, hl, hadd⟩ := Option.bind_eq_some_iff.1 hout.symm
  obtain ⟨l', hl', hsame⟩ := Option.map_eq_some_iff.1 (h l hl)
  obtain ⟨out', hadd', hagree⟩ :=
    Variables.addAll_agree hsame hrefs (Fill.eq_ok_of_toOption hadd)
  refine ⟨out', Fill.eq_ok_of_toOption ?_, hagree⟩
  rw [toOption_collect, hl', Option.bind_some, hadd']
  rfl

end References

end Transclude
