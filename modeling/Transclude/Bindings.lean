import Transclude.Text.Basic

/-!
# Bindings

Names bound to texts, at most one text to a name, kept in the order of the names: what the program
collects references and variables in (`ReferenceMap`, `VariableMap`). It keeps them in a balanced
tree. Here they are a list of entries, with the proof that the list is in order.

`Bindings.get?` is the view, and `Bindings.get?_set` says what an insertion does to it.
-/

namespace Transclude

/-- Names bound to texts, in the order of the names. -/
structure Bindings where
  entries : List (Text × Text)
  ordered : entries.Pairwise fun a b => Text.before a.1 b.1 = true
  deriving DecidableEq, Repr

namespace Bindings

/-- No name bound. -/
def empty : Bindings := ⟨[], .nil⟩

/-- The text bound to a name. -/
def get? (b : Bindings) (name : Text) : Option Text := b.entries.lookup name

/-- Whether a name is bound. -/
def contains (b : Bindings) (name : Text) : Bool := (b.get? name).isSome

/-- Entries with one more, at its place in the order; it replaces one of the same name. -/
def setEntry (name value : Text) : List (Text × Text) → List (Text × Text)
  | [] => [(name, value)]
  | (n, v) :: r =>
    if Text.before name n then (name, value) :: (n, v) :: r
    else if name = n then (name, value) :: r
    else (n, v) :: setEntry name value r

theorem mem_setEntry {name value : Text} {e : Text × Text} {l : List (Text × Text)}
    (h : e ∈ setEntry name value l) : e = (name, value) ∨ e ∈ l := by
  induction l with
  | nil => simpa [setEntry] using h
  | cons a l ih =>
    unfold setEntry at h
    split at h
    · simpa using h
    · split at h
      · rcases List.mem_cons.1 h with h | h
        · exact .inl h
        · exact .inr (List.mem_cons_of_mem _ h)
      · rcases List.mem_cons.1 h with h | h
        · exact .inr (h ▸ List.mem_cons_self)
        · exact (ih h).imp_right (List.mem_cons_of_mem _)

/-- An insertion keeps the entries in the order of their names, and no name twice. This is why
`Bindings.set` can be given. -/
theorem ordered_setEntry (name value : Text) {l : List (Text × Text)}
    (h : l.Pairwise fun a b => Text.before a.1 b.1 = true) :
    (setEntry name value l).Pairwise fun a b => Text.before a.1 b.1 = true := by
  induction l with
  | nil => simp [setEntry]
  | cons a l ih =>
    obtain ⟨n, v⟩ := a
    have ⟨hn, hl⟩ := List.pairwise_cons.1 h
    unfold setEntry
    split
    · next hlt =>
      refine List.pairwise_cons.2 ⟨fun e he => ?_, h⟩
      rcases List.mem_cons.1 he with rfl | he
      · exact hlt
      · exact Text.before_trans hlt (hn e he)
    · next hlt =>
      split
      · next heq => exact List.pairwise_cons.2 ⟨fun e he => heq ▸ hn e he, hl⟩
      · next hne =>
        refine List.pairwise_cons.2 ⟨fun e he => ?_, ih hl⟩
        rcases mem_setEntry he with rfl | he
        · exact Text.before_of_not_before hlt hne
        · exact hn e he

/-- With a text bound to a name; a text bound to it before is gone. -/
def set (b : Bindings) (name value : Text) : Bindings :=
  ⟨setEntry name value b.entries, ordered_setEntry name value b.ordered⟩

/-- Bindings from pairs; of two with one name the later counts. -/
def ofList (l : List (Text × Text)) : Bindings := l.foldl (fun b e => b.set e.1 e.2) empty

/-- The number of bound names. -/
def size (b : Bindings) : Nat := b.entries.length

@[simp] theorem get?_empty (name : Text) : empty.get? name = none := rfl

/-- What the first entry of a list adds, told for every name `x`. -/
theorem lookup_cons_eq (n v : Text) (l : List (Text × Text)) (x : Text) :
    ((n, v) :: l).lookup x = if x = n then some v else l.lookup x := by
  by_cases h : x = n
  · simp [h]
  · simp [List.lookup_cons, beq_false_of_ne h, h]

/-- What an insertion into a list does, told for every name `x`. -/
theorem lookup_setEntry (name value : Text) (l : List (Text × Text)) (x : Text) :
    (setEntry name value l).lookup x = if x = name then some value else l.lookup x := by
  induction l with
  | nil => rw [setEntry, lookup_cons_eq]
  | cons a l ih =>
    obtain ⟨n, v⟩ := a
    unfold setEntry
    split
    · rw [lookup_cons_eq]
    · split
      · next heq => subst heq; by_cases h : x = name <;> simp [lookup_cons_eq, h]
      · next hne =>
        simp only [lookup_cons_eq, ih]
        by_cases hx : x = n
        · subst hx
          simp [Ne.symm hne]
        · simp [hx]

/-- **What an insertion does**: `name` has the new text, every other `x` what it had. -/
theorem get?_set (b : Bindings) (name value x : Text) :
    (b.set name value).get? x = if x = name then some value else b.get? x :=
  lookup_setEntry name value b.entries x

/-- An insertion by `set` binds one name more, and unbinds none: what `contains` answers
afterwards. -/
theorem contains_set (b : Bindings) (name value : Text) :
    (b.set name value).contains = fun x => x == name || b.contains x := by
  funext x
  rw [contains, get?_set, contains]
  by_cases hx : x = name <;> simp [hx]

end Bindings

end Transclude
