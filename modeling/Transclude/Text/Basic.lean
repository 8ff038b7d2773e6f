/-!
# Text

Documents, names and values are text: lists of characters, read from the left. Nothing in the
library counts positions while it reads. Where a position is shown to a reader, it is measured
afterwards, in bytes of the UTF-8 form (`Text.width`) or in lines (`Text.lineAt`, the program's
`line_of`).

The basic step of every reader is `Text.after?`: what follows a given beginning. It loses nothing
(`Text.after?_eq_some_iff`), so a reader built from it can be checked against what it read. Where
text is split at a character instead, no part holds that character (`not_mem_of_mem_splitOn`); this
is true of any list.

Two more views of a text are defined here:

- its lines (`Text.lines`, `Text.unifyLineEnds`). A line ends with a line feed, and a carriage
  return directly before that line feed belongs to the line end; a carriage return anywhere else is
  an ordinary character of the line. Text that ends with a line end has no further, empty line after
  it.
- its place in the order of texts (`Text.before`), which goes by the code points of the characters
  from the left; this is also the order of the bytes of the UTF-8 forms. The order is strict and
  total: of two different texts one comes before the other (`Text.before_of_not_before`), and never
  both do (`Text.not_before_self`, `Text.before_trans`).
-/

namespace Transclude

/-- Text, one character after the other. -/
abbrev Text := List Char

namespace Text

/-- The number of bytes in the UTF-8 form of a text. -/
def width : Text → Nat
  | [] => 0
  | c :: t => c.utf8Size + width t

@[simp] theorem width_nil : width [] = 0 := rfl

@[simp] theorem width_cons (c : Char) (t : Text) : width (c :: t) = c.utf8Size + width t := rfl

theorem width_append (s t : Text) : width (s ++ t) = width s + width t := by
  induction s with
  | nil => simp
  | cons c s ih => simp [ih, Nat.add_assoc]

/-- The number of line ends in a text. -/
def newlines (t : Text) : Nat := t.count '\n'

/-- The line, counted from one, on which byte `offset` of a text stands. An offset past the end
stands on the last line. -/
def lineAt : Text → Nat → Nat
  | [], _ => 1
  | _, 0 => 1
  | c :: t, offset + 1 => (if c = '\n' then 1 else 0) + lineAt t (offset + 1 - c.utf8Size)

/-- The text without its first `n` bytes. A character that these bytes cut goes with them. -/
def dropBytes : Nat → Text → Text
  | 0, t => t
  | _ + 1, [] => []
  | n + 1, c :: t => dropBytes (n + 1 - c.utf8Size) t

/-- The first `n` bytes of the text. A character that the last of them cuts is kept. -/
def takeBytes : Nat → Text → Text
  | 0, _ => []
  | _ + 1, [] => []
  | n + 1, c :: t => c :: takeBytes (n + 1 - c.utf8Size) t

/-- What is left of a text behind no bytes is the text. -/
theorem dropBytes_zero (t : Text) : dropBytes 0 t = t := by cases t <;> rfl

theorem takeBytes_zero (t : Text) : takeBytes 0 t = [] := by cases t <;> rfl

/-- A first part `s` is taken away whole if as many bytes are dropped as it is wide. No character of
`t` goes with it. -/
theorem dropBytes_width (s t : Text) : dropBytes (width s) (s ++ t) = t := by
  induction s with
  | nil => exact dropBytes_zero t
  | cons c s ih =>
    obtain ⟨k, hk⟩ := Nat.exists_eq_add_of_lt c.utf8Size_pos
    rw [width_cons, List.cons_append, show c.utf8Size + width s = (k + width s) + 1 by omega,
      dropBytes, show k + width s + 1 - c.utf8Size = width s by omega, ih]

/-- Those bytes are exactly `s`: taking the width of a first part gives it back. -/
theorem takeBytes_width (s t : Text) : takeBytes (width s) (s ++ t) = s := by
  induction s with
  | nil => exact takeBytes_zero t
  | cons c s ih =>
    obtain ⟨k, hk⟩ := Nat.exists_eq_add_of_lt c.utf8Size_pos
    rw [width_cons, List.cons_append, show c.utf8Size + width s = (k + width s) + 1 by omega,
      takeBytes, show k + width s + 1 - c.utf8Size = width s by omega, ih]

/-- The bytes from `start` up to `stop`. -/
def slice (t : Text) (start stop : Nat) : Text := takeBytes (stop - start) (dropBytes start t)

/-- What follows the beginning `lead` of a text; none if the text begins otherwise. -/
def after? : Text → Text → Option Text
  | [], t => some t
  | _ :: _, [] => none
  | c :: lead, d :: t => if c = d then after? lead t else none

/-- Nothing is lost by `after?`: the beginning `lead` and the `rest` behind it make up the text `t`,
and wherever they do, `rest` is what is found. -/
theorem after?_eq_some_iff {lead t rest : Text} :
    after? lead t = some rest ↔ t = lead ++ rest := by
  induction lead generalizing t with
  | nil => simp [after?]
  | cons c lead ih =>
    cases t with
    | nil => simp [after?]
    | cons d t =>
      by_cases h : c = d
      · simp [after?, h, ih]
      · simp [after?, h, eq_comm]

/-- Behind a beginning that was put there is what it was put in front of. -/
theorem after?_append (lead rest : Text) : after? lead (lead ++ rest) = some rest :=
  after?_eq_some_iff.2 rfl

/-- The search for `lead` fails only on texts that do not begin with it. -/
theorem after?_eq_none_iff {lead t : Text} : after? lead t = none ↔ ¬lead <+: t := by
  constructor
  · rintro h ⟨rest, rfl⟩
    rw [after?_append] at h
    cases h
  · intro h
    cases hr : after? lead t with
    | none => rfl
    | some rest => exact absurd ⟨rest, (after?_eq_some_iff.1 hr).symm⟩ h

/-- The text before the first occurrence of `mark` and the text after it; none if there is no
occurrence. -/
def cutAt? (mark : Text) : Text → Option (Text × Text)
  | [] => (after? mark []).map fun rest => ([], rest)
  | c :: t =>
    match after? mark (c :: t) with
    | some rest => some ([], rest)
    | none => (cutAt? mark t).map fun (before, rest) => (c :: before, rest)

/-- Nothing is lost at a cut: `before`, `mark` and `rest` make up the text `t`. -/
theorem eq_of_cutAt? {mark t before rest : Text} (h : cutAt? mark t = some (before, rest)) :
    t = before ++ mark ++ rest := by
  induction t generalizing before with
  | nil =>
    simp only [cutAt?, Option.map_eq_some_iff, Prod.mk.injEq] at h
    obtain ⟨_, hr, rfl, rfl⟩ := h
    simpa using after?_eq_some_iff.1 hr
  | cons c t ih =>
    unfold cutAt? at h
    split at h
    · next hr =>
      simp only [Option.some.injEq, Prod.mk.injEq] at h
      obtain ⟨rfl, rfl⟩ := h
      simpa using after?_eq_some_iff.1 hr
    · simp only [Option.map_eq_some_iff, Prod.mk.injEq, Prod.exists] at h
      obtain ⟨b, r, hb, rfl, rfl⟩ := h
      simp [ih hb]

/-! ## Occurrences of a mark -/

/-- What follows each occurrence of a mark, from the left. -/
def afterEach (mark : Text) : Text → List Text
  | [] => (after? mark []).toList
  | c :: t => (after? mark (c :: t)).toList ++ afterEach mark t

/-- The texts that `afterEach` lists are those behind some occurrence of `mark` in `t`, overlapping
occurrences counted one by one. -/
theorem mem_afterEach {mark t s : Text} : s ∈ afterEach mark t ↔ mark ++ s <:+ t := by
  induction t with
  | nil => simp [afterEach, after?_eq_some_iff]
  | cons c t ih =>
    rw [afterEach, List.mem_append, ih, List.suffix_cons_iff, Option.mem_toList,
      after?_eq_some_iff, eq_comm]

/-- A mark occurs in a text exactly when some `s`, perhaps the empty one, follows it there. So
occurrences can be told by the suffixes that `afterEach` lists. -/
theorem infix_iff_exists_suffix {mark t : Text} : mark <:+: t ↔ ∃ s, mark ++ s <:+ t := by
  constructor
  · rintro ⟨a, b, rfl⟩
    exact ⟨b, a, by simp⟩
  · rintro ⟨s, a, rfl⟩
    exact ⟨a, s, by simp⟩

end Text

/-! ## Lists in parts -/

section

variable {α : Type} [DecidableEq α]

/-- No part of a list that is split at `c` holds `c`, whatever the list. -/
theorem not_mem_of_mem_splitOn {c : α} {t part : List α} (h : part ∈ t.splitOn c) : c ∉ part := by
  induction t generalizing part with
  | nil =>
    rw [List.mem_singleton.1 h]
    exact List.not_mem_nil
  | cons d t ih =>
    rw [List.splitOn_cons_eq_if_modifyHead] at h
    obtain ⟨first, rest, hsplit⟩ := List.exists_cons_of_ne_nil (List.splitOn_ne_nil c t)
    rw [hsplit] at h ih
    split at h
    · rcases List.mem_cons.1 h with rfl | h
      · exact List.not_mem_nil
      · exact ih h
    · next hd =>
      rcases List.mem_cons.1 h with rfl | h
      · intro hmem
        rcases List.mem_cons.1 hmem with rfl | hmem
        · exact hd (beq_self_eq_true c)
        · exact ih List.mem_cons_self hmem
      · exact ih (List.mem_cons_of_mem _ h)

/-- What has no `c` in it and stands in front of a list that is split comes to its first part. The
other parts stay. -/
theorem splitOn_append_of_not_mem {c : α} {s : List α} (h : c ∉ s) (t : List α) :
    (s ++ t).splitOn c = (t.splitOn c).modifyHead (s ++ ·) := by
  induction s with
  | nil =>
    obtain ⟨first, rest, hsplit⟩ := List.exists_cons_of_ne_nil (List.splitOn_ne_nil c t)
    rw [List.nil_append, hsplit]
    rfl
  | cons a s ih =>
    have ha : ¬(a == c) = true := fun heq => h (eq_of_beq heq ▸ List.mem_cons_self)
    obtain ⟨first, rest, hsplit⟩ := List.exists_cons_of_ne_nil (List.splitOn_ne_nil c t)
    rw [List.cons_append, List.splitOn_cons_eq_if_modifyHead, if_neg ha,
      ih fun hmem => h (List.mem_cons_of_mem a hmem), hsplit]
    rfl

omit [DecidableEq α] in
/-- Joining `parts` and one more by `c` puts `c` between the joined parts and the last one. There
must be a part in front of it. -/
theorem intercalate_concat (c : α) {parts : List (List α)} (h : parts ≠ []) (last : List α) :
    List.intercalate [c] (parts ++ [last]) = List.intercalate [c] parts ++ c :: last := by
  induction parts with
  | nil => exact absurd rfl h
  | cons a parts ih =>
    cases parts with
    | nil => rw [List.cons_append, List.intercalate_cons_of_ne_nil (by simp)]; simp
    | cons b parts =>
      have hne : b :: parts ++ [last] ≠ [] := List.cons_ne_nil _ _
      rw [List.cons_append, List.intercalate_cons_of_ne_nil hne, ih (List.cons_ne_nil _ _),
        List.intercalate_cons_of_ne_nil (List.cons_ne_nil b parts)]
      exact (List.append_assoc _ _ _).symm

end

namespace Text

/-! ## Lines -/

/-- Without one carriage return at the end. -/
def dropReturn (line : Text) : Text :=
  if line.getLast? = some '\r' then line.dropLast else line

/-- The lines of a text, without their line ends. -/
def lines (t : Text) : List Text :=
  let parts := t.splitOn '\n'
  parts.dropLast.map dropReturn ++ (parts.getLast?.filter (· ≠ [])).toList

/-- Every line end as one line feed: a carriage return with a line feed after it, and a carriage
return alone. -/
def unifyLineEnds : Text → Text
  | [] => []
  | '\r' :: '\n' :: t => '\n' :: unifyLineEnds t
  | c :: t => (if c = '\r' then '\n' else c) :: unifyLineEnds t

section

variable {t last : Text} {front : List Text}

/-- The lines of `t` from its pieces between line feeds: those in `front` have a line feed behind
them and are lines without their carriage return, and `last` is a line unless it is empty. -/
theorem lines_of_splitOn (h : t.splitOn '\n' = front ++ [last]) :
    lines t = front.map dropReturn ++ if last = [] then [] else [last] := by
  rw [lines, h, List.dropLast_concat, List.getLast?_concat]
  by_cases hlast : last = []
  · simp [hlast]
  · simp [hlast]

/-- Taking a carriage return from the end of a line brings no line feed into it. -/
theorem newline_not_mem_dropReturn (h : '\n' ∉ t) : '\n' ∉ dropReturn t := by
  unfold dropReturn
  split
  · exact fun hmem => h (List.dropLast_subset t hmem)
  · exact h

/-- The pieces of `t`, put together again with line feeds between them, are `t`. -/
theorem intercalate_of_splitOn (h : t.splitOn '\n' = front ++ [last]) :
    List.intercalate ['\n'] (front ++ [last]) = t := by
  rw [← h]
  exact List.intercalate_splitOn '\n'

/-- A text ends with a line feed exactly if it has one, so that `front` is not empty, and nothing
stands behind the last. -/
theorem getLast?_eq_newline_iff (h : t.splitOn '\n' = front ++ [last]) :
    t.getLast? = some '\n' ↔ front ≠ [] ∧ last = [] := by
  have hfree : '\n' ∉ last :=
    not_mem_of_mem_splitOn (h ▸ List.mem_append_right front List.mem_cons_self)
  have ht := intercalate_of_splitOn h
  by_cases hfront : front = []
  · rw [hfront, List.nil_append, List.intercalate_singleton] at ht
    rw [← ht]
    exact iff_of_false (fun hlast => hfree (List.mem_of_getLast? hlast)) (fun hne => hne.1 hfront)
  · rw [intercalate_concat '\n' hfront] at ht
    rw [← ht, and_iff_right hfront]
    by_cases hlast : last = []
    · rw [hlast, List.getLast?_concat]
      exact iff_of_true rfl rfl
    · refine iff_of_false (fun hend => ?_) hlast
      have hc := List.getLast?_eq_some_getLast hlast
      rw [List.getLast?_append, List.getLast?_cons, hc] at hend
      exact hfree (List.mem_of_getLast? (hc.trans hend))

/-- The piece behind the last line feed is empty in the empty text and in one that ends with a line
feed, and only there. -/
theorem last_eq_nil_iff (h : t.splitOn '\n' = front ++ [last]) :
    last = [] ↔ t = [] ∨ t.getLast? = some '\n' := by
  rw [getLast?_eq_newline_iff h]
  constructor
  · intro hlast
    by_cases hfront : front = []
    · left
      rw [← intercalate_of_splitOn h, hfront, hlast]
      rfl
    · exact .inr ⟨hfront, hlast⟩
  · rintro (rfl | hend)
    · have hlast := congrArg List.getLast? h
      rw [List.splitOn_nil, List.getLast?_concat] at hlast
      exact (Option.some.inj hlast).symm
    · exact hend.2

end

/-! ## The order of texts -/

/-- Whether the first text comes before the second. -/
def before : Text → Text → Bool
  | _, [] => false
  | [], _ :: _ => true
  | c :: s, d :: t => decide (c.toNat < d.toNat) || (c == d && before s t)

/-- The order `before` is by the first character in which two texts differ, and by its code
point. -/
theorem before_cons {c d : Char} {s t : Text} :
    before (c :: s) (d :: t) = true ↔ c.toNat < d.toNat ∨ c = d ∧ before s t = true := by
  simp [before]

/-- No text comes before itself, so `before` is a strict order. -/
theorem not_before_self (t : Text) : ¬before t t = true := by
  induction t with
  | nil => simp [before]
  | cons c t ih =>
    rw [before_cons]
    rintro (h | ⟨-, h⟩)
    · exact Nat.lt_irrefl _ h
    · exact ih h

/-- What comes before a text `t` comes before everything that `t` comes before. -/
theorem before_trans {s t u : Text} (hst : before s t = true) (htu : before t u = true) :
    before s u = true := by
  induction s generalizing t u with
  | nil =>
    cases u with
    | nil => cases t <;> simp [before] at htu
    | cons e u => rfl
  | cons c s ih =>
    cases t with
    | nil => simp [before] at hst
    | cons d t =>
      cases u with
      | nil => simp [before] at htu
      | cons e u =>
        rw [before_cons] at hst htu ⊢
        rcases hst with hcd | ⟨rfl, hst⟩
        · rcases htu with hde | ⟨rfl, -⟩
          · exact .inl (Nat.lt_trans hcd hde)
          · exact .inl hcd
        · rcases htu with hde | ⟨rfl, htu⟩
          · exact .inl hde
          · exact .inr ⟨rfl, ih hst htu⟩

/-- Of two different texts one comes before the other: `before` is total, and sorting by it leaves
no choice. -/
theorem before_of_not_before {s t : Text} (h : ¬before s t = true) (hne : s ≠ t) :
    before t s = true := by
  induction s generalizing t with
  | nil =>
    cases t with
    | nil => exact absurd rfl hne
    | cons d t => exact absurd rfl h
  | cons c s ih =>
    cases t with
    | nil => rfl
    | cons d t =>
      rw [before_cons] at h ⊢
      by_cases hcd : c = d
      · subst hcd
        exact .inr ⟨rfl, ih (fun hst => h (.inr ⟨rfl, hst⟩)) fun hst => hne (hst ▸ rfl)⟩
      · have hn : c.toNat ≠ d.toNat := fun heq => hcd (Char.toNat_inj.1 heq)
        exact .inl (Nat.lt_of_le_of_ne (Nat.not_lt.1 fun hlt => h (.inl hlt)) hn.symm)

end Text

end Transclude
