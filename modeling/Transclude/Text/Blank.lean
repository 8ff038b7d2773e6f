import Transclude.Text.Basic

/-!
# Blank characters

The characters with the Unicode property White_Space (`isBlank`), and the trimming of text at its
ends by them (`Text.trimStart`, `Text.trimEnd`, `Text.trim`).

What is left of a text when the blanks at its ends are taken away is told without taking anything
away: nothing blank stands at its ends, and with blanks around it, it is the whole text
(`Text.trim_eq_iff`). There is only one such part, so a text that is trimmed already stays as it is
(`Text.trim_eq_self_iff`).

All of it comes from one fact on characters that are dropped from the beginning of a text
(`Text.dropWhile_eq_iff`): at the end, it is used on the text read backwards.
-/

namespace Transclude

/-- The Unicode property White_Space. -/
def isBlank (c : Char) : Bool :=
  let n := c.toNat
  (0x9 ≤ n && n ≤ 0xD) || n == 0x20 || n == 0x85 || n == 0xA0 || n == 0x1680 ||
    (0x2000 ≤ n && n ≤ 0x200A) || n == 0x2028 || n == 0x2029 || n == 0x202F || n == 0x205F ||
    n == 0x3000

namespace Text

/-- Without the blanks at its beginning. -/
def trimStart (t : Text) : Text := t.dropWhile isBlank

/-- Without the blanks at its end. -/
def trimEnd (t : Text) : Text := (t.reverse.dropWhile isBlank).reverse

/-- Without the blanks at either end. -/
def trim (t : Text) : Text := trimEnd (trimStart t)

/-- Nothing but blanks. -/
def allBlank (t : Text) : Bool := t.all isBlank

/-! ## What trimming leaves -/

variable {t s : Text}

/-- What `dropWhile` leaves of `t`, told without the recursion: `s` does not begin with one more
character that is dropped, and only such characters, `lead`, stood in front of it. -/
theorem dropWhile_eq_iff {p : Char → Bool} :
    t.dropWhile p = s ↔
      (∀ c ∈ s.head?, p c = false) ∧ ∃ lead : Text, (∀ c ∈ lead, p c = true) ∧ t = lead ++ s := by
  constructor
  · rintro rfl
    refine ⟨fun c hc => ?_, t.takeWhile p, fun c hc => List.all_eq_true.1 List.all_takeWhile c hc,
      List.takeWhile_append_dropWhile.symm⟩
    have hhead := List.head?_dropWhile_not p t
    rw [hc] at hhead
    exact hhead
  · intro ⟨hhead, lead, hlead, ht⟩
    rw [ht, List.dropWhile_append_of_pos hlead]
    cases s with
    | nil => rfl
    | cons c s => rw [List.dropWhile_cons_of_neg (by simp [hhead c rfl])]

theorem allBlank_eq_true_iff : allBlank t = true ↔ ∀ c ∈ t, isBlank c = true := List.all_eq_true

/-- A text is not blank exactly if it shows some character `c`. -/
theorem allBlank_eq_false_iff : allBlank t = false ↔ ∃ c ∈ t, isBlank c = false := by
  simp only [allBlank, List.all_eq_false, Bool.not_eq_true]

/-- Blanks in front of `t` would show at its beginning: if `before ++ t` does not begin with a
blank, there are none. -/
theorem eq_nil_of_head?_append {before : Text} (hbefore : allBlank before = true)
    (h : ∀ c ∈ (before ++ t).head?, isBlank c = false) : before = [] := by
  cases before with
  | nil => rfl
  | cons c before =>
    have hc := allBlank_eq_true_iff.1 hbefore c List.mem_cons_self
    rw [h c rfl] at hc
    cases hc

/-- Blanks behind `t` would show at its end: if `t ++ after` does not end with a blank, there are
none. -/
theorem eq_nil_of_getLast?_append {after : Text} (hafter : allBlank after = true)
    (h : ∀ c ∈ (t ++ after).getLast?, isBlank c = false) : after = [] := by
  refine Decidable.byContradiction fun hnil => ?_
  have hlast := List.getLast?_eq_some_getLast hnil
  rw [List.getLast?_append, hlast, Option.some_or] at h
  have hc := allBlank_eq_true_iff.1 hafter _ (List.mem_of_getLast? hlast)
  rw [h _ rfl] at hc
  cases hc

/-- What `trimStart` leaves of `t` is the `s` that does not begin with a blank and has only blanks
in front of it. -/
theorem trimStart_eq_iff :
    trimStart t = s ↔
      (∀ c ∈ s.head?, isBlank c = false) ∧ ∃ before, allBlank before = true ∧ t = before ++ s := by
  simp only [trimStart, dropWhile_eq_iff, allBlank_eq_true_iff]

/-- What `trimEnd` leaves of `t` is the `s` that does not end with a blank and has only blanks
behind it. The text that `trimEnd` turns around does not show here any more. -/
theorem trimEnd_eq_iff :
    trimEnd t = s ↔
      (∀ c ∈ s.getLast?, isBlank c = false) ∧ ∃ after, allBlank after = true ∧ t = s ++ after := by
  rw [trimEnd, List.reverse_eq_iff, dropWhile_eq_iff, List.head?_reverse]
  refine and_congr_right fun _ => ⟨?_, ?_⟩
  · rintro ⟨lead, hlead, ht⟩
    refine ⟨lead.reverse, allBlank_eq_true_iff.2 fun c hc => hlead c (List.mem_reverse.1 hc), ?_⟩
    rw [← List.reverse_reverse t, ht, List.reverse_append, List.reverse_reverse]
  · rintro ⟨after, hafter, ht⟩
    refine ⟨after.reverse, fun c hc => ?_, by rw [ht, List.reverse_append]⟩
    exact allBlank_eq_true_iff.1 hafter c (List.mem_reverse.1 hc)

/-- Trimming with `trimStart` takes away all of a text only if there is nothing but blanks in it. -/
theorem trimStart_eq_nil : trimStart t = [] ↔ allBlank t = true := by
  simp [trimStart_eq_iff]

/-- Trimming with `trimEnd` takes away all of a text exactly where `trimStart` does. -/
theorem trimEnd_eq_nil : trimEnd t = [] ↔ allBlank t = true := by
  simp [trimEnd_eq_iff]

/-- Whether no blank stands at the ends of a text. -/
structure IsTrimmed (t : Text) : Prop where
  head : ∀ c ∈ t.head?, isBlank c = false
  last : ∀ c ∈ t.getLast?, isBlank c = false

/-- **What trimming leaves** of `t` is the one text `s` that is trimmed and has only blanks before
and after it in `t`. -/
theorem trim_eq_iff :
    trim t = s ↔ IsTrimmed s ∧
      ∃ before after, allBlank before = true ∧ allBlank after = true ∧
        t = before ++ s ++ after := by
  constructor
  · intro h
    obtain ⟨hhead, before, hbefore, ht⟩ := trimStart_eq_iff.1 (rfl : trimStart t = trimStart t)
    obtain ⟨hlast, after, hafter, hstart⟩ := trimEnd_eq_iff.1 h
    refine ⟨⟨fun c hc => hhead c ?_, hlast⟩, before, after, hbefore, hafter, ?_⟩
    · rw [hstart, List.head?_append, hc]
      rfl
    · rw [List.append_assoc, ← hstart]
      exact ht
  · intro ⟨hs, before, after, hbefore, hafter, ht⟩
    rw [ht]
    -- of a text of blanks only, nothing is left for the end
    cases s with
    | nil =>
      have hall : allBlank (before ++ [] ++ after) = true := by
        rw [List.append_nil, allBlank, List.all_append, Bool.and_eq_true]
        exact ⟨hbefore, hafter⟩
      rw [trim, trimStart_eq_nil.2 hall]
      rfl
    | cons d s =>
      have hstart : trimStart (before ++ d :: s ++ after) = d :: s ++ after :=
        trimStart_eq_iff.2 ⟨hs.head, before, hbefore, List.append_assoc ..⟩
      rw [trim, hstart]
      exact trimEnd_eq_iff.2 ⟨hs.last, after, hafter, rfl⟩

theorem isTrimmed_trim (t : Text) : IsTrimmed (trim t) := (trim_eq_iff.1 rfl).1

/-- Trimming leaves exactly the trimmed texts as they are. So a second trimming never does
anything. -/
theorem trim_eq_self_iff : trim t = t ↔ IsTrimmed t :=
  ⟨fun h => h ▸ isTrimmed_trim t, fun h => trim_eq_iff.2 ⟨h, [], [], rfl, rfl, by simp⟩⟩

/-- Text without any blank is trimmed. -/
theorem IsTrimmed.of_forall (h : ∀ c ∈ t, isBlank c = false) : IsTrimmed t :=
  ⟨fun c hc => h c (List.mem_of_mem_head? hc), fun c hc => h c (List.mem_of_mem_getLast? hc)⟩

/-- Trimming the end of a line brings no line feed into it. -/
theorem newline_not_mem_trimEnd (h : '\n' ∉ t) : '\n' ∉ trimEnd t := by
  obtain ⟨-, after, -, ht⟩ := trimEnd_eq_iff.1 (rfl : trimEnd t = _)
  rw [ht] at h
  exact fun hmem => h (List.mem_append_left after hmem)

end Text

end Transclude
