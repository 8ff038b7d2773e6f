import Transclude.Text.Blank

/-!
# Decimal numbers

Reading and writing whole numbers in ASCII digits. A number that is read may have leading zeros
(`Text.readNat?`, `Text.readInt?`, `Text.readInt64?`); one that is written has none
(`Text.natText`).

A number that was written is read back, with its sign (`Text.readInt?_toString`): its first
character is a digit or a minus sign, so that it is not taken for a plus sign. No character of it is
blank, so trimming leaves it (`Text.not_isBlank_of_mem_toString`).
-/

namespace Transclude

namespace Text

/-- The value of an ASCII digit. -/
def digit? (c : Char) : Option Nat := if c.isDigit then some (c.toNat - '0'.toNat) else none

/-- The number whose digits follow those of `n`. -/
def readDigits? (n : Nat) : Text → Option Nat
  | [] => some n
  | c :: t => (digit? c).bind fun d => readDigits? (10 * n + d) t

/-- A number without sign. -/
def readNat? (t : Text) : Option Nat := if t = [] then none else readDigits? 0 t

/-- A number without sign, or with a plus sign. -/
def readUnsigned? : Text → Option Nat
  | '+' :: t => readNat? t
  | t => readNat? t

/-- A number with or without sign. -/
def readInt? : Text → Option Int
  | '-' :: t => (readNat? t).map fun n => -n
  | t => (readUnsigned? t).map fun n => n

/-- A number that fits 64 bits with sign. -/
def readInt64? (t : Text) : Option Int64 :=
  (readInt? t).bind fun n =>
    if Int64.minValue.toInt ≤ n ∧ n ≤ Int64.maxValue.toInt then some (Int64.ofInt n) else none

/-- The digits of a number. -/
def natText (n : Nat) : Text := Nat.toDigits 10 n

/-- Digits are read as the number that they are in base ten, on top of the number `n` that was read
before them. -/
theorem readDigits?_of_digits {t : Text} (h : ∀ c ∈ t, c.isDigit = true) (n : Nat) :
    readDigits? n t = some (Nat.ofDigitChars 10 t n) := by
  induction t generalizing n with
  | nil => rfl
  | cons c t ih =>
    have hc : digit? c = some (c.toNat - '0'.toNat) := if_pos (h c List.mem_cons_self)
    rw [readDigits?, hc, Option.bind_some, ih (fun d hd => h d (List.mem_cons_of_mem c hd)),
      Nat.ofDigitChars_cons]

/-- The decimal form of a number has nothing but digits in it. -/
theorem isDigit_of_mem_natText {n : Nat} {c : Char} (h : c ∈ natText n) : c.isDigit = true :=
  Nat.isDigit_of_mem_toDigits (by decide) (by decide) h

theorem natText_ne_nil (n : Nat) : natText n ≠ [] := Nat.toDigits_ne_nil

theorem readNat?_natText (n : Nat) : readNat? (natText n) = some n := by
  rw [readNat?, if_neg (natText_ne_nil n), readDigits?_of_digits (fun _ => isDigit_of_mem_natText)]
  exact congrArg some Nat.ofDigitChars_ten_toDigits

/-- Different numbers are written differently, since each is read back from its form. -/
theorem natText_injective {m n : Nat} (h : natText m = natText n) : m = n := by
  have hread := readNat?_natText m
  rw [h, readNat?_natText] at hread
  exact (Option.some.inj hread).symm

/-- No digit is a slash, so a number can stand in the name of a file. -/
theorem slash_not_mem_natText (n : Nat) : '/' ∉ natText n := fun h =>
  absurd (isDigit_of_mem_natText h) (by decide)

/-- A number `i` with sign is written as its digits, with a minus in front of those of its opposite
if it is negative. -/
theorem toList_toString (i : Int) :
    (toString i).toList = if 0 ≤ i then natText i.toNat else '-' :: natText (-i).toNat := by
  rw [Int.toString_eq_repr, Int.repr_eq_if]
  by_cases h : 0 ≤ i
  · rw [if_pos h, if_pos h, Nat.toList_repr, natText]
  · rw [if_neg h, if_neg h, String.toList_append, Nat.toList_repr, natText]
    rfl

/-- **A number that was written is read back** by `readInt?`, whatever its sign. -/
theorem readInt?_toString (i : Int) : readInt? (toString i).toList = some i := by
  rw [toList_toString]
  by_cases h : 0 ≤ i
  · have hread := readNat?_natText i.toNat
    have hdigits : ∀ c ∈ natText i.toNat, c.isDigit = true := fun _ => isDigit_of_mem_natText
    obtain ⟨c, t, ht⟩ := List.exists_cons_of_ne_nil (natText_ne_nil i.toNat)
    rw [ht] at hread hdigits
    -- the first character is a digit, hence no sign
    have hdigit : c.isDigit = true := hdigits c List.mem_cons_self
    have hminus : c ≠ '-' := fun hc => absurd (hc ▸ hdigit) (by decide)
    have hplus : c ≠ '+' := fun hc => absurd (hc ▸ hdigit) (by decide)
    rw [if_pos h, ht, readInt?.eq_2 _ (by simp [hminus]), readUnsigned?.eq_2 _ (by simp [hplus]),
      hread]
    show some (i.toNat : Int) = some i
    rw [Int.toNat_of_nonneg h]
  · rw [if_neg h, readInt?, readNat?_natText]
    show some (-((-i).toNat : Int)) = some i
    congr 1
    omega

/-- A number of 64 bits that was written is read back by `readInt64?`, which refuses only what is
out of bounds. -/
theorem readInt64?_toString (n : Int64) : readInt64? (toString n.toInt).toList = some n := by
  have hrange : Int64.minValue.toInt ≤ n.toInt ∧ n.toInt ≤ Int64.maxValue.toInt := by
    have hlow := n.le_toInt
    have hhigh := n.toInt_lt
    rw [Int64.toInt_minValue, Int64.toInt_maxValue]
    omega
  rw [readInt64?, readInt?_toString, Option.bind_some, if_pos hrange, Int64.ofInt_toInt]

theorem not_isBlank_of_isDigit {c : Char} (h : c.isDigit = true) : isBlank c = false := by
  simp only [Char.isDigit, Bool.and_eq_true, decide_eq_true_eq] at h
  have hlow : 48 ≤ c.toNat := h.1
  have hhigh : c.toNat ≤ 57 := h.2
  simp only [isBlank]
  simp
  omega

/-- Neither digits nor the minus are blanks, so trimming a number that was written takes nothing
away. -/
theorem not_isBlank_of_mem_toString {i : Int} {c : Char} (h : c ∈ (toString i).toList) :
    isBlank c = false := by
  rw [toList_toString] at h
  split at h
  · exact not_isBlank_of_isDigit (isDigit_of_mem_natText h)
  · rcases List.mem_cons.1 h with hc | h
    · rw [hc]
      decide
    · exact not_isBlank_of_isDigit (isDigit_of_mem_natText h)

end Text

end Transclude
