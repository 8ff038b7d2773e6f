import Mathlib.Algebra.Group.Int.Defs
import Mathlib.Algebra.Group.Nat.Defs
import Mathlib.Data.List.Infix
import Mathlib.Data.Option.Basic
import Transclude.Scope

/-!
# Depths and their numbers

A depth is told as a number of 64 bits with sign, in settings, on the command line and in messages:
`-1` for no limit, and the levels otherwise. But levels are counted in 64 bits without sign, and a
depth that is widened while a scope is looked for may come to have more of them than such a number
can tell. Then the number is a negative one.

So there are two halves. The count is exact: a depth that comes from a number has less than half of
the levels that can be counted, so that on the way up and down no step goes beyond what can be
counted (`Depth.limit?_after_of_isTold`). And the number tells the depth as long as its levels are
less than that half; beyond it, the number is refused, and never taken for another depth
(`Depth.ofInt64_toInt64_iff`). The text of a depth is read as its number, whatever the depth
(`Depth.parse_text`), so it is the same with the text.

Main statement: `Depth.survives_iff`.
-/

namespace Transclude

namespace Depth

/-! ## The number of a depth -/

/-- Whether a depth has no more levels than a number with sign can tell. -/
def IsTold (d : Depth) : Prop := ∀ n ∈ d.limit?, n < 2 ^ 63

/-- The levels `n` as a number with sign: from the half of what can be counted on, it is
negative. -/
theorem toInt_toInt64 (n : UInt64) :
    n.toInt64.toInt = if n.toNat < 2 ^ 63 then (n.toNat : Int) else n.toNat - 2 ^ 64 := by
  have hvalue : n.toInt64.toInt = n.toBitVec.toInt := rfl
  rw [hvalue, BitVec.toInt_eq_toNat_cond, UInt64.toNat_toBitVec]
  by_cases h : n.toNat < 2 ^ 63
  · rw [if_pos h, if_pos (by omega)]
  · rw [if_neg h, if_neg (by omega)]
    rfl

/-- A number `n` by its value: a depth, unless it is below -1, which stands for no limit. -/
theorem ofInt64_eq (n : Int64) :
    ofInt64 n =
      if n.toInt = -1 then .ok unlimited
      else if 0 ≤ n.toInt then .ok (levels n.toUInt64)
      else .error (.validation (.depthNumber n.toInt)) := by
  have hone : (n = -1) = (n.toInt = -1) := by
    have hvalue : (-1 : Int64).toInt = -1 := rfl
    rw [← Int64.toInt_inj, hvalue]
  have hzero : (0 ≤ n) = (0 ≤ n.toInt) := by rw [Int64.le_iff_toInt_le, Int64.toInt_zero]
  simp only [ofInt64, hone, hzero]

/-- The levels of a number that is not negative are that number. -/
theorem toNat_toUInt64 {n : Int64} (h : 0 ≤ n.toInt) : n.toUInt64.toNat = n.toInt.toNat := by
  have hvalue : n.toInt = _ := toInt_toInt64 n.toUInt64
  have hlt := n.toUInt64.toNat_lt
  split at hvalue
  · omega
  · omega

/-- The limit of a depth that comes from the number `n` is `n`, and there is none for -1. -/
theorem limit?_of_ofInt64 {n : Int64} {d : Depth} (h : ofInt64 n = .ok d) :
    d.limit? = if n.toInt = -1 then none else some n.toInt.toNat := by
  rw [ofInt64_eq] at h
  by_cases hone : n.toInt = -1
  · rw [if_pos hone] at h ⊢
    obtain rfl := Except.ok.inj h
    rfl
  · rw [if_neg hone] at h ⊢
    by_cases hzero : 0 ≤ n.toInt
    · rw [if_pos hzero] at h
      obtain rfl := Except.ok.inj h
      rw [limit?, toNat_toUInt64 hzero]
    · rw [if_neg hzero] at h
      cases h

/-- The number of a depth that `IsTold` stands for the depth. -/
theorem ofInt64_toInt64 {d : Depth} (h : d.IsTold) : ofInt64 d.toInt64 = .ok d := by
  cases d with
  | unlimited => rfl
  | levels n =>
    have hvalue := toInt_toInt64 n
    rw [if_pos (h n.toNat rfl)] at hvalue
    rw [toInt64, ofInt64_eq, if_neg (by omega), if_pos (by omega)]
    rfl

/-- The number of a depth with `n` levels, from 2^63 on, is refused, and the error shows it as a
negative number. The very last number of levels is left out: its number would be -1, which stands
for no limit. -/
theorem ofInt64_toInt64_of_le {d : Depth} {n : Nat} (hn : d.limit? = some n) (hle : 2 ^ 63 ≤ n)
    (hlt : n + 1 < UInt64.size) :
    ofInt64 d.toInt64 = .error (.validation (.depthNumber (n - 2 ^ 64))) := by
  cases d with
  | unlimited => cases hn
  | levels m =>
    obtain rfl := Option.some.inj hn
    have hsize : UInt64.size = 2 ^ 64 := rfl
    have hvalue := toInt_toInt64 m
    rw [if_neg (by omega)] at hvalue
    rw [toInt64, ofInt64_eq, if_neg (by omega), if_neg (by omega), hvalue]

/-- **The number of a depth stands for it** exactly if it can tell the levels (`IsTold`), as long as
there is room for one level more. -/
theorem ofInt64_toInt64_iff {d : Depth} (hroom : ∀ n ∈ d.limit?, n + 1 < UInt64.size) :
    ofInt64 d.toInt64 = .ok d ↔ d.IsTold := by
  constructor
  · intro h n hn
    by_contra hle
    rw [ofInt64_toInt64_of_le hn (Nat.le_of_not_lt hle) (hroom n hn)] at h
    cases h
  · exact ofInt64_toInt64

/-- A depth that comes from a number can be told by one. -/
theorem isTold_of_ofInt64 {n : Int64} {d : Depth} (h : ofInt64 n = .ok d) : d.IsTold := by
  intro m hm
  have hlt := n.toInt_lt
  rw [limit?_of_ofInt64 h] at hm
  split at hm
  · cases hm
  · obtain rfl := Option.some.inj hm
    omega

/-- A depth that `IsTold` has room for fewer than 2^62 `changes`, so they are counted exactly. -/
theorem limit?_after_of_isTold {d : Depth} (htold : d.IsTold) {changes : List Change}
    (hfew : changes.length < 2 ^ 62) :
    (d.after changes).limit? = d.limit?.map (countAfter · changes) := by
  apply limit?_after
  intro n hn
  have hlow := htold n hn
  have hsize : UInt64.size = 2 ^ 64 := rfl
  omega

/-- After fewer than 2^62 steps there is room for one level more. -/
theorem room_after {d : Depth} (htold : d.IsTold) {changes : List Change}
    (hfew : changes.length < 2 ^ 62) :
    ∀ m ∈ (d.after changes).limit?, m + 1 < UInt64.size := by
  intro m hm
  rw [limit?_after_of_isTold htold hfew] at hm
  obtain ⟨n, hn, rfl⟩ := Option.map_eq_some_iff.1 hm
  have hlow := htold n hn
  have hcount := countAfter_le n changes
  have hsize : UInt64.size = 2 ^ 64 := rfl
  omega

/-! ## What becomes of a depth on the way -/

/-- What is known of a depth that comes from the number `n` and has gone through some steps. -/
structure Survives (n : Int64) (start : Depth) (changes : List Change) : Prop where
  /-- At every point of the way the levels are counted exactly, and no limit stays no limit. -/
  counted : ∀ done, done <+: changes →
    (start.after done).limit? =
      if n.toInt = -1 then none else some (countAfter n.toInt.toNat done)
  /-- There a level more could be counted. -/
  room : ∀ done, done <+: changes → ∀ m ∈ (start.after done).limit?, m + 1 < UInt64.size
  /-- The number of the depth stands for it exactly if it can tell its levels. -/
  number : ofInt64 (start.after changes).toInt64 = .ok (start.after changes) ↔
    (start.after changes).IsTold
  /-- So does its text. -/
  text : parse (start.after changes).text = .ok (start.after changes) ↔
    (start.after changes).IsTold
  /-- Otherwise both are refused, because the number is negative. -/
  refused : ∀ m ∈ (start.after changes).limit?, 2 ^ 63 ≤ m →
    ofInt64 (start.after changes).toInt64 = .error (.validation (.depthNumber (m - 2 ^ 64))) ∧
      parse (start.after changes).text = .error (.validation (.depthNumber (m - 2 ^ 64)))

/-- **A depth survives its number and its text** (`Survives`) exactly as long as it has fewer
than 2^63 levels: whatever number `n` the depth came from, and after fewer than 2^62 steps up
and down. -/
theorem survives_iff {n : Int64} {start : Depth} (hstart : ofInt64 n = .ok start)
    {changes : List Change} (hfew : changes.length < 2 ^ 62) : Survives n start changes := by
  have htold := isTold_of_ofInt64 hstart
  have hshort : ∀ done, done <+: changes → done.length < 2 ^ 62 := fun done hdone =>
    Nat.lt_of_le_of_lt hdone.length_le hfew
  have hroom := room_after htold hfew
  refine ⟨?_, ?_, ofInt64_toInt64_iff hroom, ?_, ?_⟩
  · intro done hdone
    rw [limit?_after_of_isTold htold (hshort done hdone), limit?_of_ofInt64 hstart]
    split <;> rfl
  · intro done hdone
    exact room_after htold (hshort done hdone)
  · rw [parse_text]
    exact ofInt64_toInt64_iff hroom
  · intro m hm hle
    have hrefused := ofInt64_toInt64_of_le hm hle (hroom m hm)
    rw [parse_text]
    exact ⟨hrefused, hrefused⟩

/-- The depth of the greatest number. -/
def greatest : Depth := levels 9223372036854775807

theorem ofInt64_maxValue : ofInt64 Int64.maxValue = .ok greatest := rfl

/-- One level up and down again: on the way there are more levels than a number can tell, and in
the end the number and the text stand for the depth. -/
theorem survives_iff_greatest :
    greatest.after [.ascend] = levels 9223372036854775808 ∧
      ofInt64 (greatest.after [.ascend, .descend]).toInt64 = .ok greatest ∧
      parse (greatest.after [.ascend, .descend]).text = .ok greatest := by
  have hsurvives : Survives Int64.maxValue greatest [.ascend, .descend] :=
    survives_iff ofInt64_maxValue (by decide)
  have htold : (greatest.after [.ascend, .descend]).IsTold := by
    intro m hm
    obtain rfl := Option.some.inj hm
    decide
  exact ⟨rfl, hsurvives.number.2 htold, hsurvives.text.2 htold⟩

/-- **One level more than the greatest number** is too many: neither the number nor the text of the
depth that `ascend` gives stands for it. -/
theorem not_survives :
    ofInt64 Int64.maxValue = .ok greatest ∧
      ofInt64 (greatest.after [.ascend]).toInt64 =
        .error (.validation (.depthNumber (-9223372036854775808))) ∧
      (greatest.after [.ascend]).text = "-9223372036854775808".toList ∧
      parse (greatest.after [.ascend]).text =
        .error (.validation (.depthNumber (-9223372036854775808))) :=
  ⟨rfl, rfl, by decide +kernel, by rw [parse_text]; rfl⟩

end Depth

end Transclude
