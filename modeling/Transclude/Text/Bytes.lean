import Transclude.Text.Basic

/-!
# Bytes

What a file system calls an entry, and what it is given as a path, are bytes. Most of them are the
UTF-8 form of a text, `Text.bytes`, and a text has only one such form. Others are the form of no
text at all. Three functions read bytes again:

- `Bytes.char?` is the character at the beginning, `ByteArray.utf8DecodeChar?` of the core library;
- `Bytes.shown` is the text that messages show. It exists for all bytes: each stretch that is no
  character counts as U+FFFD, and a stretch is as long as it could still have become one character
  (`Bytes.broken`);
- `Bytes.text?` is the text whose form the bytes are, and none if there is no such text.

`Bytes.shown_bytes` says that `shown` reads back what `Text.bytes` wrote. So bytes are the form of
a text exactly when they are the form of the text that is shown for them, which is how `text?`
decides it, and it reads no other bytes (`Bytes.text?_eq_some_iff`).
-/

namespace Transclude

/-- Bytes, one after the other. -/
abbrev Bytes := List UInt8

namespace Text

/-- The bytes of the UTF-8 form of a text. -/
def bytes (t : Text) : Bytes := t.flatMap String.utf8EncodeChar

@[simp] theorem bytes_nil : bytes [] = [] := rfl

theorem bytes_cons (c : Char) (t : Text) :
    bytes (c :: t) = String.utf8EncodeChar c ++ bytes t := rfl

theorem bytes_append (s t : Text) : bytes (s ++ t) = bytes s ++ bytes t := List.flatMap_append

/-- The width of a text counts its bytes, so offsets in `t` are offsets in `bytes t`. -/
theorem length_bytes (t : Text) : (bytes t).length = width t := by
  induction t with
  | nil => rfl
  | cons c t ih => rw [bytes_cons, List.length_append, String.length_utf8EncodeChar, ih, width_cons]

/-- Behind the width of `s` stand the bytes of what follows `s`: no cut between two characters goes
through one. -/
theorem drop_bytes (s t : Text) : (bytes (s ++ t)).drop (width s) = bytes t := by
  rw [bytes_append, ← length_bytes, List.drop_left]

/-! ## ASCII characters

An ASCII character is one byte, and that byte stands in the form of a text only for that
character (`mem_bytes_iff`): all bytes of the others have the highest bit set. -/

/-- An ASCII character `c` is its code point, as one byte. -/
theorem encode_ascii {c : Char} (hc : c.toNat < 128) : String.utf8EncodeChar c = [c.toUInt8] := by
  have hsize : c.utf8Size = 1 := by
    rw [Char.utf8Size_eq_one_iff, UInt32.le_iff_toNat_le]
    exact Nat.le_of_lt_succ hc
  rw [String.utf8EncodeChar_eq_singleton hsize]
  rfl

theorem bytes_ascii {c : Char} (hc : c.toNat < 128) (t : Text) :
    bytes (c :: t) = c.toUInt8 :: bytes t := by
  rw [bytes_cons, encode_ascii hc, List.singleton_append]

/-- The byte of an ASCII character has its code point as a number. -/
theorem toNat_toUInt8 {c : Char} (hc : c.toNat < 128) : c.toUInt8.toNat = c.toNat := by
  have h : c.toUInt8.toNat = c.toNat % 256 := UInt32.toNat_toUInt8 c.val
  omega

theorem toUInt8_inj {c d : Char} (hc : c.toNat < 128) (hd : d.toNat < 128) :
    c.toUInt8 = d.toUInt8 ↔ c = d := by
  constructor
  · intro h
    have h' : c.toNat = d.toNat := by rw [← toNat_toUInt8 hc, ← toNat_toUInt8 hd, h]
    rw [← Char.ofNat_toNat c, ← Char.ofNat_toNat d, h']
  · rintro rfl
    rfl

/-- Every byte of a character outside ASCII has its highest bit set. So no such byte is taken for an
ASCII character. -/
theorem high_of_not_ascii {c : Char} (hc : 128 ≤ c.toNat) :
    ∀ b ∈ String.utf8EncodeChar c, 128 ≤ b.toNat := by
  have hor (x y : UInt8) (hy : 128 ≤ y.toNat) : 128 ≤ (x ||| y).toNat := by
    rw [UInt8.toNat_or]
    exact Nat.le_trans hy Nat.right_le_or
  rcases Char.utf8Size_eq c with h | h | h | h
  · -- a single byte is an ASCII character
    rw [Char.utf8Size_eq_one_iff, UInt32.le_iff_toNat_le] at h
    exact absurd (Nat.lt_of_le_of_lt h (by decide : (127 : UInt32).toNat < 128)) (Nat.not_lt.2 hc)
  · rw [String.utf8EncodeChar_eq_cons_cons h]
    simp only [List.mem_cons, List.not_mem_nil, or_false]
    rintro b (rfl | rfl) <;> exact hor _ _ (by decide)
  · rw [String.utf8EncodeChar_eq_cons_cons_cons h]
    simp only [List.mem_cons, List.not_mem_nil, or_false]
    rintro b (rfl | rfl | rfl) <;> exact hor _ _ (by decide)
  · rw [String.utf8EncodeChar_eq_cons_cons_cons_cons h]
    simp only [List.mem_cons, List.not_mem_nil, or_false]
    rintro b (rfl | rfl | rfl | rfl) <;> exact hor _ _ (by decide)

/-- The first byte `b` of a character `c` tells it from every ASCII character `d` but itself. -/
theorem exists_first_byte (c : Char) :
    ∃ b bs, String.utf8EncodeChar c = b :: bs ∧
      ∀ d : Char, d.toNat < 128 → c ≠ d → b ≠ d.toUInt8 := by
  rcases Nat.lt_or_ge c.toNat 128 with hc | hc
  · exact ⟨_, [], encode_ascii hc, fun d hd hne => mt (toUInt8_inj hc hd).1 hne⟩
  · obtain ⟨b, bs, hbs⟩ := List.exists_cons_of_ne_nil (String.utf8EncodeChar_ne_nil (c := c))
    have hb : 128 ≤ b.toNat := high_of_not_ascii hc b (by simp [hbs])
    refine ⟨b, bs, hbs, fun d hd _ h => ?_⟩
    rw [h, toNat_toUInt8 hd] at hb
    omega

/-- The byte of an ASCII character `d` is a byte of `c` only if `c` is `d`. -/
theorem mem_encode_iff {c d : Char} (hd : d.toNat < 128) :
    d.toUInt8 ∈ String.utf8EncodeChar c ↔ c = d := by
  constructor
  · intro h
    rcases Nat.lt_or_ge c.toNat 128 with hc | hc
    · rw [encode_ascii hc, List.mem_singleton] at h
      exact (toUInt8_inj hc hd).1 h.symm
    · have hhigh := high_of_not_ascii hc _ h
      rw [toNat_toUInt8 hd] at hhigh
      omega
  · rintro rfl
    rw [encode_ascii hd]
    exact List.mem_singleton_self _

/-- A text holds an ASCII character exactly if its bytes hold that of the character, wherever it may
stand. -/
theorem mem_bytes_iff {d : Char} (hd : d.toNat < 128) {t : Text} : d.toUInt8 ∈ bytes t ↔ d ∈ t := by
  rw [bytes, List.mem_flatMap]
  simp only [mem_encode_iff hd, exists_eq_right]

/-- A text begins with an ASCII character `d` exactly if its first byte is that of `d`. -/
theorem head?_bytes_iff {d : Char} (hd : d.toNat < 128) {t : Text} :
    (bytes t).head? = some d.toUInt8 ↔ t.head? = some d := by
  cases t with
  | nil => simp
  | cons c t =>
    obtain ⟨b, bs, hbytes, hfirst⟩ := exists_first_byte c
    rw [bytes_cons, hbytes, List.cons_append, List.head?_cons, List.head?_cons, Option.some_inj,
      Option.some_inj]
    constructor
    · intro h
      exact Classical.byContradiction fun hne => hfirst d hd hne h
    · rintro rfl
      rw [encode_ascii hd] at hbytes
      exact (List.cons.inj hbytes).1.symm

/-- Splitting commutes with taking the bytes: the parts of a text between ASCII characters `d` have
the bytes that stand between theirs. -/
theorem splitOn_bytes {d : Char} (hd : d.toNat < 128) (t : Text) :
    (bytes t).splitOn d.toUInt8 = (t.splitOn d).map bytes := by
  induction t with
  | nil => rfl
  | cons c t ih =>
    rw [bytes_cons, List.splitOn_cons_eq_if_modifyHead]
    obtain ⟨first, rest, hsplit⟩ := List.exists_cons_of_ne_nil (List.splitOn_ne_nil d t)
    by_cases hc : c = d
    · rw [hc, encode_ascii hd, List.singleton_append, List.splitOn_cons_eq_if_modifyHead,
        if_pos (beq_self_eq_true _), if_pos (beq_self_eq_true _), ih]
      rfl
    · have hbyte : d.toUInt8 ∉ String.utf8EncodeChar c := mt (mem_encode_iff hd).1 hc
      rw [splitOn_append_of_not_mem hbyte, if_neg (by simpa using hc), ih, hsplit]
      rfl

end Text

namespace Bytes

/-- The bytes that a string is stored as, its UTF-8 form. -/
def ofString (s : String) : Bytes := s.toByteArray.data.toList

/-- The bytes of a literal are those of its characters, so that the lemmas on `Text.bytes` apply to
literals too. -/
theorem ofString_eq_bytes (s : String) : ofString s = Text.bytes s.toList := by
  have hlist : s.toByteArray = s.toList.utf8Encode := by
    rw [← String.toByteArray_ofList, String.ofList_toList]
  rw [ofString, hlist, List.utf8Encode, List.toList_data_toByteArray, Text.bytes]

/-- The character whose UTF-8 form stands at the beginning. -/
def char? (b : Bytes) : Option Char := b.toByteArray.utf8DecodeChar? 0

/-- Whether the byte `b` may come second in a character of three or four bytes that begins with
`a`. -/
def goesOn (a b : UInt8) : Bool :=
  if a = 0xE0 then 0xA0 ≤ b && b ≤ 0xBF
  else if a = 0xED then 0x80 ≤ b && b ≤ 0x9F
  else if a = 0xF0 then 0x90 ≤ b && b ≤ 0xBF
  else if a = 0xF4 then 0x80 ≤ b && b ≤ 0x8F
  else 0xE1 ≤ a && a ≤ 0xF3 && 0x80 ≤ b && b ≤ 0xBF

/-- The number of bytes at the beginning that are shown as one character though they are none: as
many as could have become one, and at least one byte. -/
def broken : Bytes → Nat
  | a :: b :: rest =>
    if !goesOn a b then 1
    else if 0xF0 ≤ a ∧ rest.head?.any (fun c => 0x80 ≤ c && c ≤ 0xBF) then 3
    else 2
  | _ => 1

/-- The characters that show some bytes, the first `skip` of which have been shown already. -/
def shownFrom : (skip : Nat) → Bytes → Text
  | _, [] => []
  | skip + 1, _ :: rest => shownFrom skip rest
  | 0, b :: rest =>
    match char? (b :: rest) with
    | some c => c :: shownFrom (c.utf8Size - 1) rest
    | none => '\uFFFD' :: shownFrom (broken (b :: rest) - 1) rest

/-- The text that messages show for some bytes. -/
def shown (b : Bytes) : Text := shownFrom 0 b

/-- The text whose UTF-8 form some bytes are; none if they are not UTF-8. -/
def text? (b : Bytes) : Option Text := if Text.bytes (shown b) = b then some (shown b) else none

/-- What `char?` reads is the character that stands there: its form is a beginning of `b`. -/
theorem char?_eq_some_iff {b : Bytes} {c : Char} :
    char? b = some c ↔ ∃ rest, b = String.utf8EncodeChar c ++ rest := by
  constructor
  · intro h
    refine ⟨(b.toByteArray.extract c.utf8Size b.toByteArray.size).data.toList, ?_⟩
    have heq := congrArg (fun a => a.data.toList) (ByteArray.eq_of_utf8DecodeChar?_eq_some h)
    simpa using heq
  · rintro ⟨rest, rfl⟩
    rw [char?, List.toByteArray_append]
    exact ByteArray.utf8DecodeChar?_utf8EncodeChar_append

/-- While bytes of a character are skipped nothing is shown, so behind a part `s` of that length
everything goes on as from the start. -/
theorem shownFrom_append (s b : Bytes) : shownFrom s.length (s ++ b) = shown b := by
  induction s with
  | nil => rfl
  | cons a s ih => exact ih

/-- A character is shown as itself, and what stands behind its bytes is shown as it would be
alone. -/
theorem shown_encode_append (c : Char) (b : Bytes) :
    shown (String.utf8EncodeChar c ++ b) = c :: shown b := by
  obtain ⟨a, s, hs⟩ := List.exists_cons_of_ne_nil (String.utf8EncodeChar_ne_nil (c := c))
  have hchar : char? (a :: (s ++ b)) = some c := char?_eq_some_iff.2 ⟨b, by rw [hs]; rfl⟩
  have hlength : c.utf8Size - 1 = s.length := by
    rw [← String.length_utf8EncodeChar, hs, List.length_cons, Nat.add_sub_cancel]
  rw [hs, List.cons_append, shown, shownFrom, hchar]
  simp only [hlength, shownFrom_append]

/-- **The form of a text is shown as that text.** Bytes that are not UTF-8 are the only ones that
are replaced. -/
theorem shown_bytes (t : Text) : shown (Text.bytes t) = t := by
  induction t with
  | nil => rfl
  | cons c t ih => rw [Text.bytes_cons, shown_encode_append, ih]

/-- An ASCII character `d` is shown only where its own byte stands: a replacement character is not
ASCII, and the bytes of other characters are not either. -/
theorem mem_of_mem_shownFrom {d : Char} (hd : d.toNat < 128) {skip : Nat} {b : Bytes}
    (h : d ∈ shownFrom skip b) : d.toUInt8 ∈ b := by
  induction b generalizing skip with
  | nil =>
    rw [shownFrom] at h
    exact absurd h List.not_mem_nil
  | cons a rest ih =>
    cases skip with
    | succ skip => exact List.mem_cons_of_mem _ (ih h)
    | zero =>
      rw [shownFrom] at h
      split at h
      · next c hc =>
        rcases List.mem_cons.1 h with rfl | h
        · obtain ⟨more, hmore⟩ := char?_eq_some_iff.1 hc
          rw [hmore]
          exact List.mem_append_left _ ((Text.mem_encode_iff hd).2 rfl)
        · exact List.mem_cons_of_mem _ (ih h)
      · rcases List.mem_cons.1 h with rfl | h
        · exact absurd hd (by decide)
        · exact List.mem_cons_of_mem _ (ih h)

/-- An ASCII character `d` in what `shown` makes of `b` has its byte in `b`. -/
theorem mem_of_mem_shown {d : Char} (hd : d.toNat < 128) {b : Bytes} (h : d ∈ shown b) :
    d.toUInt8 ∈ b := mem_of_mem_shownFrom hd h

/-- **A text is read from its own form and from no other bytes.** In particular `text?` has no
answer where `b` is not UTF-8. -/
theorem text?_eq_some_iff {b : Bytes} {t : Text} : text? b = some t ↔ b = Text.bytes t := by
  rw [text?]
  constructor
  · intro h
    split at h
    · next heq => exact heq.symm.trans (congrArg Text.bytes (Option.some.inj h))
    · cases h
  · rintro rfl
    rw [shown_bytes, if_pos rfl]


end Bytes

/-- Different texts have different bytes. -/
theorem Text.bytes_injective {s t : Text} (h : bytes s = bytes t) : s = t := by
  rw [← Bytes.shown_bytes s, h, Bytes.shown_bytes]

theorem Text.bytes_eq_nil_iff {t : Text} : bytes t = [] ↔ t = [] :=
  ⟨fun h => bytes_injective (h.trans bytes_nil.symm), fun h => by rw [h, bytes_nil]⟩

end Transclude
