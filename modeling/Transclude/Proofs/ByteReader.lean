import Transclude.Markup.Declaration
import Transclude.Text.Bytes

/-!
# Declarations, byte by byte

Declarations are read from characters, but their places are counted in bytes of the UTF-8 form, and
a reader of bytes is the one that a document in memory calls for. `Bytes.read?` is such a reader. It
knows nothing of characters: a gap, a name and a quote are told by single bytes, and a backslash
takes the next byte with it, even if that is the first of several that make up one character.

That the two readers agree (`Bytes.read?_bytes`) rests on one fact about UTF-8. A character outside
ASCII has only bytes from 128 on (`Text.high_of_not_ascii`), and no such byte is a gap, part of a
name, a mark, a quote or a backslash. So the bytes that are left of a character when the backslash
has taken its first one are passed over like any others (`Bytes.upToQuote?_high`).

Main statements:
- `Bytes.read?_bytes`: on the bytes of a text the reader passes over the bytes of what is read from
  its characters, part by part.
- `Declaration.stopAt?_width`: where the comment of a declaration ends that begins at a given byte.
-/

namespace Transclude

/-! ## The reader of bytes -/

namespace Bytes

/-- A space, a tab or a line end. -/
def isGap (b : UInt8) : Bool := b == 0x20 || b == 0x09 || b == 0x0d || b == 0x0a

/-- A letter, a digit, or one of `_`, `.`, `/` and `-`. -/
def isNameByte (b : UInt8) : Bool :=
  0x41 ≤ b && b ≤ 0x5a || 0x61 ≤ b && b ≤ 0x7a || 0x30 ≤ b && b ≤ 0x39 || b == 0x5f || b == 0x2e ||
    b == 0x2f || b == 0x2d

/-- What follows the beginning `lead` of a row of bytes. -/
def after? : Bytes → Bytes → Option Bytes
  | [], t => some t
  | _ :: _, [] => none
  | b :: lead, c :: t => if b = c then after? lead t else none

/-- The bytes up to the closing quote, and those after it. A backslash takes the next byte with it,
unless that is a line feed. -/
def upToQuote? (quote : UInt8) : Bytes → Option (Bytes × Bytes)
  | [] => none
  | [b] => if b = 0x5c then none else if b = quote then some ([], []) else none
  | b :: c :: t =>
    if b = 0x5c then
      if c = 0x0a then none
      else (upToQuote? quote t).map fun (raw, rest) => (b :: c :: raw, rest)
    else if b = quote then some ([], c :: t)
    else (upToQuote? quote (c :: t)).map fun (raw, rest) => (b :: raw, rest)

/-- The parts of the body of a declaration, in bytes. -/
structure Passed where
  /-- Everything before the quoted value. -/
  head : Bytes
  name : Bytes
  quote : UInt8
  raw : Bytes
  /-- The gap after the quoted value. -/
  tail : Bytes
  deriving DecidableEq, Repr

/-- Reads `var(name)=` with its gaps: the name, and what follows. -/
def readName? (t : Bytes) : Option (Bytes × Bytes) := do
  let t ← after? [0x76, 0x61, 0x72] (t.dropWhile isGap)
  let t ← after? [0x28] (t.dropWhile isGap)
  let t := t.dropWhile isGap
  let name := t.takeWhile isNameByte
  if name = [] then none
  let t ← after? [0x29] ((t.dropWhile isNameByte).dropWhile isGap)
  let t ← after? [0x3d] (t.dropWhile isGap)
  return (name, t.dropWhile isGap)

/-- Reads a quoted value, the gap after it and the closer. -/
def readValue? (t : Bytes) : Option (UInt8 × Bytes × Bytes × Bytes) :=
  match t with
  | [] => none
  | quote :: t =>
    if quote = 0x22 ∨ quote = 0x27 then do
      let (raw, t) ← upToQuote? quote t
      let rest ← after? [0x2d, 0x2d, 0x3e] (t.dropWhile isGap)
      return (quote, raw, t.takeWhile isGap, rest)
    else none

/-- Reads a declaration from just after an opener: what it passed over, and the bytes after the
closer. -/
def read? (t : Bytes) : Option (Passed × Bytes) := do
  let (name, value) ← readName? t
  let (quote, raw, tail, rest) ← readValue? value
  return (⟨t.take (t.length - value.length), name, quote, raw, tail⟩, rest)

/-- A class of bytes that is a class of ASCII characters. -/
structure Same (p : UInt8 → Bool) (f : Char → Bool) : Prop where
  high : ∀ b : UInt8, 128 ≤ b.toNat → p b = false
  outside : ∀ c : Char, 128 ≤ c.toNat → f c = false
  ascii : ∀ c : Char, c.toNat < 128 → p c.toUInt8 = f c

/-- To compare a class `p` of bytes with a class `f` of characters it is enough to try the 128
characters of ASCII, if neither has a member outside. -/
theorem same_of_codes {p : UInt8 → Bool} {f : Char → Bool}
    (high : ∀ b : UInt8, 128 ≤ b.toNat → p b = false)
    (outside : ∀ c : Char, 128 ≤ c.toNat → f c = false)
    (codes : ∀ n : Fin 128, p (Char.ofNat n).toUInt8 = f (Char.ofNat n)) : Same p f := by
  refine ⟨high, outside, fun c hc => ?_⟩
  have h := codes ⟨c.toNat, hc⟩
  rwa [Char.ofNat_toNat] at h

/-- The bytes of a gap are those of the characters of a gap. -/
theorem same_isGap : Same isGap Transclude.isGap := by
  refine same_of_codes (fun b hb => ?_) (fun c hc => ?_) (by decide)
  · cases h : isGap b with
    | false => rfl
    | true =>
      simp only [isGap, Bool.or_eq_true, beq_iff_eq] at h
      rcases h with ((rfl | rfl) | rfl) | rfl <;> exact absurd hb (by decide)
  · cases h : Transclude.isGap c with
    | false => rfl
    | true =>
      simp only [Transclude.isGap, Bool.or_eq_true, beq_iff_eq] at h
      rcases h with ((rfl | rfl) | rfl) | rfl <;> exact absurd hc (by decide)

/-- The bytes of a name are those of the characters of a name. -/
theorem same_isNameByte : Same isNameByte isNameChar := by
  refine same_of_codes (fun b hb => ?_) (fun c hc => ?_) (by decide)
  · have hle (n : UInt8) (hn : n.toNat < 128) : ¬b ≤ n := by
      rw [UInt8.le_iff_toNat_le]
      omega
    have hne (n : UInt8) (hn : n.toNat < 128) : b ≠ n := by
      rintro rfl
      omega
    simp [isNameByte, hle, hne]
  · have hne (d : Char) (hd : d.toNat < 128) : c ≠ d := by
      rintro rfl
      omega
    have halnum : c.isAlphanum = false := by
      cases h : c.isAlphanum with
      | false => rfl
      | true =>
        -- letters and digits are three ranges of code points below 128
        have hranges : c.isAlphanum =
            (decide ('A'.val ≤ c.val ∧ c.val ≤ 'Z'.val) || ('a'.val ≤ c.val && c.val ≤ 'z'.val) ||
              '0'.val ≤ c.val && c.val ≤ '9'.val) := rfl
        have hval : c.val.toNat = c.toNat := rfl
        rw [hranges] at h
        simp only [Bool.or_eq_true, Bool.and_eq_true, decide_eq_true_eq,
          UInt32.le_iff_toNat_le] at h
        simp at h
        omega
    simp [isNameChar, halnum, hne]

section Same

variable {p : UInt8 → Bool} {f : Char → Bool}

/-- Dropping the bytes of the class `p` drops the characters of the same class `f`. -/
theorem dropWhile_bytes (h : Same p f) (t : Text) :
    t.bytes.dropWhile p = Text.bytes (t.dropWhile f) := by
  induction t with
  | nil => rfl
  | cons c t ih =>
    rcases Nat.lt_or_ge c.toNat 128 with hc | hc
    · rw [Text.bytes_ascii hc, List.dropWhile_cons, List.dropWhile_cons, h.ascii c hc, ih]
      split
      · rfl
      · rw [Text.bytes_ascii hc]
    · have hf := h.outside c hc
      obtain ⟨b, bs, hbs⟩ := List.exists_cons_of_ne_nil (String.utf8EncodeChar_ne_nil (c := c))
      have hp : p b = false := h.high b (Text.high_of_not_ascii hc b (by simp [hbs]))
      rw [List.dropWhile_cons, if_neg (by simp [hf]), Text.bytes_cons, hbs, List.cons_append,
        List.dropWhile_cons, if_neg (by simp [hp])]

theorem takeWhile_bytes (h : Same p f) (t : Text) :
    t.bytes.takeWhile p = Text.bytes (t.takeWhile f) := by
  have hsplit := List.takeWhile_append_dropWhile (p := p) (l := t.bytes)
  rw [dropWhile_bytes h] at hsplit
  refine List.append_cancel_right (hsplit.trans ?_)
  rw [← Text.bytes_append, List.takeWhile_append_dropWhile]

end Same

theorem bytes_eq_nil {t : Text} : t.bytes = [] ↔ t = [] := by
  cases t with
  | nil => simp
  | cons c t => simp [Text.bytes_cons, String.utf8EncodeChar_ne_nil]

/-- An ASCII beginning `lead` is one for both readers, and what follows it is the same. -/
theorem after?_bytes {lead : Text} (hlead : ∀ c ∈ lead, c.toNat < 128) (t : Text) :
    after? lead.bytes t.bytes = (Text.after? lead t).map Text.bytes := by
  induction lead generalizing t with
  | nil => rfl
  | cons c lead ih =>
    have hc := hlead c List.mem_cons_self
    rw [Text.bytes_ascii hc]
    cases t with
    | nil => rfl
    | cons d t =>
      by_cases hcd : c = d
      · subst hcd
        rw [Text.bytes_ascii hc, after?, if_pos rfl, Text.after?, if_pos rfl]
        exact ih (fun x hx => hlead x (List.mem_cons_of_mem _ hx)) t
      · obtain ⟨b, bs, hbs, hb⟩ := Text.exists_first_byte d
        rw [Text.bytes_cons, hbs, List.cons_append, after?, if_neg (hb c hc (Ne.symm hcd)).symm,
          Text.after?, if_neg hcd]
        rfl

/-- The reader goes past a backslash and the byte behind it, unless that is a line feed. -/
theorem upToQuote?_escape {quote b : UInt8} (hb : b ≠ 0x0a) (t : Bytes) :
    upToQuote? quote (0x5c :: b :: t) =
      (upToQuote? quote t).map fun (raw, rest) => (0x5c :: b :: raw, rest) := by
  rw [upToQuote?, if_pos rfl, if_neg hb]

theorem upToQuote?_quote {quote : UInt8} (hq : quote ≠ 0x5c) (t : Bytes) :
    upToQuote? quote (quote :: t) = some ([], t) := by
  cases t with
  | nil => rw [upToQuote?, if_neg hq, if_pos rfl]
  | cons b t => rw [upToQuote?, if_neg hq, if_pos rfl]

theorem upToQuote?_cons_of_ne {quote b : UInt8} (hb : b ≠ 0x5c) (hq : b ≠ quote) (t : Bytes) :
    upToQuote? quote (b :: t) = (upToQuote? quote t).map fun (raw, rest) => (b :: raw, rest) := by
  cases t with
  | nil => simp [upToQuote?, hb, hq]
  | cons c t => rw [upToQuote?, if_neg hb, if_neg hq]

/-- The bytes `bs` outside ASCII are passed over one by one: none of them is a quote or a
backslash. -/
theorem upToQuote?_high {quote : UInt8} (hq : quote.toNat < 128) {bs : Bytes}
    (hbs : ∀ b ∈ bs, 128 ≤ b.toNat) (t : Bytes) :
    upToQuote? quote (bs ++ t) =
      (upToQuote? quote t).map fun (raw, rest) => (bs ++ raw, rest) := by
  induction bs with
  | nil => simp
  | cons b bs ih =>
    have hb := hbs b List.mem_cons_self
    have hslash : b ≠ 0x5c := by
      rintro rfl
      exact absurd hb (by decide)
    have hquote : b ≠ quote := by
      rintro rfl
      omega
    rw [List.cons_append, upToQuote?_cons_of_ne hslash hquote,
      ih fun x hx => hbs x (List.mem_cons_of_mem _ hx), Option.map_map]
    rfl

section Quote

variable {quote : Char} (hq : isQuote quote = true)

include hq

theorem ascii_of_isQuote : quote.toNat < 128 ∧ quote ≠ '\\' := by
  rcases isQuote_iff.1 hq with rfl | rfl <;> decide

/-- A character `c` that is neither a quote nor a backslash is passed over, however many bytes it
has. -/
theorem upToQuote?_char {c : Char} (hc : c ≠ '\\') (hcq : c ≠ quote) (t : Bytes) :
    upToQuote? quote.toUInt8 (String.utf8EncodeChar c ++ t) =
      (upToQuote? quote.toUInt8 t).map fun (raw, rest) =>
        (String.utf8EncodeChar c ++ raw, rest) := by
  obtain ⟨hascii, -⟩ := ascii_of_isQuote hq
  refine (Nat.lt_or_ge c.toNat 128).elim (fun h => ?_) fun h => ?_
  · have hbytes : String.utf8EncodeChar c = [c.toUInt8] := by
      simpa [Text.bytes_cons] using Text.bytes_ascii h []
    have hslash : c.toUInt8 ≠ 0x5c := mt (Text.toUInt8_inj h (d := '\\') (by decide)).1 hc
    have hquote : c.toUInt8 ≠ quote.toUInt8 := mt (Text.toUInt8_inj h hascii).1 hcq
    rw [hbytes]
    exact upToQuote?_cons_of_ne hslash hquote t
  · refine upToQuote?_high ?_ (Text.high_of_not_ascii h) t
    rwa [Text.toNat_toUInt8 hascii]

/-- A backslash before a character `d` of several bytes takes the first of them with it, and the
others are passed over. For the reader of characters it takes all of `d`. -/
theorem upToQuote?_escape_char {d : Char} (hd : d ≠ '\n') (t : Bytes) :
    upToQuote? quote.toUInt8 (0x5c :: (String.utf8EncodeChar d ++ t)) =
      (upToQuote? quote.toUInt8 t).map fun (raw, rest) =>
        (0x5c :: (String.utf8EncodeChar d ++ raw), rest) := by
  obtain ⟨hascii, -⟩ := ascii_of_isQuote hq
  refine (Nat.lt_or_ge d.toNat 128).elim (fun h => ?_) fun h => ?_
  · have hbytes : String.utf8EncodeChar d = [d.toUInt8] := by
      simpa [Text.bytes_cons] using Text.bytes_ascii h []
    have hlf : d.toUInt8 ≠ 0x0a := mt (Text.toUInt8_inj h (d := '\n') (by decide)).1 hd
    rw [hbytes]
    exact upToQuote?_escape hlf t
  · obtain ⟨b, bs, hbs⟩ := List.exists_cons_of_ne_nil (String.utf8EncodeChar_ne_nil (c := d))
    have hhigh := Text.high_of_not_ascii h
    rw [hbs] at hhigh ⊢
    have hlf : b ≠ 0x0a := by
      rintro rfl
      exact absurd (hhigh _ List.mem_cons_self) (by decide)
    have hquote : quote.toUInt8.toNat < 128 := by rwa [Text.toNat_toUInt8 hascii]
    rw [List.cons_append, upToQuote?_escape hlf,
      upToQuote?_high hquote fun x hx => hhigh x (List.mem_cons_of_mem _ hx), Option.map_map]
    rfl

/-- The closing quote is the same for both readers of `upToQuote?`, also behind escapes of several
bytes. -/
theorem upToQuote?_bytes (t : Text) :
    upToQuote? quote.toUInt8 t.bytes =
      (Value.upToQuote? quote t).map fun (raw, rest) => (Text.bytes raw, Text.bytes rest) := by
  obtain ⟨hascii, hne⟩ := ascii_of_isQuote hq
  have hslash : quote.toUInt8 ≠ 0x5c :=
    mt (Text.toUInt8_inj hascii (d := '\\') (by decide)).1 hne
  fun_induction Value.upToQuote? quote t with
  | case1 => rfl
  | case2 => rfl
  | case3 =>
    rw [Text.bytes_ascii hascii, Text.bytes_nil, upToQuote?_quote hslash]
    rfl
  | case4 c hc hcq =>
    rw [Text.bytes_cons, upToQuote?_char hq hc hcq]
    rfl
  | case5 => rfl
  | case6 d t hd ih =>
    -- the backslash takes one byte with it here, and all of the character there
    rw [Text.bytes_ascii (by decide), Text.bytes_cons]
    rw [show ('\\').toUInt8 = 0x5c from rfl, upToQuote?_escape_char hq hd, ih, Option.map_map,
      Option.map_map]
    rfl
  | case7 d t =>
    rw [Text.bytes_ascii hascii, upToQuote?_quote hslash]
    rfl
  | case8 c d t hc hcq ih =>
    rw [Text.bytes_cons, upToQuote?_char hq hc hcq, ih, Option.map_map, Option.map_map]
    rfl

end Quote

/-- A gap, and then an ASCII word or mark `lead`, is read alike. -/
theorem after?_gap_bytes (lead : Text) (hlead : lead.all (fun c => c.toNat < 128) = true)
    (t : Text) :
    after? lead.bytes (t.bytes.dropWhile isGap) =
      (Text.after? lead (afterGap t)).map Text.bytes := by
  have hascii : ∀ c ∈ lead, c.toNat < 128 := fun c hc =>
    of_decide_eq_true (List.all_eq_true.1 hlead c hc)
  rw [dropWhile_bytes same_isGap, after?_bytes hascii]
  rfl

theorem readName?_bytes (t : Text) :
    readName? t.bytes =
      (Declaration.readName? t).map fun (name, value) => (Text.bytes name, Text.bytes value) := by
  -- the word and the marks are ASCII, so both readers pass over them alike
  have hword (u : Text) : after? [0x76, 0x61, 0x72] (u.bytes.dropWhile isGap) =
      (Text.after? declarationWord (afterGap u)).map Text.bytes :=
    after?_gap_bytes declarationWord rfl u
  have hopen (u : Text) : after? [0x28] (u.bytes.dropWhile isGap) =
      (Text.after? ['('] (afterGap u)).map Text.bytes :=
    after?_gap_bytes ['('] rfl u
  have hclose (u : Text) : after? [0x29] (u.bytes.dropWhile isGap) =
      (Text.after? [')'] (afterGap u)).map Text.bytes :=
    after?_gap_bytes [')'] rfl u
  have hequals (u : Text) : after? [0x3d] (u.bytes.dropWhile isGap) =
      (Text.after? ['='] (afterGap u)).map Text.bytes :=
    after?_gap_bytes ['='] rfl u
  simp only [readName?, Declaration.readName?, Option.bind_eq_bind, Option.pure_def]
  rw [hword]
  cases Text.after? declarationWord (afterGap t) with
  | none => rfl
  | some t₁ =>
  simp only [Option.map_some, Option.bind_some, hopen]
  cases Text.after? ['('] (afterGap t₁) with
  | none => rfl
  | some t₂ =>
  simp only [Option.map_some, Option.bind_some]
  rw [dropWhile_bytes same_isGap, takeWhile_bytes same_isNameByte, dropWhile_bytes same_isNameByte,
    hclose]
  show (if Text.bytes ((afterGap t₂).takeWhile isNameChar) = [] then _ else _) = _
  simp only [bytes_eq_nil]
  show (if (afterGap t₂).takeWhile isNameChar = [] then _ else
    ((Text.after? [')'] (afterGap ((afterGap t₂).dropWhile isNameChar))).map Text.bytes).bind _) = _
  split
  · rfl
  cases Text.after? [')'] (afterGap ((afterGap t₂).dropWhile isNameChar)) with
  | none => rfl
  | some t₃ =>
  simp only [Option.map_some, Option.bind_some, hequals]
  cases Text.after? ['='] (afterGap t₃) with
  | none => rfl
  | some t₄ =>
  simp only [Option.map_some, Option.bind_some]
  rw [dropWhile_bytes same_isGap]
  rfl

/-- The value of a declaration is read alike, with the gap and the closer behind it
(`readValue?`). -/
theorem readValue?_bytes (t : Text) :
    readValue? t.bytes =
      (Declaration.readValue? t).map fun (quote, raw, tail, rest) =>
        (quote.toUInt8, Text.bytes raw, Text.bytes tail, Text.bytes rest) := by
  cases t with
  | nil => rfl
  | cons c t =>
    by_cases hc : c = '"' ∨ c = '\''
    · have hq : isQuote c = true := isQuote_iff.2 hc
      have hbyte : c.toUInt8 = 0x22 ∨ c.toUInt8 = 0x27 := by
        rcases hc with rfl | rfl
        · exact .inl rfl
        · exact .inr rfl
      have hclose (u : Text) : after? [0x2d, 0x2d, 0x3e] (u.bytes.dropWhile isGap) =
          (Text.after? closer (afterGap u)).map Text.bytes :=
        after?_gap_bytes closer rfl u
      rw [Text.bytes_ascii (ascii_of_isQuote hq).1, readValue?, if_pos hbyte, upToQuote?_bytes hq,
        Declaration.readValue?, if_pos hc]
      simp only [Option.bind_eq_bind, Option.pure_def]
      cases Value.upToQuote? c t with
      | none => rfl
      | some p =>
      simp only [Option.map_some, Option.bind_some, hclose]
      cases Text.after? closer (afterGap p.2) with
      | none => rfl
      | some rest =>
      simp only [Option.map_some, Option.bind_some]
      rw [takeWhile_bytes same_isGap]
      rfl
    · -- the first byte of another character is no quote either
      obtain ⟨b, bs, hbs, hb⟩ := Text.exists_first_byte c
      have hbyte : ¬(b = 0x22 ∨ b = 0x27) := by
        rintro (h | h)
        · exact hb '"' (by decide) (fun h => hc (.inl h)) h
        · exact hb '\'' (by decide) (fun h => hc (.inr h)) h
      rw [Text.bytes_cons, hbs, List.cons_append, readValue?, if_neg hbyte, Declaration.readValue?,
        if_neg hc]
      rfl

end Bytes

/-- The parts of a declaration, in bytes. -/
def Declaration.bytes (d : Declaration) : Bytes.Passed :=
  ⟨d.head.bytes, d.name.bytes, d.quote.toUInt8, d.raw.bytes, d.tail.bytes⟩

namespace Bytes

/-- **The two readers agree**: what the reader of bytes passes over are the bytes of what
`Declaration.read?` reads from the characters, and it finds nothing where that finds nothing. -/
theorem read?_bytes (t : Text) :
    read? t.bytes = (Declaration.read? t).map fun (d, rest) => (d.bytes, Text.bytes rest) := by
  simp only [read?, Declaration.read?, Option.bind_eq_bind, Option.pure_def]
  rw [readName?_bytes]
  cases hn : Declaration.readName? t with
  | none => rfl
  | some p =>
  obtain ⟨name, value⟩ := p
  simp only [Option.map_some, Option.bind_some, readValue?_bytes]
  cases Declaration.readValue? value with
  | none => rfl
  | some q =>
  obtain ⟨head, -, rfl⟩ := Declaration.isHead_of_readName? hn
  simp [Declaration.bytes, Text.bytes_append]

end Bytes

/-- Where the comment of a declaration ends whose opener stands at byte `start` of a document. -/
def Declaration.stopAt? (t : Text) (start : Nat) : Option Nat :=
  (Bytes.read? (t.bytes.drop (start + opener.length))).map fun (_, rest) =>
    t.bytes.length - rest.length

/-- Behind the bytes of `a` and an opener stand the bytes of `b`. -/
theorem Declaration.drop_opener (a b : Text) :
    (Text.bytes (a ++ (opener ++ b))).drop (Text.width a + opener.length) = b.bytes := by
  have h : Text.width a + opener.length = Text.width (a ++ opener) := by
    rw [Text.width_append]
    rfl
  rw [h, ← List.append_assoc, Text.drop_bytes]

/-- Where the reader of bytes stops behind an opener, told by widths: behind the declaration `d` of
the characters, and nowhere if there is none. -/
theorem Declaration.stopAt?_width (a b : Text) :
    stopAt? (a ++ (opener ++ b)) (Text.width a) =
      (read? b).map fun (_, rest) => Text.width (a ++ (opener ++ b)) - Text.width rest := by
  rw [stopAt?, drop_opener, Bytes.read?_bytes, Option.map_map]
  simp only [Function.comp_def, Text.length_bytes]

end Transclude
