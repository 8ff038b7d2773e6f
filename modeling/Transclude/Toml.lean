import Transclude.Text.Basic

/-!
# TOML documents

A TOML document is a table of named values: texts, whole numbers, truth values, arrays and tables.
Numbers with a fraction and points in time are no values here.

- Whether a table may still grow depends on how it came to be (`Origin`). A table with a header of
  its own is complete when the next header begins, apart from tables below it; a table that was
  written inline is complete at once. Whether an entry may be added to its table is up to the table
  (`Table.addValue`).
- Text stands between double quotes, where a backslash begins an escape, or between single quotes,
  where it does not. Between three quotes it may have several lines: a line end directly after the
  opening quotes is not part of it, every line end counts as one line feed, and between double
  quotes a backslash at the end of a line joins it with the next text. A reader gets what follows
  the opening quotes, and returns the text with what follows its closing quotes.
- A document is read line by line: an empty line, a header of a table or of an array's next table,
  or a key with its value. Arrays and inline tables may go over several lines, with remarks between
  their values and a comma after the last.

Readers return what they read with what follows it. Those that call themselves count down, from
twice the length of the text: of two calls in a row one at least goes on in the text.
-/

namespace Transclude

/-! ## Values and tables -/

namespace Toml

/-- How a table came to be. -/
inductive Origin where
  /-- It is the document, or it has a header. -/
  | header
  /-- It only stands above a table with a header. -/
  | implied
  /-- It is the first part of a dotted key. -/
  | dotted
  /-- It is written between braces. -/
  | inline
  deriving DecidableEq, Repr

/-- A value of a document. -/
inductive Value where
  | string (t : Text)
  | integer (n : Int64)
  | boolean (b : Bool)
  /-- An array. One that `grows` is made of tables with headers in double brackets. -/
  | array (grows : Bool) (items : List Value)
  | table (origin : Origin) (entries : List (Text × Value))

/-- A table, with its entries in the order in which they were added. -/
structure Table where
  origin : Origin
  entries : List (Text × Value)

namespace Table

/-- The table without entries. -/
def empty (origin : Origin) : Table := ⟨origin, []⟩

/-- The table as a value. -/
def value (t : Table) : Value := .table t.origin t.entries

/-- The value of a key. -/
def get? (t : Table) (key : Text) : Option Value := t.entries.lookup key

/-- Entries with a value for a key, in the place of the one it had. -/
def putEntry (key : Text) (v : Value) : List (Text × Value) → List (Text × Value)
  | [] => [(key, v)]
  | (k, w) :: l => if k = key then (key, v) :: l else (k, w) :: putEntry key v l

/-- With a value for a key, in the place of the one it had. -/
def put (t : Table) (key : Text) (v : Value) : Table := ⟨t.origin, putEntry key v t.entries⟩

/-- Changes the table at the end of a path of keys. Tables that are missing on the way come to be,
with the origin `new`, and of an array of tables the last is meant. The way does not lead through
inline tables, and that of a dotted key not through tables with headers. -/
def within (new : Origin) (change : Table → Option Table) : List Text → Table → Option Table
  | [], t => change t
  | key :: path, t =>
    match t.get? key with
    | none => (within new change path (empty new)).map fun s => t.put key s.value
    | some (.table origin entries) =>
      if origin = .inline || (new = .dotted && origin = .header) then none
      else (within new change path ⟨origin, entries⟩).map fun s => t.put key s.value
    | some (.array true items) =>
      match items.getLast? with
      | some (.table origin entries) =>
        (within new change path ⟨origin, entries⟩).map fun s =>
          t.put key (.array true (items.dropLast ++ [s.value]))
      | _ => none
    | some _ => none

/-- With the value of a key, dotted or not. The key must not have a value, and the parts before its
last must lead to a table that only dotted keys made. -/
def addValue (path : List Text) (key : Text) (v : Value) (t : Table) : Option Table :=
  let change (s : Table) : Option Table :=
    if path ≠ [] ∧ s.origin ≠ .dotted then none
    else if (s.get? key).isSome then none
    else some (s.put key v)
  within .dotted change path t

/-- With a table for a header. A table that was only implied before becomes it. -/
def addTable (path : List Text) (key : Text) (t : Table) : Option Table :=
  let change (s : Table) : Option Table :=
    match s.get? key with
    | none => some (s.put key (empty .header).value)
    | some (.table .implied entries) => some (s.put key (.table .header entries))
    | some _ => none
  within .implied change path t

/-- With one more table for a header in double brackets. -/
def addRow (path : List Text) (key : Text) (t : Table) : Option Table :=
  let change (s : Table) : Option Table :=
    match s.get? key with
    | none => some (s.put key (.array true [(empty .header).value]))
    | some (.array true items) => some (s.put key (.array true (items ++ [(empty .header).value])))
    | some _ => none
  within .implied change path t

end Table

end Toml

/-! ## Quoted text -/

namespace Toml

/-- The characters that may stand for themselves: all but control characters, and the tab. -/
def isPlain (c : Char) : Bool := c = '\t' || (0x20 ≤ c.toNat && c.toNat ≠ 0x7F)

/-- The characters between words. -/
def isSpace (c : Char) : Bool := c = ' ' || c = '\t'

/-- The value of a hexadecimal digit. -/
def hexDigit? (c : Char) : Option Nat :=
  if c.isDigit then some (c.toNat - '0'.toNat)
  else if 'a' ≤ c ∧ c ≤ 'f' then some (c.toNat - 'a'.toNat + 10)
  else if 'A' ≤ c ∧ c ≤ 'F' then some (c.toNat - 'A'.toNat + 10)
  else none

/-- The number with these digits in a base up to sixteen. -/
def readDigits? (base n : Nat) : Text → Option Nat
  | [] => some n
  | c :: t =>
    ((hexDigit? c).filter (· < base)).bind fun d => readDigits? base (base * n + d) t

/-- The character with these hexadecimal digits. -/
def charOfHex? (digits : Text) : Option Char :=
  (readDigits? 16 0 digits).bind fun n =>
    if h : n.isValidChar then some (Char.ofNatAux n h) else none

/-- The character of an escape, and what follows it. -/
def escape? : Text → Option (Char × Text)
  | 'b' :: r => some ('\x08', r)
  | 't' :: r => some ('\t', r)
  | 'n' :: r => some ('\n', r)
  | 'f' :: r => some ('\x0c', r)
  | 'r' :: r => some ('\r', r)
  | 'e' :: r => some ('\x1b', r)
  | '"' :: r => some ('"', r)
  | '\\' :: r => some ('\\', r)
  | 'x' :: a :: b :: r => (charOfHex? [a, b]).map (·, r)
  | 'u' :: a :: b :: c :: d :: r => (charOfHex? [a, b, c, d]).map (·, r)
  | 'U' :: a :: b :: c :: d :: e :: f :: g :: h :: r =>
    (charOfHex? [a, b, c, d, e, f, g, h]).map (·, r)
  | _ => none

theorem length_escape? {t r : Text} {c : Char} (h : escape? t = some (c, r)) :
    r.length < t.length := by
  unfold escape? at h
  split at h <;>
    first
    | (simp only [Option.some.injEq, Prod.mk.injEq] at h; obtain ⟨-, rfl⟩ := h; simp)
    | (simp only [Option.map_eq_some_iff, Prod.mk.injEq] at h
       obtain ⟨_, -, -, rfl⟩ := h
       simp only [List.length_cons]
       omega)
    | simp at h

/-- Text after a double quote. -/
def basic? (t : Text) : Option (Text × Text) :=
  match t with
  | [] => none
  | '"' :: r => some ([], r)
  | '\\' :: r =>
    match _h : escape? r with
    | some (c, r') => (basic? r').map fun (s, rest) => (c :: s, rest)
    | none => none
  | c :: r => if isPlain c then (basic? r).map fun (s, rest) => (c :: s, rest) else none
termination_by t.length
decreasing_by
  · have := length_escape? _h
    simp only [List.length_cons]
    omega
  · simp

/-- Text after a single quote. -/
def literal? : Text → Option (Text × Text)
  | [] => none
  | c :: r =>
    if c = '\'' then some ([], r)
    else if isPlain c then (literal? r).map fun (s, rest) => (c :: s, rest)
    else none

/-- Closing quotes may have one or two quotes before them that belong to the text: these, and what
follows the closing quotes. -/
def afterQuotes (quote : Char) (t : Text) : Text × Text :=
  let more := (t.take 2).takeWhile (· = quote)
  (more, t.drop more.length)

/-- Without the spaces and line ends at the beginning. -/
def dropLines : Text → Text
  | '\r' :: '\n' :: t => dropLines t
  | c :: t => if isSpace c || c = '\n' then dropLines t else c :: t
  | [] => []

/-- What follows the line end with which a text begins, apart from spaces. -/
def lineEnd? (t : Text) : Option Text :=
  match t.dropWhile isSpace with
  | '\n' :: r => some r
  | '\r' :: '\n' :: r => some r
  | _ => none

theorem length_dropLines (t : Text) : (dropLines t).length ≤ t.length := by
  fun_induction dropLines t with
  | case1 t ih => simp only [List.length_cons]; omega
  | case2 c t _ _ ih => simp only [List.length_cons]; omega
  | case3 => exact Nat.le_refl _
  | case4 => exact Nat.le_refl _

theorem length_lineEnd? {t r : Text} (h : lineEnd? t = some r) : r.length < t.length := by
  have hd := (t.dropWhile_sublist isSpace).length_le
  unfold lineEnd? at h
  split at h
  all_goals
    first
    | (rename_i heq
       simp only [heq, List.length_cons, Option.some.injEq] at hd h
       subst h
       omega)
    | simp at h

/-- Text of several lines after double quotes. -/
def basicLines? (t : Text) : Option (Text × Text) :=
  match t with
  | [] => none
  | '"' :: '"' :: '"' :: r => some (afterQuotes '"' r)
  | '\\' :: r =>
    match _hl : lineEnd? r with
    | some r' => basicLines? (dropLines r')
    | none =>
      match _he : escape? r with
      | some (c, r') => (basicLines? r').map fun (s, rest) => (c :: s, rest)
      | none => none
  | '\r' :: '\n' :: r => (basicLines? r).map fun (s, rest) => ('\n' :: s, rest)
  | c :: r =>
    if c = '\n' || isPlain c then (basicLines? r).map fun (s, rest) => (c :: s, rest) else none
termination_by t.length
decreasing_by
  · have := length_lineEnd? _hl
    have := length_dropLines r'
    simp only [List.length_cons]
    omega
  · have := length_escape? _he
    simp only [List.length_cons]
    omega
  · simp only [List.length_cons]
    omega
  · simp

/-- Text of several lines after single quotes. -/
def literalLines? : Text → Option (Text × Text)
  | [] => none
  | '\'' :: '\'' :: '\'' :: r => some (afterQuotes '\'' r)
  | '\r' :: '\n' :: r => (literalLines? r).map fun (s, rest) => ('\n' :: s, rest)
  | c :: r =>
    if c = '\n' || isPlain c then (literalLines? r).map fun (s, rest) => (c :: s, rest) else none

/-- Without one line end at the beginning. -/
def dropLineEnd : Text → Text
  | '\n' :: t => t
  | '\r' :: '\n' :: t => t
  | t => t

/-- Quoted text on one line, with its quotes. -/
def quoted? : Text → Option (Text × Text)
  | '"' :: r => basic? r
  | '\'' :: r => literal? r
  | _ => none

/-- Quoted text, with its quotes. -/
def string? : Text → Option (Text × Text)
  | '"' :: '"' :: '"' :: r => basicLines? (dropLineEnd r)
  | '\'' :: '\'' :: '\'' :: r => literalLines? (dropLineEnd r)
  | t => quoted? t

end Toml

/-! ## Documents -/

namespace Toml

/-! ## Numbers and other words -/

/-- The characters of a key without quotes. -/
def isBare (c : Char) : Bool := c.isAlphanum || c = '_' || c = '-'

/-- The number with these digits, of which each two may have one underscore between them. -/
def digits? (base : Nat) (t : Text) : Option Nat :=
  let groups := t.splitOn '_'
  if [] ∈ groups then none else readDigits? base 0 groups.flatten

/-- A decimal number without sign. Only the number zero begins with a zero. -/
def decimal? (t : Text) : Option Nat :=
  if t.head? = some '0' ∧ t ≠ ['0'] then none else digits? 10 t

/-- A whole number. One that does not begin with `0x`, `0o` or `0b` is decimal and may have a
sign. -/
def whole? : Text → Option Int
  | '0' :: 'x' :: t => (digits? 16 t).map fun n => n
  | '0' :: 'o' :: t => (digits? 8 t).map fun n => n
  | '0' :: 'b' :: t => (digits? 2 t).map fun n => n
  | '+' :: t => (decimal? t).map fun n => n
  | '-' :: t => (decimal? t).map fun n => -n
  | t => (decimal? t).map fun n => n

/-- The value of a word: a truth value, or a whole number of 64 bits. -/
def word? (t : Text) : Option Value :=
  if t = "true".toList then some (.boolean true)
  else if t = "false".toList then some (.boolean false)
  else
    (whole? t).bind fun n =>
      if Int64.minValue.toInt ≤ n ∧ n ≤ Int64.maxValue.toInt then some (.integer (Int64.ofInt n))
      else none

/-! ## Gaps and keys -/

/-- Without spaces, line ends and remarks at the beginning. A remark reaches to the end of its
line. -/
def dropGaps? (inRemark : Bool) : Text → Option Text
  | [] => some []
  | '\r' :: '\n' :: t => dropGaps? false t
  | c :: t =>
    if c = '\n' then dropGaps? false t
    else if inRemark then (if isPlain c then dropGaps? true t else none)
    else if isSpace c then dropGaps? false t
    else if c = '#' then dropGaps? true t
    else some (c :: t)

/-- Whether a line may end here, apart from spaces and a remark. -/
def endsLine (t : Text) : Bool :=
  match t.dropWhile isSpace with
  | [] => true
  | '#' :: _ => true
  | r => (lineEnd? r).isSome

/-- One part of a key. -/
def keyPart? : Text → Option (Text × Text)
  | '"' :: r => basic? r
  | '\'' :: r => literal? r
  | t =>
    let part := t.takeWhile isBare
    if part = [] then none else some (part, t.dropWhile isBare)

/-- A key: the parts before its last, and its last part. Spaces may stand around the parts. -/
def key? : Nat → Text → Option ((List Text × Text) × Text)
  | 0, _ => none
  | n + 1, t => do
    let (part, r) ← keyPart? (t.dropWhile isSpace)
    match r.dropWhile isSpace with
    | '.' :: r =>
      let ((path, key), r) ← key? n r
      return ((part :: path, key), r)
    | r => return (([], part), r)

/-! ## Values -/

mutual

/-- A value. -/
def value? : Nat → Text → Option (Value × Text)
  | 0, _ => none
  | n + 1, t =>
    match t with
    | '[' :: r => (items? n r).map fun (items, r) => (.array false items, r)
    | '{' :: r => (members? n (.empty .inline) r).map fun (table, r) => (table.value, r)
    | '"' :: _ => (string? t).map fun (s, r) => (.string s, r)
    | '\'' :: _ => (string? t).map fun (s, r) => (.string s, r)
    | _ =>
      let isWordChar (c : Char) : Bool := isBare c || c = '+'
      (word? (t.takeWhile isWordChar)).map (·, t.dropWhile isWordChar)

/-- The rest of an array, after its opening bracket or after a comma. -/
def items? : Nat → Text → Option (List Value × Text)
  | 0, _ => none
  | n + 1, t =>
    match dropGaps? false t with
    | none => none
    | some (']' :: r) => some ([], r)
    | some t =>
      match value? n t with
      | none => none
      | some (v, r) =>
        match dropGaps? false r with
        | some (',' :: r) => (items? n r).map fun (items, r) => (v :: items, r)
        | some (']' :: r) => some ([v], r)
        | _ => none

/-- The rest of an inline table, after its opening brace or after a comma. -/
def members? : Nat → Table → Text → Option (Table × Text)
  | 0, _, _ => none
  | n + 1, table, t =>
    match dropGaps? false t with
    | none => none
    | some ('}' :: r) => some (table, r)
    | some t =>
      match key? n t with
      | some ((path, key), '=' :: r) =>
        match value? n (r.dropWhile isSpace) with
        | none => none
        | some (v, r) =>
          match table.addValue path key v, dropGaps? false r with
          | some table, some (',' :: r) => members? n table r
          | some table, some ('}' :: r) => some (table, r)
          | _, _ => none
      | _ => none

end

/-! ## Documents -/

/-- A document, as far as it has been read: its table, and the keys of the header that the next
lines belong to. -/
structure Document where
  root : Table
  header : List Text

namespace Document

/-- The document without lines. -/
def empty : Document := ⟨.empty .header, []⟩

/-- With a key and its value under the current header. -/
def addValue (d : Document) (path : List Text) (key : Text) (v : Value) : Option Document :=
  (d.root.within .implied (Table.addValue path key v) d.header).map fun root => { d with root }

/-- The line at the beginning of a text, which is neither empty nor a remark: the document with it,
and what follows it. -/
def line? (n : Nat) (d : Document) : Text → Option (Document × Text)
  | '[' :: '[' :: r =>
    match key? n r with
    | some ((path, key), ']' :: ']' :: r) =>
      (d.root.addRow path key).map fun root => (⟨root, path ++ [key]⟩, r)
    | _ => none
  | '[' :: r =>
    match key? n r with
    | some ((path, key), ']' :: r) =>
      (d.root.addTable path key).map fun root => (⟨root, path ++ [key]⟩, r)
    | _ => none
  | t =>
    match key? n t with
    | some ((path, key), '=' :: r) => do
      let (v, r) ← value? n (r.dropWhile isSpace)
      let d ← d.addValue path key v
      return (d, r)
    | _ => none

/-- Reads the lines of a text. -/
def lines? (n : Nat) (d : Document) (t : Text) : Option Document :=
  match n with
  | 0 => none
  | n + 1 => do
    match ← dropGaps? false t with
    | [] => return d
    | t =>
      let (d, r) ← d.line? n t
      if endsLine r then lines? n d r else none

/-- The table that a document is. A byte order mark may stand before it. -/
def ofText? (t : Text) : Option Table :=
  let t := (Text.after? ['\uFEFF'] t).getD t
  (lines? (2 * t.length + 2) empty t).map Document.root

end Document

end Toml

end Transclude
