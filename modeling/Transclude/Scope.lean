import Transclude.Error
import Transclude.Path
import Transclude.Text.Decimal

/-!
# Depths and scopes

How many levels of directories a scan descends, which files it looks at, and below which directory.

- A depth (`Depth`) is a number of levels, or no limit. In settings and on the command line it is a
  number, `-1` for no limit (`Depth.ofInt64`, `Depth.parse`). Levels are counted in 64 bits without
  sign, and the number is the same 64 bits with sign. Steps up and down (`Depth.ascend`,
  `Depth.descend`) are counted exactly as long as there is room for a level more with each of them
  (`Depth.limit?_after`).
- A scan looks at the files with an extension (`ScanOptions.matchesFile`, the program's
  `matches_extension`). A file name that is not UTF-8 has none.
- The scope of a file lies below a directory that is some levels above it (`Scope.around`,
  `scope_root`). The levels are counted by the spelling of the path.
-/

namespace Transclude

/-! ## Depths -/

/-- How many levels of directories a scan descends. -/
inductive Depth where
  | unlimited
  | levels (n : UInt64)
  deriving DecidableEq, Repr

namespace Depth

/-- Whether the scan stays in the directory. -/
def isExhausted (d : Depth) : Bool := d = levels 0

/-- The depth that is left one directory below. -/
def descend : Depth → Depth
  | unlimited => unlimited
  | levels n => levels (if n = 0 then 0 else n - 1)

/-- The depth that reaches as far from one directory above. -/
def ascend : Depth → Depth
  | unlimited => unlimited
  | levels n => levels (n + 1)

/-- The depth of a number. -/
def ofInt64 (n : Int64) : Except Error Depth :=
  if n = -1 then .ok unlimited
  else if 0 ≤ n then .ok (levels n.toUInt64)
  else .error (.validation (.depthNumber n.toInt))

/-- The number of a depth. -/
def toInt64 : Depth → Int64
  | unlimited => -1
  | levels n => n.toInt64

/-- The depth that a text gives as a number, with blanks around it or without. -/
def parse (t : Text) : Except Error Depth :=
  match Text.readInt64? (Text.trim t) with
  | some n => ofInt64 n
  | none => .error (.validation (.depthText t))

/-- The number of a depth as text. -/
def text (d : Depth) : Text := (toString d.toInt64.toInt).toList

/-- The number of levels, if there is a limit. -/
def limit? : Depth → Option Nat
  | unlimited => none
  | levels n => some n.toNat

/-- **The text of a depth is read as its number**, so a depth `d` is read back from its text exactly
if its 64-bit number is that of a depth. From 2^63 levels on that number is negative. -/
theorem parse_text (d : Depth) : parse d.text = ofInt64 d.toInt64 := by
  have htrim : Text.trim d.text = d.text :=
    Text.trim_eq_self_iff.2 (.of_forall fun c hc => Text.not_isBlank_of_mem_toString hc)
  have hread : Text.readInt64? d.text = some d.toInt64 := Text.readInt64?_toString d.toInt64
  rw [parse, htrim, hread]

/-! ### Up and down -/

/-- A step from one directory to another, as a depth is told for it. -/
inductive Change where
  | ascend
  | descend
  deriving DecidableEq, Repr

/-- What a step makes of a depth. -/
def Change.apply : Change → Depth → Depth
  | ascend, d => d.ascend
  | descend, d => d.descend

/-- What it makes of a number of levels. -/
def Change.count : Change → Nat → Nat
  | ascend, n => n + 1
  | descend, n => n - 1

/-- The depth after some steps. -/
def after (d : Depth) (changes : List Change) : Depth := changes.foldl (fun d c => c.apply d) d

/-- The number of levels after some steps. -/
def countAfter (n : Nat) (changes : List Change) : Nat := changes.foldl (fun n c => c.count n) n

theorem Change.count_le (c : Change) (n : Nat) : c.count n ≤ n + 1 := by
  cases c with
  | ascend => exact Nat.le_refl _
  | descend => exact Nat.le_trans (Nat.sub_le n 1) (Nat.le_succ n)

theorem countAfter_le (n : Nat) (changes : List Change) :
    countAfter n changes ≤ n + changes.length := by
  induction changes generalizing n with
  | nil => exact Nat.le_refl _
  | cons c changes ih =>
    have hstep := c.count_le n
    have hrest : countAfter n (c :: changes) ≤ _ := ih (c.count n)
    rw [List.length_cons]
    omega

/-- A step down, `descend`, takes one level from the limit, if there is one, down to none. -/
theorem limit?_descend (d : Depth) : d.descend.limit? = d.limit?.map (· - 1) := by
  cases d with
  | unlimited => rfl
  | levels n =>
    show some (if n = 0 then 0 else n - 1).toNat = some (n.toNat - 1)
    by_cases hzero : n = 0
    · rw [if_pos hzero, hzero]
      rfl
    · have hpos : n.toNat ≠ 0 := fun h => hzero (UInt64.toNat_inj.1 h)
      have hle : (1 : UInt64) ≤ n := by
        rw [UInt64.le_iff_toNat_le, UInt64.toNat_one]
        omega
      rw [if_neg hzero, UInt64.toNat_sub_of_le _ _ hle, UInt64.toNat_one]

/-- A step up, `ascend`, adds one level to the limit, as long as the levels can be counted in 64
bits. -/
theorem limit?_ascend {d : Depth} (h : ∀ n ∈ d.limit?, n + 1 < UInt64.size) :
    d.ascend.limit? = d.limit?.map (· + 1) := by
  cases d with
  | unlimited => rfl
  | levels n =>
    show some (n + 1).toNat = some (n.toNat + 1)
    rw [UInt64.toNat_add, UInt64.toNat_one, Nat.mod_eq_of_lt (h n.toNat rfl)]

/-- **One step** changes the limit of `d` by one, down to none, as `Change.count` counts it. -/
theorem Change.limit?_apply (c : Change) {d : Depth} (h : ∀ n ∈ d.limit?, n + 1 < UInt64.size) :
    (c.apply d).limit? = d.limit?.map c.count := by
  cases c with
  | ascend => exact limit?_ascend h
  | descend => exact limit?_descend d

/-- **Steps are counted exactly**, if the limit of `d` leaves room for a level more with each of the
changes. Whether they go up or down does not matter to that bound. -/
theorem limit?_after {d : Depth} {changes : List Change}
    (h : ∀ n ∈ d.limit?, n + changes.length < UInt64.size) :
    (d.after changes).limit? = d.limit?.map (countAfter · changes) := by
  induction changes generalizing d with
  | nil => exact Option.map_id'.symm
  | cons c changes ih =>
    have hroom : ∀ n ∈ d.limit?, n + 1 < UInt64.size := by
      intro n hn
      have hlt := h n hn
      rw [List.length_cons] at hlt
      omega
    have hstep := c.limit?_apply hroom
    have hrest : ∀ n ∈ (c.apply d).limit?, n + changes.length < UInt64.size := by
      intro n hn
      rw [hstep] at hn
      obtain ⟨m, hm, rfl⟩ := Option.map_eq_some_iff.1 hn
      have hlt := h m hm
      have hle := c.count_le m
      rw [List.length_cons] at hlt
      omega
    show ((c.apply d).after changes).limit? = d.limit?.map fun n => countAfter (c.count n) changes
    rw [ih hrest, hstep, Option.map_map]
    rfl

end Depth

/-! ## Options and scopes -/

/-- An extension without the blanks around it and without the dots before it. -/
def normalizeExtension (extension : Text) : Text := (Text.trim extension).dropWhile (· = '.')

/-- What a scan reads and what it leaves out. -/
structure ScanOptions where
  extension : Text
  /-- Patterns for the files and directories that are left out. -/
  exclude : List Text
  deriving DecidableEq, Repr

namespace ScanOptions

/-- Files with this extension, none left out. -/
def ofExtension (extension : Text) : ScanOptions := ⟨normalizeExtension extension, []⟩

/-- Whether a text is a stem, a dot and the extension. -/
def matchesText (o : ScanOptions) (name : Text) : Bool :=
  match Text.after? ('.' :: o.extension).reverse name.reverse with
  | some stem => stem ≠ []
  | none => false

/-- Whether a file name is a stem, a dot and the extension. A name that is not UTF-8 is none of
that, whatever its last bytes are. -/
def matchesName (o : ScanOptions) (name : Bytes) : Bool := name.text?.any o.matchesText

/-- Whether a path has the extension. -/
def matchesFile (o : ScanOptions) (p : Path) : Bool := p.fileName?.any o.matchesName

end ScanOptions

namespace Scope

/-- Goes up to `n` directories up, and widens the depth with every one. -/
def climb : Nat → Path → Depth → Path × Depth
  | 0, dir, depth => (dir, depth)
  | n + 1, dir, depth =>
    match dir.parent? with
    | none => (dir, depth)
    | some parent => climb n parent depth.ascend

/-- The directory that holds a file. -/
def directoryOf (p : Path) : Path :=
  match p.parent? with
  | none => .dot
  | some parent => if parent.bytes = [] then .dot else parent

/-- The scope of a file: `up` directories above the one that holds it, with a depth that reaches as
far as `down` does from there. -/
def around (cwd file : Path) (up : Nat) (down : Depth) : Path × Depth :=
  climb up (directoryOf (file.absolute cwd)) down

end Scope

end Transclude
