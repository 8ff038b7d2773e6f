import Transclude.Error
import Transclude.Path
import Transclude.Text.Blank

/-!
# Exclude rules

Rules say which files and directories below a directory a scan leaves out, one rule a line
(`build_exclude_matcher`). A line that begins with `#` is a remark. `!` before a glob takes back
what rules before it leave out, and a slash after it restricts it to directories. A glob without a
slash is about entries at any level; a slash at its beginning or inside makes it begin at the root
of the scan. Of all rules that match an entry the last decides (`ExcludeRules.excludes`).

The rules are read in three layers:

- `BytePattern`, regular patterns over bytes. A pattern is matched by taking its derivative byte
  after byte: what is left to match after a byte. The whole row of bytes has to match.
- `Glob.read`, a short notation for the paths that a rule is about. `?` stands for one byte and `*`
  for any number of bytes, slashes excepted. `**` between slashes, or between a slash and an end of
  the glob, stands for any number of directories. `[a-z]` stands for one byte of a set, `[!a-z]` and
  `[^a-z]` for one outside of it; a bracket that is never closed is an ordinary character. `{a,b}`
  stands for either of its branches, and branches may hold braces again; branches that say nothing
  are left out. A backslash takes the next character as it is. A path is matched byte by byte, so a
  character outside ASCII counts as several.
- `ExcludeRule.ofLine`, the rule of a line: its glob, placed in the tree.
-/

namespace Transclude

/-! ## Patterns over bytes -/

/-- A regular pattern over bytes. -/
inductive BytePattern where
  /-- Matches nothing. -/
  | never
  /-- Matches no bytes at all. -/
  | empty
  /-- Matches one byte in one of the ranges, or with `negated` in none of them. -/
  | byte (negated : Bool) (ranges : List (UInt8 × UInt8))
  | seq (first second : BytePattern)
  | alt (one other : BytePattern)
  | star (repeated : BytePattern)
  deriving DecidableEq, Repr

namespace BytePattern

/-- One after the other. -/
def thenPattern (first second : BytePattern) : BytePattern :=
  match first, second with
  | never, _ => never
  | _, never => never
  | empty, q => q
  | p, empty => p
  | p, q => seq p q

/-- One or the other. -/
def orPattern (one other : BytePattern) : BytePattern :=
  match one, other with
  | never, q => q
  | p, never => p
  | p, q => if p = q then p else alt p q

/-- All of them in a row. -/
def all (ps : List BytePattern) : BytePattern := ps.foldr thenPattern empty

/-- One of them. -/
def any (ps : List BytePattern) : BytePattern := ps.foldr orPattern never

/-- Exactly these bytes. -/
def exactly (bytes : Bytes) : BytePattern := all (bytes.map fun b => byte false [(b, b)])

/-- Any byte. -/
def anyByte : BytePattern := byte true []

/-- The slash between the parts of a path. -/
def slash : BytePattern := byte false [(0x2F, 0x2F)]

/-- Any byte but a slash. -/
def notSlash : BytePattern := byte true [(0x2F, 0x2F)]

/-- Whether no bytes at all match. -/
def nullable : BytePattern → Bool
  | never => false
  | empty => true
  | byte _ _ => false
  | seq p q => nullable p && nullable q
  | alt p q => nullable p || nullable q
  | star _ => true

/-- What is left to match after the byte `b`. -/
def derivative (b : UInt8) : BytePattern → BytePattern
  | never => never
  | empty => never
  | byte negated ranges =>
    if (ranges.any fun r => r.1 ≤ b && b ≤ r.2) != negated then empty else never
  | seq p q =>
    let left := thenPattern (derivative b p) q
    if nullable p then orPattern left (derivative b q) else left
  | alt p q => orPattern (derivative b p) (derivative b q)
  | star p => thenPattern (derivative b p) (star p)

/-- Whether the pattern matches a whole row of bytes. -/
def accepts (p : BytePattern) (bytes : Bytes) : Bool :=
  nullable (bytes.foldl (fun q b => derivative b q) p)

end BytePattern

/-! ## Globs -/

namespace Glob

/-- A part of a glob. -/
inductive Part where
  | pattern (p : BytePattern)
  /-- `**` at the beginning: any directories, or none. -/
  | anyAbove
  /-- `**` at the end: anything below. -/
  | anyBelow
  deriving DecidableEq, Repr

namespace Part

/-- One character as it is. -/
def literal (c : Char) : Part := pattern (.exactly (Text.bytes [c]))

/-- Any bytes but slashes. -/
def anyName : Part := pattern (.star .notSlash)

/-- `**` between slashes: any directories between, or none. -/
def anyBetween : Part :=
  pattern (.orPattern .slash (.all [.slash, .star .anyByte, .slash]))

/-- What a part matches. -/
def toPattern : Part → BytePattern
  | pattern p => p
  | anyAbove => .any [.empty, .slash, .thenPattern (.star .anyByte) .slash]
  | anyBelow => .thenPattern .slash (.star .anyByte)

/-- Whether a part says nothing. -/
def isSilent : Part → Bool
  | pattern p => p = .empty
  | _ => false

end Part

/-- What a row of parts matches. -/
def patternOf (parts : List Part) : BytePattern := .all (parts.map Part.toPattern)

/-- Either of some branches, except those that say nothing. -/
def alternation (branches : List (List Part)) : Part :=
  match branches.filter fun b => !b.all Part.isSilent with
  | [] => .pattern .empty
  | spoken => .pattern (.any (spoken.map patternOf))

/-! ## Sets -/

/-- The bytes of a set: of a range of two characters, the bytes from the last of the first
character to the first of the last, and the other bytes of both. -/
def byteRanges (r : Char × Char) : List (UInt8 × UInt8) :=
  let first := Text.bytes [r.1]
  let last := Text.bytes [r.2]
  let single (b : UInt8) := (b, b)
  if r.1 = r.2 then first.map single
  else
    first.dropLast.map single ++ [(first.getLastD 0, last.headD 0)] ++ last.tail.map single

/-- The state of reading a set: the ranges so far, the latest first; whether a dash stands between
the latest and what follows; whether nothing has been read yet. -/
structure SetState where
  ranges : List (Char × Char)
  inRange : Bool
  first : Bool
  deriving DecidableEq, Repr

/-- The ranges of a set, from just after its opening bracket, and the text after its closing
bracket; none if it is never closed. -/
def readRanges? (s : SetState) : Text → Except BadGlob (Option (List (Char × Char) × Text))
  | [] => .ok none
  | c :: t =>
    if c = ']' ∧ !s.first then
      let dash := if s.inRange then [('-', '-')] else []
      .ok (some (s.ranges.reverse ++ dash, t))
    else if s.inRange then
      match s.ranges with
      | (a, _) :: ranges =>
        if c < a then .error (.invalidRange a c)
        else readRanges? ⟨(a, c) :: ranges, false, false⟩ t
      | [] => readRanges? ⟨[(c, c)], false, false⟩ t
    else if c = '-' ∧ !s.first then readRanges? ⟨s.ranges, true, false⟩ t
    else readRanges? ⟨(c, c) :: s.ranges, false, false⟩ t

/-- The set whose opening bracket has just been read, and the text after it. -/
def readSet? (t : Text) : Except BadGlob (Option (Part × Text)) := do
  let (negated, t) := match t with
    | '!' :: t => (true, t)
    | '^' :: t => (true, t)
    | t => (false, t)
  match ← readRanges? ⟨[], false, true⟩ t with
  | none => return none
  | some (ranges, rest) => return some (.pattern (.byte negated (ranges.flatMap byteRanges)), rest)

/-! ## Stars -/

/-- The parts of the branch after a `**`, the latest first, and the number of characters after it
that belong to it. `prev` is the character before it, `inside` tells whether braces are open. -/
def readStars (branch : List Part) (prev : Option Char) (inside : Bool) (t : Text) :
    List Part × Nat :=
  let twoNames := (Part.anyName :: Part.anyName :: branch, 0)
  let wholePart (latest : List Part → Part) (read : Nat) :=
    match branch with
    | [] => ([latest []], read)
    | .anyAbove :: r => (.anyAbove :: r, read)
    | .anyBelow :: r => (.anyBelow :: r, read)
    | _ :: r => (latest r :: r, read)
  if branch = [] then
    match t with
    | [] => ([.anyAbove], 0)
    | '/' :: _ => ([.anyAbove], 1)
    | _ => twoNames
  else if prev = some '/' ∨ (inside ∧ (prev = some ',' ∨ prev = some '{')) then
    match t with
    | [] => wholePart (fun _ => .anyBelow) 0
    | '/' :: _ => wholePart (fun _ => .anyBetween) 1
    | c :: _ => if inside ∧ (c = ',' ∨ c = '}') then wholePart (fun _ => .anyBelow) 0 else twoNames
  else twoNames

/-! ## Globs -/

/-- The state of reading a glob: the parts of the branch so far, the latest first; for every open
brace the branch before it and its finished branches; the character before; and whether a bracket
was found never to be closed. -/
structure State where
  branch : List Part
  opened : List (List Part × List (List Part))
  prev : Option Char
  bracketsLiteral : Bool

namespace State

/-- With one more part. -/
def push (s : State) (p : Part) (prev : Char) : State :=
  { s with branch := p :: s.branch, prev := some prev }

end State

/-- Reads a glob. Every step takes at least one of the `fuel` characters. -/
def readFrom : (fuel : Nat) → State → Text → Except BadGlob (List Part)
  | 0, s, _ => if s.opened = [] then .ok s.branch.reverse else .error .unclosedAlternation
  | _ + 1, s, [] => if s.opened = [] then .ok s.branch.reverse else .error .unclosedAlternation
  | fuel + 1, s, c :: t =>
    if c = '?' then readFrom fuel (s.push (.pattern .notSlash) c) t
    else if c = '*' then
      match t with
      | '*' :: t' =>
        let (branch, read) := readStars s.branch s.prev (s.opened ≠ []) t'
        let prev := if read = 0 then '*' else '/'
        readFrom fuel { s with branch := branch, prev := some prev } (t'.drop read)
      | _ => readFrom fuel (s.push .anyName c) t
    else if c = '[' ∧ !s.bracketsLiteral then
      match readSet? t with
      | .error e => .error e
      | .ok (some (p, rest)) => readFrom fuel (s.push p ']') rest
      | .ok none => readFrom fuel { s.push (.literal '[') c with bracketsLiteral := true } t
    else if c = '{' then
      readFrom fuel { s with branch := [], opened := (s.branch, []) :: s.opened, prev := some c } t
    else if c = '}' then
      match s.opened with
      | [] => .error .unopenedAlternation
      | (before, branches) :: opened =>
        let p := alternation (branches ++ [s.branch.reverse])
        readFrom fuel { s with branch := p :: before, opened := opened, prev := some c } t
    else if c = ',' then
      match s.opened with
      | [] => readFrom fuel (s.push (.literal ',') c) t
      | (before, branches) :: opened =>
        let opened := (before, branches ++ [s.branch.reverse]) :: opened
        readFrom fuel { s with branch := [], opened := opened, prev := some c } t
    else if c = '\\' then
      match t with
      | [] => .error .danglingEscape
      | d :: t' => readFrom fuel (s.push (.literal d) d) t'
    else readFrom fuel (s.push (.literal c) c) t

/-- What a glob matches. -/
def read (t : Text) : Except BadGlob BytePattern := do
  let parts ← readFrom t.length ⟨[], [], none, false⟩ t
  return if parts = [.anyAbove] then .star .anyByte else patternOf parts

end Glob

/-! ## Rules -/

/-- A rule for what a scan leaves out. -/
structure ExcludeRule where
  pattern : BytePattern
  /-- Entries that match stay in. -/
  keeps : Bool
  directoriesOnly : Bool
  deriving DecidableEq, Repr

namespace ExcludeRule

/-- Whether a text ends with another. -/
def endsWith (t ending : Text) : Bool := ending.isSuffixOf t

/-- The glob that says where in the tree its matches lie: a glob about entries at any level begins
with `**`, and one for all that is below a directory does not match the directory. -/
def placed (anchored : Bool) (glob : Text) : Text :=
  let anywhere := !anchored && !glob.contains '/' && glob ≠ ['*', '*']
  let glob := if anywhere then "**/".toList ++ glob else glob
  if endsWith glob "/**".toList then glob ++ "/*".toList else glob

/-- The rule of a line; none for an empty line and for a remark. -/
def ofLine (line : Text) : Except BadGlob (Option ExcludeRule) := do
  if line.head? = some '#' then return none
  let line := if endsWith line "\\ ".toList then line else Text.trimEnd line
  if line = [] then return none
  let escaped := "\\!".toList.isPrefixOf line || "\\#".toList.isPrefixOf line
  let keeps := !escaped && line.head? = some '!'
  let line := if escaped || keeps then line.tail else line
  let anchored := !escaped && line.head? = some '/'
  let line := if anchored then line.tail else line
  let directoriesOnly := line.getLast? = some '/'
  let line :=
    if directoriesOnly then
      if line.dropLast.getLast? = some '\\' then line.dropLast.dropLast else line.dropLast
    else line
  let pattern ← Glob.read (placed anchored line)
  return some ⟨pattern, keeps, directoriesOnly⟩

end ExcludeRule

/-- The rules for a scan of the directory whose path is spelled `root`. -/
structure ExcludeRules where
  root : Bytes
  rules : List ExcludeRule
  deriving DecidableEq, Repr

namespace ExcludeRules

/-- A path without `./` at its beginning. -/
def dropDot (b : Bytes) : Bytes := ([Path.point, Path.slash].isPrefixOf? b).getD b

/-- The rules of all lines, or the first line that is none. -/
def ofLines (root : Path) (lines : List Text) : Except Error ExcludeRules := do
  let rules ← lines.mapM fun line =>
    match ExcludeRule.ofLine line with
    | .ok rule? => .ok rule?
    | .error cause => .error (Error.config (.excludePattern line cause))
  return ⟨dropDot root.bytes, rules.reduceOption⟩

/-- A path as it is seen from the root of the scan. A path without slash is an entry of it. -/
def relative (r : ExcludeRules) (p : Path) : Bytes :=
  let b := dropDot p.bytes
  if Path.trimmed ⟨r.root⟩ = ([Path.point], []) || !b.contains Path.slash then b
  else
    match r.root.isPrefixOf? b with
    | some b => ([Path.slash].isPrefixOf? b).getD b
    | none => b

/-- Whether an entry is left out: whether the last rule that matches it says so. -/
def excludes (r : ExcludeRules) (p : Path) (isDirectory : Bool) : Bool :=
  match r.rules.reverse.find? fun rule =>
      (!rule.directoriesOnly || isDirectory) && rule.pattern.accepts (r.relative p) with
  | some rule => !rule.keeps
  | none => false

end ExcludeRules

end Transclude
