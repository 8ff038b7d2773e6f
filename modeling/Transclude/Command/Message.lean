import Transclude.Bindings
import Transclude.Error
import Transclude.Path
import Transclude.Text.Decimal

/-!
# Messages

What the program tells on its standard output, and how it is worded. Colors are terminal codes
around a text. Two kinds of messages have a shape of their own:

- Bindings are listed as a JSON object (`Json.ofBindings`), a name with its text on a line.
- Changes are told line by line (`Diff.changes`). The result lists every line of either text: those
  that both have, those that only the old text has, and those that only the new one has, with as
  many lines in common as possible. Where lines change, the old ones come first. The best comparison
  is found from the end: `Diff.scripts old new` has the best comparison of `old` with every end of
  `new`, and a line before `old` needs those alone.
-/

namespace Transclude

/-! ## Bindings as JSON -/

namespace Json

/-- A hexadecimal digit. -/
def hexDigit (n : Nat) : Char := (Nat.toDigits 16 n).headD '0'

/-- A character in a JSON string. Quotes, backslashes and control characters are escaped. -/
def escape (c : Char) : Text :=
  match c with
  | '"' => ['\\', '"']
  | '\\' => ['\\', '\\']
  | '\x08' => ['\\', 'b']
  | '\t' => ['\\', 't']
  | '\n' => ['\\', 'n']
  | '\x0c' => ['\\', 'f']
  | '\r' => ['\\', 'r']
  | c =>
    if c.toNat < 0x20 then "\\u00".toList ++ [hexDigit (c.toNat / 16), hexDigit (c.toNat % 16)]
    else [c]

/-- A text as a JSON string. -/
def ofText (t : Text) : Text := '"' :: t.flatMap escape ++ ['"']

/-- Bindings as a JSON object. -/
def ofBindings (b : Bindings) : Text :=
  let entry (e : Text × Text) : Text := "\n  ".toList ++ ofText e.1 ++ ": ".toList ++ ofText e.2
  let shown := List.intercalate [','] (b.entries.map entry)
  if b.entries = [] then ['{', '}'] else '{' :: shown ++ ['\n', '}']

end Json

/-! ## Line by line comparison -/

/-- A line of two texts that are compared. -/
inductive Change where
  | keep (line : Text)
  | remove (line : Text)
  | insert (line : Text)
  deriving DecidableEq, Repr

namespace Diff

/-- A comparison with the number of lines that are kept in it. -/
structure Script where
  kept : Nat
  changes : List Change

/-- The comparisons of no line with every end of `new`, the whole first. -/
def insertions : (new : List Text) → List Script
  | [] => [⟨0, []⟩]
  | b :: new =>
    let rest := insertions new
    ⟨0, .insert b :: (rest.head?.map Script.changes).getD []⟩ :: rest

/-- The comparisons of a line and what comes after it with every end of `new`. `below` has those of
what comes after the line. -/
def withLine (a : Text) : (new : List Text) → (below : List Script) → List Script
  | [], below => below.take 1 |>.map fun s => ⟨s.kept, .remove a :: s.changes⟩
  | b :: new, below =>
    match below, withLine a new below.tail with
    | d :: e :: _, r :: rest =>
      let here : Script :=
        if a = b then ⟨e.kept + 1, .keep a :: e.changes⟩
        else if r.kept ≤ d.kept then ⟨d.kept, .remove a :: d.changes⟩
        else ⟨r.kept, .insert b :: r.changes⟩
      here :: r :: rest
    | _, _ => []

/-- The comparisons of `old` with every end of `new`. -/
def scripts : (old new : List Text) → List Script
  | [], new => insertions new
  | a :: old, new => withLine a new (scripts old new)

/-- The comparison that sets each line against the line in its place, for lists of one length. -/
def inPlace : (old new : List Text) → Option Script
  | [], [] => some ⟨0, []⟩
  | a :: old, b :: new =>
    (inPlace old new).map fun s =>
      if a = b then ⟨s.kept + 1, .keep a :: s.changes⟩
      else ⟨s.kept, .remove a :: .insert b :: s.changes⟩
  | _, _ => none

/-- The best comparison of two lists of lines. If lines only change in their places, it shows them
there. -/
def best (old new : List Text) : List Change :=
  match (scripts old new).head?, inPlace old new with
  | some s, some t => if s.kept ≤ t.kept then t.changes else s.changes
  | some s, none => s.changes
  | none, _ => []

/-- The lines that both texts begin with, and the others. -/
def splitStart : (old new : List Text) → List Text × List Text × List Text
  | a :: old, b :: new =>
    if a = b then
      let (common, old, new) := splitStart old new
      (a :: common, old, new)
    else ([], a :: old, b :: new)
  | old, new => ([], old, new)

/-- Where lines change, the old ones before the new ones. -/
def settle (removed inserted : List Change) : List Change → List Change
  | [] => removed ++ inserted
  | .keep l :: cs => removed ++ inserted ++ .keep l :: settle [] [] cs
  | .remove l :: cs => settle (removed ++ [.remove l]) inserted cs
  | .insert l :: cs => settle removed (inserted ++ [.insert l]) cs

/-- The comparison of two lists of lines. Lines at the beginning or at the end that are the same are
kept. -/
def compareLines (old new : List Text) : List Change :=
  let (start, old, new) := splitStart old new
  let (ending, old, new) := splitStart old.reverse new.reverse
  start.map .keep ++ settle [] [] (best old.reverse new.reverse) ++ ending.reverse.map .keep

/-- The lines of a text with their ends. A line ends with a line feed, with a carriage return, or
with both. -/
def wholeLines (line : Text) : Text → List Text
  | [] => if line = [] then [] else [line.reverse]
  | '\r' :: '\n' :: t => ('\n' :: '\r' :: line).reverse :: wholeLines [] t
  | c :: t =>
    if c = '\n' || c = '\r' then (c :: line).reverse :: wholeLines [] t
    else wholeLines (c :: line) t

/-- The comparison of two texts. -/
def compare (old new : Text) : List Change := compareLines (wholeLines [] old) (wholeLines [] new)

end Diff

/-! ## What is told -/

/-- How a text is set off. -/
inductive Style where
  | green
  | red
  | bold
  deriving DecidableEq, Repr

namespace Style

/-- The codes before a text and after it. -/
def codes : Style → String × String
  | green => ("32", "39")
  | red => ("31", "39")
  | bold => ("1", "0")

/-- The text in a style, or as it is without `color`. -/
def paint (style : Style) (color : Bool) (t : Text) : Text :=
  let code (n : String) : Text := ['\x1b', '['] ++ n.toList ++ ['m']
  if color then code style.codes.1 ++ t ++ code style.codes.2 else t

end Style

/-- Something that the program tells. -/
inductive Message where
  | wouldUpdate (file : Path)
  | upToDate (file : Path)
  | changes (cs : List Change)
  | updated (file : Path)
  | updatedWithBackup (file backup : Path)
  | allUpToDate
  | updateCount (n : Nat)
  | refs (b : Bindings)
  | vars (b : Bindings)
  | json (b : Bindings)
  | value (t : Text)
  | variableSet (name : Text) (file : Path)
  | variableDeleted (name : Text) (file : Path)
  | variableMissing (name : Text) (file : Path)
  deriving DecidableEq, Repr

namespace Message

/-- A line with a line end; it may have one already. -/
def ended (line : Text) : Text :=
  if line.getLast? = some '\n' ∨ line.getLast? = some '\r' then line else line ++ ['\n']

/-- A line of a comparison. -/
def changeText (color : Bool) : Change → Text
  | .keep line => "   ".toList ++ ended line
  | .remove line => "  ".toList ++ Style.red.paint color ('-' :: ended line)
  | .insert line => "  ".toList ++ Style.green.paint color ('+' :: ended line)

/-- A list of references: their names, and how many lines they have. -/
def refsText (color : Bool) (refs : Bindings) : Text :=
  if refs.entries = [] then "No references found.".toList
  else
    let line (e : Text × Text) : Text :=
      let count := Text.natText (Text.lines e.2).length
      "\n  ".toList ++ e.1 ++ " (".toList ++ count ++ " line(s))".toList
    Style.bold.paint color "References:".toList ++ refs.entries.flatMap line

/-- A list of variables with their values. -/
def varsText (vars : Bindings) : Text :=
  if vars.entries = [] then "No variables declared.".toList
  else
    let line (e : Text × Text) : Text := e.1 ++ " = \"".toList ++ Value.encode '"' e.2 ++ ['"']
    List.intercalate ['\n'] (vars.entries.map line)

/-- The wording of a message, with its line end. -/
def text (color : Bool) : Message → Text
  | wouldUpdate file => "Would update ".toList ++ file.text ++ ['\n']
  | upToDate file => file.text ++ " is up to date\n".toList
  | changes cs => cs.flatMap (changeText color)
  | updated file => Style.green.paint color "Updated".toList ++ ' ' :: file.text ++ ['\n']
  | updatedWithBackup file backup =>
    Style.green.paint color "Updated".toList ++ ' ' :: file.text ++ " (backup: ".toList ++
      backup.text ++ ")\n".toList
  | allUpToDate => "All files are already up to date.\n".toList
  | updateCount n => "Updated ".toList ++ Text.natText n ++ " file(s).\n".toList
  | refs b => refsText color b ++ ['\n']
  | vars b => varsText b ++ ['\n']
  | json b => Json.ofBindings b ++ ['\n']
  | value t => t ++ ['\n']
  | variableSet name file => "Set `".toList ++ name ++ "` in ".toList ++ file.text ++ ['\n']
  | variableDeleted name file =>
    "Deleted `".toList ++ name ++ "` from ".toList ++ file.text ++ ['\n']
  | variableMissing name file =>
    "No declaration of `".toList ++ name ++ "` in ".toList ++ file.text ++ ['\n']

end Message

end Transclude
