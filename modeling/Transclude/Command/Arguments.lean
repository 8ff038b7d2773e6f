import Transclude.Scope

/-!
# The command line

A command line is read level by level: the options and arguments of a command up to the name of one
of its subcommands, then those of the subcommand. At each level options and arguments may come in
any order. An option has its value in the next argument or attached to it; short options may stand
together behind one dash. All that follows `--` are arguments. Reading stops at the first thing that
is wrong, and at a request for help or for the version.

The commands of the program are made of that: `process` renders files, `refs` lists references, and
`vars` reads and changes the variables of a file. Some options may stand at any level; where they
have a value, the innermost counts.
-/

namespace Transclude

/-! ## Levels -/

/-- What is wrong with a command line. -/
inductive UsageError where
  | unknownOption (argument : Text)
  | missingValue (option : String)
  | unexpectedValue (option : String)
  | repeatedOption (option : String)
  | invalidValue (of : String) (value : Text)
  | unexpectedArgument (argument : Text)
  | missingArgument (name : String)
  | unknownCommand (name : Text)
  | missingCommand
  deriving DecidableEq, Repr

/-- The fault in words. -/
def UsageError.message : UsageError → String
  | unknownOption argument => s!"unexpected option {String.ofList argument}"
  | missingValue option => s!"a value is required for --{option}"
  | unexpectedValue option => s!"--{option} takes no value"
  | repeatedOption option => s!"--{option} cannot be used several times"
  | invalidValue of value => s!"invalid value for {of}: {String.ofList value}"
  | unexpectedArgument argument => s!"unexpected argument {String.ofList argument}"
  | missingArgument name => s!"missing argument {name}"
  | unknownCommand name => s!"unknown command {String.ofList name}"
  | missingCommand => "a command is required"

/-- Why the reading of a command line stops. -/
inductive Stop where
  | help
  | version
  | refused (fault : UsageError)
  deriving DecidableEq, Repr

/-- What an option is for. -/
inductive OptionKind where
  | flag
  /-- It has a value. Negative numbers are values only if `negative` is set; other arguments with a
  dash before them never are. -/
  | value (accepts : Text → Bool) (negative : Bool)
  | stop (reason : Stop)

/-- An option of a command. -/
structure OptionSpec where
  long : String
  short : Option Char
  kind : OptionKind

/-- An argument of a command. The last may stand for any number of them. -/
structure ArgumentSpec where
  name : String
  accepts : Text → Bool
  many : Bool

/-- What a command understands. -/
structure Level where
  options : List OptionSpec
  arguments : List ArgumentSpec
  commands : List String

/-- What was read at one level. -/
structure Reading where
  /-- The options by their long names; a flag has an empty value. -/
  options : List (String × Text)
  arguments : List Text
  /-- The subcommand, and what follows it. -/
  command : Option (Text × List Text)
  deriving DecidableEq, Repr

namespace Reading

/-- Nothing read yet. -/
def empty : Reading := ⟨[], [], none⟩

/-- Whether a flag is set. -/
def has (r : Reading) (long : String) : Bool := (r.options.lookup long).isSome

/-- The value of an option, read by `read`. -/
def value? {α : Type} (r : Reading) (long : String) (read : Text → Option α) : Option α :=
  (r.options.lookup long).bind read

/-- With an option. -/
def withOption (r : Reading) (o : OptionSpec) (value : Text) : Except Stop Reading :=
  if r.has o.long then .error (.refused (.repeatedOption o.long))
  else
    let accepts : Bool :=
      match o.kind with
      | .value accepts _ => accepts value
      | _ => true
    if accepts then .ok { r with options := r.options ++ [(o.long, value)] }
    else .error (.refused (.invalidValue o.long value))

/-- With an option that stands without value. -/
def withFlag (r : Reading) (o : OptionSpec) : Except Stop Reading :=
  match o.kind with
  | .flag => r.withOption o []
  | .value .. => .error (.refused (.missingValue o.long))
  | .stop reason => .error reason

end Reading

namespace Level

/-- Reads a long option, without its dashes. If it waits for a value, it is returned too. -/
def readLong (l : Level) (r : Reading) (t : Text) : Except Stop (Reading × Option OptionSpec) := do
  let (name, attached?) :=
    match Text.cutAt? ['='] t with
    | some (name, value) => (name, some value)
    | none => (t, none)
  match l.options.find? (·.long.toList = name) with
  | none => .error (.refused (.unknownOption t))
  | some o =>
    match o.kind, attached? with
    | .value .., some value => return (← r.withOption o value, none)
    | .value .., none => return (r, some o)
    | _, some _ => .error (.refused (.unexpectedValue o.long))
    | _, none => return (← r.withFlag o, none)

/-- Reads short options, without their dash. If the last waits for a value, it is returned too. -/
def readShort (l : Level) (r : Reading) : Text → Except Stop (Reading × Option OptionSpec)
  | [] => .ok (r, none)
  | c :: t =>
    match l.options.find? (·.short = some c) with
    | none => .error (.refused (.unknownOption (c :: t)))
    | some o =>
      match o.kind with
      | .value .. =>
        if t = [] then .ok (r, some o)
        else (r.withOption o ((Text.after? ['='] t).getD t)).map (·, none)
      | _ =>
        match r.withFlag o with
        | .ok r => readShort l r t
        | .error stop => .error stop

/-- Reads an argument that is no option. -/
def readArgument (l : Level) (r : Reading) (t : Text) : Except Stop Reading :=
  let spec? : Option ArgumentSpec :=
    match l.arguments[r.arguments.length]? with
    | some a => some a
    | none => l.arguments.getLast?.filter ArgumentSpec.many
  match spec? with
  | some a =>
    if a.accepts t then .ok { r with arguments := r.arguments ++ [t] }
    else .error (.refused (.invalidValue a.name t))
  | none =>
    .error (.refused (if l.commands = [] then .unexpectedArgument t else .unknownCommand t))

/-- Whether an argument looks like an option. -/
def isOption : Text → Bool
  | ['-'] => false
  | '-' :: _ => true
  | _ => false

/-- Whether an argument is a negative number. -/
def isNegative : Text → Bool
  | '-' :: t => t.all Char.isDigit
  | _ => false

/-- Reads arguments up to a subcommand. An option may be `waiting` for its value; after `--` all is
`plain`. -/
def readAll (l : Level) (r : Reading) (waiting : Option OptionSpec) (plain : Bool) :
    List Text → Except Stop Reading
  | [] =>
    match waiting with
    | some o => .error (.refused (.missingValue o.long))
    | none => .ok r
  | t :: rest =>
    match waiting with
    | some o =>
      let isValue : Bool :=
        match o.kind with
        | .value _ negative => !isOption t || (negative && isNegative t)
        | _ => false
      if !isValue then .error (.refused (.missingValue o.long))
      else
        match r.withOption o t with
        | .ok r => readAll l r none plain rest
        | .error stop => .error stop
    | none =>
      if plain || !isOption t then
        if !plain && l.commands.any (·.toList = t) then .ok { r with command := some (t, rest) }
        else
          match readArgument l r t with
          | .ok r => readAll l r none plain rest
          | .error stop => .error stop
      else if t = ['-', '-'] then readAll l r none true rest
      else
        let read :=
          match t with
          | '-' :: '-' :: t => readLong l r t
          | t => readShort l r t.tail
        match read with
        | .ok (r, waiting) => readAll l r waiting plain rest
        | .error stop => .error stop

/-- Reads the arguments of a level. None of those that it asks for may be missing. -/
def read (l : Level) (args : List Text) : Except Stop Reading := do
  let r ← l.readAll .empty none false args
  match l.arguments[r.arguments.length]? with
  | some a => .error (.refused (.missingArgument a.name))
  | none =>
    if l.commands ≠ [] && r.command.isNone then .error (.refused .missingCommand) else return r

end Level

/-! ## Commands -/

/-- How a list is shown. -/
inductive OutputFormat where
  | text
  | json
  deriving DecidableEq, Repr

/-- What to do with files to be rendered. -/
structure ProcessCommand where
  files : List Path
  backup : Bool
  /-- Nothing is written. -/
  dryRun : Bool
  /-- Changes are shown line by line. -/
  diff : Bool
  extension : Option Text
  depthUp : Option Nat
  depthDown : Option Depth
  ignoreMissing : Bool
  deriving DecidableEq, Repr

/-- What to do with the variables of a file. -/
inductive VariableCommand where
  | get (name : Text)
  | list (format : OutputFormat)
  | set (name value : Text)
  | delete (name : Text)
  deriving DecidableEq, Repr

/-- What the program is asked to do. -/
inductive Command where
  | process (c : ProcessCommand)
  | refs (dir : Path) (depth : Option Depth) (format : OutputFormat)
  | vars (file : Path) (c : VariableCommand)
  deriving DecidableEq, Repr

/-- A command with what holds for all commands. -/
structure Invocation where
  /-- Where settings are looked for, if not in the current directory. -/
  settingsPath : Option Path
  verbose : Bool
  noColor : Bool
  command : Command
  deriving DecidableEq, Repr

namespace Invocation

/-! ## Values -/

/-- A path that is not empty. -/
def path? (t : Text) : Option Path := if t = [] then none else some (.ofText t)

/-- A number of levels, which fits 64 bits. -/
def levels? (t : Text) : Option Nat := (Text.readUnsigned? t).filter (· < UInt64.size)

/-- A depth. -/
def depth? (t : Text) : Option Depth := (Depth.parse t).toOption

/-- The format with a name. -/
def format? (t : Text) : Option OutputFormat :=
  if t = "text".toList then some .text else if t = "json".toList then some .json else none

/-! ## Levels -/

/-- An option without value. -/
def flag (long : String) : OptionSpec := ⟨long, none, .flag⟩

/-- An option with a value that `read` understands. -/
def valueOption {α : Type} (long : String) (read : Text → Option α) (negative : Bool) :
    OptionSpec :=
  ⟨long, none, .value (fun t => (read t).isSome) negative⟩

/-- The options of every level. -/
def everywhere : List OptionSpec :=
  [⟨"path", some 'p', .value (fun t => (path? t).isSome) false⟩, ⟨"verbose", some 'v', .flag⟩,
    flag "no-color", ⟨"help", some 'h', .stop .help⟩]

/-- A path among the arguments. -/
def pathArgument (name : String) (many : Bool) : ArgumentSpec :=
  ⟨name, fun t => (path? t).isSome, many⟩

/-- A text among the arguments. -/
def textArgument (name : String) : ArgumentSpec := ⟨name, fun _ => true, false⟩

/-- The option for the format of a list. -/
def formatOption : OptionSpec := valueOption "format" format? false

/-- The level above the commands. -/
def topLevel : Level where
  options := ⟨"version", some 'V', .stop .version⟩ :: everywhere
  arguments := []
  commands := ["process", "refs", "vars", "help"]

/-- The level of `process`. -/
def processLevel : Level where
  options :=
    [flag "backup", flag "dry-run", flag "diff", valueOption "ext" some false,
      valueOption "depth-up" levels? false, valueOption "depth-down" depth? true,
      flag "ignore-missing"] ++ everywhere
  arguments := [pathArgument "FILES" true]
  commands := []

/-- The level of `refs`. -/
def refsLevel : Level where
  options := [valueOption "depth" depth? true, formatOption] ++ everywhere
  arguments := [pathArgument "DIR" false]
  commands := []

/-- The level of `vars`. -/
def varsLevel : Level where
  options := everywhere
  arguments := []
  commands := ["get", "list", "set", "del", "help"]

/-- The level of a command below `vars` with these arguments after the file. -/
def variableLevel (names : List String) (options : List OptionSpec) : Level where
  options := options ++ everywhere
  arguments := pathArgument "FILE" false :: names.map textArgument
  commands := []

/-- What help there is to ask for. -/
def topics : List (List String) :=
  [[], ["process"], ["refs"], ["vars"], ["vars", "get"], ["vars", "list"], ["vars", "set"],
    ["vars", "del"], ["vars", "help"], ["help"]]

/-- The answer to a request for help with the command `above` and the words after it. -/
def help (above : List String) (words : List Text) : Stop :=
  if topics.contains (above ++ words.map String.ofList) then .help
  else .refused (.unknownCommand (words.headD []))

/-! ## Commands -/

/-- The command `process`, as it was read. -/
def processCommand (r : Reading) : Command :=
  .process {
    files := r.arguments.map .ofText
    backup := r.has "backup"
    dryRun := r.has "dry-run"
    diff := r.has "diff"
    extension := r.value? "ext" some
    depthUp := r.value? "depth-up" levels?
    depthDown := r.value? "depth-down" depth?
    ignoreMissing := r.has "ignore-missing" }

/-- The format that was asked for. -/
def formatOf (r : Reading) : OutputFormat := (r.value? "format" format?).getD .text

/-- The command `refs`, as it was read. -/
def refsCommand (r : Reading) : Command :=
  .refs (.ofText (r.arguments.headD [])) (r.value? "depth" depth?) (formatOf r)

/-- Reads a command below `vars`. -/
def readVars (word : Text) (rest : List Text) : Except Stop (Command × Reading) :=
  let level (names : List String) (options : List OptionSpec)
      (command : Reading → VariableCommand) : Except Stop (Command × Reading) :=
    (Level.read (variableLevel names options) rest).map fun r =>
      (.vars (.ofText (r.arguments.headD [])) (command r), r)
  let argument (r : Reading) (n : Nat) : Text := (r.arguments[n]?).getD []
  match String.ofList word with
  | "get" => level ["NAME"] [] fun r => .get (argument r 1)
  | "list" => level [] [formatOption] fun r => .list (formatOf r)
  | "set" => level ["NAME", "VALUE"] [] fun r => .set (argument r 1) (argument r 2)
  | "del" => level ["NAME"] [] fun r => .delete (argument r 1)
  | _ => .error (help ["vars"] rest)

/-- The invocation that was read on the levels from the innermost to the outermost. -/
def ofReadings (command : Command) (levels : List Reading) : Invocation where
  settingsPath := levels.findSome? fun r => r.value? "path" path?
  verbose := levels.any fun r => r.has "verbose"
  noColor := levels.any fun r => r.has "no-color"
  command := command

/-- Reads the arguments of the program. -/
def ofArguments (args : List Text) : Except Stop Invocation := do
  let top ← topLevel.read args
  let (word, rest) := top.command.getD ([], [])
  match String.ofList word with
  | "process" =>
    let r ← processLevel.read rest
    return ofReadings (processCommand r) [r, top]
  | "refs" =>
    let r ← refsLevel.read rest
    return ofReadings (refsCommand r) [r, top]
  | "vars" =>
    let middle ← varsLevel.read rest
    let (word, rest) := middle.command.getD ([], [])
    let (command, r) ← readVars word rest
    return ofReadings command [r, middle, top]
  | _ => .error (help [] rest)

end Invocation

end Transclude
