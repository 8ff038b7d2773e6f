import Transclude.Markup.Directive

/-!
# Errors

What can go wrong, by cause (`MdrefError`). `Error.message` has the wording, `Error.code` the code
that reports carry, and `Error.help?` the advice that goes with it. Paths in an error are as they
are shown, so an error does not tell paths apart that are shown alike.
-/

namespace Transclude

/-- Text as a string, for messages and printing. -/
def Text.string (t : Text) : String := String.ofList t

/-- What a name stands for when its declaration or its use fails. -/
inductive KeyKind where
  | ref
  | var
  | file
  deriving DecidableEq, Repr

/-- How messages call it. -/
def KeyKind.name : KeyKind → String
  | ref => "reference"
  | var => "variable"
  | file => "include file"

/-- Why the directory tree refuses an access. -/
inductive Fault where
  | missing
  | notDirectory
  | isDirectory
  | alreadyExists
  | tooManyLinks
  | busy
  /-- The bytes of a file are not UTF-8. -/
  | notText
  deriving DecidableEq, Repr

/-- How reports describe it. -/
def Fault.message : Fault → String
  | missing => "no such file or directory"
  | notDirectory => "not a directory"
  | isDirectory => "is a directory"
  | alreadyExists => "file exists"
  | tooManyLinks => "too many levels of symbolic links"
  | busy => "device or resource busy"
  | notText => "the file is not valid UTF-8"

/-- Why an argument is refused before anything is read. -/
inductive Invalid where
  | variableName (name : Text)
  | depthText (text : Text)
  | depthNumber (n : Int)
  | emptyExtension
  | otherExtension (path extension : Text)
  | emptyFileName
  | rootedSearchPath (path : Text)
  | emptyIncludeName
  | rootedInclude (name : Text)
  | climbingInclude (name : Text)
  /-- A reason given from outside. -/
  | other (reason : Text)
  deriving DecidableEq, Repr

/-- The reason in words. -/
def Invalid.message : Invalid → String
  | variableName name =>
    s!"invalid variable name `{name.string}`: use letters, digits, `_`, `-`, `.` or `/`"
  | depthText text => s!"invalid depth `{text.string}`"
  | depthNumber n => s!"depth must be -1 (unlimited) or a non-negative number, got {n}"
  | emptyExtension => "file extension must not be empty"
  | otherExtension path extension =>
    s!"`{path.string}` does not have the `.{extension.string}` extension"
  | emptyFileName => "file name must not be empty"
  | rootedSearchPath path => s!"search path `{path.string}` must be relative"
  | emptyIncludeName => "include file name must not be empty"
  | rootedInclude name => s!"absolute include path `{name.string}` is not allowed"
  | climbingInclude name => s!"include path `{name.string}` must not traverse parent directories"
  | other reason => reason.string

/-- Why a pattern for file names cannot be read. -/
inductive BadGlob where
  | unopenedAlternation
  | unclosedAlternation
  | danglingEscape
  | invalidRange (first last : Char)
  deriving DecidableEq, Repr

/-- The reason in words. -/
def BadGlob.message : BadGlob → String
  | unopenedAlternation => "unopened alternate group; missing opening brace"
  | unclosedAlternation => "unclosed alternate group; missing closing brace"
  | danglingEscape => "dangling backslash"
  | invalidRange first last => s!"invalid range; {first} comes after {last}"

/-- Why settings are refused. -/
inductive BadConfig where
  | emptyExtension
  /-- The text is not TOML, or its keys and values are not those of the settings. -/
  | unreadable
  | excludePattern (pattern : Text) (cause : BadGlob)
  /-- A reason given from outside. -/
  | other (reason : Text)
  deriving DecidableEq, Repr

/-- The reason in words. -/
def BadConfig.message : BadConfig → String
  | emptyExtension => "`extension` must not be empty"
  | unreadable => "the text does not hold settings"
  | excludePattern pattern cause => s!"invalid exclude pattern `{pattern.string}`: {cause.message}"
  | other reason => reason.string

/-- What can go wrong. -/
inductive Error where
  | io (cause : Fault)
  | validation (cause : Invalid)
  | notFound (what : Text)
  /-- The block `name`, opened on `line`, is never closed. -/
  | missingEnd (kind : BlockKind) (name : Text) (line : Nat)
  | duplicateKey (kind : KeyKind) (name : Text)
  | unresolvedKey (kind : KeyKind) (name : Text)
  | config (cause : BadConfig)
  /-- The directory at `path` has been visited before. -/
  | symlinkCycle (path : Text)
  deriving DecidableEq, Repr

namespace Error

/-- The wording of an error. -/
def message : Error → String
  | io cause => cause.message
  | validation cause => s!"invalid input: {cause.message}"
  | notFound what => s!"not found: `{what.string}`"
  | missingEnd kind name line =>
    s!"missing `<!-- end-{kind.name} -->` for `begin-{kind.name}({name.string})` " ++
      s!"opened on line {line}"
  | duplicateKey kind name => s!"duplicate {kind.name} `{name.string}`"
  | unresolvedKey kind name => s!"unresolved {kind.name} `{name.string}`"
  | config cause => s!"failed to parse config file: {cause.message}"
  | symlinkCycle path => s!"symlink cycle detected at: `{path.string}`"

/-- The code that a report of the error carries. -/
def code : Error → String
  | io _ => "mdref::io_error"
  | validation _ => "mdref::validation"
  | notFound _ => "mdref::not_found"
  | missingEnd .. => "mdref::missing_end_marker"
  | duplicateKey .. => "mdref::duplicate_key"
  | unresolvedKey .. => "mdref::unresolved_key"
  | config _ => "mdref::config_parse"
  | symlinkCycle _ => "mdref::symlink_cycle"

/-- The advice that goes with an error. -/
def help? : Error → Option String
  | io _ => none
  | validation _ => none
  | notFound _ => some "check the path and the configured search folders"
  | missingEnd kind .. => some s!"add `<!-- end-{kind.name} -->` after the block content"
  | duplicateKey kind _ => some s!"each {kind.name} name must be unique within its scope"
  | unresolvedKey kind _ =>
    some s!"declare the {kind.name} in a scanned file or run with `--ignore-missing`"
  | config _ => some "check that mdref.toml is valid TOML"
  | symlinkCycle _ => some "remove the circular symlink or exclude this path"

end Error

end Transclude
