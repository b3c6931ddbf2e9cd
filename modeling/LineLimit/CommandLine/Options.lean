import LineLimit.Config
import LineLimit.Log
import LineLimit.Report

/-!
# The options of the command

The command takes two operands, a pattern and a limit, and options, which are
described by one table: the long name of an option, its letter if it has one,
and the values it takes if it takes any. `Arguments` is what a well-formed
command line says.
-/

namespace LineLimit

namespace ReportFormat

/-- All formats, in the order in which help lists them. -/
def all : List ReportFormat := [.text, .json, .jsonLines]

/-- The name of a format. -/
def name : ReportFormat → Text
  | .text => "text".toList
  | .json => "json".toList
  | .jsonLines => "jsonl".toList

/-- The format of this name. -/
def ofName? (name : Text) : Option ReportFormat := all.find? (·.name = name)

/-- A format is found by its name. -/
theorem ofName?_name (f : ReportFormat) : ofName? f.name = some f := by
  cases f <;> decide

end ReportFormat

namespace LogFormat

/-- All formats, in the order in which help lists them. -/
def all : List LogFormat := [.compact, .json]

/-- The name of a format. -/
def name : LogFormat → Text
  | .compact => "compact".toList
  | .json => "json".toList

/-- The format of this name. -/
def ofName? (name : Text) : Option LogFormat := all.find? (·.name = name)

theorem ofName?_name (f : LogFormat) : ofName? f.name = some f := by
  cases f <;> decide

end LogFormat

namespace CommandLine

/-- An option. -/
inductive Setting where
  | format
  | summary
  | hidden
  | followLinks
  | ignoreCase
  | strict
  | verbose
  | quiet
  | logFormat
  | help
  | version
  deriving DecidableEq, Repr

namespace Setting

/-- All options, in the order in which help lists them. -/
def all : List Setting :=
  [.format, .summary, .hidden, .followLinks, .ignoreCase, .strict, .verbose, .quiet, .logFormat,
    .help, .version]

/-- The name of an option after `--`. -/
def long : Setting → Text
  | .format => "format".toList
  | .summary => "summary".toList
  | .hidden => "hidden".toList
  | .followLinks => "follow-links".toList
  | .ignoreCase => "ignore-case".toList
  | .strict => "strict".toList
  | .verbose => "verbose".toList
  | .quiet => "quiet".toList
  | .logFormat => "log-format".toList
  | .help => "help".toList
  | .version => "version".toList

/-- The letter of an option after `-`, if it has one. -/
def letter : Setting → Option Char
  | .ignoreCase => some 'i'
  | .verbose => some 'v'
  | .quiet => some 'q'
  | .help => some 'h'
  | .version => some 'V'
  | _ => none

/-- The values an option takes; an option without any is a flag. -/
def choices : Setting → List Text
  | .format => ReportFormat.all.map ReportFormat.name
  | .logFormat => LogFormat.all.map LogFormat.name
  | _ => []

/-- Whether an option takes a value. -/
def takesValue (s : Setting) : Bool := !s.choices.isEmpty

/-- The option as messages show it. -/
def shown (s : Setting) : Text :=
  '-' :: '-' :: s.long ++ match s with
    | .format => " <FORMAT>".toList
    | .logFormat => " <LOG_FORMAT>".toList
    | .verbose => "...".toList
    | _ => []

/-- The option with this long name. -/
def ofLong? (name : Text) : Option Setting := all.find? (·.long = name)

/-- The option with this letter. -/
def ofLetter? (c : Char) : Option Setting := all.find? (·.letter = some c)

/-- An option is found by its long name. -/
theorem ofLong?_long (s : Setting) : ofLong? s.long = some s := by
  cases s <;> decide

/-- An option is found by its letter, if it has one. -/
theorem ofLetter?_letter {c : Char} {s : Setting} (h : s.letter = some c) :
    ofLetter? c = some s := by
  cases s <;> simp [letter] at h <;> subst h <;> decide

end Setting

/-- An operand. -/
inductive Operand where
  | pattern
  | maxLen
  deriving DecidableEq, Repr

/-- The operand as messages show it. -/
def Operand.shown : Operand → Text
  | .pattern => "<PATTERN>".toList
  | .maxLen => "<MAX_LEN>".toList

/-- What a command line says. -/
structure Arguments where
  pattern : Text
  maxLen : Nat
  format : ReportFormat
  summary : Bool
  hidden : Bool
  followLinks : Bool
  ignoreCase : Bool
  strict : Bool
  /-- How often `--verbose` was given, 255 times at most. -/
  verbose : Nat
  quiet : Bool
  logFormat : LogFormat
  deriving DecidableEq, Repr

namespace Arguments

/-- The description of the check that the command line asks for. -/
def draft (a : Arguments) : ConfigDraft :=
  { pattern := some a.pattern
    maxLen := some a.maxLen
    walk := ⟨a.hidden, a.followLinks, a.ignoreCase⟩
    strict := a.strict }

/-- The last level that is logged. -/
def level (a : Arguments) : Level := .ofVerbosity a.verbose a.quiet

end Arguments

end CommandLine

end LineLimit
