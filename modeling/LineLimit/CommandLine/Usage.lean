import LineLimit.CommandLine.Options
import LineLimit.Text.Terminal

/-!
# What a command line is answered with

A command line that does not ask for a check is answered with a text: help,
the version, or what is wrong with it. Words of the command line are repeated
in a message without the orders that a terminal would follow, and a message
ends at its first blank line, wherever that comes from.

What becomes of an order that a separator interrupts depends on where the
message goes, so every text with such words in it takes an `Interruption`: in a
message that is kept as a text the order ends, and in one that is written to
the standard error it is suspended.
-/

namespace LineLimit.CommandLine

/-- The largest limit: the largest number of 64 bits. -/
def countLimit : Nat := UInt64.size - 1

/-- Why a text is not a limit. -/
inductive CountError where
  | empty
  /-- Something other than a digit, after a `+` that may come first. -/
  | invalidDigit
  | tooLarge
  deriving DecidableEq, Repr

/-- What the user is told of a text that is not a limit. -/
def CountError.message : CountError → Text
  | .empty => "cannot parse integer from empty string".toList
  | .invalidDigit => "invalid digit found in string".toList
  | .tooLarge => "number too large to fit in target type".toList

/-- What is wrong with a command line. -/
inductive UsageError where
  /-- A word that is no option, or an operand too many. -/
  | unexpected (argument : Text)
  /-- A flag with a value. -/
  | unexpectedValue (value : Text) (s : Setting)
  /-- An option without its value. -/
  | noValue (s : Setting)
  /-- An option with a value it does not take. -/
  | noChoice (value : Text) (s : Setting)
  /-- A limit that is none. -/
  | noCount (value : Text) (e : CountError)
  /-- An option that was given before. -/
  | repeated (s : Setting)
  /-- Two options that exclude each other. -/
  | together (first second : Setting)
  /-- Operands that were not given. -/
  | missing (operands : List Operand)
  /-- An operand that is not text. -/
  | notText
  deriving DecidableEq, Repr

/-- A word in quotes, without orders to a terminal. -/
def named (i : Terminal.Interruption) (word : Text) : Text :=
  '\'' :: Terminal.withoutOrders i word ++ ['\'']

/-- The list of the values that an option takes. -/
def choiceList (s : Setting) : Text :=
  "\n  [possible values: ".toList ++ ", ".toList.intercalate s.choices ++ [']']

/-- That an option has no value. -/
def valueMissing (i : Terminal.Interruption) (s : Setting) : Text :=
  "a value is required for ".toList ++ named i s.shown ++ " but none was supplied".toList ++
    choiceList s

/-- A text up to its first blank line. -/
def firstParagraph : Text → Text
  | '\n' :: '\n' :: _ => []
  | c :: t => c :: firstParagraph t
  | [] => []

namespace UsageError

/-- What is wrong, in words. -/
def reason (i : Terminal.Interruption) : UsageError → Text
  | .unexpected argument => "unexpected argument ".toList ++ named i argument ++ " found".toList
  | .unexpectedValue value s =>
    "unexpected value ".toList ++ named i value ++ " for ".toList ++ named i s.shown ++
      " found; no more were expected".toList
  | .noValue s => valueMissing i s
  | .noChoice value s =>
    if value.isEmpty then valueMissing i s
    else
      "invalid value ".toList ++ named i value ++ " for ".toList ++ named i s.shown ++ choiceList s
  | .noCount value e =>
    "invalid value ".toList ++ named i value ++ " for ".toList ++ named i Operand.maxLen.shown ++
      ": ".toList ++ e.message
  | .repeated s =>
    "the argument ".toList ++ named i s.shown ++ " cannot be used multiple times".toList
  | .together first second =>
    "the argument ".toList ++ named i first.shown ++ " cannot be used with ".toList ++
      named i second.shown
  | .missing operands =>
    "the following required arguments were not provided:".toList ++
      operands.flatMap fun o => "\n  ".toList ++ o.shown
  | .notText => "invalid UTF-8 was detected in one or more arguments".toList

/-- What the user is told, up to its first blank line. How the command is used, which the
user is told after that, is left out. -/
def message (i : Terminal.Interruption) (e : UsageError) : Text :=
  firstParagraph ("error: ".toList ++ e.reason i)

end UsageError

/-- The lines of a text, each with its newline. -/
def linesOf (lines : List String) : Text := lines.flatMap fun l => l.toList ++ ['\n']

/-- The answer to `-h`. -/
def shortHelp : Text := linesOf
  ["Report lines longer than MAX_LEN bytes in files matching PATTERN",
   "",
   "Usage: check_line_length [OPTIONS] <PATTERN> <MAX_LEN>",
   "",
   "Arguments:",
   "  <PATTERN>  Glob pattern; `**` matches any number of directories",
   "  <MAX_LEN>  Longest accepted line in bytes",
   "",
   "Options:",
   "      --format <FORMAT>          Output format [default: text] [possible values: text, json, jsonl]",
   "      --summary                  Print a violation count to stderr after the report",
   "      --hidden                   Let wildcards match hidden files and directories",
   "      --follow-links             Follow symbolic links while walking",
   "  -i, --ignore-case              Match the pattern case-insensitively",
   "      --strict                   Abort on the first unreadable file instead of skipping it",
   "  -v, --verbose...               More log output (-v info, -vv debug, -vvv trace)",
   "  -q, --quiet                    Only log errors",
   "      --log-format <LOG_FORMAT>  Log record format [default: compact] [possible values: compact, json]",
   "  -h, --help                     Print help (see more with '--help')",
   "  -V, --version                  Print version"]

/-- The answer to `--help`. -/
def longHelp : Text := linesOf
  ["Report lines longer than MAX_LEN bytes in files matching PATTERN",
   "",
   "Usage: check_line_length [OPTIONS] <PATTERN> <MAX_LEN>",
   "",
   "Arguments:",
   "  <PATTERN>",
   "          Glob pattern; `**` matches any number of directories",
   "",
   "  <MAX_LEN>",
   "          Longest accepted line in bytes",
   "",
   "Options:",
   "      --format <FORMAT>",
   "          Output format",
   "",
   "          Possible values:",
   "          - text:  `<path>:<line>: Length <n>`",
   "          - json:  One JSON array of all violations",
   "          - jsonl: One JSON object per line",
   "          ",
   "          [default: text]",
   "",
   "      --summary",
   "          Print a violation count to stderr after the report",
   "",
   "      --hidden",
   "          Let wildcards match hidden files and directories",
   "",
   "      --follow-links",
   "          Follow symbolic links while walking",
   "",
   "  -i, --ignore-case",
   "          Match the pattern case-insensitively",
   "",
   "      --strict",
   "          Abort on the first unreadable file instead of skipping it",
   "",
   "  -v, --verbose...",
   "          More log output (-v info, -vv debug, -vvv trace)",
   "",
   "  -q, --quiet",
   "          Only log errors",
   "",
   "      --log-format <LOG_FORMAT>",
   "          Log record format",
   "          ",
   "          [default: compact]",
   "          [possible values: compact, json]",
   "",
   "  -h, --help",
   "          Print help (see a summary with '-h')",
   "",
   "  -V, --version",
   "          Print version"]

/-- The answer to `--version`. -/
def versionText : Text := linesOf ["check_line_length 0.1.0"]

/-- An answer to a command line that asks for no check. -/
inductive Answer where
  | shortHelp
  | longHelp
  | version
  | misuse (e : UsageError)
  deriving DecidableEq, Repr

namespace Answer

/-- The words of an answer. -/
def message (i : Terminal.Interruption) : Answer → Text
  | .shortHelp => CommandLine.shortHelp
  | .longHelp => CommandLine.longHelp
  | .version => versionText
  | .misuse e => e.message i

/-- Whether the command line is to blame. -/
def isMisuse : Answer → Bool
  | .misuse _ => true
  | _ => false

/-- The exit status: only a command line that is to blame fails. -/
def exitStatus (a : Answer) : Nat := if a.isMisuse then 1 else 0

end Answer

end LineLimit.CommandLine
