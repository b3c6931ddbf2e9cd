import LineLimit.Text.Json
import LineLimit.Text.Utf8

/-!
# Violations and reports

A violation is a line that is too long. A report lists violations in one of
three formats: a plain line for each, one JSON list of all, or one JSON object
on each line. Paths are shown lossily, as everywhere.

A report is a list of pieces. Each piece says whether it is a JSON value or
plain text between and after values, because that decides which error a writer
reports when the place written to is full (`LineLimit.Report.Sink`).
-/

namespace LineLimit

/-- A line with more bytes than allowed. -/
structure Violation where
  /-- The file it is in. -/
  path : Bytes
  /-- Its number in the file, from 1. -/
  line : Nat
  /-- Its length in bytes. -/
  length : Nat
  deriving DecidableEq, Repr

/-- The form of a report. -/
inductive ReportFormat where
  | text
  | json
  | jsonLines
  deriving DecidableEq, Repr

/-- A stretch of a report. -/
inductive ReportPiece where
  /-- A JSON value. -/
  | value (t : Text)
  /-- Text outside JSON values. -/
  | plain (t : Text)
  deriving DecidableEq, Repr

/-- The characters of a piece. -/
def ReportPiece.chars : ReportPiece → Text
  | .value t => t
  | .plain t => t

namespace Violation

/-- The violation as a line of the plain format, its newline included. -/
def plainLine (v : Violation) : Text :=
  lossy v.path ++ ':' :: decimal v.line ++ ": Length ".toList ++ decimal v.length ++ ['\n']

/-- The violation as a JSON record. -/
def record (v : Violation) : Json.Record :=
  [("path".toList, .text (lossy v.path)),
   ("line".toList, .number v.line),
   ("length".toList, .number v.length)]

end Violation

namespace Report

/-- The pieces of a report. -/
def pieces (format : ReportFormat) (vs : List Violation) : List ReportPiece :=
  match format with
  | .text => vs.map fun v => .plain v.plainLine
  | .json => [.value (Json.indented (vs.map Violation.record)), .plain ['\n']]
  | .jsonLines => vs.flatMap fun v => [.value (Json.compact v.record), .plain ['\n']]

/-- The whole text of a report. -/
def render (format : ReportFormat) (vs : List Violation) : Text :=
  (pieces format vs).flatMap ReportPiece.chars

/-- The line that sums up a check: how many violations, in how many files, of
how many that were read. -/
def summary (violations filesWithViolations filesScanned : Nat) : Text :=
  decimal violations ++ " violation(s) in ".toList ++ decimal filesWithViolations ++
    " file(s) (".toList ++ decimal filesScanned ++ " scanned)".toList

end Report

end LineLimit
