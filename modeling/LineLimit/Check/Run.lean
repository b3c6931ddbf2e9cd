import LineLimit.Check.Error
import LineLimit.Report
import LineLimit.Search
import LineLimit.Text.Lines

/-!
# Running a check

A check reads every file that matches the pattern and lists its long lines. A
failure is noted and the check goes on, unless the check is strict: then the
first failure, of whatever kind, is its outcome. What happens on the way is
told by events, one after the other; they never change the outcome.
-/

namespace LineLimit

/-- What one file holds. -/
structure FileReport where
  path : Path
  /-- How many lines it has. -/
  lines : Nat
  violations : List Violation
  deriving DecidableEq, Repr

/-- What a check has found. -/
structure CheckResult where
  violations : List Violation := []
  /-- How many files were read. -/
  filesScanned : Nat := 0
  /-- How many of them have a line that is too long. -/
  filesWithViolations : Nat := 0
  /-- The failures, in the order in which they were met. -/
  errors : List CheckError := []
  deriving DecidableEq, Repr

namespace CheckResult

/-- Some line is too long. -/
def hasViolations (r : CheckResult) : Bool := !r.violations.isEmpty

/-- The result with one more file. -/
def record (r : CheckResult) (f : FileReport) : CheckResult :=
  { r with
    violations := r.violations ++ f.violations
    filesScanned := r.filesScanned + 1
    filesWithViolations := r.filesWithViolations + if f.violations.isEmpty then 0 else 1 }

/-- The result with one more failure. -/
def skip (r : CheckResult) (e : CheckError) : CheckResult :=
  { r with errors := r.errors ++ [e] }

end CheckResult

/-- Something that happens in a check. -/
inductive Event where
  /-- The root of the pattern is not there. -/
  | rootMissing (root : Path)
  /-- A file was read. -/
  | scanned (path : Path) (lines violations : Nat)
  /-- A failure was passed over. -/
  | skipped (e : CheckError)
  /-- The check came to its end. -/
  | finished (pattern : Text) (files violations failures : Nat)
  deriving DecidableEq, Repr

/-- The outcome of a check, and what happened on the way. -/
structure Run where
  outcome : Except CheckError CheckResult
  events : List Event

namespace Run

/-- The run with an event before all others. -/
def after (e : Event) (r : Run) : Run := { r with events := e :: r.events }

@[simp] theorem outcome_after (e : Event) (r : Run) : (r.after e).outcome = r.outcome := rfl

@[simp] theorem events_after (e : Event) (r : Run) : (r.after e).events = e :: r.events := rfl

end Run

namespace TreeView

/-- The lines of a content that are too long, as violations in a file. -/
def violationsOf (path : Path) (content : Bytes) (maxLen : Nat) : List Violation :=
  (longLines content maxLen).map fun (line, length) => ⟨path, line, length⟩

/-- Read a file and measure its lines. -/
def scanFile (v : TreeView) (path : Path) (maxLen : Nat) : Except CheckError FileReport :=
  match v.read path with
  | .error e => .error (.fileRead path e)
  | .ok content =>
    .ok ⟨path, (lineLengths content).length, violationsOf path content maxLen⟩

/-- Measure the file of an item; the error of an item stays. -/
def scanItem (v : TreeView) (maxLen : Nat) : Except WalkError Path → Except CheckError FileReport
  | .ok path => v.scanFile path maxLen
  | .error e => .error (.walk e)

/-- Go through items, adding to what has been found. -/
def runItems (v : TreeView) (c : CheckConfig) (found : CheckResult) :
    List (Except WalkError Path) → Run
  | [] =>
    ⟨.ok found,
      [.finished c.pattern found.filesScanned found.violations.length found.errors.length]⟩
  | item :: items =>
    match v.scanItem c.maxLen item with
    | .ok f =>
      (v.runItems c (found.record f) items).after
        (.scanned f.path f.lines f.violations.length)
    | .error e =>
      if c.strict then ⟨.error e, []⟩
      else (v.runItems c (found.skip e) items).after (.skipped e)

/-- Run a check, seen from a directory of a tree. Its matchers are taken to be built,
which `Session.ofArguments` asks first. -/
def check (v : TreeView) (c : CheckConfig) : Run :=
  match Pattern.compile c.pattern c.walk.ignoreCase with
  | .error e => ⟨.error (.invalidPattern c.pattern e), []⟩
  | .ok p =>
    let run := v.runItems c {} (v.matchingFiles p c.walk)
    if v.lacksRoot p then run.after (.rootMissing p.root) else run

end TreeView

end LineLimit
