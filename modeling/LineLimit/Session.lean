import LineLimit.CommandLine.Parser
import LineLimit.Platform
import LineLimit.Report.Sink

/-!
# The command, from its words to its exit status

`Session.runOn` is the whole command as a function: given the platform, a tree
seen from the current directory and the words of the command line, what is
written to the two outputs and the exit status. The report goes to the standard
output, and only when the check is complete; the log, the summary and error
messages go to the standard error. A check that finds a long line exits like one
that fails. A pattern whose matchers cannot be built ends the run before it has
looked at anything, with a status of the system's.

Two texts of the standard error are not there in full: of a message about wrong
words all that follows its first blank line, which is how the command is used
(`Usage:` and where to find more), and of a log record in the JSON layout the
time at which it was made.
-/

namespace LineLimit

/-- Why the command failed after its command line was read. -/
inductive Failure where
  /-- The check failed. -/
  | check (e : CheckError)
  /-- The report could not be written. -/
  | writing (reason : Text)
  /-- A JSON value of the report could not be written. -/
  | encoding (reason : Text)
  deriving DecidableEq, Repr

namespace Failure

/-- The failure of a report that did not fit. -/
def ofWrite : Report.WriteFailure → Failure
  | .value => .encoding Report.sinkFull
  | .plain => .writing Report.sinkFull

/-- What the user is told. -/
def message : Failure → Text
  | .check e => e.message
  | .writing reason => "IO error: ".toList ++ reason
  | .encoding reason => "JSON error: ".toList ++ reason

/-- The exit status of every failure. -/
def exitStatus (_ : Failure) : Nat := 1

end Failure

/-- What a run of the command leaves behind. -/
structure Session where
  /-- The standard output. -/
  output : Text
  /-- The standard error, but for what the header of this module leaves out. -/
  errors : Text
  status : Nat
  deriving DecidableEq, Repr

namespace Session

/-- The end of a run that failed after logging `log`. -/
def failed (log : Text) (f : Failure) : Session :=
  ⟨[], log ++ "error: ".toList ++ f.message ++ ['\n'], f.exitStatus⟩

/-- The end of a run that panics. -/
def panicked (pl : Platform) (notice : Text) : Session := ⟨[], notice, pl.panicStatus⟩

/-- The end of a run whose command line asked for no check. A message about wrong
words is told up to its first blank line. -/
def answered (a : CommandLine.Answer) : Session :=
  if a.isMisuse then ⟨[], a.message .suspends ++ ['\n'], a.exitStatus⟩
  else ⟨a.message .suspends, [], a.exitStatus⟩

/-- The end of a run whose check is complete. -/
def completed (args : CommandLine.Arguments) (log : Text) (r : CheckResult) : Session :=
  let summary :=
    if args.summary then
      Report.summary r.violations.length r.filesWithViolations r.filesScanned ++ ['\n']
    else []
  ⟨Report.render args.format r.violations, log ++ summary, if r.hasViolations then 1 else 0⟩

/-- What is said when a matcher that a check needs is not built, if one is not. A
pattern that cannot be read needs none. -/
def refusal? (pl : Platform) (c : CheckConfig) : Option Text :=
  match Pattern.compile c.pattern c.walk.ignoreCase with
  | .error _ => none
  | .ok p => p.refusal? pl

/-- Run a check whose matchers are built. -/
def ofCheck (v : TreeView) (args : CommandLine.Arguments) (c : CheckConfig) : Session :=
  let run := v.check c
  let log := logOf args.logFormat args.level run.events
  match run.outcome with
  | .error e => failed log (.check e)
  | .ok r => completed args log r

/-- Run the check that the arguments ask for. -/
def ofArguments (pl : Platform) (v : TreeView) (args : CommandLine.Arguments) : Session :=
  match args.draft.build with
  | .error e => failed [] (.check (.ofConfigError e))
  | .ok config =>
    match refusal? pl config with
    | some notice => panicked pl notice
    | none => ofCheck v args config

/-- The pattern whose files the command checks, and how it looks for them, if
its words ask for a check and the pattern can be read. -/
def search? (words : List Bytes) : Option (Pattern × WalkOptions) :=
  match CommandLine.parse words with
  | .error _ => none
  | .ok args =>
    match Pattern.compile args.pattern args.ignoreCase with
    | .error _ => none
    | .ok p => some (p, args.draft.walk)

/-- Run the command on a platform. -/
def runOn (pl : Platform) (v : TreeView) (words : List Bytes) : Session :=
  match CommandLine.parse words with
  | .error a => answered a
  | .ok args => ofArguments pl v args

/-- Run the command. -/
def run (v : TreeView) (words : List Bytes) : Session := runOn .standard v words

end Session

end LineLimit
