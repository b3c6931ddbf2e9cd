import LineLimit.CommandLine.Usage
import LineLimit.Text.Utf8

/-!
# Reading a command line

Words are read from left to right. A word with a value, be it an operand or an
option whose value is the next word, is pending until something else is read;
only then is it looked at, so of two faults the one that comes first is
reported, unless a word is read that can be nothing at all.

`--` ends the options: every word after it is an operand. Before it, a word
that starts with `--` is an option with an optional `=` and value; a word that
starts with `-` and goes on holds the letters of flags; any other word is the
value of the option before it, if that one waits for a value, and otherwise an
operand.
-/

namespace LineLimit.CommandLine

/-- A word whose meaning is known and whose value has not been looked at. -/
inductive Pending where
  /-- An option that waits for its value. -/
  | waiting (s : Setting)
  /-- An option with the word after it. -/
  | setting (s : Setting) (value : Bytes)
  | operand (o : Operand) (value : Bytes)

/-- What the words read so far say. -/
structure Found where
  pattern : Option Text := none
  maxLen : Option Nat := none
  format : Option ReportFormat := none
  logFormat : Option LogFormat := none
  /-- How often `--verbose` was given. -/
  verbose : Nat := 0
  /-- The options given, in the order in which each was given last. -/
  given : List Setting := []

/-- How far a command line has been read. -/
structure Reader where
  found : Found := {}
  pending : Option Pending := none
  /-- How many operands have been read. -/
  operands : Nat := 0
  /-- A `--` has been read. -/
  onlyOperands : Bool := false

/-- The limit that a text denotes: decimal digits, after a `+` that may come
first. -/
def readCount (t : Text) : Except CountError Nat :=
  match t with
  | [] => .error .empty
  | ['+'] => .error .invalidDigit
  | '+' :: digits => go digits
  | digits => go digits
where
  /-- Reads digits until one is no digit or the number is too large. -/
  go (digits : Text) : Except CountError Nat :=
    digits.foldlM
      (fun n c =>
        if c.isDigit then
          let m := n * 10 + (c.toNat - '0'.toNat)
          if m ≤ countLimit then .ok m else .error .tooLarge
        else .error .invalidDigit)
      0

namespace Found

/-- Note an option that may be given once. -/
def once (f : Found) (s : Setting) : Except UsageError Found :=
  if f.given.contains s then .error (.repeated s) else .ok { f with given := f.given ++ [s] }

/-- Note the value of an option. -/
def set (f : Found) (s : Setting) (value : Bytes) : Except UsageError Found := do
  let f ← f.once s
  let name := readUtf8? value
  match s with
  | .format =>
    match name.bind ReportFormat.ofName? with
    | some format => .ok { f with format := some format }
    | none => .error (.noChoice (lossy value) s)
  | .logFormat =>
    match name.bind LogFormat.ofName? with
    | some format => .ok { f with logFormat := some format }
    | none => .error (.noChoice (lossy value) s)
  | _ => .ok f

/-- Note an operand. -/
def setOperand (f : Found) (o : Operand) (value : Bytes) : Except UsageError Found :=
  match readUtf8? value with
  | none => .error .notText
  | some t =>
    match o with
    | .pattern => .ok { f with pattern := some t }
    | .maxLen =>
      match readCount t with
      | .ok n => .ok { f with maxLen := some n }
      | .error e => .error (.noCount t e)

/-- Note a flag. -/
def raise (f : Found) (s : Setting) : Except Answer Found :=
  match s with
  | .version => .error .version
  | .verbose =>
    .ok { f with verbose := min (f.verbose + 1) 255, given := f.given.filter (· ≠ s) ++ [s] }
  | _ => (f.once s).mapError .misuse

end Found

namespace Reader

/-- Look at the pending word. -/
def settle (r : Reader) : Except UsageError Reader := do
  let found ← match r.pending with
    | none => .ok r.found
    | some (.waiting s) => .error (.noValue s)
    | some (.setting s value) => r.found.set s value
    | some (.operand o value) => r.found.setOperand o value
  .ok { r with found := found, pending := none }

/-- Read a flag, given by its letter or by its long name. -/
def flag (r : Reader) (s : Setting) (byLetter : Bool) : Except Answer Reader := do
  let r ← r.settle.mapError .misuse
  if s = .help then .error (if byLetter then .shortHelp else .longHelp)
  else do
    let found ← r.found.raise s
    .ok { r with found := found }

/-- Read a word that is an operand. -/
def operand (r : Reader) (word : Bytes) : Except UsageError Reader :=
  let next (o : Operand) : Except UsageError Reader :=
    r.settle.map fun r => { r with pending := some (.operand o word), operands := r.operands + 1 }
  match r.operands with
  | 0 => next .pattern
  | 1 => next .maxLen
  | _ => .error (.unexpected (lossy word))

/-- Read an option by its long name, with the value after its `=` if it has
one. -/
def long (r : Reader) (name : Bytes) (value : Option Bytes) : Except Answer Reader :=
  match (readUtf8? name).bind Setting.ofLong?, value with
  | none, _ => .error (.misuse (.unexpected ('-' :: '-' :: lossy name)))
  | some s, none =>
    if s.takesValue then
      (r.settle.map fun r => { r with pending := some (.waiting s) }).mapError .misuse
    else r.flag s false
  | some s, some value =>
    if s.takesValue then do
      let r ← r.settle.mapError .misuse
      let found ← (r.found.set s value).mapError .misuse
      .ok { r with found := found }
    else .error (.misuse (.unexpectedValue (lossy value) s))

/-- Read the letters of flags; `none` stands for bytes that are no letter. -/
def letters (r : Reader) : List (Option Char) → Except Answer Reader
  | [] => .ok r
  | none :: rest =>
    .error (.misuse (.unexpected ('-' :: (none :: rest).map (·.getD '\uFFFD'))))
  | some c :: rest =>
    match Setting.ofLetter? c with
    | none => .error (.misuse (.unexpected ['-', c]))
    | some s => do (← r.flag s true).letters rest

/-- Read one word. -/
def step (r : Reader) (word : Bytes) : Except Answer Reader :=
  if r.onlyOperands then (r.operand word).mapError .misuse
  else match word with
    | [0x2D, 0x2D] => .ok { r with onlyOperands := true }
    | 0x2D :: 0x2D :: rest =>
      let name := rest.takeWhile (· ≠ 0x3D)
      r.long name ((rest.drop name.length).tail?)
    | 0x2D :: b :: rest => r.letters (Utf8.decode (b :: rest))
    | _ =>
      match r.pending with
      | some (.waiting s) => .ok { r with pending := some (.setting s word) }
      | _ => (r.operand word).mapError .misuse

/-- The two options that exclude each other, in the order given, if both are. -/
def conflict? (given : List Setting) : Option (Setting × Setting) :=
  match given.filter fun s => s = .quiet || s = .verbose with
  | first :: second :: _ => some (first, second)
  | _ => none

/-- What the whole command line says. -/
def finish (r : Reader) : Except UsageError Arguments := do
  let r ← r.settle
  let f := r.found
  let has (s : Setting) : Bool := f.given.contains s
  match conflict? f.given with
  | some (first, second) => .error (.together first second)
  | none =>
    match f.pattern, f.maxLen with
    | none, none => .error (.missing [.pattern, .maxLen])
    | none, some _ => .error (.missing [.pattern])
    | some _, none => .error (.missing [.maxLen])
    | some pattern, some maxLen =>
      .ok
        { pattern := pattern
          maxLen := maxLen
          format := f.format.getD .text
          summary := has .summary
          hidden := has .hidden
          followLinks := has .followLinks
          ignoreCase := has .ignoreCase
          strict := has .strict
          verbose := f.verbose
          quiet := has .quiet
          logFormat := f.logFormat.getD .compact }

end Reader

/-- Read a command line, without the name of the command. -/
def parse (words : List Bytes) : Except Answer Arguments := do
  let r ← words.foldlM Reader.step {}
  r.finish.mapError .misuse

end LineLimit.CommandLine
