import LineLimit.Check.Run
import LineLimit.Text.Quoted
import LineLimit.Text.Terminal

/-!
# The log of a check

The log tells the events of a check, one record for each, from a chosen level
upward. A record has a level, a message and named fields, and is written in
one of two layouts: a line for people, or a JSON object for programs. Both are
functions of the events alone.
-/

namespace LineLimit

/-- How much an event matters, the most important first. -/
inductive Level where
  | error
  | warning
  | info
  | debug
  | trace
  deriving DecidableEq, Repr

namespace Level

/-- How far down a level is. -/
def rank : Level → Nat
  | .error => 0
  | .warning => 1
  | .info => 2
  | .debug => 3
  | .trace => 4

/-- The name of a level in a record. -/
def label : Level → Text
  | .error => "ERROR".toList
  | .warning => "WARN".toList
  | .info => "INFO".toList
  | .debug => "DEBUG".toList
  | .trace => "TRACE".toList

/-- The last level that is logged, going by how often more was asked for and
whether only errors were: warnings, and one level more each time. -/
def ofVerbosity (verbose : Nat) (quiet : Bool) : Level :=
  if quiet then .error
  else match verbose with
    | 0 => .warning
    | 1 => .info
    | 2 => .debug
    | _ => .trace

end Level

/-- The layout of log records. -/
inductive LogFormat where
  | compact
  | json
  deriving DecidableEq, Repr

/-- The value of a field of a record. -/
inductive FieldValue where
  /-- A text that the compact layout puts in quotes. -/
  | text (t : Text)
  /-- A path, shown lossily and never in quotes in the compact layout. -/
  | path (p : Path)
  | number (n : Nat)
  deriving DecidableEq, Repr

namespace FieldValue

/-- The value in the compact layout. -/
def compact : FieldValue → Text
  | .text t => quoted t
  | .path p => lossy p
  | .number n => decimal n

/-- The value in the JSON layout. -/
def json : FieldValue → Json.Scalar
  | .text t => .text t
  | .path p => .text (lossy p)
  | .number n => .number n

end FieldValue

namespace Event

/-- How much an event matters. -/
def level : Event → Level
  | .rootMissing _ => .debug
  | .scanned .. => .debug
  | .skipped _ => .warning
  | .finished .. => .info

/-- What a record says of an event. -/
def message : Event → Text
  | .rootMissing _ => "walk root does not exist".toList
  | .scanned .. => "scanned file".toList
  | .skipped e => "skipping: ".toList ++ e.message
  | .finished .. => "check finished".toList

/-- The fields of the record of an event, in the order written. -/
def fields : Event → List (Text × FieldValue)
  | .rootMissing root => [("root".toList, .path root)]
  | .scanned path lines violations =>
    [("path".toList, .path path), ("lines".toList, .number lines),
     ("violations".toList, .number violations)]
  | .skipped _ => []
  | .finished pattern files violations failures =>
    [("pattern".toList, .text pattern), ("files".toList, .number files),
     ("violations".toList, .number violations), ("skipped".toList, .number failures)]

/-- A field in the compact layout. -/
def compactField (f : Text × FieldValue) : Text := ' ' :: f.1 ++ '=' :: f.2.compact

/-- The record of an event for people: the level, flush right in five columns,
the message, and the fields. -/
def compactRecord (e : Event) : Text :=
  List.replicate (5 - e.level.label.length) ' ' ++ e.level.label ++
    ' ' :: Terminal.withVisibleOrders e.message ++ e.fields.flatMap compactField

/-- The fields of the record of an event for programs, the message first. -/
def jsonFields (e : Event) : Json.Record :=
  ("message".toList, .text e.message) :: e.fields.map fun (name, value) => (name, value.json)

/-- The record of an event for programs, but for its first member, `timestamp`: the
time at which it is written is no matter of the event. -/
def jsonRecord (e : Event) : Text :=
  '{' :: Json.quote "level".toList ++ ':' :: Json.quote e.level.label ++
    ',' :: Json.quote "fields".toList ++ ':' :: Json.compact e.jsonFields ++ ['}']

/-- The record of an event. -/
def record (format : LogFormat) (e : Event) : Text :=
  match format with
  | .compact => e.compactRecord
  | .json => e.jsonRecord

end Event

/-- The log of events, down to a level: a line for each. -/
def logOf (format : LogFormat) (last : Level) (events : List Event) : Text :=
  (events.filter (·.level.rank ≤ last.rank)).flatMap fun e => e.record format ++ ['\n']

end LineLimit
