import LineLimit.Text.Basic

/-!
# JSON as it is written here

Reports and log records are flat: a record is a list of named members, each a
text or a number, and a document is one record or a list of them. There are
two layouts. The compact one has no blanks at all, so that a record stays on
one line whatever its texts hold; the indented one puts every bracket and
every member on a line of its own, two blanks deeper per level.
-/

namespace LineLimit.Json

/-- The value of a member. -/
inductive Scalar where
  | text (t : Text)
  | number (n : Nat)
  deriving DecidableEq, Repr

/-- A JSON object without nesting: its members, in the order written. -/
abbrev Record := List (Text × Scalar)

/-- The small hexadecimal digit of a number below sixteen. -/
def hexDigit (n : Nat) : Char := Nat.digitChar (n % 16)

/-- How a character stands inside a quoted text: the quote, the backslash and
the control characters are escaped, all others stand for themselves. -/
def escape (c : Char) : Text :=
  if c = '"' then ['\\', '"']
  else if c = '\\' then ['\\', '\\']
  else if c = '\n' then ['\\', 'n']
  else if c = '\r' then ['\\', 'r']
  else if c = '\t' then ['\\', 't']
  else if c = '\x08' then ['\\', 'b']
  else if c = '\x0c' then ['\\', 'f']
  else if c.toNat < 0x20 then
    ['\\', 'u', '0', '0', hexDigit (c.toNat / 16), hexDigit c.toNat]
  else [c]

/-- A text between quotes. -/
def quote (t : Text) : Text := '"' :: t.flatMap escape ++ ['"']

/-- A value, written. -/
def Scalar.write : Scalar → Text
  | .text t => quote t
  | .number n => decimal n

/-- A member in compact layout. -/
def compactMember (m : Text × Scalar) : Text := quote m.1 ++ ':' :: m.2.write

/-- A record in compact layout. -/
def compact (r : Record) : Text :=
  '{' :: [','].intercalate (r.map compactMember) ++ ['}']

/-- A new line in the indented layout, `depth` levels deep. -/
def lineBreak (depth : Nat) : Text := '\n' :: List.replicate (2 * depth) ' '

/-- A bracketed list in the indented layout at a level: nothing stands between
the brackets of an empty one, and otherwise each item has a line of its own. -/
def indentedList (opening closing : Char) (depth : Nat) (items : List Text) : Text :=
  if items.isEmpty then [opening, closing]
  else
    opening :: [','].intercalate (items.map (lineBreak (depth + 1) ++ ·)) ++
      lineBreak depth ++ [closing]

/-- A member in the indented layout. -/
def indentedMember (m : Text × Scalar) : Text := quote m.1 ++ ':' :: ' ' :: m.2.write

/-- A record in the indented layout at a level. -/
def indentedRecord (depth : Nat) (r : Record) : Text :=
  indentedList '{' '}' depth (r.map indentedMember)

/-- A list of records in the indented layout. -/
def indented (rs : List Record) : Text :=
  indentedList '[' ']' 0 (rs.map (indentedRecord 1))

end LineLimit.Json
