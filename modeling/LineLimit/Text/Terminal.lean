import LineLimit.Text.Quoted
import LineLimit.Text.Utf8

/-!
# Text that is safe on a terminal

A terminal takes some characters as orders. Text that comes from outside must
not give any, and there are two ways to see to it. `withoutOrders` leaves the
orders out, together with the parameters that belong to them, which it finds
the way a terminal does, byte by byte. `withVisibleOrders` keeps every
character and writes those that could start or end an order as escapes.

A line end or another separator is shown even where it stands inside an order.
Readers of a text disagree about what becomes of that order, so `withoutOrders`
is told (`Interruption`).
-/

namespace LineLimit.Terminal

/-- How far the parameters of an order have been read. -/
inductive Stage where
  | entry
  | parameter
  | intermediate
  /-- The parameters are malformed. -/
  | ignored
  deriving DecidableEq, Repr

/-- What a terminal takes the next byte for. -/
inductive Mode where
  /-- Text, or the start of an order. -/
  | ground
  /-- What follows the byte that starts an order. -/
  | escape
  /-- What follows the intermediate bytes of a short order. -/
  | escapeIntermediate
  /-- The parameters of a control sequence, up to its final byte. -/
  | control (stage : Stage)
  /-- The parameters of a device control string. -/
  | device (stage : Stage)
  /-- A string that is ended by the byte 9C. -/
  | string
  /-- A string that is ended by the bell. -/
  | title
  deriving DecidableEq, Repr

/-- What becomes of an order when a separator is shown in the middle of it. -/
inductive Interruption where
  /-- It ends there, and the rest of it is text. -/
  | ends
  /-- It goes on behind the text that is shown from there, unless a character
  of more than one byte is in that text. -/
  | suspends
  deriving DecidableEq, Repr

/-- Whether a byte is among the intermediate bytes of an order. -/
def isIntermediate (b : UInt8) : Bool := 0x20 ≤ b && b ≤ 0x2F

/-- Whether a byte ends a control sequence. -/
def isFinal (b : UInt8) : Bool := 0x40 ≤ b && b ≤ 0x7E

/-- Whether a byte is a parameter of an order. -/
def isParameter (b : UInt8) : Bool := 0x30 ≤ b && b ≤ 0x3F

/-- Whether a byte is a parameter that can only come first. -/
def isLeadingParameter (b : UInt8) : Bool := 0x3C ≤ b && b ≤ 0x3F

/-- The stage after a byte that does not end the parameters. -/
def Stage.next : Stage → UInt8 → Stage
  | .entry, b =>
    if isIntermediate b then .intermediate else if isParameter b then .parameter else .entry
  | .parameter, b =>
    if isIntermediate b then .intermediate
    else if isLeadingParameter b then .ignored else .parameter
  | .intermediate, b => if isParameter b then .ignored else .intermediate
  | .ignored, _ => .ignored

/-- The mode after a byte that is not shown. -/
def Mode.next (m : Mode) (b : UInt8) : Mode :=
  if b = 0x1B then .escape
  else if b = 0x18 || b = 0x1A then .ground
  else match m with
    | .ground => .ground
    | .escape =>
      if isIntermediate b then .escapeIntermediate
      else if b = 0x5B then .control .entry
      else if b = 0x50 then .device .entry
      else if b = 0x5D then .title
      else if b = 0x58 || b = 0x5E || b = 0x5F then .string
      else if isParameter b || isFinal b then .ground
      else .escape
    | .escapeIntermediate =>
      if isParameter b || isFinal b then .ground else .escapeIntermediate
    | .control stage => if isFinal b then .ground else .control (stage.next b)
    | .device stage =>
      if isFinal b || stage.next b = .ignored then .string else .device (stage.next b)
    | .string => if b = 0x9C then .ground else .string
    | .title => if b = 0x07 then .ground else .title

/-- A control byte that separates words or lines. -/
def isBlankControl (b : UInt8) : Bool := b = 0x09 || b = 0x0A || b = 0x0C || b = 0x0D

/-- A byte that a character of more than one byte starts with. -/
def startsLongCharacter (b : UInt8) : Bool := 0xC2 ≤ b && b ≤ 0xF4

/-- A byte that a shown character starts with. -/
def startsCharacter (b : UInt8) : Bool := (0x20 ≤ b && b ≤ 0x7E) || startsLongCharacter b

/-- A byte inside a shown character. -/
def continuesCharacter (b : UInt8) : Bool := 0x80 ≤ b && b ≤ 0xBF

/-- Whether a byte is shown; `showing` says whether the one before it was.
Separators are shown even inside an order, but inside strings nothing is. -/
def Mode.shows (m : Mode) (showing : Bool) (b : UInt8) : Bool :=
  if showing then startsCharacter b || isBlankControl b || continuesCharacter b
  else match m with
    | .ground => startsCharacter b || isBlankControl b
    | .escape => isBlankControl b
    | .escapeIntermediate => isBlankControl b
    | .control _ => isBlankControl b
    | _ => false

/-- The mode after a byte that is shown. -/
def Mode.afterShown (i : Interruption) (m : Mode) (b : UInt8) : Mode :=
  match i with
  | .ends => .ground
  | .suspends => if startsLongCharacter b then .ground else m

/-- The bytes that a terminal in mode `m` would show, after a byte that was
shown if `showing` holds. -/
def shownBytes (i : Interruption) (showing : Bool) (m : Mode) : Bytes → Bytes
  | [] => []
  | b :: bs =>
    if m.shows showing b then b :: shownBytes i true (m.afterShown i b) bs
    else shownBytes i false (m.next b) bs

/-- A text without the orders in it. -/
def withoutOrders (i : Interruption) (t : Text) : Text :=
  lossy (shownBytes i false .ground (utf8 t))

/-- How a character stands where every character is kept and none is an
order. -/
def visible (c : Char) : Text :=
  if c = '\x1b' then "\\x1b".toList
  else if c = '\x07' then "\\x07".toList
  else if c = '\x08' then "\\x08".toList
  else if c = '\x0c' then "\\x0c".toList
  else if c = '\x7f' then "\\x7f".toList
  else if 0x80 ≤ c.toNat ∧ c.toNat ≤ 0x9F then codePoint c.toNat
  else [c]

/-- A text with every character that could start or end an order escaped. -/
def withVisibleOrders (t : Text) : Text := t.flatMap visible

end LineLimit.Terminal
