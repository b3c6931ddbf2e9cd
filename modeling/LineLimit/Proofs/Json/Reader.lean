import LineLimit.Text.Json
import LineLimit.Text.Utf8

/-!
# Reading JSON

A reader for the whole of JSON, not only for the layouts written here, so that what is written
can be said to be what any reader makes of it. Two machines work one after another. The lexer
goes over the characters and gathers tokens, the parser goes over the tokens and builds the
value. Each takes one step for each thing it reads, keeps in its state whatever is unfinished,
and never looks ahead. A machine that cannot go on answers `none`.

Nothing is forgiven: a number has no leading zeros, a text has no raw control characters and no
half of a surrogate pair, a list has no comma after its last item, and after the value there is
nothing but blanks. The members of an object are all kept, in their order, also where two have
one name.
-/

namespace LineLimit.Json

/-! ## Values and tokens -/

/-- A number as it is written, `mantissa` times ten to the `exponent`. -/
structure Number where
  mantissa : Int
  exponent : Int
  deriving DecidableEq, Repr

/-- A whole number without sign or exponent. -/
def Number.ofNat (n : Nat) : Number := ⟨n, 0⟩

/-- A value that holds no other values. -/
inductive Atom where
  | null
  | bool (b : Bool)
  | number (n : Number)
  | text (t : Text)
  deriving DecidableEq, Repr

/-- A JSON value. -/
inductive Value where
  | atom (a : Atom)
  | list (items : List Value)
  | object (members : List (Text × Value))
  deriving Repr

/-- What a JSON text is made of, blanks apart. -/
inductive Token where
  | openList
  | closeList
  | openObject
  | closeObject
  | colon
  | comma
  | atom (a : Atom)
  deriving DecidableEq, Repr

/-! ## From characters to tokens -/

/-- The characters that may stand between tokens. -/
def isBlank (c : Char) : Bool := c = ' ' || c = '\t' || c = '\n' || c = '\r'

/-- The characters of a word, which is a number or one of `null`, `true` and `false`. -/
def isWordChar (c : Char) : Bool := c.isAlphanum || c = '+' || c = '-' || c = '.'

/-- The token that is a single character. -/
def mark? : Char → Option Token
  | '[' => some .openList
  | ']' => some .closeList
  | '{' => some .openObject
  | '}' => some .closeObject
  | ':' => some .colon
  | ',' => some .comma
  | _ => none

/-- The digits after a point, and what follows them. -/
def readFraction? : Text → Option (Text × Text)
  | '.' :: w =>
    let digits := w.takeWhile Char.isDigit
    if digits = [] then none else some (digits, w.dropWhile Char.isDigit)
  | w => some ([], w)

/-- The power of ten at the end of a number. -/
def readExponent? : Text → Option Int
  | [] => some 0
  | e :: w =>
    if e = 'e' ∨ e = 'E' then
      let (negative, digits) := match w with
        | '+' :: w => (false, w)
        | '-' :: w => (true, w)
        | w => (false, w)
      if digits = [] ∨ ¬digits.all Char.isDigit then none
      else
        let n : Int := Nat.ofDigitChars 10 digits 0
        some (if negative then -n else n)
    else none

/-- A number without its sign. Only zero itself may start with a zero. -/
def readUnsigned? (w : Text) : Option Number := do
  let whole := w.takeWhile Char.isDigit
  if whole = [] ∨ (whole.head? = some '0' ∧ whole.length ≠ 1) then none
  else
    let (fraction, w) ← readFraction? (w.dropWhile Char.isDigit)
    let exponent ← readExponent? w
    some ⟨Nat.ofDigitChars 10 (whole ++ fraction) 0, exponent - fraction.length⟩

/-- The atom that a word stands for. -/
def readWord? (w : Text) : Option Atom :=
  if w = "null".toList then some .null
  else if w = "true".toList then some (.bool true)
  else if w = "false".toList then some (.bool false)
  else match w with
    | '-' :: w => (readUnsigned? w).map fun n => .number ⟨-n.mantissa, n.exponent⟩
    | w => (readUnsigned? w).map .number

/-- The character that an escape of one letter stands for. -/
def escaped? : Char → Option Char
  | '"' => some '"'
  | '\\' => some '\\'
  | '/' => some '/'
  | 'b' => some '\x08'
  | 'f' => some '\x0c'
  | 'n' => some '\n'
  | 'r' => some '\r'
  | 't' => some '\t'
  | _ => none

/-- The value of a hexadecimal digit, small or capital. -/
def hexValue? (c : Char) : Option Nat :=
  if '0' ≤ c ∧ c ≤ '9' then some (c.toNat - '0'.toNat)
  else if 'a' ≤ c ∧ c ≤ 'f' then some (c.toNat - 'a'.toNat + 10)
  else if 'A' ≤ c ∧ c ≤ 'F' then some (c.toNat - 'A'.toNat + 10)
  else none

/-- The characters of a text given by code points. A character beyond the first plane may be
given as two surrogates, one right after the other; a surrogate alone is no character. -/
def joinUnits : List Nat → Option Text
  | [] => some []
  | u :: us =>
    if 0xD800 ≤ u ∧ u < 0xDC00 then
      match us with
      | [] => none
      | low :: us =>
        if 0xDC00 ≤ low ∧ low < 0xE000 then
          (joinUnits us).map
            (Char.ofNat (0x10000 + (u - 0xD800) * 0x400 + (low - 0xDC00)) :: ·)
        else none
    else if 0xDC00 ≤ u ∧ u < 0xE000 then none
    else (joinUnits us).map (Char.ofNat u :: ·)

/-- Where the lexer is. -/
inductive Mode where
  /-- No token is under way. -/
  | between
  /-- In a word, with its characters so far, last first. -/
  | word (chars : Text)
  /-- In a text, with its code points so far, last first. -/
  | quoted (units : List Nat)
  /-- After a backslash in a text. -/
  | escape (units : List Nat)
  /-- In an escape by number: its value so far, and how many digits are still owed. -/
  | code (units : List Nat) (value owed : Nat)

/-- The tokens read, last first, and where the lexer is. -/
structure Lexer where
  done : List Token
  mode : Mode

namespace Lexer

/-- Read a character where no token is under way. -/
def start (done : List Token) (c : Char) : Option Lexer :=
  if isWordChar c then some ⟨done, .word [c]⟩
  else if isBlank c then some ⟨done, .between⟩
  else if c = '"' then some ⟨done, .quoted []⟩
  else (mark? c).map fun token => ⟨token :: done, .between⟩

/-- Read one character. A word ends where a character cannot go on it, and that character is
read again where a token starts. -/
def step : Lexer → Char → Option Lexer
  | ⟨done, .between⟩, c => start done c
  | ⟨done, .word chars⟩, c =>
    if isWordChar c then some ⟨done, .word (c :: chars)⟩
    else (readWord? chars.reverse).bind fun a => start (.atom a :: done) c
  | ⟨done, .quoted units⟩, c =>
    if c = '"' then
      (joinUnits units.reverse).map fun t => ⟨.atom (.text t) :: done, .between⟩
    else if c = '\\' then some ⟨done, .escape units⟩
    else if c.toNat < 0x20 then none
    else some ⟨done, .quoted (c.toNat :: units)⟩
  | ⟨done, .escape units⟩, c =>
    if c = 'u' then some ⟨done, .code units 0 4⟩
    else (escaped? c).map fun e => ⟨done, .quoted (e.toNat :: units)⟩
  | ⟨done, .code units value owed⟩, c =>
    (hexValue? c).map fun digit =>
      let value := 16 * value + digit
      if owed ≤ 1 then ⟨done, .quoted (value :: units)⟩
      else ⟨done, .code units value (owed - 1)⟩

/-- The tokens at the end of the text, which may end a word but nothing else. -/
def finish : Lexer → Option (List Token)
  | ⟨done, .between⟩ => some done.reverse
  | ⟨done, .word chars⟩ =>
    (readWord? chars.reverse).map fun a => (.atom a :: done).reverse
  | _ => none

/-- Read a text to its end. -/
def read (s : Lexer) : Text → Option (List Token)
  | [] => s.finish
  | c :: t => (s.step c).bind fun s => s.read t

end Lexer

/-- The tokens of a text. -/
def tokens (t : Text) : Option (List Token) := Lexer.read ⟨[], .between⟩ t

/-! ## From tokens to a value -/

/-- A list or an object that is being read, while the parser is inside it. -/
inductive Frame where
  /-- A list, with its items so far, last first. -/
  | list (items : List Value)
  /-- An object, with its members so far, last first, and the name of the one under way. -/
  | object (members : List (Text × Value)) (name : Text)

/-- What is due next, and in which lists and objects, from the inside out. -/
inductive Parser where
  /-- A value. -/
  | value (frames : List Frame)
  /-- A value, or the end of a list that has only begun. -/
  | firstItem (frames : List Frame)
  /-- A comma, or the end of the list, after an item and those before it, last first. -/
  | nextItem (item : Value) (items : List Value) (frames : List Frame)
  /-- A name, or the end of an object that has only begun. -/
  | firstName (frames : List Frame)
  /-- A name. -/
  | memberName (members : List (Text × Value)) (frames : List Frame)
  /-- The colon after a name. -/
  | colon (members : List (Text × Value)) (name : Text) (frames : List Frame)
  /-- A comma, or the end of the object, after a member and those before it, last first. -/
  | nextMember (member : Text × Value) (members : List (Text × Value)) (frames : List Frame)
  /-- Nothing. -/
  | done (v : Value)

namespace Parser

/-- Put a value that has been read where it belongs. -/
def put (v : Value) : List Frame → Parser
  | [] => .done v
  | .list items :: frames => .nextItem v items frames
  | .object members name :: frames => .nextMember (name, v) members frames

/-- Read the first token of a value. -/
def start (frames : List Frame) : Token → Option Parser
  | .atom a => some (put (.atom a) frames)
  | .openList => some (.firstItem frames)
  | .openObject => some (.firstName frames)
  | _ => none

/-- Read the name of a member. -/
def startMember (members : List (Text × Value)) (frames : List Frame) :
    Token → Option Parser
  | .atom (.text name) => some (.colon members name frames)
  | _ => none

/-- Read one token. -/
def step : Parser → Token → Option Parser
  | .value frames, token => start frames token
  | .firstItem frames, .closeList => some (put (.list []) frames)
  | .firstItem frames, token => start (.list [] :: frames) token
  | .nextItem item items frames, .comma => some (.value (.list (item :: items) :: frames))
  | .nextItem item items frames, .closeList => some (put (.list (item :: items).reverse) frames)
  | .firstName frames, .closeObject => some (put (.object []) frames)
  | .firstName frames, token => startMember [] frames token
  | .memberName members frames, token => startMember members frames token
  | .colon members name frames, .colon => some (.value (.object members name :: frames))
  | .nextMember m members frames, .comma => some (.memberName (m :: members) frames)
  | .nextMember m members frames, .closeObject =>
    some (put (.object (m :: members).reverse) frames)
  | _, _ => none

/-- Read tokens to their end, where one value must be complete. -/
def read : Parser → List Token → Option Value
  | .done v, [] => some v
  | _, [] => none
  | p, token :: tokens => (p.step token).bind fun p => p.read tokens

end Parser

/-- The value that the tokens are. -/
def parse (tokens : List Token) : Option Value := Parser.read (.value []) tokens

/-- The value that a text is. -/
def decode (t : Text) : Option Value := (tokens t).bind parse

/-- The value that bytes are, if they are UTF-8. -/
def decodeBytes (bs : Bytes) : Option Value := (readUtf8? bs).bind decode

end LineLimit.Json
