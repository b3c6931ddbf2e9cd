import LineLimit.Glob.Language

/-!
# Matching a path against a glob

The matcher works through a glob from its last token to its first. Between two
tokens it holds a row: for each suffix of the path, the longest first, whether
the tokens to the right can stand for exactly that suffix. One token turns the
row for what follows it into the row that includes it, in one pass over the
path, so a match costs at most the size of the glob times the length of the
path, however many stars and groups the glob has.
-/

namespace LineLimit.Glob

/-- For each suffix of a path, the longest first and the empty one last, a
truth value. -/
abbrev Row := List Bool

namespace Row

/-- The value for the whole of the path that the row belongs to. -/
def whole (row : Row) : Bool := row.headD false

/-- Only the empty suffix will do. -/
def atEnd (s : Bytes) : Row := s.foldr (fun _ row => false :: row) [true]

/-- One byte that `p` admits, then the rest. -/
def byte (p : UInt8 → Bool) : Bytes → Row → Row
  | b :: s, _ :: row => (p b && whole row) :: byte p s row
  | _, _ => [false]

/-- The bytes of `bs` up to `same`, then the rest. -/
def bytes (same : UInt8 → UInt8 → Bool) (bs : Bytes) (s : Bytes) (row : Row) : Row :=
  bs.foldr (fun a row => byte (same a) s row) row

/-- Any bytes but slashes, then the rest. -/
def run : Bytes → Row → Row
  | b :: s, here :: row =>
    let later := run s row
    (here || (b != slash && whole later)) :: later
  | _, row => row

/-- Any bytes at all, then the rest. -/
def anything : Row → Row
  | [] => []
  | here :: row =>
    let later := anything row
    (here || whole later) :: later

/-- Any bytes that end with a slash, then the rest. -/
def throughSlash : Bytes → Row → Row
  | b :: s, _ :: row =>
    let later := throughSlash s row
    ((b == slash && whole row) || whole later) :: later
  | _, _ => [false]

/-- One or the other. -/
def either (a b : Row) : Row := a.zipWith (· || ·) b

/-- Nothing, or any bytes that end with a slash, then the rest. -/
def directories (s : Bytes) (row : Row) : Row := either row (throughSlash s row)

end Row

mutual

/-- The row that includes `t`, from the row for what follows it. -/
def Token.row (ignoreCase : Bool) (s : Bytes) : Token → Row → Row
  | .literal c, row => Row.bytes (sameByte ignoreCase) (utf8 [c]) s row
  | .anyByte, row => Row.byte (· != slash) s row
  | .star, row => Row.run s row
  | .leading, row => Row.directories s row
  | .trailing, row => Row.byte (· == slash) s (Row.anything row)
  | .between, row => Row.byte (· == slash) s (Row.directories s row)
  | .everything, row => Row.anything row
  | .oneOf negated ranges, row => Row.byte (classAdmits ignoreCase negated ranges) s row
  | .group [], row => row
  | .group (ts :: branches), row =>
    Row.either (rowOf ignoreCase s ts row) (rowOfSome ignoreCase s branches row)

/-- The row that includes the tokens, from the row for what follows them. -/
def rowOf (ignoreCase : Bool) (s : Bytes) : Tokens → Row → Row
  | [], row => row
  | t :: ts, row => t.row ignoreCase s (rowOf ignoreCase s ts row)

/-- The row that includes one of the branches, from the row for what follows
them. -/
def rowOfSome (ignoreCase : Bool) (s : Bytes) : List Tokens → Row → Row
  | [], row => row.map fun _ => false
  | ts :: branches, row =>
    Row.either (rowOf ignoreCase s ts row) (rowOfSome ignoreCase s branches row)

end

/-- Whether the tokens stand for the bytes `s`. -/
def accepts (ignoreCase : Bool) (ts : Tokens) (s : Bytes) : Bool :=
  (rowOf ignoreCase s ts (Row.atEnd s)).whole

end LineLimit.Glob
