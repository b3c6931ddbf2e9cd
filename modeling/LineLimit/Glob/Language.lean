import LineLimit.Glob.Syntax
import LineLimit.Path
import LineLimit.Text.Utf8

/-!
# What a glob stands for

Which byte strings a glob stands for is defined here by its tokens alone, as a
proposition; `LineLimit.Glob.Match` decides it. Bytes are compared exactly or,
where the case of letters is ignored, up to the case of ASCII letters.
-/

namespace LineLimit.Glob

/-- Whether `b` may stand where the glob has `a`. -/
def sameByte (ignoreCase : Bool) (a b : UInt8) : Bool :=
  if ignoreCase then foldCase a = foldCase b else a = b

/-- The ranges of bytes in a range of characters. Bytes, not characters, are
what a class matches: of a proper range, only the last byte of its lower and
the first byte of its upper end bound a range of bytes, and their other bytes
stand for themselves. -/
def byteRanges (range : Char × Char) : List (UInt8 × UInt8) :=
  let low := utf8 [range.1]
  let high := utf8 [range.2]
  if range.1 = range.2 then low.map fun b => (b, b)
  else
    low.dropLast.map (fun b => (b, b)) ++
      (low.getLast?.toList.zip (high.take 1)) ++
      (high.drop 1).map fun b => (b, b)

/-- The ASCII letter `b` in its other case, any other byte as it is. -/
def otherCase (b : UInt8) : UInt8 :=
  if 0x41 ≤ b ∧ b ≤ 0x5A then b + 0x20
  else if 0x61 ≤ b ∧ b ≤ 0x7A then b - 0x20
  else b

/-- Whether one of the ranges of a class holds `b`. -/
def inRanges (ignoreCase : Bool) (ranges : List (Char × Char)) (b : UInt8) : Bool :=
  (ranges.flatMap byteRanges).any fun (low, high) =>
    (low ≤ b && b ≤ high) ||
      (ignoreCase && low ≤ otherCase b && otherCase b ≤ high)

/-- Whether a class admits the byte `b`. -/
def classAdmits (ignoreCase negated : Bool) (ranges : List (Char × Char)) (b : UInt8) : Bool :=
  inRanges ignoreCase ranges b != negated

mutual

/-- The token `t` stands for the bytes `s`. -/
def Token.StandsFor (ignoreCase : Bool) : Token → Bytes → Prop
  | .literal c, s =>
    (utf8 [c]).length = s.length ∧
      ((utf8 [c]).zip s).all (fun (a, b) => sameByte ignoreCase a b) = true
  | .anyByte, s => ∃ b, s = [b] ∧ b ≠ slash
  | .star, s => slash ∉ s
  | .leading, s => s = [] ∨ s.getLast? = some slash
  | .trailing, s => s.head? = some slash
  | .between, s => s = [slash] ∨ ∃ m, s = slash :: m ++ [slash]
  | .everything, _ => True
  | .oneOf negated ranges, s => ∃ b, s = [b] ∧ classAdmits ignoreCase negated ranges b = true
  | .group branches, s => (branches = [] ∧ s = []) ∨ SomeStandsFor ignoreCase branches s

/-- The tokens, one after the other, stand for the bytes `s`. -/
def StandsFor (ignoreCase : Bool) : Tokens → Bytes → Prop
  | [], s => s = []
  | t :: ts, s => ∃ a b, s = a ++ b ∧ t.StandsFor ignoreCase a ∧ StandsFor ignoreCase ts b

/-- One of the branches stands for the bytes `s`. -/
def SomeStandsFor (ignoreCase : Bool) : List Tokens → Bytes → Prop
  | [], _ => False
  | ts :: branches, s => StandsFor ignoreCase ts s ∨ SomeStandsFor ignoreCase branches s

end

end LineLimit.Glob
