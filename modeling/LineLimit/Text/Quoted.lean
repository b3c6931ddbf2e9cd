import LineLimit.Text.Basic
import LineLimit.Text.GraphemeExtend
import LineLimit.Text.Ignorable
import LineLimit.Text.Unprintable

/-!
# Quoted text

A text in quotes, so written that every character of it can be told apart on
any screen: what has no visible form of its own is written as its code point.
-/

namespace LineLimit

/-- Whether one of the ranges holds `n`. -/
def inSomeRange (ranges : List (Nat × Nat)) (n : Nat) : Bool :=
  ranges.any fun (low, high) => low ≤ n && n ≤ high

/-- A character with no visible form of its own, or one that would change the
look of the quote or letter before it. -/
def isIndistinct (c : Char) : Bool :=
  inSomeRange graphemeExtendRanges c.toNat || inSomeRange ignorableRanges c.toNat ||
    inSomeRange unprintableRanges c.toNat

/-- A code point between braces, in small hexadecimal digits. -/
def codePoint (n : Nat) : Text := '\\' :: 'u' :: '{' :: Nat.toDigits 16 n ++ ['}']

/-- How a character stands in a quoted text. -/
def quoteChar (c : Char) : Text :=
  if c = '\x00' then ['\\', '0']
  else if c = '\t' then ['\\', 't']
  else if c = '\r' then ['\\', 'r']
  else if c = '\n' then ['\\', 'n']
  else if c = '\\' then ['\\', '\\']
  else if c = '"' then ['\\', '"']
  else if isIndistinct c then codePoint c.toNat
  else [c]

/-- A text in quotes. -/
def quoted (t : Text) : Text := '"' :: t.flatMap quoteChar ++ ['"']

end LineLimit
