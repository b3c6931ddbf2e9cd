/-!
# Bytes and text

Files, paths and command-line words are byte strings: nothing promises that
they hold well-formed text. What the program prints is text, a list of
characters. The two meet in `LineLimit.Text.Utf8` only.
-/

namespace LineLimit

/-- A byte string: the content of a file, a path, a command-line word. -/
abbrev Bytes := List UInt8

/-- A text: the characters of a message, a pattern or a report. -/
abbrev Text := List Char

/-- The byte that ends a line. -/
def newline : UInt8 := 0x0A

/-- The decimal digits of `n`, without sign, blanks or leading zeros. -/
def decimal (n : Nat) : Text := Nat.toDigits 10 n

/-- The byte `b`, an ASCII capital replaced by its small letter. -/
def foldCase (b : UInt8) : UInt8 :=
  if 0x41 ≤ b ∧ b ≤ 0x5A then b + 0x20 else b

/-- A list falls into one more stretch than it has separators. -/
theorem length_splitOn {α : Type} [BEq α] [LawfulBEq α] (sep : α) (l : List α) :
    (l.splitOn sep).length = l.count sep + 1 := by
  induction l with
  | nil => rfl
  | cons a l ih =>
    rw [List.splitOn_cons_eq_if_modifyHead, List.count_cons]
    split
    · rw [List.length_cons, ih]
    · rw [List.length_modifyHead, ih]

end LineLimit
