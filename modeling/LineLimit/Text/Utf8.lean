import LineLimit.Text.Basic

/-!
# UTF-8

`utf8` writes a text as bytes. `Utf8.decode` reads bytes back, one at a time,
with a reader that remembers at most one unfinished character; what it cannot
read becomes a gap, and one gap stands for the longest run of bytes that some
well-formed character could have started with. From that one reading come
`lossy`, which shows every gap as the replacement character, and `readUtf8?`,
which refuses bytes with a gap.
-/

namespace LineLimit

/-- The UTF-8 encoding of a text. -/
def utf8 (t : Text) : Bytes := t.flatMap String.utf8EncodeChar

namespace Utf8

/-- A character whose first bytes have been read. -/
structure Pending where
  /-- The bits of the character gathered so far. -/
  code : Nat
  /-- How many bytes are still owed. -/
  owed : Nat
  /-- The least value the next byte may have. -/
  low : UInt8
  /-- The greatest value the next byte may have. -/
  high : UInt8

/-- What has been read: characters, and gaps where no character could be
read, last first; and the character under way, if any. -/
structure Reader where
  done : List (Option Char)
  pending : Option Pending

/-- Read the byte `b` where a character starts. Overlong forms, surrogates and
values above U+10FFFF are excluded by the bounds on the byte after the first. -/
def Reader.start (done : List (Option Char)) (b : UInt8) : Reader :=
  if b < 0x80 then ⟨some (Char.ofNat b.toNat) :: done, none⟩
  else if b < 0xC2 then ⟨none :: done, none⟩
  else if b < 0xE0 then ⟨done, some ⟨b.toNat - 0xC0, 1, 0x80, 0xBF⟩⟩
  else if b = 0xE0 then ⟨done, some ⟨0, 2, 0xA0, 0xBF⟩⟩
  else if b = 0xED then ⟨done, some ⟨0xD, 2, 0x80, 0x9F⟩⟩
  else if b < 0xF0 then ⟨done, some ⟨b.toNat - 0xE0, 2, 0x80, 0xBF⟩⟩
  else if b = 0xF0 then ⟨done, some ⟨0, 3, 0x90, 0xBF⟩⟩
  else if b < 0xF4 then ⟨done, some ⟨b.toNat - 0xF0, 3, 0x80, 0xBF⟩⟩
  else if b = 0xF4 then ⟨done, some ⟨4, 3, 0x80, 0x8F⟩⟩
  else ⟨none :: done, none⟩

/-- Read one byte. A byte that cannot go on the character under way leaves a
gap for that character and is read again where a character starts. -/
def Reader.step (r : Reader) (b : UInt8) : Reader :=
  match r.pending with
  | none => Reader.start r.done b
  | some p =>
    if p.low ≤ b ∧ b ≤ p.high then
      let code := p.code * 64 + (b.toNat - 0x80)
      if p.owed ≤ 1 then ⟨some (Char.ofNat code) :: r.done, none⟩
      else ⟨r.done, some ⟨code, p.owed - 1, 0x80, 0xBF⟩⟩
    else Reader.start (none :: r.done) b

/-- The characters and gaps read, in order; an unfinished character at the end
of the bytes is a gap. -/
def Reader.finish (r : Reader) : List (Option Char) :=
  match r.pending with
  | none => r.done.reverse
  | some _ => (none :: r.done).reverse

/-- The characters of a byte string, with `none` at every gap. -/
def decode (bs : Bytes) : List (Option Char) :=
  (bs.foldl Reader.step ⟨[], none⟩).finish

end Utf8

/-- The text of a byte string, each gap shown as U+FFFD. -/
def lossy (bs : Bytes) : Text := (Utf8.decode bs).map (·.getD '\uFFFD')

/-- The text of a byte string that is well-formed UTF-8. -/
def readUtf8? (bs : Bytes) : Option Text := (Utf8.decode bs).mapM id

end LineLimit
