import LineLimit.Text.Basic

/-!
# Paths

A path is a byte string; what it means is decided by its pieces, the runs of
bytes between slashes. Empty pieces and `.` pieces say nothing, except that a
slash at the start makes the path absolute and that a `.` at the start is kept
as a component: `./a` and `a` are two spellings of one place and stay apart.
-/

namespace LineLimit

/-- A path as it is written. -/
abbrev Path := Bytes

/-- The byte that separates the names of a path. -/
def slash : UInt8 := 0x2F

/-- The byte `.`. -/
def dot : UInt8 := 0x2E

namespace Path

/-- The stretches of a path between its slashes, empty ones included. -/
def pieces (p : Path) : List Bytes := p.splitOn slash

/-- A piece that moves to another place: not empty and not `.`. -/
def isStep (piece : Bytes) : Bool := piece ≠ [] ∧ piece ≠ [dot]

/-- The pieces of a path that move to another place. -/
def steps (p : Path) : List Bytes := p.pieces.filter isStep

/-- The components of a path: the root slash of an absolute path, a `.` that
the path starts with, and every later piece that is a step. -/
def components (p : Path) : List Bytes :=
  match p.pieces with
  | [] :: second :: rest => [slash] :: (second :: rest).filter isStep
  | first :: rest => (if first.isEmpty then [] else [first]) ++ rest.filter isStep
  | [] => []

/-- A path that starts with the component `.`, without it and without anything
before the first and after the last step that follows; any other path as it
is. -/
def belowDot (p : Path) : Path :=
  match p.pieces with
  | [b] :: rest =>
    if b = dot then
      let steps := (rest.dropWhile (!isStep ·)).reverse.dropWhile (!isStep ·)
      [slash].intercalate steps.reverse
    else p
  | _ => p

/-- The path of `name` in the directory `p`. -/
def child (p : Path) (name : Bytes) : Path :=
  match p.getLast? with
  | none => name
  | some b => if b = slash then p ++ name else p ++ slash :: name

/-- A name that is hidden by default: one that starts with a dot. -/
def isDotName (name : Bytes) : Bool := name.head? = some dot

end Path

end LineLimit
