import LineLimit.Text.Basic

/-!
# Groups, classes and escapes in the text of a glob

Where a character of a glob stands is told by the text before it: how many groups are open there,
and whether the character is part of a class or follows a backslash that escapes it. A backslash
escapes nothing in a class, a class has at least one character, so that a `]` at its start does
not end it, and groups and escapes are not begun in a class.
-/

namespace LineLimit.Glob

/-- What the next character of a text belongs to. -/
inductive Place where
  /-- To no class, and it is not escaped. -/
  | plain
  /-- It is escaped by the backslash before it. -/
  | escaped
  /-- To a class, right after its `[`. -/
  | classStart
  /-- To a class, right after its sign of negation. -/
  | classSign
  /-- To a class that has a character. -/
  | inClass
  deriving DecidableEq, Repr

/-- Where the next character of a text stands. -/
structure Nesting where
  /-- The groups that are open. -/
  groups : Nat
  place : Place
  deriving DecidableEq, Repr

namespace Nesting

/-- In no group, in no class and not escaped. -/
def top : Nesting := ⟨0, .plain⟩

/-- The nesting after a character. -/
def next (n : Nesting) (c : Char) : Nesting :=
  match n.place with
  | .plain =>
    if c = '\\' then { n with place := .escaped }
    else if c = '[' then { n with place := .classStart }
    else if c = '{' then { n with groups := n.groups + 1 }
    else if c = '}' then { n with groups := n.groups - 1 }
    else n
  | .escaped => { n with place := .plain }
  | .classStart => { n with place := if c = '!' ∨ c = '^' then .classSign else .inClass }
  | .classSign => { n with place := .inClass }
  | .inClass => { n with place := if c = ']' then .plain else .inClass }

/-- Where a character stands that comes after a text. -/
def after (text : Text) : Nesting := text.foldl next top

end Nesting

/-- No slash of the text lies in a class or in a group or is escaped. -/
def SlashesOnTop (text : Text) : Prop :=
  ∀ before after, text = before ++ '/' :: after → Nesting.after before = .top

end LineLimit.Glob
