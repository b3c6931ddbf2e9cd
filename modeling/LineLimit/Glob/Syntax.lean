import LineLimit.Text.Basic

/-!
# The syntax of globs

A glob is a sequence of tokens, most of which stand for a stretch of a path
inside one component. Only the three forms of `**`, a bracket class that holds
a slash, and a literal slash reach across components.
-/

namespace LineLimit.Glob

/-- One item of a glob. -/
inductive Token where
  /-- A character that stands for itself. -/
  | literal (c : Char)
  /-- `?`: one byte other than a slash. -/
  | anyByte
  /-- `*`: any bytes other than slashes. -/
  | star
  /-- `**/` at the start: any number of directories, each with its slash. -/
  | leading
  /-- `/**` at the end: anything below a directory. -/
  | trailing
  /-- `/**/`: a slash, or two with any directories between them. -/
  | between
  /-- A glob that is nothing but `**`: any path at all. -/
  | everything
  /-- `[…]`: one byte out of the ranges, or out of none of them. -/
  | oneOf (negated : Bool) (ranges : List (Char × Char))
  /-- `{…,…}`: one of the branches; a group without branches is empty. -/
  | group (branches : List (List Token))
  deriving Repr

/-- A glob, or a branch of a group: its tokens, in order. -/
abbrev Tokens := List Token

/-- A token that can only stand for the empty text. -/
def Token.isBlank : Token → Bool
  | .group [] => true
  | _ => false

/-- The group of the branches that are not blank. -/
def Token.ofBranches (branches : List Tokens) : Token :=
  .group (branches.filter (!·.all Token.isBlank))

end LineLimit.Glob

namespace LineLimit

/-- Why a text is not a glob. -/
inductive GlobError where
  /-- A `[` without its `]`. -/
  | unclosedClass
  /-- A range in a class that runs backwards. -/
  | invalidRange (low high : Char)
  /-- A `}` without a `{` before it. -/
  | unopenedGroup
  /-- A `{` without its `}`. -/
  | unclosedGroup
  /-- A backslash with nothing after it. -/
  | danglingEscape
  deriving DecidableEq, Repr

/-- What the user is told of a text that is not a glob. -/
def GlobError.message : GlobError → Text
  | .unclosedClass => "unclosed character class; missing ']'".toList
  | .invalidRange low high =>
    "invalid range; '".toList ++ low :: "' > '".toList ++ [high, '\'']
  | .unopenedGroup =>
    "unopened alternate group; missing '\x7b' (maybe escape '\x7d' with '[\x7d]'?)".toList
  | .unclosedGroup =>
    "unclosed alternate group; missing '\x7d' (maybe escape '\x7b' with '[\x7b]'?)".toList
  | .danglingEscape => "dangling '\\'".toList

end LineLimit
