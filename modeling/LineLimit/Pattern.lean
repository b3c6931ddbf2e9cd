import LineLimit.Glob.Parser
import LineLimit.Glob.Match

/-!
# Patterns

A pattern is a glob together with what its text says about where to look. The
text is split at every slash. Its first parts, as long as none holds a
character with a meaning in globs, are the *base*: the place a walk starts
from. The parts after the base bound the depth of the walk and, if each is a
glob of its own, say name by name what may lie on the way to a match.

Four questions can then be asked: does a path match (`Pattern.matchesPath`),
where does the walk start (`root`), how deep can a match lie (`maxDepth`), and
can the names below the root be part of a match (`Step.admits`)?
-/

namespace LineLimit

/-- A text that is a glob, with the glob that it is. -/
structure Pattern where
  text : Text
  ignoreCase : Bool
  glob : Glob.Tokens
  parsed : Glob.parse text = .ok glob

/-- What a component of a pattern asks of the names it takes. -/
inductive Step where
  /-- `**`: any number of directories. -/
  | directories
  /-- One name that a glob stands for; `dotted` tells that the component
  starts with a dot. -/
  | name (glob : Glob.Tokens) (dotted : Bool)
  deriving Repr

/-- The step that a component of a pattern is, if it can be read alone. -/
def Step.read? (part : Text) : Option Step :=
  if part = ['*', '*'] then some .directories
  else match Glob.parse part with
    | .ok glob => some (.name glob (part.head? = some '.'))
    | .error _ => none

namespace Pattern

/-- Read a pattern. Whether the matchers that a search needs can be built of it is
another question, which the platform answers (`Pattern.refusal?`). -/
def compile (text : Text) (ignoreCase : Bool) : Except GlobError Pattern :=
  match h : Glob.parse text with
  | .ok glob => .ok ⟨text, ignoreCase, glob, h⟩
  | .error e => .error e

/-- A character with a meaning in globs. -/
def isMeta (c : Char) : Bool := c ∈ ['*', '?', '[', ']', '{', '}', '\\']

/-- The text of a pattern between its slashes. -/
def parts (p : Pattern) : List Text := p.text.splitOn '/'

/-- The leading parts without a character that has a meaning. -/
def literalParts (p : Pattern) : List Text := p.parts.takeWhile (!·.any isMeta)

/-- The parts from the first one on that has a character with a meaning. -/
def wildParts (p : Pattern) : List Text := p.parts.dropWhile (!·.any isMeta)

/-- The wild parts that are not empty: the components to be matched. -/
def components (p : Pattern) : List Text := p.wildParts.filter (!·.isEmpty)

/-- The literal beginning of the pattern as a path; empty if there is none. -/
def base (p : Pattern) : Path :=
  match ['/'].intercalate p.literalParts with
  | [] => if p.text.head? = some '/' then [slash] else []
  | joined => utf8 joined

/-- The pattern starts with a wildcard, so that the walk starts from the
current directory although the pattern does not name it. -/
def startsHere (p : Pattern) : Bool := p.base.isEmpty && !p.wildParts.isEmpty

/-- Where the walk starts. -/
def root (p : Pattern) : Path := if p.startsHere then [dot] else p.base

/-- Whether two stars follow each other in a text. -/
def hasTwoStars : Text → Bool
  | '*' :: '*' :: _ => true
  | _ :: t => hasTwoStars t
  | [] => false

/-- How far below the root a match can lie, if anything bounds it. -/
def maxDepth (p : Pattern) : Option Nat :=
  if p.wildParts.any hasTwoStars then none else some p.components.length

/-- The steps from the root to a match, if every component can be read alone.
It cannot where a group, a class or an escape spans a slash. -/
def steps (p : Pattern) : Option (List Step) := p.components.mapM Step.read?

/-- Whether the whole path matches. -/
def matchesPath (p : Pattern) (path : Path) : Bool :=
  Glob.accepts p.ignoreCase p.glob path

/-- A path found by walking from the root, in the form that the pattern is
written in. -/
def relative (p : Pattern) (walked : Path) : Path :=
  if p.startsHere then walked.belowDot else walked

end Pattern

/-! ## Names on the way to a match

The steps are followed name by name. A position is the number of steps that
the names so far have taken; since `**` takes any number of names, several
positions are possible at a time, and all of them are kept. -/

namespace Step

/-- Whether a step may take a name, by the rule for dots: a name that starts
with one is taken only by a component that does, unless hidden names are asked
for. -/
def mayTake (hidden dotted : Bool) (name : Bytes) : Bool :=
  !Path.isDotName name || dotted || hidden

/-- The positions reached from position `i` without taking a name: `**` may
take none at all. -/
def reach : List Step → Nat → List Nat
  | .directories :: steps, i => i :: reach steps (i + 1)
  | _, i => [i]

/-- The positions with all those reached from them, each once. -/
def close (steps : List Step) (positions : List Nat) : List Nat :=
  (positions.flatMap fun i => reach (steps.drop i) i).eraseDups

/-- The position after taking `name` at position `i`. -/
def take (ignoreCase hidden : Bool) (steps : List Step) (name : Bytes) (i : Nat) : Option Nat :=
  match steps[i]? with
  | some .directories => if mayTake hidden false name then some i else none
  | some (.name glob dotted) =>
    if mayTake hidden dotted name && Glob.accepts ignoreCase glob name then some (i + 1)
    else none
  | none => none

/-- All positions after the names. -/
def positions (ignoreCase hidden : Bool) (steps : List Step) (names : List Bytes) : List Nat :=
  names.foldl (fun ps name => close steps (ps.filterMap (take ignoreCase hidden steps name)))
    (close steps [0])

/-- Whether names below the root can be part of a match: a directory's names,
while steps remain to be taken below it, and a file's names, when they take
every step. -/
def admits (ignoreCase hidden isDirectory : Bool) (steps : List Step) (names : List Bytes) : Bool :=
  let ps := positions ignoreCase hidden steps names
  if isDirectory then ps.any (· < steps.length) else ps.contains steps.length

end Step

/-- `Step.admits` for the steps of a pattern; a pattern without steps admits
everything. -/
def Pattern.admits (p : Pattern) (hidden isDirectory : Bool) (names : List Bytes) : Bool :=
  match p.steps with
  | none => true
  | some steps => Step.admits p.ignoreCase hidden isDirectory steps names

end LineLimit
