import LineLimit.Glob.Depth
import LineLimit.Pattern

/-!
# Building the matchers of a pattern

A glob that can be read is matched by an engine that is not this program's own.
For some globs the engine builds no matcher: it refuses an expression that is
nested too deeply, or would become too large. The program takes that for
impossible and panics, which the system turns into an exit status of its own.

Which globs are refused, what is said then and which status it is are data of a
`Platform`. `Platform.standard` is the engine with the limit on nesting that it
has unless told otherwise, and a program that is built to abort; the limit on
size, which takes a glob of tens of thousands of characters to reach, is not
spelled out.
-/

namespace LineLimit

/-- What a run relies on beside its tree and its words. -/
structure Platform where
  /-- What is said on the standard error where no matcher is built for a glob. -/
  refusal? : (ignoreCase : Bool) → Glob.Tokens → Option Text
  /-- The exit status of a run that panics. -/
  panicStatus : Nat
  /-- It is none that the program gives itself. -/
  one_lt_panicStatus : 1 < panicStatus

/-- The most levels that the engine lets an expression be nested. -/
def Glob.depthLimit : Nat := 250

namespace Platform

/-- The engine as it comes, and a program that is aborted when it panics. -/
def standard : Platform where
  refusal? _ glob :=
    if Glob.depth glob ≤ Glob.depthLimit then none
    else some "regex compilation shouldn't fail\n".toList
  panicStatus := 134
  one_lt_panicStatus := by decide

end Platform

namespace Pattern

/-- The globs of components that matchers are built for. The first component
that cannot be read alone ends it. -/
def componentGlobs : List Text → List Glob.Tokens
  | [] => []
  | part :: parts =>
    match Step.read? part with
    | some .directories => componentGlobs parts
    | some (.name glob _) => glob :: componentGlobs parts
    | none => []

/-- The globs that matchers are built for, in the order in which they are built:
first the components, then the whole. -/
def matchers (p : Pattern) : List Glob.Tokens := componentGlobs p.components ++ [p.glob]

/-- What is said when a matcher of the pattern is not built, if one is not. -/
def refusal? (pl : Platform) (p : Pattern) : Option Text :=
  p.matchers.findSome? (pl.refusal? p.ignoreCase)

end Pattern

end LineLimit
