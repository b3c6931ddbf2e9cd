import LineLimit.Config
import LineLimit.Pattern
import LineLimit.Walk

/-!
# Finding the files that match a pattern

The files are looked for by a walk from the root of the pattern. Where the
pattern can be read component by component, the walk keeps to names that can
be part of a match; where it cannot, it only leaves out hidden names. Either
way the whole path of every file found is matched in the end.

A root that is not there matches nothing, and the root `-` stands for the
standard input, which is no file.

Which names are hidden from such a walk is not the pattern's to say but the
walker's, so it is a parameter (`hides`) of the search. The walker documents
that a name is hidden if and only if it starts with a dot, and its release
0.4.34, whose walk this is, looks at the first byte alone: of a file `....` and
the files `.a./x`, `a/x` and `b./x`, the pattern `{*,*/*}` finds `a/x` and
`b./x`, and `{....,q/r}` finds nothing. Earlier releases took a path that ends in
a dot to have no name and showed the others as well.
-/

namespace LineLimit

/-- A name that a walk leaves out unless hidden names are asked for: one that
starts with a dot, whatever it ends in. -/
def Name.isHidden (name : Name) : Bool := Path.isDotName name.bytes

namespace Pattern

/-- The walk that finds the files a pattern matches. Only where names cannot be
tested against the pattern does it matter which of them the walker `hides`. -/
def walkSettings (p : Pattern) (o : WalkOptions) (hides : Name → Bool := Name.isHidden) :
    WalkSettings :=
  { followLinks := o.followLinks
    maxDepth := p.maxDepth
    admits := match p.steps with
      | some steps => fun isDirectory names =>
        Step.admits p.ignoreCase o.hidden isDirectory steps (names.map Name.bytes)
      | none => fun _ names => o.hidden || !names.getLast?.any hides }

/-- The root of the pattern is the name of the standard input. -/
def readsStandardInput (p : Pattern) : Bool := p.root.components = [[0x2D]]

/-- The file of a walk's item, if it matches; an error stays. -/
def select (p : Pattern) : WalkItem → Option (Except WalkError Path)
  | .error e => some (.error e)
  | .ok entry =>
    let path := p.relative entry.path
    if entry.kind = .file && p.matchesPath path then some (.ok path) else none

end Pattern

namespace TreeView

/-- Nothing is to be found at the root of the pattern. -/
def lacksRoot (v : TreeView) (p : Pattern) : Bool := !(v.present p.root).isOk

/-- The files that match a pattern, with the errors met, in the order of the
walk. -/
def matchingFiles (v : TreeView) (p : Pattern) (o : WalkOptions)
    (hides : Name → Bool := Name.isHidden) : List (Except WalkError Path) :=
  if v.lacksRoot p || p.readsStandardInput then []
  else (v.walk (p.walkSettings o hides) p.root).filterMap p.select

end TreeView

end LineLimit
