import LineLimit.Glob.Syntax

/-!
# Reading a glob

The reader takes one character at a time and keeps what it may still need: the
groups that are open, the branch under way, the character before, and whether
it stands inside a class, after a backslash, or after one or two stars. Stars
are decided late, because whether `**` spans directories depends on the
character before it and the one after it.

`**` spans directories where it is a whole component of its branch: at the
start of the branch before a slash or the end of the text, and elsewhere after
a slash (or after the `,` or `{` of the group it is in) and before a slash, the
end of the text or the end of its branch. Anywhere else it is two stars. A `**`
that follows a slash takes that slash with it, and two neighbours collapse into
one.
-/

namespace LineLimit.Glob

/-- A group whose `}` has not been read. -/
structure OpenGroup where
  /-- What stands before the group in its own branch, last first. -/
  before : Tokens
  /-- The branches read to their end, last first. -/
  branches : List Tokens

/-- A class whose `]` has not been read. -/
structure OpenClass where
  negated : Bool
  /-- Nothing has been read but the sign of negation. -/
  empty : Bool
  /-- The last character read was a `-` that may join a range. -/
  inRange : Bool
  /-- The ranges read, last first. -/
  ranges : List (Char × Char)

/-- Make `c` the end of the range read last. -/
def OpenClass.extend (k : OpenClass) (c : Char) : Except GlobError OpenClass :=
  match k.ranges with
  | [] => .ok { k with ranges := [(c, c)], inRange := false }
  | (low, _) :: ranges =>
    if c < low then .error (.invalidRange low c)
    else .ok { k with ranges := (low, c) :: ranges, inRange := false }

/-- Read a character inside a class other than the `]` that ends it: a range
may follow any character, also the end of another range, which it then
replaces; the first character is always literal. -/
def OpenClass.read (k : OpenClass) (c : Char) : Except GlobError OpenClass :=
  if k.inRange then k.extend c
  else if c = '-' && !k.empty then .ok { k with inRange := true }
  else .ok { k with ranges := (c, c) :: k.ranges }

/-- What the next character is part of. -/
inductive Mode where
  | plain
  /-- A backslash has been read. -/
  | escaped
  /-- One star has been read; `before` is the character before it. -/
  | star (before : Option Char)
  /-- Two stars have been read; `before` is the character before the first. -/
  | stars (before : Option Char)
  /-- A `[` has been read. -/
  | classStart
  | inClass (c : OpenClass)

/-- Everything that the rest of a glob depends on. -/
structure Reader where
  /-- The branch under way, last token first. -/
  branch : Tokens
  /-- The open groups, innermost first. -/
  groups : List OpenGroup
  /-- The character read last. -/
  last : Option Char
  mode : Mode

namespace Reader

/-- Nothing has been read. -/
def initial : Reader := ⟨[], [], none, .plain⟩

/-- Add a token to the branch under way. -/
def push (r : Reader) (t : Token) : Reader := { r with branch := t :: r.branch }

/-- End the branch under way at a `,`; outside groups a `,` is literal. -/
def comma (r : Reader) : Reader :=
  match r.groups with
  | [] => r.push (.literal ',')
  | g :: gs =>
    { r with branch := [], groups := { g with branches := r.branch.reverse :: g.branches } :: gs }

/-- End the innermost group at a `}`. -/
def close (r : Reader) : Except GlobError Reader :=
  match r.groups with
  | [] => .error .unopenedGroup
  | g :: gs =>
    let token := Token.ofBranches (r.branch.reverse :: g.branches).reverse
    .ok { r with branch := token :: g.before, groups := gs }

/-- Read a character outside classes and escapes. -/
def plain (r : Reader) (c : Char) : Except GlobError Reader :=
  let before := r.last
  let r := { r with last := some c, mode := .plain }
  match c with
  | '?' => .ok (r.push .anyByte)
  | '*' => .ok { r with mode := .star before }
  | '[' => .ok { r with mode := .classStart }
  | '{' => .ok { r with branch := [], groups := ⟨r.branch, []⟩ :: r.groups }
  | '}' => r.close
  | ',' => .ok r.comma
  | '\\' => .ok { r with mode := .escaped }
  | c => .ok (r.push (.literal c))

/-- Add what a star stands for. -/
def oneStar (r : Reader) : Reader := r.push .star

/-- Add what two stars stand for that do not span directories. -/
def twoStars (r : Reader) : Reader := (r.push .star).push .star

/-- Whether two stars may span directories, going by the character before
them: they start their branch, or they follow a slash or, inside a group, the
`,` or `{` that belongs to it. -/
def maySpan (r : Reader) (before : Option Char) : Bool :=
  r.branch.isEmpty || before = some '/' ||
    (!r.groups.isEmpty && (before = some ',' || before = some '{'))

/-- Put a `**` that spans directories in the place of the token before it,
which is the slash that the `**` takes with it; a `**` before it stays. -/
def spanning (r : Reader) (t : Token) : Reader :=
  match r.branch with
  | [] => r.push .leading
  | .leading :: _ => r
  | .trailing :: _ => r
  | _ :: branch => { r with branch := t :: branch }

/-- Read the character after two stars. -/
def afterStars (r : Reader) (before : Option Char) (c : Char) : Except GlobError Reader :=
  if c = '/' && r.maySpan before then
    .ok { r.spanning .between with last := some '/', mode := .plain }
  else if (c = ',' || c = '}') && !r.groups.isEmpty && !r.branch.isEmpty && r.maySpan before then
    (r.spanning .trailing).plain c
  else r.twoStars.plain c

/-- End a class at its `]`; a `-` read last is literal. -/
def closeClass (r : Reader) (k : OpenClass) : Reader :=
  let ranges := if k.inRange then ('-', '-') :: k.ranges else k.ranges
  { r.push (.oneOf k.negated ranges.reverse) with mode := .plain }

/-- Read a character inside a class. -/
def classChar (r : Reader) (k : OpenClass) (c : Char) : Except GlobError Reader :=
  let r := { r with last := some c }
  if c = ']' && !k.empty then .ok (r.closeClass k)
  else (k.read c).map fun k => { r with mode := .inClass { k with empty := false } }

/-- Read one character. -/
def step (r : Reader) (c : Char) : Except GlobError Reader :=
  match r.mode with
  | .plain => r.plain c
  | .escaped => .ok { r.push (.literal c) with last := some c, mode := .plain }
  | .star before =>
    if c = '*' then .ok { r with last := some c, mode := .stars before }
    else r.oneStar.plain c
  | .stars before => r.afterStars before c
  | .classStart =>
    if c = '!' || c = '^' then
      .ok { r with last := some c, mode := .inClass ⟨true, true, false, []⟩ }
    else r.classChar ⟨false, true, false, []⟩ c
  | .inClass k => r.classChar k c

/-- The reader after the last character has been seen to be the last. -/
def settle (r : Reader) : Except GlobError Reader :=
  match r.mode with
  | .plain => .ok r
  | .escaped => .error .danglingEscape
  | .star _ => .ok r.oneStar
  | .stars before =>
    .ok (if r.maySpan before then r.spanning .trailing else r.twoStars)
  | .classStart => .error .unclosedClass
  | .inClass _ => .error .unclosedClass

/-- The glob that has been read, if no group is open. A glob that consists of
one `**` stands for every path. -/
def finish (r : Reader) : Except GlobError Tokens := do
  let r ← r.settle
  if r.groups.isEmpty then
    match r.branch with
    | [.leading] => .ok [.everything]
    | branch => .ok branch.reverse
  else .error .unclosedGroup

end Reader

/-- Read a glob, or find the first thing wrong with it. -/
def parse (pattern : Text) : Except GlobError Tokens := do
  (← pattern.foldlM Reader.step Reader.initial).finish

end LineLimit.Glob
