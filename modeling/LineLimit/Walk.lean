import LineLimit.Tree.Lookup
import LineLimit.Text.Utf8

/-!
# Walking a tree

A walk lists what lies at and below a path: each directory before its entries,
the entries in the order of their names, and directories in place among their
neighbours. What cannot be walked is an item of the list like any other, and
the walk goes on after it; so a closed directory is listed, and then that it may
not be.

The path walked from is always looked up through links. Below it, links are
followed only if the settings say so; then a link that leads nowhere is an
error, and so is a link to a directory that the walk is inside of, which would
never end, and one to a closed directory, of which that cannot be told. Links
are looked at before the settings are asked whether an entry is wanted, so the
errors of unwanted links are listed too. An unwanted directory is not entered.
-/

namespace LineLimit

/-- Why something met on a walk could not be walked. -/
inductive WalkError where
  /-- The system refused the path. -/
  | system (path : Path) (cause : SystemError)
  /-- The link leads to a directory that the walk is inside of. -/
  | loop (path ancestor : Path)
  /-- The link leads to a closed directory, so that it cannot be told whether the
  walk is inside of it. -/
  | closed (path : Path)
  deriving DecidableEq, Repr

/-- What the user is told of a walk's error. A link to a closed directory is not
named. -/
def WalkError.message : WalkError → Text
  | .system path cause =>
    lossy path ++ ": IO error for operation on ".toList ++ lossy path ++ ": ".toList ++
      cause.message
  | .loop path ancestor =>
    "File system loop found: ".toList ++ lossy path ++ " points to an ancestor ".toList ++
      lossy ancestor
  | .closed _ => SystemError.permissionDenied.message

/-- What an entry is, for those who want to read it: links count as what they
lead to where links are followed, and a link to a regular file always counts
as a file. -/
inductive EntryKind where
  | file
  | directory
  | other
  deriving DecidableEq, Repr

/-- Something met on a walk. -/
structure WalkEntry where
  /-- Its path, which starts as the path walked from is written. -/
  path : Path
  /-- Its names below the path walked from. -/
  names : List Name
  kind : EntryKind
  deriving DecidableEq, Repr

/-- An item of a walk. -/
abbrev WalkItem := Except WalkError WalkEntry

/-- What a walk is to list. -/
structure WalkSettings where
  followLinks : Bool
  /-- How many levels below the path walked from are listed. -/
  maxDepth : Option Nat
  /-- Whether an entry below the path walked from is wanted, given whether it
  is a directory and its names. -/
  admits : Bool → List Name → Bool

/-- A directory that a walk is inside of. -/
structure Place where
  directory : Directory
  path : Path
  names : List Name
  /-- The directories from here up to the path walked from, nearest first:
  where each is, and its path on this walk. -/
  ancestors : List (List Name × Path)
  /-- How many links a look-up may follow beyond this directory. -/
  links : Nat

namespace Place

/-- The place that a walk starts in. -/
def start (d : Directory) (path : Path) (links : Nat) : Place :=
  ⟨d, path, [], [(d.location, path)], links⟩

/-- The place one level below, where the directory `d` has the name `name`. -/
def child (p : Place) (name : Name) (d : Directory) (links : Nat) : Place :=
  let path := p.path.child name.bytes
  ⟨d, path, p.names ++ [name], (d.location, path) :: p.ancestors, links⟩

/-- The entry for the place itself. -/
def entry (p : Place) : WalkEntry := ⟨p.path, p.names, .directory⟩

end Place

namespace WalkSettings

/-- The item for an entry that is no directory, if it is wanted. -/
def report (s : WalkSettings) (p : Place) (name : Name) (kind : EntryKind) : List WalkItem :=
  let names := p.names ++ [name]
  if s.admits false names then [.ok ⟨p.path.child name.bytes, names, kind⟩] else []

/-- The items below a place: none beyond the depth asked for, and an error
where the path of the place is too long to be opened. -/
def below (s : WalkSettings) (p : Place) (items : Unit → List WalkItem) : List WalkItem :=
  if s.maxDepth.any (· ≤ p.names.length) then []
  else if pathLimit ≤ p.path.length then [.error (.system p.path .nameTooLong)]
  else items ()

/-- The items of a directory, if it is wanted: itself, then those below. -/
def enter (s : WalkSettings) (p : Place) (items : Unit → List WalkItem) : List WalkItem :=
  if s.admits true p.names then .ok p.entry :: s.below p items else []

/-- The items of a closed directory, if it is wanted: itself, and that it may not
be listed. -/
def refused (s : WalkSettings) (p : Place) : List WalkItem :=
  s.enter p fun _ => [.error (.system p.path .permissionDenied)]

/-- The items of a closed directory that is walked from, through a link or not. -/
def refusedRoot (s : WalkSettings) (isLink : Bool) (p : Place) : List WalkItem :=
  if s.followLinks && isLink then [.error (.closed p.path)]
  else .ok p.entry :: s.below p fun _ => [.error (.system p.path .permissionDenied)]

/-- The items of a link in a place; `descend` lists what is below a place. -/
def visitLink (s : WalkSettings) (root : Directory) (descend : Place → List WalkItem)
    (p : Place) (name : Name) (link : Path) : List WalkItem :=
  let path := p.path.child name.bytes
  let target :=
    if pathLimit ≤ path.length then .error .nameTooLong
    else followLink root p.directory p.links link
  match target with
  | .ok (.file _, _) => s.report p name .file
  | .ok (.device, _) => s.report p name .other
  | .ok (.closed, _) => if s.followLinks then [.error (.closed path)] else s.report p name .other
  | .ok (.directory d, links) =>
    if s.followLinks then
      match p.ancestors.find? (·.1 = d.location) with
      | some (_, ancestor) => [.error (.loop path ancestor)]
      | none =>
        let inner := p.child name d links
        s.enter inner fun _ => descend inner
    else s.report p name .other
  | .error e =>
    if s.followLinks then [.error (.system path e)] else s.report p name .other

mutual

/-- The items of an entry of a place. -/
def visit (s : WalkSettings) (root : Directory) (descend : Place → List WalkItem)
    (p : Place) : Node → List WalkItem
  | .leaf name (.file _) => s.report p name .file
  | .leaf name .device => s.report p name .other
  | .leaf name .closed => s.refused (p.child name .unseen p.links)
  | .leaf name (.link path) => s.visitLink root descend p name path
  | .directory name entries =>
    let inner := p.child name (p.directory.child name entries) p.links
    s.enter inner fun _ => visitAll s root descend inner entries

/-- The items of entries of a place. -/
def visitAll (s : WalkSettings) (root : Directory) (descend : Place → List WalkItem)
    (p : Place) : List Node → List WalkItem
  | [] => []
  | n :: ns => visit s root descend p n ++ visitAll s root descend p ns

end

/-- The items below a place, where at most `links` links to directories are
entered one inside the other. Since every look-up on the way counts its links,
no walk enters more than `linkLimit`. -/
def descend (s : WalkSettings) (root : Directory) : Nat → Place → List WalkItem
  | 0, p => visitAll s root (fun _ => []) p p.directory.entries
  | links + 1, p => visitAll s root (descend s root links) p p.directory.entries

end WalkSettings

/-- The items at and below a path. -/
def TreeView.walk (v : TreeView) (s : WalkSettings) (path : Path) : List WalkItem :=
  match v.resolve path with
  | .error e => [.error (.system path e)]
  | .ok (.file _, _) => [.ok ⟨path, [], .file⟩]
  | .ok (.device, _) => [.ok ⟨path, [], .other⟩]
  | .ok (.closed, links) => s.refusedRoot (v.isLink path) (.start .unseen path links)
  | .ok (.directory d, links) =>
    let p := Place.start d path links
    .ok p.entry :: s.below p fun _ => s.descend v.root linkLimit p

end LineLimit
