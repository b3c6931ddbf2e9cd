import LineLimit.Session
import LineLimit.Tree.Working

/-!
# The command on a disk

`Session.run` is a function of a tree, and this module gathers that tree from
the disk: along the root of the pattern, then below it as deep as a match can
lie, without contents. The files that match are then read, which are all that
the run reads, and what the run leaves behind is written.

A link is gathered as one that leads to the end of its way in one step, and
what it leads to is gathered too. A directory that cannot be listed is gathered as
a closed one.
-/

namespace LineLimit.Disk

/-- A tree under way. -/
structure Gathered where
  tree : FileTree
  /-- The directories gathered with their entries, and how many levels below
  each were. -/
  entered : List (String × Option Nat)

/-- Work that adds to a tree. -/
abbrev Gather := StateT Gathered IO

/-- A path of the disk. -/
def pathOf (path : String) : Path := utf8 path.toList

/-- Add a leaf. -/
def addLeaf (path : String) (leaf : Leaf) : Gather Unit :=
  modify fun g => { g with tree := g.tree.putAt (pathOf path) leaf }

/-- A closed directory of its own, for links to what permissions keep from sight. -/
def hiddenPath : String := "/\u0001"

/-- The entry of this name in a directory. -/
def entry (directory name : String) : IO.FS.DirEntry := ⟨directory, name⟩

mutual

/-- Gather a directory and, where `links` says so, what links in it lead to,
`levels` levels deep. -/
partial def gatherDirectory (links : Bool) (levels : Option Nat) (path : String) :
    Gather Unit := do
  match ← (entry path ".").path.readDir.toBaseIO with
  | .error _ => addLeaf path .closed
  | .ok entries =>
    modify fun g => { g with tree := g.tree.makeDirectoryAt (pathOf path) }
    if levels = some 0 || (← get).entered.contains (path, levels) then return
    modify fun g => { g with entered := (path, levels) :: g.entered }
    for e in entries do
      gatherEntry links (levels.map (· - 1)) path e.fileName

/-- Gather what is at a path that leads through no link. -/
partial def gatherPlace (links : Bool) (levels : Option Nat) (path : String) :
    IO.FS.FileType → Gather Unit
  | .dir => gatherDirectory links levels path
  | .file => addLeaf path (.file (.bytes []))
  | _ => addLeaf path .device

/-- Gather an entry of a directory. A link that cannot be followed leads to
itself or, if its end is missing, to what no entry can be called or, if its end is
kept from sight, into a closed directory. -/
partial def gatherEntry (links : Bool) (levels : Option Nat) (directory name : String) :
    Gather Unit := do
  let path := (entry directory name).path
  let .ok data ← path.symlinkMetadata.toBaseIO | return
  match data.type with
  | .symlink =>
    match ← path.metadata.toBaseIO with
    | .error (.noFileOrDirectory ..) => addLeaf path.toString (.link [0])
    | .error (.permissionDenied ..) =>
      addLeaf hiddenPath .closed
      addLeaf path.toString (.link (pathOf (hiddenPath ++ "/.")))
    | .error _ => addLeaf path.toString (.link (utf8 name.toList))
    | .ok data =>
      let target := (← IO.FS.realPath path).toString
      addLeaf path.toString (.link (utf8 target.toList))
      gatherPlace links (if links then levels else some 0) target data.type
  | type => gatherPlace links levels path.toString type

end

/-- Gather what a path leads through from a directory, and what is below its
end. -/
def gatherAlong (links : Bool) (levels : Option Nat) (directory : String) :
    List Bytes → Gather Unit
  | [] => gatherDirectory links levels directory
  | piece :: rest => do
    let name := String.ofList (lossy piece)
    if (Name.ofBytes? piece).isSome then gatherEntry links (some 0) directory name
    let path := (entry directory name).path
    let .ok data ← path.metadata.toBaseIO | return
    if data.type == .dir then
      gatherAlong links levels (← IO.FS.realPath path).toString rest

/-- The tree with the content of the file at a path. -/
def readInto (t : FileTree) (path : String) : IO FileTree := do
  let content : Content :=
    match ← (IO.FS.readBinFile path).toBaseIO with
    | .ok bytes => .bytes bytes.toList
    | .error (.permissionDenied ..) => .locked
    | .error _ => .unreadable
  return t.putAt (pathOf (← IO.FS.realPath path).toString) (.file content)

/-- What a run of the command with these words looks at. -/
def view (words : List Bytes) : IO TreeView := do
  let here := (← IO.currentDir).toString
  let seen (t : FileTree) : TreeView := ((WorkingTree.ofTree t).enter (pathOf here)).view
  match Session.search? words with
  | none => return seen .empty
  | some (p, o) =>
    let start := if p.root.head? = some slash then "/" else here
    let along := gatherAlong o.followLinks p.maxDepth start (Path.lookupPieces p.root)
    let (_, g) ← along.run ⟨FileTree.empty, []⟩
    let mut t := g.tree
    for found in (seen g.tree).matchingFiles p o do
      if let .ok path := found then
        t ← readInto t (String.ofList (lossy path))
    return seen t

end LineLimit.Disk

/-- Run the command. -/
def main (args : List String) : IO UInt32 := do
  let words := args.map (LineLimit.utf8 ·.toList)
  let session := LineLimit.Session.run (← LineLimit.Disk.view words) words
  IO.eprint (String.ofList session.errors)
  IO.print (String.ofList session.output)
  return UInt32.ofNat session.status
