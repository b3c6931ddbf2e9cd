import LineLimit.Tree.Lookup

/-!
# A tree at work

A tree that changes while one of its directories is the current one. Changes
are asked for by paths from the root, and such a path leads through links as
any other does: what is put at `l/b`, where `l` leads to the directory `d`,
comes to stand in `d`. Only at the end of a path do changes differ. A file is
written where a link there leads, another entry is put only where nothing is,
and a removal takes the link itself.

The current directory is a directory and not a name. When it is removed, or one
above it is, it stays current, but it is empty from then on, and only `..`
leads out of it.
-/

namespace LineLimit

/-- A place for an entry: the way to its directory from the root, and the name
it has there. -/
structure Slot where
  directory : List Name
  name : Name
  deriving DecidableEq, Repr

namespace Slot

/-- The way from the root to what is in the slot. -/
def way (s : Slot) : List Name := s.directory ++ [s.name]

/-- The slot that a piece of a path names in the directory `d`, unless the
piece cannot be a name. -/
def ofPiece? (d : Directory) (piece : Bytes) : Option Slot :=
  (Name.ofBytes? piece).map fun name => ⟨d.location, name⟩

/-- The slot for a file that is written as `piece` in the directory `d`: there
or, if there is a link, where that leads, with at most `looks` looks in all.
There is none if what is found is no file and not nothing. -/
def ofFile? (root : Directory) : Nat → Directory → Bytes → Option Slot
  | 0, _, _ => none
  | looks + 1, d, piece =>
    match d.look piece with
    | .error .notFound => ofPiece? d piece
    | .ok (.target (.file (.bytes _))) => ofPiece? d piece
    | .ok (.link path) =>
      match follow root looks path.lookupPieces.dropLast (.directory (root.startOf d path)),
          path.lookupPieces.getLast? with
      | .ok (.directory inner, _), some last => ofFile? root looks inner last
      | _, _ => none
    | _ => none

/-- The slot for a leaf that is put as `piece` into the directory `d`. -/
def ofLeaf? (root d : Directory) (piece : Bytes) : Leaf → Option Slot
  | .file _ => ofFile? root (linkLimit + 1) d piece
  | _ =>
    match d.look piece with
    | .error .notFound => ofPiece? d piece
    | _ => none

end Slot

namespace FileTree

/-- The directory that one piece of a path leads to from the directory reached
by `names`, made if nothing is there; none if something else is there. -/
def enter? (t : FileTree) (names : List Name) (piece : Bytes) :
    Option (FileTree × List Name) :=
  let v := t.viewFrom names
  match v.resolve piece, v.here.look piece, Name.ofBytes? piece with
  | .ok (.directory d, _), _, _ => some (t, d.location)
  | _, .error .notFound, some name =>
    some (t.makeDirectory (names ++ [name]), names ++ [name])
  | _, _, _ => none

/-- The directory that pieces of a path lead to from the root, made with those
on the way to it where nothing is. -/
def reach? (t : FileTree) (pieces : List Bytes) : Option (FileTree × List Name) :=
  pieces.foldlM (fun (t, names) piece => t.enter? names piece) (t, [])

/-- Put a leaf at a path. Where that cannot be done the tree stays as it is. -/
def putAt (t : FileTree) (p : Path) (leaf : Leaf) : FileTree :=
  match t.reach? p.steps.dropLast, p.steps.getLast? with
  | some (made, names), some piece =>
    match Slot.ofLeaf? made.root (made.viewFrom names).here piece leaf with
    | some s => made.put s.directory s.name leaf
    | none => t
  | _, _ => t

/-- Make the directory at a path, unless something is there. -/
def makeDirectoryAt (t : FileTree) (p : Path) : FileTree :=
  match t.reach? p.steps with
  | some (made, _) => made
  | none => t

/-- The slot of the entry at a path, links at its end not followed. -/
def slotAt? (t : FileTree) (p : Path) : Option Slot :=
  match follow t.root linkLimit p.steps.dropLast (.directory t.root), p.steps.getLast? with
  | .ok (.directory d, _), some piece => Slot.ofPiece? d piece
  | _, _ => none

end FileTree

/-- A tree, and which of its directories is the current one. -/
structure WorkingTree where
  tree : FileTree
  /-- The way to the current directory from the root, as far as it is there. -/
  here : List Name
  /-- The rest of that way, which has been removed. -/
  removed : List Name

namespace WorkingTree

/-- A tree whose root is the current directory. -/
def ofTree (t : FileTree) : WorkingTree := ⟨t, [], []⟩

/-- The directory below `d` that these names once led to. -/
def gone (d : Directory) (removed : List Name) : Directory :=
  removed.foldl (fun d name => d.child name []) d

theorem ordered_gone {d : Directory} (removed : List Name) (h : d.Ordered) :
    (gone d removed).Ordered := by
  induction removed generalizing d with
  | nil => exact h
  | cons name removed ih => exact ih (Directory.ordered_child h trivial)

/-- The tree as it is seen from the current directory. -/
def view (w : WorkingTree) : TreeView :=
  let v := w.tree.viewFrom w.here
  ⟨w.tree, gone v.here w.removed, ordered_gone w.removed v.ordered⟩

/-- Put a leaf at a path. -/
def put (w : WorkingTree) (p : Path) (leaf : Leaf) : WorkingTree :=
  { w with tree := w.tree.putAt p leaf }

/-- Make the directory at a path. -/
def makeDirectory (w : WorkingTree) (p : Path) : WorkingTree :=
  { w with tree := w.tree.makeDirectoryAt p }

/-- Take out what is in a slot, with everything below it. -/
def clear (w : WorkingTree) (s : Slot) : WorkingTree :=
  let tree := w.tree.remove s.directory s.name
  if s.way.isPrefixOf w.here then
    ⟨tree, s.directory, w.here.drop s.directory.length ++ w.removed⟩
  else { w with tree := tree }

/-- Remove the entry at a path, if there is one, with everything below it. -/
def remove (w : WorkingTree) (p : Path) : WorkingTree :=
  match w.tree.slotAt? p with
  | some s => w.clear s
  | none => w

/-- Make the directory at a path the current one, and make it first if nothing
is there. -/
def enter (w : WorkingTree) (p : Path) : WorkingTree :=
  match w.tree.reach? p.steps with
  | some (made, names) => ⟨made, names, []⟩
  | none => w

end WorkingTree

end LineLimit
