import LineLimit.Tree.Basic
import LineLimit.Tree.SystemError

/-!
# Looking up paths

A path is followed piece by piece from a directory: a name leads to the entry
of that name, `..` to the directory above, and a link to wherever its target
leads. One look-up follows at most `linkLimit` links, so every look-up ends,
and a cycle of links is an error like any other.

A directory is known together with the way to it from the root, so that the
directory above is always at hand, and two directories are the same exactly
when the ways to them have the same names (`Directory.location`).
-/

namespace LineLimit

/-- The most links that one look-up follows. -/
def linkLimit : Nat := 40

/-- A path with this many bytes or more is refused. -/
def pathLimit : Nat := 4096

/-- A directory, and how it is reached from the root. -/
structure Directory where
  entries : List Node
  /-- The names from the root to here, last first, each with the entries of
  the directory it is in. -/
  way : List (Name × List Node)

namespace Directory

/-- The names on the way from the root: where the directory is. -/
def location (d : Directory) : List Name := d.way.reverse.map Prod.fst

/-- A directory in which nothing can be seen, wherever it is. -/
def unseen : Directory := ⟨[], []⟩

/-- The directory above; the root is its own. -/
def parent (d : Directory) : Directory :=
  match d.way with
  | [] => d
  | (_, entries) :: way => ⟨entries, way⟩

/-- The directory with this name and these entries in `d`. -/
def child (d : Directory) (name : Name) (entries : List Node) : Directory :=
  ⟨entries, (name, d.entries) :: d.way⟩

/-- The entries of the directory are in order, and so are those of every
directory on the way to it. -/
def Ordered (d : Directory) : Prop :=
  LineLimit.Ordered d.entries ∧ ∀ step ∈ d.way, LineLimit.Ordered step.2

/-- The directory above an ordered one is ordered. -/
theorem ordered_parent {d : Directory} (h : d.Ordered) : d.parent.Ordered := by
  unfold parent
  split
  · exact h
  · next name entries way hway =>
    have habove : ∀ step ∈ (name, entries) :: way, LineLimit.Ordered step.2 := hway ▸ h.2
    exact ⟨habove _ (List.mem_cons_self ..), fun step hs => habove _ (List.mem_cons_of_mem _ hs)⟩

/-- A directory found in an ordered one is ordered. -/
theorem ordered_child {d : Directory} {name : Name} {entries : List Node} (h : d.Ordered)
    (hentries : LineLimit.Ordered entries) : (d.child name entries).Ordered := by
  refine ⟨hentries, fun step hs => ?_⟩
  rcases List.mem_cons.mp hs with rfl | hs
  · exact h.1
  · exact h.2 step hs

end Directory

/-- The root directory of a tree. -/
def FileTree.root (t : FileTree) : Directory := ⟨t.entries, []⟩

theorem FileTree.ordered_root (t : FileTree) : t.root.Ordered :=
  ⟨t.ordered, fun _ hs => absurd hs List.not_mem_nil⟩

/-- What a path leads to when links are followed. -/
inductive Target where
  | directory (d : Directory)
  | file (content : Content)
  | device
  /-- A directory that may be neither listed nor searched. -/
  | closed

/-- What one piece of a path leads to: a link is not followed yet. -/
inductive Sight where
  | target (t : Target)
  | link (path : Path)

/-- What an entry of the directory `d` is. -/
def Node.sight (d : Directory) : Node → Sight
  | .directory name entries => .target (.directory (d.child name entries))
  | .leaf _ (.file content) => .target (.file content)
  | .leaf _ .device => .target .device
  | .leaf _ .closed => .target .closed
  | .leaf _ (.link path) => .link path

/-- Where one piece of a path leads from the directory `d`. The empty piece asks
for a directory and leads nowhere else. -/
def Directory.look (d : Directory) (piece : Bytes) : Except SystemError Sight :=
  if piece = [] ∨ piece = [dot] then .ok (.target (.directory d))
  else if piece = [dot, dot] then .ok (.target (.directory d.parent))
  else if nameLimit < piece.length then .error .nameTooLong
  else match d.entries.find? (·.name.bytes = piece) with
    | none => .error .notFound
    | some n => .ok (n.sight d)

/-- The pieces that a look-up goes through: those of the path and, if it ends in a
slash, the empty one. -/
def Path.lookupPieces (p : Path) : List Bytes :=
  p.pieces.filter (!·.isEmpty) ++ (if p.getLast? = some slash then [[]] else [])

/-- Where the look-up of a path starts: at the root if it is absolute. -/
def Directory.startOf (root here : Directory) (p : Path) : Directory :=
  if p.head? = some slash then root else here

/-- Follow pieces; `jump d path rest` goes on at a link in `d` that leads to
`path`, with the pieces after it. A closed directory is one, but even `.` cannot be
looked up in it. -/
def followPieces (jump : Directory → Path → List Bytes → Except SystemError (Target × Nat))
    (links : Nat) : List Bytes → Target → Except SystemError (Target × Nat)
  | [], t => .ok (t, links)
  | piece :: rest, .directory d =>
    match d.look piece with
    | .error e => .error e
    | .ok (.target t) => followPieces jump links rest t
    | .ok (.link path) => jump d path rest
  | piece :: rest, .closed =>
    if piece = [] then followPieces jump links rest .closed else .error .permissionDenied
  | _ :: _, _ => .error .notDirectory

/-- Follow pieces and up to `links` links: what they lead to, and how many
links may still be followed. -/
def follow (root : Directory) : Nat → List Bytes → Target → Except SystemError (Target × Nat)
  | 0 => followPieces (fun _ _ _ => .error .tooManyLinks) 0
  | links + 1 =>
    followPieces
      (fun d path rest =>
        follow root links (path.lookupPieces ++ rest) (.directory (root.startOf d path)))
      (links + 1)

/-- Follow a link in the directory `d`, with up to `links` links in all. -/
def followLink (root d : Directory) (links : Nat) (path : Path) :
    Except SystemError (Target × Nat) :=
  match links with
  | 0 => .error .tooManyLinks
  | links + 1 => follow root links path.lookupPieces (.directory (root.startOf d path))

/-- Why a path is refused before it is looked up, if it is. -/
def Path.refusal? (p : Path) : Option SystemError :=
  if p.contains 0 then some .zeroByte
  else if p.isEmpty then some .notFound
  else if pathLimit ≤ p.length then some .nameTooLong
  else none

/-- A tree as seen from one of its directories, where relative paths start. -/
structure TreeView where
  tree : FileTree
  here : Directory
  ordered : here.Ordered

namespace TreeView

/-- The root directory. -/
def root (v : TreeView) : Directory := v.tree.root

/-- What a path leads to, links followed, and how many links may still be
followed from there. -/
def resolve (v : TreeView) (p : Path) : Except SystemError (Target × Nat) :=
  match p.refusal? with
  | some e => .error e
  | none => follow v.root linkLimit p.lookupPieces (.directory (v.root.startOf v.here p))

/-- What is seen under a path, a link there not followed. -/
def sight (v : TreeView) (p : Path) : Except SystemError Sight :=
  match p.refusal? with
  | some e => .error e
  | none => do
    let (t, _) ← follow v.root linkLimit p.lookupPieces.dropLast
      (.directory (v.root.startOf v.here p))
    match t, p.lookupPieces.getLast? with
    | t, none => .ok (.target t)
    | .directory d, some piece => d.look piece
    | .closed, some piece => if piece = [] then .ok (.target .closed) else .error .permissionDenied
    | _, some _ => .error .notDirectory

/-- Whether something is there under a path, be it a link that leads nowhere;
otherwise why not. -/
def present (v : TreeView) (p : Path) : Except SystemError Unit := (v.sight p).map fun _ => ()

/-- Whether there is a link under a path. -/
def isLink (v : TreeView) (p : Path) : Bool :=
  match v.sight p with
  | .ok (.link _) => true
  | _ => false

/-- Whether a path leads to a regular file. -/
def isFile (v : TreeView) (p : Path) : Bool :=
  match v.resolve p with
  | .ok (.file _, _) => true
  | _ => false

/-- Everything that can be read under a path. -/
def read (v : TreeView) (p : Path) : Except SystemError Bytes := do
  match (← v.resolve p).1 with
  | .directory _ => .error .isDirectory
  | .file (.bytes b) => .ok b
  | .file .unreadable => .error .inputOutput
  | .file .locked => .error .permissionDenied
  | .device => .ok []
  | .closed => .error .permissionDenied

end TreeView

/-- The directory that names lead to. Where there is no directory of that name,
it is one with nothing in it. -/
def Directory.descend (d : Directory) : List Name → Directory
  | [] => d
  | name :: names => (d.child name (entriesOf name d.entries)).descend names

/-- A directory found by several names in an ordered one is ordered. -/
theorem Directory.ordered_descend {d : Directory} (names : List Name) (h : d.Ordered) :
    (d.descend names).Ordered := by
  induction names generalizing d with
  | nil => exact h
  | cons name names ih => exact ih (ordered_child h (ordered_entriesOf h.1))

/-- The tree seen from the directory that these names lead to. -/
def FileTree.viewFrom (t : FileTree) (names : List Name) : TreeView :=
  ⟨t, t.root.descend names, Directory.ordered_descend names t.ordered_root⟩

end LineLimit
