import LineLimit.Path

/-!
# File trees

A tree is what a disk holds at one moment: directories, regular files,
symbolic links, and devices. The entries of a directory are kept in increasing
byte order of their names, so no name occurs twice (`Ordered`), and every tree
is built by operations that keep this order: `FileTree.put`,
`FileTree.makeDirectory` and `FileTree.remove`.

Permissions are those of the one who looks: a file may be opened or not
(`Content.locked`), and a directory may be used or not (`Leaf.closed`). A
directory that may be listed but not searched, or searched but not listed, is
not told apart.
-/

namespace LineLimit

/-- The most bytes in a name. -/
def nameLimit : Nat := 255

/-- A byte string that can be the name of an entry: neither empty nor too long,
not `.` or `..`, and without slash or zero byte. -/
def isProperName (bytes : Bytes) : Bool :=
  bytes ≠ [] ∧ bytes ≠ [dot] ∧ bytes ≠ [dot, dot] ∧ slash ∉ bytes ∧ 0 ∉ bytes ∧
    bytes.length ≤ nameLimit

/-- The name of an entry in its directory. -/
structure Name where
  bytes : Bytes
  proper : isProperName bytes = true
  deriving DecidableEq, Repr

namespace Name

/-- The name made of these bytes, if they make one. -/
def ofBytes? (bytes : Bytes) : Option Name :=
  if h : isProperName bytes = true then some ⟨bytes, h⟩ else none

/-- Names are ordered by their bytes. -/
instance : LT Name := ⟨fun a b => a.bytes < b.bytes⟩

instance (a b : Name) : Decidable (a < b) :=
  inferInstanceAs (Decidable (a.bytes < b.bytes))

/-- Names are compared byte by byte, so their order is transitive. -/
theorem lt_trans {a b c : Name} (h : a < b) (h' : b < c) : a < c :=
  List.lt_trans h h'

/-- Of two names neither of which comes first, both are the same. -/
theorem eq_of_not_lt {a b : Name} (h : ¬a < b) (h' : ¬b < a) : a = b := by
  obtain ⟨as, _⟩ := a
  obtain ⟨bs, _⟩ := b
  have heq : as = bs := List.le_antisymm h' h
  subst heq
  rfl

end Name

/-- What a regular file holds. -/
inductive Content where
  | bytes (b : Bytes)
  /-- The file can be opened, but the first read fails. -/
  | unreadable
  /-- The file may not be opened. -/
  | locked
  deriving DecidableEq, Repr

/-- An entry with nothing below it. -/
inductive Leaf where
  | file (content : Content)
  | link (target : Path)
  /-- A device: it is there and reads as empty, but is no regular file. -/
  | device
  /-- A directory that may be neither listed nor searched, so that nothing below
  it can be seen. -/
  | closed
  deriving DecidableEq, Repr

/-- An entry of a directory. -/
inductive Node where
  | leaf (name : Name) (leaf : Leaf)
  | directory (name : Name) (entries : List Node)
  deriving Repr

/-- The name of an entry. -/
def Node.name : Node → Name
  | .leaf name _ => name
  | .directory name _ => name

mutual

/-- The entries below a node are in order. -/
def Node.Ordered : Node → Prop
  | .leaf _ _ => True
  | .directory _ entries => Ordered entries

/-- Entries are in strictly increasing order of their names, at every level. -/
def Ordered : List Node → Prop
  | [] => True
  | n :: ns => n.Ordered ∧ (∀ m ∈ ns, n.name < m.name) ∧ Ordered ns

end

/-! ## Changing the entries of a directory -/

/-- Put a node among the entries, in the place of one with the same name. -/
def insertNode (new : Node) : List Node → List Node
  | [] => [new]
  | n :: ns =>
    if new.name < n.name then new :: n :: ns
    else if n.name < new.name then n :: insertNode new ns
    else new :: ns

/-- The entries without the one with this name. -/
def removeNode (name : Name) (entries : List Node) : List Node :=
  entries.filter (·.name ≠ name)

/-- The entries of the directory with this name, none if there is none. -/
def entriesOf (name : Name) (entries : List Node) : List Node :=
  match entries.find? (·.name = name) with
  | some (.directory _ inner) => inner
  | _ => []

/-- Change the entries of the directory reached by these names, making the
directories on the way that are missing. -/
def changeIn (change : List Node → List Node) : List Name → List Node → List Node
  | [], entries => change entries
  | name :: names, entries =>
    insertNode (.directory name (changeIn change names (entriesOf name entries))) entries

/-- What is put among nodes is there, and nothing else is new. -/
theorem mem_insertNode {new m : Node} {entries : List Node} (h : m ∈ insertNode new entries) :
    m = new ∨ m ∈ entries := by
  induction entries with
  | nil => exact Or.inl (List.mem_singleton.mp h)
  | cons n ns ih =>
    simp only [insertNode] at h
    split at h
    · rcases List.mem_cons.mp h with rfl | h
      · exact Or.inl rfl
      · exact Or.inr h
    · split at h
      · rcases List.mem_cons.mp h with rfl | h
        · exact Or.inr (List.mem_cons_self ..)
        · rcases ih h with rfl | h
          · exact Or.inl rfl
          · exact Or.inr (List.mem_cons_of_mem _ h)
      · rcases List.mem_cons.mp h with rfl | h
        · exact Or.inl rfl
        · exact Or.inr (List.mem_cons_of_mem _ h)

/-- Putting a node among entries keeps their order. -/
theorem ordered_insertNode {new : Node} {entries : List Node} (hnew : new.Ordered)
    (h : Ordered entries) : Ordered (insertNode new entries) := by
  induction entries with
  | nil => exact ⟨hnew, fun m hm => absurd hm (List.not_mem_nil), trivial⟩
  | cons n ns ih =>
    obtain ⟨hn, hlt, hns⟩ := h
    simp only [insertNode]
    split
    · next hbefore =>
      refine ⟨hnew, fun m hm => ?_, hn, hlt, hns⟩
      rcases List.mem_cons.mp hm with rfl | hm
      · exact hbefore
      · exact Name.lt_trans hbefore (hlt m hm)
    · next hbefore =>
      split
      · next hafter =>
        refine ⟨hn, fun m hm => ?_, ih hns⟩
        rcases mem_insertNode hm with rfl | hm
        · exact hafter
        · exact hlt m hm
      · next hafter =>
        have heq : new.name = n.name := Name.eq_of_not_lt hbefore hafter
        exact ⟨hnew, fun m hm => heq ▸ hlt m hm, hns⟩

/-- Removing an entry keeps the order of the others. -/
theorem ordered_removeNode {name : Name} {entries : List Node} (h : Ordered entries) :
    Ordered (removeNode name entries) := by
  induction entries with
  | nil => exact trivial
  | cons n ns ih =>
    obtain ⟨hn, hlt, hns⟩ := h
    simp only [removeNode, List.filter_cons]
    split
    · exact ⟨hn, fun m hm => hlt m (List.mem_filter.mp hm).1, ih hns⟩
    · exact ih hns

/-- What is in an ordered directory is ordered. -/
theorem ordered_of_mem {n : Node} {entries : List Node} (h : Ordered entries)
    (hn : n ∈ entries) : n.Ordered := by
  induction entries with
  | nil => exact absurd hn (List.not_mem_nil)
  | cons m ms ih =>
    rcases List.mem_cons.mp hn with rfl | hn
    · exact h.1
    · exact ih h.2.2 hn

theorem ordered_entriesOf {name : Name} {entries : List Node} (h : Ordered entries) :
    Ordered (entriesOf name entries) := by
  unfold entriesOf
  split
  · next hfind => exact ordered_of_mem h (List.mem_of_find?_eq_some hfind)
  · exact trivial

/-- A change that keeps the order of entries keeps it deep down as well. -/
theorem ordered_changeIn {change : List Node → List Node}
    (hchange : ∀ ns, Ordered ns → Ordered (change ns)) :
    ∀ (names : List Name) {entries : List Node}, Ordered entries →
      Ordered (changeIn change names entries) := by
  intro names
  induction names with
  | nil => intro entries h; exact hchange entries h
  | cons name names ih =>
    intro entries h
    exact ordered_insertNode (ih (ordered_entriesOf h)) h

/-! ## Trees -/

/-- A file tree: the entries of its root directory. -/
structure FileTree where
  entries : List Node
  ordered : Ordered entries

namespace FileTree

/-- The tree that holds nothing. -/
def empty : FileTree := ⟨[], trivial⟩

/-- Put a leaf in the directory reached by these names. -/
def put (t : FileTree) (names : List Name) (name : Name) (leaf : Leaf) : FileTree :=
  ⟨changeIn (insertNode (.leaf name leaf)) names t.entries,
    ordered_changeIn
      (fun _ h => ordered_insertNode (show (Node.leaf name leaf).Ordered from trivial) h)
      names t.ordered⟩

/-- Make the directory reached by these names, unless it is there. -/
def makeDirectory (t : FileTree) (names : List Name) : FileTree :=
  ⟨changeIn id names t.entries, ordered_changeIn (fun _ h => h) names t.ordered⟩

/-- Remove an entry, and everything below it, from the directory reached by
these names. -/
def remove (t : FileTree) (names : List Name) (name : Name) : FileTree :=
  ⟨changeIn (removeNode name) names t.entries,
    ordered_changeIn (fun _ h => ordered_removeNode h) names t.ordered⟩

end FileTree

end LineLimit
