import LineLimit.Proofs.Tree.Entries
import LineLimit.Proofs.Walk.Files

/-!
# What a walk yields can be looked up

A walk keeps, for each place, the directory that the names of the place lead to and the links
that may still be followed from there (`Place.Found`). So an entry that is taken for a file is
what its names lead to, through links or not:

> `walk_follow`: the names of a file that a walk yields lead from the path walked from to a
> file.
-/

namespace LineLimit

/-- Where the names of a place lead, from the directory and with the links that the walk starts
with, is its directory, and the links left are those of the place. -/
structure Place.Found (root d : Directory) (links : Nat) (p : Place) : Prop where
  follow_eq : follow root links (p.names.map Name.bytes) (.directory d) =
    .ok (.directory p.directory, p.links)
  ordered : p.directory.Ordered

/-- The names of the entry lead to a file. -/
def WalkEntry.LeadsToFile (root d : Directory) (links : Nat) (e : WalkEntry) : Prop :=
  ∃ c k, follow root links (e.names.map Name.bytes) (.directory d) = .ok (.file c, k)

variable {root d₀ : Directory} {links₀ : Nat} {p : Place}

theorem Place.found_start (hd : d₀.Ordered) (path : Path) :
    (Place.start d₀ path links₀).Found root d₀ links₀ :=
  ⟨follow_nil .., hd⟩

/-- One name more is followed from the place. -/
theorem Place.Found.follow_concat (h : p.Found root d₀ links₀) (name : Name) :
    follow root links₀ ((p.names ++ [name]).map Name.bytes) (.directory d₀) =
      follow root p.links [name.bytes] (.directory p.directory) := by
  rw [List.map_append, List.map_singleton, follow_append, h.follow_eq]
  rfl

/-- The place of a directory of a place. -/
theorem Place.Found.child (h : p.Found root d₀ links₀) {name : Name} {entries : List Node}
    (hn : .directory name entries ∈ p.directory.entries) :
    (p.child name (p.directory.child name entries) p.links).Found root d₀ links₀ where
  follow_eq := by
    have hlook := Directory.look_of_mem h.ordered hn
    exact (h.follow_concat name).trans (follow_singleton_target hlook p.links)
  ordered := Directory.ordered_child h.ordered (ordered_of_mem h.ordered.1 hn)

/-- The place that a link of a place leads to. -/
theorem Place.Found.link (h : p.Found root d₀ links₀) (hroot : root.Ordered) {name : Name}
    {link : Path} (hn : .leaf name (.link link) ∈ p.directory.entries) {d : Directory}
    {links : Nat} (hlink : followLink root p.directory p.links link = .ok (.directory d, links)) :
    (p.child name d links).Found root d₀ links₀ where
  follow_eq := by
    have hlook := Directory.look_of_mem h.ordered hn
    exact (h.follow_concat name).trans ((follow_singleton_link hlook p.links).trans hlink)
  ordered := followLink_ordered hroot h.ordered hlink

/-- The place that an entry of a place leads to. -/
theorem Place.Found.inner? (h : p.Found root d₀ links₀) (hroot : root.Ordered)
    {followLinks : Bool} {n : Node} (hn : n ∈ p.directory.entries) {q : Place}
    (hinner : n.inner? followLinks root p = some q) : q.Found root d₀ links₀ := by
  cases n with
  | directory name entries =>
    obtain rfl := Option.some.inj hinner
    exact h.child hn
  | leaf name leaf =>
    cases leaf with
    | file content => exact absurd hinner (by simp [Node.inner?])
    | device => exact absurd hinner (by simp [Node.inner?])
    | closed => exact absurd hinner (by simp [Node.inner?])
    | link link =>
      simp only [Node.inner?] at hinner
      split at hinner
      · next d links htarget =>
        rw [Option.ite_none_right_eq_some] at hinner
        obtain rfl := Option.some.inj hinner.2
        exact h.link hroot hn (Place.followLink_of_target htarget)
      · exact absurd hinner (by simp)

/-- An entry of a place that is a file leads to one. -/
theorem Place.Found.exists_file (h : p.Found root d₀ links₀) {n : Node}
    (hn : n ∈ p.directory.entries) (hfile : n.isFileIn root p = true) :
    ∃ c k, follow root p.links [n.name.bytes] (.directory p.directory) = .ok (.file c, k) := by
  have hlook := Directory.look_of_mem h.ordered hn
  cases n with
  | directory name entries => exact absurd hfile (by simp [Node.isFileIn])
  | leaf name leaf =>
    cases leaf with
    | file content => exact ⟨_, _, follow_singleton_target hlook p.links⟩
    | device => exact absurd hfile (by simp [Node.isFileIn])
    | closed => exact absurd hfile (by simp [Node.isFileIn])
    | link link =>
      simp only [Node.isFileIn] at hfile
      split at hfile
      · next c k htarget =>
        exact ⟨c, k, (follow_singleton_link hlook p.links).trans
          (Place.followLink_of_target htarget)⟩
      · exact absurd hfile (by simp)

namespace WalkSettings

variable {s : WalkSettings}

/-- What is known of a place is known of every place that the walk comes to from there. -/
theorem Visits.found {r : Place} (h : s.Visits root p r) (hroot : root.Ordered)
    (hp : p.Found root d₀ links₀) : r.Found root d₀ links₀ := by
  induction h with
  | here p => exact hp
  | further hlists hn hinner hwanted hrest ih => exact ih (hp.inner? hroot hn hinner)

/-- The names of a file that is found from a place lead to a file. -/
theorem Finds.leadsToFile {e : WalkEntry} (h : s.Finds root p e) (hroot : root.Ordered)
    (hp : p.Found root d₀ links₀) : e.LeadsToFile root d₀ links₀ := by
  obtain @⟨r, n, hvisits, hlists, hn, hfile, hwanted⟩ := h
  have hr := hvisits.found hroot hp
  obtain ⟨c, k, hfollow⟩ := hr.exists_file hn hfile
  exact ⟨c, k, (hr.follow_concat n.name).trans hfollow⟩

theorem Finds.names_ne_nil {e : WalkEntry} (h : s.Finds root p e) : e.names ≠ [] := by
  cases h
  exact List.concat_ne_nil _ _

end WalkSettings

/-- A file that a walk yields is what the path walked from leads to, or the path leads to a
directory and the names of the entry lead from there to the file. -/
theorem TreeView.walk_follow {v : TreeView} {s : WalkSettings} {path : Path} {e : WalkEntry}
    (h : e ∈ successes (v.walk s path)) (hkind : e.kind = .file) :
    (e.names = [] ∧ v.isFile path = true) ∨
      ∃ d links, v.resolve path = .ok (.directory d, links) ∧ e.names ≠ [] ∧
        e.LeadsToFile v.root d links := by
  rcases (file_mem_walk_iff hkind).mp (mem_successes.mp h) with
    ⟨c, k, hresolve, rfl⟩ | ⟨d, links, hresolve, hfinds⟩
  · exact .inl ⟨rfl, isFile_iff.mpr ⟨c, k, hresolve⟩⟩
  · exact .inr ⟨d, links, hresolve, hfinds.names_ne_nil,
      hfinds.leadsToFile v.tree.ordered_root (Place.found_start (resolve_ordered hresolve) path)⟩

end LineLimit
