import LineLimit.Tree.Lookup

/-!
# Looking up paths in an ordered tree

Every directory that a look-up reaches is in order, and so is the way to it:
the pieces of a path lead to an entry of a directory in order, to the directory
above it, or through a link to a new start, which is in order as well.

> `resolve_ordered`: what a path leads to is in order.
-/

namespace LineLimit

/-- A target is in order if it is a directory in order, or no directory. -/
def Target.Ordered : Target → Prop
  | .directory d => d.Ordered
  | .file _ => True
  | .device => True
  | .closed => True

/-- A look-up starts in an ordered directory. -/
theorem Directory.ordered_startOf {root here : Directory} (hroot : root.Ordered)
    (hhere : here.Ordered) (path : Path) : (root.startOf here path).Ordered := by
  unfold Directory.startOf
  split
  · exact hroot
  · exact hhere

/-- What is found of a name in an ordered directory is ordered. -/
theorem Node.sight_ordered {d : Directory} {n : Node} {t : Target} (hd : d.Ordered)
    (hn : n.Ordered) (h : n.sight d = .target t) : t.Ordered := by
  cases n with
  | directory name entries =>
    obtain rfl := Sight.target.inj h
    exact Directory.ordered_child hd hn
  | leaf name leaf =>
    cases leaf with
    | file content =>
      obtain rfl := Sight.target.inj h
      exact trivial
    | device =>
      obtain rfl := Sight.target.inj h
      exact trivial
    | closed =>
      obtain rfl := Sight.target.inj h
      exact trivial
    | link path => exact absurd h (by simp [Node.sight])

theorem Directory.look_ordered {d : Directory} {piece : Bytes} {t : Target} (hd : d.Ordered)
    (h : d.look piece = .ok (.target t)) : t.Ordered := by
  unfold Directory.look at h
  split at h
  · obtain rfl := Sight.target.inj (Except.ok.inj h)
    exact hd
  · split at h
    · obtain rfl := Sight.target.inj (Except.ok.inj h)
      exact Directory.ordered_parent hd
    · split at h
      · exact absurd h (by simp)
      · split at h
        · exact absurd h (by simp)
        · next n hfind =>
          have hn : n.Ordered := ordered_of_mem hd.1 (List.mem_of_find?_eq_some hfind)
          exact Node.sight_ordered hd hn (Except.ok.inj h)

/-- If links lead to what is in order, so do pieces. -/
theorem followPieces_ordered
    {jump : Directory → Path → List Bytes → Except SystemError (Target × Nat)} {links : Nat}
    (hjump : ∀ {d : Directory} {path : Path} {rest : List Bytes} {r : Target × Nat},
      d.Ordered → jump d path rest = .ok r → r.1.Ordered) :
    ∀ {pieces : List Bytes} {t : Target} {r : Target × Nat},
      t.Ordered → followPieces jump links pieces t = .ok r → r.1.Ordered := by
  intro pieces
  induction pieces with
  | nil =>
    intro t r ht h
    rw [followPieces] at h
    obtain rfl := Except.ok.inj h
    exact ht
  | cons piece rest ih =>
    intro t r ht h
    cases t with
    | directory d =>
      rw [followPieces] at h
      split at h
      · exact absurd h (by simp)
      · next t hlook => exact ih (Directory.look_ordered ht hlook) h
      · exact hjump ht h
    | closed =>
      rw [followPieces] at h
      split at h
      · exact ih (t := .closed) trivial h
      · exact absurd h (by simp)
    | file content => exact absurd h (by simp [followPieces])
    | device => exact absurd h (by simp [followPieces])

/-- What pieces lead to is ordered, through any links. -/
theorem follow_ordered {root : Directory} (hroot : root.Ordered) :
    ∀ (links : Nat) {pieces : List Bytes} {t : Target} {r : Target × Nat},
      t.Ordered → follow root links pieces t = .ok r → r.1.Ordered := by
  intro links
  -- what is behind a link is followed with one link less
  induction links with
  | zero =>
    intro pieces t r ht h
    exact followPieces_ordered (fun _ he => absurd he (by simp)) ht h
  | succ links ih =>
    intro pieces t r ht h
    refine followPieces_ordered (fun hd he => ?_) ht h
    exact ih (t := .directory _) (Directory.ordered_startOf hroot hd _) he

theorem followLink_ordered {root d : Directory} {links : Nat} {path : Path} {r : Target × Nat}
    (hroot : root.Ordered) (hd : d.Ordered) (h : followLink root d links path = .ok r) :
    r.1.Ordered := by
  unfold followLink at h
  split at h
  · exact absurd h (by simp)
  · next links =>
    exact follow_ordered hroot links (t := .directory _) (Directory.ordered_startOf hroot hd path) h

/-- What a path leads to is in order. -/
theorem TreeView.resolve_ordered {v : TreeView} {p : Path} {r : Target × Nat}
    (h : v.resolve p = .ok r) : r.1.Ordered := by
  unfold TreeView.resolve at h
  split at h
  · exact absurd h (by simp)
  · have hroot : v.root.Ordered := v.tree.ordered_root
    exact follow_ordered hroot linkLimit (t := .directory _)
      (Directory.ordered_startOf hroot v.ordered p) h

end LineLimit
