import LineLimit.Tree.Lookup

/-!
# Being there, and leading somewhere

Pieces can be followed in two stretches: the second goes on where the first has
led, with the links that are left (`follow_append`). Whether something is there
under a path is asked by following all its pieces but the last, without
following a link under the last one. So a path under which nothing can be seen
leads nowhere, and for the same reason:

> `resolve_of_present_error`: what `present` refuses, `resolve` refuses too.

The converse fails for links that lead nowhere: they are there.

Every link that is followed counts, so behind a link there are fewer left to
follow (`followLink_links_lt`).
-/

namespace LineLimit

/-- If links lead through two stretches as through one, so do pieces. -/
theorem followPieces_append
    {jump jump' : Directory → Path → List Bytes → Except SystemError (Target × Nat)}
    {g : Nat → Target → Except SystemError (Target × Nat)} {links : Nat} {after : List Bytes}
    (hjump : ∀ d path rest,
      jump d path (rest ++ after) = (jump' d path rest).bind fun r => g r.2 r.1)
    (hg : ∀ t, followPieces jump links after t = g links t) (pieces : List Bytes) (t : Target) :
    followPieces jump links (pieces ++ after) t =
      (followPieces jump' links pieces t).bind fun r => g r.2 r.1 := by
  induction pieces generalizing t with
  | nil => exact hg t
  | cons piece pieces ih =>
    cases t with
    | directory d =>
      rw [List.cons_append, followPieces, followPieces]
      cases d.look piece with
      | error e => rfl
      | ok sight =>
        cases sight with
        | target t => exact ih t
        | link path => exact hjump d path pieces
    | closed =>
      rw [List.cons_append, followPieces, followPieces]
      split
      · exact ih .closed
      · rfl
    | file content => rfl
    | device => rfl

/-- Pieces are followed in two stretches: the second goes on where the first
has led, with the links that are left. -/
theorem follow_append (root : Directory) (links : Nat) (pieces after : List Bytes) (t : Target) :
    follow root links (pieces ++ after) t =
      (follow root links pieces t).bind fun r => follow root r.2 after r.1 := by
  -- behind a link, the pieces of its path come first, and there is one link less
  induction links generalizing pieces t with
  | zero =>
    exact followPieces_append (g := fun links t => follow root links after t)
      (fun _ _ _ => rfl) (fun _ => rfl) pieces t
  | succ links ih =>
    refine followPieces_append (g := fun links t => follow root links after t) ?_ (fun _ => rfl)
      pieces t
    intro d path rest
    rw [← List.append_assoc]
    exact ih _ _

theorem follow_nil (root : Directory) (links : Nat) (t : Target) :
    follow root links [] t = .ok (t, links) := by
  cases links <;> rfl

/-- Nothing is below a file. -/
theorem follow_singleton_file (root : Directory) (links : Nat) (piece : Bytes) (c : Content) :
    follow root links [piece] (.file c) = .error .notDirectory := by
  cases links <;> rfl

theorem follow_singleton_device (root : Directory) (links : Nat) (piece : Bytes) :
    follow root links [piece] .device = .error .notDirectory := by
  cases links <;> rfl

/-- A closed directory is one, but no piece of a path leads further. -/
theorem follow_singleton_closed (root : Directory) (links : Nat) (piece : Bytes) :
    follow root links [piece] .closed =
      if piece = [] then .ok (.closed, links) else .error .permissionDenied := by
  cases links <;> rfl

/-- A piece that cannot be seen in a directory leads nowhere. -/
theorem follow_singleton_of_error {root d : Directory} {piece : Bytes} {e : SystemError}
    (h : d.look piece = .error e) (links : Nat) :
    follow root links [piece] (.directory d) = .error e := by
  cases links with
  | zero => rw [follow, followPieces, h]
  | succ links => rw [follow, followPieces, h]

/-! ## Links left -/

/-- If links leave no more links to follow than there were, nor do pieces. -/
theorem followPieces_links_le
    {jump : Directory → Path → List Bytes → Except SystemError (Target × Nat)} {links : Nat}
    (hjump : ∀ {d path rest r}, jump d path rest = .ok r → r.2 ≤ links) :
    ∀ {pieces : List Bytes} {t : Target} {r : Target × Nat},
      followPieces jump links pieces t = .ok r → r.2 ≤ links := by
  intro pieces
  induction pieces with
  | nil =>
    intro t r h
    rw [followPieces] at h
    obtain rfl := Except.ok.inj h
    exact Nat.le_refl links
  | cons piece rest ih =>
    intro t r h
    cases t with
    | directory d =>
      rw [followPieces] at h
      split at h
      · exact absurd h (by simp)
      · exact ih h
      · exact hjump h
    | closed =>
      rw [followPieces] at h
      split at h
      · exact ih h
      · exact absurd h (by simp)
    | file content => exact absurd h (by simp [followPieces])
    | device => exact absurd h (by simp [followPieces])

/-- Following pieces never gives links back. -/
theorem follow_links_le {root : Directory} :
    ∀ (links : Nat) {pieces : List Bytes} {t : Target} {r : Target × Nat},
      follow root links pieces t = .ok r → r.2 ≤ links := by
  intro links
  -- what is behind a link is followed with one link less
  induction links with
  | zero =>
    intro pieces t r h
    exact followPieces_links_le (fun he => absurd he (by simp)) h
  | succ links ih =>
    intro pieces t r h
    exact followPieces_links_le (fun he => Nat.le_succ_of_le (ih he)) h

/-- Every link that is followed counts. -/
theorem followLink_links_lt {root d : Directory} {links : Nat} {path : Path} {r : Target × Nat}
    (h : followLink root d links path = .ok r) : r.2 < links := by
  unfold followLink at h
  split at h
  · exact absurd h (by simp)
  · exact Nat.lt_succ_of_le (follow_links_le _ h)

/-- A look-up starts with all the links allowed. -/
theorem TreeView.resolve_links_le {v : TreeView} {p : Path} {r : Target × Nat}
    (h : v.resolve p = .ok r) : r.2 ≤ linkLimit := by
  unfold TreeView.resolve at h
  split at h
  · exact absurd h (by simp)
  · exact follow_links_le linkLimit h

/-! ## Something under a path -/

/-- A path under which nothing can be seen leads nowhere, for the same reason. -/
theorem TreeView.resolve_of_sight_error {v : TreeView} {p : Path} {e : SystemError}
    (h : v.sight p = .error e) : v.resolve p = .error e := by
  unfold TreeView.sight at h
  unfold TreeView.resolve
  cases hrefusal : p.refusal? with
  | some e' =>
    simp only [hrefusal] at h ⊢
    exact congrArg Except.error (Except.error.inj h)
  | none =>
    simp only [hrefusal] at h ⊢
    cases hlast : p.lookupPieces.getLast? with
    | none =>
      rw [List.getLast?_eq_none_iff.mp hlast, List.dropLast_nil, follow_nil] at h
      exact absurd h (by simp [bind, Except.bind])
    | some piece =>
      obtain ⟨init, hpieces⟩ := List.getLast?_eq_some_iff.mp hlast
      rw [hpieces, List.dropLast_concat, List.getLast?_concat] at h
      rw [hpieces, follow_append]
      -- the pieces above lead nowhere, or to where the last piece is not seen
      cases habove : follow v.root linkLimit init (.directory (v.root.startOf v.here p)) with
      | error e' =>
        rw [habove] at h
        exact congrArg Except.error (Except.error.inj h)
      | ok r =>
        obtain ⟨t, links⟩ := r
        rw [habove] at h
        show follow v.root links [piece] t = .error e
        cases t with
        | directory d => exact follow_singleton_of_error h links
        | file c =>
          rw [follow_singleton_file]
          exact congrArg Except.error (Except.error.inj h)
        | device =>
          rw [follow_singleton_device]
          exact congrArg Except.error (Except.error.inj h)
        | closed =>
          rw [follow_singleton_closed]
          simp only [bind, Except.bind] at h
          split at h
          · exact absurd h (by simp)
          · next hpiece =>
            rw [if_neg hpiece]
            exact congrArg Except.error (Except.error.inj h)

/-- What `present` refuses, nothing is seen under. -/
theorem TreeView.present_eq_error_iff {v : TreeView} {p : Path} {e : SystemError} :
    v.present p = .error e ↔ v.sight p = .error e := by
  unfold TreeView.present
  cases v.sight p <;> simp [Except.map]

/-- A path under which nothing is leads nowhere, for the same reason. -/
theorem TreeView.resolve_of_present_error {v : TreeView} {p : Path} {e : SystemError}
    (h : v.present p = .error e) : v.resolve p = .error e :=
  resolve_of_sight_error (present_eq_error_iff.mp h)

end LineLimit
