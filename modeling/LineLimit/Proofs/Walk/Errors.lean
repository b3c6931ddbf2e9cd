import LineLimit.Proofs.Walk.Visits

/-!
# Which errors a walk tells

In a place that a walk comes to there are three sources of errors
(`WalkSettings.Fails`). The path of the place itself may be too long to be
opened. A directory in it may be closed, which is told only if the directory is
wanted (`wanted_of_error_mem_refused`). And a link in it may lead nowhere, or to
a directory that the walk is inside of or that is closed; of a link nobody asks
whether it is wanted.

> `error_mem_walk_iff`: the errors of a walk are that of the path walked from,
> and those of the places visited.
-/

namespace LineLimit

/-- The path that an error names first. -/
def WalkError.path : WalkError → Path
  | .system path _ => path
  | .loop path _ => path
  | .closed path => path

/-- The error of a link that is followed from a place and leads nowhere, or to a
directory that the walk is inside of or that is closed. -/
def Node.linkError? (root : Directory) (p : Place) : Node → Option WalkError
  | .leaf name (.link link) =>
    match p.target root name link with
    | .error cause => some (.system (p.path.child name.bytes) cause)
    | .ok (.directory d, _) =>
      (p.ancestor? d).map fun (_, ancestor) => .loop (p.path.child name.bytes) ancestor
    | .ok (.closed, _) => some (.closed (p.path.child name.bytes))
    | .ok _ => none
  | _ => none

namespace WalkSettings

/-- The error is told in the place. -/
inductive Fails (s : WalkSettings) (root : Directory) (p : Place) : WalkError → Prop
  /-- The path of the place is too long. -/
  | place : s.tooDeep p = false → pathLimit ≤ p.path.length →
    Fails s root p (.system p.path .nameTooLong)
  /-- A directory in the place is closed. -/
  | closed {name : Name} {e : WalkError} : s.lists p = true →
    .leaf name .closed ∈ p.directory.entries →
    .error e ∈ s.refused (p.child name .unseen p.links) → Fails s root p e
  /-- A link in the place fails. -/
  | link {n : Node} {e : WalkError} : s.followLinks = true → s.lists p = true →
    n ∈ p.directory.entries → n.linkError? root p = some e → Fails s root p e

/-- The error is told in some place that the walk comes to. -/
def Tells (s : WalkSettings) (root : Directory) (p : Place) (e : WalkError) : Prop :=
  ∃ q, s.Visits root p q ∧ s.Fails root q e

variable {s : WalkSettings} {root : Directory} {p : Place} {name : Name} {e : WalkError}

theorem error_not_mem_report {kind : EntryKind} : .error e ∉ s.report p name kind := by
  simp only [report]
  split <;> simp

theorem error_not_mem_announce {q : Place} : .error e ∉ s.announce q := by
  unfold announce
  split <;> simp

/-- A closed directory is told to be so only if it is wanted, and by its path. -/
theorem wanted_of_error_mem_refused {q : Place} (h : .error e ∈ s.refused q) :
    s.admits true q.names = true ∧ e.path = q.path := by
  rw [refused, mem_enter_iff, mem_below_iff] at h
  rcases h with h | ⟨hwanted, ⟨-, -, h⟩ | ⟨-, h⟩⟩
  · exact absurd h error_not_mem_announce
  · exact ⟨hwanted, by rw [Except.error.inj h, WalkError.path]⟩
  · exact ⟨hwanted, by rw [Except.error.inj (List.mem_singleton.mp h), WalkError.path]⟩

/-- The error of an entry is that of a link which is followed, or of a closed directory. -/
theorem error_mem_own_iff {n : Node} :
    .error e ∈ s.own root p n ↔ s.followLinks = true ∧ n.linkError? root p = some e ∨
      ∃ name, n = .leaf name .closed ∧ .error e ∈ s.refused (p.child name .unseen p.links) := by
  cases n with
  | directory name entries => simp [own, Node.linkError?, error_not_mem_announce]
  | leaf name leaf =>
    cases leaf with
    | file content => simp [own, Node.linkError?, error_not_mem_report]
    | device => simp [own, Node.linkError?, error_not_mem_report]
    | closed => simp [own, Node.linkError?]
    | link link =>
      simp only [own, Node.linkError?]
      cases p.target root name link with
      | error cause =>
        by_cases hlinks : s.followLinks = true
        · simp [hlinks, eq_comm (a := e)]
        · simp [hlinks, error_not_mem_report]
      | ok found =>
        obtain ⟨t, links⟩ := found
        cases t with
        | file content => simp [error_not_mem_report]
        | device => simp [error_not_mem_report]
        | closed =>
          by_cases hlinks : s.followLinks = true
          · simp [hlinks, eq_comm (a := e)]
          · simp [hlinks, error_not_mem_report]
        | directory d =>
          by_cases hlinks : s.followLinks = true
          · cases hancestor : p.ancestor? d with
            | none => simp [hlinks, hancestor, error_not_mem_announce]
            | some ancestor => simp [hlinks, hancestor, eq_comm (a := e)]
          · simp [hlinks, error_not_mem_report]

/-- An error is told in a place exactly if it is met there. -/
theorem fails_iff_meets : s.Fails root p e ↔ s.Meets root p (.error e) := by
  constructor
  · intro hfails
    cases hfails with
    | place hdeep hlong => exact .place hdeep hlong
    | closed hlists hn herror =>
      exact .entry hlists hn (error_mem_own_iff.mpr (.inr ⟨_, rfl, herror⟩))
    | link hlinks hlists hn herror =>
      exact .entry hlists hn (error_mem_own_iff.mpr (.inl ⟨hlinks, herror⟩))
  · intro hmeets
    cases hmeets with
    | place hdeep hlong => exact .place hdeep hlong
    | entry hlists hn hitem =>
      rcases error_mem_own_iff.mp hitem with ⟨hlinks, herror⟩ | ⟨name, rfl, herror⟩
      · exact .link hlinks hlists hn herror
      · exact .closed hlists hn herror

/-- A closed directory that is walked from is told to be so by the path walked from. -/
theorem path_of_error_mem_refusedRoot {isLink : Bool} (h : .error e ∈ s.refusedRoot isLink p) :
    e.path = p.path := by
  unfold refusedRoot at h
  split at h
  · rw [Except.error.inj (List.mem_singleton.mp h), WalkError.path]
  · rcases List.mem_cons.mp h with h | h
    · exact nomatch h
    · rw [mem_below_iff] at h
      rcases h with ⟨-, -, h⟩ | ⟨-, h⟩
      · rw [Except.error.inj h, WalkError.path]
      · rw [Except.error.inj (List.mem_singleton.mp h), WalkError.path]

end WalkSettings

/-- The errors of a walk are that of the path walked from, if it leads nowhere or to a
closed directory, and those of the places visited. -/
theorem TreeView.error_mem_walk_iff {v : TreeView} {s : WalkSettings} {path : Path}
    {e : WalkError} :
    .error e ∈ v.walk s path ↔
      (∃ cause, v.resolve path = .error cause ∧ e = .system path cause) ∨
        (∃ links, v.resolve path = .ok (.closed, links) ∧
          .error e ∈ s.refusedRoot (v.isLink path) (.start .unseen path links)) ∨
        ∃ d links, v.resolve path = .ok (.directory d, links) ∧
          s.Tells v.root (.start d path links) e := by
  cases hresolve : v.resolve path with
  | error cause => simp [TreeView.walk, hresolve]
  | ok found =>
    obtain ⟨t, links⟩ := found
    cases t with
    | file content => simp [TreeView.walk, hresolve]
    | device => simp [TreeView.walk, hresolve]
    | closed => simp [TreeView.walk, hresolve]
    | directory d =>
      rw [mem_walk_of_directory hresolve]
      simp [WalkSettings.Tells, WalkSettings.Brings, WalkSettings.fails_iff_meets]

end LineLimit
