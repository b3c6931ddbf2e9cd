import LineLimit.Proofs.Walk.Visits

/-!
# Which files a walk yields

A file that a walk yields below the path walked from is an entry of a place which the walk comes
to and lists, or a link there that leads to a file (`WalkSettings.Finds`).

> `file_mem_walk_iff`: the files of a walk are the path walked from, if it leads to one, and those
> of the places visited.
-/

namespace LineLimit

/-- The entry of a place is a file, or a link that leads to one. -/
def Node.isFileIn (root : Directory) (p : Place) : Node → Bool
  | .leaf _ (.file _) => true
  | .leaf name (.link link) =>
    match p.target root name link with
    | .ok (.file _, _) => true
    | _ => false
  | _ => false

namespace WalkSettings

/-- The file is an entry of a place that the walk comes to. -/
inductive Finds (s : WalkSettings) (root : Directory) (p : Place) : WalkEntry → Prop
  | intro {r : Place} {n : Node} : s.Visits root p r → s.lists r = true →
    n ∈ r.directory.entries → n.isFileIn root r = true →
    s.admits false (r.names ++ [n.name]) = true →
      Finds s root p ⟨r.path.child n.name.bytes, r.names ++ [n.name], .file⟩

variable {s : WalkSettings} {root : Directory} {p : Place} {name : Name} {e : WalkEntry}

/-- A file is reported if it is wanted. -/
theorem file_mem_report_iff {kind : EntryKind} (hkind : e.kind = .file) :
    .ok e ∈ s.report p name kind ↔ kind = .file ∧ s.admits false (p.names ++ [name]) = true ∧
      e = ⟨p.path.child name.bytes, p.names ++ [name], .file⟩ := by
  rw [← mem_successes, mem_successes_report]
  constructor
  · intro ⟨hwanted, he⟩
    obtain rfl : kind = .file := by rw [← hkind, he]
    exact ⟨rfl, hwanted, he⟩
  · intro ⟨hfile, hwanted, he⟩
    exact ⟨hwanted, hfile ▸ he⟩

theorem file_not_mem_announce (hkind : e.kind = .file) {q : Place} : .ok e ∉ s.announce q := by
  unfold announce
  split
  · intro h
    obtain rfl : e = q.entry := by simpa using h
    exact nomatch hkind
  · exact List.not_mem_nil

/-- A closed directory is no file, and none is seen in it. -/
theorem file_not_mem_refused (hkind : e.kind = .file) {q : Place} : .ok e ∉ s.refused q := by
  rw [refused, mem_enter_iff, mem_below_iff]
  simp [file_not_mem_announce hkind]

/-- The file of an entry is the entry, if it is wanted. -/
theorem file_mem_own_iff (hkind : e.kind = .file) {n : Node} :
    .ok e ∈ s.own root p n ↔ n.isFileIn root p = true ∧
      s.admits false (p.names ++ [n.name]) = true ∧
        e = ⟨p.path.child n.name.bytes, p.names ++ [n.name], .file⟩ := by
  cases n with
  | directory name entries => simp [own, Node.isFileIn, file_not_mem_announce hkind]
  | leaf name leaf =>
    cases leaf with
    | file content => simp [own, Node.isFileIn, file_mem_report_iff hkind, Node.name]
    | device => simp [own, Node.isFileIn, file_mem_report_iff hkind]
    | closed => simp [own, Node.isFileIn, file_not_mem_refused hkind]
    | link link =>
      simp only [own, Node.isFileIn]
      cases p.target root name link with
      | error cause =>
        by_cases hlinks : s.followLinks = true
        · simp [hlinks]
        · simp [hlinks, file_mem_report_iff hkind]
      | ok found =>
        obtain ⟨t, links⟩ := found
        cases t with
        | file content => simp [file_mem_report_iff hkind, Node.name]
        | device => simp [file_mem_report_iff hkind]
        | closed =>
          by_cases hlinks : s.followLinks = true
          · simp [hlinks]
          · simp [hlinks, file_mem_report_iff hkind]
        | directory d =>
          by_cases hlinks : s.followLinks = true
          · cases hancestor : p.ancestor? d with
            | none => simp [hlinks, hancestor, file_not_mem_announce hkind]
            | some ancestor => simp [hlinks, hancestor]
          · simp [hlinks, file_mem_report_iff hkind]

/-- What is met from a place and is a file is found there. -/
theorem finds_iff_brings (hkind : e.kind = .file) :
    s.Finds root p e ↔ s.Brings root p (.ok e) := by
  constructor
  · intro ⟨hvisits, hlists, hn, hfile, hwanted⟩
    exact ⟨_, hvisits, .entry hlists hn ((file_mem_own_iff rfl).mpr ⟨hfile, hwanted, rfl⟩)⟩
  · intro ⟨r, hvisits, hmeets⟩
    cases hmeets with
    | entry hlists hn hown =>
      obtain ⟨hfile, hwanted, rfl⟩ := (file_mem_own_iff hkind).mp hown
      exact .intro hvisits hlists hn hfile hwanted

end WalkSettings

/-- The files of a walk are the path walked from, if it leads to one, and those of the places
visited. -/
theorem TreeView.file_mem_walk_iff {v : TreeView} {s : WalkSettings} {path : Path}
    {e : WalkEntry} (hkind : e.kind = .file) :
    .ok e ∈ v.walk s path ↔
      (∃ content links, v.resolve path = .ok (.file content, links) ∧ e = ⟨path, [], .file⟩) ∨
        ∃ d links, v.resolve path = .ok (.directory d, links) ∧
          s.Finds v.root (.start d path links) e := by
  cases hresolve : v.resolve path with
  | error cause => simp [TreeView.walk, hresolve]
  | ok found =>
    obtain ⟨t, links⟩ := found
    cases t with
    | file content => simp [TreeView.walk, hresolve]
    | device =>
      have hother : e ≠ ⟨path, [], .other⟩ := fun he => by simp [he] at hkind
      simp [TreeView.walk, hresolve, hother]
    | closed =>
      have hnone : .ok e ∉ s.refusedRoot (v.isLink path) (.start .unseen path links) := by
        intro he
        rw [WalkSettings.eq_of_mem_refusedRoot (mem_successes.mpr he)] at hkind
        exact nomatch hkind
      simp [TreeView.walk, hresolve, hnone]
    | directory d =>
      have hstart : e ≠ (Place.start d path links).entry := fun he => by
        simp [he, Place.entry] at hkind
      rw [mem_walk_of_directory hresolve]
      simp [hstart, WalkSettings.finds_iff_brings hkind]

end LineLimit
