import LineLimit.Walk
import LineLimit.Proofs.Outcomes
import LineLimit.Proofs.Path

/-!
# Where the entries of a walk lie

An entry that a walk yields below a place lies below that place: its names
start with the names of the place, and its path is the path of the place
extended by the other names. And the settings of the walk want it, and want every
directory on the way to it.

> `descend_yields`: an entry yielded below a place lies below one of the place's
> own entries, and is wanted, as is every directory between the two.
> `walk_path`: the path of every entry is the path walked from, extended by
> the names of the entry.
-/

namespace LineLimit

/-- The entry lies below the place, on a way down that starts with `name`. -/
def Place.Leads (p : Place) (name : Name) (e : WalkEntry) : Prop :=
  ∃ rest, e.names = p.names ++ name :: rest ∧
    e.path = p.path.extend ((name :: rest).map Name.bytes)

/-- What lies below a directory of a place lies below the place. -/
theorem Place.leads_of_child {p : Place} {name next : Name} {d : Directory} {links : Nat}
    {e : WalkEntry} (h : (p.child name d links).Leads next e) : p.Leads name e := by
  obtain ⟨rest, hnames, hpath⟩ := h
  refine ⟨next :: rest, ?_, ?_⟩
  · rw [hnames]
    simp [Place.child]
  · rw [hpath]
    rfl

namespace WalkSettings

/-- The entry lies below the entry `name` of the place, and is wanted, with every
directory between the place and the entry. -/
structure Yields (s : WalkSettings) (p : Place) (name : Name) (e : WalkEntry) : Prop where
  leads : p.Leads name e
  wanted : s.admits (e.kind = .directory) e.names = true
  above_wanted : ∀ above below, e.names = p.names ++ (above ++ below) → above ≠ [] →
    below ≠ [] → s.admits true (p.names ++ above) = true

variable {s : WalkSettings} {root : Directory} {descend : Place → List WalkItem} {p : Place}
  {name : Name}

/-- A walk reports an entry of a place at most once, and only if it is wanted. -/
theorem mem_successes_report {kind : EntryKind} {e : WalkEntry} :
    e ∈ successes (s.report p name kind) ↔
      s.admits false (p.names ++ [name]) = true ∧
        e = ⟨p.path.child name.bytes, p.names ++ [name], kind⟩ := by
  simp only [report]
  split
  · next h => simp [h]
  · next h => simp [h]

/-- Below a place there is only what the items tell. -/
theorem mem_of_mem_below {items : Unit → List WalkItem} {e : WalkEntry}
    (h : e ∈ successes (s.below p items)) : e ∈ successes (items ()) := by
  unfold below at h
  split at h
  · exact absurd h (by simp)
  · split at h
    · exact absurd h (by simp)
    · exact h

/-- A directory that is entered is wanted. -/
theorem mem_of_mem_enter {items : Unit → List WalkItem} {e : WalkEntry}
    (h : e ∈ successes (s.enter p items)) :
    s.admits true p.names = true ∧ (e = p.entry ∨ e ∈ successes (items ())) := by
  unfold enter at h
  split at h
  · next hwanted =>
    rw [successes_ok] at h
    rcases List.mem_cons.mp h with rfl | h
    · exact ⟨hwanted, Or.inl rfl⟩
    · exact ⟨hwanted, Or.inr (mem_of_mem_below h)⟩
  · exact absurd h (by simp)

/-- A closed directory that is walked from is all that can be listed there. -/
theorem eq_of_mem_refusedRoot {isLink : Bool} {e : WalkEntry}
    (h : e ∈ successes (s.refusedRoot isLink p)) : e = p.entry := by
  unfold refusedRoot at h
  split at h
  · exact absurd h (by simp)
  · rw [successes_ok] at h
    rcases List.mem_cons.mp h with rfl | h
    · rfl
    · exact absurd (mem_of_mem_below h) (by simp)

/-- Nothing is between a place and its own entries. -/
theorem not_between {above below : List Name} (h : p.names ++ [name] = p.names ++ (above ++ below))
    (habove : above ≠ []) (hbelow : below ≠ []) : False := by
  have hlength := congrArg List.length (List.append_cancel_left h)
  have hpos := List.length_pos_iff.mpr habove
  have hpos' := List.length_pos_iff.mpr hbelow
  rw [List.length_append, List.length_singleton] at hlength
  omega

theorem yields_of_report {kind : EntryKind} {e : WalkEntry} (hkind : kind ≠ .directory)
    (h : e ∈ successes (s.report p name kind)) : s.Yields p name e := by
  obtain ⟨hwanted, rfl⟩ := mem_successes_report.mp h
  refine ⟨⟨[], rfl, rfl⟩, ?_, ?_⟩
  · rw [decide_eq_false hkind]
    exact hwanted
  · intro above below hnames habove hbelow
    exact (not_between hnames habove hbelow).elim

theorem yields_of_enter {d : Directory} {links : Nat} {items : Unit → List WalkItem}
    {e : WalkEntry}
    (hitems : ∀ e ∈ successes (items ()), ∃ next, s.Yields (p.child name d links) next e)
    (h : e ∈ successes (s.enter (p.child name d links) items)) : s.Yields p name e := by
  obtain ⟨hwanted, rfl | h⟩ := mem_of_mem_enter h
  · refine ⟨⟨[], rfl, rfl⟩, hwanted, ?_⟩
    intro above below hnames habove hbelow
    exact (not_between hnames habove hbelow).elim
  · obtain ⟨next, hnext⟩ := hitems e h
    refine ⟨Place.leads_of_child hnext.leads, hnext.wanted, ?_⟩
    intro above below hnames habove hbelow
    -- the directory itself comes first on the way down
    have hchild : ∀ rest, (p.child name d links).names ++ rest = p.names ++ name :: rest := by
      intro rest
      exact List.append_cons .. |>.symm
    obtain ⟨rest, hrest, -⟩ := hnext.leads
    obtain ⟨first, above, rfl⟩ := List.exists_cons_of_ne_nil habove
    rw [hchild] at hrest
    obtain rfl : name = first :=
      (List.cons.inj (List.append_cancel_left (hrest.symm.trans hnames))).1
    by_cases hnone : above = []
    · rw [hnone]
      exact hwanted
    · rw [← hchild]
      exact hnext.above_wanted above below (hnames.trans (hchild _).symm) hnone hbelow

/-- What a link of a place can yield: itself, or what is below a directory that
it leads to. -/
theorem mem_successes_visitLink {link : Path} {e : WalkEntry}
    (h : e ∈ successes (s.visitLink root descend p name link)) :
    (∃ kind, kind ≠ .directory ∧ e ∈ successes (s.report p name kind)) ∨
      ∃ d links, followLink root p.directory p.links link = .ok (.directory d, links) ∧
        e ∈ successes (s.enter (p.child name d links) fun _ => descend (p.child name d links)) := by
  simp only [visitLink] at h
  split at h
  · exact Or.inl ⟨.file, by decide, h⟩
  · exact Or.inl ⟨.other, by decide, h⟩
  · split at h
    · exact absurd h (by simp)
    · exact Or.inl ⟨.other, by decide, h⟩
  · next d links htarget =>
    split at h
    · split at h
      · exact absurd h (by simp)
      · refine Or.inr ⟨d, links, ?_, h⟩
        split at htarget
        · exact absurd htarget (by simp)
        · exact htarget
    · exact Or.inl ⟨.other, by decide, h⟩
  · split at h
    · exact absurd h (by simp)
    · exact Or.inl ⟨.other, by decide, h⟩

mutual

theorem visit_yields (hdescend : ∀ q, ∀ e ∈ successes (descend q), ∃ next, s.Yields q next e) :
    ∀ (n : Node) (p : Place) {e : WalkEntry},
      e ∈ successes (visit s root descend p n) → s.Yields p n.name e
  | .leaf name (.file content), p, e, h => yields_of_report (by decide) h
  | .leaf name .device, p, e, h => yields_of_report (by decide) h
  | .leaf name .closed, p, e, h => yields_of_enter (fun e he => absurd he (by simp)) h
  | .leaf name (.link path), p, e, h => by
    rw [visit] at h
    rcases mem_successes_visitLink h with ⟨kind, hkind, h⟩ | ⟨d, links, -, h⟩
    · exact yields_of_report hkind h
    · exact yields_of_enter (fun e he => hdescend _ e he) h
  | .directory name entries, p, e, h => by
    rw [visit] at h
    refine yields_of_enter (fun e he => ?_) h
    obtain ⟨n, -, hn⟩ := visitAll_yields hdescend entries _ he
    exact ⟨n.name, hn⟩

theorem visitAll_yields
    (hdescend : ∀ q, ∀ e ∈ successes (descend q), ∃ next, s.Yields q next e) :
    ∀ (ns : List Node) (p : Place) {e : WalkEntry},
      e ∈ successes (visitAll s root descend p ns) → ∃ n ∈ ns, s.Yields p n.name e
  | [], p, e, h => absurd h (by simp [visitAll])
  | n :: ns, p, e, h => by
    rw [visitAll, successes_append] at h
    rcases List.mem_append.mp h with h | h
    · exact ⟨n, List.mem_cons_self .., visit_yields hdescend n p h⟩
    · obtain ⟨m, hm, hyields⟩ := visitAll_yields hdescend ns p h
      exact ⟨m, List.mem_cons_of_mem _ hm, hyields⟩

end

/-- An entry yielded below a place lies below one of the place's entries, and is
wanted, as is every directory between the two. -/
theorem descend_yields (links : Nat) (p : Place) :
    ∀ e ∈ successes (s.descend root links p), ∃ next, s.Yields p next e := by
  -- below a link that was followed, fewer links may be
  induction links generalizing p with
  | zero =>
    intro e h
    rw [WalkSettings.descend] at h
    obtain ⟨n, -, hn⟩ := visitAll_yields (fun q e he => absurd he (by simp)) _ p h
    exact ⟨n.name, hn⟩
  | succ links ih =>
    intro e h
    rw [WalkSettings.descend] at h
    obtain ⟨n, -, hn⟩ := visitAll_yields (fun q => ih q) _ p h
    exact ⟨n.name, hn⟩

end WalkSettings

namespace TreeView

variable {v : TreeView} {s : WalkSettings} {path : Path} {e : WalkEntry}

/-- The entry of the path walked from, or one below it. -/
theorem walk_cases (h : e ∈ successes (v.walk s path)) :
    (e.names = [] ∧ e.path = path) ∨
      ∃ d links next, s.Yields (Place.start d path links) next e := by
  unfold TreeView.walk at h
  split at h
  · exact absurd h (by simp)
  · obtain rfl : e = ⟨path, [], .file⟩ := by simpa using h
    exact Or.inl ⟨rfl, rfl⟩
  · obtain rfl : e = ⟨path, [], .other⟩ := by simpa using h
    exact Or.inl ⟨rfl, rfl⟩
  · obtain rfl := WalkSettings.eq_of_mem_refusedRoot h
    exact Or.inl ⟨rfl, rfl⟩
  · next d links hresolve =>
    rw [successes_ok] at h
    rcases List.mem_cons.mp h with rfl | h
    · exact Or.inl ⟨rfl, rfl⟩
    · obtain ⟨next, hnext⟩ :=
        WalkSettings.descend_yields _ _ e (WalkSettings.mem_of_mem_below h)
      exact Or.inr ⟨d, links, next, hnext⟩

/-- The path of every entry of a walk is the path walked from, extended by the
names of the entry. -/
theorem walk_path (h : e ∈ successes (v.walk s path)) :
    e.path = path.extend (e.names.map Name.bytes) := by
  rcases walk_cases h with ⟨hnames, hpath⟩ | ⟨d, links, next, hyields⟩
  · rw [hnames, hpath]
    rfl
  · obtain ⟨rest, hnames, hpath⟩ := hyields.leads
    rw [hpath, hnames]
    rfl

/-- Every entry below the path walked from is wanted. -/
theorem walk_wanted (h : e ∈ successes (v.walk s path)) (hnames : e.names ≠ []) :
    s.admits (e.kind = .directory) e.names = true := by
  rcases walk_cases h with ⟨hnil, -⟩ | ⟨d, links, next, hyields⟩
  · exact absurd hnil hnames
  · exact hyields.wanted

/-- Every directory between the path walked from and an entry is wanted. -/
theorem walk_above_wanted (h : e ∈ successes (v.walk s path)) {above below : List Name}
    (hnames : e.names = above ++ below) (habove : above ≠ []) (hbelow : below ≠ []) :
    s.admits true above = true := by
  rcases walk_cases h with ⟨hnil, -⟩ | ⟨d, links, next, hyields⟩
  · exact absurd (List.append_eq_nil_iff.mp (hnames.symm.trans hnil)).1 habove
  · exact hyields.above_wanted above below hnames habove hbelow

end TreeView

end LineLimit
