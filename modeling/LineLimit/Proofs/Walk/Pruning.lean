import LineLimit.Proofs.Walk.Names

/-!
# Walking less without missing anything

A walk is bounded in depth and leaves out what its settings do not want. Here it
is compared with the walk that lists everything, `WalkSettings.unbounded`. Let
`keep` be a test for files such that the bounded walk can get to every file it
keeps: each directory on the way is wanted, so is the file, and it does not lie
too deep (`Reaches`). Then both walks keep the same entries, in the same order.

> `walk_filter_eq`: pruning is invisible to such a test.

The walks go through the same places, and where the bounded one turns back,
everything that the other one yields from there on fails the test.
-/

namespace LineLimit

/-- The settings of a walk that lists everything. -/
def WalkSettings.unbounded (followLinks : Bool) : WalkSettings :=
  { followLinks := followLinks, maxDepth := none, admits := fun _ _ => true }

namespace WalkSettings

/-- Nothing keeps a walk from a file with these names. -/
structure Reaches (s : WalkSettings) (names : List Name) : Prop where
  file_wanted : s.admits false names = true
  above_wanted : ∀ above below, names = above ++ below → above ≠ [] → below ≠ [] →
    s.admits true above = true
  within_depth : ∀ depth, s.maxDepth = some depth → names.length ≤ depth

variable {s : WalkSettings} {keep : WalkEntry → Bool} {root : Directory} {p : Place} {name : Name}

/-- The entries among the items that pass the test. -/
def kept (keep : WalkEntry → Bool) (items : List WalkItem) : List WalkEntry :=
  (successes items).filter keep

theorem kept_append (items items' : List WalkItem) :
    kept keep (items ++ items') = kept keep items ++ kept keep items' := by
  unfold kept
  rw [successes_append, List.filter_append]

/-- Where nothing is to be kept, nothing is. -/
theorem kept_eq_nil {items : List WalkItem} (h : ∀ e ∈ successes items, keep e = false) :
    kept keep items = [] :=
  List.filter_eq_nil_iff.mpr fun e he => by simp [h e he]

/-- The test keeps only files, and of those below the path walked from only such
as the walk can get to. -/
structure KeepsReached (s : WalkSettings) (keep : WalkEntry → Bool) : Prop where
  file : ∀ e, keep e = true → e.kind = .file
  reaches : ∀ e, keep e = true → e.names ≠ [] → s.Reaches e.names

namespace KeepsReached

/-- Directories do not pass the test. -/
theorem keep_entry (h : s.KeepsReached keep) (p : Place) : keep p.entry = false := by
  cases hkeep : keep p.entry with
  | false => rfl
  | true => exact absurd (h.file _ hkeep) (by simp [Place.entry])

/-- Nothing below a place that is too deep passes the test. -/
theorem keep_too_deep (h : s.KeepsReached keep) {depth : Nat} {next : Name} {e : WalkEntry}
    (hdepth : s.maxDepth = some depth) (hp : depth ≤ p.names.length) (he : p.Leads next e) :
    keep e = false := by
  cases hkeep : keep e with
  | false => rfl
  | true =>
    obtain ⟨rest, hnames, -⟩ := he
    have hle := (h.reaches e hkeep (by simp [hnames])).within_depth depth hdepth
    rw [hnames, List.length_append, List.length_cons] at hle
    omega

/-- Nothing below an unwanted directory passes the test. -/
theorem keep_unwanted (h : s.KeepsReached keep) {next : Name} {e : WalkEntry}
    (hp : p.names ≠ []) (hunwanted : s.admits true p.names = false) (he : p.Leads next e) :
    keep e = false := by
  cases hkeep : keep e with
  | false => rfl
  | true =>
    obtain ⟨rest, hnames, -⟩ := he
    have habove := (h.reaches e hkeep (by simp [hnames])).above_wanted p.names (next :: rest)
      hnames hp (List.cons_ne_nil next rest)
    rw [hunwanted] at habove
    exact absurd habove (by simp)

/-- What is kept of the files is wanted, so both walks report it. -/
theorem kept_report (h : s.KeepsReached keep) (kind : EntryKind) :
    kept keep (s.report p name kind) =
      kept keep ((unbounded s.followLinks).report p name kind) := by
  by_cases hwanted : s.admits false (p.names ++ [name]) = true
  · simp only [report, hwanted, unbounded]
  · -- an unwanted entry does not pass the test
    have hkeep : keep ⟨p.path.child name.bytes, p.names ++ [name], kind⟩ = false := by
      cases hkeep : keep ⟨p.path.child name.bytes, p.names ++ [name], kind⟩ with
      | false => rfl
      | true => exact absurd (h.reaches _ hkeep (by simp)).file_wanted hwanted
    rw [kept_eq_nil (fun e he => ?_), kept_eq_nil (fun e he => ?_)]
    · rw [(mem_successes_report.mp he).2]
      exact hkeep
    · exact absurd (mem_successes_report.mp he).1 hwanted

/-- What is kept is not too deep, so the depth cuts nothing of it off. -/
theorem kept_below (h : s.KeepsReached keep) {items items' : Unit → List WalkItem}
    (hitems : kept keep (items ()) = kept keep (items' ()))
    (hleads : ∀ e ∈ successes (items' ()), ∃ next, p.Leads next e) :
    kept keep (s.below p items) = kept keep ((unbounded s.followLinks).below p items') := by
  by_cases hdeep : s.maxDepth.any (· ≤ p.names.length) = true
  · obtain ⟨depth, hdepth, hle⟩ := (Option.any_eq_true _ _).mp hdeep
    rw [kept_eq_nil (fun e he => ?_), kept_eq_nil (fun e he => ?_)]
    · obtain ⟨next, hnext⟩ := hleads e (mem_of_mem_below he)
      exact h.keep_too_deep hdepth (by simpa using hle) hnext
    · unfold below at he
      rw [if_pos hdeep] at he
      exact absurd he (by simp)
  · have hunbounded :
        ¬(unbounded s.followLinks).maxDepth.any (· ≤ p.names.length) = true := by simp [unbounded]
    unfold below
    rw [if_neg hdeep, if_neg hunbounded]
    split
    · rfl
    · exact hitems

/-- What is kept is in no directory that is left out. -/
theorem kept_enter (h : s.KeepsReached keep) (hp : p.names ≠ [])
    {items items' : Unit → List WalkItem}
    (hitems : kept keep (items ()) = kept keep (items' ()))
    (hleads : ∀ e ∈ successes (items' ()), ∃ next, p.Leads next e) :
    kept keep (s.enter p items) = kept keep ((unbounded s.followLinks).enter p items') := by
  have hentry : ∀ items : List WalkItem, kept keep (.ok p.entry :: items) = kept keep items := by
    intro items
    unfold kept
    rw [successes_ok, List.filter_cons_of_neg (by simp [h.keep_entry p])]
  -- the unbounded walk enters every directory
  have hall : (unbounded s.followLinks).enter p items' =
      .ok p.entry :: (unbounded s.followLinks).below p items' := rfl
  rw [hall, hentry]
  unfold enter
  by_cases hwanted : s.admits true p.names = true
  · rw [if_pos hwanted, hentry]
    exact h.kept_below hitems hleads
  · rw [if_neg hwanted]
    refine (kept_eq_nil fun e he => ?_).symm
    obtain ⟨next, hnext⟩ := hleads e (mem_of_mem_below he)
    exact h.keep_unwanted hp (by simpa using hwanted) hnext

/-- Below a closed directory there is nothing to be kept. -/
theorem kept_refusedRoot (h : s.KeepsReached keep) {isLink : Bool} :
    kept keep (s.refusedRoot isLink p) =
      kept keep ((unbounded s.followLinks).refusedRoot isLink p) := by
  unfold refusedRoot
  rw [show (unbounded s.followLinks).followLinks = s.followLinks from rfl]
  split
  · rfl
  · -- the refusal itself is an error, so it leads nowhere
    let refused : Unit → List WalkItem := fun _ => [.error (.system p.path .permissionDenied)]
    have hleads : ∀ e ∈ successes (refused ()), ∃ next, p.Leads next e := fun e he =>
      absurd he (by simp [refused])
    have hbelow : kept keep (s.below p refused) =
        kept keep ((unbounded s.followLinks).below p refused) := h.kept_below rfl hleads
    unfold kept at hbelow ⊢
    rw [successes_ok, successes_ok, List.filter_cons, List.filter_cons, hbelow]

section

variable {descend descend' : Place → List WalkItem}

/-- Both walks keep the same of what is at the end of a link. -/
theorem kept_visitLink (h : s.KeepsReached keep)
    (hdescend : ∀ q, kept keep (descend q) = kept keep (descend' q))
    (hleads : ∀ q, ∀ e ∈ successes (descend' q), ∃ next, q.Leads next e) (link : Path) :
    kept keep (s.visitLink root descend p name link) =
      kept keep ((unbounded s.followLinks).visitLink root descend' p name link) := by
  -- both walks look the link up in the same way, from the same place
  have hlinks : (unbounded s.followLinks).followLinks = s.followLinks := rfl
  simp only [visitLink, hlinks]
  split
  · exact h.kept_report .file
  · exact h.kept_report .other
  · split
    · rfl
    · exact h.kept_report .other
  · split
    · split
      · rfl
      · exact h.kept_enter (by simp [Place.child]) (hdescend _) (hleads _)
    · exact h.kept_report .other
  · split
    · rfl
    · exact h.kept_report .other

mutual

/-- Both walks keep the same of what a name leads to. -/
theorem kept_visit (h : s.KeepsReached keep)
    (hdescend : ∀ q, kept keep (descend q) = kept keep (descend' q))
    (hyields : ∀ q, ∀ e ∈ successes (descend' q),
      ∃ next, (unbounded s.followLinks).Yields q next e) :
    ∀ (n : Node) (p : Place), kept keep (visit s root descend p n) =
      kept keep (visit (unbounded s.followLinks) root descend' p n)
  | .leaf name (.file content), p => by
    rw [visit, visit]
    exact h.kept_report .file
  | .leaf name .device, p => by
    rw [visit, visit]
    exact h.kept_report .other
  | .leaf name .closed, p => by
    rw [visit, visit]
    exact h.kept_enter (by simp [Place.child]) rfl fun e he => absurd he (by simp)
  | .leaf name (.link path), p => by
    rw [visit, visit]
    refine h.kept_visitLink hdescend (fun q e he => ?_) path
    obtain ⟨next, hnext⟩ := hyields q e he
    exact ⟨next, hnext.leads⟩
  | .directory name entries, p => by
    rw [visit, visit]
    refine h.kept_enter (by simp [Place.child]) ?_ (fun e he => ?_)
    · exact kept_visitAll h hdescend hyields entries _
    · obtain ⟨n, -, hn⟩ := visitAll_yields hyields entries _ he
      exact ⟨n.name, hn.leads⟩

theorem kept_visitAll (h : s.KeepsReached keep)
    (hdescend : ∀ q, kept keep (descend q) = kept keep (descend' q))
    (hyields : ∀ q, ∀ e ∈ successes (descend' q),
      ∃ next, (unbounded s.followLinks).Yields q next e) :
    ∀ (ns : List Node) (p : Place), kept keep (visitAll s root descend p ns) =
      kept keep (visitAll (unbounded s.followLinks) root descend' p ns)
  | [], p => by rw [visitAll, visitAll]
  | n :: ns, p => by
    rw [visitAll, visitAll, kept_append, kept_append, kept_visit h hdescend hyields n p,
      kept_visitAll h hdescend hyields ns p]

end

end

/-- Both walks keep the same of what is below a place, by the links left. -/
theorem kept_descend (h : s.KeepsReached keep) (links : Nat) (p : Place) :
    kept keep (s.descend root links p) =
      kept keep ((unbounded s.followLinks).descend root links p) := by
  induction links generalizing p with
  | zero =>
    rw [descend, descend]
    exact h.kept_visitAll (fun _ => rfl) (fun q e he => absurd he (by simp)) _ p
  | succ links ih =>
    rw [descend, descend]
    exact h.kept_visitAll ih (fun q => descend_yields links q) _ p

end KeepsReached

end WalkSettings

open WalkSettings in
/-- Pruning is invisible to a test that keeps only files the walk can get to. -/
theorem TreeView.walk_filter_eq (v : TreeView) {s : WalkSettings} {keep : WalkEntry → Bool}
    (h : s.KeepsReached keep) (path : Path) :
    (successes (v.walk s path)).filter keep =
      (successes (v.walk (.unbounded s.followLinks) path)).filter keep := by
  show kept keep (v.walk s path) = kept keep (v.walk (.unbounded s.followLinks) path)
  unfold TreeView.walk
  split
  · rfl
  · rfl
  · rfl
  · exact h.kept_refusedRoot
  · next d links hresolve =>
    let p := Place.start d path links
    have hbelow : kept keep (s.below p fun _ => s.descend v.root linkLimit p) =
        kept keep ((unbounded s.followLinks).below p fun _ =>
          (unbounded s.followLinks).descend v.root linkLimit p) := by
      refine h.kept_below (h.kept_descend linkLimit p) fun e he => ?_
      obtain ⟨next, hnext⟩ := descend_yields _ _ e he
      exact ⟨next, hnext.leads⟩
    unfold kept at hbelow ⊢
    rw [successes_ok, successes_ok, List.filter_cons, List.filter_cons, hbelow]

end LineLimit
