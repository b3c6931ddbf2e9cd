import LineLimit.Proofs.Walk.Pruning

/-!
# Walking more keeps every file

A walk is opened up by following links and by wanting more entries
(`WalkSettings.OpensTo`). It then goes through places that it did not go through
before, and an error may come to stand where there was an entry: the link to a
directory that the walk is inside of, or to nothing. But no file is lost, since a
link to a file counts as one either way.

> `walk_files_sublist`: the files of a walk are, in the same order, among those
> of the walk opened up.
-/

namespace LineLimit

/-- Whether an entry is a file. -/
def WalkEntry.isFile (e : WalkEntry) : Bool := e.kind = .file

namespace WalkSettings

/-- The walk with the settings `s'` goes as deep as the one with `s`, follows
links if that does, and wants all that it wants. -/
structure OpensTo (s s' : WalkSettings) : Prop where
  followLinks : s.followLinks ≤ s'.followLinks
  maxDepth : s.maxDepth = s'.maxDepth
  admits : ∀ isDirectory names, s.admits isDirectory names = true →
    s'.admits isDirectory names = true

namespace OpensTo

variable {s s' : WalkSettings} {root : Directory} {p : Place} {name : Name}

/-- A file that is reported stays reported where more is admitted. -/
theorem files_report (h : s.OpensTo s') (kind : EntryKind) :
    (kept WalkEntry.isFile (s.report p name kind)).Sublist
      (kept WalkEntry.isFile (s'.report p name kind)) := by
  by_cases hwanted : s.admits false (p.names ++ [name]) = true
  · simp only [report, hwanted, h.admits false _ hwanted, if_true]
    exact List.Sublist.refl _
  · simp only [report, hwanted, Bool.false_eq_true, if_false]
    exact List.nil_sublist _

/-- Where there is no file before, none can get lost. -/
theorem files_report_other {items : List WalkItem} :
    (kept WalkEntry.isFile (s.report p name .other)).Sublist (kept WalkEntry.isFile items) := by
  have hnone : kept WalkEntry.isFile (s.report p name .other) = [] := by
    refine kept_eq_nil fun e he => ?_
    rw [(mem_successes_report.mp he).2]
    rfl
  rw [hnone]
  exact List.nil_sublist _

/-- The files below a place stay there where the depth is not less. -/
theorem files_below (h : s.OpensTo s') {items items' : Unit → List WalkItem}
    (hitems : (kept WalkEntry.isFile (items ())).Sublist (kept WalkEntry.isFile (items' ()))) :
    (kept WalkEntry.isFile (s.below p items)).Sublist
      (kept WalkEntry.isFile (s'.below p items')) := by
  unfold below
  rw [h.maxDepth]
  split
  · exact List.Sublist.refl _
  · split
    · exact List.Sublist.refl _
    · exact hitems

/-- A directory is no file. -/
theorem files_entry (items : List WalkItem) :
    kept WalkEntry.isFile (.ok p.entry :: items) = kept WalkEntry.isFile items := by
  unfold kept
  rw [successes_ok, List.filter_cons_of_neg (by simp [WalkEntry.isFile, Place.entry])]

/-- The files of a directory stay there where more directories are entered. -/
theorem files_enter (h : s.OpensTo s') {items items' : Unit → List WalkItem}
    (hitems : (kept WalkEntry.isFile (items ())).Sublist (kept WalkEntry.isFile (items' ()))) :
    (kept WalkEntry.isFile (s.enter p items)).Sublist
      (kept WalkEntry.isFile (s'.enter p items')) := by
  unfold enter
  by_cases hwanted : s.admits true p.names = true
  · rw [if_pos hwanted, if_pos (h.admits true _ hwanted), files_entry, files_entry]
    exact h.files_below hitems
  · rw [if_neg hwanted]
    exact List.nil_sublist _

/-- In a closed directory no file is seen. -/
theorem files_refusedRoot {isLink : Bool} :
    kept WalkEntry.isFile (s.refusedRoot isLink p) = [] := by
  refine kept_eq_nil fun e he => ?_
  rw [eq_of_mem_refusedRoot he]
  rfl

section

variable {descend descend' : Place → List WalkItem}

/-- Following a link can put a directory or an error in the place of the link,
but not of a file. -/
theorem files_visitLink (h : s.OpensTo s')
    (hdescend : ∀ q, (kept WalkEntry.isFile (descend q)).Sublist
      (kept WalkEntry.isFile (descend' q))) (link : Path) :
    (kept WalkEntry.isFile (s.visitLink root descend p name link)).Sublist
      (kept WalkEntry.isFile (s'.visitLink root descend' p name link)) := by
  -- both walks look the link up in the same way, from the same place
  simp only [visitLink]
  split
  · exact h.files_report .file
  · exact h.files_report .other
  · split
    · next hlinks =>
      rw [if_pos (h.followLinks hlinks)]
    · exact files_report_other
  · split
    · next hlinks =>
      rw [if_pos (h.followLinks hlinks)]
      split
      · exact List.Sublist.refl _
      · exact h.files_enter (hdescend _)
    · exact files_report_other
  · split
    · next hlinks =>
      rw [if_pos (h.followLinks hlinks)]
    · exact files_report_other

mutual

theorem files_visit (h : s.OpensTo s')
    (hdescend : ∀ q, (kept WalkEntry.isFile (descend q)).Sublist
      (kept WalkEntry.isFile (descend' q))) :
    ∀ (n : Node) (p : Place), (kept WalkEntry.isFile (visit s root descend p n)).Sublist
      (kept WalkEntry.isFile (visit s' root descend' p n))
  | .leaf name (.file content), p => by
    rw [visit, visit]
    exact h.files_report .file
  | .leaf name .device, p => by
    rw [visit, visit]
    exact h.files_report .other
  | .leaf name .closed, p => by
    rw [visit, visit]
    exact h.files_enter (List.Sublist.refl _)
  | .leaf name (.link path), p => by
    rw [visit, visit]
    exact h.files_visitLink hdescend path
  | .directory name entries, p => by
    rw [visit, visit]
    exact h.files_enter (files_visitAll h hdescend entries _)

theorem files_visitAll (h : s.OpensTo s')
    (hdescend : ∀ q, (kept WalkEntry.isFile (descend q)).Sublist
      (kept WalkEntry.isFile (descend' q))) :
    ∀ (ns : List Node) (p : Place),
      (kept WalkEntry.isFile (visitAll s root descend p ns)).Sublist
        (kept WalkEntry.isFile (visitAll s' root descend' p ns))
  | [], p => by
    rw [visitAll, visitAll]
  | n :: ns, p => by
    rw [visitAll, visitAll, kept_append, kept_append]
    exact (files_visit h hdescend n p).append (files_visitAll h hdescend ns p)

end

end

/-- All files below a place stay there, by the links left. -/
theorem files_descend (h : s.OpensTo s') (links : Nat) (p : Place) :
    (kept WalkEntry.isFile (s.descend root links p)).Sublist
      (kept WalkEntry.isFile (s'.descend root links p)) := by
  induction links generalizing p with
  | zero =>
    rw [descend, descend]
    exact h.files_visitAll (fun _ => List.Sublist.refl _) _ p
  | succ links ih =>
    rw [descend, descend]
    exact h.files_visitAll ih _ p

end OpensTo

end WalkSettings

open WalkSettings in
/-- The files of a walk are, in the same order, among those of the walk opened up. -/
theorem TreeView.walk_files_sublist (v : TreeView) {s s' : WalkSettings} (h : s.OpensTo s')
    (path : Path) :
    ((successes (v.walk s path)).filter WalkEntry.isFile).Sublist
      ((successes (v.walk s' path)).filter WalkEntry.isFile) := by
  show (kept WalkEntry.isFile (v.walk s path)).Sublist (kept WalkEntry.isFile (v.walk s' path))
  unfold TreeView.walk
  split
  · exact List.Sublist.refl _
  · exact List.Sublist.refl _
  · exact List.Sublist.refl _
  · rw [OpensTo.files_refusedRoot]
    exact List.nil_sublist _
  · rw [OpensTo.files_entry, OpensTo.files_entry]
    exact h.files_below (h.files_descend linkLimit _)

end LineLimit
