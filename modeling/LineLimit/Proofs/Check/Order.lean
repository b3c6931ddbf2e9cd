import LineLimit.Proofs.Check.Exact

/-!
# The order of files and violations

A search finds files in the lexicographic order of the components of their
paths. That is not the order of the paths as they are written: the file `a/x`
comes before the file `a-b`, although the slash is the greater byte of the two.
Below one directory, what decides is the first name in which two paths differ,
be it the name of the file itself or of a directory on the way to it.

> `found_in_order`: files are found in this order, and the violations of a check
> that is not strict are listed in the order of their files and, within a
> file, of their lines.
-/

namespace LineLimit

/-- Among paths in the order of their components, the lesser one stands before
the greater one. -/
theorem standsBefore_of_lt {files : List Path}
    (h : files.Pairwise fun a b => a.components < b.components) {a b : Path} (ha : a ∈ files)
    (hb : b ∈ files) (hlt : a.components < b.components) : StandsBefore files a b := by
  induction files with
  | nil => exact absurd ha List.not_mem_nil
  | cons file files ih =>
    obtain ⟨hfirst, hrest⟩ := List.pairwise_cons.mp h
    rcases List.mem_cons.mp ha with rfl | hlater
    · rcases List.mem_cons.mp hb with rfl | hlater'
      · exact absurd hlt (List.lt_irrefl _)
      · exact (List.singleton_sublist.mpr hlater').cons_cons a
    · rcases List.mem_cons.mp hb with rfl | hlater'
      · exact absurd (List.lt_trans hlt (hfirst a hlater)) (List.lt_irrefl _)
      · exact (ih hrest hlater hlater').cons file

namespace TreeView

/-- The files found strictly increase in the lexicographic order of their
components. So no file is found twice, and of two files that part below the same
directory, the one whose way goes on with the lesser name comes first, however
long the two ways still are. And the violations of a check that is not strict
strictly increase by the components of their paths, and then by their lines. -/
theorem found_in_order (v : TreeView) (p : Pattern) (o : WalkOptions) :
    (successes (v.matchingFiles p o)).Pairwise (fun a b => a.components < b.components) ∧
    (successes (v.matchingFiles p o)).Nodup ∧
    (∀ a ∈ successes (v.matchingFiles p o), ∀ b ∈ successes (v.matchingFiles p o),
      ∀ (above : List Bytes) (m n : Bytes) (below below' : List Bytes),
        a.components = above ++ m :: below → b.components = above ++ n :: below' → m < n →
          StandsBefore (successes (v.matchingFiles p o)) a b) ∧
    ∀ c : CheckConfig, Pattern.compile c.pattern c.walk.ignoreCase = .ok p → c.walk = o →
      c.strict = false →
        ∃ r, (v.check c).outcome = .ok r ∧ r.violations.Pairwise fun x y =>
          Path.components x.path < Path.components y.path ∨ x.path = y.path ∧ x.line < y.line := by
  have hfiles := v.matchingFiles_increasing p o
  have hnodup := v.matchingFiles_nodup p o
  refine ⟨hfiles, hnodup, ?_, ?_⟩
  · intro a ha b hb above m n below below' hcomponents hcomponents' hlt
    apply standsBefore_of_lt hfiles ha hb
    rw [hcomponents, hcomponents']
    exact List.append_left_lt (List.cons_lt_cons_iff.mpr (Or.inl hlt))
  · intro c hp ho hlenient
    subst ho
    refine ⟨_, check_lenient hp hlenient, ?_⟩
    refine (exact_add hnodup).violations_ordered.imp ?_
    intro x y hbefore
    rcases hbefore with hbefore | hsame
    · exact Or.inl (List.pairwise_iff_forall_sublist.mp hfiles hbefore)
    · exact Or.inr hsame

/-- A file and a directory whose names differ in one byte after the same start. -/
def neighbourTree : WorkingTree :=
  ((WorkingTree.ofTree .empty).put (utf8 "a-b.rs".toList)
    (.file (.bytes (utf8 "long\n".toList)))).put
    (utf8 "a/x.rs".toList) (.file (.bytes (utf8 "long\nlonger\n".toList)))

/-- The pattern `**/*.rs`. -/
def allRs : Pattern :=
  ⟨"**/*.rs".toList, false, [.leading, .star, .literal '.', .literal 'r', .literal 's'], rfl⟩

theorem found_in_order_neighbours :
    successes (neighbourTree.view.matchingFiles allRs {}) =
        [utf8 "a/x.rs".toList, utf8 "a-b.rs".toList] ∧
      StandsBefore (successes (neighbourTree.view.matchingFiles allRs {}))
        (utf8 "a/x.rs".toList) (utf8 "a-b.rs".toList) ∧
      ∃ r, (neighbourTree.view.check ⟨"**/*.rs".toList, 2, {}, false⟩).outcome = .ok r ∧
        r.violations.Pairwise fun x y =>
          Path.components x.path < Path.components y.path ∨ x.path = y.path ∧ x.line < y.line := by
  have hfound : successes (neighbourTree.view.matchingFiles allRs {}) =
      [utf8 "a/x.rs".toList, utf8 "a-b.rs".toList] := by
    decide +kernel
  obtain ⟨-, -, hnames, hcheck⟩ := found_in_order neighbourTree.view allRs {}
  refine ⟨hfound, ?_, hcheck ⟨"**/*.rs".toList, 2, {}, false⟩ rfl rfl rfl⟩
  exact hnames _ (by rw [hfound]; decide +kernel) _ (by rw [hfound]; decide +kernel) []
    (utf8 "a".toList) (utf8 "a-b.rs".toList) [utf8 "x.rs".toList] [] (by decide +kernel)
    (by decide +kernel) (by decide +kernel)

end TreeView

end LineLimit
