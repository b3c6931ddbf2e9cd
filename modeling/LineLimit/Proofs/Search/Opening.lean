import LineLimit.Proofs.Check.Exact
import LineLimit.Proofs.Pattern.Positions
import LineLimit.Proofs.Walk.Opening
import Mathlib.Data.List.Flatten

/-!
# Asking for hidden names and following links

A search that asks for hidden names, or follows links, goes through more of the tree.
It finds every file that it would have found otherwise, and in the same order:

> `matchingFiles_sublist`: the files found are a sublist of those found when the search
> is opened up, and so are the violations of a check that is not strict.

Hidden names are left out in two ways, by the steps of a pattern where it has steps and
by the names alone where it has none; asking for them is monotone in both
(`Pattern.opensTo`).
-/

namespace LineLimit

/-- A search that asks for more has a walk that is opened up. -/
theorem Pattern.opensTo (p : Pattern) {o o' : WalkOptions} (hhidden : o.hidden ≤ o'.hidden)
    (hlinks : o.followLinks ≤ o'.followLinks) :
    (p.walkSettings o).OpensTo (p.walkSettings o') := by
  refine ⟨hlinks, rfl, fun isDirectory names hadmits => ?_⟩
  unfold walkSettings at hadmits ⊢
  cases hsteps : p.steps with
  | none =>
    simp only [hsteps, Bool.or_eq_true] at hadmits ⊢
    exact hadmits.imp_left hhidden
  | some steps =>
    simp only [hsteps] at hadmits ⊢
    exact Step.admits_mono hhidden hadmits

/-- Only files are found. -/
theorem Pattern.filterMap_fileOf (p : Pattern) (entries : List WalkEntry) :
    (entries.filter WalkEntry.isFile).filterMap p.fileOf = entries.filterMap p.fileOf := by
  rw [List.filterMap_filter]
  refine List.filterMap_congr fun e _ => ?_
  by_cases hfile : e.isFile = true
  · rw [if_pos hfile]
  · have hkind : (decide (e.kind = .file)) = false := Bool.eq_false_iff.mpr hfile
    rw [if_neg hfile, Pattern.fileOf, hkind, Bool.false_and, if_neg (by simp)]

namespace TreeView

/-- The violations in a file; none if it cannot be read. -/
def violationsIn (v : TreeView) (maxLen : Nat) (path : Path) : List Violation :=
  match v.read path with
  | .error _ => []
  | .ok content => violationsOf path content maxLen

/-- The violations of a check come file by file. -/
theorem violations_scan (v : TreeView) (maxLen : Nat) (items : List (Except WalkError Path)) :
    (successes (items.map (v.scanItem maxLen))).flatMap (·.violations) =
      (successes items).flatMap (v.violationsIn maxLen) := by
  induction items with
  | nil => rfl
  | cons item items ih =>
    cases item with
    | error e => exact ih
    | ok path =>
      rw [List.map_cons, successes_ok, List.flatMap_cons, ← ih, scanItem, scanFile, violationsIn]
      cases v.read path with
      | error e => rfl
      | ok content => rfl

theorem files_sublist (v : TreeView) (p : Pattern) {o o' : WalkOptions}
    (hhidden : o.hidden ≤ o'.hidden) (hlinks : o.followLinks ≤ o'.followLinks) :
    (successes (v.matchingFiles p o)).Sublist (successes (v.matchingFiles p o')) := by
  unfold matchingFiles
  split
  · exact List.Sublist.refl _
  · rw [Pattern.successes_select, Pattern.successes_select, ← p.filterMap_fileOf,
      ← p.filterMap_fileOf (successes (v.walk (p.walkSettings o') p.root))]
    exact (v.walk_files_sublist (p.opensTo hhidden hlinks) p.root).filterMap p.fileOf

/-- A search that asks for hidden names or follows links, where another one does not,
finds every file that the other finds, and in the same order. Nor does a check that is
not strict lose a violation by it. -/
theorem matchingFiles_sublist (v : TreeView) (p : Pattern) {o o' : WalkOptions}
    (hhidden : o.hidden ≤ o'.hidden) (hlinks : o.followLinks ≤ o'.followLinks) :
    (successes (v.matchingFiles p o)).Sublist (successes (v.matchingFiles p o')) ∧
    ∀ c : CheckConfig, Pattern.compile c.pattern o.ignoreCase = .ok p →
      o'.ignoreCase = o.ignoreCase → c.strict = false →
        ∃ r r', (v.check { c with walk := o }).outcome = .ok r ∧
          (v.check { c with walk := o' }).outcome = .ok r' ∧
          r.violations.Sublist r'.violations := by
  have hfiles := v.files_sublist p hhidden hlinks
  refine ⟨hfiles, ?_⟩
  intro c hp hcase hlenient
  have hresult : ∀ walk : WalkOptions, Pattern.compile c.pattern walk.ignoreCase = .ok p →
      (v.check { c with walk := walk }).outcome =
        .ok (({} : CheckResult).add ((v.matchingFiles p walk).map (v.scanItem c.maxLen))) :=
    fun walk hwalk => check_lenient (c := { c with walk := walk }) hwalk hlenient
  refine ⟨_, _, hresult o hp, hresult o' (hcase ▸ hp), ?_⟩
  simp only [CheckResult.add, List.nil_append, violations_scan]
  exact hfiles.flatMap (v.violationsIn c.maxLen)

/-- A file, a directory that starts with a dot, and two links: one into that directory,
and one to the directory that both are in. -/
def openedTree : WorkingTree :=
  ((((WorkingTree.ofTree .empty).put (utf8 "lib/a.c".toList)
    (.file (.bytes (utf8 "long\n".toList)))).put
    (utf8 "lib/.git/b.c".toList) (.file (.bytes (utf8 "longer\n".toList)))).put
    (utf8 "lib/git".toList) (.link (utf8 ".git".toList))).put
    (utf8 "lib/up".toList) (.link (utf8 ".".toList))

/-- The pattern `lib/**/*.c`. -/
def belowLibrary : Pattern :=
  ⟨"lib/**/*.c".toList, false,
    [.literal 'l', .literal 'i', .literal 'b', .between, .star, .literal '.', .literal 'c'], rfl⟩

theorem matchingFiles_sublist_opened :
    ({} : WalkOptions).hidden ≤ ({ hidden := true, followLinks := true } : WalkOptions).hidden ∧
      ({} : WalkOptions).followLinks ≤
        ({ hidden := true, followLinks := true } : WalkOptions).followLinks ∧
      (successes (openedTree.view.matchingFiles belowLibrary {})).Sublist
        (successes (openedTree.view.matchingFiles belowLibrary
          { hidden := true, followLinks := true })) ∧
      successes (openedTree.view.matchingFiles belowLibrary {}) = [utf8 "lib/a.c".toList] ∧
      successes (openedTree.view.matchingFiles belowLibrary
          { hidden := true, followLinks := true }) =
        [utf8 "lib/.git/b.c".toList, utf8 "lib/a.c".toList, utf8 "lib/git/b.c".toList] ∧
      ∃ r r', (openedTree.view.check ⟨"lib/**/*.c".toList, 2, {}, false⟩).outcome = .ok r ∧
        (openedTree.view.check ⟨"lib/**/*.c".toList, 2,
          { hidden := true, followLinks := true }, false⟩).outcome = .ok r' ∧
        r.violations.Sublist r'.violations := by
  obtain ⟨hfiles, hcheck⟩ := @matchingFiles_sublist openedTree.view belowLibrary {}
    { hidden := true, followLinks := true } (by decide) (by decide)
  exact ⟨by decide, by decide, hfiles, by decide +kernel, by decide +kernel,
    hcheck ⟨"lib/**/*.c".toList, 2, {}, false⟩ rfl rfl rfl⟩

end TreeView

end LineLimit
