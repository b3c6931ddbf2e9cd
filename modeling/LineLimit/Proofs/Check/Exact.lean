import LineLimit.Proofs.Check.Tally
import LineLimit.Proofs.Lines
import LineLimit.Proofs.Search.Found
import LineLimit.Tree.Working
import Mathlib.Data.Finset.Card

/-!
# What a check reports

A check that is not strict always has a result, and its result is determined by
the items of the search and the contents of the files found. `Exact` says how:
every line that is too long is a violation, and nothing else is; violations
stand in the order of the files and, within a file, of the lines; every item is
a file scanned or an error; and the files with violations are counted once
each, which needs that no file is found twice.

> `check_exact`: the result of a check that is not strict is exact.
-/

namespace LineLimit

/-- `a` stands before `b` in the list. -/
def StandsBefore {α : Type} (l : List α) (a b : α) : Prop := [a, b].Sublist l

theorem not_standsBefore_self {α : Type} {l : List α} (h : l.Nodup) (a : α) :
    ¬StandsBefore l a a := by
  intro hsub
  have hnodup : [a, a].Nodup := hsub.nodup h
  simp at hnodup

namespace TreeView

/-- Why an item of a search is not scanned: it is an error itself, or its file
cannot be read. -/
def failureOf? (v : TreeView) : Except WalkError Path → Option CheckError
  | .error e => some (.walk e)
  | .ok path =>
    match v.read path with
    | .error e => some (.fileRead path e)
    | .ok _ => none

/-- `r` tells exactly what the items of a search and the contents of their files
hold. -/
structure Exact (v : TreeView) (maxLen : Nat) (items : List (Except WalkError Path))
    (r : CheckResult) : Prop where
  mem_violations : ∀ path line length, ⟨path, line, length⟩ ∈ r.violations ↔
    .ok path ∈ items ∧ ∃ content, v.read path = .ok content ∧
      1 ≤ line ∧ (∃ s, (segments content)[line - 1]? = some s ∧ s.length = length) ∧
        maxLen < length
  violations_nodup : r.violations.Nodup
  violations_ordered : r.violations.Pairwise fun a b =>
    StandsBefore (successes items) a.path b.path ∨ a.path = b.path ∧ a.line < b.line
  scanned_add_errors : r.filesScanned + r.errors.length = items.length
  errors_eq : r.errors = items.filterMap v.failureOf?
  filesWithViolations_eq : r.filesWithViolations = (r.violations.map (·.path)).toFinset.card
  hasViolations_iff : r.hasViolations = true ↔ r.filesWithViolations ≠ 0

section

variable {v : TreeView} {maxLen : Nat} {items : List (Except WalkError Path)}

/-- A violation of a file is a line that is longer than the limit. -/
theorem mem_violationsOf {path : Path} {content : Bytes} {x : Violation} :
    x ∈ violationsOf path content maxLen ↔
      x.path = path ∧ (x.line, x.length) ∈ longLines content maxLen := by
  unfold violationsOf
  rw [List.mem_map]
  constructor
  · intro hexists
    obtain ⟨⟨line, length⟩, hmem, rfl⟩ := hexists
    exact ⟨rfl, hmem⟩
  · intro hexists
    obtain ⟨rfl, hmem⟩ := hexists
    exact ⟨(x.line, x.length), hmem, rfl⟩

/-- The reports are those of the files found that can be read. -/
theorem mem_reports {f : FileReport} :
    f ∈ successes (items.map (v.scanItem maxLen)) ↔
      ∃ path content, .ok path ∈ items ∧ v.read path = .ok content ∧
        f = ⟨path, (lineLengths content).length, violationsOf path content maxLen⟩ := by
  rw [mem_successes, List.mem_map]
  constructor
  · intro ⟨item, hitem, hscan⟩
    obtain ⟨path, content, rfl, hread, rfl⟩ := scanItem_eq_ok.mp hscan
    exact ⟨path, content, hitem, hread, rfl⟩
  · intro hexists
    obtain ⟨path, content, hitem, hread, rfl⟩ := hexists
    exact ⟨.ok path, hitem, scanItem_eq_ok.mpr ⟨path, content, rfl, hread, rfl⟩⟩

/-- The files that were read are among the files found, in the same order. -/
theorem reports_sublist (v : TreeView) (maxLen : Nat) (items : List (Except WalkError Path)) :
    ((successes (items.map (v.scanItem maxLen))).map (·.path)).Sublist (successes items) := by
  induction items with
  | nil => exact List.Sublist.refl _
  | cons item items ih =>
    cases item with
    | error e => exact ih
    | ok path =>
      rw [List.map_cons, successes_ok]
      cases hscan : v.scanItem maxLen (.ok path) with
      | error e => exact ih.cons path
      | ok f =>
        obtain ⟨path', content, hpath, -, rfl⟩ := scanItem_eq_ok.mp hscan
        obtain rfl := Except.ok.inj hpath
        exact ih.cons_cons path

/-- An item fails where the walk did, or where its file cannot be read. -/
theorem failures_scan (v : TreeView) (maxLen : Nat) (items : List (Except WalkError Path)) :
    failures (items.map (v.scanItem maxLen)) = items.filterMap v.failureOf? := by
  unfold failures
  rw [List.filterMap_map]
  congr 1
  funext item
  cases item with
  | error e => rfl
  | ok path =>
    simp only [Function.comp_apply, scanItem, scanFile, failureOf?]
    cases v.read path with
    | error e => rfl
    | ok content => rfl

/-- A violation in a report names the file of the report. -/
theorem path_of_mem_report {f : FileReport} (hf : f ∈ successes (items.map (v.scanItem maxLen)))
    {x : Violation} (hx : x ∈ f.violations) : x.path = f.path := by
  obtain ⟨path, content, -, -, rfl⟩ := mem_reports.mp hf
  exact (mem_violationsOf.mp hx).1

/-- Violations stand in the order of their files, and in one file in that of the lines. -/
theorem violations_pairwise (v : TreeView) (maxLen : Nat) (items : List (Except WalkError Path)) :
    ((successes (items.map (v.scanItem maxLen))).flatMap (·.violations)).Pairwise fun a b =>
      StandsBefore (successes items) a.path b.path ∨ a.path = b.path ∧ a.line < b.line := by
  refine List.pairwise_flatMap.mpr ⟨fun f hf => ?_, ?_⟩
  · -- within one file, by line
    obtain ⟨path, content, -, -, rfl⟩ := mem_reports.mp hf
    show (violationsOf path content maxLen).Pairwise _
    unfold violationsOf
    rw [List.pairwise_map]
    exact (longLines_increasing content maxLen).imp fun hlt => Or.inr ⟨rfl, hlt⟩
  · -- between two files, by their places in the search
    have hfiles : (successes (items.map (v.scanItem maxLen))).Pairwise fun f g =>
        StandsBefore (successes items) f.path g.path := by
      refine List.pairwise_iff_forall_sublist.mpr fun {f g} hsub => ?_
      exact (hsub.map (·.path)).trans (reports_sublist v maxLen items)
    refine hfiles.imp_of_mem fun {f g} hf hg hbefore x hx y hy => ?_
    rw [path_of_mem_report hf hx, path_of_mem_report hg hy]
    exact Or.inl hbefore

/-- Files with violations, each counted once, are the paths that occur in the
violations. -/
theorem countP_eq_card (hnodup : (successes items).Nodup) :
    (successes (items.map (v.scanItem maxLen))).countP (!·.violations.isEmpty) =
      (((successes (items.map (v.scanItem maxLen))).flatMap (·.violations)).map
        (·.path)).toFinset.card := by
  have hbad : (((successes (items.map (v.scanItem maxLen))).filter
      (!·.violations.isEmpty)).map (·.path)).Nodup :=
    ((List.filter_sublist.map _).trans (reports_sublist v maxLen items)).nodup hnodup
  rw [List.countP_eq_length_filter, ← List.length_map (·.path),
    ← List.toFinset_card_of_nodup hbad]
  congr 1
  ext path
  simp only [List.mem_toFinset, List.mem_map, List.mem_filter, List.mem_flatMap]
  constructor
  · intro hexists
    obtain ⟨f, ⟨hf, hne⟩, rfl⟩ := hexists
    obtain ⟨x, hx⟩ := List.exists_mem_of_ne_nil f.violations (by simpa using hne)
    exact ⟨x, ⟨f, hf, hx⟩, path_of_mem_report hf hx⟩
  · intro hexists
    obtain ⟨x, ⟨f, hf, hx⟩, rfl⟩ := hexists
    have hne : f.violations ≠ [] := List.ne_nil_of_mem hx
    exact ⟨f, ⟨hf, by simpa using hne⟩, (path_of_mem_report hf hx).symm⟩

theorem exact_add (hnodup : (successes items).Nodup) :
    v.Exact maxLen items (({} : CheckResult).add (items.map (v.scanItem maxLen))) := by
  have hviolations : (({} : CheckResult).add (items.map (v.scanItem maxLen))).violations =
      (successes (items.map (v.scanItem maxLen))).flatMap (·.violations) := List.nil_append _
  have hcount : (({} : CheckResult).add (items.map (v.scanItem maxLen))).filesWithViolations =
      (successes (items.map (v.scanItem maxLen))).countP (!·.violations.isEmpty) :=
    Nat.zero_add _
  have herrors : (({} : CheckResult).add (items.map (v.scanItem maxLen))).errors =
      failures (items.map (v.scanItem maxLen)) := List.nil_append _
  have hpairwise := violations_pairwise v maxLen items
  refine ⟨fun path line length => ?_, ?_, ?_, ?_, ?_, ?_, ?_⟩
  · rw [hviolations, List.mem_flatMap]
    constructor
    · intro ⟨f, hf, hx⟩
      obtain ⟨path', content, hitem, hread, rfl⟩ := mem_reports.mp hf
      obtain ⟨rfl, hlong⟩ := mem_violationsOf.mp hx
      exact ⟨hitem, content, hread, mem_longLines.mp hlong⟩
    · intro ⟨hitem, content, hread, hlong⟩
      exact ⟨_, mem_reports.mpr ⟨path, content, hitem, hread, rfl⟩,
        mem_violationsOf.mpr ⟨rfl, mem_longLines.mpr hlong⟩⟩
  · -- a violation that occurred twice would stand before itself
    rw [hviolations]
    refine hpairwise.imp fun {a b} hbefore heq => ?_
    rw [heq] at hbefore
    rcases hbefore with hbefore | ⟨-, hlt⟩
    · exact not_standsBefore_self hnodup _ hbefore
    · exact absurd hlt (Nat.lt_irrefl _)
  · rw [hviolations]
    exact hpairwise
  · have hall := length_successes_add_failures (items.map (v.scanItem maxLen))
    rw [List.length_map] at hall
    rw [herrors, ← hall]
    show 0 + _ + _ = _
    rw [Nat.zero_add]
  · rw [herrors, failures_scan]
  · rw [hcount, hviolations, countP_eq_card hnodup]
  · rw [hcount, CheckResult.hasViolations, hviolations, ← Nat.pos_iff_ne_zero, List.countP_pos_iff]
    simp

end

/-- The result of a check that is not strict is exact. -/
theorem check_exact (v : TreeView) {c : CheckConfig} {p : Pattern}
    (hp : Pattern.compile c.pattern c.walk.ignoreCase = .ok p) (hlenient : c.strict = false) :
    ∃ r, (v.check c).outcome = .ok r ∧ v.Exact c.maxLen (v.matchingFiles p c.walk) r :=
  ⟨_, check_lenient hp hlenient, exact_add (v.matchingFiles_nodup p c.walk)⟩

/-- A directory with a file, a file that cannot be read, and a link to the first. -/
def mixedTree : WorkingTree :=
  (((WorkingTree.ofTree .empty).put (utf8 "a.rs".toList)
    (.file (.bytes (utf8 "ok\nlong\n".toList)))).put
    (utf8 "b.rs".toList) (.file .unreadable)).put
    (utf8 "c.rs".toList) (.link (utf8 "a.rs".toList))

/-- The pattern `*.rs`. -/
def starRs : Pattern :=
  ⟨"*.rs".toList, false, [.star, .literal '.', .literal 'r', .literal 's'], rfl⟩

theorem check_exact_mixed :
    Pattern.compile "*.rs".toList false = .ok starRs ∧
      (⟨"*.rs".toList, 2, {}, false⟩ : CheckConfig).strict = false ∧
        ∃ r, (mixedTree.view.check ⟨"*.rs".toList, 2, {}, false⟩).outcome = .ok r ∧
          mixedTree.view.Exact 2 (mixedTree.view.matchingFiles starRs {}) r ∧
          r.violations.length = 2 ∧ r.errors.length = 1 := by
  refine ⟨rfl, rfl, ?_⟩
  obtain ⟨r, hr, hexact⟩ :=
    check_exact mixedTree.view (c := ⟨"*.rs".toList, 2, {}, false⟩) (p := starRs) rfl rfl
  refine ⟨r, hr, hexact, ?_⟩
  have hlengths : (mixedTree.view.check ⟨"*.rs".toList, 2, {}, false⟩).outcome.map
      (fun r => (r.violations.length, r.errors.length)) = .ok (2, 1) := by decide +kernel
  rw [hr] at hlengths
  simpa [Except.map] using hlengths

end TreeView

end LineLimit
