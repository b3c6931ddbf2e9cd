import LineLimit.Check.Run
import LineLimit.Proofs.Outcomes

/-!
# What a check adds up

A check goes through the items of a search one after the other. What it has
found at the end is what it had found at the start, with one report for each
file that was read and one error for each other item, in the order of the items
(`runItems_lenient`). A strict check ends with the first of these errors instead
(`runItems_strict`).
-/

namespace LineLimit

namespace CheckResult

/-- The result with these outcomes of further files added in order. -/
def add (found : CheckResult) (outcomes : List (Except CheckError FileReport)) : CheckResult :=
  { violations := found.violations ++ (successes outcomes).flatMap (·.violations)
    filesScanned := found.filesScanned + (successes outcomes).length
    filesWithViolations :=
      found.filesWithViolations + (successes outcomes).countP (!·.violations.isEmpty)
    errors := found.errors ++ failures outcomes }

theorem add_nil (found : CheckResult) : found.add [] = found := by
  simp [add]

theorem add_ok (found : CheckResult) (f : FileReport)
    (outcomes : List (Except CheckError FileReport)) :
    found.add (.ok f :: outcomes) = (found.record f).add outcomes := by
  have hcount : found.filesWithViolations + (f :: successes outcomes).countP
        (!·.violations.isEmpty) =
      found.filesWithViolations + (if f.violations.isEmpty then 0 else 1) +
        (successes outcomes).countP (!·.violations.isEmpty) := by
    rw [List.countP_cons]
    by_cases hempty : f.violations.isEmpty = true
    · simp only [hempty, Bool.not_true, Bool.false_eq_true, if_false, if_true]
      omega
    · simp only [hempty, Bool.not_false, Bool.false_eq_true, if_false, if_true]
      omega
  have hlength : found.filesScanned + (f :: successes outcomes).length =
      found.filesScanned + 1 + (successes outcomes).length := by
    rw [List.length_cons]
    omega
  unfold add record
  rw [successes_ok, failures_ok, hcount, hlength, List.flatMap_cons, List.append_assoc]

theorem add_error (found : CheckResult) (e : CheckError)
    (outcomes : List (Except CheckError FileReport)) :
    found.add (.error e :: outcomes) = (found.skip e).add outcomes := by
  simp [add, skip]

end CheckResult

namespace TreeView

variable {v : TreeView} {maxLen : Nat}

/-- An item is scanned if it is a file that can be read. -/
theorem scanItem_eq_ok {item : Except WalkError Path} {f : FileReport} :
    v.scanItem maxLen item = .ok f ↔
      ∃ path content, item = .ok path ∧ v.read path = .ok content ∧
        f = ⟨path, (lineLengths content).length, violationsOf path content maxLen⟩ := by
  constructor
  · intro h
    cases item with
    | error e => exact absurd h (by simp [scanItem])
    | ok path =>
      rw [scanItem, scanFile] at h
      split at h
      · exact absurd h (by simp)
      · next content hread => exact ⟨path, content, rfl, hread, (Except.ok.inj h).symm⟩
  · intro hexists
    obtain ⟨path, content, rfl, hread, rfl⟩ := hexists
    rw [scanItem, scanFile, hread]

/-- A check that is not strict goes through all items. -/
theorem runItems_lenient {c : CheckConfig} (hc : c.strict = false) (found : CheckResult)
    (items : List (Except WalkError Path)) :
    (v.runItems c found items).outcome = .ok (found.add (items.map (v.scanItem c.maxLen))) := by
  induction items generalizing found with
  | nil =>
    rw [List.map_nil, CheckResult.add_nil]
    rfl
  | cons item items ih =>
    rw [runItems, List.map_cons]
    cases v.scanItem c.maxLen item with
    | ok f =>
      show ((v.runItems c (found.record f) items).after _).outcome = _
      rw [Run.outcome_after, ih, CheckResult.add_ok]
    | error e =>
      simp only [hc, Bool.false_eq_true, if_false]
      rw [Run.outcome_after, ih, CheckResult.add_error]

/-- A strict check goes through the items up to the first failure. -/
theorem runItems_strict {c : CheckConfig} (hc : c.strict = true) (found : CheckResult)
    (items : List (Except WalkError Path)) :
    (v.runItems c found items).outcome =
      (failures (items.map (v.scanItem c.maxLen))).head?.elim
        (.ok (found.add (items.map (v.scanItem c.maxLen)))) .error := by
  -- what has been found so far changes with every file, and matters only at the end
  induction items generalizing found with
  | nil =>
    rw [List.map_nil, CheckResult.add_nil]
    rfl
  | cons item items ih =>
    rw [runItems, List.map_cons]
    cases v.scanItem c.maxLen item with
    | ok f =>
      show ((v.runItems c (found.record f) items).after _).outcome = _
      rw [Run.outcome_after, ih, failures_ok, CheckResult.add_ok]
    | error e =>
      simp only [hc, if_true]
      rfl

/-- A check whose pattern can be read goes through the items of its search,
whatever is missing. -/
theorem outcome_check {c : CheckConfig} {p : Pattern}
    (hp : Pattern.compile c.pattern c.walk.ignoreCase = .ok p) :
    (v.check c).outcome = (v.runItems c {} (v.matchingFiles p c.walk)).outcome := by
  unfold check
  rw [hp]
  simp only
  split
  · rw [Run.outcome_after]
  · rfl

/-- A check for a text that is no glob fails before anything is looked for. -/
theorem outcome_check_of_error {c : CheckConfig} {e : GlobError}
    (hp : Pattern.compile c.pattern c.walk.ignoreCase = .error e) :
    (v.check c).outcome = .error (.invalidPattern c.pattern e) := by
  unfold check
  rw [hp]

/-- A check that is not strict adds up all items. -/
theorem check_lenient {c : CheckConfig} {p : Pattern}
    (hp : Pattern.compile c.pattern c.walk.ignoreCase = .ok p) (hc : c.strict = false) :
    (v.check c).outcome =
      .ok (({} : CheckResult).add ((v.matchingFiles p c.walk).map (v.scanItem c.maxLen))) :=
  (outcome_check hp).trans (runItems_lenient hc {} _)

end TreeView

end LineLimit
