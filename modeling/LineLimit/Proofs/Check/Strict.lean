import LineLimit.Proofs.Check.Exact

/-!
# What a strict check tells

A strict check goes through the items of its search as any other does, but
only up to the first that fails. So it ends with an error if and only if the
same check, made without being strict, has passed one over:

> `check_strict`: its outcome is the first of the errors that were passed over
> or, where there are none, the same result.

The errors are compared in the order of the items: what could not be walked and
what could not be read count alike.
-/

namespace LineLimit.TreeView

/-- A strict check and the same check that is not strict agree. Where the pattern
is no glob, both say so; otherwise the one that is not strict has a result, and
the strict one ends with the first of its errors or, where there are none, with
the same result. -/
theorem check_strict (v : TreeView) (c : CheckConfig) :
    (∀ e, Pattern.compile c.pattern c.walk.ignoreCase = .error e → ∀ strict,
      (v.check { c with strict := strict }).outcome = .error (.invalidPattern c.pattern e)) ∧
    ∀ p, Pattern.compile c.pattern c.walk.ignoreCase = .ok p →
      ∃ r, (v.check { c with strict := false }).outcome = .ok r ∧
        r.errors = (v.matchingFiles p c.walk).filterMap v.failureOf? ∧
        ((∃ s, (v.check { c with strict := true }).outcome = .ok s) ↔ r.errors = []) ∧
        (r.errors = [] → (v.check { c with strict := true }).outcome = .ok r) ∧
        ∀ e, r.errors.head? = some e →
          (v.check { c with strict := true }).outcome = .error e := by
  constructor
  · intro e hp strict
    exact outcome_check_of_error (c := { c with strict := strict }) hp
  · intro p hp
    let outcomes := (v.matchingFiles p c.walk).map (v.scanItem c.maxLen)
    have hlenient : (v.check { c with strict := false }).outcome =
        .ok (({} : CheckResult).add outcomes) :=
      check_lenient (c := { c with strict := false }) hp rfl
    have hstrict : (v.check { c with strict := true }).outcome =
        (failures outcomes).head?.elim (.ok (({} : CheckResult).add outcomes)) .error :=
      (outcome_check (c := { c with strict := true }) hp).trans (runItems_strict rfl {} _)
    have herrors : (({} : CheckResult).add outcomes).errors = failures outcomes := List.nil_append _
    refine ⟨_, hlenient, herrors.trans (failures_scan v c.maxLen _), ?_⟩
    rw [herrors, hstrict]
    cases failures outcomes with
    | nil =>
      refine ⟨⟨fun _ => rfl, fun _ => ⟨_, rfl⟩⟩, fun _ => rfl, ?_⟩
      intro e he
      exact absurd he (by simp)
    | cons first rest =>
      refine ⟨⟨?_, ?_⟩, ?_, ?_⟩
      · intro hok
        obtain ⟨s, hs⟩ := hok
        exact absurd hs (by simp)
      · intro hnil
        exact absurd hnil (by simp)
      · intro hnil
        exact absurd hnil (by simp)
      · intro e he
        obtain rfl : first = e := Option.some.inj he
        rfl

/-- A directory with a file, a file that cannot be read, and a link that leads
nowhere. -/
def brokenTree : WorkingTree :=
  (((WorkingTree.ofTree .empty).put (utf8 "a.rs".toList)
    (.file (.bytes (utf8 "long\n".toList)))).put
    (utf8 "b.rs".toList) (.file .unreadable)).put
    (utf8 "c.rs".toList) (.link (utf8 "gone".toList))

/-- Both failures are passed over, and the first one met ends the strict check,
although it comes after a violation. -/
theorem check_strict_broken :
    Pattern.compile "*.rs".toList false = .ok starRs ∧
      ∃ r, (brokenTree.view.check ⟨"*.rs".toList, 2, { followLinks := true }, false⟩).outcome =
          .ok r ∧
        r.violations = [⟨utf8 "a.rs".toList, 1, 4⟩] ∧
        r.errors = [.fileRead (utf8 "b.rs".toList) .inputOutput,
          .walk (.system (utf8 "./c.rs".toList) .notFound)] ∧
        (brokenTree.view.check ⟨"*.rs".toList, 2, { followLinks := true }, true⟩).outcome =
          .error (.fileRead (utf8 "b.rs".toList) .inputOutput) := by
  refine ⟨rfl, ?_⟩
  obtain ⟨r, hr, -, -, -, hfirst⟩ :=
    (check_strict brokenTree.view ⟨"*.rs".toList, 2, { followLinks := true }, false⟩).2 starRs rfl
  have hfound : (brokenTree.view.check
      ⟨"*.rs".toList, 2, { followLinks := true }, false⟩).outcome.map
        (fun r => (r.violations, r.errors)) =
      .ok ([⟨utf8 "a.rs".toList, 1, 4⟩], [.fileRead (utf8 "b.rs".toList) .inputOutput,
        .walk (.system (utf8 "./c.rs".toList) .notFound)]) := by
    decide +kernel
  rw [hr] at hfound
  obtain ⟨hviolations, herrors⟩ := Prod.mk.inj (Except.ok.inj hfound)
  exact ⟨r, hr, hviolations, herrors, hfirst _ (by rw [herrors]; rfl)⟩

end LineLimit.TreeView
