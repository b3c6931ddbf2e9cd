import LineLimit.Proofs.Check.Exact
import LineLimit.Proofs.Pattern.Matchers
import LineLimit.Session
import LineLimit.Tree.Working

/-!
# How a run of the command ends

A run of the command ends in one of four ways. The words ask for help or for the version,
and are answered. Or it fails: the words are wrong, the pattern is no glob, or the check is
strict and something cannot be walked or read. Or the check is complete. Or the pattern is a
glob, but the platform does not build a matcher that it needs, and the run panics. What each
of them leaves behind is said by `Session.Accounts`:

> `runOn_accounts`: the report stands whole on the standard output, or not at all; the exit
> status is zero if and only if the words are answered or nothing is found wrong; and it is
> zero or one if and only if the run does not panic.

A text that is no glob is refused with a message and the exit status one. A glob with too many
groups inside each other is not refused: it ends the run with the status of an abort
(`not_forall_status_le_one`). That takes many braces, and a pattern with at most `braceLimit`
opening ones never does it (`not_panics_of_count_le`).

A check that is complete and has found a long line exits like a run that fails. The two are
told apart by the standard output, where it has no brackets around an empty list.
-/

namespace LineLimit

/-- The check that the arguments ask for. -/
def CommandLine.Arguments.config (a : CommandLine.Arguments) : CheckConfig :=
  ⟨a.pattern, a.maxLen, ⟨a.hidden, a.followLinks, a.ignoreCase⟩, a.strict⟩

/-- The description of a check that a command line gives is always complete. -/
theorem CommandLine.Arguments.build_draft (a : CommandLine.Arguments) :
    a.draft.build = .ok a.config := rfl

/-! ## The outcome of a check -/

namespace TreeView

variable {v : TreeView} {c : CheckConfig} {p : Pattern} {maxLen : Nat}
  {items : List (Except WalkError Path)}

/-- A check whose pattern can be read fails if and only if it is strict and some item of its
search fails. -/
theorem outcome_eq_error_iff (hp : Pattern.compile c.pattern c.walk.ignoreCase = .ok p) :
    (∃ e, (v.check c).outcome = .error e) ↔
      c.strict = true ∧ ∃ item ∈ v.matchingFiles p c.walk, ∃ e, v.failureOf? item = some e := by
  have hfails : (∃ item ∈ v.matchingFiles p c.walk, ∃ e, v.failureOf? item = some e) ↔
      ∃ e, e ∈ (v.matchingFiles p c.walk).filterMap v.failureOf? := by
    simp only [List.mem_filterMap]
    constructor
    · intro ⟨item, hitem, e, he⟩
      exact ⟨e, item, hitem, he⟩
    · intro ⟨e, item, hitem, he⟩
      exact ⟨item, hitem, e, he⟩
  rw [outcome_check hp, hfails]
  by_cases hstrict : c.strict = true
  · rw [runItems_strict hstrict, failures_scan]
    cases (v.matchingFiles p c.walk).filterMap v.failureOf? with
    | nil => simp
    | cons e rest => simp [hstrict]
  · rw [runItems_lenient (Bool.eq_false_iff.mpr hstrict)]
    simp [hstrict]

/-- A result that a check comes to counts all items of its search. -/
theorem eq_add_of_outcome {r : CheckResult}
    (hp : Pattern.compile c.pattern c.walk.ignoreCase = .ok p)
    (hr : (v.check c).outcome = .ok r) :
    r = ({} : CheckResult).add ((v.matchingFiles p c.walk).map (v.scanItem c.maxLen)) := by
  rw [outcome_check hp] at hr
  by_cases hstrict : c.strict = true
  · rw [runItems_strict hstrict] at hr
    cases hfirst : (failures ((v.matchingFiles p c.walk).map (v.scanItem c.maxLen))).head? with
    | none =>
      rw [hfirst] at hr
      exact (Except.ok.inj hr).symm
    | some e =>
      rw [hfirst] at hr
      exact absurd hr (by simp)
  · rw [runItems_lenient (Bool.eq_false_iff.mpr hstrict)] at hr
    exact (Except.ok.inj hr).symm

/-- A check has found something wrong if and only if a file that it read has a line that is
too long. -/
theorem Exact.hasViolations_eq_false_iff {r : CheckResult} (h : v.Exact maxLen items r) :
    r.hasViolations = false ↔ ∀ path, .ok path ∈ items → ∀ content, v.read path = .ok content →
      ∀ line ∈ segments content, line.length ≤ maxLen := by
  have hnone : r.hasViolations = false ↔ ∀ x, x ∉ r.violations := by
    rw [CheckResult.hasViolations, Bool.not_eq_false', List.isEmpty_iff,
      List.eq_nil_iff_forall_not_mem]
  rw [hnone]
  constructor
  · intro hno path hitem content hread line hline
    obtain ⟨i, hi⟩ := List.mem_iff_getElem?.mp hline
    refine Nat.le_of_not_lt fun hlong => hno ⟨path, i + 1, line.length⟩ ?_
    exact (h.mem_violations ..).mpr
      ⟨hitem, content, hread, Nat.succ_pos i, ⟨line, hi, rfl⟩, hlong⟩
  · intro hshort x hx
    obtain ⟨hitem, content, hread, -, ⟨line, hline, hlength⟩, hlong⟩ :=
      (h.mem_violations x.path x.line x.length).mp hx
    have hle := hshort x.path hitem content hread line (List.mem_of_getElem? hline)
    omega

end TreeView

/-- A report without brackets around the list is empty only if there are no violations. -/
theorem Report.render_eq_nil_iff {format : ReportFormat} (hformat : format ≠ .json)
    (vs : List Violation) : render format vs = [] ↔ vs = [] := by
  cases vs with
  | nil => cases format <;> simp_all [render, pieces]
  | cons x vs =>
    cases format with
    | json => exact absurd rfl hformat
    | text => simp [render, pieces, ReportPiece.chars, Violation.plainLine]
    | jsonLines => simp [render, pieces, ReportPiece.chars]

/-! ## The end of a run -/

namespace Session

/-- The words ask for help or for the version: they are answered, and not to blame. -/
def AsksForAnswer (words : List Bytes) : Prop :=
  ∃ a, CommandLine.parse words = .error a ∧ a.isMisuse = false

/-- The words ask for a check whose pattern is a glob, but the platform does not build all of
its matchers, and this is said. -/
def Panics (pl : Platform) (words : List Bytes) (notice : Text) : Prop :=
  ∃ args p, CommandLine.parse words = .ok args ∧
    Pattern.compile args.pattern args.ignoreCase = .ok p ∧ p.refusal? pl = some notice

/-- The words ask for a check that comes to its end, with this result. -/
def Completes (pl : Platform) (v : TreeView) (words : List Bytes) (args : CommandLine.Arguments)
    (r : CheckResult) : Prop :=
  CommandLine.parse words = .ok args ∧ refusal? pl args.config = none ∧
    (v.check args.config).outcome = .ok r

/-- The run comes to no report, and the user is told why. -/
inductive Fails (pl : Platform) (v : TreeView) (words : List Bytes) : Prop
  /-- The words are to blame. -/
  | misuse {e : CommandLine.UsageError} : CommandLine.parse words = .error (.misuse e) →
    Fails pl v words
  /-- The pattern is no glob. -/
  | noGlob {args : CommandLine.Arguments} {e : GlobError} :
    CommandLine.parse words = .ok args →
    Pattern.compile args.pattern args.ignoreCase = .error e → Fails pl v words
  /-- The check is strict, and something that it met cannot be walked or read. -/
  | aborted {args : CommandLine.Arguments} {p : Pattern} {item : Except WalkError Path}
    {e : CheckError} : CommandLine.parse words = .ok args →
    Pattern.compile args.pattern args.ignoreCase = .ok p → p.refusal? pl = none →
    args.strict = true → item ∈ v.matchingFiles p args.config.walk →
    v.failureOf? item = some e → Fails pl v words

/-- The words ask for a check that comes to its end, and no file that it reads has a line
that is too long. -/
def Passes (pl : Platform) (v : TreeView) (words : List Bytes) : Prop :=
  ∃ args p, CommandLine.parse words = .ok args ∧
    Pattern.compile args.pattern args.ignoreCase = .ok p ∧ p.refusal? pl = none ∧
    (args.strict = true →
      ∀ item ∈ v.matchingFiles p args.config.walk, v.failureOf? item = none) ∧
    ∀ path, .ok path ∈ v.matchingFiles p args.config.walk →
      ∀ content, v.read path = .ok content →
        ∀ line ∈ segments content, line.length ≤ args.maxLen

/-- What a run leaves behind tells how it has ended. -/
structure Accounts (pl : Platform) (v : TreeView) (words : List Bytes) (s : Session) : Prop where
  ends : AsksForAnswer words ∨ Fails pl v words ∨ (∃ args r, Completes pl v words args r) ∨
    ∃ notice, Panics pl words notice
  status_le_one_iff : s.status ≤ 1 ↔ ¬∃ notice, Panics pl words notice
  status_eq_zero_iff : s.status = 0 ↔ AsksForAnswer words ∨ Passes pl v words
  of_panics : ∀ notice, Panics pl words notice → s = panicked pl notice
  output_of_completes : ∀ args r, Completes pl v words args r →
    s.output = Report.render args.format r.violations
  output_of_fails : Fails pl v words → s.output = []
  status_of_completes : ∀ args r, Completes pl v words args r → args.format ≠ .json →
    (s.status = 1 ↔ s.output ≠ [])

variable {pl : Platform} {v : TreeView} {words : List Bytes} {args : CommandLine.Arguments}
  {r : CheckResult}

/-- A check asks its platform for the matchers of its pattern. -/
theorem refusal?_of_compile {p : Pattern}
    (hp : Pattern.compile args.pattern args.ignoreCase = .ok p) :
    refusal? pl args.config = p.refusal? pl := by
  unfold refusal?
  rw [show args.config.pattern = args.pattern from rfl,
    show args.config.walk.ignoreCase = args.ignoreCase from rfl, hp]

/-- Where the command line is answered, nothing else happens. -/
theorem runOn_of_answer {a : CommandLine.Answer} (h : CommandLine.parse words = .error a) :
    runOn pl v words = answered a := by
  unfold runOn
  rw [h]

/-- Where it can be read, the check it asks for is set up. -/
theorem runOn_of_parse (h : CommandLine.parse words = .ok args) :
    runOn pl v words = ofArguments pl v args := by
  unfold runOn
  rw [h]

/-- Where the matchers can be built, the check runs. -/
theorem ofArguments_of_built (h : refusal? pl args.config = none) :
    ofArguments pl v args = ofCheck v args args.config := by
  unfold ofArguments
  rw [args.build_draft]
  simp only [h]

/-- Where a matcher cannot be built, the run ends with the notice. -/
theorem runOn_of_panics {notice : Text} (h : Panics pl words notice) :
    runOn pl v words = panicked pl notice := by
  obtain ⟨args, p, hwords, hp, hrefused⟩ := h
  rw [runOn_of_parse hwords]
  unfold ofArguments
  rw [args.build_draft]
  simp only [refusal?_of_compile hp, hrefused]

/-- A check that comes to its end is reported, and what it told is logged. -/
theorem runOn_of_completes (h : Completes pl v words args r) :
    runOn pl v words =
      completed args (logOf args.logFormat args.level (v.check args.config).events) r := by
  rw [runOn_of_parse h.1, ofArguments_of_built h.2.1]
  unfold ofCheck
  simp only [h.2.2]

/-- A check that fails reports nothing but the error, and what it told is logged. -/
theorem runOn_of_error {e : CheckError} (hwords : CommandLine.parse words = .ok args)
    (hbuilt : refusal? pl args.config = none) (he : (v.check args.config).outcome = .error e) :
    runOn pl v words =
      failed (logOf args.logFormat args.level (v.check args.config).events) (.check e) := by
  rw [runOn_of_parse hwords, ofArguments_of_built hbuilt]
  unfold ofCheck
  simp only [he]

/-- Where the words are read and the matchers are built, the run fails if and only if the
check does. -/
theorem fails_iff (hwords : CommandLine.parse words = .ok args)
    (hbuilt : refusal? pl args.config = none) :
    Fails pl v words ↔ ∃ e, (v.check args.config).outcome = .error e := by
  constructor
  · intro h
    cases h with
    | misuse h =>
      rw [hwords] at h
      exact absurd h (by simp)
    | noGlob h hp =>
      obtain rfl := Except.ok.inj (hwords.symm.trans h)
      exact ⟨_, TreeView.outcome_check_of_error (c := args.config) hp⟩
    | aborted h hp _ hstrict hitem herror =>
      obtain rfl := Except.ok.inj (hwords.symm.trans h)
      exact (TreeView.outcome_eq_error_iff (c := args.config) hp).mpr
        ⟨hstrict, _, hitem, _, herror⟩
  · intro herror
    cases hp : Pattern.compile args.pattern args.ignoreCase with
    | error e => exact .noGlob hwords hp
    | ok p =>
      obtain ⟨hstrict, item, hitem, e, he⟩ :=
        (TreeView.outcome_eq_error_iff (c := args.config) hp).mp herror
      exact .aborted hwords hp ((refusal?_of_compile hp).symm.trans hbuilt) hstrict hitem he

/-- Where the check comes to its end, nothing is found wrong if and only if it has found
no violation. -/
theorem passes_iff (h : Completes pl v words args r) :
    Passes pl v words ↔ r.hasViolations = false := by
  obtain ⟨hwords, hbuilt, hr⟩ := h
  have hshort : ∀ p, Pattern.compile args.pattern args.ignoreCase = .ok p →
      (r.hasViolations = false ↔ ∀ path, .ok path ∈ v.matchingFiles p args.config.walk →
        ∀ content, v.read path = .ok content →
          ∀ line ∈ segments content, line.length ≤ args.maxLen) := by
    intro p hp
    have hexact : v.Exact args.maxLen (v.matchingFiles p args.config.walk) r := by
      rw [TreeView.eq_add_of_outcome (c := args.config) hp hr]
      exact TreeView.exact_add (v.matchingFiles_nodup p args.config.walk)
    exact hexact.hasViolations_eq_false_iff
  constructor
  · intro hpasses
    obtain ⟨args', p, hwords', hp, -, -, hlines⟩ := hpasses
    obtain rfl := Except.ok.inj (hwords.symm.trans hwords')
    exact (hshort p hp).mpr hlines
  · intro hnone
    have hok : ¬∃ e, (v.check args.config).outcome = .error e := by simp [hr]
    cases hp : Pattern.compile args.pattern args.ignoreCase with
    | error e =>
      exact absurd ⟨_, TreeView.outcome_check_of_error (c := args.config) hp⟩ hok
    | ok p =>
      refine ⟨args, p, hwords, hp, (refusal?_of_compile hp).symm.trans hbuilt,
        fun hstrict item hitem => ?_, (hshort p hp).mp hnone⟩
      cases hitem' : v.failureOf? item with
      | none => rfl
      | some e =>
        exact absurd ((TreeView.outcome_eq_error_iff (c := args.config) hp).mpr
          ⟨hstrict, item, hitem, e, hitem'⟩) hok

/-! ### The ways to end exclude each other -/

/-- Words that are answered ask for no check. -/
theorem not_completes_of_answer {a : CommandLine.Answer}
    (h : CommandLine.parse words = .error a) (args : CommandLine.Arguments) (r : CheckResult) :
    ¬Completes pl v words args r := by
  intro hcompletes
  rw [hcompletes.1] at h
  exact absurd h (by simp)

/-- Words that are answered ask for no check that could find nothing wrong. -/
theorem not_passes_of_answer {a : CommandLine.Answer} (h : CommandLine.parse words = .error a) :
    ¬Passes pl v words := by
  intro hpasses
  obtain ⟨args, p, hwords, -⟩ := hpasses
  rw [h] at hwords
  exact absurd hwords (by simp)

/-- Words that are answered need no matchers. -/
theorem not_panics_of_answer {a : CommandLine.Answer} (h : CommandLine.parse words = .error a) :
    ¬∃ notice, Panics pl words notice := by
  intro hpanics
  obtain ⟨notice, args, p, hwords, -⟩ := hpanics
  rw [h] at hwords
  exact absurd hwords (by simp)

/-- An answer is asked for if and only if it is not a complaint. -/
theorem asksForAnswer_iff {a : CommandLine.Answer} (h : CommandLine.parse words = .error a) :
    AsksForAnswer words ↔ a.isMisuse = false := by
  simp only [AsksForAnswer, h, Except.error.injEq, exists_eq_left']

/-- Words that can be read ask for no answer. -/
theorem not_asksForAnswer (hwords : CommandLine.parse words = .ok args) :
    ¬AsksForAnswer words := by
  intro hasks
  obtain ⟨a, ha, -⟩ := hasks
  rw [hwords] at ha
  exact absurd ha (by simp)

/-- A run panics if and only if some matcher is refused. -/
theorem panics_iff (hwords : CommandLine.parse words = .ok args) {notice : Text} :
    Panics pl words notice ↔ refusal? pl args.config = some notice := by
  constructor
  · intro hpanics
    obtain ⟨args', p, hwords', hp, hrefused⟩ := hpanics
    obtain rfl := Except.ok.inj (hwords.symm.trans hwords')
    exact (refusal?_of_compile hp).trans hrefused
  · intro hrefused
    cases hp : Pattern.compile args.pattern args.ignoreCase with
    | error e =>
      -- a pattern that cannot be read asks for no matcher
      unfold refusal? at hrefused
      rw [show args.config.pattern = args.pattern from rfl,
        show args.config.walk.ignoreCase = args.ignoreCase from rfl, hp] at hrefused
      exact absurd hrefused (by simp)
    | ok p => exact ⟨args, p, hwords, hp, (refusal?_of_compile hp).symm.trans hrefused⟩

/-- Where the matchers can be built, there is no panic. -/
theorem not_panics_of_built (hwords : CommandLine.parse words = .ok args)
    (hbuilt : refusal? pl args.config = none) : ¬∃ notice, Panics pl words notice := by
  intro hpanics
  obtain ⟨notice, hpanics⟩ := hpanics
  rw [panics_iff hwords, hbuilt] at hpanics
  exact absurd hpanics (by simp)

/-! ### What each of them leaves behind -/

/-- Wrong words are told what is wrong with them, and nothing is reported. -/
theorem accounts_of_misuse {e : CommandLine.UsageError}
    (h : CommandLine.parse words = .error (.misuse e)) :
    Accounts pl v words (runOn pl v words) := by
  rw [runOn_of_answer h]
  have hstatus : (answered (.misuse e)).status = 1 := rfl
  have hnot : ¬AsksForAnswer words := by
    rw [asksForAnswer_iff h]
    simp [CommandLine.Answer.isMisuse]
  constructor
  · exact .inr (.inl (.misuse h))
  · simp [hstatus, not_panics_of_answer h]
  · simp [hstatus, hnot, not_passes_of_answer h]
  · intro notice hpanics
    exact absurd ⟨notice, hpanics⟩ (not_panics_of_answer h)
  · intro args r hcompletes
    exact absurd hcompletes (not_completes_of_answer h args r)
  · intro _
    rfl
  · intro args r hcompletes
    exact absurd hcompletes (not_completes_of_answer h args r)

/-- A request for help or for the version is answered, and nothing is wrong. -/
theorem accounts_of_request {a : CommandLine.Answer} (h : CommandLine.parse words = .error a)
    (ha : a.isMisuse = false) : Accounts pl v words (runOn pl v words) := by
  rw [runOn_of_answer h]
  have hasks : AsksForAnswer words := (asksForAnswer_iff h).mpr ha
  have hstatus : (answered a).status = 0 := by
    simp [answered, ha, CommandLine.Answer.exitStatus]
  constructor
  · exact .inl hasks
  · simp [hstatus, not_panics_of_answer h]
  · simp [hstatus, hasks]
  · intro notice hpanics
    exact absurd ⟨notice, hpanics⟩ (not_panics_of_answer h)
  · intro args r hcompletes
    exact absurd hcompletes (not_completes_of_answer h args r)
  · intro hfails
    cases hfails with
    | misuse h' =>
      obtain rfl := Except.error.inj (h.symm.trans h')
      exact absurd ha (by simp [CommandLine.Answer.isMisuse])
    | noGlob h' _ => exact absurd (h.symm.trans h') (by simp)
    | aborted h' _ _ _ _ _ => exact absurd (h.symm.trans h') (by simp)
  · intro args r hcompletes
    exact absurd hcompletes (not_completes_of_answer h args r)

/-- A run that panics leaves only the notice behind. -/
theorem accounts_of_panics {notice : Text} (h : Panics pl words notice) :
    Accounts pl v words (runOn pl v words) := by
  rw [runOn_of_panics h]
  have hbig : 1 < (panicked pl notice).status := pl.one_lt_panicStatus
  obtain ⟨args, p, hwords, hp, hrefused⟩ := h
  have hpanics : Panics pl words notice := ⟨args, p, hwords, hp, hrefused⟩
  have hconfig : refusal? pl args.config = some notice := (panics_iff hwords).mp hpanics
  have hcompletes : ∀ args' r, ¬Completes pl v words args' r := by
    intro args' r hcompletes
    obtain rfl := Except.ok.inj (hwords.symm.trans hcompletes.1)
    exact absurd (hconfig.symm.trans hcompletes.2.1) (by simp)
  have hpasses : ¬Passes pl v words := by
    intro hpasses
    obtain ⟨args', p', hwords', hp', hbuilt, -⟩ := hpasses
    obtain rfl := Except.ok.inj (hwords.symm.trans hwords')
    obtain rfl := Except.ok.inj (hp.symm.trans hp')
    exact absurd (hrefused.symm.trans hbuilt) (by simp)
  constructor
  · exact .inr (.inr (.inr ⟨notice, hpanics⟩))
  · exact ⟨fun hle => absurd hle (by omega), fun hnone => absurd ⟨notice, hpanics⟩ hnone⟩
  · constructor
    · intro hzero
      omega
    · intro hends
      exact absurd hends (not_or.mpr ⟨not_asksForAnswer hwords, hpasses⟩)
  · intro notice' hpanics'
    rw [Option.some.inj (hconfig.symm.trans ((panics_iff hwords).mp hpanics'))]
  · intro args' r h
    exact absurd h (hcompletes args' r)
  · intro _
    rfl
  · intro args' r h
    exact absurd h (hcompletes args' r)

/-- A run whose check fails says why, and reports nothing of what it has found. -/
theorem accounts_of_error {e : CheckError} (hwords : CommandLine.parse words = .ok args)
    (hbuilt : refusal? pl args.config = none) (he : (v.check args.config).outcome = .error e) :
    Accounts pl v words (runOn pl v words) := by
  have hfails : Fails pl v words := (fails_iff hwords hbuilt).mpr ⟨e, he⟩
  have hnone : ∀ args' r, ¬Completes pl v words args' r := by
    intro args' r hcompletes
    obtain rfl := Except.ok.inj (hwords.symm.trans hcompletes.1)
    exact absurd (he.symm.trans hcompletes.2.2) (by simp)
  have hpasses : ¬Passes pl v words := by
    intro hpasses
    obtain ⟨args', p, hwords', hp, -, hread, -⟩ := hpasses
    obtain rfl := Except.ok.inj (hwords.symm.trans hwords')
    obtain ⟨hstrict, item, hitem, e', he'⟩ :=
      (TreeView.outcome_eq_error_iff (c := args.config) hp).mp ⟨e, he⟩
    rw [hread hstrict item hitem] at he'
    exact absurd he' (by simp)
  rw [runOn_of_error hwords hbuilt he]
  have hstatus : (failed (logOf args.logFormat args.level (v.check args.config).events)
      (.check e)).status = 1 := rfl
  constructor
  · exact .inr (.inl hfails)
  · simp [hstatus, not_panics_of_built hwords hbuilt]
  · simp [hstatus, not_asksForAnswer hwords, hpasses]
  · intro notice hpanics
    exact absurd ⟨notice, hpanics⟩ (not_panics_of_built hwords hbuilt)
  · intro args' r hcompletes
    exact absurd hcompletes (hnone args' r)
  · intro _
    rfl
  · intro args' r hcompletes
    exact absurd hcompletes (hnone args' r)

/-- A run whose check is complete reports all that it has found. -/
theorem accounts_of_completes (h : Completes pl v words args r) :
    Accounts pl v words (runOn pl v words) := by
  rw [runOn_of_completes h]
  -- the log and the summary go elsewhere
  generalize logOf args.logFormat args.level (v.check args.config).events = log
  have hsame : ∀ args' r', Completes pl v words args' r' → args' = args ∧ r' = r := by
    intro args' r' h'
    obtain rfl := Except.ok.inj (h'.1.symm.trans h.1)
    exact ⟨rfl, Except.ok.inj (h'.2.2.symm.trans h.2.2)⟩
  have houtput : (completed args log r).output = Report.render args.format r.violations := rfl
  have hstatus : (completed args log r).status = if r.hasViolations then 1 else 0 := rfl
  constructor
  · exact .inr (.inr (.inl ⟨args, r, h⟩))
  · have hle : (completed args log r).status ≤ 1 := by
      rw [hstatus]
      split <;> omega
    simp [hle, not_panics_of_built h.1 h.2.1]
  · rw [hstatus, passes_iff h]
    cases r.hasViolations with
    | true => simp [not_asksForAnswer h.1]
    | false => simp
  · intro notice hpanics
    exact absurd ⟨notice, hpanics⟩ (not_panics_of_built h.1 h.2.1)
  · intro args' r' h'
    obtain ⟨rfl, rfl⟩ := hsame args' r' h'
    exact houtput
  · intro hfails
    obtain ⟨e, he⟩ := (fails_iff h.1 h.2.1).mp hfails
    exact absurd (he.symm.trans h.2.2) (by simp)
  · intro args' r' h' hformat
    obtain ⟨rfl, rfl⟩ := hsame args' r' h'
    rw [hstatus, houtput, Ne, Report.render_eq_nil_iff hformat, CheckResult.hasViolations]
    cases r'.violations with
    | nil => simp
    | cons x vs => simp

/-- What a run of the command leaves behind tells how it has ended, whatever the platform
refuses. The exit status is zero or one if and only if the run does not panic, and it is zero
if and only if the words are answered or the check comes to its end and finds nothing wrong.
The report of a check that comes to its end stands whole on the standard output; a run that
fails or panics leaves nothing there, whatever it has found before. And but for the format
that puts brackets around an empty list, the exit status of a complete check is one if and
only if something is reported. -/
theorem runOn_accounts (pl : Platform) (v : TreeView) (words : List Bytes) :
    Accounts pl v words (runOn pl v words) := by
  cases hwords : CommandLine.parse words with
  | error a =>
    cases a with
    | misuse e => exact accounts_of_misuse hwords
    | shortHelp => exact accounts_of_request hwords rfl
    | longHelp => exact accounts_of_request hwords rfl
    | version => exact accounts_of_request hwords rfl
  | ok args =>
    cases hrefused : refusal? pl args.config with
    | some notice => exact accounts_of_panics ((panics_iff hwords).mpr hrefused)
    | none =>
      cases houtcome : (v.check args.config).outcome with
      | error e => exact accounts_of_error hwords hrefused houtcome
      | ok r => exact accounts_of_completes ⟨hwords, hrefused, houtcome⟩

/-! ### Braces inside braces -/

/-- On the platform as it comes, no pattern with few opening braces makes a run panic. -/
theorem not_panics_of_count_le (hwords : CommandLine.parse words = .ok args)
    (hbraces : args.pattern.count '{' ≤ Pattern.braceLimit) :
    ¬∃ notice, Panics .standard words notice := by
  intro hpanics
  obtain ⟨notice, args', p, hwords', hp, hrefused⟩ := hpanics
  obtain rfl := Except.ok.inj (hwords.symm.trans hwords')
  rw [← Pattern.text_of_compile hp] at hbraces
  rw [Pattern.refusal?_of_count_le hbraces] at hrefused
  exact absurd hrefused (by simp)

/-- Words that ask for a check of the file `a`, written with `n` braces around it. -/
def nestedWords (n : Nat) : List Bytes :=
  [utf8 (List.replicate n '{' ++ 'a' :: List.replicate n '}'), utf8 "80".toList]

/-- With 249 braces around it, the file is looked for and nothing is wrong. -/
example : (run (WorkingTree.ofTree .empty).view (nestedWords 249)).status = 0 := by
  decide +kernel

/-- The exit status is not always zero or one: 251 braces around a name are a glob, and
asking for it ends in a panic. -/
theorem not_forall_status_le_one :
    ¬∀ (v : TreeView) (words : List Bytes),
      (run v words).status = 0 ∨ (run v words).status = 1 := by
  intro hall
  have hstatus : (run (WorkingTree.ofTree .empty).view (nestedWords 251)).status = 134 := by
    decide +kernel
  rcases hall (WorkingTree.ofTree .empty).view (nestedWords 251) with h | h
  · rw [hstatus] at h
    exact absurd h (by decide)
  · rw [hstatus] at h
    exact absurd h (by decide)

end Session

end LineLimit
