import LineLimit.Proofs.Check.Strict
import LineLimit.Proofs.Report.Decoding
import LineLimit.Proofs.Session.Ending
import Mathlib.Algebra.GroupWithZero.Nat

/-!
# The log as a transcript

What there is to tell of a check is settled by the tree and by what is checked
(`TreeView.transcript`): that the root is missing, if it is; then one event for each item of
the search, in order, be it a file that was read or a failure that was passed over; and last
how many there were of each. How much of that is logged, and in which layout, is a matter of
three options, and these change nothing else:

> `runOn_logged`: runs that differ in these options only have the same output and the same
> exit status; and the log of a complete check in the JSON layout has one line for each event
> of the transcript that matters enough, in order, and a reader makes of the line what the
> event tells (`Event.document`).

The log is written while the check runs, from the counts that the check keeps for its result.
That its last event counts the events before it is shown along the items (`events_runItems`).
-/

namespace LineLimit

/-! ## What an event tells -/

namespace Event

/-- A file was read. -/
def isScanned : Event → Bool
  | .scanned .. => true
  | _ => false

/-- A failure was passed over. -/
def isSkipped : Event → Bool
  | .skipped _ => true
  | _ => false

/-- How many violations the event tells of. -/
def violations : Event → Nat
  | .scanned _ _ violations => violations
  | _ => 0

/-- A log record as a JSON value: its level, and its message with its fields. -/
def logDocument (level message : Text) (fields : List (Text × Json.Atom)) : Json.Value :=
  .object
    [("level".toList, .atom (.text level)),
     ("fields".toList, .object
        (("message".toList, .atom (.text message)) :: fields.map fun f => (f.1, .atom f.2)))]

/-- The event as a JSON value: all that its record tells but the time, which is left out of
the log as well (`Event.jsonRecord`). -/
def document : Event → Json.Value
  | .rootMissing root =>
    logDocument "DEBUG".toList "walk root does not exist".toList
      [("root".toList, .text (lossy root))]
  | .scanned path lines violations =>
    logDocument "DEBUG".toList "scanned file".toList
      [("path".toList, .text (lossy path)), ("lines".toList, .number (.ofNat lines)),
       ("violations".toList, .number (.ofNat violations))]
  | .skipped e => logDocument "WARN".toList ("skipping: ".toList ++ e.message) []
  | .finished pattern files violations failures =>
    logDocument "INFO".toList "check finished".toList
      [("pattern".toList, .text pattern), ("files".toList, .number (.ofNat files)),
       ("violations".toList, .number (.ofNat violations)),
       ("skipped".toList, .number (.ofNat failures))]

/-! ## Records on lines -/

/-- The record of an event for programs spells the event. -/
theorem spells_jsonRecord (e : Event) : Json.Spells e.jsonRecord e.document.tokens := by
  have hlevel : Json.Spells (Json.quote "level".toList ++ ':' :: Json.quote e.level.label)
      [.atom (.text "level".toList), .colon, .atom (.text e.level.label)] :=
    (Json.spells_quote _).append (.mark rfl (Json.spells_quote _)) (Json.ends_cons.mpr rfl)
  have hfields : Json.Spells (Json.quote "fields".toList ++ ':' :: Json.compact e.jsonFields)
      (.atom (.text "fields".toList) :: .colon :: (Json.Record.value e.jsonFields).tokens) :=
    (Json.spells_quote _).append (.mark rfl (Json.spells_compact _)) (Json.ends_cons.mpr rfl)
  have hopen : Json.mark? '{' = some .openObject := rfl
  have hclose : Json.Spells ['}'] [.closeObject] := .mark rfl .nil
  have hrecord := Json.Spells.bracketed hopen (.cons hlevel (.cons hfields .nil)) hclose
    (Json.ends_cons.mpr rfl)
  have htext : e.jsonRecord = '{' :: [','].intercalate
      [Json.quote "level".toList ++ ':' :: Json.quote e.level.label,
       Json.quote "fields".toList ++ ':' :: Json.compact e.jsonFields] ++ ['}'] := by
    rw [Json.intercalate_cons]
    simp [jsonRecord]
  rw [htext]
  cases e <;> exact hrecord

/-- The record of an event takes one line. -/
theorem newline_not_mem_jsonRecord (e : Event) : '\n' ∉ e.jsonRecord := by
  have hquote := fun t => Json.newline_not_mem_quote t
  have hfields := Json.newline_not_mem_compact e.jsonFields
  simp [jsonRecord, hquote, hfields]

/-- The record of an event for programs, as a line without the newline that ends it. -/
def jsonLine (e : Event) : Bytes := utf8 e.jsonRecord

theorem newline_not_mem_jsonLine (e : Event) : newline ∉ e.jsonLine := fun h =>
  e.newline_not_mem_jsonRecord ((mem_utf8_ascii (by decide)).mp h)

/-- The record of an event is decoded as its document. -/
theorem decodeBytes_jsonLine (e : Event) : Json.decodeBytes e.jsonLine = some e.document := by
  rw [jsonLine, Json.decodeBytes_utf8, e.spells_jsonRecord.decode_eq]

/-- All of the records are decoded, in the order of the events. -/
theorem mapM_decodeBytes_jsonLine (events : List Event) :
    (events.map jsonLine).mapM Json.decodeBytes = some (events.map document) := by
  induction events with
  | nil => rfl
  | cons e events ih => simp [List.mapM_cons, decodeBytes_jsonLine, ih]

end Event

/-- The log in the JSON layout has a line for each event that matters enough, and a newline
ends each of them. -/
theorem segments_logOf_json (last : Level) (events : List Event) :
    segments (utf8 (logOf .json last events)) =
      (events.filter (·.level.rank ≤ last.rank)).map Event.jsonLine ++ [[]] := by
  have hlines : utf8 (logOf .json last events) =
      (events.filter (·.level.rank ≤ last.rank)).flatMap fun e => e.jsonLine ++ [newline] := by
    unfold logOf utf8
    rw [List.flatMap_assoc]
    simp only [List.flatMap_append]
    rfl
  rw [hlines]
  exact segments_flatMap Event.newline_not_mem_jsonLine _

/-! ## What a check tells -/

/-- The last event of a check that has told these events: how many files were read, how many
violations are in them, and how many failures were passed over. -/
def Event.closing (pattern : Text) (told : List Event) : Event :=
  .finished pattern (told.countP isScanned) (told.map violations).sum (told.countP isSkipped)

/-- What has been found is what has been told. -/
structure CheckResult.Counts (found : CheckResult) (told : List Event) : Prop where
  files : found.filesScanned = told.countP Event.isScanned
  violations : found.violations.length = (told.map Event.violations).sum
  failures : found.errors.length = told.countP Event.isSkipped

namespace CheckResult

variable {found : CheckResult} {told : List Event}

theorem counts_nil : ({} : CheckResult).Counts [] := ⟨rfl, rfl, rfl⟩

/-- A file that was read is counted. -/
theorem Counts.record (h : found.Counts told) (f : FileReport) :
    (found.record f).Counts (told ++ [.scanned f.path f.lines f.violations.length]) := by
  constructor
  · simp [CheckResult.record, Event.isScanned, h.files]
  · simp [CheckResult.record, Event.violations, h.violations]
  · simp [CheckResult.record, Event.isSkipped, h.failures]

/-- A failure that was passed over is counted. -/
theorem Counts.skip (h : found.Counts told) (e : CheckError) :
    (found.skip e).Counts (told ++ [.skipped e]) := by
  constructor
  · simp [CheckResult.skip, Event.isScanned, h.files]
  · simp [CheckResult.skip, Event.violations, h.violations]
  · simp [CheckResult.skip, Event.isSkipped, h.failures]

end CheckResult

namespace TreeView

variable {v : TreeView} {c : CheckConfig} {p : Pattern}

/-- What a check tells of an item of its search: how many lines the file has and how many of
them are too long, or the failure that was passed over. -/
def eventOf (v : TreeView) (maxLen : Nat) : Except WalkError Path → Event
  | .error e => .skipped (.walk e)
  | .ok path =>
    match v.read path with
    | .error e => .skipped (.fileRead path e)
    | .ok content =>
      .scanned path (segments content).length
        ((segments content).countP fun line => maxLen < line.length)

/-- All that there is to tell of a check that comes to its end. -/
def transcript (v : TreeView) (c : CheckConfig) (p : Pattern) : List Event :=
  let told := (v.matchingFiles p c.walk).map (v.eventOf c.maxLen)
  (if v.lacksRoot p then [.rootMissing p.root] else []) ++ told ++ [.closing c.pattern told]

/-- A file that was scanned is told of with its lines and violations. -/
theorem eventOf_of_scanItem_ok {maxLen : Nat} {item : Except WalkError Path} {f : FileReport}
    (h : v.scanItem maxLen item = .ok f) :
    v.eventOf maxLen item = .scanned f.path f.lines f.violations.length := by
  obtain ⟨path, content, rfl, hread, rfl⟩ := scanItem_eq_ok.mp h
  rw [eventOf, hread]
  simp only [lineLengths, violationsOf, List.length_map, length_longLines]

/-- An item that could not be scanned is told of with its error. -/
theorem eventOf_of_scanItem_error {maxLen : Nat} {item : Except WalkError Path} {e : CheckError}
    (h : v.scanItem maxLen item = .error e) : v.eventOf maxLen item = .skipped e := by
  cases item with
  | error e' =>
    obtain rfl := Except.error.inj h
    rfl
  | ok path =>
    rw [scanItem, scanFile] at h
    rw [eventOf]
    cases hread : v.read path with
    | error e' =>
      rw [hread] at h
      obtain rfl := Except.error.inj h
      rfl
    | ok content =>
      rw [hread] at h
      exact absurd h (by simp)

/-- A check that goes through all items tells one event of each, and at the end counts them
with those that it has told before. -/
theorem events_runItems {items : List (Except WalkError Path)} {found r : CheckResult}
    {told : List Event} (hfound : found.Counts told)
    (h : (v.runItems c found items).outcome = .ok r) :
    (v.runItems c found items).events =
      items.map (v.eventOf c.maxLen) ++
        [.closing c.pattern (told ++ items.map (v.eventOf c.maxLen))] := by
  induction items generalizing found told with
  | nil =>
    rw [runItems, hfound.files, hfound.violations, hfound.failures, List.map_nil,
      List.append_nil]
    rfl
  | cons item items ih =>
    rw [runItems] at h ⊢
    rw [List.map_cons, List.append_cons told]
    cases hscan : v.scanItem c.maxLen item with
    | ok f =>
      rw [hscan] at h
      rw [eventOf_of_scanItem_ok hscan]
      show _ :: (v.runItems c (found.record f) items).events = _
      rw [ih (hfound.record f) h]
      rfl
    | error e =>
      rw [hscan] at h
      by_cases hstrict : c.strict = true
      · exact absurd h (by simp [hstrict])
      · simp only [hstrict, Bool.false_eq_true, if_false] at h ⊢
        rw [eventOf_of_scanItem_error hscan, Run.events_after, ih (hfound.skip e) h]
        rfl

/-- A check that comes to its end tells its transcript. -/
theorem events_check {r : CheckResult}
    (hp : Pattern.compile c.pattern c.walk.ignoreCase = .ok p)
    (hr : (v.check c).outcome = .ok r) : (v.check c).events = v.transcript c p := by
  have hitems : (v.runItems c {} (v.matchingFiles p c.walk)).outcome = .ok r :=
    (outcome_check hp).symm.trans hr
  have hevents := events_runItems CheckResult.counts_nil hitems
  unfold check transcript
  rw [hp]
  simp only
  split
  · rw [Run.events_after, hevents]
    rfl
  · rw [hevents]
    rfl

end TreeView

/-! ## What is logged of it -/

namespace Session

variable {v : TreeView} {words : List Bytes} {args : CommandLine.Arguments}

/-- The options of the log take no part in the output and in the exit status. -/
theorem ofArguments_of_logging (pl : Platform) (v : TreeView) (args : CommandLine.Arguments)
    (verbose : Nat) (quiet : Bool) (logFormat : LogFormat) :
    let other := { args with verbose := verbose, quiet := quiet, logFormat := logFormat }
    (ofArguments pl v other).output = (ofArguments pl v args).output ∧
      (ofArguments pl v other).status = (ofArguments pl v args).status := by
  intro other
  have hsame : other.config = args.config := rfl
  unfold ofArguments
  rw [other.build_draft, args.build_draft, hsame]
  simp only
  cases refusal? pl args.config with
  | some notice => exact ⟨rfl, rfl⟩
  | none =>
    unfold ofCheck
    simp only
    cases (v.check args.config).outcome with
    | error e => exact ⟨rfl, rfl⟩
    | ok r => exact ⟨rfl, rfl⟩

/-- The log tells what happened and touches nothing else. Command lines that differ in how
often `--verbose` is given, in `--quiet` and in the layout of the log lead to the same output
and the same exit status, be it that of a panic. And where a check comes to its end, its log
in the JSON layout has one line for each event of the transcript down to the level asked for,
in their order, from which a reader gets back what the event tells; the summary, if it is
asked for, comes after the log. -/
theorem runOn_logged (pl : Platform) (v : TreeView) {words : List Bytes}
    {args : CommandLine.Arguments} (hwords : CommandLine.parse words = .ok args) :
    (∀ (words' : List Bytes) (verbose : Nat) (quiet : Bool) (logFormat : LogFormat),
      CommandLine.parse words' =
          .ok { args with verbose := verbose, quiet := quiet, logFormat := logFormat } →
        (runOn pl v words').output = (runOn pl v words).output ∧
          (runOn pl v words').status = (runOn pl v words).status) ∧
    ∀ (p : Pattern) (r : CheckResult),
      Pattern.compile args.pattern args.ignoreCase = .ok p → Completes pl v words args r →
      args.logFormat = .json →
        ∃ log, (runOn pl v words).errors = log ++ (if args.summary then
            Report.summary r.violations.length r.filesWithViolations r.filesScanned ++ ['\n']
          else []) ∧
          ∃ lines, segments (utf8 log) = lines ++ [[]] ∧
            lines.mapM Json.decodeBytes = some (((v.transcript args.config p).filter
              (·.level.rank ≤ (Level.ofVerbosity args.verbose args.quiet).rank)).map
                Event.document) := by
  constructor
  · intro words' verbose quiet logFormat hwords'
    rw [runOn_of_parse hwords', runOn_of_parse hwords]
    exact ofArguments_of_logging pl v args verbose quiet logFormat
  · intro p r hp hcompletes hformat
    refine ⟨_, congrArg errors (runOn_of_completes hcompletes), ?_⟩
    rw [hformat, TreeView.events_check (c := args.config) hp hcompletes.2.2]
    exact ⟨_, segments_logOf_json _ _, Event.mapM_decodeBytes_jsonLine _⟩

/-- The words of a check that logs all it can. -/
def talkative : List Bytes :=
  ["-vv", "--log-format=json", "--summary", "*.rs", "2"].map fun word => utf8 word.toList

/-- The words of the same check, which logs errors only and in the other layout. -/
def taciturn : List Bytes :=
  ["--quiet", "--summary", "*.rs", "2"].map fun word => utf8 word.toList

/-- Of a file, of one that cannot be read and of a link that is passed over in silence, the
log tells what there is to tell; without it, the output is the same. -/
theorem runOn_logged_broken :
    (run TreeView.brokenTree.view taciturn).output =
        (run TreeView.brokenTree.view talkative).output ∧
      (run TreeView.brokenTree.view taciturn).status = 1 ∧
      ∃ log, (run TreeView.brokenTree.view talkative).errors =
          log ++ "1 violation(s) in 1 file(s) (1 scanned)\n".toList ∧
        ∃ lines, segments (utf8 log) = lines ++ [[]] ∧
          lines.mapM Json.decodeBytes = some
            [Event.document (.scanned (utf8 "a.rs".toList) 2 1),
             Event.document (.skipped (.fileRead (utf8 "b.rs".toList) .inputOutput)),
             Event.document (.finished "*.rs".toList 1 1 1)] := by
  have hwords : CommandLine.parse talkative =
      .ok ⟨"*.rs".toList, 2, .text, true, false, false, false, false, 2, false, .json⟩ := by
    decide +kernel
  have hwords' : CommandLine.parse taciturn =
      .ok ⟨"*.rs".toList, 2, .text, true, false, false, false, false, 0, true, .compact⟩ := by
    decide +kernel
  obtain ⟨hsame, hlog⟩ := runOn_logged .standard TreeView.brokenTree.view hwords
  obtain ⟨houtput, hstatus⟩ := hsame taciturn 0 true .compact hwords'
  refine ⟨houtput, hstatus.trans (by decide +kernel), ?_⟩
  have hr : (TreeView.brokenTree.view.check ⟨"*.rs".toList, 2, {}, false⟩).outcome =
      .ok ⟨[⟨utf8 "a.rs".toList, 1, 4⟩], 1, 1,
        [.fileRead (utf8 "b.rs".toList) .inputOutput]⟩ := by
    decide +kernel
  have htranscript : (TreeView.brokenTree.view.transcript ⟨"*.rs".toList, 2, {}, false⟩
      TreeView.starRs).filter (·.level.rank ≤ (Level.ofVerbosity 2 false).rank) =
        [.scanned (utf8 "a.rs".toList) 2 1,
         .skipped (.fileRead (utf8 "b.rs".toList) .inputOutput),
         .finished "*.rs".toList 1 1 1] := by
    decide +kernel
  obtain ⟨log, herrors, lines, hlines, hdecode⟩ :=
    hlog TreeView.starRs _ rfl ⟨hwords, by decide +kernel, hr⟩ rfl
  refine ⟨log, herrors, lines, hlines, ?_⟩
  rw [hdecode]
  exact congrArg (fun events => some (events.map Event.document)) htranscript

end Session

end LineLimit
