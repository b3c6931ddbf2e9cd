import LineLimit.Proofs.CommandLine.Limits
import LineLimit.Proofs.CommandLine.Words
import LineLimit.Proofs.Session.Ending

/-!
# Writing a command line

What is asked of the command is a `Request`. Its options are written in any order and in any
spelling; then come `--`, the pattern and the limit.

> `parse_written`: reading the words gives back what was asked for, each setting in its own
> field, if the last word denotes a limit, and otherwise the words are to blame.
-/

namespace LineLimit.CommandLine

/-- How much is logged: errors only, or more the more often it is asked for. -/
inductive Volume where
  | quiet
  | verbose (times : Nat)

/-- What is asked of the command. A layout may be left to the command. -/
structure Request where
  config : CheckConfig
  format : Option ReportFormat
  logFormat : Option LogFormat
  summary : Bool
  volume : Volume

namespace Volume

def isQuiet : Volume → Bool
  | .quiet => true
  | .verbose _ => false

/-- How often more is asked for. -/
def times : Volume → Nat
  | .quiet => 0
  | .verbose k => k

end Volume

namespace Request

/-- The flags that are raised once. -/
def switches : List Setting :=
  [.summary, .hidden, .followLinks, .ignoreCase, .strict, .quiet]

/-- Whether a flag that is raised once is raised. -/
def raises (r : Request) : Setting → Bool
  | .summary => r.summary
  | .hidden => r.config.walk.hidden
  | .followLinks => r.config.walk.followLinks
  | .ignoreCase => r.config.walk.ignoreCase
  | .strict => r.config.strict
  | .quiet => r.volume.isQuiet
  | _ => false

/-- The options that ask for all this. -/
def options (r : Request) : List Choice :=
  (r.format.map .format).toList ++ (r.logFormat.map .logFormat).toList ++
    (switches.filter r.raises).map .flag ++ List.replicate r.volume.times (.flag .verbose)

/-- What a reader of the command line is to make of it. -/
def arguments (r : Request) : Arguments :=
  { pattern := r.config.pattern
    maxLen := r.config.maxLen
    format := r.format.getD .text
    summary := r.summary
    hidden := r.config.walk.hidden
    followLinks := r.config.walk.followLinks
    ignoreCase := r.config.walk.ignoreCase
    strict := r.config.strict
    verbose := min r.volume.times 255
    quiet := r.volume.isQuiet
    logFormat := r.logFormat.getD .compact }

end Request

variable {cs : List Choice} {f : Found} {r : Request}

/-! ## What is asked for -/

namespace Request

/-- The flags among the options are those raised, and `--verbose` as often as asked for. -/
theorem flag_mem_options {s : Setting} :
    .flag s ∈ r.options ↔
      s ∈ switches ∧ r.raises s = true ∨ r.volume.times ≠ 0 ∧ s = .verbose := by
  simp [options]

/-- No option is given twice, but for `--verbose`, nor is help asked for. -/
theorem orderly_options (r : Request) : Orderly r.options where
  asks s hs := by
    rcases flag_mem_options.mp hs with ⟨hswitch, -⟩ | ⟨-, rfl⟩
    · clear hs
      revert hswitch s
      decide
    · decide
  nodup := by
    have hformat : ((r.format.map Choice.format).toList.map Choice.setting).Sublist [.format] := by
      cases r.format <;> simp [Choice.setting]
    have hlog : ((r.logFormat.map Choice.logFormat).toList.map Choice.setting).Sublist
        [.logFormat] := by
      cases r.logFormat <;> simp [Choice.setting]
    have hflags : (((switches.filter r.raises).map Choice.flag).map Choice.setting).Sublist
        switches := by
      rw [List.map_map]
      exact (List.map_id' _).symm ▸ List.filter_sublist
    have hverbose : (List.replicate r.volume.times (Choice.flag .verbose)).filter
        (· ≠ .flag .verbose) = [] := by
      simp
    have hall : (Setting.format :: .logFormat :: switches).Nodup := by decide
    refine List.Sublist.nodup ?_ hall
    rw [options, List.filter_append, hverbose, List.append_nil]
    refine (List.filter_sublist.map _).trans ?_
    rw [List.map_append, List.map_append]
    exact (hformat.append hlog).append hflags

/-- The option `--verbose` is given as often as the volume says. -/
theorem count_verbose (r : Request) : r.options.count (.flag .verbose) = r.volume.times := by
  have hbefore : .flag .verbose ∉ (r.format.map Choice.format).toList ++
      (r.logFormat.map Choice.logFormat).toList ++ (switches.filter r.raises).map .flag := by
    simp [switches]
  rw [options, List.count_append, List.count_eq_zero_of_not_mem hbefore, Nat.zero_add,
    List.count_replicate_self]

variable {pattern : Text} {limit : Bytes}

theorem format_eq (h : f.Notes r.options) : f.format = r.format := by
  refine Option.ext fun x => (h.format_iff x).trans ?_
  simp [options]

theorem logFormat_eq (h : f.Notes r.options) : f.logFormat = r.logFormat := by
  refine Option.ext fun x => (h.logFormat_iff x).trans ?_
  simp [options]

/-- A switch is found to be given if and only if the request raises it. -/
theorem contains_given (h : f.Notes r.options) {s : Setting} (hs : s ∈ switches) :
    f.given.contains s = r.raises s := by
  have hflag : s.takesValue = false ∧ s ≠ .verbose := by
    revert hs s
    decide
  have hmem : s ∈ f.given ↔ r.raises s = true := by
    rw [h.flag_mem_given hflag.1, flag_mem_options]
    simp [hs, hflag.2]
  rw [Bool.eq_iff_iff, List.contains_iff_mem, hmem]

/-- `--quiet` and `--verbose` are never asked for both. -/
theorem conflict?_given (h : f.Notes r.options) : Reader.conflict? f.given = none := by
  have hno : ¬(.quiet ∈ f.given ∧ .verbose ∈ f.given) := by
    rw [h.flag_mem_given rfl, h.flag_mem_given rfl, flag_mem_options, flag_mem_options]
    rintro ⟨⟨-, hquiet⟩ | ⟨-, hquiet⟩, ⟨hverbose, -⟩ | ⟨htimes, -⟩⟩
    · exact absurd hverbose (by decide)
    · cases hvolume : r.volume with
      | quiet => exact htimes (by rw [hvolume]; rfl)
      | verbose k => simp [raises, hvolume, Volume.isQuiet] at hquiet
    · exact nomatch hquiet
    · exact nomatch hquiet
  have hnodup := h.nodup.filter fun s => s = .quiet || s = .verbose
  unfold Reader.conflict?
  split
  · next s s' rest hfilter =>
    have hmem : ∀ x ∈ [s, s'], x ∈ f.given ∧ (x = .quiet ∨ x = .verbose) := by
      intro x hx
      have hx' : x ∈ f.given.filter fun s => s = .quiet || s = .verbose := by
        rw [hfilter]
        simp only [List.mem_cons, List.not_mem_nil, or_false] at hx
        rcases hx with rfl | rfl <;> simp
      simpa using hx'
    have hne : s ≠ s' := by
      rw [hfilter] at hnodup
      exact fun hsame => (List.nodup_cons.mp hnodup).1 (by simp [hsame])
    obtain ⟨hs, rfl | rfl⟩ := hmem s (by simp)
    · obtain ⟨hs', rfl | rfl⟩ := hmem s' (by simp)
      · exact absurd rfl hne
      · exact absurd ⟨hs, hs'⟩ hno
    · obtain ⟨hs', rfl | rfl⟩ := hmem s' (by simp)
      · exact absurd ⟨hs', hs⟩ hno
      · exact absurd rfl hne
  · rfl

end Request

/-- Once the options and both operands have been read, all depends on the limit. -/
theorem finish_eq (h : f.Notes r.options) (pattern : Text) (limit : Bytes) :
    Reader.finish ⟨{ f with pattern := some pattern }, some (.operand .maxLen limit), 2, true⟩ =
      (readLimit limit).map fun n => { r.arguments with pattern := pattern, maxLen := n } := by
  have hlook : Reader.look
      ⟨{ f with pattern := some pattern }, some (.operand .maxLen limit), 2, true⟩ =
        (readLimit limit).map fun n => { f with pattern := some pattern, maxLen := some n } :=
    setOperand_maxLen ..
  unfold Reader.finish
  rw [Reader.settle_eq, hlook]
  cases readLimit limit with
  | error e => rfl
  | ok n =>
    have hgiven : ∀ s ∈ Request.switches, f.given.contains s = r.raises s :=
      fun s hs => Request.contains_given h hs
    simp only [Except.map, bind, Except.bind, Request.conflict?_given h, Request.format_eq h,
      Request.logFormat_eq h, h.verbose_eq, Request.count_verbose]
    rw [hgiven .summary (by decide), hgiven .hidden (by decide), hgiven .followLinks (by decide),
      hgiven .ignoreCase (by decide), hgiven .strict (by decide), hgiven .quiet (by decide)]
    rfl

/-- A command line with the options of a request, in any order and spelling, is read as the
request with whatever limit the last word denotes. -/
theorem parse_eq {words : List Bytes} (hcs : cs.Perm r.options) (hwords : Written cs words)
    (limit : Bytes) :
    parse (words ++ [utf8 "--".toList, utf8 r.config.pattern, limit]) =
      ((readLimit limit).map fun n => { r.arguments with maxLen := n }).mapError .misuse := by
  have horderly : Orderly ([] ++ cs) := r.orderly_options.perm hcs.symm
  let f : Found := cs.foldl Found.add {}
  have hnotes : f.Notes r.options := (Found.notes_nil.foldl_add horderly).perm hcs
  obtain ⟨rd, hrd, hready⟩ := (Reader.ready_found {}).written hwords Found.notes_nil horderly
  have hread : (words ++ [utf8 "--".toList, utf8 r.config.pattern, limit]).foldlM Reader.step {} =
      .ok ⟨{ f with pattern := some r.config.pattern }, some (.operand .maxLen limit), 2,
        true⟩ := by
    rw [List.foldlM_append, hrd]
    exact hready.operands r.config.pattern limit
  unfold parse
  rw [hread]
  exact congrArg (Except.mapError Answer.misuse) (finish_eq hnotes r.config.pattern limit)

/-- What is asked of the command can be written down and is read back: the options in any
order and in any spelling, the pattern whatever it looks like. The last word is read as a
limit if and only if it denotes one that 64 bits hold, and then each setting is in its own
field and the check is the one asked for. Otherwise the words are to blame and the command
fails. And no command line leads to a check of which something is missing. -/
theorem parse_written (r : Request) {cs : List Choice} {words : List Bytes}
    (hmax : r.config.maxLen ≤ countLimit) (hcs : cs.Perm r.options) (hwords : Written cs words) :
    let line (limit : Bytes) := words ++ [utf8 "--".toList, utf8 r.config.pattern, limit]
    (parse (line (utf8 (decimal r.config.maxLen))) = .ok r.arguments ∧
      r.arguments.draft.build = .ok r.config) ∧
    (∀ limit n, parse (line limit) = .ok { r.arguments with maxLen := n } ↔
      (∃ t, limit = utf8 t ∧ Denotes t n) ∧ n ≤ countLimit) ∧
    (∀ limit, (¬∃ t n, limit = utf8 t ∧ Denotes t n ∧ n ≤ countLimit) →
      (∃ e, parse (line limit) = .error (.misuse e)) ∧
        ∀ pl v, (Session.runOn pl v (line limit)).status = 1) ∧
    ∀ words' args, parse words' = .ok args → args.draft.build = .ok args.config := by
  intro line
  have hparse := parse_eq hcs hwords
  refine ⟨⟨?_, rfl⟩, ?_, ?_, fun _ args _ => args.build_draft⟩
  · rw [hparse, readLimit_eq_ok_iff.mpr ⟨⟨_, rfl, denotes_decimal _⟩, hmax⟩]
    rfl
  · intro limit n
    rw [hparse, ← readLimit_eq_ok_iff]
    cases readLimit limit with
    | error e => simp [Except.map, Except.mapError]
    | ok m => simp [Except.map, Except.mapError]
  · intro limit hno
    have hmisuse : ∃ e, parse (line limit) = .error (.misuse e) := by
      rw [hparse]
      cases hread : readLimit limit with
      | error e => exact ⟨e, rfl⟩
      | ok n =>
        obtain ⟨⟨t, ht, hn⟩, hle⟩ := readLimit_eq_ok_iff.mp hread
        exact absurd ⟨t, n, ht, hn, hle⟩ hno
    refine ⟨hmisuse, fun pl v => ?_⟩
    obtain ⟨e, he⟩ := hmisuse
    unfold Session.runOn
    rw [he]
    rfl

/-- A pattern that looks like an option, the largest limit, and most of the options. -/
def busyRequest : Request :=
  { config := ⟨"--quiet".toList, countLimit, ⟨true, false, true⟩, true⟩
    format := some .jsonLines
    logFormat := some .json
    summary := true
    volume := .verbose 3 }

/-- The words of `busyRequest`, before the operands. -/
def busyWords : List Bytes :=
  ["-vi", "--format", "jsonl", "--summary", "-v", "--strict", "--log-format=json", "--hidden",
    "--verbose"].map fun word => utf8 word.toList

/-- The options of a request come out of order and in all spellings, and the limit with a
sign; one that is larger by one is refused. -/
theorem parse_written_busy :
    parse (busyWords ++ [utf8 "--".toList, utf8 "--quiet".toList,
        utf8 "+18446744073709551615".toList]) =
      .ok ⟨"--quiet".toList, 18446744073709551615, .jsonLines, true, true, false, true, true, 3,
        false, .json⟩ ∧
    ∀ pl v, (Session.runOn pl v (busyWords ++ [utf8 "--".toList, utf8 "--quiet".toList,
      utf8 "18446744073709551616".toList])).status = 1 := by
  have hcs : [Choice.flag .verbose, .flag .ignoreCase, .format .jsonLines, .flag .summary,
      .flag .verbose, .flag .strict, .logFormat .json, .flag .hidden, .flag .verbose].Perm
        busyRequest.options := by
    decide
  have hwords : Written [Choice.flag .verbose, .flag .ignoreCase, .format .jsonLines,
      .flag .summary, .flag .verbose, .flag .strict, .logFormat .json, .flag .hidden,
      .flag .verbose] busyWords :=
    .append (@Spelling.letters [.verbose, .ignoreCase] ['v', 'i'] (by decide) rfl) <|
    .append (.apart rfl) <|
    .append (.long (c := .flag .summary) rfl) <|
    .append (@Spelling.letters [.verbose] ['v'] (by decide) rfl) <|
    .append (.long (c := .flag .strict) rfl) <|
    .append (.joined (c := .logFormat .json) rfl) <|
    .append (.long (c := .flag .hidden) rfl) <|
    .append (.long (c := .flag .verbose) rfl) .nil
  obtain ⟨-, hlimit, hmisuse, -⟩ := parse_written busyRequest (by decide) hcs hwords
  constructor
  · refine (hlimit _ 18446744073709551615).mpr ⟨⟨_, rfl, ?_⟩, by decide⟩
    exact ⟨_, .inr rfl, by decide, List.all_eq_true.mp rfl, by decide +kernel⟩
  · intro pl v
    refine (hmisuse _ ?_).2 pl v
    rintro ⟨t, n, ht, hn, hle⟩
    obtain rfl := utf8_injective ht
    have hlarge : readCount "18446744073709551616".toList = .error .tooLarge := by decide
    rw [readCount_eq_ok_iff.mpr ⟨hn, hle⟩] at hlarge
    exact nomatch hlarge

end LineLimit.CommandLine
