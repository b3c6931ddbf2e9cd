import LineLimit.CommandLine.Parser
import LineLimit.Text.Utf8.Lemmas
import Mathlib.Data.List.Nodup

/-!
# Options, one after the other

A `Choice` is an option with its value. Choices that can stand in one command line are
`Orderly`: only `--verbose` is given more than once. What is known after them is the same in
whatever order they come (`Found.Notes`), and noting one more never fails.
-/

namespace LineLimit.CommandLine

/-- One option of a command line, with its value if it takes one. -/
inductive Choice where
  | flag (s : Setting)
  | format (f : ReportFormat)
  | logFormat (f : LogFormat)
  deriving DecidableEq

namespace Choice

/-- The option that is chosen. -/
def setting : Choice → Setting
  | .flag s => s
  | .format _ => .format
  | .logFormat _ => .logFormat

/-- The value of the option, if it takes one. -/
def value? : Choice → Option Text
  | .flag _ => none
  | .format f => some f.name
  | .logFormat f => some f.name

/-- The layout of the report, if this is chosen. -/
def format? : Choice → Option ReportFormat
  | .format x => some x
  | _ => none

/-- The layout of the log, if this is chosen. -/
def logFormat? : Choice → Option LogFormat
  | .logFormat x => some x
  | _ => none

end Choice

/-! ## What is known -/

/-- What is known after one more option, which is noted as the last one given. -/
def Found.add (f : Found) (c : Choice) : Found :=
  { f with
    format := c.format?.or f.format
    logFormat := c.logFormat?.or f.logFormat
    verbose := if c = .flag .verbose then min (f.verbose + 1) 255 else f.verbose
    given := f.given.filter (· ≠ c.setting) ++ [c.setting] }

/-- The options can stand in one command line: each is one that a request can have, and only
`--verbose` is given more than once. -/
structure Orderly (cs : List Choice) : Prop where
  asks : ∀ s, .flag s ∈ cs → s.takesValue = false ∧ s ≠ .help ∧ s ≠ .version
  nodup : ((cs.filter (· ≠ .flag .verbose)).map Choice.setting).Nodup

/-- What is known is what the options say. -/
structure Found.Notes (f : Found) (cs : List Choice) : Prop where
  format_iff : ∀ x, f.format = some x ↔ .format x ∈ cs
  logFormat_iff : ∀ x, f.logFormat = some x ↔ .logFormat x ∈ cs
  verbose_eq : f.verbose = min (cs.count (.flag .verbose)) 255
  mem_given : ∀ s, s ∈ f.given ↔ ∃ c ∈ cs, c.setting = s
  nodup : f.given.Nodup

variable {cs cs' : List Choice} {c : Choice} {f : Found}

/-- Options that can stand in one command line can do so in any order. -/
theorem Orderly.perm (h : Orderly cs) (hperm : cs.Perm cs') : Orderly cs' where
  asks s hs := h.asks s (hperm.mem_iff.mpr hs)
  nodup := ((hperm.filter _).map _).nodup_iff.mp h.nodup

/-- Options that can stand in one command line still can where some are left out. -/
theorem Orderly.sublist (h : Orderly cs) (hsub : cs'.Sublist cs) : Orderly cs' where
  asks s hs := h.asks s (hsub.subset hs)
  nodup := ((hsub.filter _).map _).nodup h.nodup

/-- An option other than `--verbose` is not given again. -/
theorem Orderly.setting_ne (h : Orderly (cs ++ [c])) (hc : c ≠ .flag .verbose) :
    ∀ c' ∈ cs, c'.setting ≠ c.setting := by
  intro c' hc' hsame
  have hother : c' ≠ .flag .verbose := by
    rintro rfl
    cases c with
    | flag s => exact hc (congrArg Choice.flag hsame.symm)
    | format x => exact nomatch hsame
    | logFormat x => exact nomatch hsame
  have hnodup := h.nodup
  rw [List.filter_append, List.map_append, List.nodup_append] at hnodup
  refine hnodup.2.2 c'.setting ?_ c.setting ?_ hsame
  · exact List.mem_map_of_mem (List.mem_filter.mpr ⟨hc', decide_eq_true hother⟩)
  · exact List.mem_map_of_mem (List.mem_filter.mpr ⟨by simp, decide_eq_true hc⟩)

/-- What is found does not depend on the order. -/
theorem Found.Notes.perm (h : f.Notes cs) (hperm : cs.Perm cs') : f.Notes cs' where
  format_iff x := (h.format_iff x).trans hperm.mem_iff
  logFormat_iff x := (h.logFormat_iff x).trans hperm.mem_iff
  verbose_eq := h.verbose_eq.trans (by rw [hperm.count_eq])
  mem_given s := (h.mem_given s).trans (by simp only [hperm.mem_iff])
  nodup := h.nodup

theorem Found.notes_nil : Found.Notes {} [] where
  format_iff x := by simp
  logFormat_iff x := by simp
  verbose_eq := rfl
  mem_given s := by simp
  nodup := List.nodup_nil

/-- With one more option, what is known still says what the options say. -/
theorem Found.Notes.add (h : f.Notes cs) (hcs : Orderly (cs ++ [c])) :
    (f.add c).Notes (cs ++ [c]) where
  format_iff x := by
    rw [List.mem_append, ← h.format_iff, Found.add]
    cases c with
    | flag s => simp [Choice.format?]
    | logFormat y => simp [Choice.format?]
    | format y =>
      have hnone : f.format = none := by
        refine Option.eq_none_iff_forall_ne_some.mpr fun z hz => ?_
        exact hcs.setting_ne (by simp) _ ((h.format_iff z).mp hz) rfl
      simp [Choice.format?, hnone, eq_comm]
  logFormat_iff x := by
    rw [List.mem_append, ← h.logFormat_iff, Found.add]
    cases c with
    | flag s => simp [Choice.logFormat?]
    | format y => simp [Choice.logFormat?]
    | logFormat y =>
      have hnone : f.logFormat = none := by
        refine Option.eq_none_iff_forall_ne_some.mpr fun z hz => ?_
        exact hcs.setting_ne (by simp) _ ((h.logFormat_iff z).mp hz) rfl
      simp [Choice.logFormat?, hnone, eq_comm]
  verbose_eq := by
    rw [List.count_append, List.count_singleton, Found.add, h.verbose_eq]
    by_cases hc : c = .flag .verbose
    · simp only [hc, if_true, beq_self_eq_true]
      omega
    · simp [hc]
  mem_given s := by
    simp only [Found.add, List.mem_append, List.mem_filter, List.mem_singleton, h.mem_given,
      or_and_right, exists_or, exists_eq_left]
    by_cases hs : s = c.setting
    · simp [hs]
    · simp [hs, Ne.symm hs]
  nodup := by
    refine List.nodup_append.mpr ⟨h.nodup.filter _, List.nodup_singleton _, ?_⟩
    intro s hs s' hs' hsame
    have hne := of_decide_eq_true (List.mem_filter.mp hs).2
    exact hne (hsame.trans (List.mem_singleton.mp hs'))

/-- Further options are found after those that are known. -/
theorem Found.Notes.foldl_add (h : f.Notes cs) (hcs : Orderly (cs ++ cs')) :
    (cs'.foldl Found.add f).Notes (cs ++ cs') := by
  induction cs' generalizing f cs with
  | nil => simpa using h
  | cons c cs' ih =>
    have hsplit : cs ++ c :: cs' = (cs ++ [c]) ++ cs' := by simp
    rw [hsplit] at hcs ⊢
    exact ih (h.add (hcs.sublist (List.sublist_append_left ..))) hcs

/-- An option that may be given once is noted if it has not been given. -/
theorem Found.Notes.once (h : f.Notes cs) (hcs : Orderly (cs ++ [c]))
    (hc : c ≠ .flag .verbose) :
    f.once c.setting = .ok { f with given := f.given.filter (· ≠ c.setting) ++ [c.setting] } := by
  have hnew : ∀ s ∈ f.given, s ≠ c.setting := fun s hs => by
    obtain ⟨c', hc', rfl⟩ := (h.mem_given s).mp hs
    exact hcs.setting_ne hc c' hc'
  have hself : f.given.filter (· ≠ c.setting) = f.given :=
    List.filter_eq_self.mpr fun s hs => decide_eq_true (hnew s hs)
  have hnot : f.given.contains c.setting = false := by
    simpa using fun hmem => hnew _ hmem rfl
  rw [Found.once, hnot, hself]
  rfl

/-- A flag is noted. -/
theorem Found.Notes.raise {s : Setting} (h : f.Notes cs) (hcs : Orderly (cs ++ [.flag s])) :
    f.raise s = .ok (f.add (.flag s)) := by
  obtain ⟨-, -, hversion⟩ := hcs.asks s (by simp)
  unfold Found.raise
  split
  · exact absurd rfl hversion
  · rfl
  · next hverbose =>
    have hc : Choice.flag s ≠ .flag .verbose := fun heq => hverbose (Choice.flag.inj heq)
    have honce : f.once s = _ := h.once hcs hc
    rw [honce, Found.add, if_neg hc]
    rfl

/-- An option is noted with its value. -/
theorem Found.Notes.set {t : Text} (h : f.Notes cs) (hcs : Orderly (cs ++ [c]))
    (ht : c.value? = some t) : f.set c.setting (utf8 t) = .ok (f.add c) := by
  cases c with
  | flag s => exact nomatch ht
  | format x =>
    obtain rfl := Option.some.inj ht
    have honce : f.once .format = _ := h.once hcs (by simp)
    unfold Found.set
    simp only [Choice.setting, honce, bind, Except.bind, readUtf8?_utf8, Option.bind_some,
      ReportFormat.ofName?_name]
    rfl
  | logFormat x =>
    obtain rfl := Option.some.inj ht
    have honce : f.once .logFormat = _ := h.once hcs (by simp)
    unfold Found.set
    simp only [Choice.setting, honce, bind, Except.bind, readUtf8?_utf8, Option.bind_some,
      LogFormat.ofName?_name]
    rfl

/-- A flag is given if and only if it is one of the options. -/
theorem Found.Notes.flag_mem_given {s : Setting} (h : f.Notes cs) (hs : s.takesValue = false) :
    s ∈ f.given ↔ .flag s ∈ cs := by
  rw [h.mem_given]
  constructor
  · rintro ⟨c, hc, rfl⟩
    cases c with
    | flag s => exact hc
    | format x => exact nomatch hs
    | logFormat x => exact nomatch hs
  · exact fun hmem => ⟨.flag s, hmem, rfl⟩

end LineLimit.CommandLine
