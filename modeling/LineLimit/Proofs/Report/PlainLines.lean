import LineLimit.Proofs.Json.Spelling
import LineLimit.Report
import LineLimit.Text.Utf8.Lines
import Mathlib.Algebra.GroupWithZero.Nat
import Mathlib.Data.List.DropRight

/-!
# Reading the plain format back

A plain line is read from its right end: a number, the word before it, a number, a colon. What
is left is the path, whatever it holds (`readPlainLine?_eq_some_iff`). A path is written as it
is shown, and a path may hold newlines. Then the lines of the report are more than the
violations, and a line of the path may read as a violation that there is none of.

> `lines_render_text`: the lines of a report are one for each violation and one for each
> newline in a path. They are the violations, one by one and in order, if and only if no path
> has a newline. The violations are still told from the lines if and only if no line of a path
> reads as one (`Violation.HidesLine`). And lists that show other violations give the same
> report if and only if the list has two violations or hides one.

So the report tells apart any two lists that hide none (`render_text_injective`). It does not
tell them from those that do: two violations give the report of one, in a file with a newline in
its name.
-/

namespace LineLimit

/-- What a report shows of a violation. -/
def Violation.shown (v : Violation) : Text × Nat × Nat := (lossy v.path, v.line, v.length)

namespace Report

/-- What stands after the path in a plain line. -/
def plainEnd (line length : Nat) : Text :=
  ':' :: decimal line ++ ": Length ".toList ++ decimal length

/-- After its path, a violation takes no new line. -/
theorem newline_not_mem_plainEnd (line length : Nat) : '\n' ∉ plainEnd line length := by
  simp [plainEnd, Json.newline_not_mem_decimal]

/-- A violation is its path, its numbers, and a newline. -/
theorem plainLine_eq (v : Violation) :
    v.plainLine = lossy v.path ++ plainEnd v.line v.length ++ ['\n'] := by
  simp [Violation.plainLine, plainEnd]

/-- The number at the end of a text, and what stands before it. -/
def readNumberEnd? (t : Text) : Option (Text × Nat) :=
  let digits := t.rtakeWhile Char.isDigit
  let n := Nat.ofDigitChars 10 digits 0
  if decimal n = digits then some (t.rdropWhile Char.isDigit, n) else none

/-- Read a plain line from its right end: the path, the number of the line, its length. -/
def readPlainLine? (t : Text) : Option (Text × Nat × Nat) := do
  let (front, length) ← readNumberEnd? t
  let front ← front.dropSuffix? ": Length ".toList
  let (front, line) ← readNumberEnd? front
  let path ← front.dropSuffix? [':']
  return (path, line, length)

/-- A number is read where the digits at the end are those of one, and all of them. -/
theorem readNumberEnd?_eq_some_iff {t front : Text} {n : Nat} :
    readNumberEnd? t = some (front, n) ↔
      t = front ++ decimal n ∧ front.rdropWhile Char.isDigit = front := by
  unfold readNumberEnd?
  constructor
  · intro h
    obtain ⟨hdigits, heq⟩ := Option.ite_none_right_eq_some.mp h
    obtain ⟨rfl, rfl⟩ := Prod.ext_iff.mp (Option.some.inj heq)
    refine ⟨?_, List.rdropWhile_idempotent _ _⟩
    rw [hdigits]
    exact List.rdropWhile_append_rtakeWhile.symm
  · rintro ⟨rfl, hfront⟩
    have hmem : ∀ c ∈ (decimal n).reverse, c.isDigit = true := fun c hc =>
      Json.isDigit_of_mem_decimal (List.mem_reverse.mp hc)
    have hnone : front.rtakeWhile Char.isDigit = [] :=
      List.rtakeWhile_eq_nil_iff.mpr (List.rdropWhile_eq_self_iff.mp hfront)
    have hdigits : (front ++ decimal n).rtakeWhile Char.isDigit = decimal n := by
      rw [List.rtakeWhile, List.reverse_append, List.takeWhile_append_of_pos hmem,
        List.reverse_append, List.reverse_reverse]
      exact congrArg (· ++ decimal n) hnone
    have hrest : (front ++ decimal n).rdropWhile Char.isDigit = front := by
      rw [List.rdropWhile, List.reverse_append, List.dropWhile_append_of_pos hmem]
      exact hfront
    have hvalue : Nat.ofDigitChars 10 (decimal n) 0 = n := Nat.ofDigitChars_ten_toDigits
    simp only [hdigits, hrest, hvalue, if_true]

theorem dropSuffix?_eq_some_iff {t s front : Text} :
    t.dropSuffix? s = some front ↔ t = front ++ s := by
  simp [List.dropSuffix?_eq_some_iff]

/-- Whatever a path holds, the line that it is in is read back. -/
theorem readPlainLine?_eq_some_iff {t path : Text} {line length : Nat} :
    readPlainLine? t = some (path, line, length) ↔ t = path ++ plainEnd line length := by
  -- neither the word nor the colon ends in a digit
  have hword (front : Text) : (front ++ ": Length ".toList).rdropWhile Char.isDigit =
      front ++ ": Length ".toList := List.rdropWhile_eq_self_iff.mpr fun _ => by simp
  have hcolon (front : Text) : (front ++ [':']).rdropWhile Char.isDigit = front ++ [':'] :=
    List.rdropWhile_eq_self_iff.mpr fun _ => by simp
  simp only [readPlainLine?, Option.bind_eq_bind, Option.bind_eq_some_iff, Prod.exists,
    readNumberEnd?_eq_some_iff, dropSuffix?_eq_some_iff, Option.some.injEq, Prod.mk.injEq,
    pure]
  constructor
  · rintro ⟨_, _, ⟨rfl, -⟩, _, rfl, _, _, ⟨rfl, -⟩, _, rfl, rfl, rfl, rfl⟩
    simp [plainEnd]
  · rintro rfl
    exact ⟨_, _, ⟨by simp [plainEnd], hword (path ++ [':'] ++ decimal line)⟩, _, rfl, _, _,
      ⟨rfl, hcolon path⟩, _, rfl, rfl, rfl, rfl⟩

/-- Read closed lines as violations. A line that reads as none is the beginning of a path that
goes on on the next. -/
def readPlainLines (begun : Text) : List Text → List (Text × Nat × Nat)
  | [] => []
  | l :: ls =>
    match readPlainLine? l with
    | some (path, line, length) => (begun ++ path, line, length) :: readPlainLines [] ls
    | none => readPlainLines (begun ++ l ++ ['\n']) ls

/-- The line reads as a violation. -/
def ReadsAsViolation (l : Text) : Prop := (readPlainLine? l).isSome

instance : DecidablePred ReadsAsViolation := fun l =>
  inferInstanceAs (Decidable ((readPlainLine? l).isSome = true))

/-- One violation is read for each line that reads as one. -/
theorem length_readPlainLines (begun : Text) (ls : List Text) :
    (readPlainLines begun ls).length = ls.countP fun l => ReadsAsViolation l := by
  induction ls generalizing begun with
  | nil => rfl
  | cons l ls ih =>
    rw [readPlainLines, List.countP_cons]
    rcases h : readPlainLine? l with _ | ⟨path, line, length⟩
    · simp [ReadsAsViolation, h, ih]
    · simp [ReadsAsViolation, h, ih]

/-- Lines that read as none go on in front of the next. -/
theorem readPlainLines_append {ls : List Text} (h : ∀ l ∈ ls, ¬ReadsAsViolation l)
    (begun : Text) (rest : List Text) :
    readPlainLines begun (ls ++ rest) =
      readPlainLines (begun ++ ls.flatMap fun l => l ++ ['\n']) rest := by
  induction ls generalizing begun with
  | nil => simp
  | cons l ls ih =>
    have hl : readPlainLine? l = none := by
      simpa [ReadsAsViolation] using h l (List.mem_cons_self ..)
    rw [List.cons_append, readPlainLines, hl]
    dsimp only
    rw [ih fun m hm => h m (List.mem_cons_of_mem _ hm), List.flatMap_cons]
    simp only [List.append_assoc]

end Report

/-- A line of the path reads as a violation, although there is none for it. -/
def Violation.HidesLine (v : Violation) : Prop :=
  ∃ l ∈ closedLines (lossy v.path), Report.ReadsAsViolation l

namespace Report

theorem render_text_cons (v : Violation) (vs : List Violation) :
    render .text (v :: vs) = v.plainLine ++ render .text vs := rfl

/-- The report on two lists is the one report after the other. -/
theorem render_text_append (vs ws : List Violation) :
    render .text (vs ++ ws) = render .text vs ++ render .text ws := by
  simp [render, pieces]

/-- The closed lines of a violation's part of a report: those of its path, and what its path has
after its last newline together with the rest of the plain line. -/
theorem closedLines_render_text_cons (v : Violation) (vs : List Violation) :
    closedLines (render .text (v :: vs)) =
      closedLines (lossy v.path) ++ (openLine (lossy v.path) ++ plainEnd v.line v.length) ::
        closedLines (render .text vs) := by
  rw [render_text_cons, plainLine_eq, List.append_assoc, List.singleton_append,
    closedLines_append, textLines_append_of_not_mem _ (newline_not_mem_plainEnd _ _),
    List.append_assoc, List.singleton_append]

/-- Anything before the numbers of a violation can be read as its path. -/
theorem readsAsViolation_plainEnd (path : Text) (line length : Nat) :
    ReadsAsViolation (path ++ plainEnd line length) := by
  rw [ReadsAsViolation, readPlainLine?_eq_some_iff.mpr rfl]
  rfl

/-- A report ends its last line. -/
theorem openLine_render_text (vs : List Violation) : openLine (render .text vs) = [] := by
  induction vs with
  | nil => rfl
  | cons v vs ih =>
    rw [render_text_cons, plainLine_eq, List.append_assoc, List.singleton_append,
      openLine_append, ih]

/-- A report has a line for each violation, and one for each newline in a path. -/
theorem length_closedLines_render_text (vs : List Violation) :
    (closedLines (render .text vs)).length =
      vs.length + (vs.map fun v => v.path.count newline).sum := by
  induction vs with
  | nil => rfl
  | cons v vs ih =>
    rw [closedLines_render_text_cons, List.length_append, List.length_cons, ih,
      length_closedLines, count_newline_lossy, List.map_cons, List.sum_cons, List.length_cons]
    omega

/-- The lines that read as violations are one for each violation, and the hidden ones. -/
theorem countP_closedLines_render_text (vs : List Violation) :
    (closedLines (render .text vs)).countP (fun l => ReadsAsViolation l) =
      vs.length + (vs.map fun v =>
        (closedLines (lossy v.path)).countP fun l => ReadsAsViolation l).sum := by
  induction vs with
  | nil => rfl
  | cons v vs ih =>
    rw [closedLines_render_text_cons, List.countP_append, List.countP_cons, ih,
      if_pos (decide_eq_true (readsAsViolation_plainEnd ..)), List.map_cons, List.sum_cons,
      List.length_cons]
    omega

/-- No line is hidden in the paths if and only if none is in any of them. -/
theorem sum_hidden_eq_zero_iff {vs : List Violation} :
    (vs.map fun v => (closedLines (lossy v.path)).countP fun l => ReadsAsViolation l).sum = 0 ↔
      ∀ v ∈ vs, ¬v.HidesLine := by
  simp [List.sum_eq_zero_iff_forall_eq_nat, List.countP_eq_zero, Violation.HidesLine]

/-- Where no line is hidden, the lines of a report are read as its violations. -/
theorem readPlainLines_render_text {vs : List Violation} (h : ∀ v ∈ vs, ¬v.HidesLine) :
    readPlainLines [] (closedLines (render .text vs)) = vs.map Violation.shown := by
  induction vs with
  | nil => rfl
  | cons v vs ih =>
    have hv : ∀ l ∈ closedLines (lossy v.path), ¬ReadsAsViolation l := fun l hl hreads =>
      h v (List.mem_cons_self ..) ⟨l, hl, hreads⟩
    rw [closedLines_render_text_cons, readPlainLines_append hv, readPlainLines,
      readPlainLine?_eq_some_iff.mpr rfl]
    dsimp only
    rw [List.nil_append, flatMap_closedLines, ih fun w hw => h w (List.mem_cons_of_mem _ hw)]
    rfl

/-- Lists that hide no line give the same report only if they show the same. -/
theorem render_text_injective {vs ws : List Violation} (hvs : ∀ v ∈ vs, ¬v.HidesLine)
    (hws : ∀ w ∈ ws, ¬w.HidesLine) (h : render .text vs = render .text ws) :
    vs.map Violation.shown = ws.map Violation.shown := by
  rw [← readPlainLines_render_text hvs, h, readPlainLines_render_text hws]

/-! ## Lists with the same report -/

/-- One violation for two, in a file that has the whole line of the first in its name. -/
def joined (v w : Violation) : Violation := ⟨utf8 (v.plainLine ++ lossy w.path), w.line, w.length⟩

/-- Two violations are written as the one whose path takes in all of the first. -/
theorem plainLine_joined (v w : Violation) :
    (joined v w).plainLine = v.plainLine ++ w.plainLine := by
  rw [plainLine_eq, joined, lossy_utf8, plainLine_eq w, List.append_assoc, List.append_assoc,
    List.append_assoc]

/-- A closed line stands in the text, with a newline after it. -/
theorem exists_append_of_mem_closedLines {t l : Text} (h : l ∈ closedLines t) :
    ∃ before after, t = before ++ l ++ '\n' :: after := by
  obtain ⟨ls, ls', hls⟩ := List.append_of_mem h
  have hwhole := flatMap_closedLines t
  rw [hls, List.flatMap_append, List.flatMap_cons] at hwhole
  refine ⟨ls.flatMap fun l => l ++ ['\n'], (ls'.flatMap fun l => l ++ ['\n']) ++ openLine t,
    hwhole.symm.trans ?_⟩
  simp only [List.append_assoc, List.cons_append, List.nil_append]

/-- Two violations for one that hides a line. -/
theorem exists_plainLine_append_of_hidesLine {v : Violation} (h : v.HidesLine) :
    ∃ w w' : Violation, w.plainLine ++ w'.plainLine = v.plainLine := by
  obtain ⟨l, hl, hreads⟩ := h
  obtain ⟨⟨path, line, length⟩, hread⟩ := Option.isSome_iff_exists.mp hreads
  obtain rfl := readPlainLine?_eq_some_iff.mp hread
  obtain ⟨before, after, hpath⟩ := exists_append_of_mem_closedLines hl
  refine ⟨⟨utf8 (before ++ path), line, length⟩, ⟨utf8 after, v.line, v.length⟩, ?_⟩
  simp only [plainLine_eq, lossy_utf8, hpath, List.append_assoc, List.cons_append,
    List.nil_append]

/-- Lists that show other violations give the same report if and only if there are two violations
to join or a hidden line to split at. -/
theorem exists_render_text_eq_iff (vs : List Violation) :
    (∃ ws, render .text ws = render .text vs ∧
        ws.map Violation.shown ≠ vs.map Violation.shown) ↔
      2 ≤ vs.length ∨ ∃ v ∈ vs, v.HidesLine := by
  constructor
  · rintro ⟨ws, hrender, hshown⟩
    by_contra hone
    obtain ⟨hlength, hvs⟩ := not_or.mp hone
    have hvs' : ∀ v ∈ vs, ¬v.HidesLine := fun v hv h => hvs ⟨v, hv, h⟩
    -- the lines that read as violations are those of both lists
    have hcount := countP_closedLines_render_text ws
    rw [hrender, countP_closedLines_render_text vs, sum_hidden_eq_zero_iff.mpr hvs'] at hcount
    refine hshown (render_text_injective (sum_hidden_eq_zero_iff.mp ?_) hvs' hrender)
    cases ws with
    | nil => rfl
    | cons w ws =>
      rw [List.length_cons] at hcount
      omega
  · -- the other list has another length
    have hother (ws : List Violation) (hrender : render .text ws = render .text vs)
        (hlength : ws.length ≠ vs.length) : ∃ ws, render .text ws = render .text vs ∧
          ws.map Violation.shown ≠ vs.map Violation.shown :=
      ⟨ws, hrender, fun h => hlength (by simpa using congrArg List.length h)⟩
    rintro (htwo | ⟨v, hv, hhides⟩)
    · match vs, htwo with
      | v :: w :: vs, _ =>
        refine hother (joined v w :: vs) ?_ (by simp)
        rw [render_text_cons, plainLine_joined, List.append_assoc]
        rfl
    · obtain ⟨before, after, rfl⟩ := List.append_of_mem hv
      obtain ⟨w, w', hsplit⟩ := exists_plainLine_append_of_hidesLine hhides
      refine hother (before ++ w :: w' :: after) ?_ (by simp)
      rw [render_text_append, render_text_append, render_text_cons, render_text_cons,
        render_text_cons, ← hsplit, List.append_assoc]

/-- One violation, in a file with a newline in its name, or two. -/
example :
    render .text [⟨utf8 "a:1: Length 9\nb".toList, 2, 7⟩] =
      render .text [⟨utf8 "a".toList, 1, 9⟩, ⟨utf8 "b".toList, 2, 7⟩] := by decide

/-- What the lines of a report are. There is one for each violation and one for each newline in
a path, each ended by a newline. Read from their right ends, they are the violations if and only
if no path has a newline. The violations are told from them if and only if no path hides a line,
and no other list gives the report if and only if it has at most one, which hides none. -/
theorem lines_render_text (vs : List Violation) :
    ∃ lines : List Text, segments (utf8 (render .text vs)) = lines.map utf8 ++ [[]] ∧
      lines.length = vs.length + (vs.map fun v => v.path.count newline).sum ∧
      (lines.map readPlainLine? = vs.map (fun v => some v.shown) ↔
        ∀ v ∈ vs, newline ∉ v.path) ∧
      (readPlainLines [] lines = vs.map Violation.shown ↔ ∀ v ∈ vs, ¬v.HidesLine) ∧
      ((∃ ws, render .text ws = render .text vs ∧
          ws.map Violation.shown ≠ vs.map Violation.shown) ↔
        2 ≤ vs.length ∨ ∃ v ∈ vs, v.HidesLine) := by
  refine ⟨closedLines (render .text vs), ?_, length_closedLines_render_text vs, ⟨?_, ?_⟩,
    ⟨?_, readPlainLines_render_text⟩, exists_render_text_eq_iff vs⟩
  · rw [segments_utf8, textLines_eq, openLine_render_text, List.map_append]
    rfl
  · intro hlines v hv
    have hlength := congrArg List.length hlines
    rw [List.length_map, List.length_map, length_closedLines_render_text, Nat.add_eq_left,
      List.sum_eq_zero_iff_forall_eq_nat] at hlength
    exact List.count_eq_zero.mp (hlength _ (List.mem_map_of_mem hv))
  · intro hpaths
    induction vs with
    | nil => rfl
    | cons v vs ih =>
      have hv : '\n' ∉ lossy v.path := by
        rw [← List.count_eq_zero, count_newline_lossy, List.count_eq_zero]
        exact hpaths v (List.mem_cons_self ..)
      rw [closedLines_render_text_cons, closedLines_of_not_mem hv, openLine_of_not_mem hv,
        List.nil_append, List.map_cons, readPlainLine?_eq_some_iff.mpr rfl,
        ih fun w hw => hpaths w (List.mem_cons_of_mem _ hw)]
      rfl
  · intro hread
    have hlength := congrArg List.length hread
    rw [length_readPlainLines, countP_closedLines_render_text, List.length_map,
      Nat.add_eq_left] at hlength
    exact sum_hidden_eq_zero_iff.mp hlength

/-- A line of a file with a newline in its name is reported on two lines. -/
theorem not_forall_lines_render_text :
    ¬∀ vs : List Violation, ∃ lines : List Text,
      segments (utf8 (render .text vs)) = lines.map utf8 ++ [[]] ∧
      lines.length = vs.length ∧
      lines.map readPlainLine? = vs.map (fun v => some v.shown) ∧
      ∀ ws, render .text ws = render .text vs →
        ws.map Violation.shown = vs.map Violation.shown := by
  intro h
  obtain ⟨lines, hlines, hlength, -⟩ := h [⟨utf8 "a:1: Length 9\nb".toList, 2, 7⟩]
  have hcount := congrArg List.length hlines
  rw [List.length_append, List.length_map, hlength] at hcount
  exact absurd hcount (by decide)

end Report

end LineLimit
