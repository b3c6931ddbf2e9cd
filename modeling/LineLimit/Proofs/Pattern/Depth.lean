import LineLimit.Proofs.Glob.Crossings
import LineLimit.Proofs.Pattern.Agreement

/-!
# How deep a match can lie

A walk for a pattern goes no deeper than there are components in its text. The text
is split at every slash, be it in a group or after a backslash, so a component need
not be a glob; still, as long as no class admits a slash, nothing matches deeper:

> `length_le_maxDepth`: a match below the base has at most as many names as the
> pattern has components.

A path below the base has a slash between each two names, in a run of its own. The
glob has to cross for each of them, and it crosses at most as often as its text does
(`crossings_of_parse`). A slash at the end of the text leaves room for one more
name, but every match then ends with a slash, and no name does.
-/

namespace LineLimit

open Glob (Token)

/-! ## Slashes of a text and of its bytes -/

/-- Only the slash has the byte of one. -/
theorem slash_not_mem_utf8 {c : Char} (hc : c ≠ '/') : slash ∉ utf8 [c] := by
  intro hmem
  rw [Glob.slash_mem_utf8, List.mem_singleton] at hmem
  exact hc hmem.symm

/-- A text starts with a slash if and only if its bytes do. -/
theorem head?_utf8 (text : Text) :
    (utf8 text).head?.any (· == slash) = text.head?.any (· == '/') := by
  cases text with
  | nil => rfl
  | cons c text =>
    by_cases hc : c = '/'
    · subst hc
      rfl
    · have hne : utf8 [c] ≠ [] := fun hnil => List.cons_ne_nil c [] (utf8_injective hnil)
      obtain ⟨b, bs, hbytes⟩ := List.exists_cons_of_ne_nil hne
      have hb : b ≠ slash := by
        intro heq
        apply slash_not_mem_utf8 hc
        rw [hbytes, heq]
        exact List.mem_cons_self ..
      rw [utf8_cons, hbytes]
      simp [hb, hc]

/-- A text has the runs of slashes of its bytes. -/
theorem runs_utf8 (text : Text) : runs (· == slash) (utf8 text) = runs (· == '/') text := by
  induction text with
  | nil => rfl
  | cons c text ih =>
    by_cases hc : c = '/'
    · subst hc
      show runs (· == slash) (slash :: utf8 text) = _
      rw [runs_cons, runs_cons, ih, head?_utf8]
      rfl
    · have hnone : ∀ b ∈ utf8 [c], (b == slash) = false := by
        intro b hb
        apply beq_eq_false_iff_ne.mpr
        intro heq
        exact slash_not_mem_utf8 hc (heq ▸ hb)
      rw [utf8_cons, runs_append_of_none _ hnone, ih, runs_cons, beq_eq_false_iff_ne.mpr hc]
      simp

/-- The slash that a name after a path needs is in no new run. -/
theorem Path.runs_stem {p : Path} (hp : p ≠ []) :
    runs (· == slash) p.stem = runs (· == slash) (p ++ [slash]) := by
  unfold Path.stem
  split
  · next hstem =>
    rcases hstem with hnil | hlast
    · exact absurd hnil hp
    · rw [runs_concat, hlast]
      simp
  · rfl

theorem Path.IsPart.beq_slash {n : Bytes} (h : Path.IsPart n) : ∀ b ∈ n, (b == slash) = false := by
  intro b hb
  apply beq_eq_false_iff_ne.mpr
  intro heq
  exact h.slash_not_mem (heq ▸ hb)

/-- Names below a path have their runs besides those of the path. -/
theorem Path.runs_extend (p : Path) {names : List Bytes} (hne : names ≠ [])
    (hnames : ∀ n ∈ names, Path.IsPart n) :
    runs (· == slash) (p.extend names) =
      runs (· == slash) p.stem + runs (· == slash) ([slash].intercalate names) := by
  obtain ⟨n, ns, rfl⟩ := List.exists_cons_of_ne_nil hne
  have hn := hnames n (List.mem_cons_self ..)
  rw [Path.extend_cons p hnames]
  apply runs_append_of_head
  rw [head?_intercalate (by simp) hn.beq_slash (by simp [hn.ne_nil])]
  simpa using hn.ne_nil

/-- Names set out with a slash between each two have a run less than there are names. -/
theorem Path.runs_intercalate {names : List Bytes} (hne : names ≠ [])
    (hnames : ∀ n ∈ names, Path.IsPart n) :
    runs (· == slash) ([slash].intercalate names) + 1 = names.length := by
  have hfull : ∀ n ∈ names, n ≠ [] := fun n hn => (hnames n hn).ne_nil
  have hfilter : names.filter (!·.isEmpty) = names :=
    List.filter_eq_self.mpr fun n hn => by simpa using hfull n hn
  have hend : ∀ o : Option Bytes, (∀ n, o = some n → n ∈ names) → o.any List.isEmpty = false := by
    intro o hmem
    cases o with
    | none => rfl
    | some n => simpa using hfull n (hmem n rfl)
  rw [LineLimit.runs_intercalate (by simp) (fun n hn => (hnames n hn).beq_slash) hne, hfilter,
    hend _ fun n hn => List.mem_of_head? hn, hend _ fun n hn => List.mem_of_getLast? hn]
  · simp
  · intro hempty
    exact hfull [] (by rw [hempty]; exact List.mem_singleton_self _) rfl

namespace Pattern

variable {p : Pattern}

/-! ## Stars in the text -/

/-- Two stars in a row are found wherever they stand. -/
theorem hasTwoStars_iff (text : Text) : hasTwoStars text = true ↔ ['*', '*'] <:+: text := by
  induction text with
  | nil => simp [hasTwoStars]
  | cons c text ih =>
    have hhead : ['*', '*'] <+: c :: text ↔ c = '*' ∧ text.head? = some '*' := by
      rw [List.cons_prefix_cons, List.singleton_prefix_iff_head?_eq_some, eq_comm]
    rw [hasTwoStars_cons, List.infix_cons_iff, Bool.or_eq_true, ih, hhead, decide_eq_true_eq]

/-- A slash parts stars. -/
theorem hasTwoStars_intercalate (parts : List Text) :
    hasTwoStars (['/'].intercalate parts) = parts.any hasTwoStars := by
  have hslash : ∀ text rest : Text,
      hasTwoStars (text ++ '/' :: rest) = (hasTwoStars text || hasTwoStars rest) := by
    intro text rest
    induction text with
    | nil => rfl
    | cons c text ih =>
      have hhead : (text ++ '/' :: rest).head? = some '*' ↔ text.head? = some '*' := by
        cases text <;> simp
      rw [List.cons_append, hasTwoStars_cons, hasTwoStars_cons, ih, Bool.or_assoc]
      simp only [hhead]
  induction parts with
  | nil => rfl
  | cons part parts ih =>
    cases parts with
    | nil => simp
    | cons next parts =>
      rw [List.intercalate_cons_cons, List.append_assoc, List.singleton_append, hslash, ih]
      rfl

/-- Where the depth is bounded, it is by the number of components, and the text has no
two stars in a row. -/
theorem maxDepth_spec {depth : Nat} (hdepth : p.maxDepth = some depth) :
    depth = p.components.length ∧ ¬['*', '*'] <:+: p.text := by
  unfold maxDepth at hdepth
  split at hdepth
  · exact absurd hdepth (by simp)
  · next hstars =>
    refine ⟨(Option.some.inj hdepth).symm, ?_⟩
    rw [← hasTwoStars_iff, text_eq, hasTwoStars_intercalate, parts_eq, List.any_append,
      Bool.or_eq_true]
    intro hsome
    rcases hsome with hliteral | hwild
    · -- a star has a meaning, so no literal part has one
      obtain ⟨part, hpart, htwo⟩ := List.any_eq_true.mp hliteral
      have hstar : '*' ∈ part :=
        ((hasTwoStars_iff part).mp htwo).subset (List.mem_cons_self ..)
      have hmeta := List.any_eq_false.mp (not_any_isMeta hpart) '*' hstar
      exact absurd hmeta (by decide)
    · exact hstars hwild

/-! ## Slashes in the text -/

theorem beq_slash_of_mem {part : Text} (h : part ∈ p.wildParts) :
    ∀ c ∈ part, (c == '/') = false := by
  intro c hc
  apply beq_eq_false_iff_ne.mpr
  intro heq
  refine slash_not_mem_part (p := p) ?_ (heq ▸ hc)
  rw [parts_eq]
  exact List.mem_append_right _ h

/-- The wild parts do not start with a slash. -/
theorem head?_wildParts (hwild : p.wildParts ≠ []) :
    (['/'].intercalate p.wildParts).head?.any (· == '/') = false := by
  obtain ⟨part, rest, hparts⟩ := List.exists_cons_of_ne_nil hwild
  have hnil := first_ne_nil hparts
  have hpart := beq_slash_of_mem (hparts ▸ List.mem_cons_self ..)
  rw [hparts, head?_intercalate (by simp) hpart (by simp [hnil])]
  simpa using hnil

/-- The text has the runs of slashes of its base, with the slash that a name after the
base needs, and those of the wild parts. -/
theorem runs_text (hwild : p.wildParts ≠ []) :
    runs (· == '/') p.text =
      runs (· == slash) p.base.stem + runs (· == '/') (['/'].intercalate p.wildParts) := by
  have hhead := head?_wildParts hwild
  rw [text_eq, parts_eq]
  rcases base_eq hwild with ⟨hliteral, hbase⟩ | ⟨hliteral, hbase⟩ | ⟨hne, hbase⟩
  · rw [hliteral, hbase, List.nil_append]
    show _ = 0 + _
    rw [Nat.zero_add]
  · rw [hliteral, hbase, intercalate_append (List.cons_ne_nil _ _) hwild,
      List.intercalate_singleton, List.append_cons, runs_append_of_head hhead]
    rfl
  · have hliteral : p.literalParts ≠ [] := by
      intro hnil
      rw [hnil] at hbase
      exact hne hbase
    rw [Path.runs_stem hne, hbase, ← utf8_intercalate, intercalate_append hliteral hwild,
      List.append_cons, runs_append_of_head hhead, ← runs_utf8, utf8_append]
    rfl

/-- The wild parts have a run of slashes less than there are components, unless the
text ends with a slash. -/
theorem runs_wildParts (hwild : p.wildParts ≠ []) :
    runs (· == '/') (['/'].intercalate p.wildParts) < p.components.length ∨
      p.text.getLast? = some '/' := by
  obtain ⟨part, rest, hparts⟩ := List.exists_cons_of_ne_nil hwild
  have hnil := first_ne_nil hparts
  have hslash : ('/' == '/') = true := rfl
  have hruns := runs_intercalate (q := (· == '/')) hslash (fun _ h => beq_slash_of_mem h) hwild
    (by simp [hparts, hnil])
  have hfirst : p.wildParts.head?.any List.isEmpty = false := by
    simpa [hparts] using hnil
  rw [hfirst, if_neg Bool.false_ne_true, Nat.zero_add] at hruns
  by_cases hlast : p.wildParts.getLast?.any List.isEmpty = true
  · right
    obtain ⟨last, hsome, hempty⟩ := (Option.any_eq_true _ _).mp hlast
    obtain ⟨init, hinit⟩ := List.getLast?_eq_some_iff.mp hsome
    obtain rfl := List.isEmpty_iff.mp hempty
    have hne : p.literalParts ++ init ≠ [] := by
      intro hnone
      rw [(List.append_eq_nil_iff.mp hnone).2, hparts] at hinit
      exact hnil (List.cons.inj hinit).1
    rw [text_eq, parts_eq, hinit, ← List.append_assoc, intercalate_append hne (by simp),
      List.intercalate_singleton]
    exact List.getLast?_concat
  · left
    rw [if_neg hlast] at hruns
    exact Nat.lt_of_succ_le (Nat.le_of_eq hruns)

/-- Each name of a match needs a crossing to the next, so what the glob crosses less often than
its text has runs of slashes, the names fall short of the components. -/
theorem length_add_le_maxDepth {depth : Nat} (hdepth : p.maxDepth = some depth)
    (hclasses : p.classesSpareSlash = true) {spare : Nat}
    (hspare : Glob.crossings p.glob + spare ≤ runs (· == '/') p.text) {names : List Bytes}
    (hne : names ≠ []) (hnames : ∀ n ∈ names, Path.IsPart n)
    (h : p.matchesPath (p.base.extend names) = true) : names.length + spare ≤ depth := by
  have hwild : p.wildParts ≠ [] := by
    intro hwild
    rw [matchesPath_of_literal hwild hne hnames] at h
    exact absurd h (by simp)
  obtain ⟨rfl, hstars⟩ := maxDepth_spec hdepth
  obtain ⟨hspans, -, hslash⟩ := Glob.crossings_of_parse hstars p.parsed
  have hmem : p.base.extend names ∈ Glob.language p.ignoreCase p.glob :=
    (Glob.accepts_iff p.glob _).mp h
  have hpath := Path.runs_extend p.base hne hnames
  have hbound : runs (· == slash) (p.base.extend names) ≤ Glob.crossings p.glob := by
    apply Glob.runs_le_crossings p.glob ?_ hmem
    rw [Glob.everywhere_and, Bool.and_eq_true]
    exact ⟨hspans, hclasses⟩
  have htext := runs_text hwild
  have hlength := Path.runs_intercalate hne hnames
  rcases runs_wildParts hwild with hdeep | hlast
  · omega
  · exact absurd (Glob.getLast?_of_slash (hslash hlast) hmem) (p.base.getLast?_extend hne hnames)

/-- A match below the base has at most as many names as the pattern has components. -/
theorem length_le_maxDepth {depth : Nat} (hdepth : p.maxDepth = some depth)
    (hclasses : p.classesSpareSlash = true) {names : List Bytes}
    (hnames : ∀ n ∈ names, Path.IsPart n) (h : p.matchesPath (p.base.extend names) = true) :
    names.length ≤ depth := by
  by_cases hne : names = []
  · rw [hne]
    exact Nat.zero_le depth
  · have hcrossings : Glob.crossings p.glob + 0 ≤ runs (· == '/') p.text :=
      (Glob.crossings_of_parse (maxDepth_spec hdepth).2 p.parsed).2.1
    exact length_add_le_maxDepth hdepth hclasses hcrossings hne hnames h

end Pattern
end LineLimit
