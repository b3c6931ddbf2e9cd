import LineLimit.Pattern.Alignment
import LineLimit.Proofs.Glob.Match
import LineLimit.Proofs.Path
import LineLimit.Proofs.Pattern.Parts

/-!
# The paths that steps lead to

`Step.pathLanguage` says which paths the steps of a pattern allow as a whole:
the languages of the components with a slash between each two, and for `**` any
number of directories, each with its slash.

On the one hand this is the language of the glob put together from the steps
(`language_assemble`): a slash that a `**` takes with it, and neighbours that
collapse, make no difference to it. On the other hand a path is in it exactly
if its names can be shared out among the steps:

> `takes_of_mem`: where the path is allowed, its names take all steps.
> `mem_of_takes`: the converse, unless the last step is `**`.
-/

namespace LineLimit.Step

open Glob (Token Tokens language oneByte slash_not_mem)

variable {ignoreCase : Bool}

/-- The paths that the steps allow as a whole. -/
def pathLanguage (ignoreCase : Bool) : List Step → Language UInt8
  | [] => 1
  | [.directories] => Token.everything.language ignoreCase
  | [.name glob _] => language ignoreCase glob
  | .directories :: next :: steps =>
    Token.leading.language ignoreCase * pathLanguage ignoreCase (next :: steps)
  | .name glob _ :: next :: steps =>
    language ignoreCase glob * (oneByte (· == slash) * pathLanguage ignoreCase (next :: steps))

/-! ## The glob put together from the steps -/

/-- What can have been read, last first, where a component starts: nothing, or
something that ends with a slash or with a `**` and its slash. -/
inductive Joint : Tokens → Prop
  | start : Joint []
  | leading : Joint [.leading]
  | slash (base : Tokens) : Joint (.literal '/' :: base)
  | between (base : Tokens) : Joint (.between :: base)

/-- After a step below a joint there is a joint again. -/
theorem Joint.below {base : Tokens} (h : Joint base) (step : Step) : Joint (step.below base) := by
  cases step with
  | name glob dotted => exact .slash _
  | directories =>
    cases h with
    | start => exact .leading
    | leading => exact .leading
    | slash base => exact .between base
    | between base => exact .between base

/-- A `**` below a joint multiplies by any number of directories. -/
theorem language_below {base : Tokens} (h : Joint base) :
    language ignoreCase (Step.directories.below base).reverse =
      language ignoreCase base.reverse * Token.leading.language ignoreCase := by
  cases h with
  | start =>
    show language ignoreCase [.leading] = language ignoreCase [] * _
    rw [Glob.language_singleton, Glob.language_nil, one_mul]
  | leading =>
    show language ignoreCase [.leading] = language ignoreCase [.leading] * _
    rw [Glob.language_singleton, Glob.leading_mul_leading]
  | slash base =>
    show language ignoreCase (.between :: base).reverse = _
    rw [List.reverse_cons, List.reverse_cons, Glob.language_append, Glob.language_append,
      Glob.language_singleton, Glob.language_singleton, Glob.language_between,
      Glob.language_slash, mul_assoc]
  | between base =>
    show language ignoreCase (.between :: base).reverse = _
    rw [List.reverse_cons, Glob.language_append, Glob.language_singleton, Glob.language_between,
      mul_assoc, mul_assoc, Glob.leading_mul_leading]

/-- A `**` at the end multiplies by anything at all. -/
theorem language_closing {base : Tokens} (h : Joint base) :
    language ignoreCase (Step.directories.closing base) =
      language ignoreCase base.reverse * Token.everything.language ignoreCase := by
  have hslash : ∀ base : Tokens, Step.ending (.trailing :: base) = base.reverse ++ [.trailing] := by
    intro base
    exact List.reverse_cons
  cases h with
  | start =>
    show language ignoreCase [.everything] = language ignoreCase [] * _
    rw [Glob.language_singleton, Glob.language_nil, one_mul]
  | leading =>
    show language ignoreCase [.everything] = language ignoreCase [.leading] * _
    rw [Glob.language_singleton, Glob.language_singleton, Glob.leading_mul_everything]
  | slash base =>
    show language ignoreCase (Step.ending (.trailing :: base)) = _
    rw [hslash, List.reverse_cons, Glob.language_append, Glob.language_append,
      Glob.language_singleton, Glob.language_singleton, Glob.language_trailing,
      Glob.language_slash, mul_assoc]
  | between base =>
    show language ignoreCase (Step.ending (.trailing :: base)) = _
    rw [hslash, List.reverse_cons, Glob.language_append, Glob.language_append,
      Glob.language_singleton, Glob.language_singleton, Glob.language_trailing,
      Glob.language_between, mul_assoc, mul_assoc, Glob.leading_mul_everything]

/-- A glob put together from steps stands for the paths that the steps allow. -/
theorem language_assemble {base : Tokens} (h : Joint base) (steps : List Step) :
    language ignoreCase (assemble base steps) =
      language ignoreCase base.reverse * pathLanguage ignoreCase steps := by
  induction steps generalizing base with
  | nil =>
    rw [assemble, pathLanguage, mul_one]
  | cons step steps ih =>
    cases steps with
    | nil =>
      cases step with
      | directories =>
        rw [assemble, pathLanguage, language_closing h]
      | name glob dotted =>
        rw [assemble, pathLanguage, closing, Glob.language_append]
    | cons next steps =>
      rw [assemble, ih (h.below step)]
      cases step with
      | directories =>
        rw [pathLanguage, language_below h, mul_assoc]
      | name glob dotted =>
        rw [pathLanguage, below, List.reverse_cons, List.reverse_append, List.reverse_reverse,
          Glob.language_append, Glob.language_append, Glob.language_singleton,
          Glob.language_slash, mul_assoc, mul_assoc]

/-! ## Names set out in a path

Where none of the names has a slash, how the path that they are set out in is
split tells how the names are. -/

section Names

variable {names : List Bytes} {L M : Language UInt8}

/-- A path of names without a slash has one name. -/
theorem intercalate_mem_iff (hne : names ≠ []) (hL : ∀ s ∈ L, slash ∉ s) :
    [slash].intercalate names ∈ L ↔ ∃ n, names = [n] ∧ n ∈ L := by
  constructor
  · intro h
    obtain ⟨n, rest, rfl⟩ := List.exists_cons_of_ne_nil hne
    cases rest with
    | nil =>
      rw [List.intercalate_singleton] at h
      exact ⟨n, rfl, h⟩
    | cons m rest =>
      rw [List.intercalate_cons_cons] at h
      exact absurd (by simp) (hL _ h)
  · intro hexists
    obtain ⟨n, rfl, hn⟩ := hexists
    rwa [List.intercalate_singleton]

/-- The first slash of a path ends its first name. -/
theorem intercalate_mem_mul_iff (hne : names ≠ []) (hslash : ∀ n ∈ names, slash ∉ n)
    (hL : ∀ s ∈ L, slash ∉ s) :
    [slash].intercalate names ∈ L * (oneByte (· == slash) * M) ↔
      ∃ n rest, names = n :: rest ∧ rest ≠ [] ∧ n ∈ L ∧ [slash].intercalate rest ∈ M := by
  constructor
  · intro h
    obtain ⟨a, ha, c, hc, heq⟩ := Language.mem_mul.mp h
    obtain ⟨x, ⟨y, rfl, hy⟩, b, hb, rfl⟩ := Language.mem_mul.mp hc
    obtain rfl : y = slash := beq_iff_eq.mp hy
    have hpieces : Path.pieces (a ++ slash :: b) = a :: Path.pieces b :=
      List.splitOn_append_cons_self_of_not_mem (hL a ha) b
    rw [show a ++ slash :: b = _ from heq, Path.pieces_intercalate hne hslash] at hpieces
    have hb' : [slash].intercalate (Path.pieces b) = b := List.intercalate_splitOn slash
    exact ⟨a, Path.pieces b, hpieces, List.splitOn_ne_nil _ _, ha, hb'.symm ▸ hb⟩
  · intro hexists
    obtain ⟨n, rest, rfl, hrest, hn, hmem⟩ := hexists
    rw [show n :: rest = [n] ++ rest from rfl, intercalate_append (List.cons_ne_nil _ _) hrest,
      List.intercalate_singleton]
    have hone : [slash] ∈ oneByte (· == slash) := ⟨slash, rfl, beq_self_eq_true _⟩
    exact Language.append_mem_mul hn (Language.append_mem_mul hone hmem)

/-- Directories at the start of a path are some of its names, but not the last. -/
theorem intercalate_mem_leading_mul_iff (hne : names ≠ []) (hslash : ∀ n ∈ names, slash ∉ n) :
    [slash].intercalate names ∈ Token.leading.language ignoreCase * M ↔
      ∃ taken rest, names = taken ++ rest ∧ rest ≠ [] ∧ [slash].intercalate rest ∈ M := by
  constructor
  · intro h
    obtain ⟨a, ha, b, hb, heq⟩ := Language.mem_mul.mp h
    rcases Glob.mem_leading.mp ha with rfl | ha
    · exact ⟨[], names, rfl, hne, heq ▸ hb⟩
    · -- what ends with a slash ends where a name ends
      obtain ⟨m, rfl⟩ := List.getLast?_eq_some_iff.mp ha
      have hpieces : Path.pieces (m ++ slash :: b) = Path.pieces m ++ Path.pieces b :=
        List.splitOn_append_cons_self m b
      rw [show m ++ slash :: b = m ++ [slash] ++ b by simp, heq,
        Path.pieces_intercalate hne hslash] at hpieces
      have hb' : [slash].intercalate (Path.pieces b) = b := List.intercalate_splitOn slash
      exact ⟨Path.pieces m, Path.pieces b, hpieces, List.splitOn_ne_nil _ _, hb'.symm ▸ hb⟩
  · intro hexists
    obtain ⟨taken, rest, rfl, hrest, hmem⟩ := hexists
    by_cases htaken : taken = []
    · subst htaken
      exact Language.append_mem_mul (Glob.mem_leading.mpr (.inl rfl)) hmem
    · rw [intercalate_append htaken hrest]
      have hsplit : [slash].intercalate taken ++ slash :: [slash].intercalate rest =
          ([slash].intercalate taken ++ [slash]) ++ [slash].intercalate rest := by simp
      rw [hsplit]
      exact Language.append_mem_mul (Glob.mem_leading.mpr (.inr List.getLast?_concat)) hmem

end Names

/-! ## Names shared out -/

/-- Every component but `**` stands for text without a slash. -/
def Inside (ignoreCase : Bool) (steps : List Step) : Prop :=
  ∀ glob dotted, Step.name glob dotted ∈ steps → ∀ s ∈ language ignoreCase glob, slash ∉ s

theorem Inside.tail {step : Step} {steps : List Step} (h : Inside ignoreCase (step :: steps)) :
    Inside ignoreCase steps :=
  fun glob dotted hmem => h glob dotted (List.mem_cons_of_mem _ hmem)

/-- Where hidden names are asked for, any name may be taken. -/
theorem mayTake_hidden (dotted : Bool) (n : Bytes) : mayTake true dotted n = true := by
  simp [mayTake]

/-- Where a path is allowed as a whole, its names take all steps. -/
theorem takes_of_mem {steps : List Step} (hinside : Inside ignoreCase steps) {names : List Bytes}
    (hne : names ≠ []) (hnames : ∀ n ∈ names, Path.IsName n)
    (h : [slash].intercalate names ∈ pathLanguage ignoreCase steps) :
    Takes ignoreCase true steps names := by
  induction steps generalizing names with
  | nil =>
    rw [pathLanguage] at h
    obtain ⟨n, rfl, hn⟩ := (intercalate_mem_iff hne fun s hs => by
      rw [(Language.mem_one s).mp hs]
      exact List.not_mem_nil).mp h
    exact absurd ((Language.mem_one n).mp hn) (hnames n (List.mem_cons_self ..)).ne_nil
  | cons step steps ih =>
    have hslash : ∀ n ∈ names, slash ∉ n := fun n hn => (hnames n hn).slash_not_mem
    cases step with
    | directories =>
      cases steps with
      | nil =>
        rw [← List.append_nil names]
        exact .directories (fun n _ => mayTake_hidden false n) .nothing
      | cons next steps =>
        rw [pathLanguage] at h
        obtain ⟨taken, rest, rfl, hrest, hmem⟩ := (intercalate_mem_leading_mul_iff hne hslash).mp h
        exact .directories (fun n _ => mayTake_hidden false n)
          (ih hinside.tail hrest (fun n hn => hnames n (List.mem_append_right _ hn)) hmem)
    | name glob dotted =>
      have hglob := hinside glob dotted (List.mem_cons_self ..)
      cases steps with
      | nil =>
        rw [pathLanguage] at h
        obtain ⟨n, rfl, hn⟩ := (intercalate_mem_iff hne hglob).mp h
        exact .name (mayTake_hidden dotted n) ((Glob.accepts_iff glob n).mpr hn) .nothing
      | cons next steps =>
        rw [pathLanguage] at h
        obtain ⟨n, rest, rfl, hrest, hn, hmem⟩ := (intercalate_mem_mul_iff hne hslash hglob).mp h
        exact .name (mayTake_hidden dotted n) ((Glob.accepts_iff glob n).mpr hn)
          (ih hinside.tail hrest (fun m hm => hnames m (List.mem_cons_of_mem _ hm)) hmem)

/-- Only `**` takes no name at all. -/
theorem getLast?_of_takes_nil {hidden : Bool} {step : Step} {steps : List Step}
    (h : Takes ignoreCase hidden (step :: steps) []) :
    (step :: steps).getLast? = some .directories := by
  generalize hnames : ([] : List Bytes) = names at h
  induction steps generalizing step names with
  | nil =>
    cases h with
    | directories => rfl
    | name => exact absurd hnames (by simp)
  | cons next steps ih =>
    rw [List.getLast?_cons_cons]
    cases h with
    | directories _ hrest => exact ih _ (List.append_eq_nil_iff.mp hnames.symm).2.symm hrest
    | name => exact absurd hnames (by simp)

/-- Where names take all steps and the last step is no `**`, the path is
allowed as a whole. -/
theorem mem_of_takes {steps : List Step} (hlast : steps.getLast? ≠ some .directories)
    (hinside : Inside ignoreCase steps) {names : List Bytes} (hne : names ≠ [])
    (hslash : ∀ n ∈ names, slash ∉ n) (h : Takes ignoreCase true steps names) :
    [slash].intercalate names ∈ pathLanguage ignoreCase steps := by
  induction h with
  | nothing => exact absurd rfl hne
  | @directories taken names steps htaken hrest ih =>
    cases steps with
    | nil => exact absurd rfl hlast
    | cons next steps =>
      rw [List.getLast?_cons_cons] at hlast
      -- the steps that are left do not end in `**`, so they take a name
      have hnames : names ≠ [] := fun hnil => hlast (getLast?_of_takes_nil (hnil ▸ hrest))
      rw [pathLanguage, intercalate_mem_leading_mul_iff hne hslash]
      exact ⟨taken, names, rfl, hnames,
        ih hlast hinside.tail hnames fun n hn => hslash n (List.mem_append_right _ hn)⟩
  | @name glob dotted n names steps hmay haccepts hrest ih =>
    have hn := (Glob.accepts_iff glob n).mp haccepts
    cases steps with
    | nil =>
      cases hrest with
      | nothing => rwa [pathLanguage, List.intercalate_singleton]
    | cons next steps =>
      rw [List.getLast?_cons_cons] at hlast
      have hnames : names ≠ [] := fun hnil => hlast (getLast?_of_takes_nil (hnil ▸ hrest))
      rw [pathLanguage, intercalate_mem_mul_iff hne hslash
        (hinside glob dotted (List.mem_cons_self ..))]
      exact ⟨n, names, rfl, hnames, hn,
        ih hlast hinside.tail hnames fun m hm => hslash m (List.mem_cons_of_mem _ hm)⟩

end LineLimit.Step
