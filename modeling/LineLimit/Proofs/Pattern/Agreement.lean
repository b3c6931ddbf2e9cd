import LineLimit.Proofs.Pattern.Base
import LineLimit.Proofs.Pattern.Positions

/-!
# The two matchers agree

A path below the base of a pattern is tested twice: the glob as a whole must
accept it, and the steps, followed name by name, must admit its names. Where the
components can be told apart in the glob, the two tests say the same.

> `matchesPath_eq_admits`: a glob that accepts a path admits its names, and
> unless the last component is `**`, a glob that admits names accepts the path.

The glob has the language of its steps (`Step.language_assemble`), the literal
parts take the base (`intercalate_mem_literals`), and the other steps take
the names (`Step.takes_of_mem`).
-/

namespace LineLimit

open Glob (Token Tokens language oneByte)

variable {ignoreCase : Bool}

/-! ## The literal parts -/

/-- The literal parts of a pattern take themselves. -/
theorem Step.intercalate_mem_literals {literals : List Text}
    (hliterals : ∀ part ∈ literals, '/' ∉ part) {steps : List Step} (hsteps : steps ≠ [])
    {names : List Bytes} (hne : names ≠ []) (hnames : ∀ n ∈ names, slash ∉ n) :
    [slash].intercalate (literals.map utf8 ++ names) ∈
        pathLanguage ignoreCase (literals.map ofLiteral ++ steps) ↔
      [slash].intercalate names ∈ pathLanguage ignoreCase steps := by
  induction literals with
  | nil => exact Iff.rfl
  | cons part literals ih =>
    have hpart : '/' ∉ part := hliterals part (List.mem_cons_self ..)
    have hbytes : slash ∉ utf8 part := fun h => hpart (Glob.slash_mem_utf8.mp h)
    have hlanguage : ∀ s ∈ language ignoreCase (part.map Token.literal), slash ∉ s := by
      intro s hs
      rw [language_literals] at hs
      exact Glob.slash_not_mem_alike hbytes hs
    have hall : ∀ n ∈ utf8 part :: (literals.map utf8 ++ names), slash ∉ n := by
      intro n hn
      rcases List.mem_cons.mp hn with rfl | hn
      · exact hbytes
      · rcases List.mem_append.mp hn with hn | hn
        · obtain ⟨q, hq, rfl⟩ := List.mem_map.mp hn
          exact fun h => hliterals q (List.mem_cons_of_mem _ hq) (Glob.slash_mem_utf8.mp h)
        · exact hnames n hn
    obtain ⟨next, rest, hrest⟩ : ∃ next rest, literals.map ofLiteral ++ steps = next :: rest :=
      List.exists_cons_of_ne_nil (by simp [hsteps])
    rw [List.map_cons, List.map_cons, List.cons_append, List.cons_append, hrest, ofLiteral,
      pathLanguage, intercalate_mem_mul_iff (List.cons_ne_nil _ _) hall hlanguage, ← hrest,
      ← ih fun q hq => hliterals q (List.mem_cons_of_mem _ hq)]
    constructor
    · intro hexists
      obtain ⟨n, more, hcons, -, -, hmem⟩ := hexists
      obtain ⟨-, rfl⟩ := List.cons.inj hcons
      exact hmem
    · intro hmem
      refine ⟨utf8 part, _, rfl, by simp [hne], ?_, hmem⟩
      rw [language_literals]
      exact Glob.mem_alike_self _

/-! ## The tokens of the components in the glob -/

section Tokens

variable {t : Token} (hspans : t.spans = false) (hslash : t.isSlash = false)

include hslash in
/-- A `**` after a component takes the place of a slash, or of another `**`. -/
theorem Step.mem_below {base : Tokens} (hbase : Joint base) {step : Step}
    (h : t ∈ base ∨ ∃ glob dotted, step = .name glob dotted ∧ t ∈ glob) :
    t ∈ step.below base := by
  cases step with
  | name glob dotted =>
    refine List.mem_cons_of_mem _ (List.mem_append.mpr ?_)
    rcases h with h | ⟨_, _, hname, h⟩
    · exact .inr h
    · obtain ⟨rfl, -⟩ := Step.name.inj hname
      exact .inl (List.mem_reverse.mpr h)
  | directories =>
    rcases h with h | ⟨_, _, hname, -⟩
    · cases hbase with
      | start => exact absurd h List.not_mem_nil
      | leading => exact h
      | slash base =>
        rcases List.mem_cons.mp h with rfl | h
        · exact absurd hslash (by decide)
        · exact List.mem_cons_of_mem _ h
      | between base => exact h
    · exact absurd hname (by simp)

include hspans hslash in
/-- The tokens of the last component are in the glob that it closes. -/
theorem Step.mem_closing {base : Tokens} (hbase : Joint base) {step : Step}
    (h : t ∈ base ∨ ∃ glob dotted, step = .name glob dotted ∧ t ∈ glob) :
    t ∈ step.closing base := by
  cases step with
  | name glob dotted =>
    refine List.mem_append.mpr ?_
    rcases h with h | ⟨_, _, hname, h⟩
    · exact .inl (List.mem_reverse.mpr h)
    · obtain ⟨rfl, -⟩ := Step.name.inj hname
      exact .inr h
  | directories =>
    rcases h with h | ⟨_, _, hname, -⟩
    · have hending : ∀ {base : Tokens}, t ∈ base → t ∈ ending (.trailing :: base) := fun h =>
        List.mem_reverse.mpr (List.mem_cons_of_mem _ h)
      cases hbase with
      | start => exact absurd h List.not_mem_nil
      | leading =>
        rw [List.mem_singleton.mp h] at hspans
        exact absurd hspans (by decide)
      | slash base =>
        rcases List.mem_cons.mp h with rfl | h
        · exact absurd hslash (by decide)
        · exact hending h
      | between base =>
        rcases List.mem_cons.mp h with rfl | h
        · exact absurd hspans (by decide)
        · exact hending h
    · exact absurd hname (by simp)

include hspans hslash in
/-- A token of a component is a token of the glob. -/
theorem Step.mem_assemble {base : Tokens} (hbase : Joint base) {steps : List Step}
    (h : t ∈ base ∨ ∃ glob dotted, Step.name glob dotted ∈ steps ∧ t ∈ glob) :
    t ∈ assemble base steps := by
  induction steps generalizing base with
  | nil =>
    rcases h with h | ⟨_, _, hname, -⟩
    · exact List.mem_reverse.mpr h
    · exact absurd hname List.not_mem_nil
  | cons step steps ih =>
    -- the token is there already, or comes with the first step, or later
    have hfirst : (t ∈ base ∨ ∃ glob dotted, step = .name glob dotted ∧ t ∈ glob) ∨
        ∃ glob dotted, Step.name glob dotted ∈ steps ∧ t ∈ glob := by
      rcases h with h | ⟨glob, dotted, hname, h⟩
      · exact .inl (.inl h)
      · rcases List.mem_cons.mp hname with hname | hname
        · exact .inl (.inr ⟨glob, dotted, hname.symm, h⟩)
        · exact .inr ⟨glob, dotted, hname, h⟩
    cases steps with
    | nil =>
      rcases hfirst with h | ⟨_, _, hname, -⟩
      · exact mem_closing hspans hslash hbase h
      · exact absurd hname List.not_mem_nil
    | cons next steps =>
      exact ih (hbase.below step) (hfirst.imp (mem_below hslash hbase) id)

end Tokens

namespace Pattern

/-- No component is empty, but for one before a slash at the start. -/
def noEmptyPart (p : Pattern) : Bool :=
  p.text = ['/'] || p.parts.tail.all (!·.isEmpty)

/-- No `**` in a group spans directories. -/
def spansOutsideGroups (p : Pattern) : Bool :=
  p.glob.all fun t => t.spans || t.everywhere (!·.spans)

/-- No class admits a slash. -/
def classesSpareSlash (p : Pattern) : Bool :=
  Glob.everywhere (Token.sparesSlash p.ignoreCase) p.glob

variable {p : Pattern} {steps : List Step}

/-- Where no component is empty, the components are all parts that are not
literal. -/
theorem components_eq (hparts : ∀ part ∈ p.parts.tail, part ≠ []) :
    p.components = p.wildParts := by
  refine List.filter_eq_self.mpr fun part hpart => ?_
  have hne : part ≠ [] := by
    intro hnil
    have hall := parts_eq p
    cases hliteral : p.literalParts with
    | nil =>
      obtain ⟨first, rest, hwild⟩ := List.exists_cons_of_ne_nil (List.ne_nil_of_mem hpart)
      rw [hwild] at hpart
      rcases List.mem_cons.mp hpart with rfl | hpart
      · exact first_ne_nil hwild hnil
      · rw [hliteral, hwild, List.nil_append] at hall
        exact hparts part (by rw [hall]; exact hpart) hnil
    | cons l ls =>
      rw [hliteral, List.cons_append] at hall
      exact hparts part (by rw [hall]; exact List.mem_append_right _ hpart) hnil
  simpa using hne

/-- All parts of the pattern, read one by one. -/
theorem forall₂_parts (hparts : ∀ part ∈ p.parts.tail, part ≠ []) (hsteps : p.steps = some steps) :
    List.Forall₂ (fun part step => Step.read? part = some step) p.parts
      (p.literalParts.map Step.ofLiteral ++ steps) := by
  rw [parts_eq]
  refine List.rel_append ?_ (components_eq hparts ▸ forall₂_steps hsteps)
  rw [List.forall₂_map_right_iff]
  exact List.forall₂_same.mpr fun part hpart => Step.read?_literal (not_any_isMeta hpart)

/-- The components stand for names only. -/
theorem inside (hparts : ∀ part ∈ p.parts.tail, part ≠ []) (hsteps : p.steps = some steps)
    (hgroups : p.spansOutsideGroups = true) (hclasses : p.classesSpareSlash = true) :
    Step.Inside p.ignoreCase steps := by
  intro glob dotted hname
  have hread := forall₂_parts hparts hsteps
  have hmem : Step.name glob dotted ∈ p.literalParts.map Step.ofLiteral ++ steps :=
    List.mem_append_right _ hname
  obtain ⟨part, hpart, hstep⟩ := Step.exists_read?_of_mem hread hmem
  have htokens : Glob.everywhere (Token.staysInside p.ignoreCase) glob = true := by
    refine Glob.everywhere_eq_true.mpr fun t ht => ?_
    obtain ⟨hspans, hslash⟩ := Step.read?_clean hstep (slash_not_mem_part hpart) ht
    have hself : t.isSlash = false := by
      cases t with
      | group branches => rfl
      | _ => simpa [Token.everywhere] using hslash
    have hglob : t ∈ p.glob := by
      rw [glob_of_parts hread hparts]
      exact Step.mem_assemble hspans hself .start (.inr ⟨glob, dotted, hmem, ht⟩)
    have hinner : t.everywhere (!·.spans) = true := by
      have h := List.all_eq_true.mp hgroups t hglob
      rwa [hspans, Bool.false_or] at h
    have hspare := Glob.everywhere_eq_true.mp hclasses t hglob
    unfold Token.staysInside
    rw [Token.everywhere_and, Token.everywhere_and, hinner, hslash, hspare]
    rfl
  exact fun s hs => Glob.slash_not_mem glob htokens hs

/-! ## The two tests -/

/-- A pattern without wildcards matches nothing below itself. -/
theorem matchesPath_of_literal (hwild : p.wildParts = []) {names : List Bytes} (hne : names ≠ [])
    (hnames : ∀ n ∈ names, Path.IsPart n) : p.matchesPath (p.base.extend names) = false := by
  rw [Bool.eq_false_iff]
  intro h
  have hlength : p.base.length = (p.base.extend names).length :=
    List.Forall₂.length_eq (mem_alike_base hwild h)
  have hlonger := Path.length_lt_extend p.base hne hnames
  omega

/-- The glob as a whole accepts the paths that its steps allow. -/
theorem matchesPath_iff (hwild : p.wildParts ≠ []) (hparts : ∀ part ∈ p.parts.tail, part ≠ [])
    (hsteps : p.steps = some steps) {names : List Bytes} (hne : names ≠ [])
    (hnames : ∀ n ∈ names, Path.IsName n) :
    p.matchesPath (p.base.extend names) = true ↔
      [slash].intercalate names ∈ Step.pathLanguage p.ignoreCase steps := by
  have hread := forall₂_parts hparts hsteps
  have hsome : steps ≠ [] := by
    intro hnil
    have hlength := (forall₂_steps hsteps).length_eq
    rw [components_eq hparts, hnil] at hlength
    exact hwild (List.length_eq_zero_iff.mp hlength)
  have hlanguage : language p.ignoreCase p.glob =
      Step.pathLanguage p.ignoreCase (p.literalParts.map Step.ofLiteral ++ steps) := by
    rw [glob_of_parts hread hparts, Step.language_assemble .start, List.reverse_nil,
      Glob.language_nil, one_mul]
  have hslash : ∀ part ∈ p.literalParts, '/' ∉ part := by
    intro part hpart
    refine slash_not_mem_part (p := p) ?_
    rw [parts_eq]
    exact List.mem_append_left _ hpart
  unfold matchesPath
  rw [Glob.accepts_iff, hlanguage, base_extend hwild hparts hne hnames,
    Step.intercalate_mem_literals hslash hsome hne fun n hn => (hnames n hn).slash_not_mem]

/-- Lists that are related element by element are related at their ends. -/
theorem getLast?_of_forall₂ {α β : Type} {R : α → β → Prop} {as : List α} {bs : List β} {b : β}
    (h : List.Forall₂ R as bs) (hb : bs.getLast? = some b) :
    ∃ a, as.getLast? = some a ∧ R a b := by
  induction h with
  | nil => exact absurd hb (by simp)
  | @cons a b' as bs hab hrest ih =>
    cases hrest with
    | nil =>
      obtain rfl : b' = b := by simpa using hb
      exact ⟨a, rfl, hab⟩
    | cons _ _ =>
      rw [List.getLast?_cons_cons] at hb ⊢
      exact ih hb

/-- A last step that is `**` is a last part that is `**`. -/
theorem getLast?_steps (hparts : ∀ part ∈ p.parts.tail, part ≠ []) (hsteps : p.steps = some steps)
    (hlast : p.parts.getLast? ≠ some ['*', '*']) :
    steps.getLast? ≠ some .directories := by
  intro hdirs
  obtain ⟨part, hpart, hread⟩ := getLast?_of_forall₂ (forall₂_steps hsteps) hdirs
  rw [components_eq hparts] at hpart
  refine hlast ?_
  rw [parts_eq, List.getLast?_append, hpart, Step.read?_eq_directories hread]
  rfl

/-- A pattern without wildcards has no steps. -/
theorem steps_of_literal (hwild : p.wildParts = []) (hsteps : p.steps = some steps) :
    steps = [] := by
  have hlength := (forall₂_steps hsteps).length_eq
  unfold components at hlength
  rw [hwild] at hlength
  exact List.length_eq_zero_iff.mp hlength.symm

/-- Where no component is empty but the first, none after it is. -/
theorem part_ne_nil (hwild : p.wildParts ≠ []) (hparts : p.noEmptyPart = true) :
    ∀ part ∈ p.parts.tail, part ≠ [] := by
  rcases (Bool.or_eq_true _ _).mp hparts with htext | hall
  · refine absurd ?_ hwild
    unfold wildParts parts
    rw [of_decide_eq_true htext]
    rfl
  · simpa using hall

/-- A glob that accepts a path below the base of its pattern admits its names.
Unless the last component is `**`, a glob that admits names accepts the path. -/
theorem matchesPath_eq_admits (hsteps : p.steps.isSome = true) (hparts : p.noEmptyPart = true)
    (hgroups : p.spansOutsideGroups = true) (hclasses : p.classesSpareSlash = true)
    {names : List Bytes} (hne : names ≠ []) (hnames : ∀ n ∈ names, Path.IsName n) :
    (p.matchesPath (p.base.extend names) = true → p.admits true false names = true) ∧
      (p.parts.getLast? ≠ some ['*', '*'] →
        p.matchesPath (p.base.extend names) = p.admits true false names) := by
  obtain ⟨steps, hsteps⟩ := Option.isSome_iff_exists.mp hsteps
  have hadmits : p.admits true false names = true ↔ Step.Takes p.ignoreCase true steps names := by
    unfold admits
    rw [hsteps]
    exact Step.admits_file
  by_cases hwild : p.wildParts = []
  · -- nothing lies below a pattern without wildcards, by either test
    have hmatch := matchesPath_of_literal hwild hne (Path.isPart_of_mem hnames)
    have hnone : p.admits true false names = false := by
      rw [Bool.eq_false_iff, ne_eq, hadmits, steps_of_literal hwild hsteps]
      intro h
      cases h with
      | nothing => exact hne rfl
    rw [hmatch, hnone]
    exact ⟨id, fun _ => rfl⟩
  · have hparts := part_ne_nil hwild hparts
    have hinside := inside hparts hsteps hgroups hclasses
    have hmatches := matchesPath_iff hwild hparts hsteps hne hnames
    have hforward : p.matchesPath (p.base.extend names) = true →
        p.admits true false names = true := by
      intro h
      exact hadmits.mpr (Step.takes_of_mem hinside hne hnames (hmatches.mp h))
    refine ⟨hforward, fun hlast => Bool.eq_iff_iff.mpr ⟨hforward, fun h => ?_⟩⟩
    have hslash : ∀ n ∈ names, slash ∉ n := fun n hn => (hnames n hn).slash_not_mem
    exact hmatches.mpr (Step.mem_of_takes (getLast?_steps hparts hsteps hlast) hinside hne
      hslash (hadmits.mp h))

/-- The pattern `lib/**/{a,b}*.[ch]`. -/
def headers : Pattern :=
  ⟨"lib/**/\x7ba,b\x7d*.[ch]".toList, true,
    [.literal 'l', .literal 'i', .literal 'b', .between,
      .group [[.literal 'a'], [.literal 'b']], .star, .literal '.',
      .oneOf false [('c', 'c'), ('h', 'h')]], rfl⟩

theorem matchesPath_eq_admits_headers :
    headers.steps.isSome = true ∧ headers.noEmptyPart = true ∧
      headers.spansOutsideGroups = true ∧ headers.classesSpareSlash = true ∧
      (∀ n ∈ ["x".toList, "Bit.h".toList].map utf8, Path.IsName n) ∧
      headers.matchesPath (headers.base.extend (["x".toList, "Bit.h".toList].map utf8)) =
        headers.admits true false (["x".toList, "Bit.h".toList].map utf8) ∧
      headers.admits true false (["x".toList, "Bit.h".toList].map utf8) = true :=
  ⟨rfl, by decide +kernel, by decide +kernel, by decide +kernel, by decide +kernel,
    (matchesPath_eq_admits rfl (by decide +kernel) (by decide +kernel) (by decide +kernel)
      (by decide +kernel) (by decide +kernel)).2 (by decide +kernel),
    by decide +kernel⟩

end Pattern
end LineLimit
