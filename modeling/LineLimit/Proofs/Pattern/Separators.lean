import LineLimit.Proofs.Pattern.Joins
import LineLimit.Tree.Lookup
import Mathlib.Data.List.TakeWhile

/-!
# Two slashes for one

A slash in a pattern is doubled: `before/after` becomes `before//after`. The components that are
matched stay what they are, since empty ones do not count. But the pattern as a whole asks for
both slashes, and no path has two in a row, unless the base of the pattern has:

> `matchesPath_doubled`: where the doubled slash stands in the base (`InBase`), the paths below
> the base match as they do below the base of the pattern with one slash.
> `matchesPath_doubled_of_not_inBase`: otherwise no path below the base matches.

This holds of patterns without groups, classes and escapes, and of every slash that is followed
by a component that is not empty.
-/

namespace LineLimit

open Glob (language oneByte alike sameByte)

/-! ## Paths with two slashes in a row -/

namespace Path

/-- Below a path no two slashes follow each other. -/
theorem not_doubled_of_extend {base x y : Path} {names : List Bytes}
    (hnames : ∀ n ∈ names, IsName n) (h : base.extend names = x ++ slash :: y)
    (hx : x = [] ∨ x.getLast? = some slash) (hlength : base.length ≤ x.length) : False := by
  cases names with
  | nil =>
    have hlonger := congrArg List.length h
    rw [List.length_append, List.length_cons] at hlonger
    change base.length = _ at hlonger
    omega
  | cons n ns =>
    rw [extend_cons base (isPart_of_mem hnames)] at h
    have hpieces : pieces ([slash].intercalate (n :: ns)) = n :: ns :=
      pieces_intercalate (List.cons_ne_nil n ns) fun m hm => (hnames m hm).slash_not_mem
    -- no piece of the names is empty, so they neither start with a slash nor have two in a row
    have hsingle {a : Path} (ha : a = [] ∨ a.getLast? = some slash)
        (hsplit : [slash].intercalate (n :: ns) = a ++ slash :: y) : False := by
      have hempty : [] ∈ pieces a := by
        rcases ha with rfl | ha
        · exact List.mem_singleton_self _
        · obtain ⟨m, rfl⟩ := List.getLast?_eq_some_iff.mp ha
          rw [show pieces (m ++ [slash]) = pieces m ++ [[]] from
            List.splitOn_append_cons_self m []]
          exact List.mem_append_right _ (List.mem_singleton_self _)
      have hall : n :: ns = pieces a ++ pieces y := by
        rw [← hpieces, hsplit]
        exact List.splitOn_append_cons_self a y
      exact (hnames [] (hall ▸ List.mem_append_left _ hempty)).ne_nil rfl
    rcases List.append_eq_append_iff.mp h with ⟨a, rfl, hsplit⟩ | ⟨c, hstem, hsplit⟩
    · refine hsingle ?_ hsplit
      by_cases ha : a = []
      · exact .inl ha
      · refine .inr ?_
        rw [List.getLast?_append, List.getLast?_eq_some_getLast ha, Option.some_or] at hx
        rw [List.getLast?_eq_some_getLast ha]
        exact hx.resolve_left (by simp [ha])
    · cases c with
      | nil => exact hsingle (.inl rfl) hsplit.symm
      | cons b c =>
        -- then `x` is the base, and needs no slash after it
        unfold stem at hstem
        split at hstem
        · rw [hstem, List.length_append, List.length_cons] at hlength
          omega
        · next hneeds =>
          have hsame := congrArg List.length hstem
          simp only [List.length_append, List.length_cons, List.length_nil] at hsame
          obtain ⟨rfl, -⟩ := List.append_inj hstem (by omega)
          exact hneeds hx

/-- A slash more between two stretches of a path is no component. -/
theorem components_doubled (a b : Path) :
    components (a ++ slash :: slash :: b) = components (a ++ slash :: b) := by
  obtain ⟨first, rest, ha⟩ := List.exists_cons_of_ne_nil (List.splitOn_ne_nil slash a)
  have hcut (c : Path) : pieces (a ++ slash :: c) = first :: (rest ++ pieces c) := by
    rw [← List.cons_append, ← ha]
    exact List.splitOn_append_cons_self a c
  have hslash : pieces (slash :: b) = [] :: pieces b := List.splitOn_append_cons_self [] b
  rw [components_of_pieces (by simp) (hcut _), components_of_pieces (by simp) (hcut _), hslash,
    List.filter_append, List.filter_append]
  rfl

/-- A slash more between two stretches of a path makes no difference to a look-up. -/
theorem lookupPieces_doubled (a : Path) {b : Path} (hb : b ≠ []) :
    lookupPieces (a ++ slash :: slash :: b) = lookupPieces (a ++ slash :: b) := by
  have hcut (c : Path) : pieces (a ++ slash :: c) = pieces a ++ pieces c :=
    List.splitOn_append_cons_self a c
  have hslash : pieces (slash :: b) = [] :: pieces b := List.splitOn_append_cons_self [] b
  have hlast (c : Path) : (a ++ slash :: (c ++ b)).getLast? = b.getLast? := by
    rw [← List.cons_append, ← List.append_assoc, List.getLast?_append,
      List.getLast?_eq_some_getLast hb, Option.some_or]
  unfold lookupPieces
  rw [show a ++ slash :: slash :: b = a ++ slash :: ([slash] ++ b) from rfl, hlast [slash],
    show a ++ slash :: b = a ++ slash :: ([] ++ b) from rfl, hlast [], hcut, hcut,
    List.filter_append, List.filter_append]
  exact congrArg (fun pieces => _ ++ pieces ++ _) (congrArg (List.filter _) hslash)

theorem head?_doubled (a b : Path) :
    (a ++ slash :: slash :: b).head? = (a ++ slash :: b).head? := by
  cases a <;> rfl

end Path

/-! ## Texts between slashes -/

/-- Texts with a slash after each are the joined texts and one slash more. -/
theorem flatMap_slash (parts : List Text) (hne : parts ≠ []) :
    (parts.flatMap fun part => part ++ ['/']) = ['/'].intercalate parts ++ ['/'] := by
  induction parts with
  | nil => exact absurd rfl hne
  | cons part parts ih =>
    cases parts with
    | nil => simp
    | cons next parts =>
      rw [List.flatMap_cons, ih (List.cons_ne_nil _ _), List.intercalate_cons_cons,
        List.append_assoc, List.append_assoc, List.append_assoc]

/-- A text with a slash after it is its parts, each with the slash after it. -/
theorem flatMap_splitOn (text : Text) :
    ((text.splitOn '/').flatMap fun part => part ++ ['/']) = text ++ ['/'] := by
  rw [flatMap_slash _ (List.splitOn_ne_nil '/' text), List.intercalate_splitOn]

theorem intercalate_ne_nil {part : Text} {parts : List Text} (hne : part ≠ []) :
    ['/'].intercalate (part :: parts) ≠ [] := by
  cases parts with
  | nil => rwa [List.intercalate_singleton]
  | cons next parts => simp [hne, List.intercalate_cons_cons]

/-- The first component of a text is what stands before its first slash. -/
theorem exists_splitOn_eq (text : Text) :
    ∃ rest, text.splitOn '/' = text.takeWhile (· ≠ '/') :: rest := by
  by_cases h : '/' ∈ text
  · obtain ⟨first, rest, rfl, hfirst⟩ := List.eq_append_cons_of_mem h
    have htake : (first ++ '/' :: rest).takeWhile (· ≠ '/') = first := by
      rw [List.takeWhile_append_of_pos fun c hc => by
        simpa using fun heq : c = '/' => hfirst (heq ▸ hc)]
      simp
    rw [htake, List.splitOn_append_cons_self, List.splitOn_eq_singleton hfirst]
    exact ⟨_, rfl⟩
  · rw [List.splitOn_eq_singleton h, List.takeWhile_eq_self_iff.mpr fun c hc => by
      simpa using fun heq : c = '/' => h (heq ▸ hc)]
    exact ⟨[], rfl⟩

/-- The characters of a part are characters of the text. -/
theorem mem_of_mem_splitOn {text part : Text} {c : Char} (hpart : part ∈ text.splitOn '/')
    (hc : c ∈ part) : c ∈ text := by
  have hne : ('/' == c) = false :=
    beq_false_of_ne fun heq => not_mem_of_mem_splitOn hpart (heq ▸ hc)
  have hany : (['/'].intercalate (text.splitOn '/')).any (· == c) = true := by
    rw [any_intercalate hne]
    exact List.any_eq_true.mpr ⟨part, hpart, List.any_eq_true.mpr ⟨c, hc, beq_self_eq_true c⟩⟩
  rw [List.intercalate_splitOn] at hany
  simpa using hany

namespace Pattern

variable {p q : Pattern} {before after : Text}

/-- Between the texts there is a slash of the base: all characters before it, and those of the
component after it, have no meaning. -/
def InBase (before after : Text) : Prop :=
  (before ++ after.takeWhile (· ≠ '/')).any isMeta = false

instance (before after : Text) : Decidable (InBase before after) :=
  inferInstanceAs (Decidable (_ = false))

/-- A slash of the text parts it into the components before it and those after it. -/
theorem parts_of_text (hp : p.text = before ++ '/' :: after) :
    p.parts = before.splitOn '/' ++ after.splitOn '/' := by
  rw [parts, hp, List.splitOn_append_cons_self]

/-- A slash written twice leaves an empty component between them. -/
theorem parts_doubled (hq : q.text = before ++ '/' :: '/' :: after) :
    q.parts = before.splitOn '/' ++ [] :: after.splitOn '/' := by
  rw [parts_of_text hq]
  exact congrArg (_ ++ ·) (List.splitOn_append_cons_self [] after)

/-- A pattern without nesting stays one when a slash is doubled. -/
theorem exists_doubled (p : Pattern) (hp : p.text = before ++ '/' :: after)
    (hnested : Glob.Unnested p.text) :
    ∃ q, compile (before ++ '/' :: '/' :: after) p.ignoreCase = .ok q ∧
      q.text = before ++ '/' :: '/' :: after ∧ q.ignoreCase = p.ignoreCase ∧
        Glob.Unnested q.text := by
  have hmem {c : Char} : c ∈ before ++ '/' :: '/' :: after ↔ c ∈ p.text := by
    rw [hp]
    simp
  have hnested' : Glob.Unnested (before ++ '/' :: '/' :: after) := fun c hc =>
    hnested c (hmem.mp hc)
  have hclose : '}' ∉ before ++ '/' :: '/' :: after := by
    rw [hmem]
    exact (Glob.exists_parse_iff hnested).mp ⟨_, p.parsed⟩
  obtain ⟨glob, hglob⟩ := (Glob.exists_parse_iff hnested').mpr hclose
  exact ⟨_, compile_of_parse hglob p.ignoreCase, rfl, rfl, hnested'⟩

/-- The components of a pattern without nesting can be read alone. -/
theorem exists_steps_of_unnested (hnested : Glob.Unnested p.text) {text : Text}
    (htext : ∀ c ∈ text, c ∈ p.text) {parts : List Text}
    (hparts : ∀ part ∈ parts, part ∈ text.splitOn '/') :
    ∃ steps, List.Forall₂ (fun part step => Step.read? part = some step) parts steps := by
  have hclose : '}' ∉ p.text := (Glob.exists_parse_iff hnested).mp ⟨_, p.parsed⟩
  refine Step.exists_steps fun part hpart => ?_
  have hmem (c : Char) (hc : c ∈ part) : c ∈ p.text :=
    htext c (mem_of_mem_splitOn (hparts part hpart) hc)
  exact ⟨fun c hc => hnested c (hmem c hc), fun hc => hclose (hmem _ hc)⟩

/-- A pattern whose text is read on from a slash has the language of what was read up to there,
followed by that of the other components. -/
theorem language_join {parts parts' : List Text} {steps steps' : List Step}
    (htext : q.text = (parts.flatMap fun part => part ++ ['/']) ++ ['/'].intercalate parts')
    (hread : List.Forall₂ (fun part step => Step.read? part = some step) parts steps)
    (hread' : List.Forall₂ (fun part step => Step.read? part = some step) parts' steps')
    (hslash : ∀ part ∈ parts ++ parts', '/' ∉ part) (hne : parts' ≠ [])
    (h : Step.EndsWithSlash (steps.foldl Step.below [])) :
    language q.ignoreCase q.glob =
      language q.ignoreCase (steps.foldl Step.below []).reverse *
        Step.pathLanguage q.ignoreCase steps' := by
  have hglob : q.glob = Step.assemble (steps.foldl Step.below []) steps' := by
    have hparse := Step.parse_join hread hread' hslash hne h
    rw [← htext, q.parsed] at hparse
    exact Except.ok.inj hparse
  rw [hglob, Step.language_assemble h.joint]

/-- A doubled slash asks for a slash after what ends with one. -/
theorem language_doubled {steps steps' : List Step}
    (hq : q.text = before ++ '/' :: '/' :: after)
    (hread : List.Forall₂ (fun part step => Step.read? part = some step)
      (before.splitOn '/') steps)
    (hread' : List.Forall₂ (fun part step => Step.read? part = some step)
      (after.splitOn '/') steps') :
    language q.ignoreCase q.glob =
      language q.ignoreCase (steps.foldl Step.below []).reverse *
        (oneByte (· == slash) * Step.pathLanguage q.ignoreCase steps') := by
  have htext : q.text = ((before.splitOn '/' ++ [[]]).flatMap fun part => part ++ ['/']) ++
      ['/'].intercalate (after.splitOn '/') := by
    rw [hq, List.flatMap_append, flatMap_splitOn, List.intercalate_splitOn]
    simp
  have hempty : Step.read? [] = some (.name [] false) := rfl
  have hslash : ∀ part ∈ before.splitOn '/' ++ [[]] ++ after.splitOn '/', '/' ∉ part := by
    intro part hpart
    rcases List.mem_append.mp hpart with hpart | hpart
    · rcases List.mem_append.mp hpart with hpart | hpart
      · exact not_mem_of_mem_splitOn hpart
      · rw [List.mem_singleton.mp hpart]
        exact List.not_mem_nil
    · exact not_mem_of_mem_splitOn hpart
  have hbelow : (steps ++ [Step.name [] false]).foldl Step.below [] =
      .literal '/' :: steps.foldl Step.below [] := by
    rw [List.foldl_append]
    rfl
  rw [language_join htext (List.rel_append hread (.cons hempty .nil)) hread' hslash
    (List.splitOn_ne_nil '/' after) ⟨_, .inl hbelow⟩, hbelow, List.reverse_cons,
    Glob.language_append, Glob.language_singleton, Glob.language_slash, mul_assoc]

/-! ## Outside the base -/

/-- A doubled slash matches nothing below the base if it stands after some literal components,
and the base ends with these at the latest. -/
theorem matchesPath_of_doubled (hq : q.text = before ++ '/' :: '/' :: after)
    (hnested : Glob.Unnested q.text) {literals rest : List Text}
    (hparts : before.splitOn '/' = literals ++ rest)
    (hliterals : ∀ part ∈ literals, part.any isMeta = false)
    (hbase : q.base.length ≤ (utf8 (literals.flatMap fun part => part ++ ['/'])).length)
    {names : List Bytes} (hnames : ∀ n ∈ names, Path.IsName n) :
    q.matchesPath (q.base.extend names) = false := by
  have hbefore : ∀ c ∈ before, c ∈ q.text := fun c hc => by simp [hq, hc]
  have hafter : ∀ c ∈ after, c ∈ q.text := fun c hc => by simp [hq, hc]
  have hrest : ∀ part ∈ rest, part ∈ before.splitOn '/' := fun part hpart =>
    hparts ▸ List.mem_append_right _ hpart
  obtain ⟨steps, hsteps⟩ := exists_steps_of_unnested hnested hbefore hrest
  obtain ⟨steps', hsteps'⟩ := exists_steps_of_unnested hnested hafter (fun _ hpart => hpart)
  have hread : List.Forall₂ (fun part step => Step.read? part = some step) (before.splitOn '/')
      (literals.map Step.ofLiteral ++ steps) :=
    hparts ▸ List.rel_append (Step.forall₂_literals hliterals) hsteps
  rw [Bool.eq_false_iff]
  intro hmatch
  have hmem := (Glob.accepts_iff q.glob _).mp hmatch
  rw [language_doubled hq hread hsteps'] at hmem
  obtain ⟨x, hx, z, hz, hsplit⟩ := Language.mem_mul.mp hmem
  obtain ⟨u, ⟨b, rfl, hb⟩, y, -, rfl⟩ := Language.mem_mul.mp hz
  obtain rfl := beq_iff_eq.mp hb
  refine Path.not_doubled_of_extend hnames hsplit.symm ?_ (hbase.trans ?_)
  · exact Step.nil_or_getLast?_of_joint (Step.Joint.start.foldl_below _) hx
  · -- the literal components are as long in `x` as they are written
    rw [List.foldl_append] at hx
    obtain ⟨M, hM⟩ := @Step.exists_language_foldl_below q.ignoreCase _
      (Step.Joint.start.foldl_below (literals.map Step.ofLiteral)) steps
    rw [hM, Step.foldl_below_literals, List.reverse_nil, List.nil_append,
      language_literals] at hx
    obtain ⟨v, hv, w, -, rfl⟩ := Language.mem_mul.mp hx
    rw [List.length_append, ← List.Forall₂.length_eq hv]
    exact Nat.le_add_right _ _

/-- The base is no longer than the literal parts, each with its slash. -/
theorem length_base_le (hwild : q.wildParts ≠ []) :
    q.base.length ≤ (utf8 (q.literalParts.flatMap fun part => part ++ ['/'])).length := by
  rcases base_eq hwild with ⟨-, hbase⟩ | ⟨hliteral, hbase⟩ | ⟨hne, hbase⟩
  · rw [hbase]
    exact Nat.zero_le _
  · rw [hbase, hliteral]
    decide
  · have hsome : q.literalParts ≠ [] := by
      intro hnil
      rw [hnil] at hbase
      exact hne hbase
    rw [hbase, ← utf8_intercalate, flatMap_slash _ hsome, utf8_append, List.length_append]
    exact Nat.le_add_right _ _

/-- A doubled slash outside the base is in no path below the base. -/
theorem matchesPath_doubled_of_not_inBase (hq : q.text = before ++ '/' :: '/' :: after)
    (hnested : Glob.Unnested q.text) (h : ¬InBase before after) {names : List Bytes}
    (hnames : ∀ n ∈ names, Path.IsName n) : q.matchesPath (q.base.extend names) = false := by
  have hparts := parts_doubled hq
  cases hfind : (before.splitOn '/').find? (·.any isMeta) with
  | some part =>
    -- the base ends before the first of the two slashes
    obtain ⟨hpart, literals, rest, hbefore, hliterals⟩ := List.find?_eq_some_iff_append.mp hfind
    have hliterals : ∀ literal ∈ literals, literal.any isMeta = false := by simpa using hliterals
    rw [hbefore, List.append_assoc, List.cons_append] at hparts
    obtain ⟨hliteral, hwild⟩ := literalParts_of_parts hparts hliterals hpart
    refine matchesPath_of_doubled hq hnested hbefore hliterals ?_ hnames
    rw [← hliteral]
    exact length_base_le (hwild ▸ List.cons_ne_nil _ _)
  | none =>
    -- the base ends with the first of the two slashes
    have hbefore : ∀ part ∈ before.splitOn '/', part.any isMeta = false := by
      simpa using List.find?_eq_none.mp hfind
    obtain ⟨rest, hafter⟩ := exists_splitOn_eq after
    have hjoin : ['/'].intercalate (before.splitOn '/') = before := List.intercalate_splitOn '/'
    have hnone : before.any isMeta = false := by
      rw [← hjoin, any_intercalate (by decide)]
      simpa using hbefore
    have hfirst : (after.takeWhile (· ≠ '/')).any isMeta = true := by
      rw [InBase, List.any_append, hnone, Bool.false_or] at h
      exact Bool.eq_true_of_not_eq_false h
    rw [hafter, ← List.singleton_append, ← List.append_assoc] at hparts
    have hliterals : ∀ literal ∈ before.splitOn '/' ++ [[]], literal.any isMeta = false := by
      intro literal hliteral
      rcases List.mem_append.mp hliteral with hliteral | hliteral
      · exact hbefore literal hliteral
      · rw [List.mem_singleton.mp hliteral]
        rfl
    obtain ⟨hliteral, -⟩ := literalParts_of_parts hparts hliterals hfirst
    have hjoined : ['/'].intercalate q.literalParts = before ++ ['/'] := by
      rw [hliteral, intercalate_append (List.splitOn_ne_nil _ _) (List.cons_ne_nil _ _), hjoin]
      rfl
    refine matchesPath_of_doubled hq hnested (List.append_nil _).symm hbefore ?_ hnames
    rw [flatMap_splitOn, ← hjoined]
    exact (congrArg List.length (base_of_joined (by simp [hjoined]))).le

/-! ## In the base -/

/-- Before a slash in the base there is no wildcard. -/
theorem not_any_isMeta_of_inBase (h : InBase before after) {part : Text}
    (hpart : part ∈ before.splitOn '/') : part.any isMeta = false := by
  have hjoin : ['/'].intercalate (before.splitOn '/') = before := List.intercalate_splitOn '/'
  rw [InBase, List.any_append, Bool.or_eq_false_iff, ← hjoin, any_intercalate (by decide)] at h
  simpa using List.any_eq_false.mp h.1 part hpart

/-- The base goes on after text whose components are all literal. -/
theorem base_of_parts {literals : List Text}
    (hliteral : p.literalParts = before.splitOn '/' ++ literals) (hne : literals ≠ []) :
    p.base = utf8 before ++ slash :: utf8 (['/'].intercalate literals) := by
  have hjoined : ['/'].intercalate p.literalParts =
      before ++ '/' :: ['/'].intercalate literals := by
    rw [hliteral, intercalate_append (List.splitOn_ne_nil _ _) hne, List.intercalate_splitOn]
  rw [base_of_joined (by simp [hjoined]), hjoined, utf8_append]
  rfl

/-- In the base, a doubled slash makes the base longer by a slash, and leaves the other parts. -/
theorem base_doubled (hp : p.text = before ++ '/' :: after)
    (hq : q.text = before ++ '/' :: '/' :: after) (hafter : after ≠ [] ∧ after.head? ≠ some '/')
    (h : InBase before after) :
    p.wildParts = q.wildParts ∧ ∃ r, r ≠ [] ∧ p.base = utf8 before ++ slash :: r ∧
      q.base = utf8 before ++ slash :: slash :: r := by
  obtain ⟨rest, hrest⟩ := exists_splitOn_eq after
  have hne : after.takeWhile (· ≠ '/') ≠ [] := by
    cases after with
    | nil => exact absurd rfl hafter.1
    | cons c after =>
      have hc : c ≠ '/' := fun heq => hafter.2 (heq ▸ rfl)
      simp [hc]
  have hfirst : (after.takeWhile (· ≠ '/')).any isMeta = false := by
    rw [InBase, List.any_append, Bool.or_eq_false_iff] at h
    exact h.2
  have hbefore : ∀ part ∈ before.splitOn '/', (!part.any isMeta) = true := fun part hpart => by
    rw [not_any_isMeta_of_inBase h hpart]
    rfl
  have hparts := parts_of_text hp
  have hparts' := parts_doubled hq
  rw [hrest] at hparts hparts'
  generalize after.takeWhile (· ≠ '/') = first at hne hfirst hparts hparts'
  have hempty : ([] : Text).any isMeta = false := rfl
  have hliteral : p.literalParts =
      before.splitOn '/' ++ first :: rest.takeWhile (!·.any isMeta) := by
    rw [literalParts, hparts, List.takeWhile_append_of_pos hbefore, List.takeWhile_cons, hfirst]
    rfl
  have hliteral' : q.literalParts =
      before.splitOn '/' ++ [] :: first :: rest.takeWhile (!·.any isMeta) := by
    rw [literalParts, hparts', List.takeWhile_append_of_pos hbefore, List.takeWhile_cons, hempty,
      List.takeWhile_cons, hfirst]
    rfl
  refine ⟨?_, utf8 (['/'].intercalate (first :: rest.takeWhile (!·.any isMeta))), ?_, ?_, ?_⟩
  · rw [wildParts, wildParts, hparts, hparts', List.dropWhile_append_of_pos hbefore,
      List.dropWhile_append_of_pos hbefore, List.dropWhile_cons, List.dropWhile_cons, hempty,
      hfirst, List.dropWhile_cons, hfirst]
    rfl
  · intro hnil
    exact intercalate_ne_nil hne (utf8_injective hnil)
  · exact base_of_parts hliteral (List.cons_ne_nil _ _)
  · rw [base_of_parts hliteral' (List.cons_ne_nil _ _), List.intercalate_cons_cons]
    rfl

/-- In the base, a doubled slash changes nothing in what matches below the base. -/
theorem matchesPath_doubled (hp : p.text = before ++ '/' :: after)
    (hq : q.text = before ++ '/' :: '/' :: after) (hcase : q.ignoreCase = p.ignoreCase)
    (hnested : Glob.Unnested p.text) (h : InBase before after) {r : Path} (hr : r ≠ [])
    (hpbase : p.base = utf8 before ++ slash :: r)
    (hqbase : q.base = utf8 before ++ slash :: slash :: r) (names : List Bytes) :
    q.matchesPath (q.base.extend names) = p.matchesPath (p.base.extend names) := by
  obtain ⟨steps, hsteps⟩ := exists_steps_of_unnested hnested
    (fun c hc => by simp [hp, hc]) (fun _ (hpart : _ ∈ after.splitOn '/') => hpart)
  have hread := Step.forall₂_literals fun part hpart => not_any_isMeta_of_inBase h hpart
  -- up to the first of the two slashes, both stand for the text as it is written
  have hliterals : language p.ignoreCase
      (((before.splitOn '/').map Step.ofLiteral).foldl Step.below []).reverse =
        alike (sameByte p.ignoreCase) (utf8 before ++ [slash]) := by
    rw [Step.foldl_below_literals, flatMap_splitOn, List.reverse_nil, List.nil_append,
      language_literals, utf8_append]
    rfl
  have htext : p.text = ((before.splitOn '/').flatMap fun part => part ++ ['/']) ++
      ['/'].intercalate (after.splitOn '/') := by
    rw [hp, flatMap_splitOn, List.intercalate_splitOn, List.append_assoc]
    rfl
  have hslashes : ∀ part ∈ before.splitOn '/' ++ after.splitOn '/', '/' ∉ part := by
    rw [← parts_of_text hp]
    exact fun part hpart => slash_not_mem_part hpart
  have hp' := language_join htext hread hsteps hslashes (List.splitOn_ne_nil _ _)
    (Step.endsWithSlash_literals (List.splitOn_ne_nil _ _))
  have hq' := language_doubled hq hread hsteps
  rw [hcase, hliterals] at hq'
  rw [hliterals] at hp'
  have hextend : p.base.extend names = (utf8 before ++ [slash]) ++ r.extend names := by
    rw [hpbase, List.append_cons]
    exact Path.extend_append _ hr names
  have hextend' : q.base.extend names = (utf8 before ++ [slash]) ++ slash :: r.extend names := by
    rw [hqbase, List.append_cons, Path.extend_append _ (List.cons_ne_nil _ _)]
    exact congrArg _ (Path.extend_append [slash] hr names)
  rw [Bool.eq_iff_iff]
  unfold matchesPath
  rw [Glob.accepts_iff, Glob.accepts_iff, hcase, hextend, hextend', hp', hq',
    Glob.append_mem_alike_mul, Glob.append_mem_alike_mul, Glob.cons_mem_oneByte_mul]
  exact and_iff_right (beq_self_eq_true slash)

end Pattern

end LineLimit
