import LineLimit.Proofs.Glob.Unnested
import LineLimit.Proofs.Pattern.Base

/-!
# Globs read on from a slash

Components that can be read alone are read one by one, the empty ones too, where each has its
slash (`foldlM_slashes`). And from a slash on a glob goes on as the components after it say:

> `parse_join`: after a slash the glob is put together from the other components, also if the
> last of them is empty.

In a text without groups, classes and escapes every component can be read alone
(`exists_steps`).
-/

namespace LineLimit

open Glob (Tokens Token Reader language)
open Glob.Reader (between initial)

namespace Step

variable {ignoreCase : Bool}

/-- A component of a text that is a glob without nesting can be read alone. -/
theorem exists_steps {parts : List Text}
    (h : ∀ part ∈ parts, Glob.Unnested part ∧ '}' ∉ part) :
    ∃ steps, List.Forall₂ (fun part step => read? part = some step) parts steps := by
  induction parts with
  | nil => exact ⟨[], .nil⟩
  | cons part parts ih =>
    obtain ⟨steps, hsteps⟩ := ih fun q hq => h q (List.mem_cons_of_mem _ hq)
    obtain ⟨hnested, hclose⟩ := h part (List.mem_cons_self ..)
    obtain ⟨step, hstep⟩ : ∃ step, read? part = some step := by
      obtain ⟨ts, hts⟩ := (Glob.exists_parse_iff hnested).mpr hclose
      unfold read?
      rw [hts]
      split
      · exact ⟨_, rfl⟩
      · exact ⟨_, rfl⟩
    exact ⟨step :: steps, .cons hstep hsteps⟩

/-! ## Components with their slashes -/

/-- Components, each with the slash after it, add the tokens of their steps. -/
theorem foldlM_slashes {parts : List Text} {steps : List Step}
    (hread : List.Forall₂ (fun part step => read? part = some step) parts steps)
    (hslash : ∀ part ∈ parts, '/' ∉ part) {base : Tokens} {prev : Option Char}
    (h : base = [] ∨ prev = some '/') :
    ∃ prev', (parts.flatMap fun part => part ++ ['/']).foldlM Reader.step (between base prev) =
        .ok (between (steps.foldl below base) prev') ∧
      (steps.foldl below base = [] ∨ prev' = some '/') := by
  induction hread generalizing base prev with
  | nil => exact ⟨prev, rfl, h⟩
  | @cons part step parts steps hstep _ ih =>
    obtain ⟨prev', hrest, hlast⟩ := @ih (fun q hq => hslash q (List.mem_cons_of_mem _ hq))
      (step.below base) (some '/') (.inr rfl)
    refine ⟨prev', ?_, hlast⟩
    rw [List.flatMap_cons, List.foldlM_append,
      foldlM_slash hstep (hslash part (List.mem_cons_self ..)) h]
    exact hrest

/-- Steps below a joint end at a joint again. -/
theorem Joint.foldl_below {base : Tokens} (h : Joint base) (steps : List Step) :
    Joint (steps.foldl Step.below base) := by
  induction steps generalizing base with
  | nil => exact h
  | cons step steps ih => exact ih (h.below step)

/-- A component adds its own tokens and a slash. -/
theorem reverse_below_name (base glob : Tokens) (dotted : Bool) :
    ((Step.name glob dotted).below base).reverse = base.reverse ++ (glob ++ [.literal '/']) := by
  simp [below]

/-- What components add to a glob comes after what was read before them. -/
theorem exists_language_foldl_below {base : Tokens} (h : Joint base) (steps : List Step) :
    ∃ M, language ignoreCase (steps.foldl below base).reverse =
      language ignoreCase base.reverse * M := by
  induction steps generalizing base with
  | nil => exact ⟨1, (mul_one _).symm⟩
  | cons step steps ih =>
    obtain ⟨M, hM⟩ := ih (h.below step)
    rw [List.foldl_cons, hM]
    cases step with
    | directories =>
      rw [language_below h, mul_assoc]
      exact ⟨_, rfl⟩
    | name glob dotted =>
      rw [reverse_below_name, Glob.language_append, mul_assoc]
      exact ⟨_, rfl⟩

/-- What was read up to the start of a component stands for nothing, or for what ends with a
slash. -/
theorem nil_or_getLast?_of_joint {base : Tokens} (h : Joint base) {s : Bytes}
    (hs : s ∈ language ignoreCase base.reverse) : s = [] ∨ s.getLast? = some slash := by
  have hend {u v : Bytes} (hv : v.getLast? = some slash) : (u ++ v).getLast? = some slash := by
    rw [List.getLast?_append, hv, Option.some_or]
  cases h with
  | start =>
    rw [List.reverse_nil, Glob.language_nil] at hs
    exact .inl ((Language.mem_one s).mp hs)
  | leading =>
    rw [List.reverse_singleton, Glob.language_singleton] at hs
    exact Glob.mem_leading.mp hs
  | slash base =>
    rw [List.reverse_cons, Glob.language_append, Glob.language_singleton,
      Glob.language_slash] at hs
    obtain ⟨u, -, v, ⟨b, rfl, hb⟩, rfl⟩ := Language.mem_mul.mp hs
    obtain rfl := beq_iff_eq.mp hb
    exact .inr (hend rfl)
  | between base =>
    rw [List.reverse_cons, Glob.language_append, Glob.language_singleton,
      Glob.language_between] at hs
    obtain ⟨u, -, v, hv, rfl⟩ := Language.mem_mul.mp hs
    obtain ⟨w, ⟨b, rfl, hb⟩, d, hd, rfl⟩ := Language.mem_mul.mp hv
    obtain rfl := beq_iff_eq.mp hb
    rcases Glob.mem_leading.mp hd with rfl | hd
    · exact .inr (hend rfl)
    · exact .inr (hend (hend hd))

/-! ## After a slash -/

/-- What was read last, last first, is a slash, or a `**` that has taken one. -/
def EndsWithSlash (base : Tokens) : Prop :=
  ∃ rest, base = .literal '/' :: rest ∨ base = .between :: rest

/-- A slash, or a `**` that has taken one, is a joint. -/
theorem EndsWithSlash.joint {base : Tokens} (h : EndsWithSlash base) : Joint base := by
  obtain ⟨rest, rfl | rfl⟩ := h
  · exact .slash rest
  · exact .between rest

/-- Every step ends with a slash, or with a `**` that takes the one before it. -/
theorem EndsWithSlash.below {base : Tokens} (h : EndsWithSlash base) (step : Step) :
    EndsWithSlash (step.below base) := by
  cases step with
  | name glob dotted => exact ⟨_, .inl rfl⟩
  | directories =>
    obtain ⟨rest, rfl | rfl⟩ := h
    · exact ⟨_, .inr rfl⟩
    · exact ⟨_, .inr rfl⟩

/-- After a slash the last component is read, even if it is empty. -/
theorem foldlM_finish_of_slash {part : Text} {step : Step} {base : Tokens}
    (hread : read? part = some step) (hslash : '/' ∉ part) (h : EndsWithSlash base) :
    (part.foldlM Reader.step (between base (some '/')) >>= Reader.finish) =
      .ok (step.closing base) := by
  by_cases hnil : part = []
  · subst hnil
    obtain rfl := Option.some.inj hread
    show _ = Except.ok (base.reverse ++ [])
    rw [List.append_nil]
    obtain ⟨rest, rfl | rfl⟩ := h
    · rfl
    · rfl
  · exact foldlM_finish hread hslash (.inr rfl) fun heq => absurd heq hnil

/-- Components joined by slashes, after a slash, assemble as their steps do. -/
theorem foldlM_join {parts : List Text} {steps : List Step}
    (hread : List.Forall₂ (fun part step => read? part = some step) parts steps)
    (hslash : ∀ part ∈ parts, '/' ∉ part) (hne : parts ≠ []) {base : Tokens}
    (h : EndsWithSlash base) :
    ((['/'].intercalate parts).foldlM Reader.step (between base (some '/')) >>= Reader.finish) =
      .ok (assemble base steps) := by
  induction hread generalizing base with
  | nil => exact absurd rfl hne
  | @cons part step parts steps hstep hrest ih =>
    have hpart : '/' ∉ part := hslash part (List.mem_cons_self ..)
    cases hrest with
    | nil =>
      rw [List.intercalate_singleton]
      exact foldlM_finish_of_slash hstep hpart h
    | @cons next step' parts steps hstep' hrest' =>
      rw [List.intercalate_cons_cons, List.foldlM_append, foldlM_slash hstep hpart (.inr rfl)]
      exact ih (fun q hq => hslash q (List.mem_cons_of_mem _ hq)) (List.cons_ne_nil _ _)
        (h.below step)

/-- A glob goes on after a slash as the components after it say. -/
theorem parse_join {parts parts' : List Text} {steps steps' : List Step}
    (hread : List.Forall₂ (fun part step => read? part = some step) parts steps)
    (hread' : List.Forall₂ (fun part step => read? part = some step) parts' steps')
    (hslash : ∀ part ∈ parts ++ parts', '/' ∉ part) (hne : parts' ≠ [])
    (h : EndsWithSlash (steps.foldl below [])) :
    Glob.parse ((parts.flatMap fun part => part ++ ['/']) ++ ['/'].intercalate parts') =
      .ok (assemble (steps.foldl below []) steps') := by
  obtain ⟨prev, hfold, hprev⟩ := foldlM_slashes hread
    (fun part hpart => hslash part (List.mem_append_left _ hpart)) (.inl rfl : [] = [] ∨ none = _)
  obtain rfl : prev = some '/' := hprev.resolve_left fun hnil => by
    obtain ⟨rest, hrest | hrest⟩ := h
    · exact nomatch hrest.symm.trans hnil
    · exact nomatch hrest.symm.trans hnil
  show (_ >>= Reader.finish) = _
  rw [List.foldlM_append, show initial = between [] none from rfl, hfold]
  exact foldlM_join hread' (fun part hpart => hslash part (List.mem_append_right _ hpart)) hne h

/-! ## Literal components -/

/-- Literal components add their characters, with a slash after each. -/
theorem foldl_below_literals (parts : List Text) (base : Tokens) :
    ((parts.map ofLiteral).foldl below base).reverse =
      base.reverse ++ (parts.flatMap fun part => part ++ ['/']).map Token.literal := by
  induction parts generalizing base with
  | nil => simp
  | cons part parts ih =>
    rw [List.map_cons, List.foldl_cons, ih, ofLiteral, reverse_below_name]
    simp

theorem endsWithSlash_literals {parts : List Text} (hne : parts ≠ []) :
    EndsWithSlash ((parts.map ofLiteral).foldl below []) := by
  obtain ⟨init, last, rfl⟩ := (List.eq_nil_or_concat' parts).resolve_left hne
  rw [List.map_append, List.foldl_append]
  exact ⟨_, .inl rfl⟩

/-- Each component without wildcards is read as the step of its name. -/
theorem forall₂_literals {parts : List Text} (h : ∀ part ∈ parts, part.any Pattern.isMeta = false) :
    List.Forall₂ (fun part step => read? part = some step) parts (parts.map ofLiteral) :=
  List.forall₂_map_right_iff.mpr
    (List.forall₂_same.mpr fun part hpart => read?_literal (h part hpart))

end Step

end LineLimit
