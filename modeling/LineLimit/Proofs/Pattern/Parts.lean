import LineLimit.Proofs.Glob.Components
import Mathlib.Data.List.Forall2

/-!
# A glob put together from its components

Where every component of a glob can be read alone, the glob is put together
from what they are read as:

> `Pattern.glob_of_parts`: the glob is `Step.assemble []` of the steps.

A component adds its tokens and a slash, or no slash if it is the last. Only
`**` reaches back: it takes the place of the slash before it, unless another
`**` has done so.
-/

namespace LineLimit

open Glob (Tokens Token Reader)
open Glob.Reader (between within initial)

namespace Step

/-- The tokens read, last first, once a component and the slash after it have
been read after `base`. -/
def below (base : Tokens) : Step → Tokens
  | .directories => ((between base none).spanning .between).branch
  | .name glob _ => .literal '/' :: (glob.reverse ++ base)

/-- The glob that ends with these tokens, last first. -/
def ending : Tokens → Tokens
  | [.leading] => [.everything]
  | branch => branch.reverse

/-- The glob, if a component is the last and `base` was read before it. -/
def closing (base : Tokens) : Step → Tokens
  | .directories => ending ((between base none).spanning .trailing).branch
  | .name glob _ => base.reverse ++ glob

/-- The glob of several components after `base`. -/
def assemble (base : Tokens) : List Step → Tokens
  | [] => base.reverse
  | [step] => step.closing base
  | step :: next :: steps => assemble (step.below base) (next :: steps)

/-- A proper component that can be read alone is a step of its own glob. -/
theorem read?_proper {part : Text} {step : Step} (h : Glob.Reader.IsProper part)
    (hread : read? part = some step) :
    ∃ r ts, part.foldlM Reader.step initial = .ok r ∧ r.finish = .ok ts ∧
      step = .name ts (part.head? = some '.') := by
  unfold read? at hread
  rw [if_neg h.2.2] at hread
  split at hread
  · next ts hparse =>
    obtain ⟨r, hr, hts⟩ := exists_of_bind_eq_ok hparse
    exact ⟨r, ts, hr, hts, (Option.some.inj hread).symm⟩
  · exact absurd hread (by simp)

/-- Where two stars are read between two slashes, they span directories. -/
theorem maySpan_between {base : Tokens} {prev : Option Char} (h : base = [] ∨ prev = some '/')
    (last : Option Char) (mode : Glob.Mode) :
    (⟨base, [], last, mode⟩ : Reader).maySpan prev = true := by
  rcases h with rfl | rfl <;> simp [Reader.maySpan]

/-- What two stars become depends on the tokens before them only. -/
theorem spanning_between (base : Tokens) (t : Token) (last : Option Char) (mode : Glob.Mode) :
    (⟨base, [], last, mode⟩ : Reader).spanning t =
      ⟨((between base none).spanning t).branch, [], last, mode⟩ := by
  cases base with
  | nil => rfl
  | cons u base => cases u <;> rfl

/-- A component and the slash after it are read. -/
theorem foldlM_slash {part : Text} {step : Step} {base : Tokens} {prev : Option Char}
    (hread : read? part = some step) (hslash : '/' ∉ part) (h : base = [] ∨ prev = some '/') :
    (part ++ ['/']).foldlM Reader.step (between base prev) =
      .ok (between (step.below base) (some '/')) := by
  rw [List.foldlM_append]
  -- nothing, `*` and `**` leave no component under way, so they are read out
  by_cases hnil : part = []
  · subst hnil
    obtain rfl := Option.some.inj hread
    rfl
  · by_cases hstar : part = ['*']
    · subst hstar
      obtain rfl := Option.some.inj hread
      rfl
    · by_cases hstars : part = ['*', '*']
      · subst hstars
        obtain rfl := Option.some.inj hread
        show (Reader.afterStars ⟨base, [], some '*', .stars prev⟩ prev '/' >>= _) = _
        unfold Reader.afterStars
        rw [maySpan_between h, spanning_between]
        rfl
      · have hproper : Glob.Reader.IsProper part := ⟨hnil, hstar, hstars⟩
        obtain ⟨r, ts, hr, hts, rfl⟩ := read?_proper hproper hread
        obtain ⟨hbegun, hpart⟩ := Glob.Reader.foldlM_part hproper hslash hr
        rw [hpart]
        show ((r.within base).step '/' >>= _) = _
        rw [(hbegun.finish hts base).2.1]
        rfl

/-- The last component is read. -/
theorem foldlM_finish {part : Text} {step : Step} {base : Tokens} {prev : Option Char}
    (hread : read? part = some step) (hslash : '/' ∉ part) (h : base = [] ∨ prev = some '/')
    (hempty : part = [] → base = []) :
    (part.foldlM Reader.step (between base prev) >>= Reader.finish) = .ok (step.closing base) := by
  by_cases hnil : part = []
  · obtain rfl := hempty hnil
    subst hnil
    obtain rfl := Option.some.inj hread
    rfl
  · by_cases hstar : part = ['*']
    · subst hstar
      obtain rfl := Option.some.inj hread
      show Except.ok (Token.star :: base).reverse = _
      rw [List.reverse_cons]
      rfl
    · by_cases hstars : part = ['*', '*']
      · subst hstars
        obtain rfl := Option.some.inj hread
        show Reader.finish ⟨base, [], some '*', .stars prev⟩ = _
        unfold Reader.finish
        show ((Except.ok (if _ then _ else _)) >>= _) = _
        rw [maySpan_between h, spanning_between]
        show (match ((between base none).spanning .trailing).branch with
          | [.leading] => _
          | branch => _) = _
        unfold closing ending
        split <;> simp_all
      · have hproper : Glob.Reader.IsProper part := ⟨hnil, hstar, hstars⟩
        obtain ⟨r, ts, hr, hts, rfl⟩ := read?_proper hproper hread
        obtain ⟨hbegun, hpart⟩ := Glob.Reader.foldlM_part hproper hslash hr
        rw [hpart]
        exact (hbegun.finish hts base).1

/-- Components with a slash between each two are read one by one. -/
theorem foldlM_parts {parts : List Text} {steps : List Step}
    (hread : List.Forall₂ (fun part step => read? part = some step) parts steps)
    (hslash : ∀ part ∈ parts, '/' ∉ part) (hparts : ∀ part ∈ parts.tail, part ≠ [])
    {base : Tokens} {prev : Option Char} (h : base = [] ∨ prev = some '/')
    (hempty : parts.head? = some [] → base = []) (hne : parts ≠ []) :
    ((['/'].intercalate parts).foldlM Reader.step (between base prev) >>= Reader.finish) =
      .ok (assemble base steps) := by
  -- what was read so far is `base`, and a slash is before each further component
  induction hread generalizing base prev with
  | nil => exact absurd rfl hne
  | @cons part step parts steps hstep hrest ih =>
    have hpart : '/' ∉ part := hslash part (List.mem_cons_self ..)
    cases hrest with
    | nil =>
      rw [List.intercalate_singleton]
      exact foldlM_finish hstep hpart h fun hnil => hempty (congrArg some hnil)
    | @cons next step' parts steps hstep' hrest' =>
      have hnext : next ≠ [] := hparts next (List.mem_cons_self ..)
      rw [List.intercalate_cons_cons, List.foldlM_append, foldlM_slash hstep hpart h]
      refine ih (fun q hq => hslash q (List.mem_cons_of_mem _ hq))
        (fun q hq => hparts q (List.mem_cons_of_mem _ hq)) (.inr rfl) (fun hnil => ?_)
        (List.cons_ne_nil _ _)
      exact absurd (Option.some.inj hnil) hnext

/-- The tokens of a component neither span directories nor are slashes. -/
theorem read?_clean {part : Text} {glob : Tokens} {dotted : Bool}
    (hread : read? part = some (.name glob dotted)) (hslash : '/' ∉ part) {t : Token}
    (ht : t ∈ glob) : t.spans = false ∧ t.everywhere (!·.isSlash) = true := by
  by_cases hnil : part = []
  · subst hnil
    obtain ⟨rfl, -⟩ := Step.name.inj (Option.some.inj hread)
    exact absurd ht List.not_mem_nil
  · by_cases hstar : part = ['*']
    · subst hstar
      obtain ⟨rfl, -⟩ := Step.name.inj (Option.some.inj hread)
      rw [List.mem_singleton.mp ht]
      exact ⟨rfl, rfl⟩
    · by_cases hstars : part = ['*', '*']
      · subst hstars
        exact absurd hread (by simp [read?])
      · have hproper : Glob.Reader.IsProper part := ⟨hnil, hstar, hstars⟩
        obtain ⟨r, ts, hr, hts, hname⟩ := read?_proper hproper hread
        obtain ⟨rfl, -⟩ := Step.name.inj hname
        exact ((Glob.Reader.foldlM_part hproper hslash hr).1.finish hts []).2.2 t ht

end Step

/-- Only two stars are read as directories. -/
theorem Step.read?_eq_directories {part : Text} (h : Step.read? part = some .directories) :
    part = ['*', '*'] := by
  unfold Step.read? at h
  split at h
  · assumption
  · split at h
    · exact absurd h (by simp)
    · exact absurd h (by simp)

/-- Every step was read from a component. -/
theorem Step.exists_read?_of_mem {parts : List Text} {steps : List Step} {step : Step}
    (h : List.Forall₂ (fun part step => Step.read? part = some step) parts steps)
    (hstep : step ∈ steps) : ∃ part ∈ parts, Step.read? part = some step := by
  induction h with
  | nil => exact absurd hstep List.not_mem_nil
  | cons hread _ ih =>
    rcases List.mem_cons.mp hstep with rfl | hstep
    · exact ⟨_, List.mem_cons_self .., hread⟩
    · obtain ⟨part, hpart, hread⟩ := ih hstep
      exact ⟨part, List.mem_cons_of_mem _ hpart, hread⟩

/-- No part of a split text has the character it is split at. -/
theorem not_mem_of_mem_splitOn {text part : Text} {c : Char} (h : part ∈ text.splitOn c) :
    c ∉ part := by
  induction text generalizing part with
  | nil =>
    rw [List.splitOn_nil, List.mem_singleton] at h
    rw [h]
    exact List.not_mem_nil
  | cons x text ih =>
    rw [List.splitOn_cons_eq_if_modifyHead] at h
    split at h
    · rcases List.mem_cons.mp h with rfl | h
      · exact List.not_mem_nil
      · exact ih h
    · next hx =>
      cases hsplit : text.splitOn c with
      | nil => exact absurd hsplit (List.splitOn_ne_nil c text)
      | cons first rest =>
        rw [hsplit] at h ih
        rcases List.mem_cons.mp h with rfl | h
        · intro hmem
          rcases List.mem_cons.mp hmem with rfl | hmem
          · exact hx (beq_self_eq_true _)
          · exact ih (List.mem_cons_self ..) hmem
        · exact ih (List.mem_cons_of_mem _ h)

/-- The steps of a pattern are its components, read one by one. -/
theorem Pattern.forall₂_steps {p : Pattern} {steps : List Step} (h : p.steps = some steps) :
    List.Forall₂ (fun part step => Step.read? part = some step) p.components steps := by
  unfold Pattern.steps at h
  generalize p.components = parts at h
  induction parts generalizing steps with
  | nil =>
    obtain rfl : [] = steps := by simpa using h
    exact .nil
  | cons part parts ih =>
    rw [List.mapM_cons] at h
    obtain ⟨step, hstep, h⟩ := Option.bind_eq_some_iff.mp h
    obtain ⟨rest, hrest, h⟩ := Option.bind_eq_some_iff.mp h
    obtain rfl := Option.some.inj h
    exact .cons hstep (ih hrest)

/-- A pattern whose components can be read alone is put together from them. -/
theorem Pattern.glob_of_parts {p : Pattern} {steps : List Step}
    (hread : List.Forall₂ (fun part step => Step.read? part = some step) p.parts steps)
    (hparts : ∀ part ∈ p.parts.tail, part ≠ []) : p.glob = Step.assemble [] steps := by
  have hsplit : ['/'].intercalate p.parts = p.text := List.intercalate_splitOn '/'
  have hassemble : (p.text.foldlM Reader.step (between [] none) >>= Reader.finish) =
      .ok (Step.assemble [] steps) := by
    rw [← hsplit]
    exact Step.foldlM_parts hread (fun _ => not_mem_of_mem_splitOn) hparts (.inl rfl)
      (fun _ => rfl) (List.splitOn_ne_nil '/' p.text)
  exact Except.ok.inj (p.parsed.symm.trans hassemble)

end LineLimit
